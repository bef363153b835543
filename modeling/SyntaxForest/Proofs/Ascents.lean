import SyntaxForest.Forest.Query
import SyntaxForest.Proofs.BackLinks
import SyntaxForest.Proofs.Consistency
import SyntaxForest.Proofs.LinkedTrees
import Mathlib.Data.List.Chain

/-!
# Ascents

The ancestors of a node are found by going up along links for as long as there is a kept node to
go to. Nothing in that search says that it ends: links are not contents, and could lead round in
a circle. `Ascends` is the search without a bound, as a relation: it holds of a node and a list if
the search from that node comes to an end and has met the nodes of that list. Such a list is
unique, has no node twice and is what `ancestors` answers (`Ascends.ancestors_eq`). So what has to
be shown is that there is one.

It is the contents that make the search end. In a reachable world a link leads to a node that
holds the linked one, whatever has been shared, moved or left behind, and so going up along links
is going up from held to holder. If nothing lies below itself, there are fewer and fewer nodes
above, and in the end none (`Acyclic.exists_ascends`). For one node it is enough that this is so of
the nodes that it lies below (`AcyclicAround.exists_ascends`). This is asked of every record and
not of the live ones alone: a circle that nobody can reach is kept all the same, and going up leads
round in it. Where there is no circle, the nodes that are met are live.

Below a root where the link check passes, every way down is a way up read backwards. So the
ascent from a node further down is the way down to it, backwards, and then the ascent from the
root (`ascends_iff_of_wayDown`); and there is one way down to each node, since there is one way up
(`Linked.wayDown_unique`).

Main statements: `World.ancestors_holderChain` and `World.navigation_agrees`.
-/

namespace SyntaxForest

/-! ## Ways down -/

namespace Forest

variable {f : Forest} {n p d : NodeId} {line : List NodeId}

/-- The nodes of `line` and then `d` are a way down from `r`: it begins with `r`, and every node
holds the next. -/
structure WayDown (f : Forest) (r : NodeId) (line : List NodeId) (d : NodeId) : Prop where
  start : (line ++ [d]).head? = some r
  held : (line ++ [d]).IsChain fun p c => c ∈ f.children p

instance (f : Forest) (r : NodeId) (line : List NodeId) (d : NodeId) :
    Decidable (f.WayDown r line d) :=
  decidable_of_iff ((line ++ [d]).head? = some r ∧
      (line ++ [d]).IsChain fun p c => c ∈ f.children p)
    ⟨fun h => ⟨h.1, h.2⟩, fun h => ⟨h.start, h.held⟩⟩

theorem wayDown_nil : f.WayDown n [] d ↔ d = n := by
  constructor
  · exact fun h => Option.some.inj h.start
  · rintro rfl
    exact ⟨rfl, List.isChain_singleton d⟩

/-- The last step of a way down. -/
theorem wayDown_concat : f.WayDown n (line ++ [p]) d ↔ f.WayDown n line p ∧ d ∈ f.children p := by
  have hhead : (line ++ [p] ++ [d]).head? = (line ++ [p]).head? := by
    cases line <;> rfl
  have hchain : (line ++ [p] ++ [d]).IsChain (fun p c => c ∈ f.children p) ↔
      (line ++ [p]).IsChain (fun p c => c ∈ f.children p) ∧ d ∈ f.children p := by
    rw [List.append_assoc, List.singleton_append, List.isChain_append_cons_cons]
    simp
  constructor
  · rintro ⟨hstart, hheld⟩
    obtain ⟨hline, hd⟩ := hchain.1 hheld
    exact ⟨⟨hhead.symm.trans hstart, hline⟩, hd⟩
  · rintro ⟨⟨hstart, hline⟩, hd⟩
    exact ⟨hhead.trans hstart, hchain.2 ⟨hline, hd⟩⟩

theorem WayDown.below (hclosed : f.Closed) (hn : n < f.size) (h : f.WayDown n line d) :
    f.Below n d := by
  induction line using List.reverseRecOn generalizing d with
  | nil =>
    rw [wayDown_nil.1 h]
    exact .refl hn
  | append_singleton line p ih =>
    obtain ⟨hline, hd⟩ := wayDown_concat.1 h
    exact .held (ih hline) hd (hclosed p d hd)

/-- **There is one way down to each node of a linked subtree.** -/
theorem Linked.wayDown_unique (h : f.Linked n) (hclosed : f.Closed) (hn : n < f.size) :
    ∀ {line other : List NodeId} {d : NodeId}, f.WayDown n line d → f.WayDown n other d →
      line = other := by
  -- no way down that goes anywhere comes back to the root
  have hstart : ∀ {line p}, ¬ f.WayDown n (line ++ [p]) n := by
    intro line p hway
    obtain ⟨hline, hroot⟩ := wayDown_concat.1 hway
    exact h.unheld p (hline.below hclosed hn) hroot
  intro line
  induction line using List.reverseRecOn with
  | nil =>
    intro other d hline hother
    obtain rfl := wayDown_nil.1 hline
    rcases List.eq_nil_or_concat' other with rfl | ⟨other, q, rfl⟩
    · rfl
    · exact absurd hother hstart
  | append_singleton line p ih =>
    intro other d hline hother
    rcases List.eq_nil_or_concat' other with rfl | ⟨other, q, rfl⟩
    · obtain rfl := wayDown_nil.1 hother
      exact absurd hline hstart
    · obtain ⟨hline, hdp⟩ := wayDown_concat.1 hline
      obtain ⟨hother, hdq⟩ := wayDown_concat.1 hother
      obtain rfl := h.holder_unique (hline.below hclosed hn) (hother.below hclosed hn) hdp hdq
      rw [ih hline hother]

end Forest

namespace World

open Forest

variable {w : World} {n p d : NodeId} {l l' line : List NodeId}

/-! ## Going up to the end -/

/-- The chain of holders above a node, nearest first. -/
def ancestors (w : World) (n : NodeId) : List NodeId :=
  w.forest.ancestors (w.forest.kept w.hands) n

/-- The kinds on the way from the topmost holder down to a node. -/
def ancestry (w : World) (n : NodeId) : List Kind :=
  w.forest.ancestry (w.forest.kept w.hands) n

/-- Going up from `n`, from one kept holder to the next, comes to an end. The list has the nodes
that are met, nearest first. -/
inductive Ascends (w : World) : NodeId → List NodeId → Prop
  | top {n : NodeId} : w.parent? n = none → Ascends w n []
  | up {n p : NodeId} {l : List NodeId} : w.parent? n = some p → Ascends w p l →
    Ascends w n (p :: l)

/-- What comes first on the way up is known from the link. -/
theorem ascends_iff_of_parent? (hp : w.parent? n = some p) :
    w.Ascends n l ↔ ∃ rest, w.Ascends p rest ∧ l = p :: rest := by
  constructor
  · rintro (hnone | ⟨hq, hrest⟩)
    · exact absurd (hp.symm.trans hnone) (by simp)
    · obtain rfl := Option.some.inj (hp.symm.trans hq)
      exact ⟨_, hrest, rfl⟩
  · rintro ⟨rest, hrest, rfl⟩
    exact .up hp hrest

namespace Ascends

theorem unique (h : w.Ascends n l) (h' : w.Ascends n l') : l = l' := by
  induction h generalizing l' with
  | top hnone =>
    cases h' with
    | top => rfl
    | up hp _ => exact absurd (hnone.symm.trans hp) (by simp)
  | up hp _ ih =>
    obtain ⟨rest, hrest, rfl⟩ := (ascends_iff_of_parent? hp).1 h'
    rw [ih hrest]

/-- From a node that is met the way up is shorter. -/
theorem of_mem (h : w.Ascends n l) (hp : p ∈ l) :
    ∃ rest, w.Ascends p rest ∧ rest.length < l.length := by
  induction h with
  | top => exact absurd hp List.not_mem_nil
  | @up n q l _ hrest ih =>
    rcases List.mem_cons.1 hp with rfl | hp
    · exact ⟨l, hrest, Nat.lt_succ_self _⟩
    · obtain ⟨rest, hascends, hlt⟩ := ih hp
      exact ⟨rest, hascends, Nat.lt_succ_of_lt hlt⟩

/-- A way up that ends does not come back to where it began. -/
theorem not_mem (h : w.Ascends n l) : n ∉ l := by
  intro hn
  obtain ⟨rest, hrest, hlt⟩ := h.of_mem hn
  rw [h.unique hrest] at hlt
  exact Nat.lt_irrefl _ hlt

theorem nodup (h : w.Ascends n l) : (n :: l).Nodup := by
  induction h with
  | top => exact List.nodup_singleton _
  | up hp hrest ih => exact List.nodup_cons.2 ⟨(Ascends.up hp hrest).not_mem, ih⟩

/-- What is known of every parent is known of every step up. -/
theorem isChain {R : NodeId → NodeId → Prop} (h : w.Ascends n l)
    (hR : ∀ {c p}, w.parent? c = some p → R c p) : (n :: l).IsChain R := by
  induction h with
  | top => exact List.isChain_singleton _
  | up hp _ ih => exact List.isChain_cons_cons.2 ⟨hR hp, ih⟩

theorem kept_of_mem (h : w.Ascends n l) (hp : p ∈ l) : w.Kept p := by
  induction h with
  | top => exact absurd hp List.not_mem_nil
  | up hq _ ih =>
    rcases List.mem_cons.1 hp with rfl | hp
    · exact (parent?_eq_some.1 hq).2
    · exact ih hp

/-- The way up ends at a node without a parent. -/
theorem parent?_getLast (h : w.Ascends n l) :
    ∀ top ∈ (n :: l).getLast?, w.parent? top = none := by
  induction h with
  | top hnone =>
    rintro top ⟨⟩
    exact hnone
  | up _ _ ih =>
    rw [List.getLast?_cons_cons]
    exact ih

theorem ancestorsWithin_eq (h : w.Ascends n l) : ∀ {height : Nat}, l.length ≤ height →
    w.forest.ancestorsWithin (w.forest.kept w.hands) height n = l := by
  induction h with
  | @top n hnone =>
    have hnone : w.forest.parent? (w.forest.kept w.hands) n = none := hnone
    rintro (_ | height) _
    · rfl
    · rw [ancestorsWithin, hnone]
  | @up n p l hp _ ih =>
    have hp : w.forest.parent? (w.forest.kept w.hands) n = some p := hp
    rintro (_ | height) hlength
    · exact absurd hlength (by simp)
    · rw [ancestorsWithin, hp]
      exact congrArg (List.cons p) (ih (Nat.le_of_succ_le_succ hlength))

/-- **Where going up comes to an end, the ancestors are the nodes that are met.** -/
theorem ancestors_eq (h : w.Ascends n l) : w.ancestors n = l := by
  refine h.ancestorsWithin_eq ?_
  have hsubset : l.toFinset ⊆ Finset.range w.forest.size := by
    intro p hp
    exact Finset.mem_range.2 (h.kept_of_mem (List.mem_toFinset.1 hp)).lt_size
  have hcard := Finset.card_le_card hsubset
  rwa [List.toFinset_card_of_nodup (List.nodup_cons.1 h.nodup).2, Finset.card_range] at hcard

end Ascends

/-! ## Worlds in which going up ends -/

/-- Nothing lies below itself. -/
def Acyclic (w : World) : Prop :=
  ∀ p, ∀ c ∈ w.forest.children p, ¬ w.forest.Below c p

instance (w : World) : Decidable w.Acyclic :=
  decidable_of_iff (∀ p < w.forest.size, ∀ c ∈ w.forest.children p, ¬ w.forest.Below c p)
    ⟨fun h p c hc => h p (lt_size_of_mem_children hc) c hc, fun h p _ => h p⟩

/-- Nothing lies below itself, as far as it has to do with `r`: it is below `r`, or `r` is below
it. -/
def AcyclicAround (w : World) (r : NodeId) : Prop :=
  ∀ p, w.forest.Below r p ∨ w.forest.Below p r →
    ∀ c ∈ w.forest.children p, ¬ w.forest.Below c p

instance (w : World) (r : NodeId) : Decidable (w.AcyclicAround r) :=
  decidable_of_iff (∀ p < w.forest.size, w.forest.Below r p ∨ w.forest.Below p r →
      ∀ c ∈ w.forest.children p, ¬ w.forest.Below c p)
    ⟨fun h p hp c hc => h p (lt_size_of_mem_children hc) hp c hc, fun h p _ => h p⟩

theorem Acyclic.around (h : w.Acyclic) (r : NodeId) : w.AcyclicAround r := fun p _ => h p

/-- In a world without circles, what is kept is live. -/
theorem Acyclic.live_of_kept (h : w.Acyclic) (hn : w.Kept n) : w.Live n :=
  Forest.Kept.live hn fun p _ => h p

theorem AcyclicAround.acyclicBelow {r : NodeId} (h : w.AcyclicAround r) :
    w.forest.AcyclicBelow r :=
  fun m hm => h m (.inl hm)

/-- **Going up ends**, since it goes from held to holder. -/
theorem AcyclicAround.exists_ascends {r : NodeId} (h : w.AcyclicAround r)
    (hregular : w.forest.Regular) (hr : r < w.forest.size) : ∃ l, w.Ascends r l := by
  -- by induction over the holders above `r`
  refine holder_induction (A := fun p => w.forest.Below p r)
    (motive := fun n => w.forest.Below n r → ∃ l, w.Ascends n l) (fun _ hp => hp.root_lt)
    (fun p hp => h p (.inr hp)) (fun n hlt ih hn => ?_) r hr (.refl hr)
  cases hp : w.parent? n with
  | none => exact ⟨[], .top hp⟩
  | some p =>
    obtain ⟨hlink, hkept⟩ := parent?_eq_some.1 hp
    obtain ⟨hmem, -⟩ := hregular.holds_of_link hlink
    have hbelow := (Below.child hkept.lt_size hmem hlt).trans hn
    obtain ⟨l, hl⟩ := ih p hbelow hmem hbelow
    exact ⟨p :: l, .up hp hl⟩

theorem Acyclic.exists_ascends (h : w.Acyclic) (hregular : w.forest.Regular)
    (hn : n < w.forest.size) : ∃ l, w.Ascends n l :=
  (h.around n).exists_ascends hregular hn

/-- The list is all that there is above `n`: going up from `n` ends after it, without meeting a
node twice or `n` again; every step up leads from a node to a live node that holds it; and the
last one is to a node without a parent. -/
structure HolderChain (w : World) (n : NodeId) (l : List NodeId) : Prop where
  ends : w.Ascends n l
  nodup : (n :: l).Nodup
  held : (n :: l).IsChain fun c p => w.Live p ∧ w.forest.IsNode p ∧ c ∈ w.forest.children p
  top : ∀ p ∈ (n :: l).getLast?, w.parent? p = none

theorem Ascends.holderChain (h : w.Ascends n l) (hregular : w.forest.Regular)
    (hacyclic : w.Acyclic) : w.HolderChain n l where
  ends := h
  nodup := h.nodup
  held := h.isChain fun hp => by
    obtain ⟨hlink, hkept⟩ := parent?_eq_some.1 hp
    obtain ⟨hmem, hnode⟩ := hregular.holds_of_link hlink
    exact ⟨hacyclic.live_of_kept hkept, hnode, hmem⟩
  top := h.parent?_getLast

/-! ## Below a root whose links have been checked -/

/-- **The way up from a node is the way down to it, backwards, and then the way up from the
root.** -/
theorem ascends_iff_of_wayDown {r : NodeId} (h : w.forest.Linked r) (hclosed : w.forest.Closed)
    (hr : w.Live r) (hway : w.forest.WayDown r line d) :
    w.Ascends d l ↔ ∃ above, w.Ascends r above ∧ l = line.reverse ++ above := by
  induction line using List.reverseRecOn generalizing d l with
  | nil =>
    obtain rfl := wayDown_nil.1 hway
    simp
  | append_singleton line p ih =>
    obtain ⟨hline, hd⟩ := wayDown_concat.1 hway
    have hbelow := hline.below hclosed hr.lt_size
    have hparent : w.parent? d = some p :=
      parent?_eq_some.2 ⟨h.linked p hbelow d hd, Live.kept (hbelow.trans_live hr)⟩
    rw [ascends_iff_of_parent? hparent, List.reverse_append, List.reverse_singleton]
    constructor
    · rintro ⟨rest, hrest, rfl⟩
      obtain ⟨above, habove, rfl⟩ := (ih hline).1 hrest
      exact ⟨above, habove, rfl⟩
    · rintro ⟨above, habove, rfl⟩
      exact ⟨line.reverse ++ above, (ih hline).2 ⟨above, habove, rfl⟩, rfl⟩

/-! ## Main statements -/

/-- **Ancestors are genuine.** In every reachable world in which nothing lies below itself,
whatever is shared, held twice or still held by an earlier holder, going up from a live node comes
to an end. The ancestors are what is met on that way: each of them a live node that holds the one
before, none of them twice, and the last one without a parent. Walks and substitutions lead to
reachable worlds only, and so do the moves of their clients in the middle of them. -/
theorem ancestors_holderChain :
    (∀ {w : World}, w.Reachable → w.Acyclic →
      ∀ n, w.Live n → w.HolderChain n (w.ancestors n)) ∧
    (∀ {σ : Type} {visit : List NodeId → NodeId → Forest × σ → Forest × σ}
      {hands : σ → List NodeId} {held : List NodeId} {s : Forest × σ} {depth : Nat}
      {root : NodeId}, (midway hands held s).Reachable → (midway hands held s).Live root →
      (∀ v ∈ visits visit depth held root s, Obeys Anything {} hands visit v) →
      (∀ v ∈ visits visit depth held root s, (ofCall hands v).Reachable) ∧
        (midway hands held (forEach visit depth held root s)).Reachable) ∧
    ∀ {σ : Type} {offer : Offer σ} {hands : σ → List NodeId} {held : List NodeId}
      {s : Forest × σ} {depth : Nat} {root : NodeId},
      (midway hands held s).Reachable → (midway hands held s).Live root →
      (∀ o ∈ offers offer depth held root s, OfferObeys Anything {} hands offer o) →
      (∀ o ∈ offers offer depth held root s, (ofCall hands o.toHandover).Reachable) ∧
        (midway hands held (replaceAll offer depth held root s).2).Reachable := by
  refine ⟨fun hw hacyclic n hn => ?_,
    fun hrun hroot hobeys => forEach_run lenient_anything sound_empty hrun hroot hobeys,
    fun hrun hroot hobeys => replaceAll_run lenient_anything sound_empty hrun hroot hobeys⟩
  obtain ⟨l, hl⟩ := hacyclic.exists_ascends hw.regular hn.lt_size
  rw [hl.ancestors_eq]
  exact hl.holderChain hw.regular hacyclic

/-- A name that is the expression of a return statement, both operands of a sum, and then an
argument of an invocation, beside the sum. The invocation is in a statement in the body of a macro
statement, which nobody keeps. -/
def passedOn : List Move :=
  [.call (.construct {} (.reference "a") []),
   .call (.construct {} .returnStatement [.single .expression (some 0)]),
   .call (.construct {} (.binary .addition) [.single .left (some 0), .single .right (some 0)]),
   .call (.construct {} (.reference "t") []),
   .call (.construct {} .methodInvocation
    [.single .target (some 3), .sequence .arguments [2, 0]]),
   .call (.construct {} .expressionStatement [.single .expression (some 4)]),
   .call (.construct {} .block [.sequence .statements [5]]),
   .call (.construct {} (.macroStatement "m") []),
   .call (.change 7 (.assign .block (some 6))),
   .hold [6, 1]]

theorem ancestors_holderChain_passedOn :
    let w := passedOn.foldl after {}
    (w.Acyclic ∧ w.forest.link 6 = some 7) ∧
    (w.ancestors 0 = [4, 5, 6] ∧ w.HolderChain 0 (w.ancestors 0)) ∧
    (midway (fun _ => [1]) [6] (forEach markSeen 4 [6] 6 (w.forest, ()))).Reachable ∧
    (midway (fun _ => [1]) [6]
      (replaceAll (fun _ _ s => (none, s)) 4 [6] 6 (w.forest, ())).2).Reachable := by
  have hw : (passedOn.foldl after {}).Reachable := .of_allows (.refl _) (by decide +kernel)
  have hacyclic : (passedOn.foldl after {}).Acyclic := by decide +kernel
  have hmidway : (midway (fun _ => [1]) [6] ((passedOn.foldl after {}).forest, ())).Reachable :=
    Run.seenMidway hw (by decide +kernel)
  have hroot : (midway (fun _ => [1]) [6] ((passedOn.foldl after {}).forest, ())).Live 6 := by
    decide +kernel
  obtain ⟨hchain, hwalk, hsubstitution⟩ := ancestors_holderChain
  refine ⟨⟨hacyclic, by decide +kernel⟩,
    ⟨by decide +kernel, hchain hw hacyclic 0 (by decide +kernel)⟩,
    (hwalk hmidway hroot fun v _ hn hrun => ?_).2,
    (hsubstitution hmidway hroot fun _ _ => ⟨fun _ _ => .refl _, by simp⟩).2⟩
  refine Run.move (.refl _) (m := .call (.amend v.node (.documentation (some "seen")))) ?_ trivial
  refine ⟨?_, by simp [Call.placed], trivial⟩
  rintro p ⟨⟩
  exact (hrun.sound sound_empty).hands_lt _ (List.mem_append_left _ hn)

/-- **Going up and going down agree where the links have been checked.** Take a live root with an
acyclic subtree in which the link check passes, and any way down from it. The way up from its end
is the way down backwards and then the way up from the root; if one of the two goes on for ever,
so does the other. If they end, which they do if nothing at all lies below itself, then this is
what the ancestors and their kinds are. And there is one way down to each node. -/
theorem navigation_agrees {w : World} (hw : w.Reachable) {r : NodeId} (hr : w.Live r)
    (hacyclic : w.forest.AcyclicBelow r)
    (hverified : w.forest.verifyLinks r = (.ok (), w.forest)) :
    (∀ {line : List NodeId} {d : NodeId}, w.forest.WayDown r line d →
      (∀ l, w.Ascends d l ↔ ∃ above, w.Ascends r above ∧ l = line.reverse ++ above) ∧
      ((∃ above, w.Ascends r above) → w.ancestors d = line.reverse ++ w.ancestors r ∧
        w.ancestry d = ((w.ancestors r).reverse ++ line ++ [d]).map w.forest.kind)) ∧
    (w.Acyclic → ∃ above, w.Ascends r above) ∧
    ∀ {line other : List NodeId} {d : NodeId}, w.forest.WayDown r line d →
      w.forest.WayDown r other d → line = other := by
  have hclosed := hw.regular.closed
  have hlinked : w.forest.Linked r :=
    (linked_iff hclosed hr.lt_size fun m hm hmem => hacyclic m hm r hmem hm).2 hverified
  refine ⟨fun {line d} hway => ?_, fun h => h.exists_ascends hw.regular hr.lt_size,
    hlinked.wayDown_unique hclosed hr.lt_size⟩
  have hiff := fun l => ascends_iff_of_wayDown (l := l) hlinked hclosed hr hway
  refine ⟨hiff, fun ⟨above, habove⟩ => ?_⟩
  have hancestors : w.ancestors d = line.reverse ++ w.ancestors r := by
    rw [habove.ancestors_eq]
    exact ((hiff _).2 ⟨above, habove, rfl⟩).ancestors_eq
  have hkinds : w.ancestry d = ((w.ancestors d).map w.forest.kind).reverse ++ [w.forest.kind d] :=
    rfl
  exact ⟨hancestors, by simp [hkinds, hancestors]⟩

/-- A macro statement whose body has one statement, with a modifier: an invocation that has the
same argument twice. -/
def nested : List Move :=
  [.call (.construct {} (.reference "x") []),
   .call (.construct {} (.reference "t") []),
   .call (.construct {} .methodInvocation
    [.single .target (some 1), .sequence .arguments [0, 0]]),
   .call (.construct {} .expressionStatement [.single .expression (some 2)]),
   .call (.construct {} (.reference "c") []),
   .call (.construct {} (.statementModifier .ifTrue) [.single .condition (some 4)]),
   .call (.change 3 (.assign .modifier (some 5))),
   .call (.construct {} .block [.sequence .statements [3]]),
   .call (.construct {} (.macroStatement "m") []),
   .call (.change 7 (.assign .block (some 6))),
   .hold [7]]

/-- From the argument up, and from the condition of the modifier. -/
theorem navigation_agrees_nested :
    let w := nested.foldl after {}
    w.ancestors 0 = [2, 3, 6, 7] ∧
    w.ancestry 4 =
      [.macroStatement, .block, .expressionStatement, .statementModifier, .reference] ∧
    ∀ line, w.forest.WayDown 6 line 0 → line = [6, 3, 2] := by
  have hw : (nested.foldl after {}).Reachable := .of_allows (.refl _) (by decide +kernel)
  have hverified : (nested.foldl after {}).forest.verifyLinks 6 =
      (.ok (), (nested.foldl after {}).forest) := verifyLinks_eq_ok_iff.2 (by decide +kernel)
  obtain ⟨hup, hends, hunique⟩ :=
    navigation_agrees hw (r := 6) (by decide +kernel) (by decide +kernel) hverified
  have hends := hends (by decide +kernel)
  have hargument : (nested.foldl after {}).forest.WayDown 6 [6, 3, 2] 0 := by decide +kernel
  have hcondition : (nested.foldl after {}).forest.WayDown 6 [6, 3, 5] 4 := by decide +kernel
  refine ⟨?_, ?_, fun line hline => hunique hline hargument⟩
  · rw [((hup hargument).2 hends).1]
    decide +kernel
  · rw [((hup hcondition).2 hends).2]
    decide +kernel

end World

end SyntaxForest
