import SyntaxForest.Forest.Query
import SyntaxForest.Proofs.Separation

/-!
# Departures: what is gone stays gone

Links, the owners of fields and annotations name nodes without keeping them in existence, and go
on naming those that have been given up. A user who works only with what has not been given up,
`WithinReach`, cannot bring such a node back. Every move of his stays among the kept nodes and
those that are yet to come, which together are a region: no way down leads out of it. So the nodes
outside it, which are the ones that have gone, have only one another as holders, and stay given up
however long the run is (`Confined.givenUp`).

What remains is that no question is answered with such a name. `Question` lists those whose
answers come from names: going up by links, the owner of a sequence, the nodes in an annotation
at whatever depth, and the scopes that are found going up. Their answers are kept
(`Sound.kept_of_mem_answers`), so that taking them in hand is a move within reach like any other.

What is kept is more than what is live. A node on a circle is kept by the circle when nobody can
reach it any more, and may still be answered: `World.leaked_holder_answered`. But there is nothing
else that is kept and not live, besides what lies below a circle.

Main statement: `World.departed_for_good`.
-/

namespace SyntaxForest

/-- The value at the end of a path of places in lists of values. -/
def AnnotationValue.at? {ν : Type} : List Nat → AnnotationValue ν → Option (AnnotationValue ν)
  | [], v => some v
  | i :: is, v => (v.list?.bind (·[i]?)).bind (at? is)

/-- A question that is answered with what something else names. An annotation that the user has
taken, from whatever store, may be asked about without any node at hand. -/
inductive Question
  | parent (n : NodeId)
  | ancestors (n : NodeId)
  | owner (n : NodeId) (s : SequenceField)
  | noted (v : AnnotationValue NodeId) (path : List Nat)
  | enclosingScope (n : NodeId)
  | scopeAt (root : NodeId) (pos : Position)

namespace World

open Forest

/-- The question can be asked: the node that it is put to has not been given up, and has the
sequence. -/
def Asks (w : World) : Question → Prop
  | .parent n | .ancestors n | .enclosingScope n | .scopeAt n _ => w.Kept n
  | .owner n s => w.Kept n ∧ .sequence s ∈ (w.forest.kind n).fields
  | .noted .. => True

/-- The nodes that a question is answered with. -/
def answers (w : World) (q : Question) : List NodeId :=
  let kept := w.forest.kept w.hands
  match q with
  | .parent n => (w.parent? n).toList
  | .ancestors n => w.forest.ancestors kept n
  | .owner n s => (w.forest.owner n (.sequence s)).toList
  | .noted v path => (((v.at? path).bind (·.node?)).filter kept.contains).toList
  | .enclosingScope n => (w.forest.enclosingScope kept n).toList
  | .scopeAt root pos => (w.forest.scopeAt kept root pos).1.toList

/-- The user works with what has not been given up. -/
def WithinReach : Discipline
  | w, .call c => (∀ p ∈ c.receiver?, w.Kept p) ∧ ∀ x ∈ c.placed, w.Kept x
  | w, .hold hands => ∀ n ∈ hands, w.Kept n

instance (w : World) : (m : Move) → Decidable (WithinReach w m)
  | .call c =>
    inferInstanceAs (Decidable ((∀ p ∈ c.receiver?, w.Kept p) ∧ ∀ x ∈ c.placed, w.Kept x))
  | .hold hands => inferInstanceAs (Decidable (∀ n ∈ hands, w.Kept n))

theorem lenient_withinReach : Lenient WithinReach where
  hold hlive n hn := (hlive n hn).kept
  report := ⟨by simp [Call.receiver?], by simp [Call.placed]⟩

end World

/-! ## Answers are kept -/

namespace Forest

variable {f : Forest} {hands : List NodeId} {n p : NodeId}

theorem kept_of_parent? (h : f.parent? (f.kept hands) n = some p) : Kept f hands p :=
  contains_kept_iff.1 (Option.filter_eq_some_iff.1 h).2

theorem kept_of_mem_ancestorsWithin : ∀ (height : Nat) {n p : NodeId},
    p ∈ f.ancestorsWithin (f.kept hands) height n → Kept f hands p := by
  intro height
  induction height with
  | zero => intro n p hp; exact absurd hp List.not_mem_nil
  | succ height ih =>
    intro n p hp
    rw [ancestorsWithin] at hp
    split at hp
    · exact absurd hp List.not_mem_nil
    · next q hq =>
      rcases List.mem_cons.1 hp with rfl | hp
      · exact kept_of_parent? hq
      · exact ih hp

theorem kept_of_enclosingScope (hn : Kept f hands n)
    (h : f.enclosingScope (f.kept hands) n = some p) : Kept f hands p := by
  unfold enclosingScope at h
  split at h
  · obtain rfl := Option.some.inj h
    exact hn
  · exact kept_of_mem_ancestorsWithin _ (List.mem_of_find?_eq_some h)

/-- Going down from a kept node, a search meets kept nodes only. -/
theorem kept_of_locateWithin {pos : Position} (hclosed : f.Closed) : ∀ (depth : Nat) {n p : NodeId}
    {found : Option NodeId}, Kept f hands n → (∀ m ∈ found, Kept f hands m) →
    f.locateWithin pos depth n found = some p → Kept f hands p := by
  intro depth
  induction depth with
  | zero => intro n p found _ hfound h; exact hfound p h
  | succ depth ih =>
    intro n p found hn hfound h
    -- the candidate that is handed on from child to child is kept all along
    have hbelow : ∀ (cs : List NodeId) (found : Option NodeId), (∀ c ∈ cs, c ∈ f.children n) →
        (∀ m ∈ found, Kept f hands m) →
        ∀ m ∈ cs.foldl (fun found c => f.locateWithin pos depth c found) found,
          Kept f hands m := by
      intro cs
      induction cs with
      | nil => intro found _ hfound; exact hfound
      | cons c cs ihcs =>
        intro found hcs hfound
        obtain ⟨hc, hcs⟩ := List.forall_mem_cons.1 hcs
        have hkept : Kept f hands c := hn.held hc (hclosed n c hc)
        exact ihcs _ hcs fun m hm => ih hkept hfound hm
    unfold locateWithin at h
    dsimp only at h
    split at h
    · exact hbelow _ _ (fun _ hc => hc) hfound p h
    · split at h
      · exact hbelow _ _ (fun _ hc => hc) (by rintro m ⟨⟩; exact hn) p h
      · exact hfound p h

end Forest

namespace World

open Forest

/-- **Every answer is kept.** -/
theorem Sound.kept_of_mem_answers {w : World} (h : w.Sound) {q : Question} (hq : w.Asks q)
    {n : NodeId} (hn : n ∈ w.answers q) : w.Kept n := by
  cases q with
  | parent m => exact kept_of_parent? (Option.mem_toList.1 hn)
  | ancestors m => exact kept_of_mem_ancestorsWithin _ hn
  | owner m s =>
    -- a sequence belongs to the node that has it
    obtain ⟨rfl, -⟩ := (h.regular.owner_eq_some hq.2).1 (Option.mem_toList.1 hn)
    exact hq.1
  | noted v path =>
    have hfilter := Option.filter_eq_some_iff.1 (Option.mem_toList.1 hn)
    exact contains_kept_iff.1 hfilter.2
  | enclosingScope m => exact kept_of_enclosingScope hq (Option.mem_toList.1 hn)
  | scopeAt root pos =>
    have hscope : (w.forest.locate root pos).bind
        (w.forest.enclosingScope (w.forest.kept w.hands)) = some n := Option.mem_toList.1 hn
    obtain ⟨m, hm, hn⟩ := Option.bind_eq_some_iff.1 hscope
    have hlocated := kept_of_locateWithin h.regular.closed _ hq (by simp) hm
    exact kept_of_enclosingScope hlocated hn

end World

/-! ## A region of what is kept and what is to come -/

namespace Forest

variable {R : NodeId → Prop} {f : Forest} {hands : List NodeId} {n : NodeId}

/-- **What has been given up outside a region stays so**, as long as nothing happens but in the
region: nothing in the region holds it, and the rest still holds what it held. -/
theorem Confined.givenUp {g : Forest} {hands' : List NodeId} (hg : Confined R f g)
    (hgone : ∀ m, ¬ R m → GivenUp f hands m) (hhands : ∀ m ∈ hands', R m) (hn : ¬ R n) :
    GivenUp g hands' n := by
  refine (hgone n hn).of_holders (Q := fun m => ¬ R m) hn (fun m hm _ hmem => hm (hhands m hmem))
    fun m p hm hp => ?_
  have hout : ¬ R p := fun hin => hm (hg.region.closed hin hp)
  rw [children, hg.record_eq hout] at hp
  exact .inl ⟨hp, hout⟩

theorem Region.copyList {copy : Forest → NodeId → NodeId × Forest}
    (hcopy : ∀ f x, f.Regular → f.IsNode x → Region R f → R x →
      RoughCopy f (copy f x).2 x (copy f x).1 ∧ Confined R f (copy f x).2 ∧ R (copy f x).1) :
    ∀ (xs : List NodeId) (f : Forest), f.Regular → Region R f →
      (∀ x ∈ xs, f.IsNode x ∧ R x) →
      Confined R f (copyList copy xs f).2 ∧ ∀ y ∈ (copyList copy xs f).1, R y := by
  intro xs
  induction xs with
  | nil => intro f _ hR _; exact ⟨hR.confined_refl, by simp [Forest.copyList]⟩
  | cons x xs ih =>
    intro f hreg hR hxs
    obtain ⟨⟨hnode, hx⟩, hxs⟩ := List.forall_mem_cons.1 hxs
    obtain ⟨hrough, hconfined, hy⟩ := hcopy f x hreg hnode hR hx
    obtain ⟨hrest, hys⟩ := ih (copy f x).2 hrough.regular hconfined.region
      fun z hz => ⟨hrough.grows.isNode (hxs z hz).1, (hxs z hz).2⟩
    exact ⟨hconfined.trans hrest, List.forall_mem_cons.2 ⟨hy, hys⟩⟩

/-- A copy that is cut off at some depth holds nodes of its source there, which are in the region
together with it. -/
theorem Region.copyWithin : ∀ (depth : Nat) (f : Forest) (n : NodeId), f.Regular → f.IsNode n →
    Region R f → R n →
    Confined R f (copyWithin depth f n).2 ∧ R (copyWithin depth f n).1 := by
  intro depth
  induction depth with
  | zero => intro f n _ _ hR hn; exact ⟨hR.confined_refl, hn⟩
  | succ depth ih =>
    intro f n hreg hnode hR hn
    obtain ⟨contents, hchildren, -, heq⟩ := copyWithin_succ depth f n
    obtain ⟨-, -, hall⟩ := regular_copyList (regular_copyWithin depth) (f.children n) f hreg
      (.refl f) fun x hx => hreg.isNode_of_mem hx
    obtain ⟨hconfined, hys⟩ := Region.copyList
      (fun f x hreg hx hR hxR => ⟨regular_copyWithin depth f x hreg hx, ih f x hreg hx hR hxR⟩)
      (f.children n) f hreg hR fun x hx => ⟨hreg.isNode_of_mem hx, hR.closed hn hx⟩
    rw [heq]
    generalize Forest.copyList (Forest.copyWithin depth) (f.children n) f = copies at *
    generalize (f.record n).copiedAs copies.2.size contents = r at *
    have hlt : ∀ c ∈ r.children, c < copies.2.size := by
      intro c hc
      rw [hchildren] at hc
      obtain ⟨x, -, hx⟩ := exists_of_forall₂ hall hc
      exact hx.1.lt_size
    have hborn := born_linkAll copies.2 (r := r) (fun h => Nat.lt_irrefl _ (hlt _ h)) hlt
    have hnew := hconfined.region.born hborn fun c hc => hys c (hchildren ▸ hc)
    exact ⟨(hconfined.trans hnew).trans (hnew.region.amended (.of_records rfl) fun _ => rfl),
      hconfined.region.fresh (Nat.le_refl _)⟩

/-- **A call on nodes of a region keeps to it.** -/
theorem Region.confined_call {c : Call} (hR : Region R f) (hreg : f.Regular) (hc : c.Possible f)
    (hreceiver : ∀ p ∈ c.receiver?, R p) (hplaced : ∀ x ∈ c.placed, R x) :
    Confined R f (f.call c).2 := by
  cases c with
  | copy n => exact (Region.copyWithin f.size f n hreg hc.sensible hR (hreceiver n rfl)).1
  | _ => exact hR.call hreg hc ⟨hreceiver, hplaced⟩

/-- What a call on nodes of a region hands out is new, or the receiver, or held by it. -/
theorem Region.mem_of_made {c : Call} (hR : Region R f) (hreg : f.Regular) (hc : c.Possible f)
    (hreceiver : ∀ p ∈ c.receiver?, R p) {m : NodeId} (hm : m ∈ (f.call c).1) : R m := by
  have hfresh : R f.size := hR.fresh (Nat.le_refl _)
  cases c with
  | draft k => exact List.mem_singleton.1 hm ▸ hfresh
  | assemble d l =>
    rw [List.mem_singleton.1 hm]
    exact hreceiver d rfl
  | construct l k as =>
    rw [Forest.call] at hm
    rcases construct_cases f l k as with ⟨g, -, hcon⟩ | ⟨e, g, -, hcon⟩
    · rw [hcon] at hm
      exact List.mem_singleton.1 hm ▸ hfresh
    · rw [hcon] at hm
      exact absurd hm List.not_mem_nil
  | change p e =>
    rcases call_change_cases f p e with ⟨made, g, hg, hcall⟩ | hcall
    · rw [hcall] at hm
      have hheld := (change_rewired hg (hc.receiver_lt p rfl) fun x hx =>
        (hc.isNode_placed x hx).lt_size).1
      exact hR.closed (hreceiver p rfl) (hheld m hm)
    · rw [hcall] at hm
      exact absurd hm List.not_mem_nil
  | body p =>
    rw [List.mem_singleton.1 hm]
    cases hb : f.single p .block with
    | none =>
      rw [body_of_none hb]
      exact hfresh
    | some b =>
      rw [body_of_some hb]
      refine hR.closed (hreceiver p rfl) (mem_children.2 ⟨.single .block, ?_, ?_⟩)
      · rw [hc.sensible]
        decide
      · exact Option.mem_toList.2 hb
  | copy n =>
    rw [List.mem_singleton.1 hm]
    exact (Region.copyWithin f.size f n hreg hc.sensible hR (hreceiver n rfl)).2
  | amend n a => exact absurd hm List.not_mem_nil
  | report journal => exact absurd hm List.not_mem_nil

end Forest

namespace World

open Forest

/-- Everything that has not been given up is in the region. -/
structure Inside (R : NodeId → Prop) (w : World) : Prop where
  sound : w.Sound
  region : Region R w.forest
  kept : ∀ {n}, w.Kept n → R n

theorem Inside.hands {R : NodeId → Prop} {w : World} (h : Inside R w) : ∀ n ∈ w.hands, R n :=
  fun n hn => h.kept (Kept.root hn (h.sound.hands_lt n hn))

theorem Inside.givenUp {R : NodeId → Prop} {w : World} (h : Inside R w) (n : NodeId)
    (hn : ¬ R n) : GivenUp w.forest w.hands n := by
  have hlt : n < w.forest.size := Nat.lt_of_not_le fun hle => hn (h.region.fresh hle)
  exact Classical.byContradiction fun hnot => hn (h.kept ⟨hlt, hnot⟩)

/-- A move within reach does not lead out of the region. -/
theorem Inside.after {R : NodeId → Prop} {w : World} {m : Move} (h : Inside R w)
    (hm : w.CanMake m) (hd : WithinReach w m) : Inside R (w.after m) := by
  have hsound := h.sound.after hm
  have hmove : Confined R w.forest (w.after m).forest ∧ ∀ n ∈ (w.after m).hands, R n := by
    cases m with
    | call c =>
      have hreceiver : ∀ p ∈ c.receiver?, R p := fun p hp => h.kept (hd.1 p hp)
      have hplaced : ∀ x ∈ c.placed, R x := fun x hx => h.kept (hd.2 x hx)
      refine ⟨h.region.confined_call h.sound.regular hm hreceiver hplaced, ?_⟩
      refine List.forall_mem_append.2 ⟨fun n hn => ?_, h.hands⟩
      exact h.region.mem_of_made h.sound.regular hm hreceiver hn
    | hold hands => exact ⟨h.region.confined_refl, fun n hn => h.kept (hd n hn)⟩
  obtain ⟨hconfined, hhands⟩ := hmove
  refine ⟨hsound, hconfined.region, fun {n} hn => ?_⟩
  by_contra hout
  exact hn.not_givenUp (hconfined.givenUp h.givenUp hhands hout)

/-- What is kept now and what is yet to come. -/
theorem Sound.inside {w : World} (h : w.Sound) :
    Inside (fun i => w.Kept i ∨ w.forest.size ≤ i) w where
  sound := h
  region :=
    { closed := by
        intro p c hp hc
        rcases hp with hp | hp
        · exact .inl (Kept.held hp hc (h.regular.closed p c hc))
        · exact absurd (lt_size_of_mem_children hc) (Nat.not_lt.2 hp)
      fresh := .inr }
  kept := .inl

/-- **What has been given up stays so.** -/
theorem Run.not_kept {w v : World} (h : Run WithinReach w v) (hw : w.Sound) {n : NodeId}
    (hn : n < w.forest.size) (hgone : ¬ w.Kept n) : ¬ v.Kept n := by
  have hinside := h.invariant hw.inside fun _ _ hu hm hd => hu.after hm hd
  intro hkept
  rcases hinside.kept hkept with hkept | hle
  · exact hgone hkept
  · exact Nat.not_lt.2 hle hn

/-- What is noted on nodes keeps none of them in existence, and helps nobody to get at them. -/
theorem amend_iff {w : World} {n m : NodeId} {a : Amendment}
    (hm : w.CanMake (.call (.amend n a))) :
    ((w.after (.call (.amend n a))).Kept m ↔ w.Kept m) ∧
      ((w.after (.call (.amend n a))).Live m ↔ w.Live m) := by
  have ha : Amended w.forest (w.forest.amend n a) := amend_amended hm.sensible
  have hchildren := fun j => (ha.children_eq j).symm
  exact ⟨⟨fun h => Kept.congr h ha.size_eq ha.children_eq,
      fun h => Kept.congr h ha.size_eq.symm hchildren⟩,
    ⟨fun h => Live.congr h ha.size_eq ha.children_eq,
      fun h => Live.congr h ha.size_eq.symm hchildren⟩⟩

/-- A link to a holder that has gone reads as none. -/
theorem parent?_eq_none {w : World} {c p : NodeId} (hlink : w.forest.link c = some p)
    (hgone : ¬ w.Kept p) : w.parent? c = none := by
  rw [parent?, Forest.parent?, hlink, Option.filter_some, if_neg]
  exact fun h => hgone (contains_kept_iff.1 h)

/-- A world in which nothing lies below itself keeps what is live, and no more. -/
theorem kept_iff_live {w : World} {n : NodeId} (hw : ∀ p, ¬ w.forest.BelowItself p) :
    w.Kept n ↔ w.Live n :=
  kept_iff.trans (or_iff_left fun ⟨p, hp, _⟩ => hw p hp)

/-- **What is gone stays gone.** From any reachable world, as long as the user works with what has
not been given up: a node that is not kept never becomes so again, so that nobody ever gets at it,
and no question is answered with it. What is kept is what there is a strong reference to, from the
hands or from something kept: what is live and what lies below a circle, so that where nothing lies
below itself it is what is live. What can be asked for is kept, and may be taken in hand. Notes on
nodes, and taking them away, leave the kept and the live nodes as they are, whatever is named in
them. A link to a holder that has gone reads as none. Walks and substitutions are no exception: with
a client that works with what has not been given up they are such runs themselves. -/
theorem departed_for_good :
    (∀ {w v : World}, w.Reachable → Run WithinReach w v → ∀ n < w.forest.size, ¬ w.Kept n →
      ¬ v.Kept n ∧ ¬ v.Live n ∧ ∀ q, v.Asks q → n ∉ v.answers q) ∧
    (∀ {w : World} {n : NodeId},
      (n < w.forest.size →
        (w.Kept n ↔ n ∈ w.hands ∨ ∃ p, w.Kept p ∧ n ∈ w.forest.children p)) ∧
      (w.Kept n ↔ w.Live n ∨ ∃ p, w.forest.BelowItself p ∧ w.forest.Below p n) ∧
      ((∀ p, ¬ w.forest.BelowItself p) → (w.Kept n ↔ w.Live n))) ∧
    (∀ {w : World}, w.Reachable → ∀ q, w.Asks q → ∀ n ∈ w.answers q, w.Kept n) ∧
    (∀ {w : World} {n : NodeId} {a : Amendment}, w.CanMake (.call (.amend n a)) →
      ∀ m, ((w.after (.call (.amend n a))).Kept m ↔ w.Kept m) ∧
        ((w.after (.call (.amend n a))).Live m ↔ w.Live m)) ∧
    (∀ {w : World} {c p : NodeId}, w.forest.link c = some p → ¬ w.Kept p → w.parent? c = none) ∧
    (∀ {w : World} {σ : Type} {visit : List NodeId → NodeId → Forest × σ → Forest × σ}
      {hands : σ → List NodeId} {held : List NodeId} {s : Forest × σ} {depth : Nat}
      {root : NodeId}, w.Reachable → Run WithinReach w (midway hands held s) →
      (midway hands held s).Live root →
      (∀ v ∈ visits visit depth held root s, Obeys WithinReach w hands visit v) →
      (∀ v ∈ visits visit depth held root s, Run WithinReach w (ofCall hands v)) ∧
        Run WithinReach w (midway hands held (forEach visit depth held root s))) ∧
    ∀ {w : World} {σ : Type} {offer : Offer σ} {hands : σ → List NodeId} {held : List NodeId}
      {s : Forest × σ} {depth : Nat} {root : NodeId}, w.Reachable →
      Run WithinReach w (midway hands held s) → (midway hands held s).Live root →
      (∀ o ∈ offers offer depth held root s, OfferObeys WithinReach w hands offer o) →
      (∀ o ∈ offers offer depth held root s, Run WithinReach w (ofCall hands o.toHandover)) ∧
        Run WithinReach w (midway hands held (replaceAll offer depth held root s).2) := by
  have hsound : ∀ {w : World}, w.Reachable → w.Sound := fun hw => Run.sound hw sound_empty
  refine ⟨fun hw hv n hn hgone => ?_, ⟨kept_iff_referred, kept_iff, kept_iff_live⟩,
    fun hw q hq n hn => (hsound hw).kept_of_mem_answers hq hn, fun hm m => amend_iff hm,
    fun hlink hgone => parent?_eq_none hlink hgone,
    fun hw hrun hroot hobeys => forEach_run lenient_withinReach (hsound hw) hrun hroot hobeys,
    fun hw hrun hroot hobeys => replaceAll_run lenient_withinReach (hsound hw) hrun hroot hobeys⟩
  have hgone' := hv.not_kept (hsound hw) hn hgone
  exact ⟨hgone', fun hlive => hgone' (Live.kept hlive),
    fun q hq hn => hgone' ((hv.sound (hsound hw)).kept_of_mem_answers hq hn)⟩

/-- A name in a statement in a block. A note on the name tells in which block it is, in a list.
Then the user keeps the name alone. -/
def leftAlone : List Move :=
  [.call (.construct {} (.reference "x") []),
   .call (.construct {} .expressionStatement [.single .expression (some 0)]),
   .call (.construct {} .block [.sequence .statements [1]]),
   .call (.amend 0 (.remark "scope" (.list [.node 2]))),
   .hold [0]]

/-- The name is copied, the note with it, and both names go into a new statement. -/
def carriedOn : List Move :=
  [.call (.copy 0),
   .call (.construct {} .methodInvocation [.single .target (some 0), .sequence .arguments [3]]),
   .call (.amend 4 (.remark "scope" (.list [.node 2]))),
   .call (.amend 4 .noBindings)]

theorem departed_for_good_leftAlone :
    let w := leftAlone.foldl after {}
    let v := carriedOn.foldl after w
    (w.parent? 0 = none ∧ w.forest.link 0 = some 1) ∧
    (¬ v.Kept 2 ∧ ¬ v.Live 2 ∧ ∀ q, v.Asks q → 2 ∉ v.answers q) ∧
    (v.answers (.ancestors 3) = [4] ∧ v.Kept 4 ∧ (v.Kept 4 ↔ v.Live 4)) ∧
    (∀ m, ((w.after (.call (.amend 0 (.remark "scope" (.node 2))))).Kept m ↔ w.Kept m) ∧
      ((w.after (.call (.amend 0 (.remark "scope" (.node 2))))).Live m ↔ w.Live m)) ∧
    Run WithinReach w (midway (fun _ => []) [0]
      (forEach (fun _ _ s => s) 2 [0] 0 (w.forest, ()))) ∧
    Run WithinReach w (midway (fun _ => []) [0]
      (replaceAll (fun _ _ s => (none, s)) 2 [0] 0 (w.forest, ())).2) := by
  have hw : (leftAlone.foldl after {}).Reachable := .of_allows (.refl _) (by decide +kernel)
  have hv : Run WithinReach (leftAlone.foldl after {})
      (carriedOn.foldl after (leftAlone.foldl after {})) :=
    .of_allows (.refl _) (by decide +kernel)
  have hv' : (carriedOn.foldl after (leftAlone.foldl after {})).Reachable :=
    .of_allows hw (by decide +kernel)
  have hasked : (carriedOn.foldl after (leftAlone.foldl after {})).Kept 3 := by decide +kernel
  have hmidway : Run WithinReach (leftAlone.foldl after {})
      (midway (fun _ : Unit => []) [0] ((leftAlone.foldl after {}).forest, ())) := .refl _
  have hroot : (midway (fun _ : Unit => []) [0] ((leftAlone.foldl after {}).forest, ())).Live 0 := by
    decide +kernel
  have hnone : ∀ p < (carriedOn.foldl after (leftAlone.foldl after {})).forest.size,
      ¬ (carriedOn.foldl after (leftAlone.foldl after {})).forest.BelowItself p := by
    decide +kernel
  obtain ⟨hgone, hkept, hanswer, hamend, hparent, hwalk, hsubstitution⟩ := departed_for_good
  refine ⟨⟨hparent (p := 1) (by decide +kernel) (by decide +kernel), by decide +kernel⟩,
    hgone hw hv 2 (by decide +kernel) (by decide +kernel), ⟨by decide +kernel, ?_, ?_⟩,
    hamend (by decide +kernel), ?_, ?_⟩
  · exact hanswer hv' (.ancestors 3) hasked 4 (by decide +kernel)
  · exact hkept.2.2 fun p hp => hnone p (lt_size_of_mem_children hp.choose_spec.1) hp
  · exact (hwalk hw hmidway hroot fun _ _ _ _ => .refl _).2
  · exact (hsubstitution hw hmidway hroot fun _ _ => ⟨fun _ _ => .refl _, by simp⟩).2

/-- A block is made a statement of its own, then an empty return statement another one. Then the
user keeps the return statement alone. -/
def circle : List Move :=
  [.call (.construct {} .block []),
   .call (.construct {} .returnStatement []),
   .call (.change 0 (.edit .statements (.append 0))),
   .call (.change 0 (.edit .statements (.append 1))),
   .hold [1]]

/-- The block holds itself, and so is kept when nobody can get at it any more. It is answered as
the parent of the return statement; and being so answered, it comes into hand again. -/
theorem leaked_holder_answered :
    let w := circle.foldl after {}
    Run WithinReach {} w ∧ ¬ w.Live 0 ∧
      (w.Asks (.parent 1) ∧ w.answers (.parent 1) = [0]) ∧
      (w.forest.link 1 = some 0 ∧ w.parent? 1 ≠ none) ∧
      Run WithinReach w (w.after (.hold [0, 1])) ∧ (w.after (.hold [0, 1])).Live 0 := by
  have hasked : (circle.foldl after {}).Kept 1 := by decide +kernel
  refine ⟨.of_allows (.refl _) (by decide +kernel), by decide +kernel,
    ⟨hasked, by decide +kernel⟩, ⟨by decide +kernel, by decide +kernel⟩, ?_, by decide +kernel⟩
  exact .move (.refl _) (by decide +kernel) (by decide +kernel)

end World

end SyntaxForest
