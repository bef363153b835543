import SyntaxForest.Proofs.Consistency
import SyntaxForest.Proofs.Substitutions

/-!
# Substitutions that are broken off

An answer that does not fit its place ends a substitution. This may happen deep down in the tree,
with siblings on every level still to be gone through, and after other nodes have been replaced.
Nothing is undone, and nothing more is done. So the tree is the one of before with the answers in
place that came before the one that was refused, and what has been said of such trees holds of it.

There are two things to be known. Which offer it was: the one that was made last, and it is the
first that was answered with something that does not fit (`Ended.exists_misfit`). And how it is
left: an error comes up from the replacement that was refused, through all levels, without anything
being done on the way (`offerBelow_error`), and a replacement that is refused has changed nothing.

Main statement: `World.replaceAll_interrupted`.
-/

namespace SyntaxForest

open Forest

/-- Where the answer does not fit, the objection names the holder, its field and the answer. -/
theorem Offering.misfit?_eq_some {σ : Type} {offer : Offer σ} {o : Offering σ} {f : Forest}
    {e : Error} (h : o.misfit? offer f = some e) :
    ∃ x φ, o.answer offer = some x ∧ f.firstFieldOf? o.holder o.node = some φ ∧
      φ.category.accepts ((o.after offer).1.kind x) = false ∧
      e = .incompatibleNode (f.kind o.holder) φ ((o.after offer).1.kind x) := by
  obtain ⟨x, hx, h⟩ := Option.bind_eq_some_iff.1 h
  obtain ⟨φ, hφ, h⟩ := Option.bind_eq_some_iff.1 h
  cases hfit : φ.category.accepts ((o.after offer).1.kind x) with
  | true =>
    rw [hfit] at h
    exact absurd h (by simp)
  | false =>
    rw [hfit] at h
    exact ⟨x, φ, hx, hφ, hfit, (Option.some.inj h).symm⟩

namespace Forest

variable {σ : Type} {offer : Offer σ} {f F : Forest} {root p c x : NodeId}
  {o : Offering σ} {done os : List (Offering σ)}

/-! ## Where the error comes from -/

/-- The walk has been broken off because the answer to the last offer was refused, and is left as
the client left it. -/
def BrokenOff (offer : Offer σ) (os : List (Offering σ)) (e : Error) (t : Substitution σ) : Prop :=
  ∃ before o x, os = before ++ [o] ∧ o.answer offer = some x ∧
    ((Mutation.replaceChild o.holder o.node x).perform (o.after offer).1).1 = .error e ∧
    (t.forest, t.client) = o.after offer

theorem BrokenOff.after {e : Error} {t : Substitution σ} (h : BrokenOff offer os e t)
    (earlier : List (Offering σ)) : BrokenOff offer (earlier ++ os) e t := by
  obtain ⟨before, o, x, rfl, h⟩ := h
  exact ⟨earlier ++ before, o, x, (List.append_assoc ..).symm, h⟩

theorem offerSiblings_error
    {enter : List NodeId → NodeId → Substitution σ → Except Error Unit × Substitution σ}
    {offers : List NodeId → NodeId → Substitution σ → List (Offering σ)} {held : List NodeId}
    {e : Error} {t : Substitution σ}
    (henter : ∀ held c s, enter held c s = (.error e, t) → BrokenOff offer (offers held c s) e t) :
    ∀ (cs : List NodeId) (s : Substitution σ),
      offerSiblings offer enter held p cs s = (.error e, t) →
        BrokenOff offer (siblingOffers offer enter offers held p cs s) e t := by
  intro cs
  induction cs with
  | nil =>
    intro s h
    exact absurd (Prod.mk.inj h).1 (by simp)
  | cons c rest ih =>
    intro s h
    let o : Offering σ := ⟨⟨c :: rest ++ held, c, s.forest, s.client⟩, p⟩
    rw [offerSiblings] at h
    rw [siblingOffers]
    rcases hoffer : offer (c :: rest ++ held) c (s.forest, s.client) with ⟨answer, F, client⟩
    cases answer with
    | some x =>
      rcases hreplace : (Mutation.replaceChild p c x).perform F with ⟨e' | b, G⟩
      · simp only [hoffer, hreplace] at h ⊢
        obtain ⟨he, rfl⟩ := Prod.mk.inj h
        obtain rfl := Except.error.inj he
        -- refused, and so without effect
        obtain rfl := Mutation.atomic_replaceChild c x e' G hreplace
        have hafter : o.after offer = (G, client) := congrArg Prod.snd hoffer
        refine ⟨[], o, x, rfl, congrArg Prod.fst hoffer, ?_, hafter.symm⟩
        rw [hafter, hreplace]
      · simp only [hoffer, hreplace] at h ⊢
        exact (ih _ h).after [o]
    | none =>
      simp only [hoffer] at h ⊢
      rcases hentered : enter (c :: rest ++ held) c ⟨F, client, s.count⟩ with ⟨e' | _, u⟩
      · simp only [hentered] at h ⊢
        rw [List.append_nil]
        exact (henter _ _ _ (hentered.trans h)).after [o]
      · simp only [hentered] at h ⊢
        exact ((ih _ h).after (offers (c :: rest ++ held) c ⟨F, client, s.count⟩)).after [o]

/-- **An error is that of the last offer, and nothing has been done after it.** -/
theorem offerBelow_error {e : Error} {t : Substitution σ} :
    ∀ (depth : Nat) (held : List NodeId) (p : NodeId) (s : Substitution σ),
      offerBelow offer depth held p s = (.error e, t) →
        BrokenOff offer (offersWithin offer depth held p s) e t := by
  intro depth
  induction depth with
  | zero =>
    intro held p s h
    exact absurd (Prod.mk.inj h).1 (by simp)
  | succ depth ih =>
    intro held p s h
    exact offerSiblings_error ih _ s h

/-- Where something does not fit, it is the last thing that was answered. -/
theorem Ended.exists_misfit {r : Except Error Unit} (h : Ended f offer os r)
    (hmisfit : ∃ o ∈ os, (o.misfit? offer f).isSome) :
    ∃ done last e, os = done ++ [last] ∧ (∀ o ∈ done, o.misfit? offer f = none) ∧
      last.misfit? offer f = some e ∧ r = .error e := by
  cases h with
  | all hfits =>
    obtain ⟨o, ho, hsome⟩ := hmisfit
    rw [hfits o ho] at hsome
    exact absurd hsome (by simp)
  | refused hfits hlast => exact ⟨_, _, _, rfl, hfits, hlast, rfl⟩

/-- The nodes of the tree have been offered in preorder, without what is strictly below answered
ones. -/
theorem Swept.listing {depth : Nat} {s t : Substitution σ} {r : Except Error Unit}
    (h : Swept f root offer [] os (f.preorderWithin (depth + 1) root).tail s r t)
    (hf : f.Treelike root) (hdepth : f.FitsWithin depth root) :
    ∃ later, (f.preorder root).tail.filter (fun m =>
      ∀ o ∈ os, (o.answer offer).isSome → f.Below o.node m → m = o.node) =
        os.map (·.node) ++ later := by
  let keep (m : NodeId) : Bool :=
    decide (∀ o ∈ os, (o.answer offer).isSome → f.Below o.node m → m = o.node)
  have hkeep : ∀ o ∈ os, keep o.node = true := fun o ho =>
    decide_eq_true fun o' ho' hanswered hbelow =>
      (h.underway.node_eq_of_below ho' ho hanswered hbelow).symm
  have hdrop : ∀ o ∈ os, (o.answer offer).isSome → ∀ m, f.Below o.node m → m ≠ o.node →
      keep m = false := fun o ho hanswered m hm hne =>
    decide_eq_false fun hall => hne (hall o ho hanswered hm)
  have hlisting : f.preorderWithin (depth + 1) root = f.preorder root := by
    rw [preorderWithin_eq_of_le depth (depth + 1) hdepth (Nat.le_succ depth)]
    exact preorderWithin_eq_preorder hdepth
      (hf.linked.fitsWithin hf.regular.closed hf.isNode.lt_size)
  obtain ⟨later, hfilter, -⟩ := h.order keep hkeep hdrop
  rw [hlisting] at hfilter
  exact ⟨later, hfilter⟩

/-! ## The tree that is left -/

namespace Underway

theorem inTurn (h : Underway f root offer (done ++ [o]) F) : InTurn f root offer done o where
  holder_below := h.holder_below o List.mem_concat_self
  node_mem := h.node_mem o List.mem_concat_self
  apart o' ho' := (List.pairwise_append.1 h.apart).2.2 o' ho' o List.mem_cons_self

/-- An offer without effect might as well not have been made. -/
theorem init (h : Underway f root offer (done ++ [o]) F) (hf : f.Treelike root)
    (hx : o.taken? offer f = none) : Underway f root offer done F := by
  have hsame := hf.replacement_concat_eq h.inTurn hx
  refine ⟨⟨h.rest_eq, ?_, h.undeclared_eq, ?_, ?_⟩, ?_, ?_, (List.pairwise_append.1 h.apart).1⟩
  · rw [← hsame]
    exact h.occupants_eq
  · rw [← hsame]
    exact h.link_eq
  · exact fun o' ho' => h.inside_eq o' (List.mem_append_left _ ho')
  · exact fun o' ho' => h.holder_below o' (List.mem_append_left _ ho')
  · exact fun o' ho' => h.node_mem o' (List.mem_append_left _ ho')

/-- A node of the tree that is not below anything replaced is in the tree still. -/
theorem below_of_kept (h : Underway f root offer os F) (hclosed : F.Closed)
    (hroot : root < F.size) (hc : f.Below root c)
    (hkept : ∀ o ∈ os, ∀ x, o.taken? offer f = some x → ¬ f.Below o.node c) : F.Below root c := by
  induction hc with
  | root hr _ =>
    rw [List.mem_singleton.1 hr]
    exact .refl hroot
  | @held q c hq hc hlt ih =>
    have hbelow : F.Below root q := ih fun o ho x hx hoq => hkept o ho x hx (.held hoq hc hlt)
    have hnone : replacement f offer os c = none := by
      rw [Option.eq_none_iff_forall_ne_some]
      intro x hreplaced
      obtain ⟨o, ho, rfl, hx⟩ := exists_of_replacement hreplaced
      exact hkept o ho x hx (.refl hlt)
    have hmem : c ∈ F.children q := by
      rw [h.children_eq hq]
      exact List.mem_map.2 ⟨c, hc, by rw [hnone]; rfl⟩
    exact .held hbelow hmem (hclosed q c hmem)

/-- The holder of a node that was offered last is in the tree still. -/
theorem below_holder (h : Underway f root offer (done ++ [o]) F) (hf : f.Treelike root)
    (hx : o.taken? offer f = none) (hclosed : F.Closed) (hroot : root < F.size) :
    F.Below root o.holder := by
  have hlt := hf.regular.closed _ _ h.inTurn.node_mem
  refine (h.init hf hx).below_of_kept hclosed hroot h.inTurn.holder_below ?_
  intro o' ho' y hy hbelow
  have hanswered : (o'.answer offer).isSome := by
    rw [(Offering.taken?_eq_some.1 hy).2]
    rfl
  exact (h.inTurn.apart o' ho').not_below hanswered (.held hbelow h.inTurn.node_mem hlt)

/-- A node that has not been replaced is in its place still. -/
theorem childAt?_of_kept (h : Underway f root offer os F) (hp : f.Below root p)
    (hkept : replacement f offer os c = none) {place : Field × Nat}
    (hc : f.childAt? p place = some c) : F.childAt? p place = some c := by
  unfold childAt? at hc ⊢
  split at hc
  · next hφ =>
    rw [h.kind_eq hp, if_pos hφ, h.occupants_eq p hp _ hφ, List.getElem?_map, hc, Option.map_some,
      hkept]
    rfl
  · exact absurd hc (by simp)

/-- A node that has not been replaced has its link still. -/
theorem link_of_kept (h : Underway f root offer os F) (hf : f.Treelike root) (hp : f.Below root p)
    (hc : c ∈ f.children p) (hkept : replacement f offer os c = none) : F.link c = some p := by
  rw [h.link_eq c (hf.below_child hp hc), hkept]
  exact hf.linked.linked p hp c hc

end Underway

end Forest

namespace World

variable {σ : Type} {offer : Offer σ} {hands : σ → List NodeId} {held : List NodeId}
  {s : Forest × σ} {depth : Nat} {root : NodeId}

/-- Which offer it is that the substitution ends with, and in which state it ends. -/
theorem replaceAll_refused (hw : (midway hands held s).Reachable)
    (hlive : (midway hands held s).Live root) (htree : s.1.Treelike root)
    (hclient : Cooperative hands s.1 root offer (offers offer depth held root s))
    (hmisfit : ∃ o ∈ offers offer depth held root s, (o.misfit? offer s.1).isSome) :
    ∃ done last x φ, offers offer depth held root s = done ++ [last] ∧
      (∀ o ∈ done, o.misfit? offer s.1 = none) ∧
      (last.answer offer = some x ∧ s.1.firstFieldOf? last.holder last.node = some φ ∧
        φ.category.accepts ((last.after offer).1.kind x) = false) ∧
      replaceAll offer depth held root s =
        (.error (.incompatibleNode (s.1.kind last.holder) φ ((last.after offer).1.kind x)),
          last.after offer) ∧
      last.taken? offer s.1 = none ∧
      Underway s.1 root offer (done ++ [last]) (last.after offer).1 := by
  obtain ⟨-, -, hswept⟩ := replaceAll_swept hw hlive htree hclient
  obtain ⟨done, last, e, hos, hfits, hlast, hr⟩ := hswept.ended.exists_misfit hmisfit
  obtain ⟨x, φ, hx, hφ, hfit, rfl⟩ := Offering.misfit?_eq_some hlast
  rcases hrun : offerBelow offer depth (root :: held) root ⟨s.1, s.2, 0⟩ with ⟨r, t⟩
  rw [hrun] at hr hswept
  obtain rfl : r = _ := hr
  -- the offer that the walk was broken off with is the last one
  obtain ⟨before, o, y, hos', -, -, hleft⟩ := offerBelow_error depth _ root _ hrun
  obtain rfl : o = last := by
    have hsame : before ++ [o] = done ++ [last] := hos'.symm.trans hos
    simpa using (List.append_inj' hsame rfl).2
  refine ⟨done, o, x, φ, hos, hfits, ⟨hx, hφ, hfit⟩, ?_, ?_, ?_⟩
  · unfold replaceAll
    rw [hrun, ← hleft]
  · rw [Offering.taken?, hlast]
    rfl
  · have hunderway := hswept.underway
    rw [List.nil_append, hos] at hunderway
    exact congrArg Prod.fst hleft ▸ hunderway

/-- **A substitution that is broken off keeps what was done before.** In every reachable world, for
every root of a tree in which each node is held once and all links are in order, and every
cooperative client whose answers are held by nothing that is kept: if one of the answers does not fit the place
of the node, it is the last one, and the first that does not. The substitution fails with the
objection to it, in the state in which the client has left the forest. Nodes have been offered in
preorder up to that one. The tree is the original one with the earlier answers in place and all
links in order; the node is where it was and has its holder as its parent, and what was answered
has no parent. -/
theorem replaceAll_interrupted (hw : (midway hands held s).Reachable)
    (hlive : (midway hands held s).Live root) (hnode : s.1.IsNode root)
    (hdepth : s.1.FitsWithin depth root)
    (hunheld : ∀ m, s.1.Below root m → root ∉ s.1.children m)
    (honce : ∀ m, s.1.Below root m → (s.1.children m).Nodup)
    (hverified : s.1.verifyLinks root = (.ok (), s.1))
    (hclient : Cooperative hands s.1 root offer (offers offer depth held root s))
    (hfree : ∀ o ∈ offers offer depth held root s, ∀ x ∈ o.answer offer,
      ∀ q, (midway hands (root :: held) (o.after offer)).Kept q →
        x ∉ (o.after offer).1.children q)
    (hmisfit : ∃ o ∈ offers offer depth held root s, (o.misfit? offer s.1).isSome) :
    let os := offers offer depth held root s
    ∃ done last x φ, os = done ++ [last] ∧
      (∀ o ∈ done, o.misfit? offer s.1 = none) ∧
      (last.answer offer = some x ∧ s.1.firstFieldOf? last.holder last.node = some φ ∧
        φ.category.accepts ((last.after offer).1.kind x) = false) ∧
      replaceAll offer depth held root s =
        (.error (.incompatibleNode (s.1.kind last.holder) φ ((last.after offer).1.kind x)),
          last.after offer) ∧
      (∃ later, (s.1.preorder root).tail.filter (fun m =>
        ∀ o ∈ os, (o.answer offer).isSome → s.1.Below o.node m → m = o.node) =
          os.map (·.node) ++ later) ∧
      let g := (last.after offer).1
      let v := midway hands (root :: held) (last.after offer)
      (Substituted s.1 root offer done g ∧
        (∀ o ∈ done, replacement s.1 offer done o.node = o.answer offer) ∧
        ∀ o ∈ done, (o.answer offer).isSome → ∀ m, s.1.Below o.node m →
          g.record m = if m = o.node then (s.1.record m).withLink none else s.1.record m) ∧
      ((∃ i, s.1.childAt? last.holder (φ, i) = some last.node ∧
          g.childAt? last.holder (φ, i) = some last.node) ∧
        g.link last.node = some last.holder ∧ v.parent? last.node = some last.holder) ∧
      v.parent? x = none ∧
      g.verifyLinks root = (.ok (), g) := by
  have htree : s.1.Treelike root :=
    ⟨hw.regular, hnode, (linked_iff hw.regular.closed hnode.lt_size hunheld).2 hverified, honce⟩
  obtain ⟨hconduct, -, hswept⟩ := replaceAll_swept hw hlive htree hclient
  obtain ⟨done, o, x, φ, hos, hfits, hlast, hend, htaken, hwhole⟩ :=
    replaceAll_refused hw hlive htree hclient hmisfit
  have hlisting := hswept.listing htree hdepth
  rw [hos] at hconduct
  have hunderway := hwhole.init htree htaken
  have hmem : o ∈ done ++ [o] := List.mem_concat_self
  have hregular := hconduct.regular o hmem
  have hroot : root < (o.after offer).1.size :=
    ((isNode_iff_of_rest (hunderway.rest_eq root htree.below_root)).2 hnode).lt_size
  have hkept : replacement s.1 offer done o.node = none :=
    replacement_eq_none (htree.node_ne hwhole.inTurn)
  have hlink := hunderway.link_of_kept htree hwhole.inTurn.holder_below hwhole.inTurn.node_mem hkept
  have hbefore : ∀ o ∈ done, o.taken? offer s.1 = o.answer offer := by
    intro o ho
    rw [Offering.taken?, hfits o ho]
    rfl
  refine ⟨done, o, x, φ, hos, hfits, hlast, hend, hlisting,
    ⟨hunderway.toSubstituted, fun o ho => ?_, fun o ho hanswered m hm => ?_⟩,
    ⟨?_, hlink, ?_⟩, ?_, ?_⟩
  · exact (hunderway.replacement_node htree ho).trans (hbefore o ho)
  · obtain ⟨y, hy⟩ := Option.isSome_iff_exists.1 hanswered
    exact hunderway.record_of_below htree ho ((hbefore o ho).trans hy) hm
  · obtain ⟨hdeclared, hoccupant⟩ := mem_of_firstFieldOf? hlast.2.1
    obtain ⟨i, hi⟩ := List.mem_iff_getElem?.1 hoccupant
    have hplace : s.1.childAt? o.holder (φ, i) = some o.node := (if_pos hdeclared).trans hi
    exact ⟨i, hplace, hunderway.childAt?_of_kept hwhole.inTurn.holder_below hkept hplace⟩
  · have hholder := hwhole.below_holder htree htaken hregular.closed hroot
    have hlive : (midway hands (root :: held) (o.after offer)).Live o.holder :=
      hholder.trans_live (.root List.mem_cons_self hroot)
    exact World.parent?_eq_some.2 ⟨hlink, Live.kept hlive⟩
  · -- whoever it were linked to would hold it
    rw [Option.eq_none_iff_forall_ne_some]
    intro q hq
    obtain ⟨hq, hkept⟩ := World.parent?_eq_some.1 hq
    exact hfree o (hos ▸ hmem) x hlast.1 q hkept (hregular.holds_of_link hq).1
  · exact verifyLinks_eq_ok hroot hregular.closed fun m hm =>
      hunderway.linked htree (hconduct.sublist (List.sublist_append_left done [o])) hm

/-- What the client below makes for a node: a name for an invocation, and a statement for a name. -/
def madeFor : Kind → Option Head
  | .methodInvocation => some (.reference "f")
  | .reference => some .returnStatement
  | _ => none

/-- The moves of the client: it makes a node and keeps that in hand. -/
def makingMoves (held : List NodeId) (n : NodeId) (s : Forest × List NodeId) : List Move :=
  match madeFor (s.1.kind n) with
  | some h => [.call (.construct {} h []), .hold (held ++ s.1.size :: s.2)]
  | none => []

/-- Answers with what is made for the node, whether or not it fits. -/
def answerMade : Offer (List NodeId) := fun _ n s =>
  match madeFor (s.1.kind n) with
  | some h => (some s.1.size, (s.1.call (.construct {} h [])).2, s.1.size :: s.2)
  | none => (none, s)

theorem foldl_makingMoves (held : List NodeId) (n : NodeId) (s : Forest × List NodeId) :
    (makingMoves held n s).foldl World.after (midway id held s) =
      midway id held (answerMade held n s).2 := by
  unfold makingMoves answerMade
  cases madeFor (s.1.kind n) <;> rfl

/-- The invocation has been replaced when the last name is refused. -/
theorem replaceAll_interrupted_twoStatements :
    let s := ((twoStatements.foldl World.after {}).forest, [])
    ∃ g client, replaceAll answerMade s.1.size [6] 6 s =
        (.error (.incompatibleNode .returnStatement (.single .expression) .returnStatement),
          g, client) ∧
      g.children 3 = [7] ∧ g.children 5 = [4] ∧ g.link 4 = some 5 ∧
      g.verifyLinks 6 = (.ok (), g) := by
  have hreachable : (twoStatements.foldl World.after {}).Reachable :=
    .of_allows (.refl _) (by decide +kernel)
  let s := ((twoStatements.foldl World.after {}).forest, ([] : List NodeId))
  have hw : (midway id [6] s).Reachable := hreachable
  have hallowed : ∀ o ∈ offers answerMade s.1.size [6] 6 s,
      Allows Anything (ofCall id o.toHandover) (makingMoves o.held o.node o.state) := by
    decide +kernel
  have hclient : Cooperative id s.1 6 answerMade (offers answerMade s.1.size [6] 6 s) := by
    refine ⟨fun o ho => ?_, by decide +kernel, by decide +kernel⟩
    have hrun := Run.of_allows (.refl _) (hallowed o ho)
    rwa [ofCall, foldl_makingMoves] at hrun
  have hdepth : s.1.FitsWithin s.1.size 6 :=
    AcyclicBelow.fitsWithin (by decide +kernel) hw.regular.closed (by decide +kernel)
  have hfree : ∀ o ∈ offers answerMade s.1.size [6] 6 s, ∀ x ∈ o.answer answerMade,
      ∀ q < (o.after answerMade).1.size, (midway id [6, 6] (o.after answerMade)).Kept q →
        x ∉ (o.after answerMade).1.children q := by decide +kernel
  obtain ⟨done, last, x, φ, hos, -, -, hend, -, ⟨hsubstituted, -⟩, ⟨-, hlink, -⟩, -, hverified⟩ :=
    replaceAll_interrupted hw (by decide +kernel) (by decide +kernel) hdepth (by decide +kernel)
      (by decide +kernel) (verifyLinks_eq_ok_iff.2 (by decide +kernel)) hclient
      (fun o ho x hx q hq => hfree o ho x hx q hq.lt_size hq) (by decide +kernel)
  have herror : (replaceAll answerMade s.1.size [6] 6 s).1 =
      .error (.incompatibleNode .returnStatement (.single .expression) .returnStatement) := by
    decide +kernel
  have hplace : ((offers answerMade s.1.size [6] 6 s).getLast?.map fun o => (o.node, o.holder)) =
      some (4, 5) := by decide +kernel
  obtain rfl : done = (offers answerMade s.1.size [6] 6 s).dropLast := by
    rw [hos, List.dropLast_concat]
  rw [hos, List.getLast?_concat, Option.map_some, Option.some.injEq, Prod.mk.injEq] at hplace
  rw [hplace.1, hplace.2] at hlink
  refine ⟨_, _, hend.trans (Prod.ext ((congrArg Prod.fst hend).symm.trans herror) rfl), ?_, ?_,
    hlink, hverified⟩
  · exact (hsubstituted.children_eq (by decide +kernel)).trans (by decide +kernel)
  · exact (hsubstituted.children_eq (by decide +kernel)).trans (by decide +kernel)

end World

end SyntaxForest
