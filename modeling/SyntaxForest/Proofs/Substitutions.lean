import SyntaxForest.Proofs.BackLinks
import SyntaxForest.Proofs.Offerings

/-!
# Substitutions throughout a tree

A substitution changes the tree that it walks through. What comes out is nevertheless what one
would get by asking about all nodes first and putting all replacements in place at once, as long
as the client leaves the tree alone and answers with nodes that have a tree of their own.

`Underway` describes the forest in the middle of the walk. It goes on from there because the next
node is apart from all that has been offered: it has not been offered itself, nor has anything
below it, so that its children are still the ones that it had; and it is not below anything
answered, so that what has been replaced is never touched again. To pass on to the next sibling
takes a tree, in which siblings have nothing below them in common (`Treelike.apart_sibling`).

`Swept` says what has come of a part of the walk. Parts are put together in the order of the walk
(`Swept.append`), and a part that ends with a refusal ends all of it (`Swept.cut`). So the
invariant covers both outcomes; which one it is can be told from the answers (`Ended`).

Main statement: `World.replaceAll_complete`.
-/

namespace SyntaxForest

namespace Forest

variable {σ : Type} {offer : Offer σ} {f F : Forest} {root p c d x j m : NodeId}
  {o : Offering σ} {done os : List (Offering σ)}

/-! ## Which node is next -/

namespace Treelike

/-- What has been done below a child has nothing to do with its siblings. -/
theorem apart_sibling (hf : f.Treelike root) (hp : f.Below root p) (hc : c ∈ f.children p)
    (hd : d ∈ f.children p) (hne : c ≠ d) (ho : f.Below c o.node) : Apart f offer o d := by
  constructor
  · intro hdo
    exact hne (hf.siblings_eq hp hc hd ho hdo)
  · intro _ hod
    exact hne (hf.siblings_eq hp hc hd (ho.trans hod) (.refl (hf.regular.closed p d hd)))

/-- From a node to its children. -/
theorem apart_child (hf : f.Treelike root) (hc : f.Below root c) (hd : d ∈ f.children c)
    (ho : f.Below root o.node) (h : Apart f offer o c) : Apart f offer o d := by
  have hcd := Below.child hc.lt_size hd (hf.regular.closed c d hd)
  constructor
  · intro hdo
    exact h.not_above (hcd.trans hdo)
  · intro hanswered hod
    -- the way down to `d` ends with the step from `c`, its only holder
    rcases hod.eq_or_held with hdo | ⟨q, hq, hdq⟩
    · rw [hdo] at hcd
      exact h.not_above hcd
    · rw [← hf.linked.holder_unique hc (ho.trans hq) hd hdq] at hq
      exact h.not_below hanswered hq

/-- From an offered node that stays to its children. -/
theorem apart_self (hf : f.Treelike root) (ho : f.Below root o.node)
    (hd : d ∈ f.children o.node) (hstays : o.answer offer = none) : Apart f offer o d := by
  refine ⟨hf.acyclic _ ho d hd, fun hanswered => ?_⟩
  rw [hstays] at hanswered
  exact absurd hanswered (by simp)

/-- The listing of a node goes on with what is strictly below it. -/
theorem below_of_mem_tail (hf : f.Treelike root) (hc : f.Below root c) {depth : Nat}
    (hm : m ∈ (f.preorderWithin (depth + 1) c).tail) : f.Below c m ∧ m ≠ c := by
  obtain ⟨d, hd, hm⟩ := List.mem_flatMap.1 hm
  have hlt := hf.regular.closed c d hd
  have hdm := below_of_mem_preorderWithin hf.regular.closed depth hlt hm
  refine ⟨(Below.child hc.lt_size hd hlt).trans hdm, fun hmc => ?_⟩
  rw [hmc] at hdm
  exact hf.acyclic c hc d hd hdm

end Treelike

/-! ## Parts of the walk -/

/-- The walk ends when there is nothing left to offer, or with the first answer that does not
fit. -/
inductive Ended (f : Forest) (offer : Offer σ) : List (Offering σ) → Except Error Unit → Prop
  | all {os : List (Offering σ)} : (∀ o ∈ os, o.misfit? offer f = none) → Ended f offer os (.ok ())
  | refused {os : List (Offering σ)} {o : Offering σ} {e : Error} :
    (∀ o ∈ os, o.misfit? offer f = none) → o.misfit? offer f = some e →
    Ended f offer (os ++ [o]) (.error e)

theorem Ended.append {first : List (Offering σ)} {r : Except Error Unit}
    (hfirst : Ended f offer first (.ok ())) (h : Ended f offer os r) :
    Ended f offer (first ++ os) r := by
  cases hfirst with
  | all hfirst =>
    cases h with
    | all hos => exact .all (List.forall_mem_append.2 ⟨hfirst, hos⟩)
    | refused hos ho =>
      rw [← List.append_assoc]
      exact .refused (List.forall_mem_append.2 ⟨hfirst, hos⟩) ho

theorem Ended.eq_ok {r : Except Error Unit} (h : Ended f offer os r)
    (hfits : ∀ o ∈ os, o.misfit? offer f = none) : r = .ok () := by
  cases h with
  | all _ => rfl
  | refused _ ho =>
    rw [hfits _ List.mem_concat_self] at ho
    exact absurd ho (by simp)

/-- Of the listed nodes those in `os` have been offered, after those in `done`; the walk has gone
from `s` to `t`, and this is how it ended. -/
structure Swept (f : Forest) (root : NodeId) (offer : Offer σ) (done os : List (Offering σ))
    (nodes : List NodeId) (s : Substitution σ) (r : Except Error Unit) (t : Substitution σ) :
    Prop where
  underway : Underway f root offer (done ++ os) t.forest
  listed : ∀ o ∈ os, o.node ∈ nodes
  count_eq : t.count = s.count + os.countP fun o => (o.taken? offer f).isSome
  ended : Ended f offer os r
  /-- What is offered are the nodes in the order of the list, up to a refusal, without what is
  strictly below answered ones. -/
  order : ∀ keep : NodeId → Bool, (∀ o ∈ os, keep o.node = true) →
    (∀ o ∈ os, (o.answer offer).isSome → ∀ m, f.Below o.node m → m ≠ o.node → keep m = false) →
    ∃ later, nodes.filter keep = os.map (·.node) ++ later ∧ (r = .ok () → later = [])

namespace Swept

variable {nodes more : List NodeId} {s t u : Substitution σ} {r : Except Error Unit}
  {later : List (Offering σ)}

theorem nil (h : Underway f root offer done s.forest) :
    Swept f root offer done [] [] s (.ok ()) s := by
  refine ⟨?_, by simp, by simp, .all (by simp), fun _ _ _ => ⟨[], rfl, fun _ => rfl⟩⟩
  rw [List.append_nil]
  exact h

/-- One part after the other. -/
theorem append (h₁ : Swept f root offer done os nodes s (.ok ()) t)
    (h₂ : Swept f root offer (done ++ os) later more t r u) :
    Swept f root offer done (os ++ later) (nodes ++ more) s r u := by
  refine ⟨?_, ?_, ?_, h₁.ended.append h₂.ended, fun keep hkeep hdrop => ?_⟩
  · rw [← List.append_assoc]
    exact h₂.underway
  · intro o ho
    rw [List.mem_append] at ho ⊢
    exact ho.imp (h₁.listed o) (h₂.listed o)
  · rw [h₂.count_eq, h₁.count_eq, List.countP_append, Nat.add_assoc]
  · obtain ⟨hkeep₁, hkeep₂⟩ := List.forall_mem_append.1 hkeep
    obtain ⟨hdrop₁, hdrop₂⟩ := List.forall_mem_append.1 hdrop
    obtain ⟨_, hfilter₁, hnil⟩ := h₁.order keep hkeep₁ hdrop₁
    obtain ⟨rest, hfilter₂, hrest⟩ := h₂.order keep hkeep₂ hdrop₂
    refine ⟨rest, ?_, hrest⟩
    rw [List.filter_append, hfilter₁, hnil rfl, List.append_nil, hfilter₂, List.map_append,
      List.append_assoc]

/-- After a refusal it does not matter what else there was to offer. -/
theorem cut {e : Error} (h : Swept f root offer done os nodes s (.error e) t) :
    Swept f root offer done os (nodes ++ more) s (.error e) t := by
  refine ⟨h.underway, fun o ho => List.mem_append_left _ (h.listed o ho), h.count_eq, h.ended,
    fun keep hkeep hdrop => ?_⟩
  obtain ⟨rest, hfilter, -⟩ := h.order keep hkeep hdrop
  refine ⟨rest ++ more.filter keep, ?_, by simp⟩
  rw [List.filter_append, hfilter, List.append_assoc]

/-- A single node has been offered. If it was answered, what is below it is passed over. -/
theorem one (h : Underway f root offer (done ++ [o]) t.forest)
    (hmore : ∀ m ∈ more, (o.answer offer).isSome ∧ f.Below o.node m ∧ m ≠ o.node)
    (hcount : t.count = s.count + if (o.taken? offer f).isSome then 1 else 0)
    (hended : Ended f offer [o] r) :
    Swept f root offer done [o] (o.node :: more) s r t := by
  refine ⟨h, by simp, ?_, hended, fun keep hkeep hdrop => ⟨[], ?_, fun _ => rfl⟩⟩
  · rw [hcount, List.countP_singleton]
  · have hnone : more.filter keep = [] := by
      rw [List.filter_eq_nil_iff]
      intro m hm
      obtain ⟨hanswered, hbelow, hne⟩ := hmore m hm
      rw [hdrop o List.mem_cons_self hanswered m hbelow hne]
      exact Bool.false_ne_true
    rw [List.filter_cons_of_pos (hkeep o List.mem_cons_self), hnone]
    rfl

end Swept

/-! ## The walk -/

/-- What is to be shown of a walk that goes down so many levels, wherever it begins. -/
def SweepsBelow (f : Forest) (root : NodeId) (offer : Offer σ) (depth : Nat) : Prop :=
  ∀ (held : List NodeId) (p : NodeId) (s : Substitution σ) (done : List (Offering σ)),
    f.Below root p → Underway f root offer done s.forest →
    (∀ c ∈ f.children p, ∀ o ∈ done, Apart f offer o c) →
    Conducted f root offer (done ++ offersWithin offer depth held p s) →
    Swept f root offer done (offersWithin offer depth held p s)
      (f.preorderWithin (depth + 1) p).tail s (offerBelow offer depth held p s).1
      (offerBelow offer depth held p s).2

section Siblings

variable {held : List NodeId} {depth : Nat} {s : Substitution σ} {client : σ}

/-- A child is answered, and the answer takes its place or is refused. -/
theorem Underway.answered (h : Underway f root offer done s.forest) (hf : f.Treelike root)
    (hnext : InTurn f root offer done ⟨⟨held, c, s.forest, s.client⟩, p⟩)
    (hoffer : offer held c (s.forest, s.client) = (some x, F, client)) (depth : Nat)
    (hconduct : Conducted f root offer (done ++ [⟨⟨held, c, s.forest, s.client⟩, p⟩])) :
    (∃ G, (Mutation.replaceChild p c x).perform F = (.ok true, G) ∧
      Swept f root offer done [⟨⟨held, c, s.forest, s.client⟩, p⟩]
        (f.preorderWithin (depth + 1) c) s (.ok ()) ⟨G, client, s.count + 1⟩) ∨
    ∃ e G, (Mutation.replaceChild p c x).perform F = (.error e, G) ∧
      Swept f root offer done [⟨⟨held, c, s.forest, s.client⟩, p⟩]
        (f.preorderWithin (depth + 1) c) s (.error e) ⟨G, client, s.count⟩ := by
  let o : Offering σ := ⟨⟨held, c, s.forest, s.client⟩, p⟩
  have hx : o.answer offer = some x := congrArg Prod.fst hoffer
  have hF : (o.after offer).1 = F := congrArg (·.2.1) hoffer
  have hnode := hf.below_child hnext.holder_below hnext.node_mem
  have hbelow : ∀ m ∈ (f.preorderWithin (depth + 1) c).tail,
      (o.answer offer).isSome ∧ f.Below o.node m ∧ m ≠ o.node := by
    intro m hm
    rw [hx]
    exact ⟨rfl, hf.below_of_mem_tail hnode hm⟩
  have hcalled : Underway f root offer done (o.after offer).1 := h.called hconduct
  obtain ⟨r, G, hG, hunderway, hcases⟩ := hcalled.replaceChild hf hconduct hnext hx
  rw [hF] at hG
  rcases hcases with ⟨hfits, rfl⟩ | ⟨e, hmisfit, rfl⟩
  · refine .inl ⟨G, hG, .one hunderway hbelow ?_ (.all (by simpa using hfits))⟩
    rw [Offering.taken?_eq_some.2 ⟨hfits, hx⟩]
    rfl
  · have hended : Ended f offer ([] ++ [o]) (.error e) := .refused (by simp) hmisfit
    refine .inr ⟨e, G, hG, .one hunderway hbelow ?_ hended⟩
    rw [Offering.taken?, hmisfit]
    rfl

/-- A child is not answered, and the walk goes on below it. -/
theorem Underway.entered (h : Underway f root offer done s.forest) (hf : f.Treelike root)
    (hbelow : SweepsBelow f root offer depth)
    (hnext : InTurn f root offer done ⟨⟨held, c, s.forest, s.client⟩, p⟩)
    (hoffer : offer held c (s.forest, s.client) = (none, F, client))
    (hconduct : Conducted f root offer (done ++ ⟨⟨held, c, s.forest, s.client⟩, p⟩ ::
      offersWithin offer depth held c ⟨F, client, s.count⟩)) :
    Swept f root offer done (⟨⟨held, c, s.forest, s.client⟩, p⟩ ::
      offersWithin offer depth held c ⟨F, client, s.count⟩) (f.preorderWithin (depth + 1) c) s
      (offerBelow offer depth held c ⟨F, client, s.count⟩).1
      (offerBelow offer depth held c ⟨F, client, s.count⟩).2 := by
  let o : Offering σ := ⟨⟨held, c, s.forest, s.client⟩, p⟩
  have hx : o.answer offer = none := congrArg Prod.fst hoffer
  have hF : (o.after offer).1 = F := congrArg (·.2.1) hoffer
  have hnode := hf.below_child hnext.holder_below hnext.node_mem
  have hmisfit : o.misfit? offer f = none := by
    rw [Offering.misfit?, hx]
    rfl
  have htaken : o.taken? offer f = none := by
    rw [Offering.taken?, hmisfit]
    exact hx
  have hcalled : Underway f root offer done (o.after offer).1 :=
    h.called (hconduct.sublist (((List.nil_sublist _).cons_cons o).append_left done))
  rw [hF] at hcalled
  have hone : Swept f root offer done [o] [c] s (.ok ()) ⟨F, client, s.count⟩ := by
    refine .one (hcalled.pass hf hnext htaken) (by simp) ?_ (.all (by simpa using hmisfit))
    rw [htaken]
    rfl
  -- what was apart from `c` is so from its children, and `c` itself has not been answered
  have hapart : ∀ d ∈ f.children c, ∀ o' ∈ done ++ [o], Apart f offer o' d := by
    intro d hd
    refine List.forall_mem_append.2 ⟨fun o' ho' => ?_, fun o' ho' => ?_⟩
    · have hnode' := hf.below_child (h.holder_below o' ho') (h.node_mem o' ho')
      exact hf.apart_child hnode hd hnode' (hnext.apart o' ho')
    · rw [List.mem_singleton.1 ho']
      exact hf.apart_self hnode hd hx
  refine hone.append (hbelow held c _ (done ++ [o]) hnode hone.underway hapart ?_)
  rw [List.append_assoc]
  exact hconduct

theorem offerSiblings_swept (hf : f.Treelike root) (hp : f.Below root p)
    (hbelow : SweepsBelow f root offer depth) :
    ∀ (cs : List NodeId) (s : Substitution σ) (done : List (Offering σ)), cs ⊆ f.children p →
      cs.Nodup → Underway f root offer done s.forest →
      (∀ c ∈ cs, ∀ o ∈ done, Apart f offer o c) →
      Conducted f root offer (done ++ siblingOffers offer (offerBelow offer depth)
        (offersWithin offer depth) held p cs s) →
      Swept f root offer done (siblingOffers offer (offerBelow offer depth)
        (offersWithin offer depth) held p cs s) (cs.flatMap (f.preorderWithin (depth + 1))) s
        (offerSiblings offer (offerBelow offer depth) held p cs s).1
        (offerSiblings offer (offerBelow offer depth) held p cs s).2 := by
  intro cs
  induction cs with
  | nil => intro s done _ _ h _ _; exact .nil h
  | cons c rest ih =>
    intro s done hcs hnodup h hnext hconduct
    obtain ⟨hc, hcs⟩ := List.cons_subset.1 hcs
    obtain ⟨hcrest, hnodup⟩ := List.nodup_cons.1 hnodup
    obtain ⟨hnextc, hnext⟩ := List.forall_mem_cons.1 hnext
    have hclt : c < f.size := hf.regular.closed p c hc
    -- what has been done at `c` and below it does not matter to the siblings to come
    have hrest : ∀ {os : List (Offering σ)},
        (∀ o ∈ os, o.node ∈ f.preorderWithin (depth + 1) c) →
        ∀ d ∈ rest, ∀ o ∈ done ++ os, Apart f offer o d := by
      intro os hos d hd
      refine List.forall_mem_append.2 ⟨hnext d hd, fun o ho => ?_⟩
      have hne : c ≠ d := fun e => hcrest (e ▸ hd)
      exact hf.apart_sibling hp hc (hcs hd) hne
        (below_of_mem_preorderWithin hf.regular.closed (depth + 1) hclt (hos o ho))
    let o : Offering σ := ⟨⟨c :: rest ++ held, c, s.forest, s.client⟩, p⟩
    have hturn : InTurn f root offer done o := ⟨hp, hc, hnextc⟩
    rw [siblingOffers] at hconduct ⊢
    rw [offerSiblings, List.flatMap_cons]
    rcases hoffer : offer (c :: rest ++ held) c (s.forest, s.client) with ⟨answer, F, client⟩
    cases answer with
    | some x =>
      have hfirst : Conducted f root offer (done ++ [o]) :=
        hconduct.sublist (((List.nil_sublist _).cons_cons o).append_left done)
      obtain ⟨G, hG, hone⟩ | ⟨e, G, hG, hone⟩ := h.answered hf hturn hoffer depth hfirst
      · -- the siblings were listed before the replacement, and are gone through as listed
        simp only [hoffer, hG, if_true] at hconduct ⊢
        refine hone.append (ih _ _ hcs hnodup hone.underway (hrest hone.listed) ?_)
        rw [List.append_assoc]
        exact hconduct
      · simp only [hG]
        exact hone.cut
    | none =>
      simp only [hoffer] at hconduct ⊢
      have hone := h.entered hf hbelow hturn hoffer (hconduct.sublist
        (((List.sublist_append_left _ _).cons_cons o).append_left done))
      rcases hentered : offerBelow offer depth (c :: rest ++ held) c ⟨F, client, s.count⟩ with
        ⟨outcome, t⟩
      rw [hentered] at hone
      simp only [hentered] at hconduct ⊢
      cases outcome with
      | error e =>
        rw [List.append_nil]
        exact hone.cut
      | ok =>
        refine hone.append (ih _ _ hcs hnodup hone.underway (hrest hone.listed) ?_)
        rw [List.append_assoc]
        exact hconduct

end Siblings

theorem sweepsBelow (hf : f.Treelike root) : ∀ depth : Nat, SweepsBelow f root offer depth := by
  intro depth
  induction depth with
  | zero =>
    intro held p s done _ h _ _
    have hnone : (f.preorderWithin (0 + 1) p).tail = [] := by
      simp [preorderWithin]
    rw [hnone]
    exact .nil h
  | succ depth ih =>
    intro held p s done hp h hnext hconduct
    -- no child has been offered yet, so the children are still the same
    have hchildren : s.forest.children p = f.children p := by
      have hsame : ∀ c ∈ f.children p, (replacement f offer done c).getD c = c := by
        intro c hc
        have hnew : ∀ o ∈ done, o.node ≠ c := by
          intro o ho heq
          refine (hnext c hc o ho).not_above ?_
          rw [heq]
          exact .refl (hf.regular.closed p c hc)
        rw [replacement_eq_none hnew]
        rfl
      rw [h.children_eq hp, List.map_congr_left hsame, List.map_id']
    rw [offersWithin, hchildren] at hconduct ⊢
    rw [offerBelow, hchildren]
    exact offerSiblings_swept hf hp ih (f.children p) s done (List.Subset.refl _) (hf.nodup p hp)
      h hnext hconduct

/-! ## The tree afterwards -/

/-- If `o` was answered, `o'` is not about a node further down. -/
def NotFurther (f : Forest) (offer : Offer σ) (o o' : Offering σ) : Prop :=
  (o.answer offer).isSome → f.Below o.node o'.node → o.node = o'.node

namespace Underway

/-- Nothing below an answered node has been offered, neither later nor earlier. -/
theorem node_eq_of_below (h : Underway f root offer os F) {o' : Offering σ} (ho : o ∈ os)
    (ho' : o' ∈ os) (hanswered : (o.answer offer).isSome) (hbelow : f.Below o.node o'.node) :
    o.node = o'.node := by
  have hpairwise : os.Pairwise (NotFurther f offer) := h.apart.imp fun hapart hanswered hbelow =>
    absurd hbelow (hapart.not_below hanswered)
  have hflip : os.Pairwise (flip (NotFurther f offer)) := h.apart.imp fun hapart _ hbelow =>
    absurd hbelow hapart.not_above
  exact hpairwise.forall_of_forall_of_flip (fun _ _ _ _ => rfl) hflip ho ho' hanswered hbelow

/-- Every offered node has been replaced by what was taken for it. -/
theorem replacement_node (h : Underway f root offer os F) (hf : f.Treelike root) (ho : o ∈ os) :
    replacement f offer os o.node = o.taken? offer f := by
  refine Forest.replacement_node (h.apart.imp_of_mem fun {o₁ o₂} _ ho₂ hapart heq => ?_) ho
  refine hapart.not_above ?_
  rw [heq]
  exact .refl (hf.regular.closed _ _ (h.node_mem o₂ ho₂))

/-- A replaced node has lost its link, and what is below it is as it was. -/
theorem record_of_below (h : Underway f root offer os F) (hf : f.Treelike root) (ho : o ∈ os)
    (hx : o.taken? offer f = some x) (hm : f.Below o.node m) :
    F.record m = if m = o.node then (f.record m).withLink none else f.record m := by
  have hroot : f.Below root m :=
    (hf.below_child (h.holder_below o ho) (h.node_mem o ho)).trans hm
  have hanswered : (o.answer offer).isSome := by
    rw [(Offering.taken?_eq_some.1 hx).2]
    rfl
  -- a replacement below would have been offered, and nothing is offered there
  have hbelow : ∀ c, f.Below o.node c → c ≠ o.node → replacement f offer os c = none := by
    intro c hc hne
    refine replacement_eq_none fun o' ho' heq => hne ?_
    rw [← heq] at hc ⊢
    exact (h.node_eq_of_below ho ho' hanswered hc).symm
  have hkept : ∀ c ∈ f.children m, replacement f offer os c = none := by
    intro c hc
    refine hbelow c (.held hm hc (hf.regular.closed m c hc)) fun heq => ?_
    rw [heq] at hc
    exact hf.acyclic m hroot o.node hc hm
  rw [h.record_eq hroot hkept]
  by_cases hmo : m = o.node
  · rw [if_pos hmo, hmo, h.replacement_node hf ho, hx]
    rfl
  · rw [if_neg hmo, hbelow m hm hmo]
    rfl

theorem children_inside (h : Underway f root offer os F) (ho : o ∈ os)
    (hx : o.taken? offer f = some x) (hj : (o.after offer).1.Below x j) :
    F.children j = (o.after offer).1.children j := by
  rw [children, h.inside_eq o ho x hx j hj]
  split <;> rfl

/-- The tree consists of nodes that were there and of replacements. -/
theorem below_cases (h : Underway f root offer os F) (hf : f.Treelike root)
    (hconduct : Conducted f root offer os) (hm : F.Below root m) :
    f.Below root m ∨ ∃ o ∈ os, ∃ x, o.taken? offer f = some x ∧ (o.after offer).1.Below x m := by
  induction hm with
  | root hr _ =>
    rw [List.mem_singleton.1 hr]
    exact .inl hf.below_root
  | @held q m _ hm _ ih =>
    rcases ih with hq | ⟨o, ho, x, hx, hq⟩
    · rw [h.children_eq hq] at hm
      obtain ⟨d, hd, rfl⟩ := List.mem_map.1 hm
      cases hreplaced : replacement f offer os d with
      | none => exact .inl (hf.below_child hq hd)
      | some x =>
        obtain ⟨o, ho, -, hx⟩ := exists_of_replacement hreplaced
        have hself := (hconduct.answered o ho).below_self (Offering.taken?_eq_some.1 hx).2
        exact .inr ⟨o, ho, x, hx, hself⟩
    · rw [h.children_inside ho hx hq] at hm
      exact .inr ⟨o, ho, x, hx, .held hq hm ((hconduct.regular o ho).closed q m hm)⟩

/-- The links in the tree are in order. -/
theorem linked (h : Underway f root offer os F) (hf : f.Treelike root)
    (hconduct : Conducted f root offer os) (hm : F.Below root m) :
    ∀ c ∈ F.children m, F.link c = some m := by
  intro c hc
  rcases h.below_cases hf hconduct hm with hm | ⟨o, ho, x, hx, hm⟩
  · rw [h.children_eq hm] at hc
    obtain ⟨d, hd, rfl⟩ := List.mem_map.1 hc
    cases hreplaced : replacement f offer os d with
    | none =>
      show F.link d = some m
      rw [h.link_eq d (hf.below_child hm hd), hreplaced]
      exact hf.linked.linked m hm d hd
    | some x =>
      -- the one who held the node is the one it was offered in
      obtain ⟨o, ho, rfl, hx⟩ := exists_of_replacement hreplaced
      rw [hf.linked.holder_unique hm (h.holder_below o ho) hd (h.node_mem o ho)]
      have hself := (hconduct.answered o ho).below_self (Offering.taken?_eq_some.1 hx).2
      show F.link x = some o.holder
      rw [link, h.inside_eq o ho x hx x hself, if_pos rfl]
      rfl
  · have hclosed := (hconduct.regular o ho).closed
    have hlinked := (hconduct.answered o ho).linked (Offering.taken?_eq_some.1 hx).2 hclosed
    rw [h.children_inside ho hx hm] at hc
    have hne : c ≠ x := fun e => hlinked.unheld m hm (e ▸ hc)
    rw [link, h.inside_eq o ho x hx c (.held hm hc (hclosed m c hc)), if_neg hne]
    exact hlinked.linked m hm c hc

end Underway

end Forest

/-! ## Substitutions with a cooperative client -/

namespace World

open Forest

variable {σ : Type} {offer : Offer σ} {hands : σ → List NodeId} {held : List NodeId}
  {s : Forest × σ} {depth : Nat} {root : NodeId}

/-- What is asked of a client that is offered nodes of the tree below `root`: it leaves the tree
alone, with all that has been put there before, and each of its answers has a tree of its own.
Elsewhere in the forest it may do anything that can be done. -/
structure Cooperative (hands : σ → List NodeId) (f : Forest) (root : NodeId) (offer : Offer σ)
    (os : List (Offering σ)) : Prop where
  moves : ∀ o ∈ os, Run Anything (ofCall hands o.toHandover) (midway hands o.held (o.after offer))
  answered : ∀ o ∈ os, o.WellAnswered offer f root
  spared : os.Pairwise (Offering.SparedBy offer)

/-- A substitution with a cooperative client, whether or not it succeeds. -/
theorem replaceAll_swept (hw : (midway hands held s).Reachable)
    (hlive : (midway hands held s).Live root) (htree : s.1.Treelike root)
    (hclient : Cooperative hands s.1 root offer (offers offer depth held root s)) :
    Conducted s.1 root offer (offers offer depth held root s) ∧
      (replaceAll offer depth held root s).2.1.Regular ∧
      Swept s.1 root offer [] (offers offer depth held root s)
        (s.1.preorderWithin (depth + 1) root).tail ⟨s.1, s.2, 0⟩
        (offerBelow offer depth (root :: held) root ⟨s.1, s.2, 0⟩).1
        (offerBelow offer depth (root :: held) root ⟨s.1, s.2, 0⟩).2 := by
  have hobeys : ∀ o ∈ offers offer depth held root s, OfferObeys Anything {} hands offer o := by
    intro o ho
    refine ⟨fun _ _ => hclient.moves o ho, fun x hx hheld hrun => ⟨⟨?_, ?_, trivial⟩, trivial⟩⟩
    · intro p hp
      obtain rfl := Option.some.inj hp
      exact (hrun.sound sound_empty).hands_lt _ (List.mem_append_left _ hheld)
    · intro y hy
      rw [List.mem_singleton.1 hy]
      exact (hclient.answered o ho).isNode x hx
  obtain ⟨hcalls, hend⟩ := replaceAll_run lenient_anything sound_empty hw hlive hobeys
  have hconduct : Conducted s.1 root offer (offers offer depth held root s) := by
    refine ⟨fun o ho => ?_, hclient.answered, hclient.spared⟩
    exact Reachable.regular ((hcalls o ho).trans (hclient.moves o ho))
  refine ⟨hconduct, Reachable.regular hend, ?_⟩
  exact sweepsBelow htree depth (root :: held) root ⟨s.1, s.2, 0⟩ [] htree.below_root
    (.start s.1 root offer) (by simp) hconduct

/-- **A substitution replaces all answered nodes at once.** In every reachable world, for every
root of a tree in which each node is held once and all links are in order, and every cooperative
client whose answers fit: the substitution succeeds, with the number of answers as its result.
The nodes below the root have been offered in preorder, all but those strictly below answered
ones. The tree is the original one with what was answered in the place of each answered
node, and with all links in order; the answered nodes have lost their links, and what is below
them is as it was. -/
theorem replaceAll_complete (hw : (midway hands held s).Reachable)
    (hlive : (midway hands held s).Live root) (hnode : s.1.IsNode root)
    (hdepth : s.1.FitsWithin depth root)
    (hunheld : ∀ m, s.1.Below root m → root ∉ s.1.children m)
    (honce : ∀ m, s.1.Below root m → (s.1.children m).Nodup)
    (hverified : s.1.verifyLinks root = (.ok (), s.1))
    (hclient : Cooperative hands s.1 root offer (offers offer depth held root s))
    (hfits : ∀ o ∈ offers offer depth held root s, o.misfit? offer s.1 = none) :
    let os := offers offer depth held root s
    ∃ g client,
      replaceAll offer depth held root s =
        (.ok (os.countP fun o => (o.answer offer).isSome), g, client) ∧
      os.map (·.node) = (s.1.preorder root).tail.filter (fun m =>
        ∀ o ∈ os, (o.answer offer).isSome → s.1.Below o.node m → m = o.node) ∧
      (∀ o ∈ os, replacement s.1 offer os o.node = o.answer offer) ∧
      Substituted s.1 root offer os g ∧
      (∀ o ∈ os, (o.answer offer).isSome → ∀ m, s.1.Below o.node m →
        g.record m = if m = o.node then (s.1.record m).withLink none else s.1.record m) ∧
      g.verifyLinks root = (.ok (), g) := by
  have htree : s.1.Treelike root :=
    ⟨hw.regular, hnode, (linked_iff hw.regular.closed hnode.lt_size hunheld).2 hverified, honce⟩
  obtain ⟨hconduct, hregular, hswept⟩ := replaceAll_swept hw hlive htree hclient
  rcases hrun : offerBelow offer depth (root :: held) root ⟨s.1, s.2, 0⟩ with ⟨r, t⟩
  rw [hrun] at hswept
  obtain rfl := hswept.ended.eq_ok hfits
  have hend : replaceAll offer depth held root s =
      (.ok t.count, t.forest.note (.substitutionFinished (t.forest.kind root) t.count),
        t.client) := by
    unfold replaceAll
    rw [hrun]
  rw [hend] at hregular
  have hunderway := hswept.underway.note (.substitutionFinished (t.forest.kind root) t.count)
  have htaken : ∀ o ∈ offers offer depth held root s, o.taken? offer s.1 = o.answer offer := by
    intro o ho
    rw [Offering.taken?, hfits o ho]
    rfl
  refine ⟨_, t.client, hend.trans ?_, ?_, fun o ho => ?_, hunderway.toSubstituted,
    fun o ho hanswered m hm => ?_, ?_⟩
  · have hcount : t.count = (offers offer depth held root s).countP
        fun o => (o.answer offer).isSome := by
      rw [hswept.count_eq, Nat.zero_add]
      exact List.countP_congr fun o ho => by rw [htaken o ho]
    rw [hcount]
  · -- what the walk leaves out can be told from the answers once it is over
    let keep (m : NodeId) : Bool := decide (∀ o ∈ offers offer depth held root s,
      (o.answer offer).isSome → s.1.Below o.node m → m = o.node)
    have hkeep : ∀ o ∈ offers offer depth held root s, keep o.node = true := by
      intro o ho
      refine decide_eq_true fun o' ho' hanswered hbelow => ?_
      exact (hunderway.node_eq_of_below ho' ho hanswered hbelow).symm
    have hdrop : ∀ o ∈ offers offer depth held root s, (o.answer offer).isSome →
        ∀ m, s.1.Below o.node m → m ≠ o.node → keep m = false := by
      intro o ho hanswered m hm hne
      exact decide_eq_false fun hall => hne (hall o ho hanswered hm)
    have hlisting : s.1.preorderWithin (depth + 1) root = s.1.preorder root := by
      rw [preorderWithin_eq_of_le depth (depth + 1) hdepth (Nat.le_succ depth)]
      exact preorderWithin_eq_preorder hdepth
        (htree.linked.fitsWithin hw.regular.closed hnode.lt_size)
    obtain ⟨later, hfilter, hlater⟩ := hswept.order keep hkeep hdrop
    rw [hlater rfl, List.append_nil, hlisting] at hfilter
    exact hfilter.symm
  · exact (hunderway.replacement_node htree ho).trans (htaken o ho)
  · obtain ⟨x, hx⟩ := Option.isSome_iff_exists.1 hanswered
    exact hunderway.record_of_below htree ho ((htaken o ho).trans hx) hm
  · have hrest := hunderway.rest_eq root htree.below_root
    exact verifyLinks_eq_ok ((isNode_iff_of_rest hrest).2 hnode).lt_size hregular.closed
      fun m hm => hunderway.linked htree hconduct hm

/-- A block with the statements `x(y)` and `return z`. -/
def twoStatements : List Move :=
  [.call (.construct {} (.reference "x") []),
   .call (.construct {} (.reference "y") []),
   .call (.construct {} .methodInvocation [.single .target (some 0), .sequence .arguments [1]]),
   .call (.construct {} .expressionStatement [.single .expression (some 2)]),
   .call (.construct {} (.reference "z") []),
   .call (.construct {} .returnStatement [.single .expression (some 4)]),
   .call (.construct {} .block [.sequence .statements [3, 5]]),
   .hold [6]]

/-- The moves of the client below: for an invocation or a name it makes a new invocation `f()`,
and keeps that in hand. -/
def callMoves (held : List NodeId) (n : NodeId) (s : Forest × List NodeId) : List Move :=
  if s.1.kind n = .methodInvocation ∨ s.1.kind n = .reference then
    [.call (.construct {} (.reference "f") []),
     .call (.construct {} .methodInvocation [.single .target (some s.1.size)]),
     .hold (held ++ (s.1.size + 1) :: s.2)]
  else []

/-- Answers invocations and names with new invocations, and knows all that it has made. -/
def answerCall : Offer (List NodeId) := fun held n s =>
  let w := (callMoves held n s).foldl World.after (midway id held s)
  if s.1.kind n = .methodInvocation ∨ s.1.kind n = .reference then
    (some (s.1.size + 1), w.forest, (s.1.size + 1) :: s.2)
  else (none, w.forest, s.2)

theorem foldl_callMoves (held : List NodeId) (n : NodeId) (s : Forest × List NodeId) :
    (callMoves held n s).foldl World.after (midway id held s) =
      midway id held (answerCall held n s).2 := by
  unfold answerCall
  by_cases hn : s.1.kind n = .methodInvocation ∨ s.1.kind n = .reference
  · simp only [callMoves, if_pos hn, List.foldl_cons, List.foldl_nil]
    generalize World.after (World.after (midway id held s) _) _ = w
    rfl
  · simp only [callMoves, if_neg hn]
    rfl

/-- The invocation is replaced as a whole, so that the names in it are not offered. -/
theorem replaceAll_complete_twoStatements :
    let s := ((twoStatements.foldl World.after {}).forest, [])
    let os := offers answerCall s.1.size [6] 6 s
    ∃ g client, replaceAll answerCall s.1.size [6] 6 s = (.ok 2, g, client) ∧
      s.1.preorder 6 = [6, 3, 2, 0, 1, 5, 4] ∧ os.map (·.node) = [3, 2, 5, 4] ∧
      Substituted s.1 6 answerCall os g ∧ g.children 3 = [8] ∧ g.children 5 = [10] ∧
      g.record 2 = (s.1.record 2).withLink none ∧ g.verifyLinks 6 = (.ok (), g) := by
  have hreachable : (twoStatements.foldl World.after {}).Reachable :=
    .of_allows (.refl _) (by decide +kernel)
  let s := ((twoStatements.foldl World.after {}).forest, ([] : List NodeId))
  have hw : (midway id [6] s).Reachable := hreachable
  have hallowed : ∀ o ∈ offers answerCall s.1.size [6] 6 s,
      Allows Anything (ofCall id o.toHandover) (callMoves o.held o.node o.state) := by
    decide +kernel
  have hclient : Cooperative id s.1 6 answerCall (offers answerCall s.1.size [6] 6 s) := by
    refine ⟨fun o ho => ?_, by decide +kernel, by decide +kernel⟩
    have hrun := Run.of_allows (.refl _) (hallowed o ho)
    rwa [ofCall, foldl_callMoves] at hrun
  have hdepth : s.1.FitsWithin s.1.size 6 :=
    AcyclicBelow.fitsWithin (by decide +kernel) hw.regular.closed (by decide +kernel)
  obtain ⟨g, client, hg, -, -, hsubstituted, hreplaced, hverified⟩ :=
    replaceAll_complete hw (by decide +kernel) (by decide +kernel) hdepth (by decide +kernel)
      (by decide +kernel) (verifyLinks_eq_ok_iff.2 (by decide +kernel)) hclient
      (by decide +kernel)
  have hcount : (offers answerCall s.1.size [6] 6 s).countP
      (fun o => (o.answer answerCall).isSome) = 2 := by decide +kernel
  rw [hcount] at hg
  refine ⟨g, client, hg, by decide +kernel, by decide +kernel, hsubstituted, ?_, ?_, ?_,
    hverified⟩
  · exact (hsubstituted.children_eq (by decide +kernel)).trans (by decide +kernel)
  · exact (hsubstituted.children_eq (by decide +kernel)).trans (by decide +kernel)
  · obtain ⟨o, ho, hnode, hanswered⟩ : ∃ o ∈ offers answerCall s.1.size [6] 6 s,
        o.node = 2 ∧ (o.answer answerCall).isSome := by decide +kernel
    have hrecord := hreplaced o ho hanswered 2
    rw [hnode] at hrecord
    exact hrecord (by decide +kernel)

end World

end SyntaxForest
