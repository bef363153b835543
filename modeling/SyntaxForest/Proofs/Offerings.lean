import SyntaxForest.Proofs.ChildReplacement
import SyntaxForest.Proofs.LinkedTrees
import SyntaxForest.Proofs.Walks
import Mathlib.Data.List.Find

/-!
# Offerings: what one answer does to a tree

A substitution offers one node of a tree after the other, and puts what is answered in the place
of the node. The client is called in between. It is asked to leave the tree alone, and to answer
with nodes that have a tree of their own (`Offering.WellAnswered`, `Offering.SparedBy`).

`Substituted` says what the forest looks like when the nodes in a list of offerings have been
dealt with, in whatever order. Every node of the tree is described by what it was at the start:
its occupants are the ones it had, the replaced ones exchanged, and it has kept its link unless it
was replaced itself. Every replacement is as the client has left it, but for the link of its root.

There are three steps. The client is called (`Underway.called`), the offered node stays
(`Underway.pass`), or a replacement takes its place (`Underway.take`). The last one is where it
matters that the tree is one: a node that was held in a second place would be replaced in the
first and stay in the other, and the link of a node that is held twice tells of one holder only.

Main statement: `Underway.replaceChild`, an answer takes the place of the offered node or is
refused, and either way the forest is as described, with one offering more.
-/

namespace SyntaxForest

/-! ## Answers -/

namespace Offering

open Forest

variable {σ : Type} (offer : Offer σ) (o : Offering σ)

/-- What the client answers. -/
def answer : Option NodeId := (offer o.held o.node o.state).1

/-- The state in which the client leaves the forest, and itself. -/
def after : Forest × σ := (offer o.held o.node o.state).2

/-- The objection to the answer, if it does not fit the field that holds the node in `f`. -/
def misfit? (f : Forest) : Option Error :=
  (o.answer offer).bind fun x => (f.firstFieldOf? o.holder o.node).bind fun φ =>
    if φ.category.accepts ((o.after offer).1.kind x) then none
    else some (.incompatibleNode (f.kind o.holder) φ ((o.after offer).1.kind x))

/-- The node that takes the place of the offered one. -/
def taken? (f : Forest) : Option NodeId :=
  if (o.misfit? offer f).isNone then o.answer offer else none

/-- The client leaves the tree below `root` alone. What it answers is a node with a subtree of its
own, which does not hold the node, passes the link check and has nothing in common with the
tree. -/
structure WellAnswered (f : Forest) (root : NodeId) : Prop where
  spares : ∀ j, f.Below root j → (o.after offer).1.record j = o.state.1.record j
  isNode : ∀ x ∈ o.answer offer, (o.after offer).1.IsNode x
  unheld : ∀ x ∈ o.answer offer, ∀ j, (o.after offer).1.Below x j →
    x ∉ (o.after offer).1.children j
  verified : ∀ x ∈ o.answer offer,
    (o.after offer).1.verifyLinks x = (.ok (), (o.after offer).1)
  foreign : ∀ x ∈ o.answer offer, ∀ j, (o.after offer).1.Below x j → ¬ f.Below root j

/-- The answer to `o` is left alone when `later` is answered, and has nothing in common with that
answer. -/
def SparedBy (later : Offering σ) : Prop :=
  ∀ x ∈ o.answer offer, ∀ j, (o.after offer).1.Below x j →
    (later.after offer).1.record j = later.state.1.record j ∧
      ∀ y ∈ later.answer offer, ¬ (later.after offer).1.Below y j

instance (f : Forest) (root : NodeId) : Decidable (o.WellAnswered offer f root) :=
  decidable_of_iff
    ((∀ j, f.Below root j → (o.after offer).1.record j = o.state.1.record j) ∧
      ∀ x ∈ o.answer offer, (o.after offer).1.IsNode x ∧
        (∀ j, (o.after offer).1.Below x j → x ∉ (o.after offer).1.children j) ∧
        (o.after offer).1.brokenLink? x = none ∧
        ∀ j, (o.after offer).1.Below x j → ¬ f.Below root j)
    ⟨fun ⟨hspares, h⟩ => ⟨hspares, fun x hx => (h x hx).1, fun x hx => (h x hx).2.1,
        fun x hx => verifyLinks_eq_ok_iff.2 (h x hx).2.2.1, fun x hx => (h x hx).2.2.2⟩,
      fun h => ⟨h.spares, fun x hx => ⟨h.isNode x hx, h.unheld x hx,
        verifyLinks_eq_ok_iff.1 (h.verified x hx), h.foreign x hx⟩⟩⟩

instance (later : Offering σ) : Decidable (o.SparedBy offer later) :=
  inferInstanceAs (Decidable (∀ x ∈ o.answer offer, ∀ j, (o.after offer).1.Below x j →
    (later.after offer).1.record j = later.state.1.record j ∧
      ∀ y ∈ later.answer offer, ¬ (later.after offer).1.Below y j))

variable {offer o} {f : Forest} {root x : NodeId}

/-- An answer is taken if there is no objection to it. -/
theorem taken?_eq_some : o.taken? offer f = some x ↔
    o.misfit? offer f = none ∧ o.answer offer = some x := by
  rw [taken?]
  cases o.misfit? offer f <;> simp

/-- Having passed the check, an answer is a tree of linked nodes. -/
theorem WellAnswered.linked (h : o.WellAnswered offer f root) (hx : x ∈ o.answer offer)
    (hclosed : (o.after offer).1.Closed) : (o.after offer).1.Linked x :=
  (linked_iff hclosed (h.isNode x hx).lt_size (h.unheld x hx)).2 (h.verified x hx)

theorem WellAnswered.below_self (h : o.WellAnswered offer f root) (hx : x ∈ o.answer offer) :
    (o.after offer).1.Below x x := .refl (h.isNode x hx).lt_size

end Offering

namespace Forest

variable {σ : Type} {offer : Offer σ} {f F G : Forest} {root p c d x j : NodeId} {φ : Field}
  {o : Offering σ} {done os : List (Offering σ)}

/-! ## The tree -/

/-- The subtree of `root` is a tree in which every node is held once, and linked to its holder. -/
structure Treelike (f : Forest) (root : NodeId) : Prop where
  regular : f.Regular
  isNode : f.IsNode root
  linked : f.Linked root
  nodup : ∀ j, f.Below root j → (f.children j).Nodup

namespace Treelike

theorem below_root (h : f.Treelike root) : f.Below root root := .refl h.isNode.lt_size

/-- Children of nodes of the tree are in the tree. -/
theorem below_child (h : f.Treelike root) (hp : f.Below root p) (hc : c ∈ f.children p) :
    f.Below root c := .held hp hc (h.regular.closed p c hc)

/-- A node that is linked to its only holder cannot lie below itself. -/
theorem acyclic (h : f.Treelike root) : f.AcyclicBelow root :=
  h.linked.acyclic h.regular.closed h.isNode.lt_size

/-- Two children have nothing in common below them. -/
theorem siblings_eq {m : NodeId} (h : f.Treelike root) (hp : f.Below root p)
    (hc : c ∈ f.children p) (hd : d ∈ f.children p) (hcm : f.Below c m) (hdm : f.Below d m) :
    c = d := h.linked.siblings_apart h.regular.closed h.isNode.lt_size hp hc hd hcm hdm

/-- No field has a node twice. -/
theorem occupants_nodup (h : f.Treelike root) (hp : f.Below root p)
    (hφ : φ ∈ (f.kind p).fields) : (f.occupants p φ).Nodup :=
  (List.nodup_flatMap.1 (h.nodup p hp)).1 φ hφ

/-- A child is in one field only. -/
theorem field_eq (h : f.Treelike root) (hp : f.Below root p) {ψ : Field}
    (hφ : φ ∈ (f.kind p).fields) (hψ : ψ ∈ (f.kind p).fields) (hcφ : c ∈ f.occupants p φ)
    (hcψ : c ∈ f.occupants p ψ) : φ = ψ := by
  have hpairwise : (f.kind p).fields.Pairwise (Function.onFun List.Disjoint (f.occupants p)) :=
    (List.nodup_flatMap.1 (h.nodup p hp)).2
  have : Std.Symm (Function.onFun List.Disjoint (f.occupants p)) := ⟨fun _ _ h => h.symm⟩
  apply Decidable.byContradiction
  intro hne
  exact hpairwise.forall hφ hψ hne hcφ hcψ

end Treelike

/-! ## What has been replaced -/

/-- What has taken the place of `c`. -/
def replacement (f : Forest) (offer : Offer σ) (os : List (Offering σ)) (c : NodeId) :
    Option NodeId :=
  os.findSome? fun o => if o.node = c then o.taken? offer f else none

/-- A replacement was taken when its node was offered. -/
theorem exists_of_replacement (h : replacement f offer os c = some x) :
    ∃ o ∈ os, o.node = c ∧ o.taken? offer f = some x := by
  obtain ⟨o, ho, htaken⟩ := List.exists_of_findSome?_eq_some h
  split at htaken
  · next hnode => exact ⟨o, ho, hnode, htaken⟩
  · exact absurd htaken (by simp)

/-- What has not been offered has not been replaced. -/
theorem replacement_eq_none (h : ∀ o ∈ os, o.node ≠ c) : replacement f offer os c = none := by
  rw [replacement, List.findSome?_eq_none_iff]
  intro o ho
  rw [if_neg (h o ho)]

/-- The first offering of a node that led to a replacement counts. -/
theorem replacement_append {later : List (Offering σ)} :
    replacement f offer (os ++ later) c =
      (replacement f offer os c).or (replacement f offer later c) :=
  List.findSome?_append

theorem replacement_cons : replacement f offer (o :: os) c =
    (if o.node = c then o.taken? offer f else none).or (replacement f offer os c) := by
  rw [replacement, List.findSome?_cons]
  cases (if o.node = c then o.taken? offer f else none) <;> rfl

/-- One more offering, of a node that has not been offered before. -/
theorem replacement_concat (hnew : ∀ o' ∈ done, o'.node ≠ o.node) :
    replacement f offer (done ++ [o]) c =
      if c = o.node then o.taken? offer f else replacement f offer done c := by
  have hnil : replacement f offer [] c = none := rfl
  rw [replacement_append, replacement_cons, hnil, Option.or_none]
  by_cases hc : c = o.node
  · rw [if_pos hc, if_pos hc.symm, hc, replacement_eq_none hnew, Option.none_or]
  · rw [if_neg hc, if_neg (Ne.symm hc), Option.or_none]

/-- Where no node is offered twice, its replacement is what was answered. -/
theorem replacement_node (h : os.Pairwise fun o o' => o.node ≠ o'.node) (ho : o ∈ os) :
    replacement f offer os o.node = o.taken? offer f := by
  obtain ⟨before, later, rfl⟩ := List.mem_iff_append.1 ho
  obtain ⟨-, hlater, hbefore⟩ := List.pairwise_append.1 h
  -- neither what comes before nor what comes after is about the same node
  have hnone : replacement f offer before o.node = none :=
    replacement_eq_none fun o' ho' => hbefore o' ho' o List.mem_cons_self
  have hrest : replacement f offer later o.node = none :=
    replacement_eq_none fun o' ho' => ((List.pairwise_cons.1 hlater).1 o' ho').symm
  rw [replacement_append, replacement_cons, hnone, hrest, if_pos rfl, Option.none_or,
    Option.or_none]

/-- The forest `g` after the nodes in `os` have been offered, which are nodes of the tree that `f`
has below `root`. -/
structure Substituted (f : Forest) (root : NodeId) (offer : Offer σ) (os : List (Offering σ))
    (g : Forest) : Prop where
  /-- Scalars, locations, documentation and annotations are as before. -/
  rest_eq : ∀ j, f.Below root j → (g.record j).rest = (f.record j).rest
  /-- In every place there is the replacement of what was there, or what was there. -/
  occupants_eq : ∀ j, f.Below root j → ∀ φ ∈ (f.kind j).fields,
    g.occupants j φ = (f.occupants j φ).map fun c => (replacement f offer os c).getD c
  undeclared_eq : ∀ j, f.Below root j → ∀ φ ∉ (f.kind j).fields,
    g.occupants j φ = f.occupants j φ
  link_eq : ∀ j, f.Below root j →
    g.link j = if (replacement f offer os j).isSome then none else f.link j
  /-- A replacement is linked to the holder, and otherwise as it has been answered. -/
  inside_eq : ∀ o ∈ os, ∀ x, o.taken? offer f = some x → ∀ j, (o.after offer).1.Below x j →
    g.record j = if j = x then ((o.after offer).1.record j).withLink (some o.holder)
      else (o.after offer).1.record j

namespace Substituted

theorem kind_eq (h : Substituted f root offer os F) (hj : f.Below root j) :
    F.kind j = f.kind j := kind_eq_of_rest (h.rest_eq j hj)

/-- Children are exchanged one for one, in their places. -/
theorem children_eq (h : Substituted f root offer os F) (hj : f.Below root j) :
    F.children j = (f.children j).map fun c => (replacement f offer os c).getD c := by
  rw [children_eq_flatMap, children_eq_flatMap, h.kind_eq hj, List.map_flatMap]
  exact List.flatMap_congr fun φ hφ => h.occupants_eq j hj φ hφ

/-- A node that holds nothing replaced is as it was, but for its link. -/
theorem record_eq (h : Substituted f root offer os F) (hj : f.Below root j)
    (hkept : ∀ c ∈ f.children j, replacement f offer os c = none) :
    F.record j = (f.record j).withLink
      (if (replacement f offer os j).isSome then none else f.link j) := by
  have hcontents : (F.record j).contents = (f.record j).contents := by
    refine Contents.ext_occupants fun φ => ?_
    by_cases hφ : φ ∈ (f.kind j).fields
    · have hsame : ∀ c ∈ f.occupants j φ, (replacement f offer os c).getD c = c := by
        intro c hc
        rw [hkept c (mem_children.2 ⟨φ, hφ, hc⟩)]
        rfl
      exact (h.occupants_eq j hj φ hφ).trans ((List.map_congr_left hsame).trans (List.map_id' _))
    · exact h.undeclared_eq j hj φ hφ
  refine Record.eq_of_withLink ?_ (h.link_eq j hj)
  rw [Record.withLink_withLink]
  exact Record.withLink_none_eq hcontents (h.rest_eq j hj)

/-- Only the records of the tree and those of the replacements matter. -/
theorem congr (h : Substituted f root offer os F)
    (htree : ∀ j, f.Below root j → G.record j = F.record j)
    (hinside : ∀ o ∈ os, ∀ x, o.taken? offer f = some x → ∀ j, (o.after offer).1.Below x j →
      G.record j = F.record j) : Substituted f root offer os G := by
  refine ⟨fun j hj => ?_, fun j hj φ hφ => ?_, fun j hj φ hφ => ?_, fun j hj => ?_,
    fun o ho x hx j hj => ?_⟩
  · rw [htree j hj]
    exact h.rest_eq j hj
  · rw [occupants, htree j hj]
    exact h.occupants_eq j hj φ hφ
  · rw [occupants, htree j hj]
    exact h.undeclared_eq j hj φ hφ
  · rw [link, htree j hj]
    exact h.link_eq j hj
  · rw [hinside o ho x hx j hj]
    exact h.inside_eq o ho x hx j hj

end Substituted

/-! ## The client's part -/

/-- The client has answered all of these well, in forests that are regular, and has left earlier
answers alone. -/
structure Conducted (f : Forest) (root : NodeId) (offer : Offer σ) (os : List (Offering σ)) :
    Prop where
  regular : ∀ o ∈ os, (o.after offer).1.Regular
  answered : ∀ o ∈ os, o.WellAnswered offer f root
  spared : os.Pairwise (Offering.SparedBy offer)

namespace Conducted

/-- What holds of all offerings and any two holds of fewer. -/
theorem sublist {l : List (Offering σ)} (h : Conducted f root offer os) (hl : l.Sublist os) :
    Conducted f root offer l :=
  ⟨fun o ho => h.regular o (hl.subset ho), fun o ho => h.answered o (hl.subset ho),
    h.spared.sublist hl⟩

/-- The client spares all that it answered before. -/
theorem spared_last (h : Conducted f root offer (done ++ [o])) :
    ∀ o' ∈ done, o'.SparedBy offer o := fun o' ho' =>
  (List.pairwise_append.1 h.spared).2.2 o' ho' o List.mem_cons_self

/-- No replacement is a node of the tree. -/
theorem not_below (h : Conducted f root offer os) (ho : o ∈ os)
    (hx : o.taken? offer f = some x) : ¬ f.Below root x := by
  have hx := (Offering.taken?_eq_some.1 hx).2
  exact (h.answered o ho).foreign x hx x ((h.answered o ho).below_self hx)

/-- A node of the tree that has not been replaced is where it was, and nowhere else. -/
theorem getD_replacement_eq (h : Conducted f root offer os) (hc : f.Below root c)
    (hkept : replacement f offer os c = none) :
    (replacement f offer os d).getD d = c ↔ d = c := by
  cases hd : replacement f offer os d with
  | none => rfl
  | some x =>
    obtain ⟨o, ho, -, hx⟩ := exists_of_replacement hd
    constructor
    · intro hxc
      have hxc : x = c := hxc
      rw [hxc] at hx
      exact absurd hc (h.not_below ho hx)
    · intro hdc
      rw [hdc, hkept] at hd
      exact absurd hd (by simp)

end Conducted

/-- A node of the tree that has not been replaced is in the field that it was in. -/
theorem Substituted.firstFieldOf?_eq (h : Substituted f root offer done F)
    (hdone : Conducted f root offer done) (hp : f.Below root p) (hc : f.Below root c)
    (hkept : replacement f offer done c = none) : F.firstFieldOf? p c = f.firstFieldOf? p c := by
  rw [firstFieldOf?, firstFieldOf?, h.kind_eq hp]
  refine List.find?_congr fun φ hφ => ?_
  have hmem : c ∈ F.occupants p φ ↔ c ∈ f.occupants p φ := by
    rw [h.occupants_eq p hp φ hφ, List.mem_map]
    simp only [hdone.getD_replacement_eq hc hkept, exists_eq_right]
  simp only [hmem]

/-! ## A replacement in the tree -/

/-- In a list that has no node twice, replacing a node is replacing it wherever it is. -/
theorem replace_map {l : List NodeId} {u : NodeId → NodeId} (hnodup : l.Nodup)
    (hu : ∀ d, u d = c ↔ d = c) :
    (l.map u).replace c x = l.map fun d => if d = c then x else u d := by
  induction l with
  | nil => rfl
  | cons a l ih =>
    obtain ⟨ha, hnodup⟩ := List.nodup_cons.1 hnodup
    by_cases hac : a = c
    · subst hac
      have hothers : ∀ d ∈ l, u d = if d = a then x else u d := by
        intro d hd
        have hne : d ≠ a := fun e => ha (e ▸ hd)
        rw [if_neg hne]
      rw [List.map_cons, List.map_cons, (hu a).2 rfl, List.replace_cons_self, if_pos rfl,
        List.map_congr_left hothers]
    · have hne : (c == u a) = false := by
        simpa using fun e : c = u a => hac ((hu a).1 e.symm)
      rw [List.map_cons, List.map_cons, List.replace_cons, hne, if_neg hac, ih hnodup]

namespace Substituted

/-- The node is exchanged in all of the tree, since it is in one place only. -/
theorem occupants_replaced (h : Substituted f root offer done F) (hf : f.Treelike root)
    (hdone : Conducted f root offer done) (hp : f.Below root p)
    (hφ : f.firstFieldOf? p c = some φ) (hkept : replacement f offer done c = none)
    (hr : Replaced F G p φ c x) (hj : f.Below root j) {ψ : Field} (hψ : ψ ∈ (f.kind j).fields) :
    G.occupants j ψ = (f.occupants j ψ).map
      fun d => if d = c then x else (replacement f offer done d).getD d := by
  obtain ⟨hdeclared, hoccupant⟩ := mem_of_firstFieldOf? hφ
  have hc : c ∈ f.children p := mem_children.2 ⟨φ, hdeclared, hoccupant⟩
  rw [hr.occupants_eq]
  by_cases hplace : j = p ∧ ψ = φ
  · obtain ⟨rfl, rfl⟩ := hplace
    rw [if_pos ⟨rfl, rfl⟩, h.occupants_eq j hj ψ hψ]
    exact replace_map (hf.occupants_nodup hj hψ)
      fun d => hdone.getD_replacement_eq (hf.below_child hp hc) hkept
  · rw [if_neg hplace, h.occupants_eq j hj ψ hψ]
    refine List.map_congr_left fun d hd => ?_
    -- held here too, the node would have a second holder, or be in a second field
    have hne : d ≠ c := by
      intro hdc
      rw [hdc] at hd
      have hjp := hf.linked.holder_unique hj hp (mem_children.2 ⟨ψ, hψ, hd⟩) hc
      subst hjp
      exact hplace ⟨rfl, hf.field_eq hj hψ hdeclared hd hoccupant⟩
    rw [if_neg hne]

/-- In the tree, the node is the only one to lose its link. -/
theorem link_replaced (h : Substituted f root offer done F) (hf : f.Treelike root)
    (hp : f.Below root p) (hc : c ∈ f.children p) (hkept : replacement f offer done c = none)
    (hx : ¬ f.Below root x) (hr : Replaced F G p φ c x) (hj : f.Below root j) :
    G.link j = if j = c then none else F.link j := by
  have hlink : F.link c = some p := by
    rw [h.link_eq c (hf.below_child hp hc), hkept]
    exact hf.linked.linked p hp c hc
  have hne : j ≠ x := fun e => hx (e ▸ hj)
  rw [hr.link_eq, if_neg hne]
  by_cases hjc : j = c
  · rw [if_pos ⟨hjc, hlink⟩, if_pos hjc]
  · rw [if_neg fun e => hjc e.1, if_neg hjc]

end Substituted

/-! ## The steps of the walk -/

/-- The node `c` is not the one that was offered, nor above it, and if that was answered, not
below it either. -/
structure Apart (f : Forest) (offer : Offer σ) (o : Offering σ) (c : NodeId) : Prop where
  not_above : ¬ f.Below c o.node
  not_below : (o.answer offer).isSome → ¬ f.Below o.node c

/-- A node that is offered in its place in the tree, after others that are apart from it. -/
structure InTurn (f : Forest) (root : NodeId) (offer : Offer σ) (done : List (Offering σ))
    (o : Offering σ) : Prop where
  holder_below : f.Below root o.holder
  node_mem : o.node ∈ f.children o.holder
  apart : ∀ o' ∈ done, Apart f offer o' o.node

/-- A node that is in its turn has not been offered yet. -/
theorem Treelike.node_ne (hf : f.Treelike root) (hnext : InTurn f root offer done o) :
    ∀ o' ∈ done, o'.node ≠ o.node := by
  intro o' ho' heq
  refine (hnext.apart o' ho').not_above ?_
  rw [heq]
  exact .refl (hf.regular.closed _ _ hnext.node_mem)

/-- With an offered node that stays the list is longer, but nothing more has been replaced. -/
theorem Treelike.replacement_concat_eq (hf : f.Treelike root) (hnext : InTurn f root offer done o)
    (hx : o.taken? offer f = none) :
    replacement f offer (done ++ [o]) = replacement f offer done := by
  funext c
  rw [replacement_concat (hf.node_ne hnext)]
  split
  · next hc => rw [hc, replacement_eq_none (hf.node_ne hnext), hx]
  · rfl

/-- Everything in `os` has been offered in its place in the tree, nothing twice and nothing below
what had been answered, and this has come of it. -/
structure Underway (f : Forest) (root : NodeId) (offer : Offer σ) (os : List (Offering σ))
    (g : Forest) : Prop extends Substituted f root offer os g where
  holder_below : ∀ o ∈ os, f.Below root o.holder
  node_mem : ∀ o ∈ os, o.node ∈ f.children o.holder
  apart : os.Pairwise fun o o' => Apart f offer o o'.node

namespace Underway

/-- Before anything has been offered, nothing is replaced. -/
theorem start (f : Forest) (root : NodeId) (offer : Offer σ) :
    Underway f root offer [] f := by
  refine ⟨⟨fun _ _ => rfl, fun j _ φ _ => ?_, fun _ _ _ _ => rfl, fun _ _ => rfl, by simp⟩,
    by simp, by simp, .nil⟩
  exact (List.map_id' _).symm

theorem note (h : Underway f root offer done F) (e : Event) :
    Underway f root offer done (F.note e) :=
  ⟨h.congr (fun _ _ => rfl) fun _ _ _ _ _ _ => rfl, h.holder_below, h.node_mem, h.apart⟩

/-- The client is called. -/
theorem called (h : Underway f root offer done o.state.1)
    (hconduct : Conducted f root offer (done ++ [o])) :
    Underway f root offer done (o.after offer).1 := by
  refine ⟨h.congr ?_ ?_, h.holder_below, h.node_mem, h.apart⟩
  · exact (hconduct.answered o List.mem_concat_self).spares
  · intro o' ho' x hx j hj
    exact (hconduct.spared_last o' ho' x (Offering.taken?_eq_some.1 hx).2 j hj).1

/-- One offering more, with what has come of it. -/
theorem concat (h : Underway f root offer done F) (hnext : InTurn f root offer done o)
    (hg : Substituted f root offer (done ++ [o]) G) : Underway f root offer (done ++ [o]) G := by
  refine ⟨hg, ?_, ?_, ?_⟩
  · exact List.forall_mem_append.2 ⟨h.holder_below, by simpa using hnext.holder_below⟩
  · exact List.forall_mem_append.2 ⟨h.node_mem, by simpa using hnext.node_mem⟩
  · refine List.pairwise_append.2 ⟨h.apart, List.pairwise_singleton _ _, ?_⟩
    simpa using hnext.apart

/-- The offered node stays. -/
theorem pass (h : Underway f root offer done F) (hf : f.Treelike root)
    (hnext : InTurn f root offer done o) (hx : o.taken? offer f = none) :
    Underway f root offer (done ++ [o]) F := by
  have hsame := hf.replacement_concat_eq hnext hx
  refine h.concat hnext ⟨h.rest_eq, ?_, h.undeclared_eq, ?_, ?_⟩
  · rw [hsame]
    exact h.occupants_eq
  · rw [hsame]
    exact h.link_eq
  · refine List.forall_mem_append.2 ⟨h.inside_eq, ?_⟩
    simp [hx]

/-- The replacement takes the place of the offered node. -/
theorem take (h : Underway f root offer done (o.after offer).1) (hf : f.Treelike root)
    (hconduct : Conducted f root offer (done ++ [o])) (hnext : InTurn f root offer done o)
    (hx : o.taken? offer f = some x) (hφ : f.firstFieldOf? o.holder o.node = some φ)
    (hr : Rewired (o.after offer).1 G o.holder φ
      (((o.after offer).1.occupants o.holder φ).replace o.node x) [x] [o.node]) :
    Underway f root offer (done ++ [o]) G := by
  have hp := hnext.holder_below
  have hnode := hf.below_child hp hnext.node_mem
  have hkept : replacement f offer done o.node = none := replacement_eq_none (hf.node_ne hnext)
  have hdone := hconduct.sublist (List.sublist_append_left done [o])
  have hlast : o ∈ done ++ [o] := List.mem_concat_self
  -- the client has left the place alone: the field is the one that it is in `f`
  have hreplaced : Replaced (o.after offer).1 G o.holder φ o.node x := by
    refine hr.replaced (hconduct.regular o hlast) ?_ ?_
    · have hlink := hf.linked.linked _ hp _ hnext.node_mem
      exact (isNode_iff_of_rest (h.rest_eq _ hp)).2 (hf.regular.holds_of_link hlink).2
    · exact (h.firstFieldOf?_eq hdone hp hnode hkept).trans hφ
  have hafter : ∀ c, replacement f offer (done ++ [o]) c =
      if c = o.node then some x else replacement f offer done c := by
    intro c
    rw [replacement_concat (hf.node_ne hnext), hx]
  refine h.concat hnext ⟨fun j hj => ?_, fun j hj ψ hψ => ?_, fun j hj ψ hψ => ?_,
    fun j hj => ?_, fun o' ho' y hy j hj => ?_⟩
  · rw [hreplaced.rest_eq]
    exact h.rest_eq j hj
  · rw [h.occupants_replaced hf hdone hp hφ hkept hreplaced hj hψ]
    refine List.map_congr_left fun d _ => ?_
    rw [hafter]
    split <;> rfl
  · have hplace : ¬ (j = o.holder ∧ ψ = φ) := by
      intro e
      rw [e.1, e.2] at hψ
      exact hψ (mem_of_firstFieldOf? hφ).1
    rw [hreplaced.occupants_eq, if_neg hplace]
    exact h.undeclared_eq j hj ψ hψ
  · rw [h.link_replaced hf hp hnext.node_mem hkept (hconduct.not_below hlast hx) hreplaced hj,
      hafter]
    split
    · rfl
    · exact h.link_eq j hj
  · -- neither the holder nor the offered node is inside of a replacement
    have hy' := (Offering.taken?_eq_some.1 hy).2
    have houtside : ¬ f.Below root j := (hconduct.answered o' ho').foreign y hy' j hj
    have hjp : j ≠ o.holder := fun e => houtside (e ▸ hp)
    have hjc : j ≠ o.node := fun e => houtside (e ▸ hnode)
    rcases List.mem_append.1 ho' with ho' | ho'
    · -- nor is the replacement, if that is an earlier one
      have hx' := (Offering.taken?_eq_some.1 hx).2
      have hjx : j ≠ x := by
        intro e
        rw [e] at hj
        exact (hconduct.spared_last o' ho' y hy' x hj).2 x hx'
          ((hconduct.answered o hlast).below_self hx')
      rw [hreplaced.record_eq j hjp hjc hjx]
      exact h.inside_eq o' ho' y hy j hj
    · obtain rfl := List.mem_singleton.1 ho'
      obtain rfl := Option.some.inj (hx.symm.trans hy)
      by_cases hjx : j = x
      · rw [if_pos hjx]
        refine Record.eq_of_withLink (hr.record_of_ne hjp) ?_
        show G.link j = some o'.holder
        rw [hreplaced.link_eq, if_pos hjx]
      · rw [if_neg hjx]
        exact hreplaced.record_eq j hjp hjc hjx

/-- **What is answered takes the place of the offered node, or does not fit there.** -/
theorem replaceChild (h : Underway f root offer done (o.after offer).1) (hf : f.Treelike root)
    (hconduct : Conducted f root offer (done ++ [o])) (hnext : InTurn f root offer done o)
    (hx : o.answer offer = some x) :
    ∃ r G, (Mutation.replaceChild o.holder o.node x).perform (o.after offer).1 = (r, G) ∧
      Underway f root offer (done ++ [o]) G ∧
      (o.misfit? offer f = none ∧ r = .ok true ∨
        ∃ e, o.misfit? offer f = some e ∧ r = .error e) := by
  have hp := hnext.holder_below
  have hnode := hf.below_child hp hnext.node_mem
  have hdone := hconduct.sublist (List.sublist_append_left done [o])
  have hlast : o ∈ done ++ [o] := List.mem_concat_self
  have hregular := hconduct.regular o hlast
  obtain ⟨φ, hφ⟩ : ∃ φ, f.firstFieldOf? o.holder o.node = some φ :=
    Option.ne_none_iff_exists'.1 fun hnone => firstFieldOf?_eq_none.1 hnone hnext.node_mem
  have hφ' : (o.after offer).1.firstFieldOf? o.holder o.node = some φ :=
    (h.firstFieldOf?_eq hdone hp hnode (replacement_eq_none (hf.node_ne hnext))).trans hφ
  have hmisfit : o.misfit? offer f =
      if φ.category.accepts ((o.after offer).1.kind x) then none
      else some (.incompatibleNode (f.kind o.holder) φ ((o.after offer).1.kind x)) := by
    rw [Offering.misfit?, hx, hφ]
    rfl
  cases hfit : φ.category.accepts ((o.after offer).1.kind x) with
  | false =>
    -- refused before anything has been changed
    rw [hfit] at hmisfit
    refine ⟨_, _, Mutation.perform_replaceChild_misfit hregular hφ' hfit, ?_, .inr ⟨_, hmisfit, ?_⟩⟩
    · refine h.pass hf hnext ?_
      rw [Offering.taken?, hmisfit]
      rfl
    · rw [h.kind_eq hp]
  | true =>
    rw [hfit] at hmisfit
    have hx' : o.taken? offer f = some x := Offering.taken?_eq_some.2 ⟨hmisfit, hx⟩
    have hlt : o.holder < (o.after offer).1.size :=
      lt_size_of_mem_children (mem_children.2 ⟨φ, mem_of_firstFieldOf? hφ'⟩)
    have hxlt := ((hconduct.answered o hlast).isNode x hx).lt_size
    have hne : o.node ≠ x := fun e => hconduct.not_below hlast hx' (e ▸ hnode)
    obtain ⟨G, hG, hcases⟩ := Mutation.perform_replaceChild_fit hregular hlt hxlt hφ' hfit
    refine ⟨_, G, hG, ?_, .inl ⟨hmisfit, rfl⟩⟩
    exact h.take hf hconduct hnext hx' hφ (hcases.resolve_left fun e => hne e.1).2

end Underway

end Forest

end SyntaxForest
