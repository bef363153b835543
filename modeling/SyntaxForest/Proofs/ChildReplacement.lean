import SyntaxForest.Proofs.Locality
import SyntaxForest.Proofs.PlainLists

/-!
# Replacing a child, in full

A child may occur in several places of its holder, and only the first one is to be taken by the
replacement. There are two ideas of what comes first: children are listed from the shared fields
on, while the search for the child begins with the kind's own fields. They agree because of the
categories. A shared field holds modifiers, and no kind has a field of its own that would hold
one (`Kind.not_accepts_both`), so that the places of a child are either all in shared fields or
all in own ones (`Regular.fieldOf?_eq`).

From then on the field is known, and there are three outcomes: there is no such child, the
replacement does not fit the field, or it takes the place. `Replaced` says what the last one does
to the forest, record by record.

Main statement: `World.replaceChild_complete`.
-/

namespace SyntaxForest

/-! ## Two orders -/

/-- What fits a shared field fits no field of the kind itself. -/
theorem Kind.not_accepts_both {k j : Kind} {φ ψ : Field} (hφ : φ ∈ k.sharedFields)
    (hψ : ψ ∈ k.ownFields) (hfit : φ.category.accepts j = true) : ψ.category.accepts j = false := by
  have hshared : ∀ φ ∈ k.sharedFields, φ.category = .statementModifier := by
    cases k <;> decide
  have hown : ∀ ψ ∈ k.ownFields, ψ.category.accepts .statementModifier = false := by
    cases k <;> decide
  rw [hshared φ hφ, Category.accepts_statementModifier_iff] at hfit
  rw [hfit]
  exact hown ψ hψ

/-- The order of two lists does not matter to a search that can find something in one of them
only. -/
theorem find?_append_comm {α : Type} {P : α → Bool} {as bs : List α}
    (h : ∀ a ∈ as, ∀ b ∈ bs, P a = true → P b = false) :
    (as ++ bs).find? P = (bs ++ as).find? P := by
  rw [List.find?_append, List.find?_append]
  cases ha : as.find? P with
  | none => simp
  | some a =>
    have hbs : bs.find? P = none := List.find?_eq_none.2 fun b hb => by
      rw [h a (List.mem_of_find?_eq_some ha) b hb (List.find?_some ha)]
      exact Bool.false_ne_true
    rw [hbs]
    rfl

namespace Forest

variable {f g : Forest} {p c d : NodeId} {φ : Field}

/-- The field that holds the first occurrence of `c` among the children of `p`. -/
def firstFieldOf? (f : Forest) (p c : NodeId) : Option Field :=
  (f.kind p).fields.find? (c ∈ f.occupants p ·)

/-- No field is found just for a node that is not a child. -/
theorem firstFieldOf?_eq_none : f.firstFieldOf? p c = none ↔ c ∉ f.children p := by
  rw [firstFieldOf?, List.find?_eq_none, mem_children]
  simp

/-- The field found is declared, and holds the child. -/
theorem mem_of_firstFieldOf? (h : f.firstFieldOf? p c = some φ) :
    φ ∈ (f.kind p).fields ∧ c ∈ f.occupants p φ := by
  have hc := List.find?_some h
  exact ⟨List.mem_of_find?_eq_some h, by simpa using hc⟩

/-- The search comes upon the first occurrence, although it goes through the fields in another
order. -/
theorem Regular.fieldOf?_eq (h : f.Regular) : f.fieldOf? p c = f.firstFieldOf? p c := by
  refine find?_append_comm fun φ hφ ψ hψ hc => decide_eq_false fun hc' => ?_
  have hfit := h.accepted (List.mem_append_right _ hφ) (of_decide_eq_true hc)
  have hfit' := h.accepted (List.mem_append_left _ hψ) hc'
  rw [Kind.not_accepts_both hψ hφ hfit'] at hfit
  exact Bool.false_ne_true hfit

/-- Replacing the first occurrence in the first list that has one is replacing the first
occurrence in all of them together. -/
theorem flatMap_replace {φs : List Field} (hnodup : φs.Nodup) {u v : Field → List NodeId}
    (hφ : φs.find? (c ∈ u ·) = some φ) (hv : v φ = (u φ).replace c d)
    (hrest : ∀ ψ, ψ ≠ φ → v ψ = u ψ) : φs.flatMap v = (φs.flatMap u).replace c d := by
  induction φs with
  | nil => exact absurd hφ (by simp)
  | cons ψ φs ih =>
    obtain ⟨hψ, hnodup⟩ := List.nodup_cons.1 hnodup
    rw [List.flatMap_cons, List.flatMap_cons, List.replace_append]
    by_cases hc : c ∈ u ψ
    · rw [List.find?_cons_of_pos (by simpa using hc)] at hφ
      obtain rfl := Option.some.inj hφ
      have hothers : φs.flatMap v = φs.flatMap u :=
        List.flatMap_congr fun χ hχ => hrest χ fun e => hψ (e ▸ hχ)
      rw [if_pos hc, hv, hothers]
    · rw [List.find?_cons_of_neg (by simpa using hc)] at hφ
      have hne : ψ ≠ φ := fun e => hψ (e ▸ List.mem_of_find?_eq_some hφ)
      rw [if_neg hc, hrest ψ hne, ih hnodup hφ]

/-! ## What a replacement does -/

/-- `g` is `f` with `d` in the place of the first occurrence of `c` among the children of `p`,
which is in the field `φ`. The one is linked to `p`, and the other is no longer. -/
structure Replaced (f g : Forest) (p : NodeId) (φ : Field) (c d : NodeId) : Prop where
  size_eq : g.size = f.size
  rest_eq : ∀ j, (g.record j).rest = (f.record j).rest
  occupants_eq : ∀ j ψ, g.occupants j ψ =
    if j = p ∧ ψ = φ then (f.occupants p φ).replace c d else f.occupants j ψ
  children_eq : g.children p = (f.children p).replace c d
  link_eq : ∀ j, g.link j =
    if j = d then some p else if j = c ∧ f.link c = some p then none else f.link j
  record_eq : ∀ j, j ≠ p → j ≠ c → j ≠ d → g.record j = f.record j

/-- Rewiring the field that holds the first occurrence is a replacement: the holder, being a node,
owns the field. -/
theorem Rewired.replaced (hr : Rewired f g p φ ((f.occupants p φ).replace c d) [d] [c])
    (h : f.Regular) (hp : f.IsNode p) (hφ : f.firstFieldOf? p c = some φ) :
    Replaced f g p φ c d := by
  have howner : f.owner p φ = some p := (h.owner_eq_some hr.declared).2 ⟨rfl, hp⟩
  have hlink : ∀ j, g.link j =
      if j = d then some p else if j = c ∧ f.link c = some p then none else f.link j := by
    intro j
    rw [hr.link_eq, howner]
    by_cases hj : j = c <;> simp [hj]
  refine ⟨hr.size_eq, hr.rest_eq, hr.occupants_eq, ?_, hlink, fun j hjp hjc hjd => ?_⟩
  · rw [children_eq_flatMap, children_eq_flatMap, hr.kind_eq]
    exact flatMap_replace (Kind.nodup_fields _) hφ hr.occupants_self
      fun ψ hψ => hr.occupants_of_ne hψ
  · refine Record.eq_of_withLink (hr.record_of_ne hjp) ?_
    show g.link j = f.link j
    rw [hlink, if_neg hjd, if_neg fun e => hjc e.1]

end Forest

/-! ## The field that holds the child -/

namespace Mutation

open Forest

variable {f : Forest} {p c d : NodeId} {φ : Field}

/-- A mutation that fails ends it all. -/
theorem bind_eq_error {α β : Type} {m : Mutation α} {k : α → Mutation β} {g : Forest} {e : Error}
    (h : m.perform f = (.error e, g)) : (m >>= k).perform f = (.error e, g) := by
  rw [perform_bind, h]

theorem check_bind_eq {β : Type} {r : Forest → Except Error Unit} {k : Unit → Mutation β}
    (h : r f = .ok ()) : (check r >>= k).perform f = (k ()).perform f := by
  rw [perform_check_bind, h]

/-- A field without the child is passed over. -/
theorem perform_replaceIn_absent (hφ : φ ∈ (f.kind p).fields) (hc : c ∉ f.occupants p φ) :
    (replaceIn p c d φ).perform f = (.ok false, f) := by
  cases φ with
  | single s =>
    have hs : f.single p s ≠ some c := fun h => hc (Option.mem_toList.2 h)
    rw [replaceIn, perform_get_bind, if_neg hs]
    rfl
  | sequence s =>
    refine check_bind_eq_ok.2 ⟨requireField_eq_ok.2 hφ, ?_⟩
    rw [perform_get_bind, position?_eq_none.2 hc]
    rfl

/-- A node that does not fit the field is refused there, and the error names the field. -/
theorem perform_replaceIn_misfit (hφ : φ ∈ (f.kind p).fields) (hc : c ∈ f.occupants p φ)
    (hfit : φ.category.accepts (f.kind d) = false) :
    (replaceIn p c d φ).perform f = (.error (.incompatibleNode (f.kind p) φ (f.kind d)), f) := by
  have hmisfit : f.requireFit p φ d = .error (.incompatibleNode (f.kind p) φ (f.kind d)) :=
    if_neg (by rw [hfit]; exact Bool.false_ne_true)
  have hfield : f.requireField p φ = .ok () := requireField_eq_ok.2 hφ
  have hcheck : (check (·.requireFit p φ d)).perform f =
      (.error (.incompatibleNode (f.kind p) φ (f.kind d)), f) := by rw [perform_check, hmisfit]
  cases φ with
  | single s =>
    have hs : f.single p s = some c := Option.mem_toList.1 hc
    rw [replaceIn, perform_get_bind, if_pos hs]
    refine bind_eq_error ?_
    rw [assign, check_bind_eq hfield]
    exact bind_eq_error hcheck
  | sequence s =>
    obtain ⟨hc', -⟩ | ⟨-, i, hi⟩ := position?_cases f p s c
    · exact absurd hc hc'
    · rw [replaceIn, substitute, check_bind_eq hfield, perform_get_bind, hi]
      exact bind_eq_error hcheck

/-- Assigning what fits. The occupant itself is left alone, without being linked again. -/
theorem perform_assign {s : SingleField} (hs : .single s ∈ (f.kind p).fields)
    (hfit : s.category.accepts (f.kind d) = true) :
    (assign p s (some d)).perform f =
      (.ok (), if f.single p s = some d then f else f.exchange p s (some d)) := by
  refine check_bind_eq_ok.2 ⟨requireField_eq_ok.2 hs, ?_⟩
  refine check_bind_eq_ok.2 ⟨requireFit_eq_ok.2 hfit, ?_⟩
  rw [perform_get_bind]
  split <;> rfl

/-- In the field that holds the child the replacement takes the first place of the child. A node
that takes its own place is left alone. -/
theorem perform_replaceIn (hp : p < f.size) (hd : d < f.size) (hφ : φ ∈ (f.kind p).fields)
    (hc : c ∈ f.occupants p φ) (hfit : φ.category.accepts (f.kind d) = true) :
    ∃ g, (replaceIn p c d φ).perform f = (.ok true, g) ∧
      (c = d ∧ g = f ∨ c ≠ d ∧ Rewired f g p φ ((f.occupants p φ).replace c d) [d] [c]) := by
  cases φ with
  | single s =>
    have hs : f.single p s = some c := Option.mem_toList.1 hc
    have hassign : (replaceIn p c d (.single s)).perform f =
        (.ok true, if c = d then f else f.exchange p s (some d)) := by
      rw [replaceIn, perform_get_bind, if_pos hs, perform_bind, perform_assign hφ hfit, hs]
      simp only [Option.some.injEq]
      rfl
    rw [hassign]
    by_cases hcd : c = d
    · rw [if_pos hcd]
      exact ⟨f, rfl, .inl ⟨hcd, rfl⟩⟩
    · rw [if_neg hcd]
      refine ⟨_, rfl, .inr ⟨hcd, ?_⟩⟩
      have hone : (f.occupants p (.single s)).replace c d = [d] := by
        show (f.single p s).toList.replace c d = [d]
        rw [hs, Option.toList_some, List.replace_cons_self]
      have hr := exchange_rewired hp (x := some d) (by rintro n ⟨⟩; exact hd) hφ
        (by rintro n ⟨⟩; exact hfit)
      rw [hs] at hr
      rw [hone]
      exact hr
  | sequence s =>
    obtain ⟨hc', -⟩ | ⟨-, i, hi⟩ := position?_cases f p s c
    · exact absurd hc hc'
    rw [replaceIn, substitute, check_bind_eq (requireField_eq_ok.2 hφ), perform_get_bind, hi]
    dsimp only
    rw [check_bind_eq (requireFit_eq_ok.2 hfit)]
    by_cases hcd : c = d
    · rw [if_pos hcd]
      exact ⟨f, rfl, .inl ⟨hcd, rfl⟩⟩
    · rw [if_neg hcd]
      refine ⟨_, rfl, .inr ⟨hcd, ?_⟩⟩
      show Rewired f _ p (.sequence s) ((f.sequence p s).replace c d) [d] [c]
      rw [← set_position? hi]
      exact linkInto_unlink_rewired hp hd hφ hfit (position?_eq_some hi) hcd

/-! ## The search -/

/-- Fields that do not hold the child are passed over. -/
theorem perform_replaceAmong {φs : List Field} (hφs : ∀ φ ∈ φs, φ ∈ (f.kind p).fields) :
    (replaceAmong p c d φs).perform f =
      match φs.find? (c ∈ f.occupants p ·) with
      | none => (.ok false, f)
      | some φ =>
        match (replaceIn p c d φ).perform f with
        | (.ok _, g) => (.ok true, g.note (.replacedChild (g.kind p) φ (g.kind d)))
        | (.error e, g) => (.error e, g) := by
  induction φs with
  | nil => rfl
  | cons φ φs ih =>
    obtain ⟨hφ, hφs⟩ := List.forall_mem_cons.1 hφs
    rw [replaceAmong, perform_bind]
    by_cases hc : c ∈ f.occupants p φ
    · rw [List.find?_cons_of_pos (by simpa using hc)]
      dsimp only
      rcases hin : (replaceIn p c d φ).perform f with ⟨e | b, g⟩
      · rfl
      · rcases replaceIn_answer hin with ⟨rfl, -⟩ | ⟨-, hc', -⟩
        · rfl
        · exact absurd hc hc'
    · rw [perform_replaceIn_absent hφ hc, List.find?_cons_of_neg (by simpa using hc)]
      exact ih hφs

/-- The search comes down to one field, that of the first occurrence. -/
theorem perform_replaceChild (h : f.Regular) :
    (replaceChild p c d).perform f =
      match f.firstFieldOf? p c with
      | none => (.ok false, f)
      | some φ =>
        match (replaceIn p c d φ).perform f with
        | (.ok _, g) => (.ok true, g.note (.replacedChild (g.kind p) φ (g.kind d)))
        | (.error e, g) => (.error e, g) := by
  rw [replaceChild, perform_get_bind, perform_replaceAmong fun φ => Kind.mem_searchOrder.1,
    ← h.fieldOf?_eq]
  rfl

/-- Without the child, nothing happens and the answer is no. -/
theorem perform_replaceChild_absent (h : f.Regular) (hc : c ∉ f.children p) :
    (replaceChild p c d).perform f = (.ok false, f) := by
  rw [perform_replaceChild h, firstFieldOf?_eq_none.2 hc]

/-- The error is about the field of the first occurrence, even if the node would fit another one. -/
theorem perform_replaceChild_misfit (h : f.Regular) (hφ : f.firstFieldOf? p c = some φ)
    (hfit : φ.category.accepts (f.kind d) = false) :
    (replaceChild p c d).perform f =
      (.error (.incompatibleNode (f.kind p) φ (f.kind d)), f) := by
  obtain ⟨hdeclared, hc⟩ := mem_of_firstFieldOf? hφ
  rw [perform_replaceChild h, hφ]
  dsimp only
  rw [perform_replaceIn_misfit hdeclared hc hfit]

/-- The replacement takes the first place of the child in the field that comes first. -/
theorem perform_replaceChild_fit (h : f.Regular) (hp : p < f.size) (hd : d < f.size)
    (hφ : f.firstFieldOf? p c = some φ) (hfit : φ.category.accepts (f.kind d) = true) :
    ∃ g, (replaceChild p c d).perform f = (.ok true, g) ∧
      (c = d ∧ g = f.note (.replacedChild (f.kind p) φ (f.kind d)) ∨
        c ≠ d ∧ Rewired f g p φ ((f.occupants p φ).replace c d) [d] [c]) := by
  obtain ⟨hdeclared, hc⟩ := mem_of_firstFieldOf? hφ
  obtain ⟨g, hg, hcases⟩ := perform_replaceIn hp hd hdeclared hc hfit
  refine ⟨g.note (.replacedChild (g.kind p) φ (g.kind d)), ?_, ?_⟩
  · rw [perform_replaceChild h, hφ]
    dsimp only
    rw [hg]
  · rcases hcases with ⟨hcd, rfl⟩ | ⟨hcd, hr⟩
    · exact .inl ⟨hcd, rfl⟩
    · exact .inr ⟨hcd, hr.note _⟩

end Mutation

namespace World

open Forest

/-- **Replacing a child, in full.** In every reachable world, for every node `p` and all nodes `c`
and `d`: if `c` is not a child of `p`, nothing happens. Otherwise its first occurrence among the
children is in a field `φ`. If `d` does not fit there it is refused, and nothing happens. If it
does, it takes that place and no other. A node that takes its own place is left alone, together
with everything else, and otherwise `d` has `p` as its parent. -/
theorem replaceChild_complete {w : World} (hw : w.Reachable) {p c d : NodeId}
    (hp : w.forest.IsNode p) (hd : w.forest.IsNode d) :
    (c ∉ w.forest.children p →
      (Mutation.replaceChild p c d).perform w.forest = (.ok false, w.forest)) ∧
    (c ∈ w.forest.children p → ∃ φ, w.forest.firstFieldOf? p c = some φ ∧
      (φ.category.accepts (w.forest.kind d) = false →
        (Mutation.replaceChild p c d).perform w.forest =
          (.error (.incompatibleNode (w.forest.kind p) φ (w.forest.kind d)), w.forest)) ∧
      (φ.category.accepts (w.forest.kind d) = true →
        ∃ g, (Mutation.replaceChild p c d).perform w.forest = (.ok true, g) ∧
          (c = d → g.records = w.forest.records) ∧
          (c ≠ d → Replaced w.forest g p φ c d) ∧
          (w.Live p → (c = d → w.forest.link c = some p) →
            g.parent? (g.kept w.hands) d = some p))) := by
  have h := hw.regular
  refine ⟨fun hc => Mutation.perform_replaceChild_absent h hc, fun hc => ?_⟩
  obtain ⟨φ, hφ⟩ : ∃ φ, w.forest.firstFieldOf? p c = some φ :=
    Option.ne_none_iff_exists'.1 fun hnone => firstFieldOf?_eq_none.1 hnone hc
  refine ⟨φ, hφ, fun hfit => Mutation.perform_replaceChild_misfit h hφ hfit, fun hfit => ?_⟩
  obtain ⟨g, hg, hcases⟩ := Mutation.perform_replaceChild_fit h hp.lt_size hd.lt_size hφ hfit
  refine ⟨g, hg, fun hcd => ?_, fun hcd => ?_, fun hlive hlink => ?_⟩
  · rcases hcases with ⟨-, rfl⟩ | ⟨hne, -⟩
    · rfl
    · exact absurd hcd hne
  · exact (hcases.resolve_left fun e => hcd e.1).2.replaced h hp hφ
  · exact parent?_replaceChild h hp hlive hd hg fun hcd => hcd ▸ hlink hcd

/-- A statement `x(x, y, x) if`: the name is in two fields and, in one of them, in two places. The
statement `return y` comes later, so that the other name is linked to it. -/
def repetitive : List Move :=
  [.call (.construct {} (.reference "x") []),
   .call (.construct {} (.reference "y") []),
   .call (.construct {} .methodInvocation
     [.single .target (some 0), .sequence .arguments [0, 1, 0]]),
   .call (.construct {} (.statementModifier .ifTrue) []),
   .call (.construct {} .expressionStatement [.single .modifier (some 3),
     .single .expression (some 2)]),
   .call (.construct {} .returnStatement [.single .expression (some 1)]),
   .call (.construct {} (.statementModifier .unlessTrue) []),
   .hold [4, 5, 6]]

/-- The name is replaced in the first field only, the modifier is found although it is looked for
last, a name does not take its place, and a statement is not a child of an expression. -/
theorem replaceChild_complete_repetitive :
    let w := repetitive.foldl after {}
    let g₁ := ((Mutation.replaceChild 2 0 1).perform w.forest).2
    let g₂ := ((Mutation.replaceChild 4 3 6).perform w.forest).2
    (Replaced w.forest g₁ 2 (.single .target) 0 1 ∧ g₁.children 2 = [1, 0, 1, 0] ∧
      w.parent? 1 = some 5 ∧ g₁.parent? (g₁.kept w.hands) 1 = some 2) ∧
    (Replaced w.forest g₂ 4 (.single .modifier) 3 6 ∧ g₂.children 4 = [6, 2]) ∧
    (Mutation.replaceChild 4 3 0).perform w.forest =
      (.error (.incompatibleNode .expressionStatement (.single .modifier) .reference),
        w.forest) ∧
    (Mutation.replaceChild 2 4 0).perform w.forest = (.ok false, w.forest) := by
  have hw : (repetitive.foldl after {}).Reachable := .of_allows (.refl _) (by decide +kernel)
  have hnode : ∀ n < 7, (repetitive.foldl after {}).forest.IsNode n := by decide +kernel
  refine ⟨?_, ?_, ?_, ?_⟩
  · obtain ⟨φ, hφ, -, hfit⟩ := (replaceChild_complete hw (c := 0) (hnode 2 (by decide))
      (hnode 1 (by decide))).2 (by decide +kernel)
    obtain rfl : .single .target = φ := Option.some.inj (Eq.trans (by decide +kernel) hφ)
    obtain ⟨g, hg, -, hreplaced, hparent⟩ := hfit (by decide +kernel)
    rw [hg]
    exact ⟨hreplaced (by decide), (hreplaced (by decide)).children_eq.trans (by decide +kernel),
      by decide +kernel, hparent (by decide +kernel) (by decide)⟩
  · obtain ⟨φ, hφ, -, hfit⟩ := (replaceChild_complete hw (c := 3) (hnode 4 (by decide))
      (hnode 6 (by decide))).2 (by decide +kernel)
    obtain rfl : .single .modifier = φ := Option.some.inj (Eq.trans (by decide +kernel) hφ)
    obtain ⟨g, hg, -, hreplaced, -⟩ := hfit (by decide +kernel)
    rw [hg]
    exact ⟨hreplaced (by decide), (hreplaced (by decide)).children_eq.trans (by decide +kernel)⟩
  · obtain ⟨φ, hφ, hmisfit, -⟩ := (replaceChild_complete hw (c := 3) (hnode 4 (by decide))
      (hnode 0 (by decide))).2 (by decide +kernel)
    obtain rfl : .single .modifier = φ := Option.some.inj (Eq.trans (by decide +kernel) hφ)
    exact hmisfit (by decide +kernel)
  · exact (replaceChild_complete hw (hnode 2 (by decide)) (hnode 0 (by decide))).1
      (by decide +kernel)

end World

end SyntaxForest
