import SyntaxForest.Forest.Replace
import Mathlib.Data.List.Perm.Basic

/-!
# Rewiring: what an operation on one field does

Every operation that places nodes into a field or takes nodes out of it comes down to the same
move. The holder gets other occupants in one field; the nodes placed are linked to the owner;
the nodes taken out lose their link, unless it leads elsewhere or they were placed again.
`Rewired` states that move by what can be read off the two forests, so that a proof about all
operations has one case for all of them.

The occupants before and after are tied together by `Rewired.balance`: the new occupants and
the nodes taken out are, all in all, the old occupants and the nodes placed. Occurrences
count, so the law also says what happens to a node that a field holds more than once.

Main statements: `assign_rewired`, `edit_rewired` and `replaceChild_rewired`. An operation that
succeeds either leaves every record as it was or rewires one field of the holder.
-/

namespace SyntaxForest

/-- The record without what it holds and where it is linked. -/
def Record.rest (r : Record) : Record := { r with contents := {}, link := none }

/-- Records with the same contents and the same rest differ in their links at most. -/
theorem Record.withLink_none_eq {r t : Record} (hc : r.contents = t.contents)
    (hr : r.rest = t.rest) : r.withLink none = t.withLink none := by
  cases r
  cases t
  simp_all [Record.rest, Record.withLink]

/-- Records that differ in their links at most and have the same link are the same. -/
theorem Record.eq_of_withLink {r t : Record} (h : r.withLink none = t.withLink none)
    (hl : r.link = t.link) : r = t := by
  cases r
  cases t
  simp_all [Record.withLink]

/-- Contents are known from the occupants of all fields. -/
theorem Contents.ext_occupants {a b : Contents} (h : ∀ φ, a.occupants φ = b.occupants φ) :
    a = b := by
  have hsingle : ∀ s, a.single s = b.single s := fun s => by
    simpa [occupants] using congrArg List.head? (h (.single s))
  have hsequence : ∀ s, a.sequence s = b.sequence s := fun s => h (.sequence s)
  cases a
  cases b
  simp only [Contents.mk.injEq]
  exact ⟨hsingle .modifier, hsingle .expression, hsingle .block, hsingle .condition,
    hsingle .target, hsingle .left, hsingle .right, hsequence .statements, hsequence .arguments⟩

namespace Forest

/-- The nodes in a field of a node, in order. -/
def occupants (f : Forest) (i : NodeId) (φ : Field) : List NodeId :=
  (f.record i).contents.occupants φ

/-- The record of `i` belongs to a node in its own right, not to a draft. -/
def IsNode (f : Forest) (i : NodeId) : Prop := (f.record i).assembled = true

instance (f : Forest) (i : NodeId) : Decidable (f.IsNode i) :=
  inferInstanceAs (Decidable (_ = true))

/-- Outside of the store there are no nodes. -/
theorem IsNode.lt_size {f : Forest} {i : NodeId} (h : f.IsNode i) : i < f.size := by
  apply Decidable.byContradiction
  intro hi
  rw [IsNode, record_of_size_le (Nat.le_of_not_lt hi)] at h
  exact absurd h (by decide)

/-- A child is an occupant of a declared field. -/
theorem mem_children {f : Forest} {p c : NodeId} :
    c ∈ f.children p ↔ ∃ φ ∈ (f.kind p).fields, c ∈ f.occupants p φ := by
  simp [children, Record.children, kind, occupants]

/-- Children are in the order of the declared fields. -/
theorem children_eq_flatMap (f : Forest) (p : NodeId) :
    f.children p = (f.kind p).fields.flatMap (f.occupants p) := rfl

/-- What a node holds is known from its kind and the occupants of its fields. -/
theorem children_congr {f g : Forest} {p : NodeId} (hkind : g.kind p = f.kind p)
    (hoccupants : ∀ φ, g.occupants p φ = f.occupants p φ) : g.children p = f.children p := by
  rw [children_eq_flatMap, children_eq_flatMap, hkind, funext hoccupants]

/-! ## Reading after the primitive changes -/

section Readings

variable (f : Forest) (j p : NodeId) (l : Option NodeId) (xs : List NodeId) (φ : Field)
  (s : SingleField) (t : SequenceField) (x : Option NodeId)

@[simp] theorem rest_linkAll : ((f.linkAll xs l).record j).rest = (f.record j).rest := by
  rw [record_linkAll]
  split <;> rfl

@[simp] theorem rest_unlinkAll : ((f.unlinkAll xs l).record j).rest = (f.record j).rest := by
  rw [record_unlinkAll]
  split <;> rfl

@[simp] theorem rest_writeSingle :
    ((f.writeSingle p s x).record j).rest = (f.record j).rest := by
  rw [record_writeSingle]
  split <;> rfl

@[simp] theorem rest_writeSequence :
    ((f.writeSequence p t xs).record j).rest = (f.record j).rest := by
  rw [record_writeSequence]
  split <;> rfl

@[simp] theorem occupants_note (e : Event) : (f.note e).occupants j φ = f.occupants j φ := rfl

@[simp] theorem occupants_linkAll : (f.linkAll xs l).occupants j φ = f.occupants j φ := by
  unfold occupants
  rw [record_linkAll]
  split <;> rfl

@[simp] theorem occupants_unlinkAll : (f.unlinkAll xs l).occupants j φ = f.occupants j φ := by
  unfold occupants
  rw [record_unlinkAll]
  split <;> rfl

/-- Writing a field of a record in the store: this field is what was written, and all others are as
they were. -/
theorem occupants_writeSingle {f : Forest} {p : NodeId} (hp : p < f.size) :
    (f.writeSingle p s x).occupants j φ =
      if j = p ∧ φ = .single s then x.toList else f.occupants j φ := by
  unfold occupants
  rw [record_writeSingle]
  by_cases hj : j = p
  · subst hj
    simp [hp, Contents.occupants_setSingle]
  · simp [hj, Ne.symm hj]

/-- The same for a sequence. -/
theorem occupants_writeSequence {f : Forest} {p : NodeId} (hp : p < f.size) :
    (f.writeSequence p t xs).occupants j φ =
      if j = p ∧ φ = .sequence t then xs else f.occupants j φ := by
  unfold occupants
  rw [record_writeSequence]
  by_cases hj : j = p
  · subst hj
    simp [hp, Contents.occupants_setSequence]
  · simp [hj, Ne.symm hj]

/-- The named nodes are linked anew, each as far as it is in the store. -/
theorem link_linkAll :
    (f.linkAll xs l).link j = if j ∈ xs ∧ j < f.size then l else f.link j := by
  unfold link
  rw [record_linkAll]
  split <;> rfl

/-- Only those of the named nodes lose their link that were linked to `l`. -/
theorem link_unlinkAll :
    (f.unlinkAll xs l).link j = if j ∈ xs ∧ f.link j = l then none else f.link j := by
  unfold link
  rw [record_unlinkAll]
  unfold link
  split <;> rfl

@[simp] theorem link_writeSingle : (f.writeSingle p s x).link j = f.link j := by
  unfold link
  rw [record_writeSingle]
  split <;> rfl

@[simp] theorem link_writeSequence : (f.writeSequence p t xs).link j = f.link j := by
  unfold link
  rw [record_writeSequence]
  split <;> rfl

end Readings

/-! ### The same, for what is read off the rest of a record -/

/-- The kind is part of the rest. -/
theorem kind_eq_of_rest {f g : Forest} {i : NodeId}
    (h : (g.record i).rest = (f.record i).rest) : g.kind i = f.kind i := by
  show (g.record i).rest.kind = (f.record i).rest.kind
  rw [h]

theorem assembled_eq_of_rest {f g : Forest} {i : NodeId}
    (h : (g.record i).rest = (f.record i).rest) :
    (g.record i).assembled = (f.record i).assembled := by
  show (g.record i).rest.assembled = (f.record i).rest.assembled
  rw [h]

/-- Whether a record is a node or a draft is part of the rest. -/
theorem isNode_iff_of_rest {f g : Forest} {i : NodeId}
    (h : (g.record i).rest = (f.record i).rest) : g.IsNode i ↔ f.IsNode i := by
  rw [IsNode, IsNode, assembled_eq_of_rest h]

/-- The owners of fields are part of the rest. -/
theorem owner_eq_of_rest {f g : Forest} {i : NodeId}
    (h : (g.record i).rest = (f.record i).rest) (φ : Field) : g.owner i φ = f.owner i φ := by
  show (g.record i).rest.owners.get φ = (f.record i).rest.owners.get φ
  rw [h]

@[simp] theorem kind_linkInto (f : Forest) (p : NodeId) (s : SequenceField) (x : NodeId)
    (ys : List NodeId) (j : NodeId) : (f.linkInto p s x ys).kind j = f.kind j := by
  show ((f.linkAll [x] _).writeSequence p s ys).kind j = f.kind j
  exact kind_eq_of_rest (by simp)

@[simp] theorem kind_unlinkFrom (f : Forest) (p : NodeId) (s : SequenceField)
    (ys xs : List NodeId) (j : NodeId) : (f.unlinkFrom p s ys xs).kind j = f.kind j :=
  kind_eq_of_rest (by simp [unlinkFrom])

/-! ## The move -/

/-- `g` is `f` with the occupants `ys` in the field `φ` of `p`, the nodes `placed` linked to the
owner of the field, and the nodes `taken` out unlinked from it. -/
structure Rewired (f g : Forest) (p : NodeId) (φ : Field) (ys placed taken : List NodeId) :
    Prop where
  size_eq : g.size = f.size
  rest_eq : ∀ j, (g.record j).rest = (f.record j).rest
  occupants_eq : ∀ j ψ, g.occupants j ψ = if j = p ∧ ψ = φ then ys else f.occupants j ψ
  link_eq : ∀ j, g.link j =
    if j ∈ placed then f.owner p φ
    else if j ∈ taken ∧ f.link j = f.owner p φ then none else f.link j
  declared : φ ∈ (f.kind p).fields
  placed_subset : placed ⊆ ys
  /-- Occurrences are neither lost nor made. -/
  balance : (ys ++ taken).Perm (f.occupants p φ ++ placed)
  fits : ∀ x ∈ placed, φ.category.accepts (f.kind x) = true

namespace Rewired

variable {f g : Forest} {p : NodeId} {φ : Field} {ys placed taken : List NodeId}

/-- Nobody changes kind by being moved. -/
theorem kind_eq (h : Rewired f g p φ ys placed taken) (j : NodeId) : g.kind j = f.kind j :=
  kind_eq_of_rest (h.rest_eq j)

/-- Nobody is assembled by being moved. -/
theorem isNode_iff (h : Rewired f g p φ ys placed taken) {j : NodeId} :
    g.IsNode j ↔ f.IsNode j :=
  isNode_iff_of_rest (h.rest_eq j)

/-- The field that is rewired holds `ys` afterwards. -/
theorem occupants_self (h : Rewired f g p φ ys placed taken) : g.occupants p φ = ys := by
  rw [h.occupants_eq, if_pos ⟨rfl, rfl⟩]

/-- Other fields are as they were, those of the holder included. -/
theorem occupants_of_ne (h : Rewired f g p φ ys placed taken) {j : NodeId} {ψ : Field}
    (hne : ψ ≠ φ) : g.occupants j ψ = f.occupants j ψ := by
  rw [h.occupants_eq, if_neg fun e => hne e.2]

/-- Nodes other than the holder keep their children. -/
theorem children_of_ne (h : Rewired f g p φ ys placed taken) {j : NodeId} (hj : j ≠ p) :
    g.children j = f.children j :=
  children_congr (h.kind_eq j) fun ψ => by rw [h.occupants_eq, if_neg fun e => hj e.1]

/-- Records other than the holder's change in their links at most. -/
theorem record_of_ne (h : Rewired f g p φ ys placed taken) {j : NodeId} (hj : j ≠ p) :
    (g.record j).withLink none = (f.record j).withLink none := by
  refine Record.withLink_none_eq (Contents.ext_occupants fun ψ => ?_) (h.rest_eq j)
  exact (h.occupants_eq j ψ).trans (if_neg fun e => hj e.1)

/-- Nothing placed and nothing taken out. -/
theorem refl (hφ : φ ∈ (f.kind p).fields) : Rewired f f p φ (f.occupants p φ) [] [] where
  size_eq := rfl
  rest_eq _ := rfl
  occupants_eq j ψ := by
    split
    · next h => rw [h.1, h.2]
    · rfl
  link_eq j := by simp
  declared := hφ
  placed_subset := List.nil_subset _
  balance := List.Perm.refl _
  fits := by simp

/-- Placing more nodes into the same field is part of the same move. -/
theorem trans_placed {k : Forest} {zs placed' : List NodeId}
    (h₁ : Rewired f g p φ ys placed taken) (h₂ : Rewired g k p φ zs placed' []) :
    Rewired f k p φ zs (placed ++ placed') taken := by
  have hbalance : zs.Perm (ys ++ placed') := by
    simpa [h₁.occupants_self] using h₂.balance
  refine ⟨h₂.size_eq.trans h₁.size_eq, fun j => (h₂.rest_eq j).trans (h₁.rest_eq j),
    fun j ψ => ?_, fun j => ?_, h₁.declared, ?_, ?_, ?_⟩
  · rw [h₂.occupants_eq, h₁.occupants_eq]
    split <;> rfl
  · rw [h₂.link_eq, h₁.link_eq, owner_eq_of_rest (h₁.rest_eq p)]
    by_cases hj : j ∈ placed' <;> simp [hj]
  · refine List.append_subset.2 ⟨fun x hx => ?_, h₂.placed_subset⟩
    exact hbalance.mem_iff.2 (List.mem_append_left _ (h₁.placed_subset hx))
  · have hswap : (placed' ++ taken).Perm (taken ++ placed') := List.perm_append_comm
    have hzs : (zs ++ taken).Perm (ys ++ taken ++ placed') := by
      simpa using (hbalance.append_right taken).trans (by simpa using hswap.append_left ys)
    rw [← List.append_assoc]
    exact hzs.trans (h₁.balance.append_right placed')
  · intro x hx
    rcases List.mem_append.1 hx with hx | hx
    · exact h₁.fits x hx
    · rw [← h₁.kind_eq]
      exact h₂.fits x hx

/-- A journal entry is no rewiring. -/
theorem note (h : Rewired f g p φ ys placed taken) (e : Event) :
    Rewired f (g.note e) p φ ys placed taken where
  size_eq := h.size_eq
  rest_eq := h.rest_eq
  occupants_eq := h.occupants_eq
  link_eq := h.link_eq
  declared := h.declared
  placed_subset := h.placed_subset
  balance := h.balance
  fits := h.fits

/-- The balance for one node: its occurrences in the field and those taken out. -/
theorem count_eq (h : Rewired f g p φ ys placed taken) (x : NodeId) :
    ys.count x + taken.count x = (f.occupants p φ).count x + placed.count x := by
  rw [← List.count_append, ← List.count_append]
  exact h.balance.count_eq x

/-- The same balance for all that the holder holds. -/
theorem count_children (h : Rewired f g p φ ys placed taken) (x : NodeId) :
    (g.children p).count x + taken.count x = (f.children p).count x + placed.count x := by
  have hfields : ∀ φs : List Field, φs.Nodup → φ ∈ φs →
      (φs.flatMap (g.occupants p)).count x + (f.occupants p φ).count x =
        (φs.flatMap (f.occupants p)).count x + ys.count x := by
    intro φs
    induction φs with
    | nil => intro _ hφ; exact absurd hφ List.not_mem_nil
    | cons ψ ψs ih =>
      intro hnodup hφ
      obtain ⟨hψ, hnodup⟩ := List.nodup_cons.1 hnodup
      simp only [List.flatMap_cons, List.count_append]
      rcases List.mem_cons.1 hφ with rfl | hφ
      · -- the other fields are as before
        have hrest : ψs.flatMap (g.occupants p) = ψs.flatMap (f.occupants p) := by
          refine List.flatMap_congr fun χ hχ => h.occupants_of_ne ?_
          rintro rfl
          exact hψ hχ
        rw [hrest, h.occupants_self]
        omega
      · have := ih hnodup hφ
        rw [h.occupants_of_ne (j := p) (ψ := ψ) (by rintro rfl; exact hψ hφ)]
        omega
  have h₁ := hfields (f.kind p).fields (Kind.nodup_fields _) h.declared
  have h₂ := h.count_eq x
  rw [children_eq_flatMap, children_eq_flatMap, h.kind_eq]
  omega

/-- What a field holds afterwards was there or has been placed. -/
theorem mem_of_mem (h : Rewired f g p φ ys placed taken) {x : NodeId} (hx : x ∈ ys) :
    x ∈ f.occupants p φ ∨ x ∈ placed :=
  List.mem_append.1 (h.balance.mem_iff.1 (List.mem_append_left _ hx))

/-- What has been taken out was there before, or has been placed by the same move. -/
theorem mem_of_taken (h : Rewired f g p φ ys placed taken) {x : NodeId} (hx : x ∈ taken) :
    x ∈ f.occupants p φ ∨ x ∈ placed :=
  List.mem_append.1 (h.balance.mem_iff.1 (List.mem_append_right _ hx))

/-- What a field held before is there still or has been taken out. -/
theorem mem_or_taken (h : Rewired f g p φ ys placed taken) {x : NodeId}
    (hx : x ∈ f.occupants p φ) : x ∈ ys ∨ x ∈ taken :=
  List.mem_append.1 (h.balance.mem_iff.2 (List.mem_append_left _ hx))

/-- The children of any node afterwards: its own of before, or placed into the holder. -/
theorem mem_children_of_mem (h : Rewired f g p φ ys placed taken) {j c : NodeId}
    (hc : c ∈ g.children j) : c ∈ f.children j ∨ j = p ∧ c ∈ placed := by
  obtain ⟨ψ, hψ, hmem⟩ := Forest.mem_children.1 hc
  rw [h.kind_eq] at hψ
  rw [h.occupants_eq] at hmem
  split at hmem
  · next e =>
    obtain ⟨rfl, rfl⟩ := e
    exact (h.mem_of_mem hmem).imp (fun hx => Forest.mem_children.2 ⟨ψ, hψ, hx⟩) fun hx => ⟨rfl, hx⟩
  · exact .inl (Forest.mem_children.2 ⟨ψ, hψ, hmem⟩)

/-- The children of any node before: still its own, or taken out of the holder. -/
theorem mem_children_or_taken (h : Rewired f g p φ ys placed taken) {j c : NodeId}
    (hc : c ∈ f.children j) : c ∈ g.children j ∨ j = p ∧ c ∈ taken := by
  obtain ⟨ψ, hψ, hmem⟩ := Forest.mem_children.1 hc
  rw [← h.kind_eq] at hψ
  by_cases e : j = p ∧ ψ = φ
  · obtain ⟨rfl, rfl⟩ := e
    refine (h.mem_or_taken hmem).imp (fun hx => ?_) fun hx => ⟨rfl, hx⟩
    exact Forest.mem_children.2 ⟨ψ, hψ, by rw [h.occupants_self]; exact hx⟩
  · exact .inl (Forest.mem_children.2 ⟨ψ, hψ, by rw [h.occupants_eq, if_neg e]; exact hmem⟩)

/-- What has been placed is a child of the holder. -/
theorem placed_mem_children (h : Rewired f g p φ ys placed taken) {c : NodeId}
    (hc : c ∈ placed) : c ∈ g.children p :=
  Forest.mem_children.2 ⟨φ, by rw [h.kind_eq]; exact h.declared,
    by rw [h.occupants_self]; exact h.placed_subset hc⟩

end Rewired

/-! ## Succeeding checks -/

/-- A check goes through just if both of its parts do. -/
theorem bind_eq_ok {α β : Type} {x : Except Error α} {k : α → Except Error β} {b : β} :
    (x >>= k) = .ok b ↔ ∃ a, x = .ok a ∧ k a = .ok b := by
  cases x <;> simp [bind, Except.bind]

/-- A field is there just if it is declared for the kind. -/
theorem requireField_eq_ok {f : Forest} {p : NodeId} {φ : Field} {u : Unit} :
    f.requireField p φ = .ok u ↔ φ ∈ (f.kind p).fields := by
  unfold requireField Kind.declares
  split <;> simp_all

/-- A node fits just if it is of the category of the field. -/
theorem requireFit_eq_ok {f : Forest} {p x : NodeId} {φ : Field} {u : Unit} :
    f.requireFit p φ x = .ok u ↔ φ.category.accepts (f.kind x) = true := by
  unfold requireFit
  split <;> simp_all

/-- All fit just if each does. -/
theorem requireFits_eq_ok {f : Forest} {p : NodeId} {φ : Field} {xs : List NodeId} {u : Unit} :
    f.requireFits p φ xs = .ok u ↔ ∀ x ∈ xs, φ.category.accepts (f.kind x) = true := by
  induction xs with
  | nil => simp [requireFits]
  | cons x xs ih => simp [requireFits, bind_eq_ok, requireFit_eq_ok, ih]

/-- The position behind the last element is one to insert at. -/
theorem requireWithin_eq_ok {f : Forest} {p : NodeId} {s : SequenceField} {i : Nat} {u : Unit} :
    f.requireWithin p s i = .ok u ↔ i ≤ (f.sequence p s).length := by
  unfold requireWithin
  dsimp only
  split <;> simp_all

/-! ## Single fields -/

/-- Exchanging the occupant of a single field. The old occupant is unlinked first, so that the same
node comes out linked. -/
theorem exchange_rewired {f : Forest} {p : NodeId} {s : SingleField} {x : Option NodeId}
    (hp : p < f.size) (hx : ∀ n ∈ x, n < f.size) (hs : .single s ∈ (f.kind p).fields)
    (hfit : ∀ n ∈ x, s.category.accepts (f.kind n) = true) :
    Rewired f (f.exchange p s x) p (.single s) x.toList x.toList (f.single p s).toList where
  size_eq := by simp [exchange]
  rest_eq j := by simp [exchange]
  occupants_eq j ψ := by simp [exchange, occupants_writeSingle j ψ s x hp]
  link_eq j := by
    simp only [exchange, link_linkAll, link_unlinkAll, link_writeSingle, size_unlinkAll,
      size_writeSingle, Option.mem_toList]
    by_cases hj : x = some j
    · rw [if_pos ⟨hj, hx j hj⟩, if_pos hj]
    · rw [if_neg fun h => hj h.1, if_neg hj]
  declared := hs
  placed_subset := List.Subset.refl _
  balance := List.perm_append_comm
  fits n hn := hfit n (Option.mem_toList.1 hn)

/-- Assigning to a single field rewires it, or does nothing to a node already there. -/
theorem assign_rewired {f g : Forest} {p : NodeId} {s : SingleField} {x : Option NodeId}
    (h : (Mutation.assign p s x).perform f = (.ok (), g)) (hp : p < f.size)
    (hx : ∀ n ∈ x, n < f.size) :
    (∃ n, x = some n ∧ f.single p s = some n ∧ g = f) ∨
      (∀ n ∈ x, f.single p s ≠ some n) ∧
        Rewired f g p (.single s) x.toList x.toList (f.single p s).toList := by
  obtain ⟨hs, h⟩ := Mutation.check_bind_eq_ok.1 h
  rw [requireField_eq_ok] at hs
  cases x with
  | none =>
    obtain rfl : f.exchange p s none = g := (Prod.mk.inj h).2
    exact .inr ⟨by simp, exchange_rewired hp hx hs (by simp)⟩
  | some n =>
    obtain ⟨hfit, h⟩ := Mutation.check_bind_eq_ok.1 h
    rw [requireFit_eq_ok] at hfit
    rw [Mutation.perform_get_bind] at h
    split at h
    · next hsame => exact .inl ⟨n, rfl, hsame, (Prod.mk.inj h).2.symm⟩
    · next hother =>
      obtain rfl : f.exchange p s (some n) = g := (Prod.mk.inj h).2
      refine .inr ⟨?_, exchange_rewired hp hx hs ?_⟩
      · rintro m ⟨⟩
        exact hother
      · rintro m ⟨⟩
        exact hfit

/-! ## Sequence fields -/

section Sequence

variable {f g : Forest} {p : NodeId} {s : SequenceField}

/-- Linking a node and then writing a sequence that holds it besides the old elements. -/
theorem linkInto_rewired {x : NodeId} {ys : List NodeId} (hp : p < f.size) (hx : x < f.size)
    (hs : .sequence s ∈ (f.kind p).fields) (hperm : ys.Perm (f.sequence p s ++ [x]))
    (hfit : (Field.sequence s).category.accepts (f.kind x) = true) :
    Rewired f (f.linkInto p s x ys) p (.sequence s) ys [x] [] := by
  show Rewired f ((f.linkAll [x] (f.owner p (.sequence s))).writeSequence p s ys) _ _ _ _ _
  exact {
    size_eq := by simp
    rest_eq := fun j => by simp
    occupants_eq := fun j ψ => by
      rw [occupants_writeSequence _ _ _ _ (by simpa using hp), occupants_linkAll]
    link_eq := fun j => by
      simp only [link_writeSequence, link_linkAll]
      by_cases hj : j ∈ [x]
      · simp [List.mem_singleton.1 hj, hx]
      · simp [hj]
    declared := hs
    placed_subset := by simpa using hperm.mem_iff.2 (List.mem_append_right _ List.mem_cons_self)
    balance := by simpa [occupants, Contents.occupants, sequence] using hperm
    fits := by simpa using hfit }

/-- Writing a sequence with fewer elements and then unlinking those that are gone. -/
theorem unlinkFrom_rewired {xs ys : List NodeId} (hp : p < f.size)
    (hs : .sequence s ∈ (f.kind p).fields) (hperm : (ys ++ xs).Perm (f.sequence p s)) :
    Rewired f (f.unlinkFrom p s ys xs) p (.sequence s) ys [] xs where
  size_eq := by simp [unlinkFrom]
  rest_eq j := by simp [unlinkFrom]
  occupants_eq j ψ := by simp [unlinkFrom, occupants_writeSequence _ _ _ _ hp]
  link_eq j := by simp [unlinkFrom, link_unlinkAll]
  declared := hs
  placed_subset := List.nil_subset _
  balance := by simpa [occupants, Contents.occupants, sequence] using hperm
  fits := by simp

/-- Appending a node, after the checks. -/
theorem append_rewired {x : NodeId} (h : (Mutation.append p s x).perform f = (.ok (), g))
    (hp : p < f.size) (hx : x < f.size) :
    Rewired f g p (.sequence s) (f.sequence p s ++ [x]) [x] [] := by
  obtain ⟨hs, h⟩ := Mutation.check_bind_eq_ok.1 h
  obtain ⟨hfit, h⟩ := Mutation.check_bind_eq_ok.1 h
  obtain rfl := (Prod.mk.inj h).2
  exact linkInto_rewired hp hx (requireField_eq_ok.1 hs) (List.Perm.refl _)
    (requireFit_eq_ok.1 hfit)

/-- Inserting a node puts it in between the old elements, which stay linked as they are. -/
theorem insertAt_rewired {i : Nat} {x : NodeId}
    (h : (Mutation.insertAt p s i x).perform f = (.ok (), g)) (hp : p < f.size)
    (hx : x < f.size) :
    Rewired f g p (.sequence s) ((f.sequence p s).insertIdx i x) [x] [] := by
  obtain ⟨hs, h⟩ := Mutation.check_bind_eq_ok.1 h
  obtain ⟨hfit, h⟩ := Mutation.check_bind_eq_ok.1 h
  obtain ⟨hi, h⟩ := Mutation.check_bind_eq_ok.1 h
  obtain rfl := (Prod.mk.inj h).2
  have hperm := List.perm_insertIdx x (f.sequence p s) (requireWithin_eq_ok.1 hi)
  exact linkInto_rewired hp hx (requireField_eq_ok.1 hs)
    (hperm.trans (List.perm_append_singleton ..).symm) (requireFit_eq_ok.1 hfit)

/-- Appending nodes one after the other is one rewiring. -/
theorem forM_append_rewired {xs : List NodeId} (hs : .sequence s ∈ (f.kind p).fields)
    (h : (xs.forM (Mutation.append p s)).perform f = (.ok (), g)) (hp : p < f.size)
    (hxs : ∀ x ∈ xs, x < f.size) :
    Rewired f g p (.sequence s) (f.sequence p s ++ xs) xs [] := by
  induction xs generalizing f with
  | nil =>
    obtain rfl := (Prod.mk.inj h).2
    rw [List.append_nil]
    exact .refl hs
  | cons x xs ih =>
    obtain ⟨_, f', h₁, h₂⟩ := Mutation.bind_eq_ok.1 h
    have h₁ := append_rewired h₁ hp (hxs x List.mem_cons_self)
    have h₂ := ih (by rw [h₁.kind_eq]; exact hs) h₂ (by rw [h₁.size_eq]; exact hp)
      fun y hy => by rw [h₁.size_eq]; exact hxs y (List.mem_cons_of_mem _ hy)
    have hold : f'.sequence p s = f.sequence p s ++ [x] := h₁.occupants_self
    rw [hold, List.append_assoc] at h₂
    exact h₁.trans_placed h₂

/-- What is looked at beforehand makes no difference to what is appended. -/
theorem extend_rewired {xs : List NodeId}
    (h : (Mutation.extend p s xs).perform f = (.ok (), g)) (hp : p < f.size)
    (hxs : ∀ x ∈ xs, x < f.size) :
    Rewired f g p (.sequence s) (f.sequence p s ++ xs) xs [] := by
  obtain ⟨hs, h⟩ := Mutation.check_bind_eq_ok.1 h
  obtain ⟨-, h⟩ := Mutation.check_bind_eq_ok.1 h
  exact forM_append_rewired (requireField_eq_ok.1 hs) h hp hxs

/-- Clearing takes out everything, and unlinks what was linked to the owner. -/
theorem clear_rewired (h : (Mutation.clear p s).perform f = (.ok (), g)) (hp : p < f.size) :
    Rewired f g p (.sequence s) [] [] (f.sequence p s) := by
  obtain ⟨hs, h⟩ := Mutation.check_bind_eq_ok.1 h
  obtain rfl := (Prod.mk.inj h).2
  exact unlinkFrom_rewired hp (requireField_eq_ok.1 hs) (List.Perm.refl _)

/-- Clearing a sequence and extending it again is one rewiring: what comes back is linked. -/
theorem reset_rewired {xs : List NodeId}
    (h : (Mutation.reset p s xs).perform f = (.ok (), g)) (hp : p < f.size)
    (hxs : ∀ x ∈ xs, x < f.size) :
    Rewired f g p (.sequence s) xs xs (f.sequence p s) := by
  obtain ⟨-, h⟩ := Mutation.check_bind_eq_ok.1 h
  obtain ⟨-, h⟩ := Mutation.check_bind_eq_ok.1 h
  obtain ⟨_, f', h₁, h₂⟩ := Mutation.bind_eq_ok.1 h
  have h₁ := clear_rewired h₁ hp
  have h₂ := extend_rewired h₂ (by rw [h₁.size_eq]; exact hp)
    (fun x hx => by rw [h₁.size_eq]; exact hxs x hx)
  have hnil : f'.sequence p s = [] := h₁.occupants_self
  rw [hnil, List.nil_append] at h₂
  exact h₁.trans_placed h₂

/-- The position found is one at which the node is. -/
theorem position?_eq_some {x : NodeId} {i : Nat} (h : f.position? p s x = some i) :
    (f.sequence p s)[i]? = some x := by
  rw [position?, List.idxOf?, List.findIdx?_eq_some_iff_getElem] at h
  obtain ⟨hi, hx, _⟩ := h
  rw [List.getElem?_eq_getElem hi]
  simpa using hx

/-- No position is found just for a node that is not there. -/
theorem position?_eq_none {x : NodeId} : f.position? p s x = none ↔ x ∉ f.sequence p s :=
  List.idxOf?_eq_none_iff

/-- Erasing at an index takes away one occurrence of what is there. -/
theorem perm_eraseIdx {xs : List NodeId} {i : Nat} {x : NodeId} (h : xs[i]? = some x) :
    (xs.eraseIdx i ++ [x]).Perm xs := by
  obtain ⟨hi, rfl⟩ := List.getElem?_eq_some_iff.1 h
  exact (List.perm_append_singleton ..).trans (List.getElem_cons_eraseIdx_perm hi)

/-- Removing a node takes its first occurrence out, if there is one. -/
theorem remove_rewired {x : NodeId} {b : Bool}
    (h : (Mutation.remove p s x).perform f = (.ok b, g)) (hp : p < f.size) :
    g = f ∨ ∃ ys, Rewired f g p (.sequence s) ys [] [x] := by
  obtain ⟨hs, h⟩ := Mutation.check_bind_eq_ok.1 h
  rw [requireField_eq_ok] at hs
  rw [Mutation.perform_get_bind] at h
  split at h
  · exact .inl (Prod.mk.inj h).2.symm
  · next i hi =>
    obtain rfl := (Prod.mk.inj h).2
    exact .inr ⟨_, unlinkFrom_rewired hp hs (perm_eraseIdx (position?_eq_some hi))⟩

/-- Removing at an index takes out the node that is there, and answers with it. -/
theorem removeAt_rewired {i : Nat} {x : NodeId}
    (h : (Mutation.removeAt p s i).perform f = (.ok x, g)) (hp : p < f.size) :
    Rewired f g p (.sequence s) ((f.sequence p s).eraseIdx i) [] [x] := by
  obtain ⟨hs, h⟩ := Mutation.check_bind_eq_ok.1 h
  rw [requireField_eq_ok] at hs
  rw [Mutation.perform_get_bind] at h
  dsimp only at h
  split at h
  · exact absurd (Prod.mk.inj h).1 (by simp)
  · next y hi =>
    obtain ⟨hxy, rfl⟩ := Prod.mk.inj h
    obtain rfl := Except.ok.inj hxy
    exact unlinkFrom_rewired hp hs (perm_eraseIdx hi)

/-- Putting one node in the place of another. The new node is linked before the old one is
unlinked; being two nodes, they do not get in each other's way. -/
theorem linkInto_unlink_rewired {x y : NodeId} {i : Nat} (hp : p < f.size) (hy : y < f.size)
    (hs : .sequence s ∈ (f.kind p).fields)
    (hfit : (Field.sequence s).category.accepts (f.kind y) = true)
    (hi : (f.sequence p s)[i]? = some x) (hxy : x ≠ y) :
    Rewired f ((f.linkInto p s y ((f.sequence p s).set i y)).unlink x (f.owner p (.sequence s))) p
      (.sequence s) ((f.sequence p s).set i y) [y] [x] := by
  obtain ⟨hlt, -⟩ := List.getElem?_eq_some_iff.1 hi
  have hset := List.set_perm_cons_eraseIdx hlt y
  show Rewired f (((f.linkAll [y] (f.owner p (.sequence s))).writeSequence p s _).unlinkAll [x]
    (f.owner p (.sequence s))) p (.sequence s) _ [y] [x]
  refine ⟨by simp, fun j => by simp, fun j ψ => ?_, fun j => ?_, hs, ?_, ?_, by simpa using hfit⟩
  · simp [occupants_writeSequence _ _ _ _ (f := f.linkAll [y] (f.owner p (.sequence s)))
      (by simpa using hp)]
  · simp only [link_unlinkAll, link_writeSequence, link_linkAll, List.mem_singleton]
    by_cases hj : j = y
    · simp [hj, hy, Ne.symm hxy]
    · simp [hj]
  · simpa using hset.mem_iff.2 List.mem_cons_self
  · have hout : (y :: (f.sequence p s).eraseIdx i ++ [x]).Perm (y :: f.sequence p s) :=
      (perm_eraseIdx hi).cons y
    exact (hset.append_right [x]).trans (hout.trans (List.perm_append_singleton ..).symm)

/-- Substituting in a sequence rewires it, unless the node to be replaced is not there or is to be
replaced by itself. -/
theorem substitute_rewired {x y : NodeId} {b : Bool}
    (h : (Mutation.substitute p s x y).perform f = (.ok b, g)) (hp : p < f.size)
    (hy : y < f.size) :
    g = f ∧ (x ∈ f.sequence p s → x = y) ∨
      x ≠ y ∧ ∃ ys, Rewired f g p (.sequence s) ys [y] [x] := by
  obtain ⟨hs, h⟩ := Mutation.check_bind_eq_ok.1 h
  rw [requireField_eq_ok] at hs
  rw [Mutation.perform_get_bind] at h
  split at h
  · next hi => exact .inl ⟨(Prod.mk.inj h).2.symm, fun hx => absurd hx (position?_eq_none.1 hi)⟩
  · next i hi =>
    obtain ⟨hfit, h⟩ := Mutation.check_bind_eq_ok.1 h
    rw [requireFit_eq_ok] at hfit
    split at h
    · next hxy => exact .inl ⟨(Prod.mk.inj h).2.symm, fun _ => hxy⟩
    · next hxy =>
      obtain rfl := (Prod.mk.inj h).2
      exact .inr ⟨hxy, _, linkInto_unlink_rewired hp hy hs hfit (position?_eq_some hi) hxy⟩

end Sequence

end Forest

/-! ## Operations as data -/

namespace SequenceEdit

/-- The nodes that an operation on a sequence is handed for placement. -/
def placed : SequenceEdit NodeId → List NodeId
  | append x | insertAt _ x => [x]
  | extend xs | reset xs => xs
  | substitute _ y => [y]
  | clear | remove _ | removeAt _ => []

/-- The nodes that an operation puts into a sequence with the given elements. A node that is to
take the place of one that is not there, or of itself, is not put anywhere. -/
def entering (elements : List NodeId) : SequenceEdit NodeId → List NodeId
  | append x | insertAt _ x => [x]
  | extend xs | reset xs => xs
  | substitute x y => if x ∈ elements ∧ x ≠ y then [y] else []
  | clear | remove _ | removeAt _ => []

/-- The node `x`, handed over for placement into a sequence with the given elements, is to stay
where it is: among the elements that are put back, or in its own place. -/
def Keeps (e : SequenceEdit NodeId) (elements : List NodeId) (x : NodeId) : Prop :=
  match e with
  | reset _ => x ∈ elements
  | substitute y z => y = z
  | append _ | insertAt .. | extend _ | clear | remove _ | removeAt _ => False

instance (elements : List NodeId) (x : NodeId) :
    (e : SequenceEdit NodeId) → Decidable (e.Keeps elements x)
  | reset _ => inferInstanceAs (Decidable (x ∈ elements))
  | substitute y z => inferInstanceAs (Decidable (y = z))
  | append _ | insertAt .. | extend _ | clear | remove _ | removeAt _ =>
    inferInstanceAs (Decidable False)

end SequenceEdit

namespace Forest

/-- An operation on a sequence rewires it, or changes nothing. -/
theorem edit_rewired {f g : Forest} {p : NodeId} {s : SequenceField} {e : SequenceEdit NodeId}
    {a : SequenceAnswer} (h : (Mutation.edit p s e).perform f = (.ok a, g)) (hp : p < f.size)
    (hx : ∀ x ∈ e.placed, x < f.size) :
    g = f ∧ e.entering (f.sequence p s) = [] ∨
      ∃ ys taken, Rewired f g p (.sequence s) ys e.placed taken ∧
        (∀ x, e.Keeps (f.sequence p s) x → x ∈ taken) ∧
        e.entering (f.sequence p s) = e.placed := by
  cases e with
  | append x =>
    obtain ⟨_, h, -⟩ := Mutation.bind_pure_eq_ok.1 h
    have hr := append_rewired h hp (hx x List.mem_cons_self)
    exact .inr ⟨_, _, hr, fun _ hk => hk.elim, rfl⟩
  | insertAt i x =>
    obtain ⟨_, h, -⟩ := Mutation.bind_pure_eq_ok.1 h
    have hr := insertAt_rewired h hp (hx x List.mem_cons_self)
    exact .inr ⟨_, _, hr, fun _ hk => hk.elim, rfl⟩
  | extend xs =>
    obtain ⟨_, h, -⟩ := Mutation.bind_pure_eq_ok.1 h
    exact .inr ⟨_, _, extend_rewired h hp hx, fun _ hk => hk.elim, rfl⟩
  | reset xs =>
    obtain ⟨_, h, -⟩ := Mutation.bind_pure_eq_ok.1 h
    exact .inr ⟨_, _, reset_rewired h hp hx, fun _ hk => hk, rfl⟩
  | clear =>
    obtain ⟨_, h, -⟩ := Mutation.bind_pure_eq_ok.1 h
    exact .inr ⟨_, _, clear_rewired h hp, fun _ hk => hk.elim, rfl⟩
  | remove x =>
    obtain ⟨b, h, -⟩ := Mutation.bind_pure_eq_ok.1 h
    refine (remove_rewired h hp).imp (fun hg => ⟨hg, rfl⟩) ?_
    rintro ⟨ys, hr⟩
    exact ⟨ys, _, hr, fun _ hk => hk.elim, rfl⟩
  | removeAt i =>
    obtain ⟨x, h, -⟩ := Mutation.bind_pure_eq_ok.1 h
    exact .inr ⟨_, _, removeAt_rewired h hp, fun _ hk => hk.elim, rfl⟩
  | substitute x y =>
    obtain ⟨b, h, -⟩ := Mutation.bind_pure_eq_ok.1 h
    rcases substitute_rewired h hp (hx y List.mem_cons_self) with ⟨hg, hxy⟩ | ⟨hne, ys, hr⟩
    · exact .inl ⟨hg, if_neg fun hx => hx.2 (hxy hx.1)⟩
    · have hmem : x ∈ f.sequence p s := (hr.mem_of_taken List.mem_cons_self).resolve_right
        fun hx => hne (List.mem_singleton.1 hx)
      exact .inr ⟨ys, _, hr, fun _ hk => absurd hk hne, if_pos ⟨hmem, hne⟩⟩

/-! ## Replacing a child -/

/-- Replacing within one field rewires it, unless the child is not there or is to be replaced by
itself. -/
theorem replaceIn_rewired {f g : Forest} {p x y : NodeId} {φ : Field} {b : Bool}
    (h : (Mutation.replaceIn p x y φ).perform f = (.ok b, g)) (hp : p < f.size)
    (hy : y < f.size) :
    g = f ∧ (x ∈ f.occupants p φ → x = y) ∨ x ≠ y ∧ ∃ ys, Rewired f g p φ ys [y] [x] := by
  cases φ with
  | single s =>
    rw [Mutation.replaceIn, Mutation.perform_get_bind] at h
    split at h
    · next hsx =>
      obtain ⟨_, g', hg, he⟩ := Mutation.bind_eq_ok.1 h
      obtain rfl := (Prod.mk.inj he).2
      rcases assign_rewired hg hp (by rintro n ⟨⟩; exact hy) with ⟨n, hn, hsn, rfl⟩ | ⟨hne, hr⟩
      · refine .inl ⟨rfl, fun _ => ?_⟩
        exact Option.some.inj (hsx.symm.trans (hsn.trans hn.symm))
      · rw [hsx] at hne hr
        exact .inr ⟨fun e => hne y rfl (congrArg some e), _, hr⟩
    · next hsx => exact .inl ⟨(Prod.mk.inj h).2.symm, fun hx => absurd (Option.mem_toList.1 hx) hsx⟩
  | sequence s => exact substitute_rewired h hp hy

/-- The answer tells whether the child was in the field; if not, nothing has happened. -/
theorem replaceIn_answer {f g : Forest} {p x y : NodeId} {φ : Field} {b : Bool}
    (h : (Mutation.replaceIn p x y φ).perform f = (.ok b, g)) :
    b = true ∧ x ∈ f.occupants p φ ∨ b = false ∧ x ∉ f.occupants p φ ∧ g = f := by
  cases φ with
  | single s =>
    rw [Mutation.replaceIn, Mutation.perform_get_bind] at h
    split at h
    · next hsx =>
      obtain ⟨_, _, rfl⟩ := Mutation.bind_pure_eq_ok.1 h
      exact .inl ⟨rfl, Option.mem_toList.2 hsx⟩
    · next hsx =>
      obtain ⟨hb, rfl⟩ := Prod.mk.inj h
      exact .inr ⟨(Except.ok.inj hb).symm, fun hx => hsx (Option.mem_toList.1 hx), rfl⟩
  | sequence s =>
    obtain ⟨_, h⟩ := Mutation.check_bind_eq_ok.1 h
    rw [Mutation.perform_get_bind] at h
    split at h
    · next hi =>
      obtain ⟨hb, rfl⟩ := Prod.mk.inj h
      exact .inr ⟨(Except.ok.inj hb).symm, position?_eq_none.1 hi, rfl⟩
    · next i hi =>
      obtain ⟨_, h⟩ := Mutation.check_bind_eq_ok.1 h
      have hmem : x ∈ f.sequence p s := List.mem_of_getElem? (position?_eq_some hi)
      split at h <;> exact .inl ⟨(Except.ok.inj (Prod.mk.inj h).1).symm, hmem⟩

/-- Of several fields the first that holds the child is rewired, and no other. -/
theorem replaceAmong_rewired {f g : Forest} {p x y : NodeId} {φs : List Field} {b : Bool}
    (h : (Mutation.replaceAmong p x y φs).perform f = (.ok b, g)) (hp : p < f.size)
    (hy : y < f.size) :
    g.records = f.records ∧ ((∃ φ ∈ φs, x ∈ f.occupants p φ) → x = y) ∨
      x ≠ y ∧ ∃ φ ys, φs.find? (x ∈ f.occupants p ·) = some φ ∧ Rewired f g p φ ys [y] [x] := by
  induction φs with
  | nil => exact .inl ⟨by rw [(Prod.mk.inj h).2], by simp⟩
  | cons φ φs ih =>
    obtain ⟨found, g', h₁, h₂⟩ := Mutation.bind_eq_ok.1 h
    rcases replaceIn_answer h₁ with ⟨rfl, hφ⟩ | ⟨rfl, hφ, rfl⟩
    · obtain rfl := (Prod.mk.inj h₂).2
      rcases replaceIn_rewired h₁ hp hy with ⟨rfl, hxy⟩ | ⟨hne, ys, hr⟩
      · exact .inl ⟨rfl, fun _ => hxy hφ⟩
      · exact .inr ⟨hne, φ, ys, List.find?_cons_of_pos (decide_eq_true hφ), hr.note _⟩
    · rw [List.find?_cons_of_neg (by simpa using hφ)]
      refine (ih h₂).imp_left fun ⟨hg, hx⟩ => ⟨hg, ?_⟩
      rintro ⟨ψ, hψ, hmem⟩
      rcases List.mem_cons.1 hψ with rfl | hψ
      · exact absurd hmem hφ
      · exact hx ⟨ψ, hψ, hmem⟩

/-- The field of `p` in which a child to be replaced is found. -/
def fieldOf? (f : Forest) (p x : NodeId) : Option Field :=
  (f.kind p).searchOrder.find? (x ∈ f.occupants p ·)

/-- Replacing a child rewires the field that holds it, or leaves all records as they were. -/
theorem replaceChild_rewired {f g : Forest} {p x y : NodeId} {b : Bool}
    (h : (Mutation.replaceChild p x y).perform f = (.ok b, g)) (hp : p < f.size)
    (hy : y < f.size) :
    g.records = f.records ∧ (x ∈ f.children p → x = y) ∨
      x ≠ y ∧ ∃ φ ys, f.fieldOf? p x = some φ ∧ Rewired f g p φ ys [y] [x] := by
  rw [Mutation.replaceChild, Mutation.perform_get_bind] at h
  refine (replaceAmong_rewired h hp hy).imp_left fun ⟨hg, hxy⟩ => ⟨hg, fun hx => hxy ?_⟩
  obtain ⟨φ, hφ, hmem⟩ := mem_children.1 hx
  exact ⟨φ, Kind.mem_searchOrder.2 hφ, hmem⟩

end Forest

end SyntaxForest
