import SyntaxForest.Forest.Compare

/-!
# Exchanging the sides of a comparison

The comparison treats its two sides alike, although it reads some things from one side only: the
name and the kind of a step, and whether a field is lazy, are taken from the left, and two
sequences are gone through together until the left one ends. Where these are read the two nodes are
known to be of one kind, or the two sequences to be equally long. So the comparison takes the same
way down when the sides are exchanged, stops at the same place, and gives the same path. Only the
reason is read off both sides, and its two halves are exchanged.

This is said of a function that compares any two nodes (`Evenhanded`). One level of the comparison
is evenhanded if what it asks about the children is, and so all levels are.

Main statement: `Forest.mismatch?_exchange`.
-/

namespace SyntaxForest

/-- Exchanging the sides twice is not exchanging them. -/
@[simp] theorem Reason.swap_swap (r : Reason) : r.swap.swap = r := by
  cases r <;> rfl

/-- The same mismatch with the two sides exchanged: on the same path, for the same reason. -/
def Mismatch.swap (m : Mismatch) : Mismatch := ⟨m.path, m.reason.swap⟩

namespace Forest

/-- When the sides are exchanged, the answer is the same with its sides exchanged. -/
def Evenhanded (differ : NodeId → NodeId → Option Mismatch) : Prop :=
  ∀ x y, differ y x = (differ x y).map Mismatch.swap

variable {pristine : NodeId → Bool} {differ : NodeId → NodeId → Option Mismatch} {k : Kind}

namespace Evenhanded

/-- The first difference between two sequences is at the same index from either side. -/
theorem elements {s : SequenceField} (h : Evenhanded differ) {xs ys : List NodeId} : ∀ i : Nat,
    differElements differ k s i ys xs = (differElements differ k s i xs ys).map Mismatch.swap := by
  induction xs generalizing ys with
  | nil => intro i; cases ys <;> rfl
  | cons x xs ih =>
    intro i
    cases ys with
    | nil => rfl
    | cons y ys =>
      rw [differElements, differElements, h x y]
      cases differ x y with
      | some m => rfl
      | none => exact ih (i + 1)

/-- One field, whatever is occupied: only where one side is vacant is the other asked about. -/
theorem field (h : Evenhanded differ) (a b : Contents) (φ : Field) :
    differField pristine differ k b a φ =
      (differField pristine differ k a b φ).map Mismatch.swap := by
  cases φ with
  | single s =>
    cases ha : a.single s with
    | none =>
      cases hb : b.single s with
      | none => simp only [differField, ha, hb, Option.map_none]
      | some y =>
        simp only [differField, ha, hb]
        split <;> rfl
    | some x =>
      cases hb : b.single s with
      | none =>
        simp only [differField, ha, hb]
        split <;> rfl
      | some y =>
        simp only [differField, ha, hb, h x y, Option.map_map]
        rfl
  | sequence s =>
    by_cases hlength : (a.sequence s).length = (b.sequence s).length
    · simp only [differField, if_pos hlength, if_pos hlength.symm]
      exact h.elements 0
    · simp only [differField, if_neg hlength, if_neg (Ne.symm hlength)]
      rfl

/-- The fields come one after the other from either side, so that the same one is the first to
differ. -/
theorem fields (h : Evenhanded differ) (a b : Contents) (φs : List Field) :
    differFields pristine differ k b a φs =
      (differFields pristine differ k a b φs).map Mismatch.swap := by
  induction φs with
  | nil => rfl
  | cons φ φs ih =>
    rw [differFields_cons, differFields_cons, h.field a b, ih]
    cases differField pristine differ k a b φ <;> rfl

/-- One level of the comparison takes no side. -/
theorem here (h : Evenhanded differ) (a b : Record) :
    differHere pristine differ b a = (differHere pristine differ a b).map Mismatch.swap := by
  by_cases hkind : a.kind = b.kind
  · -- the two nodes have the same fields, in the same order
    rw [differHere_of_kind_eq hkind, differHere_of_kind_eq hkind.symm, ← hkind,
      h.fields a.contents b.contents]
    cases differFields pristine differ a.kind a.contents b.contents a.kind.sharedFields with
    | some m => rfl
    | none =>
      by_cases hhead : a.head = b.head
      · simp only [Option.map_none, Option.none_or, if_neg (not_not_intro hhead),
          if_neg (not_not_intro hhead.symm), h.fields a.contents b.contents]
      · simp only [Option.map_none, Option.none_or, if_pos hhead, if_pos (Ne.symm hhead)]
        rfl
  · rw [differHere, differHere, if_pos hkind, if_pos (Ne.symm hkind)]
    rfl

end Evenhanded

/-- At every depth the comparison takes no side. -/
theorem evenhanded_mismatchWithin (f : Forest) : ∀ depth : Nat,
    Evenhanded (f.mismatchWithin depth) := by
  intro depth
  induction depth with
  | zero => intro x y; rfl
  | succ depth ih =>
    intro x y
    rw [mismatchWithin, mismatchWithin]
    by_cases hsame : x = y
    · rw [if_pos hsame, if_pos hsame.symm]
      rfl
    · rw [if_neg hsame, if_neg (Ne.symm hsame)]
      exact ih.here (f.record x) (f.record y)

/-- **A comparison takes no side.** In every forest and for any two nodes: there is a difference
just if there is one with the sides exchanged. It is found on the same path, step by step, and for
the same reason, in which the two kinds or the two lengths, if it names any, are exchanged. -/
theorem mismatch?_exchange (f : Forest) (a b : NodeId) :
    (f.mismatch? a b = none ↔ f.mismatch? b a = none) ∧
      ∀ path reason, f.mismatch? a b = some ⟨path, reason⟩ ↔
        f.mismatch? b a = some ⟨path, reason.swap⟩ := by
  have hswap : f.mismatch? b a = (f.mismatch? a b).map Mismatch.swap :=
    evenhanded_mismatchWithin f f.size a b
  refine ⟨?_, fun path reason => ?_⟩
  · rw [hswap, Option.map_eq_none_iff]
  · rw [hswap, Option.map_eq_some_iff]
    constructor
    · intro h
      exact ⟨_, h, rfl⟩
    · rintro ⟨m, hm, heq⟩
      have hpath : m.path = path := congrArg Mismatch.path heq
      have hreason : m.reason.swap = reason.swap := congrArg Mismatch.reason heq
      rw [← hpath, ← reason.swap_swap, ← hreason, Reason.swap_swap]
      exact hm

end Forest

end SyntaxForest
