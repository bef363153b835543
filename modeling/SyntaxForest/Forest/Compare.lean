import SyntaxForest.Forest.Basic

/-!
# Structural comparison

Two nodes match when they have the same kind, the same scalar and matching children in the
same fields and order. Where the nodes are in the store, what they are linked to, where they
were read and what is noted on them does not count.

The comparison stops at the first difference, in the order: kinds, shared fields, scalar, own
fields; lengths of two sequences before their elements. It answers with that difference.

A lazy field that nobody asked for must not differ from one that was asked for and left
alone. So a lazy field occupied on one side only is no difference while its occupant is
*pristine*: as it was created, or as if it had been.

`differHere` is one level of the comparison, given the comparison of what lies below.
-/

namespace SyntaxForest.Forest

/-! ## Pristine nodes -/

/-- Whether a field holds nothing, or only something lazy and pristine. -/
def vacant (pristine : NodeId → Bool) (c : Contents) : Field → Bool
  | .single s =>
    match c.single s with
    | none => true
    | some x => s.isLazy && pristine x
  | .sequence s => (c.sequence s).isEmpty

/-- Whether a node is as it was created, looking down the given number of levels. -/
def pristineWithin (f : Forest) : Nat → NodeId → Bool
  | 0, _ => false
  | depth + 1, n =>
    let r := f.record n
    r.head == .ofKind r.kind && r.kind.fields.all (vacant (pristineWithin f depth) r.contents)

/-- Whether a node has the scalar of a new node and nothing in its fields, pristine lazy
occupants apart. -/
def pristine (f : Forest) (n : NodeId) : Bool := f.pristineWithin f.size n

/-! ## The first difference -/

/-- The first difference of two lists of elements, the first of which have index `i`. -/
def differElements (differ : NodeId → NodeId → Option Mismatch) (k : Kind) (s : SequenceField) :
    Nat → List NodeId → List NodeId → Option Mismatch
  | i, x :: xs, y :: ys =>
    match differ x y with
    | some m => some (m.below ⟨k, .field (.sequence s), some i⟩)
    | none => differElements differ k s (i + 1) xs ys
  | _, _, _ => none

/-- The first difference in one field of two nodes of kind `k`. -/
def differField (pristine : NodeId → Bool) (differ : NodeId → NodeId → Option Mismatch)
    (k : Kind) (a b : Contents) : Field → Option Mismatch
  | .single s =>
    let step : Step := { kind := k, part := .field (.single s) }
    match a.single s, b.single s with
    | none, none => none
    | some x, some y => (differ x y).map (·.below step)
    | some x, none | none, some x =>
      if s.isLazy && pristine x then none else some ⟨[step], .presence⟩
  | .sequence s =>
    let xs := a.sequence s
    let ys := b.sequence s
    if xs.length = ys.length then differElements differ k s 0 xs ys
    else some ⟨[{ kind := k, part := .field (.sequence s) }], .lengths xs.length ys.length⟩

/-- The first difference in the given fields. -/
def differFields (pristine : NodeId → Bool) (differ : NodeId → NodeId → Option Mismatch)
    (k : Kind) (a b : Contents) (fields : List Field) : Option Mismatch :=
  fields.findSome? (differField pristine differ k a b)

/-- The first difference of two nodes, given the first difference of any two below them. -/
def differHere (pristine : NodeId → Bool) (differ : NodeId → NodeId → Option Mismatch)
    (a b : Record) : Option Mismatch :=
  if a.kind ≠ b.kind then some (.here (.kinds a.kind b.kind))
  else
    match differFields pristine differ a.kind a.contents b.contents a.kind.sharedFields with
    | some m => some m
    | none =>
      if a.head ≠ b.head then some ⟨[{ kind := a.kind, part := .scalar }], .values⟩
      else differFields pristine differ a.kind a.contents b.contents a.kind.ownFields

section

variable {pristine : NodeId → Bool} {differ : NodeId → NodeId → Option Mismatch}

/-- The first difference in some fields is one in the first of them or else in the others. -/
theorem differFields_cons {k : Kind} {a b : Contents} {φ : Field} {φs : List Field} :
    differFields pristine differ k a b (φ :: φs) =
      (differField pristine differ k a b φ).or (differFields pristine differ k a b φs) := by
  rw [differFields, List.findSome?_cons]
  cases differField pristine differ k a b φ <;> rfl

/-- The first difference of two nodes of one kind is one in the shared fields, in the scalar or in
their own fields. -/
theorem differHere_of_kind_eq {a b : Record} (h : a.kind = b.kind) :
    differHere pristine differ a b =
      (differFields pristine differ a.kind a.contents b.contents a.kind.sharedFields).or
        (if a.head ≠ b.head then some ⟨[{ kind := a.kind, part := .scalar }], .values⟩
        else differFields pristine differ a.kind a.contents b.contents a.kind.ownFields) := by
  rw [differHere, if_neg (not_not_intro h)]
  cases differFields pristine differ a.kind a.contents b.contents a.kind.sharedFields <;> rfl

end

/-- The first difference of two nodes, looking down the given number of levels. A node is not
compared with itself. -/
def mismatchWithin (f : Forest) : Nat → NodeId → NodeId → Option Mismatch
  | 0, _, _ => none
  | depth + 1, x, y =>
    if x = y then none
    else differHere f.pristine (mismatchWithin f depth) (f.record x) (f.record y)

theorem mismatchWithin_self (f : Forest) (depth : Nat) (n : NodeId) :
    f.mismatchWithin depth n n = none := by
  cases depth with
  | zero => rfl
  | succ depth => rw [mismatchWithin, if_pos rfl]

/-- The first difference of two nodes. -/
def mismatch? (f : Forest) (x y : NodeId) : Option Mismatch := f.mismatchWithin f.size x y

/-! ## Matching -/

/-- Whether two nodes match. A difference goes into the journal. -/
def matchNodes (f : Forest) (x y : NodeId) : Bool × Forest :=
  match f.mismatch? x y with
  | none => (true, f)
  | some m => (false, f.note (.mismatched m))

/-- Whether two nodes match, either of which may be absent. -/
def matchOptional (f : Forest) : Option NodeId → Option NodeId → Bool × Forest
  | none, none => (true, f)
  | some x, some y => f.matchNodes x y
  | _, _ => (false, f)

end SyntaxForest.Forest
