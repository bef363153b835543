import SyntaxForest.Field
import SyntaxForest.NodeId

/-!
# Contents: what the fields of a node hold

`Contents` has a place for every field that any kind declares. Which of them a node really
has is said by its kind; the others stay empty. The two pairs `single`/`setSingle` and
`sequence`/`setSequence` are the only way in, and the four laws after them are all that
later arguments use.
-/

namespace SyntaxForest

/-- The occupants of all fields. -/
structure Contents where
  modifier : Option NodeId := none
  expression : Option NodeId := none
  block : Option NodeId := none
  condition : Option NodeId := none
  target : Option NodeId := none
  left : Option NodeId := none
  right : Option NodeId := none
  statements : List NodeId := []
  arguments : List NodeId := []
deriving DecidableEq, Repr, Inhabited

namespace Contents

/-- The occupant of a single field. -/
def single (c : Contents) : SingleField → Option NodeId
  | .modifier => c.modifier
  | .expression => c.expression
  | .block => c.block
  | .condition => c.condition
  | .target => c.target
  | .left => c.left
  | .right => c.right

/-- The elements of a sequence field. -/
def sequence (c : Contents) : SequenceField → List NodeId
  | .statements => c.statements
  | .arguments => c.arguments

/-- The contents with another occupant in a single field. -/
def setSingle (c : Contents) (f : SingleField) (x : Option NodeId) : Contents :=
  match f with
  | .modifier => { c with modifier := x }
  | .expression => { c with expression := x }
  | .block => { c with block := x }
  | .condition => { c with condition := x }
  | .target => { c with target := x }
  | .left => { c with left := x }
  | .right => { c with right := x }

/-- The contents with other elements in a sequence field. -/
def setSequence (c : Contents) (f : SequenceField) (xs : List NodeId) : Contents :=
  match f with
  | .statements => { c with statements := xs }
  | .arguments => { c with arguments := xs }

/-- The nodes in a field, in order. -/
def occupants (c : Contents) : Field → List NodeId
  | .single f => (c.single f).toList
  | .sequence f => c.sequence f

/-! ## Laws -/

@[simp] theorem single_empty (f : SingleField) : ({} : Contents).single f = none := by
  cases f <;> rfl

@[simp] theorem sequence_empty (f : SequenceField) : ({} : Contents).sequence f = [] := by
  cases f <;> rfl

@[simp] theorem occupants_empty (f : Field) : ({} : Contents).occupants f = [] := by
  cases f <;> simp [occupants]

@[simp] theorem single_setSingle_self (c : Contents) (f : SingleField) (x : Option NodeId) :
    (c.setSingle f x).single f = x := by
  cases f <;> rfl

theorem single_setSingle_of_ne (c : Contents) {f g : SingleField} (h : f ≠ g)
    (x : Option NodeId) : (c.setSingle f x).single g = c.single g := by
  cases f <;> cases g <;> simp_all [setSingle, single]

@[simp] theorem sequence_setSingle (c : Contents) (f : SingleField) (x : Option NodeId)
    (g : SequenceField) : (c.setSingle f x).sequence g = c.sequence g := by
  cases f <;> cases g <;> rfl

@[simp] theorem sequence_setSequence_self (c : Contents) (f : SequenceField)
    (xs : List NodeId) : (c.setSequence f xs).sequence f = xs := by
  cases f <;> rfl

theorem sequence_setSequence_of_ne (c : Contents) {f g : SequenceField} (h : f ≠ g)
    (xs : List NodeId) : (c.setSequence f xs).sequence g = c.sequence g := by
  cases f <;> cases g <;> simp_all [setSequence, sequence]

@[simp] theorem single_setSequence (c : Contents) (f : SequenceField) (xs : List NodeId)
    (g : SingleField) : (c.setSequence f xs).single g = c.single g := by
  cases f <;> cases g <;> rfl

/-- Writing a single field changes the occupants of that field only. -/
theorem occupants_setSingle (c : Contents) (f : SingleField) (x : Option NodeId) (g : Field) :
    (c.setSingle f x).occupants g = if g = .single f then x.toList else c.occupants g := by
  cases g with
  | single g =>
    by_cases h : g = f
    · subst h; simp [occupants]
    · simp [occupants, h, single_setSingle_of_ne c (Ne.symm h)]
  | sequence g => simp [occupants]

/-- Writing a sequence field changes the occupants of that field only. -/
theorem occupants_setSequence (c : Contents) (f : SequenceField) (xs : List NodeId)
    (g : Field) :
    (c.setSequence f xs).occupants g = if g = .sequence f then xs else c.occupants g := by
  cases g with
  | single g => simp [occupants]
  | sequence g =>
    by_cases h : g = f
    · subst h; simp [occupants]
    · simp [occupants, h, sequence_setSequence_of_ne c (Ne.symm h)]

end Contents

end SyntaxForest
