import SyntaxForest.Field

/-!
# Errors

An error is a broken contract of a tree operation: a node that does not fit, a view of the
wrong kind, a field or an index that is not there, a link that does not lead back to the
holder. Outcomes such as "the trees differ" or "there was nothing to replace" are answers
and not errors.
-/

namespace SyntaxForest

/-- Why an operation on a forest was refused. -/
inductive Error
  /-- A node of kind `found` was to be placed into a field of another category. -/
  | incompatibleNode (holder : Kind) (field : Field) (found : Kind)
  /-- A node was viewed as a kind that it does not have. -/
  | unexpectedKind (expected found : Kind)
  /-- A field was addressed on a kind that does not declare it. -/
  | unknownField (kind : Kind) (field : Field)
  /-- A position in a sequence was past its end. -/
  | indexOutOfBounds (holder : Kind) (field : SequenceField) (index length : Nat)
  /-- A child's link does not lead to the node that holds it. -/
  | parentMismatch (kind holder : Kind)
deriving DecidableEq, Repr

namespace Error

/-- The sort of error, in one word. -/
def name : Error → String
  | incompatibleNode .. => "IncompatibleNode"
  | unexpectedKind .. => "UnexpectedKind"
  | unknownField .. => "UnknownField"
  | indexOutOfBounds .. => "IndexOutOfBounds"
  | parentMismatch .. => "ParentMismatch"

/-- The error as a sentence. -/
def message : Error → String
  | incompatibleNode holder field found =>
    "cannot place `" ++ found.name ++ "` into `" ++ holder.fieldPath field ++
      "`: expected " ++ field.category.text
  | unexpectedKind expected found =>
    "expected a `" ++ expected.name ++ "` node, found `" ++ found.name ++ "`"
  | unknownField kind field =>
    "`" ++ kind.name ++ "` has no field `" ++ field.name ++ "`"
  | indexOutOfBounds holder field index length =>
    "index " ++ toString index ++ " is out of bounds for `" ++
      holder.fieldPath (.sequence field) ++ "` of length " ++ toString length
  | parentMismatch kind holder =>
    "`" ++ kind.name ++ "` held by `" ++ holder.name ++ "` records a different parent"

end Error

end SyntaxForest
