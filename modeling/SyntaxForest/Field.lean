import SyntaxForest.Kind

/-!
# Fields

A kind declares the fields through which its nodes hold other nodes. A field holds either
at most one node (`SingleField`) or a sequence of nodes (`SequenceField`). Fields of one
name have the same category in every kind that declares them, so the category is read off
the name.

Statements of every kind share the field `modifier`. Shared fields come first wherever the
children of a node are listed (`Kind.fields`), and last where a child to be replaced is
looked for (`Kind.searchOrder`).

The field `block` is *lazy*: asking for it creates an empty block.
-/

namespace SyntaxForest

/-- A field that holds at most one node. -/
inductive SingleField
  | modifier
  | expression
  | block
  | condition
  | target
  | left
  | right
deriving DecidableEq, Repr, Inhabited

/-- A field that holds a sequence of nodes. -/
inductive SequenceField
  | statements
  | arguments
deriving DecidableEq, Repr, Inhabited

/-- A field of either sort. -/
inductive Field
  | single (s : SingleField)
  | sequence (s : SequenceField)
deriving DecidableEq, Repr, Inhabited

namespace SingleField

/-- The name of the field. -/
def name : SingleField → String
  | modifier => "modifier"
  | expression => "expression"
  | block => "block"
  | condition => "condition"
  | target => "target"
  | left => "left"
  | right => "right"

/-- What the field is willing to hold. -/
def category : SingleField → Category
  | modifier => .statementModifier
  | block => .block
  | expression | condition | target | left | right => .expression

/-- Whether asking for the field creates its occupant. -/
def isLazy : SingleField → Bool
  | block => true
  | modifier | expression | condition | target | left | right => false

/-- The single field written as `s`, if there is one. -/
def ofName? (s : String) : Option SingleField :=
  [modifier, expression, block, condition, target, left, right].find? fun f => f.name == s

theorem ofName?_name (f : SingleField) : ofName? f.name = some f := by
  cases f <;> decide

end SingleField

namespace SequenceField

/-- The name of the field. -/
def name : SequenceField → String
  | statements => "statements"
  | arguments => "arguments"

/-- What the elements of the field have to be. -/
def category : SequenceField → Category
  | statements => .statement
  | arguments => .expression

/-- The sequence field written as `s`, if there is one. -/
def ofName? (s : String) : Option SequenceField :=
  [statements, arguments].find? fun f => f.name == s

theorem ofName?_name (f : SequenceField) : ofName? f.name = some f := by
  cases f <;> decide

end SequenceField

namespace Field

/-- The name of the field. -/
def name : Field → String
  | single s => s.name
  | sequence s => s.name

/-- What the field is willing to hold. -/
def category : Field → Category
  | single s => s.category
  | sequence s => s.category

/-- The field as one that holds at most one node. -/
def single? : Field → Option SingleField
  | single s => some s
  | sequence _ => none

/-- The field as one that holds a sequence. -/
def sequence? : Field → Option SequenceField
  | single _ => none
  | sequence s => some s

end Field

namespace Kind

/-- The fields that a kind has in common with its whole category. -/
def sharedFields : Kind → List Field
  | block | expressionStatement | macroStatement | returnStatement => [.single .modifier]
  | statementModifier | reference | integerLiteral | stringLiteral | boolLiteral
  | methodInvocation | binary => []

/-- The fields of the kind itself, in declaration order. -/
def ownFields : Kind → List Field
  | block => [.sequence .statements]
  | expressionStatement | returnStatement => [.single .expression]
  | macroStatement => [.sequence .arguments, .single .block]
  | statementModifier => [.single .condition]
  | methodInvocation => [.single .target, .sequence .arguments]
  | binary => [.single .left, .single .right]
  | reference | integerLiteral | stringLiteral | boolLiteral => []

/-- All fields in the order in which children are listed. -/
def fields (k : Kind) : List Field := k.sharedFields ++ k.ownFields

/-- All fields in the order in which a child to be replaced is looked for. -/
def searchOrder (k : Kind) : List Field := k.ownFields ++ k.sharedFields

/-- Whether nodes of this kind have the field. -/
def declares (k : Kind) (f : Field) : Bool := k.fields.contains f

/-- Whether the field is one of the kind's own. -/
def declaresOwn (k : Kind) (f : Field) : Bool := k.ownFields.contains f

theorem mem_searchOrder {k : Kind} {f : Field} : f ∈ k.searchOrder ↔ f ∈ k.fields := by
  simp [searchOrder, fields, or_comm]

theorem nodup_fields (k : Kind) : k.fields.Nodup := by
  cases k <;> decide

/-- A field is addressed in messages as the kind and the field's name. -/
def fieldPath (k : Kind) (f : Field) : String := k.name ++ "." ++ f.name

end Kind

end SyntaxForest
