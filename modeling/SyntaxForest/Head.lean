import SyntaxForest.Kind

/-!
# Heads: a kind together with its scalar

Seven kinds carry one scalar value besides their children: the name of a reference, the
value of a literal, the operator of a binary expression. A `Head` is a kind with exactly
the scalar that the kind has, so a node can never carry a scalar of the wrong type or two
at once.

A scalar is handed in and out as a `Literal`: text, an integer or a truth value. Operators
and modifier types travel as the text of their name, and `Head.ofLiteral?` reads a literal
as the scalar of a given kind.
-/

namespace SyntaxForest

/-- How a statement modifier guards its statement. -/
inductive ModifierType
  | none
  | ifTrue
  | unlessTrue
  | whileTrue
deriving DecidableEq, Repr, Inhabited

namespace ModifierType

/-- The keyword, empty while none has been chosen. -/
def text : ModifierType → String
  | none => ""
  | ifTrue => "if"
  | unlessTrue => "unless"
  | whileTrue => "while"

/-- The name under which a modifier type is written as a literal. -/
def name : ModifierType → String
  | none => "None"
  | ifTrue => "If"
  | unlessTrue => "Unless"
  | whileTrue => "While"

/-- The modifier type written as `s`, if there is one. -/
def ofName? (s : String) : Option ModifierType :=
  [none, ifTrue, unlessTrue, whileTrue].find? fun m => m.name == s

theorem ofName?_name (m : ModifierType) : ofName? m.name = some m := by
  cases m <;> decide

end ModifierType

/-- The operator of a binary expression. -/
inductive Operator
  | none
  | addition
  | subtraction
  | multiply
  | division
  | equality
  | inequality
  | lessThan
  | greaterThan
  | and
  | or
deriving DecidableEq, Repr, Inhabited

namespace Operator

/-- The symbol, empty while none has been chosen. -/
def text : Operator → String
  | none => ""
  | addition => "+"
  | subtraction => "-"
  | multiply => "*"
  | division => "/"
  | equality => "=="
  | inequality => "!="
  | lessThan => "<"
  | greaterThan => ">"
  | and => "and"
  | or => "or"

/-- The name under which an operator is written as a literal. -/
def name : Operator → String
  | none => "None"
  | addition => "Addition"
  | subtraction => "Subtraction"
  | multiply => "Multiply"
  | division => "Division"
  | equality => "Equality"
  | inequality => "Inequality"
  | lessThan => "LessThan"
  | greaterThan => "GreaterThan"
  | and => "And"
  | or => "Or"

/-- The operator written as `s`, if there is one. -/
def ofName? (s : String) : Option Operator :=
  [none, addition, subtraction, multiply, division, equality, inequality, lessThan,
   greaterThan, and, or].find? fun o => o.name == s

theorem ofName?_name (o : Operator) : ofName? o.name = some o := by
  cases o <;> decide

end Operator

/-- A scalar as it is handed in and out. -/
inductive Literal
  | text (s : String)
  | integer (i : Int64)
  | flag (b : Bool)
deriving DecidableEq, Repr, Inhabited

/-- A kind together with the scalar that nodes of this kind carry. -/
inductive Head
  | block
  | expressionStatement
  | macroStatement (name : String)
  | returnStatement
  | statementModifier (type : ModifierType)
  | reference (name : String)
  | integerLiteral (value : Int64)
  | stringLiteral (value : String)
  | boolLiteral (value : Bool)
  | methodInvocation
  | binary (operator : Operator)
deriving DecidableEq, Repr, Inhabited

/-- The name of the scalar of a kind, for the kinds that have one. -/
def Kind.scalarName? : Kind → Option String
  | macroStatement | reference => some "name"
  | statementModifier => some "modifier_type"
  | integerLiteral | stringLiteral | boolLiteral => some "value"
  | binary => some "operator"
  | block | expressionStatement | returnStatement | methodInvocation => none

/-- Whether nodes of the kind carry a scalar. -/
def Kind.hasScalar (k : Kind) : Bool := k.scalarName?.isSome

namespace Head

/-- The kind of a head. -/
def kind : Head → Kind
  | block => .block
  | expressionStatement => .expressionStatement
  | macroStatement _ => .macroStatement
  | returnStatement => .returnStatement
  | statementModifier _ => .statementModifier
  | reference _ => .reference
  | integerLiteral _ => .integerLiteral
  | stringLiteral _ => .stringLiteral
  | boolLiteral _ => .boolLiteral
  | methodInvocation => .methodInvocation
  | binary _ => .binary

/-- The head of a new node of the given kind: empty text, zero, false, no operator. -/
def ofKind : Kind → Head
  | .block => block
  | .expressionStatement => expressionStatement
  | .macroStatement => macroStatement ""
  | .returnStatement => returnStatement
  | .statementModifier => statementModifier .none
  | .reference => reference ""
  | .integerLiteral => integerLiteral 0
  | .stringLiteral => stringLiteral ""
  | .boolLiteral => boolLiteral false
  | .methodInvocation => methodInvocation
  | .binary => binary .none

@[simp] theorem kind_ofKind (k : Kind) : (ofKind k).kind = k := by
  cases k <;> rfl

/-- The scalar as a literal, for the kinds that have one. -/
def literal? : Head → Option Literal
  | macroStatement name | reference name => some (.text name)
  | statementModifier type => some (.text type.name)
  | integerLiteral value => some (.integer value)
  | stringLiteral value => some (.text value)
  | boolLiteral value => some (.flag value)
  | binary operator => some (.text operator.name)
  | block | expressionStatement | returnStatement | methodInvocation => none

/-- A head carries a scalar just if its kind says so. -/
theorem isSome_literal? (h : Head) : h.literal?.isSome = h.kind.hasScalar := by
  cases h <;> rfl

/-- The head of kind `k` whose scalar is written as the given literal. There is none if the
kind has no scalar or the literal does not name a value of its type. -/
def ofLiteral? : Kind → Literal → Option Head
  | .macroStatement, .text s => some (macroStatement s)
  | .reference, .text s => some (reference s)
  | .stringLiteral, .text s => some (stringLiteral s)
  | .statementModifier, .text s => (ModifierType.ofName? s).map statementModifier
  | .binary, .text s => (Operator.ofName? s).map binary
  | .integerLiteral, .integer i => some (integerLiteral i)
  | .boolLiteral, .flag b => some (boolLiteral b)
  | _, _ => none

/-- Reading a head's own literal gives the head back. -/
theorem ofLiteral?_literal? {h : Head} {l : Literal} (hl : h.literal? = some l) :
    ofLiteral? h.kind l = some h := by
  cases h <;> simp only [literal?, Option.some.injEq, reduceCtorEq] at hl <;> subst hl <;>
    simp [kind, ofLiteral?, ModifierType.ofName?_name, Operator.ofName?_name]

/-- The scalar as it reads in a description: keywords and symbols for the enumerated ones. -/
def scalarText? : Head → Option String
  | macroStatement name | reference name => some name
  | statementModifier type => some type.text
  | integerLiteral value => some (toString value.toInt)
  | stringLiteral value => some value
  | boolLiteral value => some (if value then "true" else "false")
  | binary operator => some operator.text
  | block | expressionStatement | returnStatement | methodInvocation => none

/-- The kind's name, followed by a space and the scalar where there is one. -/
def text (h : Head) : String :=
  match h.scalarText? with
  | some s => h.kind.name ++ " " ++ s
  | none => h.kind.name

end Head

end SyntaxForest
