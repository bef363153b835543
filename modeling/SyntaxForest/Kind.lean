/-!
# Kinds and categories

A syntax node has one of eleven kinds. Every kind belongs to a *category*: statements,
expressions, or neither. A field of a node declares the category it is willing to hold,
and `Category.accepts` is the single rule by which a node may sit in a field.

The categories `block` and `statementModifier` are narrower than the others: they admit
exactly the kind of the same name. No kind has one of them as its own category, so the
rule cannot be a comparison of categories alone.
-/

namespace SyntaxForest

/-- The kinds of syntax node, in the order in which they are listed to a reader. -/
inductive Kind
  | block
  | expressionStatement
  | macroStatement
  | returnStatement
  | statementModifier
  | reference
  | integerLiteral
  | stringLiteral
  | boolLiteral
  | methodInvocation
  | binary
deriving DecidableEq, Repr, Inhabited

/-- What a field is willing to hold. -/
inductive Category
  | node
  | statement
  | expression
  | block
  | statementModifier
deriving DecidableEq, Repr, Inhabited

namespace Kind

/-- Every kind, in declaration order. -/
def all : List Kind :=
  [block, expressionStatement, macroStatement, returnStatement, statementModifier,
   reference, integerLiteral, stringLiteral, boolLiteral, methodInvocation, binary]

theorem mem_all (k : Kind) : k ∈ all := by
  cases k <;> decide

/-- The name under which a kind is written. -/
def name : Kind → String
  | block => "Block"
  | expressionStatement => "ExpressionStatement"
  | macroStatement => "MacroStatement"
  | returnStatement => "ReturnStatement"
  | statementModifier => "StatementModifier"
  | reference => "ReferenceExpression"
  | integerLiteral => "IntegerLiteralExpression"
  | stringLiteral => "StringLiteralExpression"
  | boolLiteral => "BoolLiteralExpression"
  | methodInvocation => "MethodInvocationExpression"
  | binary => "BinaryExpression"

/-- The kind written as `s`, if there is one. -/
def ofName? (s : String) : Option Kind :=
  all.find? fun k => k.name == s

theorem ofName?_name (k : Kind) : ofName? k.name = some k := by
  cases k <;> decide

/-- The category every node of this kind belongs to. -/
def category : Kind → Category
  | block | expressionStatement | macroStatement | returnStatement => .statement
  | statementModifier => .node
  | reference | integerLiteral | stringLiteral | boolLiteral | methodInvocation | binary =>
    .expression

/-- The name of the handler that a traversal calls on nodes of this kind. -/
def handlerName : Kind → String
  | block => "on_block"
  | expressionStatement => "on_expression_statement"
  | macroStatement => "on_macro_statement"
  | returnStatement => "on_return_statement"
  | statementModifier => "on_statement_modifier"
  | reference => "on_reference_expression"
  | integerLiteral => "on_integer_literal_expression"
  | stringLiteral => "on_string_literal_expression"
  | boolLiteral => "on_bool_literal_expression"
  | methodInvocation => "on_method_invocation_expression"
  | binary => "on_binary_expression"

end Kind

namespace Category

/-- Whether a field of this category may hold a node of kind `k`. -/
def accepts : Category → Kind → Bool
  | node, _ => true
  | statement, k => k.category == .statement
  | expression, k => k.category == .expression
  | block, k => k == .block
  | statementModifier, k => k == .statementModifier

/-- How a category reads in a message. -/
def text : Category → String
  | node => "any node"
  | statement => "a statement"
  | expression => "an expression"
  | block => "a `Block`"
  | statementModifier => "a `StatementModifier`"

/-- The name under which a category is written. -/
def name : Category → String
  | node => "Node"
  | statement => "Statement"
  | expression => "Expression"
  | block => "Block"
  | statementModifier => "StatementModifier"

/-- The category written as `s`, if there is one. -/
def ofName? (s : String) : Option Category :=
  [node, statement, expression, block, statementModifier].find? fun c => c.name == s

theorem ofName?_name (c : Category) : ofName? c.name = some c := by
  cases c <;> decide

/-- A kind is accepted wherever its own category is asked for. -/
theorem accepts_category (k : Kind) : k.category.accepts k = true := by
  cases k <;> rfl

/-- Only modifiers fit where a modifier is asked for. -/
theorem accepts_statementModifier_iff (k : Kind) :
    statementModifier.accepts k = true ↔ k = .statementModifier := by
  cases k <;> decide

end Category

end SyntaxForest
