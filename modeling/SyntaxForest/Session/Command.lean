import SyntaxForest.Annotations
import SyntaxForest.Forest.Sequence

/-!
# Commands

A session is driven by commands. A command names nodes by references: a handle, or a path of
child positions down from the node that a handle holds. `Action` lists what can be done in
one step; a `Command` is an action, or runs other commands: again and again, with a look into
the journal, or on the nodes of a tree that a `Rule` picks out.

A command may be ill-formed in itself, or name things that do not exist. Both are found out
when the command is run, and not before: a command inside another is run only if its turn
comes. What a scalar is set to and what an operation on a sequence works with is looked at
later still, when the target has been viewed as the kind asked for; there an ill-formed
operand is `none`.
-/

namespace SyntaxForest

/-- A name for a node. A handle alone may also stand for a draft where one is allowed; a path,
even an empty one, starts from a node. -/
inductive Ref
  | handle (name : String)
  | path (name : String) (positions : List Nat)
deriving DecidableEq, Repr, Inhabited

/-- An argument that may be left out, and may be ill-formed. -/
inductive Given (α : Type)
  | absent
  | malformed
  | given (a : α)
deriving DecidableEq, Repr, Inhabited

/-- Whether an argument given as a condition is met: one left out always is, an ill-formed one
never. -/
def Given.all {α : Type} (p : α → Bool) : Given α → Bool
  | absent => true
  | malformed => false
  | given a => p a

/-! ## Descriptions of trees -/

/-- What is set on a node once it is there. -/
inductive Attribute
  | malformed
  | endPosition (p : Position)
  | documentation (t : String)
  | entry (key : String) (v : AnnotationValue Ref)
  | handle (name : String)
deriving Inhabited

mutual

/-- The description of a tree to be built. -/
inductive Spec
  | malformed
  /-- A node that is there already. -/
  | existing (r : Ref)
  /-- A new node. Its fields are filled while it is a draft, the modifier is set and the
  attributes are given to it after it has been assembled. -/
  | fresh (kind : Kind) (scalar : Given Literal) (fillings : List Filling)
      (location : Given Location) (modifiers : List Spec) (attributes : List Attribute)

/-- What goes into one field of a draft. The field may be of the other sort, or none of the
draft's; either is found out when what goes into it has been built. -/
inductive Filling
  | malformed
  | one (field : Field) (x : Spec)
  | many (field : Field) (xs : List Spec)
  /-- The body of a macro statement, created by asking for it. -/
  | body

end

instance : Inhabited Spec := ⟨.malformed⟩

/-- The order in which the fields of a draft are filled. -/
def Spec.fieldOrder : List Field :=
  [.sequence .statements, .single .expression, .single .condition, .single .target,
   .sequence .arguments, .single .left, .single .right, .single .block]

/-! ## Actions -/

/-- A new node at the session's location, nodes being named by a `ν`. -/
inductive Construction (ν : Type)
  | reference (name : String)
  | integer (value : Int64)
  | string (value : String)
  | boolean (value : Bool)
  | binary (op : Operator) (left right : ν)
  | invocation (target : ν) (arguments : List ν)
  | expressionStatement (expression : ν)
  | block (statements : List ν)
  | macroStatement (name : String) (arguments : List ν)
  | modifier (type : ModifierType) (condition : ν)
  | returnStatement (expression : Option ν)
deriving Inhabited

/-- The construction with every node named anew, if all of them can be. -/
def Construction.resolve? {ν μ : Type} (f : ν → Option μ) :
    Construction ν → Option (Construction μ)
  | reference name => some (reference name)
  | integer value => some (integer value)
  | string value => some (string value)
  | boolean value => some (boolean value)
  | binary op left right => do return binary op (← f left) (← f right)
  | invocation target arguments => do return invocation (← f target) (← arguments.mapM f)
  | expressionStatement expression => (f expression).map expressionStatement
  | block statements => (statements.mapM f).map block
  | macroStatement name arguments => (arguments.mapM f).map (macroStatement name)
  | modifier type condition => (f condition).map (modifier type)
  | returnStatement none => some (returnStatement none)
  | returnStatement (some x) => (f x).map fun y => returnStatement (some y)

/-- A node or a draft, optionally viewed as one of a given kind. -/
structure Target where
  ref : Ref
  view : Option Kind := none
deriving Inhabited

/-- An element of a sequence. -/
inductive Element
  | first
  | last
  | nth (index : Nat)
deriving Inhabited

/-- An action that answers a node. -/
inductive NodeAction
  | build (spec : Spec)
  | assemble (draft : String) (location : Option Location)
  | held (node : Ref)
  | construct (c : Construction Ref)
  | occupant (target : Target) (field : SingleField)
  | element (target : Target) (field : SequenceField) (e : Option Element)
  | removeAt (target : Target) (field : SequenceField) (index : Option Nat)
  | parent (node : Ref)
  | modifier (node : Ref)
  | copy (node : Ref)
  | annotated (node : Ref) (key : String)
  | nodeAt (node : Ref) (position : Position)
  | scopeAt (node : Ref) (position : Position)
  | enclosingScope (node : Ref)
deriving Inhabited

/-- Ways of recording a tree through handlers by kind. -/
inductive Recorder
  /-- Every kind has a handler of its own. -/
  | full
  /-- No kind has. -/
  | fallback
  /-- References and macro statements have; references are not entered. -/
  | names
deriving DecidableEq, Repr, Inhabited

/-- What can be done in one step. -/
inductive Action
  | malformed
  /-- Answers a node and binds it to the name, if one is given. -/
  | answer (a : NodeAction) (name : Option String)
  -- handles
  | newDraft (kind : Kind) (scalar : Option Literal) (name : String)
  | drop (name : String)
  | setBuilder (location : Location)
  -- one node through its kind
  | cast (node : Ref) (kind : Kind)
  | expectKind (node : Ref) (kind : Kind)
  | getScalar (target : Target)
  | setScalar (target : Target) (v : Option Literal)
  | assign (target : Target) (field : SingleField) (child : Option Ref)
  | hasBody (target : Ref)
  -- sequences
  | edit (target : Target) (field : SequenceField) (e : Option (SequenceEdit Ref))
  | elements (target : Target) (field : SequenceField)
  | position (target : Target) (field : SequenceField) (child : Option Ref)
  | contains (target : Target) (field : SequenceField) (child : Option Ref)
  | sequenceInfo (target : Target) (field : SequenceField)
  -- any node
  | kindOf (node : Ref)
  | location (node : Ref)
  | setLocation (node : Ref) (l : Location)
  | endPosition (node : Ref)
  | setEndPosition (node : Ref) (p : Option Position)
  | documentation (node : Ref)
  | setDocumentation (node : Ref) (t : Option String)
  | isChildOf (node other : Ref)
  | same (node other : Ref)
  | ancestors (node : Ref)
  | children (node : Ref)
  | setModifier (node : Ref) (child : Option Ref)
  | replaceChild (node child replacement : Ref)
  | clearBindings (node : Ref)
  | verifyLinks (node : Ref)
  -- trees
  | count (node : Ref)
  | visit (node : Ref) (r : Recorder) (stop : List Kind)
  | visitChildren (node : Ref) (r : Recorder) (stop : List Kind)
  | render (node : Ref)
  | dump (node : Ref)
  | matchNodes (left right : Option Ref)
  | mismatch (left right : Ref)
  -- annotations and stores of annotations
  | annotate (node : Ref) (key : String) (v : AnnotationValue Ref)
  | annotationAt (node : Ref) (key : String)
  | dropAnnotationAt (node : Ref) (key : String)
  | hasAnnotationAt (node : Ref) (key : String)
  | annotationKeys (node : Ref)
  | hasAnnotations (node : Ref)
  | annotationViews (node : Ref) (key : String)
  | sameAnnotations (node : Ref) (key : String) (other : Ref) (otherKey : String)
  | takeStore (node : Option Ref) (name : String)
  | storeInsert (store key : String) (v : AnnotationValue Ref)
  | storeErase (store key : String)
  | storeGet (store key : String)
  | storeInfo (store : String)
  | sameStores (store other : String)
  -- queries and plain values
  | ancestry (node : Ref)
  | summary (node : Ref)
  | locationInfo (l : Location)
  | locationContains (l : Location) (p : Position)
  | comparePositions (p q : Position)
  | kinds
  | accepts (c : Category) (k : Kind)
deriving Inhabited

/-! ## Commands -/

/-- What a rule puts in the place of a node. -/
inductive Replacement
  | none
  | spec (s : Spec)
  | copyOf (r : Ref)
deriving Inhabited

mutual

/-- An action, or a command that runs others. -/
inductive Command
  | act (a : Action)
  /-- Runs the commands the given number of times. -/
  | again (times : Nat) (commands : List Command)
  /-- Runs a command and answers what it left in the journal, which is taken out. -/
  | logged (command : Command)
  /-- Offers the nodes below a node to the rules and replaces as they say. -/
  | replaceAll (node : Ref) (rules : List Rule)
  /-- Hands a node and all below it to the rules. -/
  | forEach (node : Ref) (rules : List Rule)

/-- What to do with a node that meets all the conditions given. A condition that is
ill-formed is met by no node. -/
inductive Rule
  | mk (kindName : Given String) (text : Given String) (is : Given Ref)
      (commands : List Command) (replacement : Replacement)

end

instance : Inhabited Command := ⟨.act .malformed⟩

instance : Inhabited Rule := ⟨.mk .absent .absent .absent [] .none⟩

end SyntaxForest
