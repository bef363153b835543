import SyntaxForest.Forest.Single
import SyntaxForest.Forest.Sequence

/-!
# Drafts and assembly

A node comes into being in two steps. First there is a draft, whose fields can be filled like
those of a node, except that what is placed there gets no link. Assembling the draft makes it
a node without a holder: it adopts its fields, and everything that it holds by then is linked to
it.

`construct` goes through both steps at once: it fills a draft with a list of placements and
assembles it at a location. Placements take effect one after the other. If one is refused,
the draft is abandoned, but the nodes placed before have already lost their links.
-/

namespace SyntaxForest

/-- Something to be placed into a field of a draft. -/
inductive Placement
  | single (s : SingleField) (x : Option NodeId)
  | sequence (s : SequenceField) (xs : List NodeId)
deriving DecidableEq, Repr, Inhabited

/-- Performs one placement. -/
def Mutation.place (d : NodeId) : Placement → Mutation Unit
  | .single s x => assign d s x
  | .sequence s xs => extend d s xs

namespace Forest

/-- A new empty draft. -/
def draft (f : Forest) (h : Head) : NodeId × Forest :=
  (f.size, f.push { head := h })

/-- Makes a draft a node at the given location. The node adopts its fields, and what they hold
is linked to it. -/
def assemble (f : Forest) (d : NodeId) (l : Location) : Forest :=
  (f.update d fun r => { r with
    owners := r.owners.adopt d r.kind.fields
    link := none
    assembled := true
    location := l }).linkAll (f.children d) (some d)

/-- Performs placements one after the other, up to the first that is refused. -/
def fill (f : Forest) (d : NodeId) : List Placement → Except Error Unit × Forest
  | [] => (.ok (), f)
  | a :: as =>
    match (Mutation.place d a).perform f with
    | (.ok (), g) => g.fill d as
    | (.error e, g) => (.error e, g)

/-- A new node with the given head, location and children. -/
def construct (f : Forest) (l : Location) (h : Head) (as : List Placement) :
    Except Error NodeId × Forest :=
  let (d, g) := f.draft h
  match g.fill d as with
  | (.ok (), g) => (.ok d, g.assemble d l)
  | (.error e, g) => (.error e, g)

/-! ## One constructor per kind -/

/-- A reference to a name. -/
def newReference (f : Forest) (l : Location) (name : String) : Except Error NodeId × Forest :=
  f.construct l (.reference name) []

/-- An integer literal. -/
def newInteger (f : Forest) (l : Location) (value : Int64) : Except Error NodeId × Forest :=
  f.construct l (.integerLiteral value) []

/-- A string literal. -/
def newString (f : Forest) (l : Location) (value : String) : Except Error NodeId × Forest :=
  f.construct l (.stringLiteral value) []

/-- A truth value. -/
def newBool (f : Forest) (l : Location) (value : Bool) : Except Error NodeId × Forest :=
  f.construct l (.boolLiteral value) []

/-- A binary expression. -/
def newBinary (f : Forest) (l : Location) (op : Operator) (left right : NodeId) :
    Except Error NodeId × Forest :=
  f.construct l (.binary op) [.single .left (some left), .single .right (some right)]

/-- The invocation of a target with arguments. -/
def newInvocation (f : Forest) (l : Location) (target : NodeId) (arguments : List NodeId) :
    Except Error NodeId × Forest :=
  f.construct l .methodInvocation
    [.single .target (some target), .sequence .arguments arguments]

/-- A statement made of an expression. -/
def newExpressionStatement (f : Forest) (l : Location) (expression : NodeId) :
    Except Error NodeId × Forest :=
  f.construct l .expressionStatement [.single .expression (some expression)]

/-- A block of statements. -/
def newBlock (f : Forest) (l : Location) (statements : List NodeId) :
    Except Error NodeId × Forest :=
  f.construct l .block [.sequence .statements statements]

/-- A macro statement with arguments and no body yet. -/
def newMacroStatement (f : Forest) (l : Location) (name : String) (arguments : List NodeId) :
    Except Error NodeId × Forest :=
  f.construct l (.macroStatement name) [.sequence .arguments arguments]

/-- A statement modifier with its condition. -/
def newModifier (f : Forest) (l : Location) (type : ModifierType) (condition : NodeId) :
    Except Error NodeId × Forest :=
  f.construct l (.statementModifier type) [.single .condition (some condition)]

/-- A return statement, with or without an expression. -/
def newReturn (f : Forest) (l : Location) (expression : Option NodeId) :
    Except Error NodeId × Forest :=
  f.construct l .returnStatement [.single .expression expression]

end Forest

end SyntaxForest
