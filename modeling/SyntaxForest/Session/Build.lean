import SyntaxForest.Forest.Bindings
import SyntaxForest.Session.Act

/-!
# Building trees from descriptions

A description is carried out from the inside out. For a new node a draft is made first; then
its fields are filled in order, what goes into a field being built before the field is looked
at; then
the draft is assembled, its modifier is built and set, and the attributes are given to it. The
first failure ends it all. Handles bound on the way stay bound.
-/

namespace SyntaxForest.Act

/-- The head of a new node of kind `k`. -/
def newHead (k : Kind) : Given Literal → Option Head
  | .absent => some (.ofKind k)
  | .malformed => none
  | .given v => Head.ofLiteral? k v

/-- An optional argument, refused if ill-formed. -/
def optional {α : Type} : Given α → Act (Option α)
  | .absent => return none
  | .malformed => refuse
  | .given a => return some a

/-- The field has to be one of the node's own: fields shared by a category are set on
assembled nodes only. -/
def requireOwn (n : NodeId) (field : Field) : Act Unit := do
  unless ((← forest).kind n).declaresOwn field do refuse

/-- Gives an attribute to a node. -/
def setAttribute (n : NodeId) : Attribute → Act Unit
  | .malformed => refuse
  | .endPosition p => do
    setForest ((← forest).update n fun r => { r with endPosition := some p })
  | .documentation t => do
    setForest ((← forest).update n fun r => { r with documentation := some t })
  | .entry key v => do
    let v ← value v
    setForest ((← forest).annotate n key v)
  | .handle name => modify (·.bind name (.node n))

mutual

/-- Builds a tree. -/
def build : Spec → Act NodeId
  | .malformed => refuse
  | .existing r => node r
  | .fresh kind scalar fillings location modifiers attributes => do
    let head ← require (newHead kind scalar)
    let (d, f) := (← forest).draft head
    setForest f
    fillAll d fillings
    let l ← optional location
    setForest ((← forest).assemble d (l.getD {}))
    for m in ← buildAll modifiers do
      mutate (.assign d .modifier (some m))
    for a in attributes do
      setAttribute d a
    return d

/-- Builds trees one after the other. -/
def buildAll : List Spec → Act (List NodeId)
  | [] => return []
  | x :: xs => do
    let n ← build x
    let ns ← buildAll xs
    return n :: ns

/-- Fills the fields of a draft one after the other. -/
def fillAll (d : NodeId) : List Filling → Act Unit
  | [] => return
  | x :: xs => do
    fill d x
    fillAll d xs

/-- Fills a field of a draft. -/
def fill (d : NodeId) : Filling → Act Unit
  | .malformed => refuse
  | .one field x => do
    let n ← build x
    let s ← require field.single?
    requireOwn d field
    mutate (.assign d s (some n))
  | .many field xs => do
    let ns ← buildAll xs
    let s ← require field.sequence?
    requireOwn d field
    mutate (.extend d s ns)
  | .body => do
    requireOwn d (.single .block)
    setForest ((← forest).body d).2

end

end SyntaxForest.Act
