import SyntaxForest.Session.Answer
import SyntaxForest.Session.Basic

/-!
# Showing trees

A tree is shown as one line of text, or listed with one row per node. In both, every child
stands under the name of the field that holds it, and a link that does not lead back to the
holder is pointed out.
-/

namespace SyntaxForest

/-- The children of a node with the names of the places that hold them. -/
def Record.places (r : Record) : List (String × NodeId) :=
  r.kind.fields.flatMap fun
    | .single s => (r.contents.single s).toList.map fun x => (s.name, x)
    | .sequence s =>
      (r.contents.sequence s).zipIdx.map fun (x, i) =>
        (s.name ++ "[" ++ toString i ++ "]", x)

/-- Leaving out the names of the places gives the children. -/
theorem Record.map_snd_places (r : Record) : r.places.map (·.2) = r.children := by
  simp only [places, children, List.map_flatMap]
  congr 1
  funext field
  cases field <;> simp [Contents.occupants, Function.comp_def]

namespace Session

/-- How the link of a child looks from its holder: not worth a word, missing, or elsewhere. -/
def linkMark (f : Forest) (kept : Forest.Marks) (holder child : NodeId) : String :=
  if f.link child = some holder then ""
  else
    match f.parent? kept child with
    | none => "!none"
    | some _ => "!other"

/-- A tree as text, down to the given number of levels. -/
def renderWithin (f : Forest) (kept : Forest.Marks) : Nat → NodeId → String
  | 0, _ => ""
  | depth + 1, n =>
    let r := f.record n
    let parts := r.places.map fun (place, c) =>
      place ++ linkMark f kept n c ++ "=" ++ renderWithin f kept depth c
    if parts.isEmpty then r.head.text
    else r.head.text ++ "(" ++ ", ".intercalate parts ++ ")"

/-- A tree as text. -/
def render (s : Session) (n : NodeId) : String :=
  renderWithin s.forest s.kept s.forest.size n

/-- How the link of a node is listed: as leading to the holder of the row above, to another
node, or nowhere. -/
def parentText (s : Session) (kept : Forest.Marks) (holder : Option NodeId) (n : NodeId) :
    String :=
  if holder.isSome ∧ s.forest.link n = holder then "holder"
  else
    match s.forest.parent? kept n with
    | none => "none"
    | some p => s.label p

/-- The row of one node. -/
def row (s : Session) (kept : Forest.Marks) (depth : Nat) (field : String)
    (holder : Option NodeId) (n : NodeId) : Row :=
  let r := s.forest.record n
  { depth := depth
    field := field
    label := s.label n
    head := r.head
    parent := s.parentText kept holder n
    location := if r.location = {} then none else some r.location
    endPosition := r.endPosition
    documentation := r.documentation
    annotations := r.annotations.map fun a =>
      a.entries.map fun e =>
        (e.1, e.2.map fun m => if kept.contains m then some (s.label m) else none) }

/-- The rows of a tree, `levels` levels from the given depth on. -/
def rowsWithin (s : Session) (kept : Forest.Marks) :
    Nat → Nat → String → Option NodeId → NodeId → List Row
  | 0, _, _, _, _ => []
  | levels + 1, depth, field, holder, n =>
    s.row kept depth field holder n ::
      (s.forest.record n).places.flatMap fun (place, c) =>
        rowsWithin s kept levels (depth + 1) place (some n) c

/-- The rows of a tree, nodes before what they hold. -/
def rows (s : Session) (n : NodeId) : List Row :=
  s.rowsWithin s.kept s.forest.size 0 "" none n

end Session

end SyntaxForest
