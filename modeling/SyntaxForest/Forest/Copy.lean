import SyntaxForest.Forest.Basic

/-!
# Deep copies

A copy of a node is a new node without a holder. Its children are copies of the children,
made field by field in the order in which children are listed; an unoccupied field stays
unoccupied, a body that was never asked for included. Location, end position, documentation
and annotations are taken over. Annotations that name nodes go on naming the same nodes.

The recursion descends along the held nodes, at most as many levels as there are records,
which is enough for every subtree without a cycle.
-/

namespace SyntaxForest

/-- The contents with the given nodes in one field; a single field takes the first. -/
def Contents.setOccupants (c : Contents) (field : Field) (xs : List NodeId) : Contents :=
  match field with
  | .single s => c.setSingle s xs.head?
  | .sequence s => c.setSequence s xs

/-- The record of the copy `n` of a node, with the given contents: a node without a holder that
has adopted its fields. -/
def Record.copiedAs (r : Record) (n : NodeId) (c : Contents) : Record :=
  { r with
    contents := c
    owners := Owners.adopt {} n r.kind.fields
    link := none
    assembled := true }

namespace Forest

/-- Copies the nodes of a list one after the other. -/
def copyList (copy : Forest → NodeId → NodeId × Forest) :
    List NodeId → Forest → List NodeId × Forest
  | [], f => ([], f)
  | x :: xs, f =>
    let (y, f) := copy f x
    let (ys, f) := copyList copy xs f
    (y :: ys, f)

/-- Copies the given fields of `source`, one after the other, into `target`. -/
def copyFields (copy : Forest → NodeId → NodeId × Forest) (source : Contents) :
    List Field → Contents → Forest → Contents × Forest
  | [], target, f => (target, f)
  | field :: fields, target, f =>
    let (ys, f) := copyList copy (source.occupants field) f
    copyFields copy source fields (target.setOccupants field ys) f

/-- Copies a node and what it holds, down to the given number of levels. -/
def copyWithin : Nat → Forest → NodeId → NodeId × Forest
  | 0, f, n => (n, f)
  | depth + 1, f, n =>
    let r := f.record n
    let (contents, f) := copyFields (copyWithin depth) r.contents r.kind.fields {} f
    let copied := r.copiedAs f.size contents
    (f.size, ((f.push copied).linkAll copied.children (some f.size)).note (.copied r.kind))

/-- A deep copy of a node. -/
def copy (f : Forest) (n : NodeId) : NodeId × Forest := copyWithin f.size f n

end Forest

end SyntaxForest
