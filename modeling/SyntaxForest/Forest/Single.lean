import SyntaxForest.Forest.Mutation

/-!
# Single fields

Assigning to a single field checks the category, moves the links of the old and the new
occupant, and does nothing at all if the field already holds the node. The old occupant
loses its link only if that link leads to the holder: it may have found another holder in
the meantime.

The body of a macro statement is the one lazy field: asking for it creates an empty block.
-/

namespace SyntaxForest

namespace Forest

/-- Exchanges the occupant of a single field, links included. -/
def exchange (f : Forest) (p : NodeId) (s : SingleField) (x : Option NodeId) : Forest :=
  ((f.writeSingle p s x).unlinkAll (f.single p s).toList (f.owner p (.single s))).linkAll x.toList
    (f.owner p (.single s))

/-- The modifier of a statement; other nodes have none. -/
def modifier (f : Forest) (n : NodeId) : Option NodeId :=
  if (f.kind n).declares (.single .modifier) then f.single n .modifier else none

/-- The body of a macro statement, together with the forest in which it exists: an empty
block is created where there was none. -/
def body (f : Forest) (p : NodeId) : NodeId × Forest :=
  match f.single p .block with
  | some b => (b, f)
  | none =>
    let b := f.size
    let fresh := (Record.empty .block b).withLink (f.owner p (.single .block))
    (b, ((f.push fresh).writeSingle p .block (some b)).note (.materialized (f.kind p) .block))

end Forest

/-- Places a node into a single field, or vacates the field. Assigning the node that is
already there changes nothing. -/
def Mutation.assign (p : NodeId) (s : SingleField) (x : Option NodeId) : Mutation Unit := do
  check (·.requireField p (.single s))
  match x with
  | none => modify (·.exchange p s none)
  | some n =>
    check (·.requireFit p (.single s) n)
    if (← get).single p s = some n then return
    modify (·.exchange p s (some n))

end SyntaxForest
