import SyntaxForest.Forest.Basic

/-!
# Integrity of links

A tree is in order when the link of every node in it leads to the node that holds it. The
check walks down in the order in which children are listed and stops at the first holder and
child for which this fails.
-/

namespace SyntaxForest.Forest

/-- The first child below `n`, with its holder, whose link does not lead to the holder;
looked for down to the given number of levels. -/
def brokenWithin (f : Forest) : Nat → NodeId → Option (NodeId × NodeId)
  | 0, _ => none
  | depth + 1, n =>
    (f.children n).findSome? fun c =>
      if f.link c = some n then brokenWithin f depth c else some (c, n)

/-- The first child below `n`, with its holder, whose link does not lead to the holder. -/
def brokenLink? (f : Forest) (n : NodeId) : Option (NodeId × NodeId) := f.brokenWithin f.size n

/-- Checks the links below `n`. A broken one is an error and goes into the journal. -/
def verifyLinks (f : Forest) (n : NodeId) : Except Error Unit × Forest :=
  match f.brokenLink? n with
  | none => (.ok (), f)
  | some (c, p) =>
    (.error (.parentMismatch (f.kind c) (f.kind p)),
      f.note (.brokenLink (f.kind c) (f.kind p) (f.record c).location))

end SyntaxForest.Forest
