/-!
# Node identities

A node is named by a number: the place of its record in the forest. Numbers are handed out
once and never used again, so a number that outlives its node never comes to name another.
-/

namespace SyntaxForest

/-- Identity of a node. -/
abbrev NodeId := Nat

end SyntaxForest
