import SyntaxForest.Forest.Single
import SyntaxForest.Forest.Sequence

/-!
# Replacing a direct child

The field that holds the child is looked for among the kind's own fields first and the shared
ones last, and only the first occurrence in it is replaced. A child that is not there is no
error: the answer is that nothing was replaced.
-/

namespace SyntaxForest.Mutation

/-- Replaces the first occurrence of `x` in one field by `y`; says whether there was one. -/
def replaceIn (p x y : NodeId) : Field → Mutation Bool
  | .single s => do
    if (← get).single p s = some x then
      assign p s (some y)
      return true
    else
      return false
  | .sequence s => substitute p s x y

/-- Replaces `x` by `y` in the first of the given fields that holds `x`. -/
def replaceAmong (p x y : NodeId) : List Field → Mutation Bool
  | [] => return false
  | field :: fields => do
    if ← replaceIn p x y field then
      modify fun f => f.note (.replacedChild (f.kind p) field (f.kind y))
      return true
    else
      replaceAmong p x y fields

/-- Replaces the direct child `x` of `p` by `y`; says whether there was such a child. -/
def replaceChild (p x y : NodeId) : Mutation Bool := do
  replaceAmong p x y ((← get).kind p).searchOrder

end SyntaxForest.Mutation
