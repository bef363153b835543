import SyntaxForest.Mismatch
import SyntaxForest.Source

/-!
# Events

Some operations leave an event in the journal of the forest. `Event.line` is the line that
a reader of the journal sees: a level, a message, and the named values that belong to it.
-/

namespace SyntaxForest

/-- Something worth a line in the journal. -/
inductive Event
  /-- A node was copied; its children have been copied before. -/
  | copied (kind : Kind)
  /-- The annotations of a node were dropped; those of its children have been before. -/
  | clearedBindings (kind : Kind)
  /-- A direct child was replaced. -/
  | replacedChild (kind : Kind) (field : Field) (replacement : Kind)
  /-- A substituting walk came to its end. -/
  | substitutionFinished (root : Kind) (count : Nat)
  /-- The occupant of a lazy field was created. -/
  | materialized (kind : Kind) (field : SingleField)
  /-- A comparison found a difference. -/
  | mismatched (mismatch : Mismatch)
  /-- A child's link does not lead to its holder. -/
  | brokenLink (kind holder : Kind) (location : Location)
  /-- The node at a position was looked for. -/
  | located (position : Position) (found : Option Kind)
deriving DecidableEq, Repr

/-- The event as a line of text. -/
def Event.line : Event → String
  | copied kind => "TRACE cloned node kind=" ++ kind.name
  | clearedBindings kind => "TRACE cleared bindings kind=" ++ kind.name
  | replacedChild kind field replacement =>
    "TRACE replaced child kind=" ++ kind.name ++ " field=" ++ field.name ++
      " replacement=" ++ replacement.name
  | substitutionFinished root count =>
    "TRACE rewrite finished root=" ++ root.name ++ " count=" ++ toString count
  | materialized kind field =>
    "TRACE materialized lazy child slot=" ++ kind.fieldPath (.single field)
  | mismatched mismatch => "DEBUG nodes do not match path=" ++ mismatch.text
  | brokenLink kind holder location =>
    "WARN broken parent link kind=" ++ kind.name ++ " holder=" ++ holder.name ++
      " location=" ++ location.text
  | located position found =>
    "TRACE node_at position=" ++ position.text ++ " found=" ++
      match found with
      | some kind => "Some(" ++ kind.name ++ ")"
      | none => "None"

end SyntaxForest
