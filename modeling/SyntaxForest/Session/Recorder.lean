import SyntaxForest.Forest.Walk
import SyntaxForest.Session.Command

/-!
# Recorders

The three ways in which a session records a tree through handlers by kind. A recorded line is
a word for the handler and the text of the node. A handler goes on below a node unless the
node's kind is among those to stop at.
-/

namespace SyntaxForest.Recorder

/-- The word and the text of a node. -/
def line (f : Forest) (word : String) (n : NodeId) : String :=
  word ++ " " ++ (f.record n).head.text

/-- The handlers of a recorder. -/
def table (f : Forest) (stop : List Kind) : Recorder → HandlerTable String
  | full =>
    { forKind := fun k => some ⟨line f k.handlerName, goesOn⟩
      otherwise := ⟨line f "unhandled", goesOn⟩ }
  | fallback =>
    { forKind := fun _ => none
      otherwise := ⟨line f "unhandled", goesOn⟩ }
  | names =>
    { forKind := fun
        | .reference => some ⟨line f "reference", fun _ => false⟩
        | .macroStatement => some ⟨line f "macro", goesOn⟩
        | _ => none
      otherwise := ⟨fun _ => "other", goesOn⟩ }
where
  /-- Whether to go on below a node. -/
  goesOn (n : NodeId) : Bool := !stop.contains (f.kind n)

end SyntaxForest.Recorder
