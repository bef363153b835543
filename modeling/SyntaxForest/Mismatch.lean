import SyntaxForest.Head
import SyntaxForest.Field

/-!
# Mismatches: where and why two trees differ

A mismatch is a path from the two roots down to the first difference, and the reason. Each
step of the path names the common kind of the two nodes reached so far and the part of them
that the path goes on with: a field, with an index if it is a sequence that is entered, or
the scalar of the kind.
-/

namespace SyntaxForest

/-- A part of a node in which two nodes of one kind can differ. -/
inductive Part
  | scalar
  | field (f : Field)
deriving DecidableEq, Repr, Inhabited

/-- The name of a part of a node of kind `k`. -/
def Part.name (k : Kind) : Part → String
  | scalar => k.scalarName?.getD ""
  | field f => f.name

/-- One step of the path to a difference. -/
structure Step where
  kind : Kind
  part : Part
  index : Option Nat := none
deriving DecidableEq, Repr, Inhabited

/-- The text `Kind.part`, with the index in brackets where there is one. -/
def Step.text (s : Step) : String :=
  s.kind.name ++ "." ++ s.part.name s.kind ++
    match s.index with
    | some i => "[" ++ toString i ++ "]"
    | none => ""

/-- Why the nodes at the end of the path differ. -/
inductive Reason
  | kinds (left right : Kind)
  | values
  | presence
  | lengths (left right : Nat)
deriving DecidableEq, Repr, Inhabited

/-- The reason as a phrase. -/
def Reason.text : Reason → String
  | kinds left right => "`" ++ left.name ++ "` differs from `" ++ right.name ++ "`"
  | values => "values differ"
  | presence => "present on one side only"
  | lengths left right =>
    "lengths differ (" ++ toString left ++ " vs " ++ toString right ++ ")"

/-- The same reason with the two sides exchanged. -/
def Reason.swap : Reason → Reason
  | kinds left right => kinds right left
  | lengths left right => lengths right left
  | values => values
  | presence => presence

/-- The first difference of two trees. -/
structure Mismatch where
  path : List Step
  reason : Reason
deriving DecidableEq, Repr, Inhabited

namespace Mismatch

/-- A difference of the nodes that are being compared, not of anything below them. -/
def here (r : Reason) : Mismatch := ⟨[], r⟩

/-- The mismatch seen from one step further up. -/
def below (s : Step) (m : Mismatch) : Mismatch := ⟨s :: m.path, m.reason⟩

/-- The steps, joined by `>`. -/
def pathText (m : Mismatch) : String :=
  " > ".intercalate (m.path.map Step.text)

/-- The path and the reason; a difference of the roots themselves is marked as such. -/
def text (m : Mismatch) : String :=
  match m.path with
  | [] => "<root>: " ++ m.reason.text
  | _ => m.pathText ++ ": " ++ m.reason.text

/-- The step into the part that really differs. -/
def lastStep? (m : Mismatch) : Option Step := m.path.getLast?

end Mismatch

end SyntaxForest
