import SyntaxForest.Forest.Assembly
import SyntaxForest.Session.Answer
import SyntaxForest.Session.Basic

/-!
# Acts: steps of a session that may fail

An act changes the session and gives a result, or fails. What an act has done before it fails
stays done. In this it is like a mutation of the forest.
-/

namespace SyntaxForest

/-- Why an act failed: it made no sense, or broke a contract of the forest. -/
inductive Fault
  | refused
  | error (e : Error)
deriving DecidableEq, Repr

/-- The answer of a failed act. -/
def Fault.answer : Fault → Answer
  | refused => .refused
  | error e => .error e

/-- A step of a session that may fail. -/
abbrev Act := ExceptT Fault (StateM Session)

namespace Act

/-- Fails for want of sense. -/
def refuse {α : Type} : Act α := throw .refused

/-- A value that has to be there. -/
def require {α : Type} : Option α → Act α
  | some a => return a
  | none => refuse

/-- A result of the forest, or its error. -/
def lift {α : Type} : Except Error α → Act α
  | .ok a => return a
  | .error e => throw (.error e)

/-- The forest of the session. -/
def forest : Act Forest := return (← get).forest

/-- Changes the forest of the session. -/
def setForest (f : Forest) : Act Unit := modify (·.withForest f)

/-- Performs a mutation of the forest. If it fails, so does the act, and the forest is what the
mutation has made of it by then. -/
def mutate {α : Type} (m : Mutation α) : Act α := do
  let (outcome, f) := m.perform (← forest)
  setForest f
  lift outcome

/-- The node that a reference stands for. -/
def node (r : Ref) : Act NodeId := do require ((← get).node? r)

/-- The node that an optional reference stands for. -/
def node? : Option Ref → Act (Option NodeId)
  | none => return none
  | some r => return some (← node r)

/-- The value that a written value stands for. -/
def value (v : AnnotationValue Ref) : Act (AnnotationValue NodeId) := do
  require (v.resolve? (← get).node?)

/-- Runs an act on a session. A failure is answered. -/
def run (act : Act Answer) (s : Session) : Answer × Session :=
  match ExceptT.run act s with
  | (.ok a, s) => (a, s)
  | (.error fault, s) => (fault.answer, s)

/-- Runs an act on a session. A failure gives nothing. -/
def run? {α : Type} (act : Act α) (s : Session) : Option α × Session :=
  match ExceptT.run act s with
  | (.ok a, s) => (some a, s)
  | (.error _, s) => (none, s)

end Act

end SyntaxForest
