import SyntaxForest.Session.Command
import SyntaxForest.Forest.Keeping

/-!
# Sessions

A session is a forest together with what its user has in hand: handles, which are names for
nodes, for drafts and for stores of annotations, and the location given to nodes that are
constructed. What the handles hold, and what a running walk holds on to, are the roots of all
strong references.
-/

namespace SyntaxForest

/-- What a handle stands for. -/
inductive Holding
  | node (n : NodeId)
  | draft (d : NodeId)
  | store (s : Annotations)
deriving DecidableEq, Inhabited

/-- The node or draft that a holding keeps in existence. -/
def Holding.root? : Holding → Option NodeId
  | node n => some n
  | draft d => some d
  | store _ => none

/-- A forest and what the user has in hand. -/
structure Session where
  forest : Forest := {}
  handles : Dictionary Holding := .empty
  builder : Location := {}
  /-- The nodes that walks under way hold on to. -/
  walking : List NodeId := []
deriving Inhabited

namespace Session

/-- Everything from which nodes are kept in existence. -/
def roots (s : Session) : List NodeId :=
  s.handles.values.filterMap Holding.root? ++ s.walking

/-- The nodes that have not been given up. -/
def kept (s : Session) : Forest.Marks := s.forest.kept s.roots

/-! ## Names of nodes -/

/-- The node at the end of a path of child positions. -/
def descend? (f : Forest) (n : NodeId) : List Nat → Option NodeId
  | [] => some n
  | i :: is =>
    match (f.children n)[i]? with
    | some c => descend? f c is
    | none => none

/-- The node that a handle holds. -/
def held? (s : Session) (name : String) : Option NodeId :=
  match s.handles.get? name with
  | some (.node n) => some n
  | _ => none

/-- The node that a reference stands for. -/
def node? (s : Session) : Ref → Option NodeId
  | .handle name => s.held? name
  | .path name positions => (s.held? name).bind (descend? s.forest · positions)

/-- The node or draft that a reference stands for. -/
def target? (s : Session) : Ref → Option NodeId
  | .handle name => (s.handles.get? name).bind Holding.root?
  | .path name positions => s.node? (.path name positions)

/-- The store that a handle stands for. -/
def store? (s : Session) (name : String) : Option Annotations :=
  match s.handles.get? name with
  | some (.store a) => some a
  | _ => none

/-- How a node is shown: by the first handle that holds it, else by what it is. -/
def label (s : Session) (n : NodeId) : String :=
  match s.handles.entries.find? fun e => e.2 = .node n with
  | some e => "@" ++ e.1
  | none => (s.forest.record n).head.text

/-- A value with the nodes in it shown by their labels, and by nothing if they are gone. -/
def showValue (s : Session) (v : AnnotationValue NodeId) : AnnotationValue (Option String) :=
  let kept := s.kept
  v.map fun n => if kept.contains n then some (s.label n) else none

/-! ## Changing what is in hand -/

/-- The session with another forest. -/
def withForest (s : Session) (f : Forest) : Session := { s with forest := f }

/-- The session with a handle. -/
def bind (s : Session) (name : String) (h : Holding) : Session :=
  { s with handles := s.handles.insert name h }

/-- The session without a handle. -/
def unbind (s : Session) (name : String) : Session :=
  { s with handles := s.handles.erase name }

end Session

end SyntaxForest
