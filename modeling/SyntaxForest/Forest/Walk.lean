import SyntaxForest.Forest.Basic

/-!
# Walks

`preorder` and `postorder` list a subtree: every occurrence of a node in it once, a node
before or after what it holds. They are the yardstick for the walks that do something.

A walk with a client hands over one node after the other. The client may change the forest,
so a walk takes the list of children of a node when it comes to that node and goes through
this list, whatever happens to the node meanwhile. Along the way it keeps hold of some nodes:
the one it started from, at each level the child that it is busy with, and the siblings still
to come. The client is told which, since they exist as long as the walk does.

What a client does is not known to end, so these walks take the number of levels to go down
as an argument.

A `HandlerTable` is a client that only records: it has a handler for some of the kinds and
one for all others, and a handler says what to record and whether to go on below the node.
-/

namespace SyntaxForest

namespace Forest

/-! ## Listings -/

/-- A node, then what it holds, down to the given number of levels. -/
def preorderWithin (f : Forest) : Nat → NodeId → List NodeId
  | 0, _ => []
  | depth + 1, n => n :: (f.children n).flatMap (preorderWithin f depth)

/-- A node, then everything below it. -/
def preorder (f : Forest) (n : NodeId) : List NodeId := f.preorderWithin f.size n

/-- What a node holds, then the node, down to the given number of levels. -/
def postorderWithin (f : Forest) : Nat → NodeId → List NodeId
  | 0, _ => []
  | depth + 1, n => (f.children n).flatMap (postorderWithin f depth) ++ [n]

/-- Everything below a node, then the node. -/
def postorder (f : Forest) (n : NodeId) : List NodeId := f.postorderWithin f.size n

/-! ## Walks with a client -/

/-- Goes through a list of siblings, holding on to the ones still to come. -/
def forSiblings {σ : Type} (enter : List NodeId → NodeId → Forest × σ → Forest × σ)
    (held : List NodeId) : List NodeId → Forest × σ → Forest × σ
  | [], s => s
  | c :: rest, s => forSiblings enter held rest (enter (c :: rest ++ held) c s)

/-- Hands over a node and what is below it, nodes before what they hold. The first argument
of `visit` are the nodes that the walk holds on to. -/
def forEachWithin {σ : Type} (visit : List NodeId → NodeId → Forest × σ → Forest × σ) :
    Nat → List NodeId → NodeId → Forest × σ → Forest × σ
  | 0, _, _, s => s
  | depth + 1, held, n, s =>
    let s := visit held n s
    forSiblings (forEachWithin visit depth) held (s.1.children n) s

/-- Hands over a root and everything below it. What is held before the walk stays held. -/
def forEach {σ : Type} (visit : List NodeId → NodeId → Forest × σ → Forest × σ) (depth : Nat)
    (held : List NodeId) (root : NodeId) (s : Forest × σ) : Forest × σ :=
  forEachWithin visit depth (root :: held) root s

end Forest

/-! ## Handlers by kind -/

/-- What to record of a node, and whether to go on below it. -/
structure Handler (α : Type) where
  record : NodeId → α
  descends : NodeId → Bool

/-- Handlers for some kinds, and one for all the others. -/
structure HandlerTable (α : Type) where
  forKind : Kind → Option (Handler α)
  otherwise : Handler α

namespace HandlerTable

variable {α : Type}

/-- The handler that nodes of kind `k` are given to. -/
def handler (t : HandlerTable α) (k : Kind) : Handler α := (t.forKind k).getD t.otherwise

/-- Gives a node to its handler and goes on as the handler says, down to the given number of
levels. -/
def acceptWithin (t : HandlerTable α) (f : Forest) : Nat → NodeId → List α
  | 0, _ => []
  | depth + 1, n =>
    let h := t.handler (f.kind n)
    h.record n ::
      if h.descends n then (f.children n).flatMap (acceptWithin t f depth) else []

/-- Gives a node to its handler and goes on as the handler says. -/
def accept (t : HandlerTable α) (f : Forest) (n : NodeId) : List α :=
  t.acceptWithin f f.size n

/-- Gives the children of a node to their handlers. -/
def acceptChildren (t : HandlerTable α) (f : Forest) (n : NodeId) : List α :=
  (f.children n).flatMap (t.accept f)

end HandlerTable

end SyntaxForest
