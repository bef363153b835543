import SyntaxForest.Forest.Keeping

/-!
# Editor queries

An editor asks which node is at a position, in which scope that is, and how a node is to be
announced. The node at a position is found going down: a node with a known location that does
not contain the position hides everything below it, one without a location hides nothing and
is never the answer, and of all candidates the last one in pre-order wins. Scopes are found
going up from there along the links.
-/

namespace SyntaxForest

/-- What an editor shows of a node. -/
structure Summary where
  kind : Kind
  location : Location
  documentation : Option String
deriving DecidableEq

namespace Forest

/-- Looks for the node at a position in the subtree of `n`, down to the given number of
levels. The last argument is the best candidate so far. -/
def locateWithin (f : Forest) (pos : Position) : Nat → NodeId → Option NodeId → Option NodeId
  | 0, _, found => found
  | depth + 1, n, found =>
    let below (found : Option NodeId) : Option NodeId :=
      (f.children n).foldl (fun found c => locateWithin f pos depth c found) found
    let l := (f.record n).location
    if l.isUnknown then below found
    else if l.contains pos then below (some n)
    else found

/-- The innermost node at a position in the tree of `root`. -/
def locate (f : Forest) (root : NodeId) (pos : Position) : Option NodeId :=
  f.locateWithin pos f.size root none

/-- The innermost node at a position. The search goes into the journal. -/
def nodeAt (f : Forest) (root : NodeId) (pos : Position) : Option NodeId × Forest :=
  let found := f.locate root pos
  (found, f.note (.located pos (found.map f.kind)))

/-- The nearest block at or above a node. -/
def enclosingScope (f : Forest) (kept : Marks) (n : NodeId) : Option NodeId :=
  if f.kind n = .block then some n
  else (f.ancestors kept n).find? fun a => f.kind a = .block

/-- The scope that applies at a position. -/
def scopeAt (f : Forest) (kept : Marks) (root : NodeId) (pos : Position) :
    Option NodeId × Forest :=
  let (found, g) := f.nodeAt root pos
  (found.bind (f.enclosingScope kept), g)

/-- The kinds on the way from the topmost holder down to a node. -/
def ancestry (f : Forest) (kept : Marks) (n : NodeId) : List Kind :=
  ((f.ancestors kept n).map f.kind).reverse ++ [f.kind n]

/-- What an editor shows of a node. -/
def summary (f : Forest) (n : NodeId) : Summary :=
  let r := f.record n
  ⟨r.kind, r.location, r.documentation⟩

end Forest

end SyntaxForest
