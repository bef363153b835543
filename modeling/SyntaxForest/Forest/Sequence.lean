import SyntaxForest.Forest.Mutation

/-!
# Sequence fields

The elements of a sequence field are nodes in source order; one node may occur several
times. Every operation that places nodes checks all of them before it changes anything,
links the placed ones to the holder, and unlinks the ones that it takes out unless they have
been linked elsewhere.

`SequenceEdit` lists the operations as data and `Mutation.edit` performs one. Beside it stands
`SequenceEdit.replay`, the same operation on a plain list: what a sequence is supposed to be.
-/

namespace SyntaxForest

/-- An operation on a sequence field, nodes being named by a `ν`. -/
inductive SequenceEdit (ν : Type)
  | append (x : ν)
  | insertAt (index : Nat) (x : ν)
  | extend (xs : List ν)
  | reset (xs : List ν)
  | clear
  | remove (x : ν)
  | removeAt (index : Nat)
  | substitute (x y : ν)
deriving Repr, Inhabited

/-- What an operation on a sequence field has to say. -/
inductive SequenceAnswer
  | done
  | found (b : Bool)
  | removed (x : NodeId)
deriving DecidableEq, Repr, Inhabited

namespace SequenceEdit

/-- The operation with every node named anew, if all of them can be. -/
def resolve? {ν μ : Type} (f : ν → Option μ) : SequenceEdit ν → Option (SequenceEdit μ)
  | append x => (f x).map append
  | insertAt i x => (f x).map (insertAt i)
  | extend xs => (xs.mapM f).map extend
  | reset xs => (xs.mapM f).map reset
  | clear => some clear
  | remove x => (f x).map remove
  | removeAt i => some (removeAt i)
  | substitute x y => do return substitute (← f x) (← f y)

/-- The operation on a plain list of nodes. -/
def replay : SequenceEdit NodeId → List NodeId → List NodeId
  | append x, l => l ++ [x]
  | insertAt i x, l => l.take i ++ x :: l.drop i
  | extend xs, l => l ++ xs
  | reset xs, _ => xs
  | clear, _ => []
  | remove x, l => l.erase x
  | removeAt i, l => l.take i ++ l.drop (i + 1)
  | substitute x y, l => l.replace x y

end SequenceEdit

namespace Forest

/-- The place of the first occurrence of a node in a sequence. -/
def position? (f : Forest) (p : NodeId) (s : SequenceField) (x : NodeId) : Option Nat :=
  (f.sequence p s).idxOf? x

/-- The index has to be that of an element or the next one after the last. -/
def requireWithin (f : Forest) (p : NodeId) (s : SequenceField) (index : Nat) :
    Except Error Unit :=
  let length := (f.sequence p s).length
  if length < index then .error (.indexOutOfBounds (f.kind p) s index length) else .ok ()

/-- Links a node to the owner of a sequence and gives the sequence other elements. -/
def linkInto (f : Forest) (p : NodeId) (s : SequenceField) (x : NodeId) (ys : List NodeId) :
    Forest :=
  (f.setLink x (f.owner p (.sequence s))).writeSequence p s ys

/-- Gives a sequence other elements and unlinks nodes from its owner. -/
def unlinkFrom (f : Forest) (p : NodeId) (s : SequenceField) (ys xs : List NodeId) : Forest :=
  (f.writeSequence p s ys).unlinkAll xs (f.owner p (.sequence s))

end Forest

namespace Mutation

/-! ## Placing nodes -/

/-- Adds a node at the end. -/
def append (p : NodeId) (s : SequenceField) (x : NodeId) : Mutation Unit := do
  check (·.requireField p (.sequence s))
  check (·.requireFit p (.sequence s) x)
  modify fun f => f.linkInto p s x (f.sequence p s ++ [x])

/-- Adds a node before the element at `index`, or at the end. -/
def insertAt (p : NodeId) (s : SequenceField) (index : Nat) (x : NodeId) : Mutation Unit := do
  check (·.requireField p (.sequence s))
  check (·.requireFit p (.sequence s) x)
  check (·.requireWithin p s index)
  modify fun f => f.linkInto p s x ((f.sequence p s).insertIdx index x)

/-- Adds all nodes at the end, or none of them if one does not fit. They are added one after
the other, and each is looked at again when its turn comes. -/
def extend (p : NodeId) (s : SequenceField) (xs : List NodeId) : Mutation Unit := do
  check (·.requireField p (.sequence s))
  check (·.requireFits p (.sequence s) xs)
  xs.forM (append p s)

/-- Takes everything out. -/
def clear (p : NodeId) (s : SequenceField) : Mutation Unit := do
  check (·.requireField p (.sequence s))
  modify fun f => f.unlinkFrom p s [] (f.sequence p s)

/-- Replaces the whole content, or nothing if one of the new nodes does not fit. -/
def reset (p : NodeId) (s : SequenceField) (xs : List NodeId) : Mutation Unit := do
  check (·.requireField p (.sequence s))
  check (·.requireFits p (.sequence s) xs)
  clear p s
  extend p s xs

/-! ## Taking nodes out -/

/-- Takes out the first occurrence of a node; says whether there was one. -/
def remove (p : NodeId) (s : SequenceField) (x : NodeId) : Mutation Bool := do
  check (·.requireField p (.sequence s))
  match (← get).position? p s x with
  | none => return false
  | some i =>
    modify fun f => f.unlinkFrom p s ((f.sequence p s).eraseIdx i) [x]
    return true

/-- Takes out the element at `index`. -/
def removeAt (p : NodeId) (s : SequenceField) (index : Nat) : Mutation NodeId := do
  check (·.requireField p (.sequence s))
  let f ← get
  let old := f.sequence p s
  match old[index]? with
  | none => throw (.indexOutOfBounds (f.kind p) s index old.length)
  | some x =>
    modify fun f => f.unlinkFrom p s ((f.sequence p s).eraseIdx index) [x]
    return x

/-- Puts `y` in the place of the first occurrence of `x`; says whether there was one. -/
def substitute (p : NodeId) (s : SequenceField) (x y : NodeId) : Mutation Bool := do
  check (·.requireField p (.sequence s))
  match (← get).position? p s x with
  | none => return false
  | some i =>
    check (·.requireFit p (.sequence s) y)
    if x = y then return true
    modify fun f =>
      (f.linkInto p s y ((f.sequence p s).set i y)).unlink x (f.owner p (.sequence s))
    return true

/-! ## Operations as data -/

/-- Performs an operation on a sequence field. -/
def edit (p : NodeId) (s : SequenceField) : SequenceEdit NodeId → Mutation SequenceAnswer
  | .append x => do
    append p s x
    return .done
  | .insertAt i x => do
    insertAt p s i x
    return .done
  | .extend xs => do
    extend p s xs
    return .done
  | .reset xs => do
    reset p s xs
    return .done
  | .clear => do
    clear p s
    return .done
  | .remove x => return .found (← remove p s x)
  | .removeAt i => return .removed (← removeAt p s i)
  | .substitute x y => return .found (← substitute p s x y)

end Mutation

end SyntaxForest
