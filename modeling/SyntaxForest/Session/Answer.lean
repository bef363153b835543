import SyntaxForest.Annotations
import SyntaxForest.Forest.Query
import SyntaxForest.Head
import SyntaxForest.Mismatch

/-!
# Answers

Every command has an answer. Nodes appear in answers by their labels. A command that makes no
sense is refused; one that makes sense and breaks a contract of the forest answers the error.
-/

namespace SyntaxForest

/-- A value as it appears in an answer; a node that is gone has no label. -/
abbrev ShownValue := AnnotationValue (Option String)

/-- What is known about a sequence field of a node. -/
structure SequenceInfo where
  holder : Kind
  field : SequenceField
  owner : Option String
  length : Nat
deriving DecidableEq, Repr

/-- One node in the listing of a tree. -/
structure Row where
  depth : Nat
  field : String
  label : String
  head : Head
  parent : String
  location : Option Location
  endPosition : Option Position
  documentation : Option String
  annotations : Option (List (String × ShownValue))

/-- A value seen as each of the types that it could have. -/
structure Views where
  flag : Option Bool
  integer : Option Int64
  text : Option String
  node : Option String
  length : Option Nat

/-- What a command answers. -/
inductive Answer
  | done
  | refused
  | error (e : Error)
  | label (l : Option String)
  | text (t : String)
  | optionalText (t : Option String)
  | texts (ts : List String)
  | flag (b : Bool)
  | count (n : Nat)
  | index (i : Option Nat)
  | scalar (value : Literal) (text : String)
  | kind (k : Kind)
  | kinds (ks : List Kind)
  | location (l : Location)
  | locationInfo (l : Location)
  | position (p : Option Position)
  | ordering (o : Ordering)
  | sequenceInfo (i : SequenceInfo)
  | mismatch (m : Option Mismatch)
  | rows (rs : List Row)
  | value (v : Option ShownValue)
  | views (v : Option Views)
  | storeEntry (v : Option ShownValue)
  | storeInfo (keys : List String)
  | summary (s : Summary)
  | substituted (outcome : Except Error Nat) (offered : List String)
  | rounds (last : Option (List Answer))
  | logged (a : Answer) (lines : List String)

instance : Inhabited Answer := ⟨.refused⟩

end SyntaxForest
