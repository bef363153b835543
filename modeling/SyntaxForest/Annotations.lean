import SyntaxForest.Dictionary
import SyntaxForest.NodeId

/-!
# Annotations

Later passes leave their results on nodes as annotations: named values of a few simple
types, or a node. A node-valued entry only *names* its node. It does not keep the node in
existence, and two such entries are equal when they name the same node, whether or not that
node still exists.

The type of values takes the way nodes are named as a parameter `ν`. On a node, nodes are
named by their identity; in a command by a reference still to be resolved; in an answer by
the label that a reader sees.
-/

namespace SyntaxForest

/-- What can be stored under a key, nodes being named by a `ν`. -/
inductive AnnotationValue (ν : Type)
  | flag (b : Bool)
  | integer (i : Int64)
  | text (s : String)
  | node (n : ν)
  | list (vs : List (AnnotationValue ν))
deriving Repr, Inhabited

namespace AnnotationValue

variable {ν μ : Type}

/-! ## Equality of values -/

section Same

variable [DecidableEq ν]

mutual

/-- Whether two values are the same, nodes being compared by name. -/
def same : AnnotationValue ν → AnnotationValue ν → Bool
  | flag a, flag b => a == b
  | integer a, integer b => a == b
  | text a, text b => a == b
  | node a, node b => a == b
  | list as, list bs => sameList as bs
  | _, _ => false

/-- Whether two lists of values agree element by element. -/
def sameList : List (AnnotationValue ν) → List (AnnotationValue ν) → Bool
  | [], [] => true
  | a :: as, b :: bs => same a b && sameList as bs
  | _, _ => false

end

mutual

theorem same_iff : ∀ a b : AnnotationValue ν, same a b = true ↔ a = b
  | flag a, b => by cases b <;> simp [same]
  | integer a, b => by cases b <;> simp [same]
  | text a, b => by cases b <;> simp [same]
  | node a, b => by cases b <;> simp [same]
  | list as, b => by cases b <;> simp [same, sameList_iff as]

theorem sameList_iff : ∀ as bs : List (AnnotationValue ν), sameList as bs = true ↔ as = bs
  | [], bs => by cases bs <;> simp [sameList]
  | a :: as, bs => by cases bs <;> simp [sameList, same_iff a, sameList_iff as]

end

instance : DecidableEq (AnnotationValue ν) := fun a b =>
  decidable_of_iff (same a b = true) (same_iff a b)

end Same

/-! ## Renaming the nodes in a value -/

mutual

/-- The value with every node named anew. -/
def map (f : ν → μ) : AnnotationValue ν → AnnotationValue μ
  | flag b => flag b
  | integer i => integer i
  | text s => text s
  | node n => node (f n)
  | list vs => list (mapList f vs)

/-- The values with every node named anew. -/
def mapList (f : ν → μ) : List (AnnotationValue ν) → List (AnnotationValue μ)
  | [] => []
  | v :: vs => map f v :: mapList f vs

end

mutual

/-- The value with every node named anew, if all of them can be. -/
def resolve? (f : ν → Option μ) : AnnotationValue ν → Option (AnnotationValue μ)
  | flag b => some (flag b)
  | integer i => some (integer i)
  | text s => some (text s)
  | node n => (f n).map node
  | list vs => (resolveList? f vs).map list

/-- The values with every node named anew, if all of them can be. -/
def resolveList? (f : ν → Option μ) :
    List (AnnotationValue ν) → Option (List (AnnotationValue μ))
  | [] => some []
  | v :: vs =>
    match resolve? f v, resolveList? f vs with
    | some w, some ws => some (w :: ws)
    | _, _ => none

end

/-! ## Views -/

/-- The truth value, if the value is one. -/
def flag? : AnnotationValue ν → Option Bool
  | flag b => some b
  | _ => none

/-- The integer, if the value is one. -/
def integer? : AnnotationValue ν → Option Int64
  | integer i => some i
  | _ => none

/-- The text, if the value is one. -/
def text? : AnnotationValue ν → Option String
  | text s => some s
  | _ => none

/-- The node named, if the value names one. -/
def node? : AnnotationValue ν → Option ν
  | node n => some n
  | _ => none

/-- The elements, if the value is a list. -/
def list? : AnnotationValue ν → Option (List (AnnotationValue ν))
  | list vs => some vs
  | _ => none

end AnnotationValue

/-- The annotations of one node. -/
abbrev Annotations := Dictionary (AnnotationValue NodeId)

end SyntaxForest
