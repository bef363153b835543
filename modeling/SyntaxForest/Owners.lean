import SyntaxForest.Field
import SyntaxForest.NodeId

/-!
# Owners: whom the fields of a node belong to

Every field keeps the identity of the node that it belongs to, since this is the link that it
gives to the nodes placed into it. A field of a draft belongs to nobody. When the draft becomes
a node, the node *adopts* its fields one after the other.

That the fields of one node all agree, and that they name this very node, is nothing that the
type says: it is the work of the operations.
-/

namespace SyntaxForest

/-- For every field the node that it belongs to. -/
structure Owners where
  modifier : Option NodeId := none
  expression : Option NodeId := none
  block : Option NodeId := none
  condition : Option NodeId := none
  target : Option NodeId := none
  left : Option NodeId := none
  right : Option NodeId := none
  statements : Option NodeId := none
  arguments : Option NodeId := none
deriving DecidableEq, Repr, Inhabited

namespace Owners

/-- The node that a field belongs to. -/
def get (o : Owners) : Field → Option NodeId
  | .single .modifier => o.modifier
  | .single .expression => o.expression
  | .single .block => o.block
  | .single .condition => o.condition
  | .single .target => o.target
  | .single .left => o.left
  | .single .right => o.right
  | .sequence .statements => o.statements
  | .sequence .arguments => o.arguments

/-- The owners with another node for one field. -/
def set (o : Owners) (φ : Field) (p : Option NodeId) : Owners :=
  match φ with
  | .single .modifier => { o with modifier := p }
  | .single .expression => { o with expression := p }
  | .single .block => { o with block := p }
  | .single .condition => { o with condition := p }
  | .single .target => { o with target := p }
  | .single .left => { o with left := p }
  | .single .right => { o with right := p }
  | .sequence .statements => { o with statements := p }
  | .sequence .arguments => { o with arguments := p }

/-- The owners after a node has adopted the given fields. -/
def adopt (o : Owners) (p : NodeId) (φs : List Field) : Owners :=
  φs.foldl (fun o φ => o.set φ (some p)) o

/-! ## Laws -/

@[simp] theorem get_empty (φ : Field) : ({} : Owners).get φ = none := by
  cases φ with
  | single s => cases s <;> rfl
  | sequence s => cases s <;> rfl

@[simp] theorem get_set_self (o : Owners) (φ : Field) (p : Option NodeId) :
    (o.set φ p).get φ = p := by
  cases φ with
  | single s => cases s <;> rfl
  | sequence s => cases s <;> rfl

theorem get_set_of_ne (o : Owners) {φ ψ : Field} (h : φ ≠ ψ) (p : Option NodeId) :
    (o.set φ p).get ψ = o.get ψ := by
  rcases φ with s | s <;> rcases ψ with t | t <;> cases s <;> cases t <;> simp_all [set, get]

/-- Adopted fields belong to the node, the others to whom they did before. -/
theorem get_adopt (o : Owners) (p : NodeId) (φs : List Field) (ψ : Field) :
    (o.adopt p φs).get ψ = if ψ ∈ φs then some p else o.get ψ := by
  induction φs generalizing o with
  | nil => simp [adopt]
  | cons φ φs ih =>
    have hstep : o.adopt p (φ :: φs) = (o.set φ (some p)).adopt p φs := rfl
    rw [hstep, ih]
    by_cases h : φ = ψ
    · subst h
      simp
    · simp [get_set_of_ne o h, Ne.symm h]

end Owners

end SyntaxForest
