import SyntaxForest.Forest.Walk

/-!
# Annotations on nodes

The store of a node comes into being with its first annotation and goes away only when the
bindings of the node, or of a node above it, are cleared. Taking the last annotation out
leaves an empty store behind.

Clearing reads the children of a node before it drops the store of the node, and comes anew to a
shared node from each of its holders. Neither matters in the end: stores are all that changes, so
the nodes have the same children throughout, and a store is dropped once and for all. `Wiped` says
which stores are gone, by a list of nodes. After clearing that is the listing of the subtree
(`clearWithin_wiped`).
-/

namespace SyntaxForest

/-- The record without its store of annotations. -/
def Record.cleared (r : Record) : Record := { r with annotations := none }

namespace Forest

/-- The value under a key of a node. -/
def annotationAt (f : Forest) (n : NodeId) (key : String) : Option (AnnotationValue NodeId) :=
  (f.record n).annotations.bind (·.get? key)

/-- Puts a value under a key of a node. -/
def annotate (f : Forest) (n : NodeId) (key : String) (v : AnnotationValue NodeId) : Forest :=
  f.update n fun r => { r with annotations := some ((r.annotations.getD .empty).insert key v) }

/-- Takes the value under a key away. -/
def dropAnnotationAt (f : Forest) (n : NodeId) (key : String) : Forest :=
  f.update n fun r => { r with annotations := r.annotations.map (·.erase key) }

/-- Drops the store of a node and of everything that it holds, down to the given number of
levels. -/
def clearWithin : Nat → Forest → NodeId → Forest
  | 0, f, _ => f
  | depth + 1, f, n =>
    let r := f.record n
    let f := f.update n fun r => { r with annotations := none }
    (r.children.foldl (clearWithin depth) f).note (.clearedBindings r.kind)

/-- Drops the store of a node and of everything below it. -/
def clearBindings (f : Forest) (n : NodeId) : Forest := clearWithin f.size f n

/-! ## What clearing does -/

variable {f g h : Forest} {ns ms : List NodeId} {n m : NodeId}

/-- `g` is `f` without the stores of the given nodes. -/
structure Wiped (f g : Forest) (ns : List NodeId) : Prop where
  size_eq : g.size = f.size
  record_eq : ∀ j, g.record j = if j ∈ ns then (f.record j).cleared else f.record j

namespace Wiped

theorem refl (f : Forest) : Wiped f f [] := ⟨rfl, fun _ => (if_neg List.not_mem_nil).symm⟩

/-- A store that has been dropped stays so. -/
theorem trans (h₁ : Wiped f g ns) (h₂ : Wiped g h ms) : Wiped f h (ns ++ ms) where
  size_eq := h₂.size_eq.trans h₁.size_eq
  record_eq j := by
    rw [h₂.record_eq, h₁.record_eq]
    by_cases hn : j ∈ ns <;> by_cases hm : j ∈ ms <;> simp [hn, hm, Record.cleared]

theorem note (h : Wiped f g ns) (e : Event) : Wiped f (g.note e) ns := ⟨h.size_eq, h.record_eq⟩

theorem children_eq (h : Wiped f g ns) (j : NodeId) : g.children j = f.children j := by
  rw [children, children, h.record_eq]
  split <;> rfl

theorem kind_eq (h : Wiped f g ns) (j : NodeId) : g.kind j = f.kind j := by
  rw [kind, kind, h.record_eq]
  split <;> rfl

theorem record_of_not_mem (h : Wiped f g ns) (hm : m ∉ ns) : g.record m = f.record m := by
  rw [h.record_eq, if_neg hm]

/-- Nothing but the store is changed. -/
theorem record_but_annotations (h : Wiped f g ns) (j : NodeId) :
    { g.record j with annotations := (f.record j).annotations } = f.record j := by
  rw [h.record_eq]
  split <;> rfl

end Wiped

theorem wiped_update (f : Forest) (n : NodeId) : Wiped f (f.update n Record.cleared) [n] where
  size_eq := size_update ..
  record_eq j := by
    rw [record_update]
    by_cases hj : j < f.size
    · simp only [hj, and_true, List.mem_singleton, eq_comm]
    · -- outside the store there is nothing to drop
      rw [if_neg fun hc => hj hc.2, record_of_size_le (Nat.le_of_not_lt hj)]
      split <;> rfl

/-- Listings are read off the contents alone. -/
theorem preorderWithin_congr (hchildren : ∀ j, g.children j = f.children j) :
    ∀ (depth : Nat) (n : NodeId), g.preorderWithin depth n = f.preorderWithin depth n := by
  intro depth
  induction depth with
  | zero => intro n; rfl
  | succ depth ih =>
    intro n
    rw [preorderWithin, preorderWithin, hchildren, funext ih]

/-- **Clearing drops the stores of the nodes in the listing.** -/
theorem clearWithin_wiped : ∀ (depth : Nat) (f : Forest) (n : NodeId),
    Wiped f (clearWithin depth f n) (f.preorderWithin depth n) := by
  intro depth
  induction depth with
  | zero => intro f n; exact .refl f
  | succ depth ih =>
    intro f n
    -- the listings of the children are the same in all the forests that the fold goes through
    have hall : ∀ (cs : List NodeId) (g : Forest), (∀ j, g.children j = f.children j) →
        Wiped g (cs.foldl (clearWithin depth) g) (cs.flatMap (f.preorderWithin depth)) := by
      intro cs
      induction cs with
      | nil => intro g _; exact .refl g
      | cons c cs ihcs =>
        intro g hg
        have hc := ih g c
        have hrest := ihcs _ fun j => (hc.children_eq j).trans (hg j)
        rw [preorderWithin_congr hg] at hc
        exact hc.trans hrest
    have hself := wiped_update f n
    exact (hself.trans (hall (f.children n) _ hself.children_eq)).note _

end Forest

end SyntaxForest
