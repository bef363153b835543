import SyntaxForest.Forest.Keeping
import SyntaxForest.Forest.Integrity
import Mathlib.Data.Finset.Card

/-!
# Subtrees

`Below n m` says that `m` is reached from `n` by going down, `n` itself included: it is liveness
with `n` as the only root. A subtree is *acyclic* when no node in it lies below one of its own
children. Nodes may still be shared: held several times, or by several holders.

The recursive operations of a forest go down at most as many levels as there are records.
`AcyclicBelow.fitsWithin` says that this is enough for an acyclic subtree: going down one level
leaves the node behind for good, so that every level uses up one record. `FitsWithin` is the
shape in which the proofs about these operations take the fact.
-/

namespace SyntaxForest.Forest

/-! ## Going down -/

instance (f : Forest) (roots : List NodeId) (n : NodeId) : Decidable (Live f roots n) :=
  decidable_of_iff _ contains_reach_iff

/-- `m` is `n`, or held by a node below `n`. -/
def Below (f : Forest) (n m : NodeId) : Prop := Live f [n] m

instance (f : Forest) (n m : NodeId) : Decidable (f.Below n m) :=
  inferInstanceAs (Decidable (Live f [n] m))

variable {f g : Forest} {n m k p c : NodeId} {roots hands : List NodeId}

/-- A node is below itself, in the wide sense. -/
theorem Below.refl (hn : n < f.size) : f.Below n n := .root List.mem_cons_self hn

theorem Below.lt_size (h : f.Below n m) : m < f.size := Live.lt_size h

/-- What something lies below is in the store. -/
theorem Below.root_lt (h : f.Below n m) : n < f.size := by
  induction h with
  | root hmem hlt => exact List.mem_singleton.1 hmem ▸ hlt
  | held _ _ _ ih => exact ih

/-- What lies below a live node is live. -/
theorem Below.trans_live (h : f.Below n m) (hn : Live f roots n) : Live f roots m := by
  induction h with
  | root hr _ => exact List.mem_singleton.1 hr ▸ hn
  | held _ hc hlt ih => exact .held ih hc hlt

theorem Below.trans (h₁ : f.Below n m) (h₂ : f.Below m k) : f.Below n k :=
  h₂.trans_live h₁

/-- A child is below its holder. -/
theorem Below.child (hn : n < f.size) (hc : c ∈ f.children n) (hlt : c < f.size) :
    f.Below n c :=
  .held (Below.refl hn) hc hlt

/-- What is live from roots that are themselves live is live. -/
theorem Live.of_roots (h : Live f hands n) (hr : ∀ r ∈ hands, r < f.size → Live f roots r) :
    Live f roots n := by
  induction h with
  | root hmem hlt => exact hr _ hmem hlt
  | held _ hc hlt ih => exact .held ih hc hlt

/-- With more in hand, more is live. -/
theorem Live.mono (h : Live f hands n) (hsub : hands ⊆ roots) : Live f roots n :=
  h.of_roots fun _ hr hlt => .root (hsub hr) hlt

/-- Liveness is read off the contents alone. -/
theorem Live.congr (h : Live g roots n) (hsize : g.size = f.size)
    (hchildren : ∀ j, g.children j = f.children j) : Live f roots n := by
  induction h with
  | root hr hlt => exact .root hr (hsize ▸ hlt)
  | held _ hc hlt ih => exact .held ih (hchildren _ ▸ hc) (hsize ▸ hlt)

/-! ## Acyclic subtrees -/

/-- No node of the subtree lies below one of its own children. -/
def AcyclicBelow (f : Forest) (n : NodeId) : Prop :=
  ∀ m, f.Below n m → ∀ c ∈ f.children m, ¬ f.Below c m

instance (f : Forest) (n : NodeId) : Decidable (f.AcyclicBelow n) :=
  decidable_of_iff (∀ m < f.size, f.Below n m → ∀ c ∈ f.children m, ¬ f.Below c m)
    ⟨fun h m hm => h m hm.lt_size hm, fun h m _ => h m⟩

/-- What is held is in the store. -/
def Closed (f : Forest) : Prop := ∀ p, ∀ c ∈ f.children p, c < f.size

/-- What lies below is acyclic too. -/
theorem AcyclicBelow.of_below (h : f.AcyclicBelow n) (hm : f.Below n m) : f.AcyclicBelow m :=
  fun _ hk => h _ (hm.trans hk)

/-- The subtree has at most the given number of levels. -/
def FitsWithin (f : Forest) : Nat → NodeId → Prop
  | 0, _ => False
  | depth + 1, n => ∀ c ∈ f.children n, FitsWithin f depth c

/-- An acyclic subtree has no more levels than nodes. -/
theorem AcyclicBelow.fitsWithin_card (hclosed : f.Closed) :
    ∀ (size : Nat) (nodes : Finset NodeId) (n : NodeId), nodes.card = size → n < f.size →
      f.AcyclicBelow n → (∀ m, f.Below n m → m ∈ nodes) → f.FitsWithin size n := by
  intro size
  induction size with
  | zero =>
    intro nodes n hcard hn _ hmem
    rw [Finset.card_eq_zero.1 hcard] at hmem
    exact absurd (hmem n (.refl hn)) (Finset.notMem_empty n)
  | succ size ih =>
    intro nodes n hcard hn hac hmem c hc
    have hlt := hclosed n c hc
    have hbelow := Below.child hn hc hlt
    refine ih (nodes.erase n) c ?_ hlt (hac.of_below hbelow) fun m hm => ?_
    · rw [Finset.card_erase_of_mem (hmem n (.refl hn)), hcard]
      rfl
    · refine Finset.mem_erase.2 ⟨?_, hmem m (hbelow.trans hm)⟩
      rintro rfl
      exact hac _ (.refl hn) c hc hm

/-- **The store has room for every acyclic subtree.** -/
theorem AcyclicBelow.fitsWithin (h : f.AcyclicBelow n) (hclosed : f.Closed) (hn : n < f.size) :
    f.FitsWithin f.size n :=
  h.fitsWithin_card hclosed f.size (Finset.range f.size) n (Finset.card_range _) hn
    fun _ hm => Finset.mem_range.2 hm.lt_size

/-- What holds of a node if it holds of all its holders holds of every node. The holders are taken
from a set of nodes none of which lies below itself. -/
theorem holder_induction {A motive : NodeId → Prop} (hlt : ∀ p, A p → p < f.size)
    (hacyclic : ∀ p, A p → ∀ c ∈ f.children p, ¬ f.Below c p)
    (hstep : ∀ n < f.size, (∀ p, A p → n ∈ f.children p → motive p) → motive n) :
    ∀ n < f.size, motive n := by
  classical
  -- going up from held to holder, there are fewer and fewer nodes above
  let above (n : NodeId) : Finset NodeId :=
    (Finset.range f.size).filter fun p => A p ∧ ∃ c ∈ f.children p, f.Below c n
  have hfewer : ∀ n < f.size, ∀ p, A p → n ∈ f.children p → above p ⊂ above n := by
    intro n hn p hp hc
    have hbelow := Below.child (hlt p hp) hc hn
    refine (Finset.ssubset_iff_of_subset fun q hq => ?_).2 ⟨p, ?_, fun hself => ?_⟩
    · obtain ⟨hmem, hq, c, hc, hcp⟩ := Finset.mem_filter.1 hq
      exact Finset.mem_filter.2 ⟨hmem, hq, c, hc, hcp.trans hbelow⟩
    · exact Finset.mem_filter.2 ⟨Finset.mem_range.2 (hlt p hp), hp, n, hc, .refl hn⟩
    · obtain ⟨-, -, c, hc, hback⟩ := Finset.mem_filter.1 hself
      exact hacyclic p hp c hc hback
  intro n hn
  induction hcard : (above n).card using Nat.strongRecOn generalizing n with
  | _ k ih =>
    subst hcard
    refine hstep n hn fun p hp hc => ?_
    exact ih _ (Finset.card_lt_card (hfewer n hn p hp hc)) p (hlt p hp) rfl

/-! ## What circles keep -/

/-- The node is on a circle: it lies below one of its own children. -/
def BelowItself (f : Forest) (n : NodeId) : Prop := ∃ c ∈ f.children n, f.Below c n

instance (f : Forest) (n : NodeId) : Decidable (f.BelowItself n) :=
  inferInstanceAs (Decidable (∃ c ∈ f.children n, f.Below c n))

/-- A node on a circle is not given up, since its holder on the circle would have to be given up
before it. -/
theorem GivenUp.not_belowItself (h : GivenUp f roots n) : ¬ f.BelowItself n := by
  induction h with
  | @intro n _ _ ih =>
    rintro ⟨c, hc, hback⟩
    cases hback with
    | root hmem _ =>
      obtain rfl := List.mem_singleton.1 hmem
      exact ih n hc ⟨n, hc, .refl (lt_size_of_mem_children hc)⟩
    | @held q _ hq hn hlt =>
      have hq : f.Below c q := hq
      exact ih q hn ⟨n, hn, (Below.child hlt hc hq.root_lt).trans hq⟩

/-- **What is kept besides what is live is what lies below a circle.** -/
theorem kept_iff : Kept f roots n ↔ Live f roots n ∨ ∃ p, f.BelowItself p ∧ f.Below p n := by
  constructor
  · intro h
    by_contra hnot
    obtain ⟨hlive, hcircle⟩ := not_or.1 hnot
    -- nothing above `n` is on a circle, so that holders are given up one after the other
    refine h.not_givenUp (holder_induction (A := fun p => f.Below p n)
      (motive := fun m => f.Below m n → GivenUp f roots m) (fun p hp => ?_) (fun p hp c hc hback => ?_)
      (fun m hm ih hbelow => ?_) n h.lt_size (.refl h.lt_size))
    · exact hp.root_lt
    · exact hcircle ⟨p, ⟨c, hc, hback⟩, hp⟩
    · refine ⟨fun hroot => hlive (hbelow.trans_live (.root hroot hm)), fun p hp => ?_⟩
      have hp' := (Below.child (lt_size_of_mem_children hp) hp hm).trans hbelow
      exact ih p hp' hp hp'
  · rintro (hlive | ⟨p, ⟨c, hc, hback⟩, hbelow⟩)
    · exact hlive.kept
    · have hp : Kept f roots p :=
        ⟨hback.lt_size, fun hgiven => hgiven.not_belowItself ⟨c, hc, hback⟩⟩
      induction hbelow with
      | root hmem _ => exact List.mem_singleton.1 hmem ▸ hp
      | held _ hc hlt ih => exact ih.held hc hlt

/-- Where there is no circle above, to be kept is to be live. -/
theorem Kept.live (h : Kept f roots n)
    (hacyclic : ∀ p, f.Below p n → ∀ c ∈ f.children p, ¬ f.Below c p) : Live f roots n := by
  rcases kept_iff.1 h with hlive | ⟨p, ⟨c, hc, hback⟩, hbelow⟩
  · exact hlive
  · exact absurd hback (hacyclic p hbelow c hc)

/-! ## Links along a subtree -/

/-- Where every child below `n` is linked to its holder, there is no broken link to be found. -/
theorem brokenWithin_eq_none : ∀ (depth : Nat) (n : NodeId), n < f.size → f.Closed →
    (∀ m, f.Below n m → ∀ c ∈ f.children m, f.link c = some m) →
    f.brokenWithin depth n = none := by
  intro depth
  induction depth with
  | zero => intro n _ _ _; rfl
  | succ depth ih =>
    intro n hn hclosed hlinks
    rw [brokenWithin, List.findSome?_eq_none_iff]
    intro c hc
    rw [if_pos (hlinks n (.refl hn) c hc)]
    have hlt := hclosed n c hc
    exact ih c hlt hclosed fun m hm => hlinks m ((Below.child hn hc hlt).trans hm)

/-- The check of links succeeds where every child is linked to its holder. -/
theorem verifyLinks_eq_ok (hn : n < f.size) (hclosed : f.Closed)
    (hlinks : ∀ m, f.Below n m → ∀ c ∈ f.children m, f.link c = some m) :
    f.verifyLinks n = (.ok (), f) := by
  rw [verifyLinks, brokenLink?, brokenWithin_eq_none f.size n hn hclosed hlinks]

end SyntaxForest.Forest
