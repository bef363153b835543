import SyntaxForest.Proofs.Routes
import SyntaxForest.Proofs.Worlds

/-!
# What the link check finds

The check goes down from a node and stops at the first child whose link does not lead to its
holder. Here "first" is said without the check: a holder and a child are a step of a route, the
last one, and steps come in the order of routes (`BrokenAt`, `FirstBroken`). A child may be held
in several places, and then may be the cause of several broken steps, or of none in one place and
one in another; each place has a route of its own.

The check interleaves looking at a child with going down to what is below it, so that one level
of it is the first route through one of the children: either the child itself is wrong, and
nothing below it comes before that, or the first broken step is further down (`brokenUpTo_succ`).
Going down a number of levels, the check finds the first broken step on routes of that length
(`isFirst_of_brokenWithin`). In an acyclic subtree these are all.

Main statement: `verifyLinks_exact`.
-/

namespace SyntaxForest

namespace Forest

open Route

variable {f : Forest} {n c p : NodeId} {route : Route} {depth : Nat}

/-- The last step of the route leads from `p` to its child `c`, whose link does not lead to
`p`. -/
def BrokenAt (f : Forest) (n : NodeId) (route : Route) (c p : NodeId) : Prop :=
  ∃ up i, route = up ++ [i] ∧ f.descend n up = some p ∧ (f.children p)[i]? = some c ∧
    f.link c ≠ some p

/-- The first broken step below `n` leads from `p` to its child `c`. -/
def FirstBroken (f : Forest) (n c p : NodeId) : Prop :=
  ∃ route, f.BrokenAt n route c p ∧ IsFirst (fun r => ∃ c p, f.BrokenAt n r c p) route

/-! ## Broken steps -/

theorem BrokenAt.below (h : f.BrokenAt n route c p) :
    f.Below n p ∧ c ∈ f.children p ∧ f.link c ≠ some p := by
  obtain ⟨up, i, -, hp, hc, hlink⟩ := h
  have hmem := List.mem_of_getElem? hc
  exact ⟨below_of_descend (lt_size_of_mem_children hmem) hp, hmem, hlink⟩

theorem exists_brokenAt (hp : f.Below n p) (hc : c ∈ f.children p) (hlink : f.link c ≠ some p) :
    ∃ route, f.BrokenAt n route c p := by
  obtain ⟨up, hup⟩ := exists_descend_of_below hp
  obtain ⟨i, hi⟩ := List.getElem?_of_mem hc
  exact ⟨up ++ [i], up, i, rfl, hup, hi, hlink⟩

/-- A broken step is the first step of its route, or lies below the node that this leads to. -/
theorem brokenAt_cons {i : Nat} : f.BrokenAt n (i :: route) c p ↔
    ∃ k, (f.children n)[i]? = some k ∧
      (route = [] ∧ f.link k ≠ some n ∧ c = k ∧ p = n ∨ f.BrokenAt k route c p) := by
  constructor
  · rintro ⟨up, j, hroute, hp, hc, hlink⟩
    cases up with
    | nil =>
      obtain ⟨rfl, rfl⟩ := List.cons.inj hroute
      obtain rfl := Option.some.inj hp
      exact ⟨c, hc, .inl ⟨rfl, hlink, rfl, rfl⟩⟩
    | cons i' up =>
      obtain ⟨rfl, rfl⟩ := List.cons.inj hroute
      obtain ⟨k, hk, hp⟩ := descend_cons_eq_some.1 hp
      exact ⟨k, hk, .inr ⟨up, j, rfl, hp, hc, hlink⟩⟩
  · rintro ⟨k, hk, ⟨rfl, hlink, rfl, rfl⟩ | ⟨up, j, rfl, hp, hc, hlink⟩⟩
    · exact ⟨[], i, rfl, rfl, hk, hlink⟩
    · exact ⟨i :: up, j, rfl, descend_cons_eq_some.2 ⟨k, hk, hp⟩, hc, hlink⟩

/-! ## Level by level -/

/-- The route ends with a broken step and has no more than the given number of steps. -/
def BrokenUpTo (f : Forest) (depth : Nat) (n : NodeId) (route : Route) : Prop :=
  route.length ≤ depth ∧ ∃ c p, f.BrokenAt n route c p

theorem not_brokenUpTo_zero : ¬ f.BrokenUpTo 0 n route := by
  rintro ⟨hlength, c, p, up, i, rfl, -⟩
  rw [List.length_append, List.length_singleton] at hlength
  omega

theorem brokenUpTo_succ : f.BrokenUpTo (depth + 1) n route ↔
    Through (f.children n)
      (fun k r => r = [] ∧ f.link k ≠ some n ∨ f.BrokenUpTo depth k r) route := by
  cases route with
  | nil =>
    constructor
    · rintro ⟨-, c, p, up, i, hroute, -⟩
      exact absurd hroute (by simp)
    · exact False.elim
  | cons i route =>
    constructor
    · rintro ⟨hlength, c, p, hbroken⟩
      obtain ⟨k, hk, ⟨rfl, hlink, -, -⟩ | hbroken⟩ := brokenAt_cons.1 hbroken
      · exact ⟨k, hk, .inl ⟨rfl, hlink⟩⟩
      · exact ⟨k, hk, .inr ⟨Nat.le_of_succ_le_succ hlength, c, p, hbroken⟩⟩
    · rintro ⟨k, hk, ⟨rfl, hlink⟩ | ⟨hlength, c, p, hbroken⟩⟩
      · exact ⟨by simp, k, n, brokenAt_cons.2 ⟨k, hk, .inl ⟨rfl, hlink, rfl, rfl⟩⟩⟩
      · exact ⟨Nat.succ_le_succ hlength, c, p, brokenAt_cons.2 ⟨k, hk, .inr hbroken⟩⟩

/-- Where the check finds nothing there is nothing to be found. -/
theorem not_brokenUpTo_of_brokenWithin : ∀ (depth : Nat) {n : NodeId},
    f.brokenWithin depth n = none → ∀ route, ¬ f.BrokenUpTo depth n route := by
  intro depth
  induction depth with
  | zero => intro n _ route; exact not_brokenUpTo_zero
  | succ depth ih =>
    intro n hnone route
    rw [brokenUpTo_succ]
    refine not_through (fun k hk r => ?_) route
    obtain ⟨hlink, hnone⟩ := brokenWithin_succ_eq_none.1 hnone k hk
    rintro (⟨-, hwrong⟩ | hbroken)
    · exact hwrong hlink
    · exact ih hnone r hbroken

/-- **The check finds the first broken step** on routes of as many steps as it goes down. -/
theorem isFirst_of_brokenWithin : ∀ (depth : Nat) {n c p : NodeId},
    f.brokenWithin depth n = some (c, p) →
    ∃ route, f.BrokenAt n route c p ∧ IsFirst (f.BrokenUpTo depth n) route := by
  intro depth
  induction depth with
  | zero => intro n c p h; exact absurd h (by simp [brokenWithin])
  | succ depth ih =>
    intro n c p h
    rw [brokenWithin, List.findSome?_eq_some_iff] at h
    obtain ⟨before, k, after, hchildren, hk, hbefore⟩ := h
    have hplace : (f.children n)[before.length]? = some k := by simp [hchildren]
    -- the children before `k` are linked to `n`, and nothing is wrong below them
    have hright : ∀ x ∈ before, ∀ r,
        ¬ (r = [] ∧ f.link x ≠ some n ∨ f.BrokenUpTo depth x r) := by
      intro x hx r
      have hnone := hbefore x hx
      split at hnone
      · next hlink =>
        rintro (⟨-, hwrong⟩ | hbroken)
        · exact hwrong hlink
        · exact not_brokenUpTo_of_brokenWithin depth hnone r hbroken
      · exact absurd hnone (by simp)
    have hfirst : ∀ {r}, IsFirst
        (fun r => r = [] ∧ f.link k ≠ some n ∨ f.BrokenUpTo depth k r) r →
        IsFirst (f.BrokenUpTo (depth + 1) n) (before.length :: r) := fun hr =>
      (isFirst_through hchildren hright hr).congr fun _ => brokenUpTo_succ.symm
    split at hk
    · next hlink =>
      obtain ⟨r, hbroken, hr⟩ := ih hk
      refine ⟨before.length :: r, brokenAt_cons.2 ⟨k, hplace, .inr hbroken⟩,
        hfirst (hr.congr fun s => ?_)⟩
      simp [hlink]
    · next hlink =>
      obtain ⟨rfl, rfl⟩ := Prod.mk.inj (Option.some.inj hk)
      refine ⟨[before.length], brokenAt_cons.2 ⟨k, hplace, .inl ⟨rfl, hlink, rfl, rfl⟩⟩,
        hfirst ⟨.inl ⟨rfl, hlink⟩, fun s _ => not_precedes_nil⟩⟩

/-! ## The whole subtree -/

/-- An acyclic subtree has no broken step deeper down than the check goes. -/
theorem AcyclicBelow.brokenUpTo_iff (h : f.AcyclicBelow n) :
    f.BrokenUpTo f.size n route ↔ ∃ c p, f.BrokenAt n route c p := by
  refine ⟨And.right, fun ⟨c, p, hbroken⟩ => ⟨?_, c, p, hbroken⟩⟩
  obtain ⟨up, i, rfl, hp, hc, -⟩ := hbroken
  rw [List.length_append, List.length_singleton]
  exact h.length_lt (lt_size_of_mem_children (List.mem_of_getElem? hc)) hp

theorem AcyclicBelow.brokenLink?_eq_none_iff (h : f.AcyclicBelow n) :
    f.brokenLink? n = none ↔ ∀ m, f.Below n m → ∀ c ∈ f.children m, f.link c = some m := by
  constructor
  · intro hnone m hm c hc
    apply Decidable.byContradiction
    intro hlink
    obtain ⟨route, hbroken⟩ := exists_brokenAt hm hc hlink
    exact not_brokenUpTo_of_brokenWithin f.size hnone route (h.brokenUpTo_iff.2 ⟨c, m, hbroken⟩)
  · intro hlinks
    rcases hfound : f.brokenLink? n with _ | ⟨c, p⟩
    · rfl
    · obtain ⟨route, hbroken, -⟩ := isFirst_of_brokenWithin f.size hfound
      obtain ⟨hp, hc, hlink⟩ := hbroken.below
      exact absurd (hlinks p hp c hc) hlink

theorem AcyclicBelow.firstBroken_of_brokenLink? (h : f.AcyclicBelow n)
    (hfound : f.brokenLink? n = some (c, p)) : f.FirstBroken n c p := by
  obtain ⟨route, hbroken, hfirst⟩ := isFirst_of_brokenWithin f.size hfound
  exact ⟨route, hbroken, hfirst.congr fun _ => h.brokenUpTo_iff⟩

/-- **The link check is exact.** In an acyclic subtree, whatever is shared there and wherever links
lead, it passes just in case every child is linked to its holder. Otherwise it fails with the kinds
of the child and the holder of the first step for which this is not so, and notes that, with the
location of the child. Where it passes, no node is held by two. -/
theorem verifyLinks_exact {f : Forest} {r : NodeId} (hacyclic : f.AcyclicBelow r) :
    (f.verifyLinks r = (.ok (), f) ↔
      ∀ m, f.Below r m → ∀ c ∈ f.children m, f.link c = some m) ∧
    ((¬ ∀ m, f.Below r m → ∀ c ∈ f.children m, f.link c = some m) →
      ∃ c p, f.FirstBroken r c p ∧ f.verifyLinks r =
        (.error (.parentMismatch (f.kind c) (f.kind p)),
          f.note (.brokenLink (f.kind c) (f.kind p) (f.record c).location))) ∧
    (f.verifyLinks r = (.ok (), f) → ∀ p q c, f.Below r p → f.Below r q →
      c ∈ f.children p → c ∈ f.children q → p = q) := by
  have hok := verifyLinks_eq_ok_iff.trans hacyclic.brokenLink?_eq_none_iff
  refine ⟨hok, fun hwrong => ?_, fun hverified p q c hp hq hcp hcq => ?_⟩
  · rw [← hacyclic.brokenLink?_eq_none_iff] at hwrong
    obtain ⟨⟨c, p⟩, hfound⟩ := Option.ne_none_iff_exists'.1 hwrong
    refine ⟨c, p, hacyclic.firstBroken_of_brokenLink? hfound, ?_⟩
    rw [verifyLinks, hfound]
  · have hlinks := hok.1 hverified
    exact Option.some.inj ((hlinks p hp c hcp).symm.trans (hlinks q hq c hcq))

end Forest

namespace World

/-- The invocation `t(a + b, b)`, with `a` and `b` held by statements of their own as well, which
they have been given to last. -/
def lentOut : List Move :=
  [.call (.construct {} (.reference "a") []),
   .call (.construct {} (.reference "b") []),
   .call (.construct {} (.reference "t") []),
   .call (.construct {} (.binary .addition) [.single .left (some 0), .single .right (some 1)]),
   .call (.construct {} .methodInvocation
    [.single .target (some 2), .sequence .arguments [3, 1]]),
   .call (.construct {} .returnStatement [.single .expression (some 0)]),
   .call (.construct {} .expressionStatement [.single .expression (some 1)]),
   .hold [4, 5, 6]]

end World

namespace Forest

/-- Three steps are broken below the invocation; the one that counts is further down than the last
of them, and before it. -/
theorem verifyLinks_exact_lentOut :
    let f := (World.lentOut.foldl World.after {}).forest
    f.AcyclicBelow 4 ∧
      (∃ c p, f.FirstBroken 4 c p ∧ (f.verifyLinks 4).1 =
        .error (.parentMismatch (f.kind c) (f.kind p))) ∧
      (f.verifyLinks 4).1 = .error (.parentMismatch .reference .binary) ∧
      ∀ m, f.Below 6 m → ∀ c ∈ f.children m, f.link c = some m := by
  have hacyclic : (World.lentOut.foldl World.after {}).forest.AcyclicBelow 4 := by decide +kernel
  have hwrong : ¬ ∀ m, (World.lentOut.foldl World.after {}).forest.Below 4 m →
      ∀ c ∈ (World.lentOut.foldl World.after {}).forest.children m,
        (World.lentOut.foldl World.after {}).forest.link c = some m := by
    intro hlinks
    exact absurd (hlinks 3 (by decide +kernel) 0 (by decide +kernel)) (by decide +kernel)
  obtain ⟨c, p, hfirst, hverified⟩ := (verifyLinks_exact hacyclic).2.1 hwrong
  refine ⟨hacyclic, ⟨c, p, hfirst, congrArg Prod.fst hverified⟩, rfl, ?_⟩
  exact (verifyLinks_exact (by decide +kernel)).1.1 rfl

end Forest

end SyntaxForest
