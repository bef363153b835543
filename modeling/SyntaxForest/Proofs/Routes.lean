import SyntaxForest.Proofs.LinkedTrees
import SyntaxForest.Proofs.Rewiring
import Mathlib.Data.List.Lex

/-!
# Routes

In a subtree with shared nodes a node occurs more than once, and which occurrence is meant has to
be said. A *route* says it: from the root on, it has the place of the next node among all the
children of the node before. `descend` goes along a route.

Walks come to occurrences in an order that can be read off the routes, with no regard to what the
walk does: to a node before what is below it, and to all that is below a child before the next
child. That is the lexicographic order, `Precedes`. A search that stops at the first occurrence of
something, or that keeps the last one, goes through the children of a node one after the other,
and so what it finds is on the first or last route through some child: `isFirst_through` and
`isLast_through`.

The recursive operations go down as many levels as there are records. `AcyclicBelow.length_lt`
says what that is good for: an acyclic subtree has no route longer than that, since along a route
no record occurs twice. So the listing of an acyclic subtree, which has the ends of all routes up
to that length, has all of its nodes (`AcyclicBelow.mem_preorder_iff`).
-/

namespace SyntaxForest

/-- A way down: at each node the place of the next one among its children. -/
abbrev Route := List Nat

namespace Route

/-- Walks come to the end of the first route before they come to the end of the second, which
goes on from there or turns off to a later child. -/
def Precedes (r s : Route) : Prop := List.Lex (· < ·) r s

instance (r s : Route) : Decidable (Precedes r s) :=
  inferInstanceAs (Decidable (List.Lex (· < ·) r s))

/-- Of the routes with a property, the one that walks come to first. -/
def IsFirst (P : Route → Prop) (r : Route) : Prop := P r ∧ ∀ s, P s → ¬ Precedes s r

/-- Of the routes with a property, the one that walks come to last. -/
def IsLast (P : Route → Prop) (r : Route) : Prop := P r ∧ ∀ s, P s → ¬ Precedes r s

variable {P P' : Route → Prop} {Q : NodeId → Route → Prop} {r s : Route} {k : NodeId}
  {cs before after : List NodeId}

theorem not_precedes_nil : ¬ Precedes r [] := List.not_lex_nil

/-- A node comes before what is below it. -/
theorem precedes_append (hs : s ≠ []) : Precedes r (r ++ s) := by
  obtain ⟨i, s, rfl⟩ := List.exists_cons_of_ne_nil hs
  have happend := List.Lex.append_left (· < ·) (List.Lex.nil (a := i) (l := s)) r
  rwa [List.append_nil] at happend

-- a node, what is below it, and then its next sibling
example : Precedes [1] [1, 4] ∧ Precedes [1, 4] [2] := by decide

theorem IsLast.unique (hr : IsLast P r) (hs : IsLast P s) : r = s :=
  Std.Trichotomous.trichotomous (r := List.Lex (· < ·)) r s (hr.2 s hs.1) (hs.2 r hr.1)

theorem IsFirst.congr (h : IsFirst P r) (hP : ∀ s, P s ↔ P' s) : IsFirst P' r :=
  ⟨(hP r).1 h.1, fun s hs => h.2 s ((hP s).2 hs)⟩

theorem IsLast.congr (h : IsLast P r) (hP : ∀ s, P s ↔ P' s) : IsLast P' r :=
  ⟨(hP r).1 h.1, fun s hs => h.2 s ((hP s).2 hs)⟩

/-! ## Routes through one of several nodes -/

/-- The route goes to a node of the list and then on as `Q` says. -/
def Through (cs : List NodeId) (Q : NodeId → Route → Prop) : Route → Prop
  | [] => False
  | i :: r => ∃ c, cs[i]? = some c ∧ Q c r

theorem not_through (h : ∀ c ∈ cs, ∀ r, ¬ Q c r) : ∀ r, ¬ Through cs Q r
  | [], hr => hr
  | _ :: r, ⟨c, hc, hQ⟩ => h c (List.mem_of_getElem? hc) r hQ

/-- The first route goes through the first node that has one. -/
theorem isFirst_through (hcs : cs = before ++ k :: after)
    (hbefore : ∀ c ∈ before, ∀ r, ¬ Q c r) (hr : IsFirst (Q k) r) :
    IsFirst (Through cs Q) (before.length :: r) := by
  subst hcs
  refine ⟨⟨k, by simp, hr.1⟩, ?_⟩
  rintro (_ | ⟨i, s⟩) hs hprecedes
  · exact hs
  · obtain ⟨c, hc, hQ⟩ := hs
    rcases List.cons_lex_cons_iff.1 hprecedes with hlt | ⟨rfl, hlex⟩
    · rw [List.getElem?_append_left hlt] at hc
      exact hbefore c (List.mem_of_getElem? hc) s hQ
    · obtain rfl : k = c := by simpa using hc
      exact hr.2 s hQ hlex

/-- The last route goes through the last node that has one. -/
theorem isLast_through (hcs : cs = before ++ k :: after)
    (hafter : ∀ c ∈ after, ∀ r, ¬ Q c r) (hr : IsLast (Q k) r) :
    IsLast (Through cs Q) (before.length :: r) := by
  subst hcs
  refine ⟨⟨k, by simp, hr.1⟩, ?_⟩
  rintro (_ | ⟨i, s⟩) hs hprecedes
  · exact hs
  · obtain ⟨c, hc, hQ⟩ := hs
    rcases List.cons_lex_cons_iff.1 hprecedes with hlt | ⟨rfl, hlex⟩
    · obtain ⟨j, rfl⟩ : ∃ j, i = before.length + (j + 1) := ⟨i - before.length - 1, by omega⟩
      rw [List.getElem?_append_right (Nat.le_add_right _ _), Nat.add_sub_cancel_left,
        List.getElem?_cons_succ] at hc
      exact hafter c (List.mem_of_getElem? hc) s hQ
    · obtain rfl : k = c := by simpa using hc
      exact hr.2 s hQ hlex

end Route

namespace Forest

variable {f : Forest} {n m : NodeId} {route rest : Route}

/-! ## Where a route ends -/

/-- The node at the end of a route. -/
def descend (f : Forest) : NodeId → Route → Option NodeId
  | n, [] => some n
  | n, i :: route => (f.children n)[i]?.bind fun c => descend f c route

theorem descend_cons_eq_some {i : Nat} : f.descend n (i :: route) = some m ↔
    ∃ c, (f.children n)[i]? = some c ∧ f.descend c route = some m :=
  Option.bind_eq_some_iff

theorem descend_append : f.descend n (route ++ rest) =
    (f.descend n route).bind fun m => f.descend m rest := by
  induction route generalizing n with
  | nil => rfl
  | cons i route ih =>
    simp only [List.cons_append, descend, ih, Option.bind_assoc]

/-- Only in the store is there a way down. -/
theorem Below.lt_size_left (h : f.Below n m) : n < f.size := by
  rcases h.eq_or_child with rfl | ⟨c, hc, -⟩
  · exact h.lt_size
  · exact lt_size_of_mem_children hc

/-- A route that ends in the store ends below its start. -/
theorem below_of_descend (hm : m < f.size) (h : f.descend n route = some m) : f.Below n m := by
  induction route generalizing n with
  | nil =>
    obtain rfl := Option.some.inj h
    exact .refl hm
  | cons i route ih =>
    obtain ⟨c, hc, h⟩ := descend_cons_eq_some.1 h
    have hmem := List.mem_of_getElem? hc
    have hbelow := ih h
    exact (Below.child (lt_size_of_mem_children hmem) hmem hbelow.lt_size_left).trans hbelow

theorem exists_descend_of_below (h : f.Below n m) : ∃ route, f.descend n route = some m := by
  induction h with
  | root hr _ => exact ⟨[], by rw [List.mem_singleton.1 hr]; rfl⟩
  | @held p c _ hc _ ih =>
    obtain ⟨route, hroute⟩ := ih
    obtain ⟨i, hi⟩ := List.getElem?_of_mem hc
    refine ⟨route ++ [i], ?_⟩
    rw [descend_append, hroute, Option.bind_some]
    exact descend_cons_eq_some.2 ⟨c, hi, rfl⟩

/-! ## How long routes are -/

/-- Going down one step leaves a node behind for good. -/
theorem AcyclicBelow.length_lt_card (hm : m < f.size) : ∀ (route : Route) (nodes : Finset NodeId)
    (n : NodeId), f.AcyclicBelow n → (∀ k, f.Below n k → k ∈ nodes) →
    f.descend n route = some m → route.length < nodes.card := by
  intro route
  induction route with
  | nil =>
    intro nodes n _ hnodes h
    obtain rfl := Option.some.inj h
    exact Finset.card_pos.2 ⟨n, hnodes n (.refl hm)⟩
  | cons i route ih =>
    intro nodes n hacyclic hnodes h
    obtain ⟨c, hc, h⟩ := descend_cons_eq_some.1 h
    have hmem := List.mem_of_getElem? hc
    have hn := Below.refl (lt_size_of_mem_children hmem)
    have hbelow := Below.child hn.lt_size hmem (below_of_descend hm h).lt_size_left
    have hrest : route.length < (nodes.erase n).card := by
      refine ih (nodes.erase n) c (hacyclic.of_below hbelow) (fun k hk => ?_) h
      refine Finset.mem_erase.2 ⟨?_, hnodes k (hbelow.trans hk)⟩
      rintro rfl
      exact hacyclic k hn c hmem hk
    rw [Finset.card_erase_of_mem (hnodes n hn)] at hrest
    rw [List.length_cons]
    omega

/-- **The store has room for every route** in an acyclic subtree. -/
theorem AcyclicBelow.length_lt (h : f.AcyclicBelow n) (hm : m < f.size)
    (hroute : f.descend n route = some m) : route.length < f.size := by
  have hlength := length_lt_card hm route (Finset.range f.size) n h
    (fun _ hk => Finset.mem_range.2 hk.lt_size) hroute
  rwa [Finset.card_range] at hlength

/-! ## Where the nodes of a listing are -/

/-- A listing has the ends of all routes that are shorter than it goes down. -/
theorem mem_preorderWithin : ∀ {depth : Nat} {n : NodeId}, m ∈ f.preorderWithin depth n ↔
    ∃ route : Route, route.length < depth ∧ f.descend n route = some m := by
  intro depth
  induction depth with
  | zero => intro n; simp [preorderWithin]
  | succ depth ih =>
    intro n
    rw [preorderWithin, List.mem_cons, List.mem_flatMap]
    constructor
    · rintro (rfl | ⟨c, hc, hm⟩)
      · exact ⟨[], Nat.succ_pos depth, rfl⟩
      · obtain ⟨i, hi⟩ := List.getElem?_of_mem hc
        obtain ⟨route, hlength, hroute⟩ := ih.1 hm
        exact ⟨i :: route, Nat.succ_lt_succ hlength, descend_cons_eq_some.2 ⟨c, hi, hroute⟩⟩
    · rintro ⟨_ | ⟨i, route⟩, hlength, hroute⟩
      · exact .inl (Option.some.inj hroute).symm
      · obtain ⟨c, hc, hroute⟩ := descend_cons_eq_some.1 hroute
        exact .inr ⟨c, List.mem_of_getElem? hc,
          ih.2 ⟨route, Nat.lt_of_succ_lt_succ hlength, hroute⟩⟩

/-- **The listing of an acyclic subtree has exactly the nodes of the subtree.** -/
theorem AcyclicBelow.mem_preorder_iff (h : f.AcyclicBelow n) (hm : m < f.size) :
    m ∈ f.preorder n ↔ f.Below n m := by
  rw [preorder, mem_preorderWithin]
  constructor
  · rintro ⟨route, -, hroute⟩
    exact below_of_descend hm hroute
  · intro hbelow
    obtain ⟨route, hroute⟩ := exists_descend_of_below hbelow
    exact ⟨route, h.length_lt hm hroute, hroute⟩

end Forest

end SyntaxForest
