import SyntaxForest.Forest.Query
import SyntaxForest.Proofs.Routes
import SyntaxForest.Proofs.Worlds

/-!
# The node at a position

The search for the node at a position goes down from a root and carries along the best candidate
so far. A node whose location contains the position becomes the candidate, and is given up again
for whatever is found later. Below a node whose location is known and does not contain the
position nothing is looked for.

`Visible` says which occurrences of nodes count, without the search: the location is known and
contains the position, and so do all known locations on the route to it. No more is asked of
locations. They may be missing, overlap, or stick out of the location of the node above.

A candidate makes no difference to what is found after it (`locateWithin_eq_or`), and so one level
of the search is the last thing that is found below a child, or else the node itself
(`locateWithin_succ`). Going down a number of levels, the search finds the last visible node on
routes shorter than that (`isLast_of_locateWithin`), and in an acyclic subtree these are all that
there are.

Main statement: `nodeAt_exact`.
-/

namespace SyntaxForest

namespace Forest

open Route

variable {f : Forest} {pos : Position} {n m k c root : NodeId} {route rest : Route} {depth : Nat}

/-! ## What can be seen -/

/-- Nothing on the route hides the position: where a location is known, it contains it. -/
def Clear (f : Forest) (pos : Position) (root : NodeId) (route : Route) : Prop :=
  ∀ up, up <+: route → ∀ k, f.descend root up = some k →
    (f.record k).location.isUnknown = false → (f.record k).location.contains pos = true

/-- The route from `root` leads to `m`, the location of `m` is known and contains the position, and
nothing on the route hides it. -/
structure Visible (f : Forest) (pos : Position) (root : NodeId) (route : Route) (m : NodeId) :
    Prop where
  ends : f.descend root route = some m
  known : (f.record m).location.isUnknown = false
  contains : (f.record m).location.contains pos = true
  clear : f.Clear pos root route

/-- `m` is what can be seen last from `root`. -/
def LastVisible (f : Forest) (pos : Position) (root m : NodeId) : Prop :=
  ∃ route, f.Visible pos root route m ∧ IsLast (fun r => ∃ k, f.Visible pos root r k) route

/-- At the root, only its own location can be in the way. -/
theorem clear_nil : f.Clear pos n [] ↔ ((f.record n).location.isUnknown = false →
    (f.record n).location.contains pos = true) := by
  constructor
  · exact fun h => h [] List.nil_prefix n rfl
  · rintro h up hup k hk
    obtain rfl := List.prefix_nil.1 hup
    obtain rfl := Option.some.inj hk
    exact h

/-- A route is clear if its first node hides nothing and the rest of it is clear. -/
theorem clear_cons {i : Nat} (hc : (f.children n)[i]? = some c) :
    f.Clear pos n (i :: route) ↔ f.Clear pos n [] ∧ f.Clear pos c route := by
  constructor
  · refine fun h => ⟨fun up hup => h up (hup.trans List.nil_prefix), fun up hup k hk => ?_⟩
    exact h (i :: up) (List.cons_prefix_cons.2 ⟨rfl, hup⟩) k
      (descend_cons_eq_some.2 ⟨c, hc, hk⟩)
  · rintro ⟨hn, hroute⟩ up hup k hk
    rcases List.prefix_cons_iff.1 hup with rfl | ⟨below, rfl, hbelow⟩
    · exact hn [] List.nil_prefix k hk
    · obtain ⟨d, hd, hk⟩ := descend_cons_eq_some.1 hk
      obtain rfl := Option.some.inj (hc.symm.trans hd)
      exact hroute below hbelow k hk

/-- A route that is made of two is clear if both are. -/
theorem clear_append (hm : f.descend n route = some m) :
    f.Clear pos n (route ++ rest) ↔ f.Clear pos n route ∧ f.Clear pos m rest := by
  induction route generalizing n with
  | nil =>
    obtain rfl := Option.some.inj hm
    exact ⟨fun h => ⟨fun up hup => h up (hup.trans List.nil_prefix), h⟩, And.right⟩
  | cons i route ih =>
    obtain ⟨c, hc, hm⟩ := descend_cons_eq_some.1 hm
    rw [List.cons_append, clear_cons hc, clear_cons hc, ih hm, and_assoc]

/-- A node that is visible on the way to another hides nothing of it. -/
theorem visible_append (hm : f.descend n route = some m) : f.Visible pos n (route ++ rest) k ↔
    f.Clear pos n route ∧ f.Visible pos m rest k := by
  have hends : f.descend n (route ++ rest) = f.descend m rest := by
    rw [descend_append, hm, Option.bind_some]
  constructor
  · rintro ⟨hk, hknown, hcontains, hclear⟩
    obtain ⟨hroute, hrest⟩ := (clear_append hm).1 hclear
    exact ⟨hroute, hends.symm.trans hk, hknown, hcontains, hrest⟩
  · rintro ⟨hroute, hk, hknown, hcontains, hrest⟩
    exact ⟨hends.trans hk, hknown, hcontains, (clear_append hm).2 ⟨hroute, hrest⟩⟩

/-- The root is visible if its location contains the position. -/
theorem visible_nil : f.Visible pos n [] m ↔
    (f.record n).location.contains pos = true ∧ m = n := by
  constructor
  · rintro ⟨hm, -, hcontains, -⟩
    obtain rfl := Option.some.inj hm
    exact ⟨hcontains, rfl⟩
  · rintro ⟨hcontains, rfl⟩
    exact ⟨rfl, (Location.contains_iff.1 hcontains).1, hcontains,
      clear_nil.2 fun _ => hcontains⟩

/-- What is visible further down is visible from a child, as long as the root does not hide it. -/
theorem visible_cons {i : Nat} : f.Visible pos n (i :: route) m ↔
    f.Clear pos n [] ∧ ∃ c, (f.children n)[i]? = some c ∧ f.Visible pos c route m := by
  constructor
  · rintro ⟨hm, hknown, hcontains, hclear⟩
    obtain ⟨c, hc, hm⟩ := descend_cons_eq_some.1 hm
    obtain ⟨hn, hroute⟩ := (clear_cons hc).1 hclear
    exact ⟨hn, c, hc, hm, hknown, hcontains, hroute⟩
  · rintro ⟨hn, c, hc, hm, hknown, hcontains, hroute⟩
    exact ⟨descend_cons_eq_some.2 ⟨c, hc, hm⟩, hknown, hcontains, (clear_cons hc).2 ⟨hn, hroute⟩⟩

/-! ## The search without its candidate -/

/-- If each call but adds to what has been found, the last one that finds something counts. -/
theorem foldl_eq_findSome? {search : NodeId → Option NodeId → Option NodeId}
    (hsearch : ∀ c found, search c found = (search c none).or found) :
    ∀ (cs : List NodeId) (found : Option NodeId), cs.foldl (fun found c => search c found) found =
      (cs.reverse.findSome? fun c => search c none).or found := by
  intro cs
  induction cs with
  | nil => intro found; rfl
  | cons c cs ih =>
    intro found
    rw [List.foldl_cons, ih, hsearch, List.reverse_cons, List.findSome?_append,
      List.findSome?_singleton, Option.or_assoc]

/-- What has been found before is kept if nothing else is found. -/
theorem locateWithin_eq_or : ∀ (depth : Nat) (n : NodeId) (found : Option NodeId),
    f.locateWithin pos depth n found = (f.locateWithin pos depth n none).or found := by
  intro depth
  induction depth with
  | zero => intro n found; rfl
  | succ depth ih =>
    intro n found
    simp only [locateWithin, foldl_eq_findSome? ih]
    split
    · rw [Option.or_none]
    · split
      · rw [Option.or_assoc, Option.some_or]
      · rfl

/-- **One level of the search.** -/
theorem locateWithin_succ : f.locateWithin pos (depth + 1) n none =
    if (f.record n).location.isUnknown then
      (f.children n).reverse.findSome? fun c => f.locateWithin pos depth c none
    else if (f.record n).location.contains pos then
      ((f.children n).reverse.findSome? fun c => f.locateWithin pos depth c none).or (some n)
    else none := by
  simp only [locateWithin, foldl_eq_findSome? (locateWithin_eq_or depth), Option.or_none]

/-- The last of the searches that finds something. -/
theorem reverse_findSome?_eq_some {search : NodeId → Option NodeId} {cs : List NodeId}
    (h : cs.reverse.findSome? search = some m) : ∃ before k after, cs = before ++ k :: after ∧
      search k = some m ∧ ∀ c ∈ after, search c = none := by
  obtain ⟨after, k, before, hcs, hk, hafter⟩ := List.findSome?_eq_some_iff.1 h
  refine ⟨before.reverse, k, after.reverse, ?_, hk, fun c hc => hafter c (List.mem_reverse.1 hc)⟩
  rw [← List.reverse_reverse cs, hcs]
  simp

/-! ## Level by level -/

/-- Something can be seen at the end of the route, which is shorter than the given number of
steps. -/
def VisibleWithin (f : Forest) (pos : Position) (depth : Nat) (n : NodeId) (route : Route) :
    Prop :=
  route.length < depth ∧ ∃ m, f.Visible pos n route m

/-- One level of what can be seen: the node itself, or something through one of its children. This
is the case distinction of the search. -/
theorem visibleWithin_succ : f.VisibleWithin pos (depth + 1) n route ↔
    route = [] ∧ (f.record n).location.contains pos = true ∨
      f.Clear pos n [] ∧ Through (f.children n) (f.VisibleWithin pos depth) route := by
  cases route with
  | nil => simp [VisibleWithin, visible_nil, Through]
  | cons i route =>
    constructor
    · rintro ⟨hlength, m, hm⟩
      obtain ⟨hn, c, hc, hm⟩ := visible_cons.1 hm
      exact .inr ⟨hn, c, hc, Nat.lt_of_succ_lt_succ hlength, m, hm⟩
    · rintro (⟨hroute, -⟩ | ⟨hn, c, hc, hlength, m, hm⟩)
      · exact absurd hroute (by simp)
      · exact ⟨Nat.succ_lt_succ hlength, m, visible_cons.2 ⟨hn, c, hc, hm⟩⟩

/-- Where the search finds nothing there is nothing to be seen. -/
theorem not_visibleWithin_of_locateWithin : ∀ (depth : Nat) {n : NodeId},
    f.locateWithin pos depth n none = none → ∀ route, ¬ f.VisibleWithin pos depth n route := by
  intro depth
  induction depth with
  | zero => intro n _ route h; exact Nat.not_lt_zero _ h.1
  | succ depth ih =>
    intro n hnone route
    rw [locateWithin_succ] at hnone
    rw [visibleWithin_succ]
    split at hnone
    · next hunknown =>
      rw [List.findSome?_eq_none_iff] at hnone
      rintro (⟨-, hcontains⟩ | ⟨-, hthrough⟩)
      · exact absurd ((Location.contains_iff.1 hcontains).1.symm.trans hunknown) (by simp)
      · exact not_through (fun c hc => ih (hnone c (List.mem_reverse.2 hc))) route hthrough
    · next hknown =>
      split at hnone
      · exact absurd hnone (by simp)
      · next houtside =>
        rintro (⟨-, hcontains⟩ | ⟨hclear, -⟩)
        · exact houtside hcontains
        · exact houtside (clear_nil.1 hclear (Bool.eq_false_iff.2 hknown))

/-- What is seen last below a node is seen last from it. -/
theorem isLast_of_through (hclear : f.Clear pos n []) {i : Nat}
    (h : IsLast (Through (f.children n) (f.VisibleWithin pos depth)) (i :: route)) :
    IsLast (f.VisibleWithin pos (depth + 1) n) (i :: route) := by
  refine ⟨visibleWithin_succ.2 (.inr ⟨hclear, h.1⟩), fun s hs => ?_⟩
  rcases visibleWithin_succ.1 hs with ⟨rfl, -⟩ | ⟨-, hs⟩
  · exact not_precedes_nil
  · exact h.2 s hs

/-- What the last child in which something is found has to show. -/
theorem isLast_of_findSome? (hclear : f.Clear pos n [])
    (ih : ∀ {c m}, f.locateWithin pos depth c none = some m →
      ∃ route, f.Visible pos c route m ∧ IsLast (f.VisibleWithin pos depth c) route)
    (h : (f.children n).reverse.findSome? (fun c => f.locateWithin pos depth c none) = some m) :
    ∃ route, f.Visible pos n route m ∧ IsLast (f.VisibleWithin pos (depth + 1) n) route := by
  obtain ⟨before, k, after, hchildren, hk, hafter⟩ := reverse_findSome?_eq_some h
  obtain ⟨route, hm, hlast⟩ := ih hk
  have hplace : (f.children n)[before.length]? = some k := by simp [hchildren]
  refine ⟨before.length :: route, visible_cons.2 ⟨hclear, k, hplace, hm⟩,
    isLast_of_through hclear (isLast_through hchildren (fun c hc => ?_) hlast)⟩
  exact not_visibleWithin_of_locateWithin depth (hafter c hc)

/-- **The search finds what can be seen last** on routes shorter than it goes down. -/
theorem isLast_of_locateWithin : ∀ (depth : Nat) {n m : NodeId},
    f.locateWithin pos depth n none = some m →
    ∃ route, f.Visible pos n route m ∧ IsLast (f.VisibleWithin pos depth n) route := by
  intro depth
  induction depth with
  | zero => intro n m h; exact absurd h (by simp [locateWithin])
  | succ depth ih =>
    intro n m h
    rw [locateWithin_succ] at h
    split at h
    · next hunknown =>
      refine isLast_of_findSome? (clear_nil.2 fun hknown => ?_) ih h
      exact absurd (hknown.symm.trans hunknown) (by simp)
    · split at h
      · next hcontains =>
        have hclear : f.Clear pos n [] := clear_nil.2 fun _ => hcontains
        rcases hbelow : (f.children n).reverse.findSome? (fun c => f.locateWithin pos depth c none)
          with _ | k
        · -- nothing is found below, so it is the node itself
          rw [hbelow, Option.none_or] at h
          obtain rfl := Option.some.inj h
          rw [List.findSome?_eq_none_iff] at hbelow
          refine ⟨[], visible_nil.2 ⟨hcontains, rfl⟩,
            visibleWithin_succ.2 (.inl ⟨rfl, hcontains⟩), fun s hs => ?_⟩
          rcases visibleWithin_succ.1 hs with ⟨rfl, -⟩ | ⟨-, hs⟩
          · exact not_precedes_nil
          · exact absurd hs (not_through (fun c hc =>
              not_visibleWithin_of_locateWithin depth (hbelow c (List.mem_reverse.2 hc))) s)
        · rw [hbelow, Option.some_or] at h
          obtain rfl := Option.some.inj h
          exact isLast_of_findSome? hclear ih hbelow
      · exact absurd h (by simp)

/-! ## The whole subtree -/

/-- Only what is in the store has a location. -/
theorem Visible.lt_size (h : f.Visible pos n route m) : m < f.size := by
  apply Decidable.byContradiction
  intro hm
  have hknown := h.known
  rw [record_of_size_le (Nat.le_of_not_lt hm)] at hknown
  exact absurd hknown (by decide)

theorem Visible.below (h : f.Visible pos n route m) : f.Below n m :=
  below_of_descend h.lt_size h.ends

/-- No route of an acyclic tree is longer than the search goes. -/
theorem AcyclicBelow.visibleWithin_iff (h : f.AcyclicBelow n) :
    f.VisibleWithin pos f.size n route ↔ ∃ m, f.Visible pos n route m :=
  ⟨And.right, fun ⟨m, hm⟩ => ⟨h.length_lt hm.lt_size hm.ends, m, hm⟩⟩

/-- Nothing is found just if nothing is visible. -/
theorem AcyclicBelow.locate_eq_none_iff (h : f.AcyclicBelow n) :
    f.locate n pos = none ↔ ∀ route m, ¬ f.Visible pos n route m := by
  constructor
  · intro hnone route m hm
    exact not_visibleWithin_of_locateWithin f.size hnone route (h.visibleWithin_iff.2 ⟨m, hm⟩)
  · intro hnone
    rcases hfound : f.locate n pos with _ | m
    · rfl
    · obtain ⟨route, hm, -⟩ := isLast_of_locateWithin f.size hfound
      exact absurd hm (hnone route m)

/-- What is found is the last that is visible. -/
theorem AcyclicBelow.lastVisible_of_locate (h : f.AcyclicBelow n)
    (hfound : f.locate n pos = some m) : f.LastVisible pos n m := by
  obtain ⟨route, hm, hlast⟩ := isLast_of_locateWithin f.size hfound
  exact ⟨route, hm, hlast.congr fun _ => h.visibleWithin_iff⟩

/-- There is one last route, and it ends in one node. -/
theorem LastVisible.unique (hm : f.LastVisible pos n m) (hk : f.LastVisible pos n k) : m = k := by
  obtain ⟨r, hr, hlast⟩ := hm
  obtain ⟨s, hs, hlast'⟩ := hk
  obtain rfl := hlast.unique hlast'
  exact Option.some.inj (hr.ends.symm.trans hs.ends)

/-- **The search finds what is visible last**, and nothing else. -/
theorem AcyclicBelow.locate_eq_some_iff (h : f.AcyclicBelow n) :
    f.locate n pos = some m ↔ f.LastVisible pos n m := by
  refine ⟨h.lastVisible_of_locate, fun hm => ?_⟩
  rcases hfound : f.locate n pos with _ | k
  · obtain ⟨route, hvisible, -⟩ := hm
    exact absurd hvisible (h.locate_eq_none_iff.1 hfound route m)
  · rw [(h.lastVisible_of_locate hfound).unique hm]

/-- From no place in which it occurs does the last visible node let anything be seen below it. -/
theorem LastVisible.not_visible_append (h : f.LastVisible pos root m)
    (hm : f.descend root route = some m) (hrest : rest ≠ []) :
    ¬ f.Visible pos root (route ++ rest) k := by
  intro hk
  obtain ⟨last, hvisible, hlast⟩ := h
  -- seen below it in one place, it would be seen below it in the last
  have hbelow := ((visible_append hm).1 hk).2
  exact hlast.2 (last ++ rest) ⟨k, (visible_append hvisible.ends).2 ⟨hvisible.clear, hbelow⟩⟩
    (precedes_append hrest)

/-- A node without a location hides nothing, and is nothing to be found. -/
theorem AcyclicBelow.locate_eq_none_of_isUnknown (h : f.AcyclicBelow n)
    (hunknown : (f.record n).location.isUnknown = true) :
    f.locate n pos = none ↔ ∀ c ∈ f.children n, f.locate c pos = none := by
  have hknown : ¬ (f.record n).location.isUnknown = false := by simp [hunknown]
  have hchild : ∀ c ∈ f.children n, f.AcyclicBelow c := fun c hc m hm =>
    h m ((Below.child (lt_size_of_mem_children hc) hc hm.lt_size_left).trans hm)
  rw [h.locate_eq_none_iff]
  constructor
  · intro hnone c hc
    obtain ⟨i, hi⟩ := List.getElem?_of_mem hc
    refine (hchild c hc).locate_eq_none_iff.2 fun route m hm => hnone (i :: route) m ?_
    exact visible_cons.2 ⟨clear_nil.2 fun hk => absurd hk hknown, c, hi, hm⟩
  · rintro hnone (_ | ⟨i, route⟩) m hm
    · exact hknown (Location.contains_iff.1 (visible_nil.1 hm).1).1
    · obtain ⟨-, c, hc, hm⟩ := visible_cons.1 hm
      have hmem := List.mem_of_getElem? hc
      exact (hchild c hmem).locate_eq_none_iff.1 (hnone c hmem) route m hm

/-- **The search is exact.** In an acyclic subtree, wherever its locations are, it answers with
nothing just in case nothing can be seen, and otherwise with what can be seen last. That is a node
whose location is known and contains the position, and below which nothing can be seen, wherever
it occurs. A node without a location hides nothing: nothing is found from it just in case nothing
is found from any of its children. -/
theorem nodeAt_exact {f : Forest} {root : NodeId} (hacyclic : f.AcyclicBelow root)
    (pos : Position) :
    ((f.nodeAt root pos).1 = none ↔ ∀ route m, ¬ f.Visible pos root route m) ∧
    (∀ m, (f.nodeAt root pos).1 = some m ↔ f.LastVisible pos root m) ∧
    (∀ m, (f.nodeAt root pos).1 = some m →
      ((f.record m).location.isUnknown = false ∧ (f.record m).location.contains pos = true) ∧
      ∀ route rest k, f.descend root route = some m → rest ≠ [] →
        ¬ f.Visible pos root (route ++ rest) k) ∧
    ∀ n, f.Below root n → (f.record n).location.isUnknown = true →
      ((f.nodeAt n pos).1 = none ↔ ∀ c ∈ f.children n, (f.nodeAt c pos).1 = none) := by
  refine ⟨hacyclic.locate_eq_none_iff, fun m => hacyclic.locate_eq_some_iff, fun m hm => ?_,
    fun n hn hunknown => (hacyclic.of_below hn).locate_eq_none_of_isUnknown hunknown⟩
  have hlast := hacyclic.lastVisible_of_locate hm
  refine ⟨?_, fun route rest k hroute hrest => hlast.not_visible_append hroute hrest⟩
  obtain ⟨route, hvisible, -⟩ := hlast
  exact ⟨hvisible.known, hvisible.contains⟩

end Forest

namespace World

/-- On one line: `a` and `b` side by side, so that they share a position, in a sum and a statement
without locations. A second statement is on another line, though the name in it is where `a` and
`b` meet. Both are in a block that spans all of it. -/
def sideBySide : List Move :=
  let span (line first last : UInt32) : Location :=
    { startLine := line, startColumn := first, endLine := line, endColumn := last }
  [.call (.construct (span 1 1 3) (.reference "a") []),
   .call (.construct (span 1 3 5) (.reference "b") []),
   .call (.construct {} (.binary .addition) [.single .left (some 0), .single .right (some 1)]),
   .call (.construct {} .expressionStatement [.single .expression (some 2)]),
   .call (.construct (span 1 2 4) (.reference "c") []),
   .call (.construct (span 2 1 9) .expressionStatement [.single .expression (some 4)]),
   .call (.construct { span 1 1 0 with endLine := 3 } .block [.sequence .statements [3, 5]]),
   .hold [6]]

end World

namespace Forest

/-- Where `a` and `b` meet it is `b` that is found; between the statements and the end of the block
it is the block; and from the sum alone nothing is found there. -/
theorem nodeAt_exact_sideBySide :
    let f := (World.sideBySide.foldl World.after {}).forest
    f.AcyclicBelow 6 ∧
      (f.LastVisible ⟨1, 3⟩ 6 1 ∧
        ∀ route rest k, f.descend 6 route = some 1 → rest ≠ [] →
          ¬ f.Visible ⟨1, 3⟩ 6 (route ++ rest) k) ∧
      (f.nodeAt 6 ⟨2, 12⟩).1 = some 6 ∧
      (∀ route m, ¬ f.Visible ⟨2, 12⟩ 2 route m) ∧
      ∀ c ∈ f.children 2, (f.nodeAt c ⟨2, 12⟩).1 = none := by
  have hacyclic : (World.sideBySide.foldl World.after {}).forest.AcyclicBelow 6 := by
    decide +kernel
  have hsum : (World.sideBySide.foldl World.after {}).forest.AcyclicBelow 2 := by decide +kernel
  obtain ⟨-, hlast, hinnermost, -⟩ := nodeAt_exact hacyclic ⟨1, 3⟩
  obtain ⟨hnone, -, -, hunknown⟩ := nodeAt_exact hsum ⟨2, 12⟩
  refine ⟨hacyclic, ⟨(hlast 1).1 (by decide +kernel), (hinnermost 1 (by decide +kernel)).2⟩,
    by decide +kernel, hnone.1 (by decide +kernel), ?_⟩
  exact (hunknown 2 (by decide +kernel) (by decide +kernel)).1 (by decide +kernel)

end Forest

end SyntaxForest
