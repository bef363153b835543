import SyntaxForest.Proofs.Traversals
import SyntaxForest.Proofs.Visibility

/-!
# Positions in nested spans

The search for the node at a position does not look below a node whose location is known and does
not contain the position. That saves work, and might miss something: nothing in a forest forces the
location of a node to lie within the location of its holder. `Nested` asks for this, along every
way down and across nodes without a location. There, what lies below a node that does not contain
the position does not contain it either, and the search answers like one that looks at every node
(`Nested.locateWithin_eq`). The exhaustive search is a walk whose client keeps the last node that
contains the position.

Locations may still overlap, and then the last node that contains the position is not the smallest.
It is if all nodes that contain the position are on one way down: none of them is further down than
the one that is found, since it would be visible there and be found later.

Main statement: `nodeAt_eq_exhaustive`.
-/

namespace SyntaxForest

namespace Location

variable {l k : Location} {pos : Position}

/-- The span of `l` lies within the span of `k`: it does not begin before and does not end after
it. -/
def Within (l k : Location) : Prop := k.first ≤ l.first ∧ l.last ≤ k.last

instance (l k : Location) : Decidable (l.Within k) :=
  inferInstanceAs (Decidable (k.first ≤ l.first ∧ l.last ≤ k.last))

theorem Within.contains (h : l.Within k) (hk : k.isUnknown = false)
    (hl : l.contains pos = true) : k.contains pos = true := by
  obtain ⟨-, hfirst, hlast⟩ := contains_iff.1 hl
  exact contains_iff.2 ⟨hk, Position.le_trans h.1 hfirst, Position.le_trans hlast h.2⟩

end Location

namespace Forest

variable {f : Forest} {pos : Position} {n m c root : NodeId} {route : Route}

/-! ## Nested spans -/

/-- On every way down from `root`, a known location lies within every known location further up. -/
def Nested (f : Forest) (root : NodeId) : Prop :=
  ∀ a, f.Below root a → (f.record a).location.isUnknown = false →
    ∀ b, f.Below a b → (f.record b).location.isUnknown = false →
      (f.record b).location.Within (f.record a).location

instance (f : Forest) (root : NodeId) : Decidable (f.Nested root) :=
  inferInstanceAs (Decidable (∀ a, f.Below root a → (f.record a).location.isUnknown = false →
    ∀ b, f.Below a b → (f.record b).location.isUnknown = false →
      (f.record b).location.Within (f.record a).location))

/-- Any two nodes below `root` that contain the position are on one way down. -/
def InLine (f : Forest) (pos : Position) (root : NodeId) : Prop :=
  ∀ a, f.Below root a → (f.record a).location.contains pos = true →
    ∀ b, f.Below root b → (f.record b).location.contains pos = true → f.Below a b ∨ f.Below b a

instance (f : Forest) (pos : Position) (root : NodeId) : Decidable (f.InLine pos root) :=
  inferInstanceAs (Decidable (∀ a, f.Below root a → (f.record a).location.contains pos = true →
    ∀ b, f.Below root b → (f.record b).location.contains pos = true →
      f.Below a b ∨ f.Below b a))

/-- What contains a position is in the store. -/
theorem lt_size_of_contains (h : (f.record m).location.contains pos = true) : m < f.size :=
  (visible_nil.2 ⟨h, rfl⟩).lt_size

namespace Nested

theorem child (h : f.Nested n) (hc : c ∈ f.children n) : f.Nested c := by
  intro a ha
  have hbelow := Below.child (lt_size_of_mem_children hc) hc ha.lt_size_left
  exact h a (hbelow.trans ha)

/-- A node that does not contain the position hides nothing that does. -/
theorem contains_of_below (h : f.Nested root) (hn : f.Below root n)
    (hknown : (f.record n).location.isUnknown = false) (hm : f.Below n m)
    (hcontains : (f.record m).location.contains pos = true) :
    (f.record n).location.contains pos = true :=
  (h n hn hknown m hm (Location.contains_iff.1 hcontains).1).contains hknown hcontains

/-- What contains the position can be seen, on whatever route. -/
theorem visible (h : f.Nested root) (hm : f.descend root route = some m)
    (hcontains : (f.record m).location.contains pos = true) : f.Visible pos root route m := by
  have hlt := lt_size_of_contains hcontains
  refine ⟨hm, (Location.contains_iff.1 hcontains).1, hcontains, fun up hup k hk hknown => ?_⟩
  obtain ⟨rest, rfl⟩ := hup
  rw [descend_append, hk, Option.bind_some] at hm
  have hbelow := below_of_descend hlt hm
  exact h.contains_of_below (below_of_descend hbelow.lt_size_left hk) hknown hbelow hcontains

end Nested

/-! ## The exhaustive search -/

/-- The client of a walk that keeps the last node whose location contains the position. -/
def keepContaining (pos : Position) (f : Forest) (n : NodeId) (found : Option NodeId) :
    Option NodeId :=
  if (f.record n).location.contains pos then some n else found

/-- The last node on a walk through the tree of `root` whose location contains the position. -/
def locateExhaustively (f : Forest) (root : NodeId) (pos : Position) : Option NodeId :=
  (forEach (looking (keepContaining pos)) f.size [] root (f, none)).2

theorem locateExhaustively_eq : f.locateExhaustively root pos =
    (f.preorder root).reverse.find? fun n => (f.record n).location.contains pos := by
  have hkeep : ∀ n found, keepContaining pos f n found =
      (keepContaining pos f n none).or found := by
    intro n found
    unfold keepContaining
    split <;> rfl
  rw [locateExhaustively, forEach, forEachWithin_looking, foldl_eq_findSome? hkeep, Option.or_none]
  exact List.findSome?_guard

/-- Nothing is left out: the exhaustive search fails only if there is nothing to be found. -/
theorem AcyclicBelow.locateExhaustively_eq_none_iff (h : f.AcyclicBelow root) :
    f.locateExhaustively root pos = none ↔
      ∀ n, f.Below root n → (f.record n).location.contains pos = false := by
  rw [locateExhaustively_eq, List.find?_eq_none]
  constructor
  · intro hnone n hn
    have hmem := (h.mem_preorder_iff hn.lt_size).2 hn
    exact Bool.eq_false_iff.2 (hnone n (List.mem_reverse.2 hmem))
  · intro hnone n hn hcontains
    have hbelow := (h.mem_preorder_iff (lt_size_of_contains hcontains)).1 (List.mem_reverse.1 hn)
    rw [hnone n hbelow] at hcontains
    exact Bool.false_ne_true hcontains

theorem findSome?_congr {search search' : NodeId → Option NodeId} {cs : List NodeId}
    (h : ∀ c ∈ cs, search c = search' c) : cs.findSome? search = cs.findSome? search' := by
  induction cs with
  | nil => rfl
  | cons c cs ih =>
    obtain ⟨hc, hcs⟩ := List.forall_mem_cons.1 h
    rw [List.findSome?_cons, List.findSome?_cons, hc, ih hcs]

/-- **Where spans are nested, nothing is lost by not looking.** -/
theorem Nested.locateWithin_eq : ∀ (depth : Nat) {n : NodeId}, f.Nested n →
    f.locateWithin pos depth n none =
      (f.preorderWithin depth n).reverse.find? fun m => (f.record m).location.contains pos := by
  intro depth
  induction depth with
  | zero => intro n _; rfl
  | succ depth ih =>
    intro n h
    have hbelow : (f.children n).reverse.findSome? (fun c => f.locateWithin pos depth c none) =
        ((f.children n).flatMap (f.preorderWithin depth)).reverse.find?
          fun m => (f.record m).location.contains pos := by
      rw [List.reverse_flatMap, List.find?_flatMap]
      exact findSome?_congr fun c hc => ih (h.child (List.mem_reverse.1 hc))
    rw [locateWithin_succ, hbelow, preorderWithin, List.reverse_cons, List.find?_append]
    by_cases hcontains : (f.record n).location.contains pos = true
    · have hknown := (Location.contains_iff.1 hcontains).1
      simp [hknown, hcontains]
    · rw [if_neg hcontains, List.find?_singleton, if_neg hcontains, Option.or_none]
      split
      · rfl
      · next hknown =>
        -- nothing is looked for below the node, and nothing would be found there
        symm
        rw [List.find?_eq_none]
        intro m hm hmcontains
        have hmem : m ∈ f.preorderWithin (depth + 1) n :=
          List.mem_cons_of_mem n (List.mem_reverse.1 hm)
        obtain ⟨route, -, hroute⟩ := mem_preorderWithin.1 hmem
        have hnm := below_of_descend (lt_size_of_contains hmcontains) hroute
        exact hcontains (h.contains_of_below (.refl hnm.lt_size_left)
          (Bool.eq_false_iff.2 hknown) hnm hmcontains)

/-! ## Main statement -/

/-- What the search finds is nowhere but on the way to what contains the position. -/
theorem LastVisible.below_of_inLine (h : f.LastVisible pos root m) (hnested : f.Nested root)
    (hline : f.InLine pos root) (hn : f.Below root n)
    (hcontains : (f.record n).location.contains pos = true) : f.Below n m := by
  have hlast := h
  obtain ⟨route, hvisible, -⟩ := h
  rcases hline n hn hcontains m hvisible.below hvisible.contains with hnm | hmn
  · exact hnm
  · obtain ⟨rest, hrest⟩ := exists_descend_of_below hmn
    cases rest with
    | nil =>
      obtain rfl := Option.some.inj hrest
      exact hmn
    | cons i rest =>
      -- further down it could be seen as well, and later
      have hends : f.descend root (route ++ i :: rest) = some n := by
        rw [descend_append, hvisible.ends, Option.bind_some, hrest]
      exact absurd (hnested.visible hends hcontains)
        (hlast.not_visible_append hvisible.ends (List.cons_ne_nil i rest))

/-- **In nested spans the search loses nothing.** Take an acyclic subtree in which, on every way
down, known locations lie within known locations further up. The search that does not look below
nodes that do not contain the position finds what a walk through all nodes finds: the last one that
contains it, and nothing just in case there is none. If moreover any two nodes that contain the
position are on one way down, then the node that is found lies within each of them. -/
theorem nodeAt_eq_exhaustive {f : Forest} {root : NodeId} (hacyclic : f.AcyclicBelow root)
    (hnested : f.Nested root) (pos : Position) :
    (f.nodeAt root pos).1 = f.locateExhaustively root pos ∧
    f.locateExhaustively root pos =
      (f.preorder root).reverse.find? (fun n => (f.record n).location.contains pos) ∧
    (f.locateExhaustively root pos = none ↔
      ∀ n, f.Below root n → (f.record n).location.contains pos = false) ∧
    (f.InLine pos root →
      ∀ n, f.Below root n → (f.record n).location.contains pos = true →
        ∃ m, (f.nodeAt root pos).1 = some m ∧ f.Below root m ∧
          (f.record m).location.contains pos = true ∧
          (f.record m).location.Within (f.record n).location) := by
  have hlocate : f.locate root pos = f.locateExhaustively root pos := by
    rw [locateExhaustively_eq]
    exact hnested.locateWithin_eq f.size
  refine ⟨hlocate, locateExhaustively_eq, hacyclic.locateExhaustively_eq_none_iff,
    fun hline n hn hcontains => ?_⟩
  have hfound : f.locate root pos ≠ none := by
    rw [hlocate, Ne, hacyclic.locateExhaustively_eq_none_iff]
    intro hnone
    rw [hnone n hn] at hcontains
    exact Bool.false_ne_true hcontains
  obtain ⟨m, hm⟩ := Option.ne_none_iff_exists'.1 hfound
  have hlast := hacyclic.lastVisible_of_locate hm
  have hnm := hlast.below_of_inLine hnested hline hn hcontains
  obtain ⟨route, hvisible, -⟩ := hlast
  exact ⟨m, hm, hvisible.below, hvisible.contains,
    hnested n hn (Location.contains_iff.1 hcontains).1 m hnm hvisible.known⟩

end Forest

namespace World

/-- A block on three lines. On the first line is a statement with the sum of `a` and `b`, which meet
at a position; the sum has no location. On the second line is the return of `c`, and it is the
return that has no location. -/
def threeLines : List Move :=
  let span (line first last : UInt32) : Location :=
    { startLine := line, startColumn := first, endLine := line, endColumn := last }
  [.call (.construct (span 1 4 5) (.reference "a") []),
   .call (.construct (span 1 5 6) (.reference "b") []),
   .call (.construct {} (.binary .addition) [.single .left (some 0), .single .right (some 1)]),
   .call (.construct (span 1 2 9) .expressionStatement [.single .expression (some 2)]),
   .call (.construct (span 2 7 8) (.reference "c") []),
   .call (.construct {} .returnStatement [.single .expression (some 4)]),
   .call (.construct { span 1 1 1 with endLine := 3 } .block [.sequence .statements [3, 5]]),
   .hold [6]]

end World

namespace Forest

/-- Where `a` and `b` meet, the later one is found. In `c` there is one way down, and so what is
found lies within the block. -/
theorem nodeAt_eq_exhaustive_threeLines :
    let f := (World.threeLines.foldl World.after {}).forest
    (f.AcyclicBelow 6 ∧ f.Nested 6) ∧
    ((f.nodeAt 6 ⟨1, 5⟩).1 = f.locateExhaustively 6 ⟨1, 5⟩ ∧ ¬ f.InLine ⟨1, 5⟩ 6 ∧
      f.locateExhaustively 6 ⟨1, 5⟩ = some 1) ∧
    (f.InLine ⟨2, 8⟩ 6 ∧ ∃ m, (f.nodeAt 6 ⟨2, 8⟩).1 = some m ∧ f.Below 6 m ∧
      (f.record m).location.contains ⟨2, 8⟩ = true ∧
      (f.record m).location.Within (f.record 6).location) ∧
    ∀ n, f.Below 6 n → (f.record n).location.contains ⟨4, 1⟩ = false := by
  have hacyclic : (World.threeLines.foldl World.after {}).forest.AcyclicBelow 6 := by
    decide +kernel
  have hnested : (World.threeLines.foldl World.after {}).forest.Nested 6 := by decide +kernel
  have hline : (World.threeLines.foldl World.after {}).forest.InLine ⟨2, 8⟩ 6 := by
    decide +kernel
  obtain ⟨hmeeting, -⟩ := nodeAt_eq_exhaustive hacyclic hnested ⟨1, 5⟩
  obtain ⟨-, -, -, hsmallest⟩ := nodeAt_eq_exhaustive hacyclic hnested ⟨2, 8⟩
  obtain ⟨-, -, hnone, -⟩ := nodeAt_eq_exhaustive hacyclic hnested ⟨4, 1⟩
  exact ⟨⟨hacyclic, hnested⟩, ⟨hmeeting, by decide +kernel, by decide +kernel⟩,
    ⟨hline, hsmallest hline 6 (by decide +kernel) (by decide +kernel)⟩,
    hnone.1 (by decide +kernel)⟩

end Forest

end SyntaxForest
