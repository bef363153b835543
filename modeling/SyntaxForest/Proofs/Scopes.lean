import SyntaxForest.Proofs.Ascents
import SyntaxForest.Proofs.Visibility

/-!
# The scope at a position

The scope at a position is found in two searches that know nothing of each other. The first goes
down from a root to the node at the position, along contents, and decides by locations where to
turn. The second goes up from that node to the nearest block, along links, and takes no notice of
the root. Where the link check passes they go along the same nodes: there is one way down to the
node that is found, and going up from it is this way down backwards, and then what is above the
root. So the scope is the deepest block on the way down, whether or not it has a location; and if
there is none on the way, it is the first block above the root.

Main statement: `World.scopeAt_deepest`.
-/

namespace SyntaxForest

namespace Forest

variable {f : Forest} {n d : NodeId} {pos : Position} {line : List NodeId}

/-! ## Down to a node -/

theorem exists_wayDown_of_below (h : f.Below n d) : ∃ line, f.WayDown n line d := by
  induction h with
  | root hr _ => exact ⟨[], wayDown_nil.2 (List.mem_singleton.1 hr)⟩
  | @held p c _ hc _ ih =>
    obtain ⟨line, hline⟩ := ih
    exact ⟨line ++ [p], wayDown_concat.2 ⟨hline, hc⟩⟩

theorem WayDown.below_of_mem (hclosed : f.Closed) (hn : n < f.size) (h : f.WayDown n line d) :
    ∀ a ∈ line ++ [d], f.Below n a := by
  induction line using List.reverseRecOn generalizing d with
  | nil =>
    intro a ha
    rw [List.mem_singleton.1 ha]
    exact h.below hclosed hn
  | append_singleton line p ih =>
    intro a ha
    rcases List.mem_append.1 ha with ha | ha
    · exact ih (wayDown_concat.1 h).1 a ha
    · rw [List.mem_singleton.1 ha]
      exact h.below hclosed hn

theorem below_of_locate (h : f.locate n pos = some d) : f.Below n d := by
  obtain ⟨route, hvisible, -⟩ := isLast_of_locateWithin f.size h
  exact hvisible.below

/-! ## Up to a block -/

theorem enclosingScope_eq_find? (f : Forest) (live : Marks) (n : NodeId) :
    f.enclosingScope live n = (n :: f.ancestors live n).find? fun a => f.kind a = .block := by
  rw [enclosingScope, List.find?_cons]
  by_cases hn : f.kind n = .block <;> simp [hn]

end Forest

namespace World

open Forest

variable {w : World} {r d : NodeId} {line above : List NodeId}

/-- The innermost node at a position. -/
def nodeAt (w : World) (root : NodeId) (pos : Position) : Option NodeId :=
  (w.forest.nodeAt root pos).1

/-- The scope that applies at a position. -/
def scopeAt (w : World) (root : NodeId) (pos : Position) : Option NodeId :=
  (w.forest.scopeAt (w.forest.kept w.hands) root pos).1

/-- The nearest block at or above a node. -/
def enclosingScope (w : World) (n : NodeId) : Option NodeId :=
  w.forest.enclosingScope (w.forest.kept w.hands) n

theorem scopeAt_eq (w : World) (root : NodeId) (pos : Position) :
    w.scopeAt root pos = (w.nodeAt root pos).bind w.enclosingScope := rfl

/-- **The nearest block is looked for on the way down, backwards, and then above the root.** -/
theorem enclosingScope_of_wayDown (hlinked : w.forest.Linked r) (hclosed : w.forest.Closed)
    (hr : w.Live r) (habove : w.Ascends r above) (hway : w.forest.WayDown r line d) :
    w.enclosingScope d =
      ((line ++ [d]).reverse ++ above).find? fun a => w.forest.kind a = .block := by
  have hascends := (ascends_iff_of_wayDown hlinked hclosed hr hway).2 ⟨above, habove, rfl⟩
  have hancestors : w.forest.ancestors (w.forest.kept w.hands) d = line.reverse ++ above :=
    hascends.ancestors_eq
  rw [enclosingScope, enclosingScope_eq_find?, hancestors]
  simp

/-- The last block on the way down is met first on the way up. -/
theorem find?_deepest {before after : List NodeId} {s : NodeId}
    (hline : line = before ++ s :: after) (hs : w.forest.kind s = .block)
    (hafter : ∀ a ∈ after, w.forest.kind a ≠ .block) :
    (line.reverse ++ above).find? (fun a => w.forest.kind a = .block) = some s := by
  rw [List.find?_eq_some_iff_append]
  refine ⟨decide_eq_true hs, after.reverse, before.reverse ++ above, ?_, fun a ha => ?_⟩
  · simp [hline]
  · simpa using hafter a (List.mem_reverse.1 ha)

/-- Where there is no block on the way down, the search goes on above the root. -/
theorem find?_above (hline : ∀ a ∈ line, w.forest.kind a ≠ .block) :
    (line.reverse ++ above).find? (fun a => w.forest.kind a = .block) =
      above.find? fun a => w.forest.kind a = .block := by
  have hnone : line.reverse.find? (fun a => w.forest.kind a = .block) = none := by
    rw [List.find?_eq_none]
    intro a ha
    simpa using hline a (List.mem_reverse.1 ha)
  rw [List.find?_append, hnone, Option.none_or]

/-- From a block there is a block on every way down, so the search does not go beyond it. -/
theorem find?_of_block (hblock : w.forest.kind r = .block) (hway : w.forest.WayDown r line d)
    (above : List NodeId) :
    ∃ s ∈ line ++ [d], w.forest.kind s = .block ∧
      ((line ++ [d]).reverse ++ above).find? (fun a => w.forest.kind a = .block) = some s := by
  have hroot : r ∈ (line ++ [d]).reverse := List.mem_reverse.2 (List.mem_of_head? hway.start)
  obtain ⟨s, hs⟩ := Option.isSome_iff_exists.1 (List.find?_isSome
    (p := fun a => decide (w.forest.kind a = .block)).2 ⟨r, hroot, decide_eq_true hblock⟩)
  refine ⟨s, List.mem_reverse.1 (List.mem_of_find?_eq_some hs),
    by simpa using List.find?_some hs, ?_⟩
  rw [List.find?_append, hs, Option.some_or]

/-! ## Main statement -/

/-- **The scope is the deepest enclosing block.** Take a reachable world and a live root around
which nothing lies below itself, and let the link check pass there. Where no node is found, there
is no scope. Where `d` is found, there is one way down to `d`; going up from `d` comes to an end
and meets this way backwards and then the ancestors of the root; and the scope is the last block on
the way down, or, if there is none, the first block among the ancestors of the root, if any. So if
the root is a block itself, there is a scope just in case a node is found, and it is a block of
the subtree. Whether blocks have locations does not matter. -/
theorem scopeAt_deepest {w : World} (hw : w.Reachable) {r : NodeId} (hr : w.Live r)
    (hacyclic : w.AcyclicAround r)
    (hverified : w.forest.verifyLinks r = (.ok (), w.forest)) (pos : Position) :
    (w.nodeAt r pos = none → w.scopeAt r pos = none) ∧
    (∀ d, w.nodeAt r pos = some d → ∃ line, w.forest.WayDown r line d ∧
      (∀ other, w.forest.WayDown r other d → other = line) ∧
      w.Ascends d (line.reverse ++ w.ancestors r) ∧
      (∀ before s after, line ++ [d] = before ++ s :: after → w.forest.kind s = .block →
        (∀ a ∈ after, w.forest.kind a ≠ .block) → w.scopeAt r pos = some s) ∧
      ((∀ a ∈ line ++ [d], w.forest.kind a ≠ .block) →
        w.scopeAt r pos = (w.ancestors r).find? fun a => w.forest.kind a = .block)) ∧
    (w.forest.kind r = .block →
      ((w.scopeAt r pos).isSome = (w.nodeAt r pos).isSome) ∧
      ∀ s, w.scopeAt r pos = some s → w.forest.kind s = .block ∧ w.forest.Below r s) := by
  have hclosed := hw.regular.closed
  have hsubtree := hacyclic.acyclicBelow
  have hlinked : w.forest.Linked r :=
    (linked_iff hclosed hr.lt_size fun m hm hmem => hsubtree m hm r hmem hm).2 hverified
  obtain ⟨above, habove⟩ := hacyclic.exists_ascends hw.regular hr.lt_size
  have hfound : ∀ d, w.nodeAt r pos = some d → ∃ line, w.forest.WayDown r line d ∧
      w.scopeAt r pos =
        ((line ++ [d]).reverse ++ above).find? fun a => w.forest.kind a = .block := by
    intro d hd
    obtain ⟨line, hway⟩ := exists_wayDown_of_below (below_of_locate hd)
    refine ⟨line, hway, ?_⟩
    rw [scopeAt_eq, hd]
    exact enclosingScope_of_wayDown hlinked hclosed hr habove hway
  have hnone : w.nodeAt r pos = none → w.scopeAt r pos = none := by
    intro hnone
    rw [scopeAt_eq, hnone]
    rfl
  refine ⟨hnone, fun d hd => ?_, fun hblock => ?_⟩
  · obtain ⟨line, hway, hscope⟩ := hfound d hd
    rw [habove.ancestors_eq, hscope]
    refine ⟨line, hway, fun other hother => hlinked.wayDown_unique hclosed hr.lt_size hother hway,
      (ascends_iff_of_wayDown hlinked hclosed hr hway).2 ⟨above, habove, rfl⟩,
      fun before s after => find?_deepest, find?_above⟩
  · cases hd : w.nodeAt r pos with
    | none => simp [hnone hd]
    | some d =>
      obtain ⟨line, hway, hscope⟩ := hfound d hd
      obtain ⟨s, hmem, hs, hfind⟩ := find?_of_block hblock hway above
      refine ⟨by rw [hscope, hfind]; rfl, fun t ht => ?_⟩
      obtain rfl : s = t := Option.some.inj ((hscope.trans hfind).symm.trans ht)
      exact ⟨hs, hway.below_of_mem hclosed hr.lt_size s hmem⟩

/-- A macro statement on three lines in a block; its body is a block as well, with one statement
that returns `x`. None of the blocks has a location. -/
def bodyWithoutLocation : List Move :=
  let span (line first last : UInt32) : Location :=
    { startLine := line, startColumn := first, endLine := line, endColumn := last }
  [.call (.construct (span 2 10 11) (.reference "x") []),
   .call (.construct (span 2 3 12) .returnStatement [.single .expression (some 0)]),
   .call (.construct {} .block [.sequence .statements [1]]),
   .call (.construct { span 1 1 9 with endLine := 3 } (.macroStatement "m") []),
   .call (.change 3 (.assign .block (some 2))),
   .call (.construct {} .block [.sequence .statements [3]]),
   .hold [4]]

/-- From the macro statement: in `x` the scope is the body, and in the line above it is the block
above the root. From the body there is a scope where there is a node. -/
theorem scopeAt_deepest_bodyWithoutLocation :
    let w := bodyWithoutLocation.foldl after {}
    (w.AcyclicAround 3 ∧ w.AcyclicAround 2) ∧
    (w.nodeAt 3 ⟨2, 10⟩ = some 0 ∧ w.scopeAt 3 ⟨2, 10⟩ = some 2) ∧
    (w.nodeAt 3 ⟨1, 4⟩ = some 3 ∧ w.scopeAt 3 ⟨1, 4⟩ = some 4) ∧
    w.scopeAt 3 ⟨9, 1⟩ = none ∧
    (w.scopeAt 2 ⟨2, 5⟩).isSome = true ∧ (w.scopeAt 2 ⟨1, 4⟩).isSome = false := by
  have hw : (bodyWithoutLocation.foldl after {}).Reachable :=
    .of_allows (.refl _) (by decide +kernel)
  have houter : (bodyWithoutLocation.foldl after {}).AcyclicAround 3 := by decide +kernel
  have hinner : (bodyWithoutLocation.foldl after {}).AcyclicAround 2 := by decide +kernel
  have hverified : ∀ n < 5, (bodyWithoutLocation.foldl after {}).forest.verifyLinks n =
      (.ok (), (bodyWithoutLocation.foldl after {}).forest) := fun n hn =>
    verifyLinks_eq_ok_iff.2 (by revert n; decide +kernel)
  have hin : (bodyWithoutLocation.foldl after {}).nodeAt 3 ⟨2, 10⟩ = some 0 := by decide +kernel
  have hout : (bodyWithoutLocation.foldl after {}).nodeAt 3 ⟨1, 4⟩ = some 3 := by decide +kernel
  have hfrom := scopeAt_deepest hw (r := 3) (by decide +kernel) houter (hverified 3 (by decide))
  have hblock := fun pos => (scopeAt_deepest hw (r := 2) (by decide +kernel) hinner
    (hverified 2 (by decide)) pos).2.2 (by decide +kernel)
  obtain ⟨line, -, honly, -, hdeepest, -⟩ := (hfrom ⟨2, 10⟩).2.1 0 hin
  obtain rfl := honly [3, 2, 1] (by decide +kernel)
  obtain ⟨line, -, honly, -, -, hnoBlock⟩ := (hfrom ⟨1, 4⟩).2.1 3 hout
  obtain rfl := honly [] (by decide +kernel)
  refine ⟨⟨houter, hinner⟩, ⟨hin, ?_⟩, ⟨hout, ?_⟩, (hfrom ⟨9, 1⟩).1 (by decide +kernel), ?_, ?_⟩
  · exact hdeepest [3] 2 [1, 0] rfl (by decide +kernel) (by decide +kernel)
  · rw [hnoBlock (by decide +kernel)]
    decide +kernel
  · rw [(hblock ⟨2, 5⟩).1]
    decide +kernel
  · rw [(hblock ⟨1, 4⟩).1]
    decide +kernel

end World

end SyntaxForest
