import SyntaxForest.Proofs.Worlds

/-!
# Copies are faithful, new and well linked

What a copy is, seen from outside. The source may be in any state that can come about, as long
as nothing in it lies below itself: nodes may be shared, held several times, and have links that
lead elsewhere. None of this is inherited. The copy has a node of its own for every place in the
source, and the links in it are in order.
-/

namespace SyntaxForest.World

open Forest

/-- The copy of an acyclic tree has no holder and mirrors its source. All its nodes are new,
none is in two places, and the links between them are in order. The two trees match either way,
and every record of before is as it was. -/
theorem copy_mirrors_source {w : World} (hw : w.Reachable) {n : NodeId} (hn : w.forest.IsNode n)
    (hacyclic : w.forest.AcyclicBelow n) :
    let k := (w.forest.copy n).1
    let g := (w.forest.copy n).2
    (g.IsNode k ∧ g.link k = none) ∧
      Mirrors w.forest g n k ∧
      (∀ m, g.Below k m → w.forest.size ≤ m) ∧
      (∀ way other m, g.follow k way = some m → g.follow k other = some m → way = other) ∧
      g.verifyLinks k = (.ok (), g) ∧
      (g.matchNodes k n = (true, g) ∧ g.matchNodes n k = (true, g)) ∧
      ∀ m < w.forest.size, g.record m = w.forest.record m := by
  have hclosed := hw.regular.closed
  obtain ⟨hs, hcopy⟩ := sprouted_copyWithin w.forest.size w.forest n hclosed hn.lt_size
    (hacyclic.fitsWithin hclosed hn.lt_size)
  intro k g
  have hs : Sprouted w.forest g := hs
  have hcopy : FreshCopy w.forest g n k := hcopy
  have hgclosed := hs.closed hclosed
  have hlt := hcopy.isNode.lt_size
  have hlinks : ∀ m, g.Below k m → ∀ c ∈ g.children m, g.link c = some m := fun m hm c hc =>
    (hs.held_new m hm.lt_size (hs.below_new hcopy.fresh hm).1 c hc).2.2
  have hnodup : ∀ m, g.Below k m → (g.children m).Nodup := fun m hm =>
    (hs.ordered m hm.lt_size (hs.below_new hcopy.fresh hm).1).imp Nat.ne_of_lt
  have hmirrors : Mirrors g g n k :=
    (Mirrors.grows_left hs.grows hclosed hn.lt_size).2 hcopy.mirrors
  refine ⟨⟨hcopy.isNode, hcopy.unlinked⟩, hcopy.mirrors,
    fun m hm => (hs.below_new hcopy.fresh hm).1, fun way other m hway hother => ?_,
    verifyLinks_eq_ok hlt hgclosed hlinks, ⟨hmirrors.symm.matchNodes_eq, hmirrors.matchNodes_eq⟩,
    hs.record_old⟩
  exact way_unique hgclosed hlt hcopy.unlinked hnodup hlinks hway hother

/-- A macro statement without a body that has one name twice as an argument. The link of the
name leads to another statement, and there are annotations on both. -/
def tangled : List Move :=
  [.call (.construct {} (.reference "a") []),
   .call (.construct {} (.macroStatement "m") [.sequence .arguments [0, 0]]),
   .call (.construct {} .expressionStatement [.single .expression (some 0)]),
   .call (.amend 0 (.documentation (some "shared"))),
   .call (.amend 1 (.remark "first" (.node 0)))]

theorem copy_mirrors_source_tangled :
    ((tangled.foldl after {}).forest.verifyLinks 1).1 ≠ .ok () ∧
      let g := ((tangled.foldl after {}).forest.copy 1).2
      g.verifyLinks 5 = (.ok (), g) := by
  have hw : (tangled.foldl after {}).Reachable := .of_allows (.refl _) (by decide +kernel)
  have hcopy := copy_mirrors_source hw (n := 1) (by decide +kernel) (by decide +kernel)
  have hk : ((tangled.foldl after {}).forest.copy 1).1 = 5 := by decide +kernel
  rw [hk] at hcopy
  exact ⟨by decide +kernel, hcopy.2.2.2.2.1⟩

end SyntaxForest.World
