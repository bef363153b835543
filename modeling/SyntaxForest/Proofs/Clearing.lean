import SyntaxForest.Proofs.Ascents
import SyntaxForest.Proofs.Routes

/-!
# Clearing bindings

To clear the bindings of a node is to drop its store of annotations and those of everything below
it. The recursion goes down as many levels as there are records and comes to the nodes of the
listing (`clearWithin_wiped`). For an acyclic subtree the listing has exactly the nodes of the
subtree, so that no store there is left and no other store is touched. What has been dropped was
not needed by anything: annotations name nodes without keeping them, so the same nodes are live.

Main statement: `Forest.clearBindings_wipes`.
-/

namespace SyntaxForest

namespace Forest

variable {f g : Forest} {ns : List NodeId} {n m : NodeId}

theorem Wiped.live_iff (h : Wiped f g ns) {roots : List NodeId} : Live g roots m ↔ Live f roots m :=
  ⟨fun hm => hm.congr h.size_eq h.children_eq,
    fun hm => hm.congr h.size_eq.symm fun j => (h.children_eq j).symm⟩

/-! ## Main statement -/

/-- **Clearing wipes exactly the subtree.** Let the subtree of `n` be acyclic, whatever is shared
there. When the bindings of `n` are cleared, no node of the subtree has a store any more, in
whichever field of which node it is held, and so every lookup there finds nothing. All other nodes
are as they were, with their stores, also those that name nodes of the subtree. Of every record
everything but the store is as it was, no record has been added, and the same nodes are live. -/
theorem clearBindings_wipes (hacyclic : f.AcyclicBelow n) :
    (∀ m, f.Below n m → ((f.clearBindings n).record m).annotations = none ∧
      (∀ key, (f.clearBindings n).annotationAt m key = none) ∧
      ∀ φ ∈ (f.kind m).sharedFields ++ (f.kind m).ownFields, ∀ c ∈ f.occupants m φ,
        ((f.clearBindings n).record c).annotations = none) ∧
    (∀ m, ¬ f.Below n m → (f.clearBindings n).record m = f.record m) ∧
    (∀ m, { (f.clearBindings n).record m with annotations := (f.record m).annotations } =
      f.record m) ∧
    (f.clearBindings n).size = f.size ∧
    ∀ roots m, Live (f.clearBindings n) roots m ↔ Live f roots m := by
  have hwiped : Wiped f (f.clearBindings n) (f.preorder n) := clearWithin_wiped f.size f n
  have hgone : ∀ m, f.Below n m → ((f.clearBindings n).record m).annotations = none := by
    intro m hm
    rw [hwiped.record_eq, if_pos ((hacyclic.mem_preorder_iff hm.lt_size).2 hm)]
    rfl
  have hout : ∀ m, f.size ≤ m → (f.clearBindings n).record m = default := fun m hm =>
    record_of_size_le (hwiped.size_eq ▸ hm)
  refine ⟨fun m hm => ⟨hgone m hm, fun key => ?_, fun φ hφ c hc => ?_⟩, fun m hm => ?_,
    hwiped.record_but_annotations, hwiped.size_eq, fun _ _ => hwiped.live_iff⟩
  · rw [annotationAt, hgone m hm]
    rfl
  · by_cases hlt : c < f.size
    · exact hgone c (.held hm (List.mem_flatMap.2 ⟨φ, hφ, hc⟩) hlt)
    · rw [hout c (Nat.le_of_not_lt hlt)]
      rfl
  · by_cases hlt : m < f.size
    · exact hwiped.record_of_not_mem fun hmem => hm ((hacyclic.mem_preorder_iff hlt).1 hmem)
    · rw [hout m (Nat.le_of_not_lt hlt), record_of_size_le (Nat.le_of_not_lt hlt)]

end Forest

namespace World

/-- The macro statement of `nested`, with a further one in its body, which has no body of its own,
and with annotations: inside, on the argument that is there twice and on the modifier, and outside,
on the macro statement and on a node that is held by nothing. Those outside name the argument. -/
def annotated : List Move :=
  nested ++
  [.call (.construct {} (.macroStatement "n") []),
   .call (.change 6 (.edit .statements (.append 8))),
   .call (.construct {} (.reference "y") []),
   .call (.amend 0 (.remark "type" (.text "int"))),
   .call (.amend 5 (.remark "folded" (.flag true))),
   .call (.amend 7 (.remark "entity" (.node 0))),
   .call (.amend 9 (.remark "uses" (.list [.node 0, .node 3]))),
   .hold [7, 9]]

end World

namespace Forest

/-- Clearing the body of the outer macro statement; the inner one is given none. -/
theorem clearBindings_wipes_annotated :
    let f := (World.annotated.foldl World.after {}).forest
    let g := f.clearBindings 6
    (f.AcyclicBelow 6 ∧ f.annotationAt 0 "type" = some (.text "int") ∧
      f.annotationAt 5 "folded" = some (.flag true)) ∧
    (g.annotationAt 0 "type" = none ∧ (g.record 5).annotations = none) ∧
    (g.annotationAt 7 "entity" = some (.node 0) ∧
      g.annotationAt 9 "uses" = some (.list [.node 0, .node 3])) ∧
    g.size = 10 ∧ Live g [7, 9] 8 := by
  have hacyclic : (World.annotated.foldl World.after {}).forest.AcyclicBelow 6 := by
    decide +kernel
  obtain ⟨hgone, hkept, -, hsize, hlive⟩ := clearBindings_wipes hacyclic
  refine ⟨⟨hacyclic, by decide +kernel, by decide +kernel⟩,
    ⟨(hgone 0 (by decide +kernel)).2.1 _, (hgone 5 (by decide +kernel)).1⟩, ⟨?_, ?_⟩,
    hsize.trans (by decide +kernel), (hlive _ _).2 (by decide +kernel)⟩
  · rw [annotationAt, hkept 7 (by decide +kernel)]
    decide +kernel
  · rw [annotationAt, hkept 9 (by decide +kernel)]
    decide +kernel

end Forest

end SyntaxForest
