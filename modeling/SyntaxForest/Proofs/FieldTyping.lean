import SyntaxForest.Proofs.BackLinks

/-!
# Fields hold what they are declared to hold

A field declares a category, and every way of placing a node into it either looks at the kind of
the node or makes the node itself: the body of a macro statement is created as a block, and a
copy has the kind of what it is a copy of. A field also knows the node that it belongs to. It
belongs to nobody while there is only a draft, and a failure on the way to a node leaves it like
that.

`Forest.Typed` says both of all fields of all records. It holds of every forest that can come
about, with no discipline at all, and of those that a client sees in the middle of a walk.
-/

namespace SyntaxForest

/-- The kinds that can be found in a field. -/
def Field.Admits : Field → Kind → Prop
  | .single .modifier, k => k = .statementModifier
  | .single .block, k => k = .block
  | .sequence .statements, k => k.category = .statement
  | .single _, k | .sequence .arguments, k => k.category = .expression

theorem Field.accepts_category_iff (φ : Field) (k : Kind) :
    φ.category.accepts k = true ↔ φ.Admits k := by
  rcases φ with ⟨_ | _⟩ | ⟨_ | _⟩ <;>
    simp [Field.category, SingleField.category, SequenceField.category, Category.accepts, Admits]

namespace Forest

/-- Every field holds nodes of its category only, and belongs to the node that has it, or to
nobody if there is no node yet. -/
structure Typed (f : Forest) : Prop where
  accepted : ∀ {p φ c}, φ ∈ (f.kind p).fields → c ∈ f.occupants p φ →
    f.IsNode c ∧ φ.category.accepts (f.kind c) = true ∧ φ.Admits (f.kind c)
  owned : ∀ {p φ}, φ ∈ (f.kind p).fields →
    f.owner p φ = if f.IsNode p then some p else none

theorem Regular.typed {f : Forest} (h : f.Regular) : f.Typed where
  accepted hφ hc :=
    have hfit := h.accepted hφ hc
    ⟨h.isNode_of_mem (mem_children.2 ⟨_, hφ, hc⟩), hfit, (Field.accepts_category_iff ..).1 hfit⟩
  owned hφ := h.owned _ _ hφ

end Forest

namespace World

/-- In every reachable world all fields of all nodes and drafts hold what they are declared to
hold and belong to whom they should. The same is true of the forests in which a walk or a
substitution calls its client, and of the one it leaves behind, whatever moves the client makes
and whether or not the substitution succeeds. -/
theorem reachable_forest_typed :
    (∀ {w : World}, w.Reachable → w.forest.Typed) ∧
    (∀ {σ : Type} {visit : List NodeId → NodeId → Forest × σ → Forest × σ}
      {hands : σ → List NodeId} {held : List NodeId} {s : Forest × σ} {depth : Nat}
      {root : NodeId}, (midway hands held s).Reachable → (midway hands held s).Live root →
      (∀ v ∈ Forest.visits visit depth held root s, Obeys Anything {} hands visit v) →
      (∀ v ∈ Forest.visits visit depth held root s, v.state.1.Typed) ∧
        (Forest.forEach visit depth held root s).1.Typed) ∧
    ∀ {σ : Type} {offer : Forest.Offer σ} {hands : σ → List NodeId} {held : List NodeId}
      {s : Forest × σ} {depth : Nat} {root : NodeId},
      (midway hands held s).Reachable → (midway hands held s).Live root →
      (∀ o ∈ Forest.offers offer depth held root s, OfferObeys Anything {} hands offer o) →
      (∀ o ∈ Forest.offers offer depth held root s, o.state.1.Typed) ∧
        (Forest.replaceAll offer depth held root s).2.1.Typed := by
  have htyped : ∀ {w : World}, w.Reachable → w.forest.Typed := fun hw => hw.regular.typed
  refine ⟨htyped, fun hrun hroot hobeys => ?_, fun hrun hroot hobeys => ?_⟩
  · obtain ⟨hcalls, hend⟩ := forEach_run lenient_anything sound_empty hrun hroot hobeys
    exact ⟨fun v hv => htyped (hcalls v hv), htyped hend⟩
  · obtain ⟨hcalls, hend⟩ := replaceAll_run lenient_anything sound_empty hrun hroot hobeys
    exact ⟨fun o ho => htyped (hcalls o ho), htyped hend⟩

/-- A macro statement with a modifier and a body, a draft that was given up when its second
operand did not fit, a copy of the statement, and in the copy's body another macro statement,
whose own body nobody has asked for. -/
def macroCopy : List Move :=
  [.call (.construct {} (.reference "a") []),
   .call (.construct {} (.boolLiteral true) []),
   .call (.construct {} (.statementModifier .ifTrue) [.single .condition (some 1)]),
   .call (.construct {} (.macroStatement "m") [.sequence .arguments [0]]),
   .call (.change 3 (.assign .modifier (some 2))),
   .call (.body 3),
   .call (.construct {} (.binary .addition) [.single .left (some 0), .single .right (some 3)]),
   .call (.copy 3),
   .call (.construct {} (.macroStatement "n") []),
   .call (.change 9 (.edit .statements (.append 11))),
   .hold [10, 3]]

/-- Asks for the body of every macro statement. -/
def askForBodies (_ : List NodeId) (n : NodeId) (s : Forest × Unit) : Forest × Unit :=
  if s.1.kind n = .macroStatement then ((s.1.body n).2, s.2) else s

theorem reachable_forest_typed_macroCopy :
    let w := macroCopy.foldl after {}
    w.forest.Typed ∧ (Forest.forEach askForBodies 4 [10] 10 (w.forest, ())).1.Typed ∧
      (Forest.replaceAll everywhereFirst 4 [10] 10 (w.forest, ())).2.1.Typed := by
  have hw : (macroCopy.foldl after {}).Reachable := .of_allows (.refl _) (by decide +kernel)
  have hmidway : (midway (fun _ => [3]) [10] ((macroCopy.foldl after {}).forest, ())).Reachable :=
    Run.seenMidway hw (by decide +kernel)
  have hheld : ∀ {held : List NodeId} {n : NodeId} {s : Forest × Unit}, n ∈ held →
      (midway (fun _ => [3]) held s).Reachable → n < s.1.size := fun hn hrun =>
    (hrun.sound sound_empty).hands_lt _ (List.mem_append_left _ hn)
  refine ⟨reachable_forest_typed.1 hw,
    (reachable_forest_typed.2.1 hmidway (by decide +kernel) fun v _ hn hrun => ?_).2,
    (reachable_forest_typed.2.2 hmidway (by decide +kernel) fun o _ => ⟨fun _ _ => .refl _, ?_⟩).2⟩
  · unfold askForBodies
    split
    · next hmacro =>
      -- the body is handed out, and the client lets go of it again
      have hcall : (ofCall (fun _ => [3]) v).CanMake (.call (.body v.node)) :=
        ⟨by rintro p ⟨⟩; exact hheld hn hrun, by simp [Call.placed], hmacro⟩
      have hbody := Run.move (D := Anything) (.refl _) hcall trivial
      refine hbody.move (m := .hold (ofCall (fun _ => [3]) v).hands) (fun n hn => ?_) trivial
      exact (hbody.sound (hrun.sound sound_empty)).hands_lt n (List.mem_append_right _ hn)
    · exact .refl _
  · intro x hx hp hrun
    obtain ⟨hnode, hx⟩ := Option.ite_none_right_eq_some.1 hx
    refine ⟨⟨by rintro q ⟨⟩; exact hheld hp hrun, fun y hy => ?_, trivial⟩, trivial⟩
    rw [List.mem_singleton.1 hy, ← Option.some.inj hx]
    exact hnode

end World

end SyntaxForest
