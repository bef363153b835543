import SyntaxForest.Proofs.Wrapping

/-!
# Locality: what a change leaves alone

A change is made to one field of one holder, a node or a draft. The other nodes that it deals
with need not be arguments of the call: those that are taken out may be held elsewhere too and
linked to other holders. `ChangedAt` says how little happens all the same. Occupants change in
that one field, links change on what is placed and on what is taken out, and everything else that
is recorded of any node stays as it was.

What is placed is linked to the holder, with one exception: a node that already is in the place
where it is to go. It is not placed at all, and keeps the link that it has, which may lead to
another holder.

Main statements: `World.changes_local` and `World.placed_parent_eq`.
-/

namespace SyntaxForest

namespace Forest

variable {f g : Forest} {p : NodeId} {φ : Field} {φ? : Option Field} {ys placed taken : List NodeId}

/-- The holder `p` has `n` in fewer places than before. -/
def TakenOut (f g : Forest) (p n : NodeId) : Prop :=
  (g.children p).count n < (f.children p).count n

instance (f g : Forest) (p n : NodeId) : Decidable (TakenOut f g p n) :=
  inferInstanceAs (Decidable (_ < _))

/-- From `f` to `g` a change has been made to the given field of `p`, and the nodes `placed` have
been put there. Of all that was recorded before, nothing else has changed but the links of the
nodes that were taken out. -/
structure ChangedAt (f g : Forest) (p : NodeId) (φ? : Option Field) (placed : List NodeId) :
    Prop where
  size_le : f.size ≤ g.size
  /-- Scalars, locations, documentation and annotations are as before. -/
  rest_eq : ∀ j < f.size, (g.record j).rest = (f.record j).rest
  occupants_eq : ∀ j < f.size, ∀ ψ, ¬ (j = p ∧ φ? = some ψ) → g.occupants j ψ = f.occupants j ψ
  placed_held : ∀ j ∈ placed, ∃ ψ ∈ φ?, j ∈ g.occupants p ψ
  /-- A draft has no links to give. -/
  link_placed : ∀ j ∈ placed, g.link j = if f.IsNode p then some p else none
  link_taken : ∀ j < f.size, j ∉ placed → TakenOut f g p j →
    g.link j = if f.link j = some p then none else f.link j
  link_kept : ∀ j < f.size, j ∉ placed → ¬ TakenOut f g p j → g.link j = f.link j

/-! ## One rewiring -/

/-- The owner of a field of `p` is `p`, or nobody if `p` is a draft. -/
theorem Regular.owner_eq (h : f.Regular) (hφ : φ ∈ (f.kind p).fields) :
    f.owner p φ = if f.IsNode p then some p else none := h.owned p φ hφ

/-- A node that is not placed is taken out of the holder if it is taken out of the field. -/
theorem Rewired.takenOut_iff (hr : Rewired f g p φ ys placed taken) {j : NodeId}
    (hj : j ∉ placed) : TakenOut f g p j ↔ j ∈ taken := by
  have hcount := hr.count_children j
  have hnew := List.count_eq_zero.2 hj
  rw [TakenOut, ← List.count_pos_iff]
  omega

theorem Rewired.changedAt (hr : Rewired f g p φ ys placed taken) (h : f.Regular) :
    ChangedAt f g p (some φ) placed := by
  have howner := h.owner_eq hr.declared
  refine ⟨Nat.le_of_eq hr.size_eq.symm, fun j _ => hr.rest_eq j, fun j _ ψ hψ => ?_,
    fun j hj => ⟨φ, rfl, ?_⟩, fun j hj => ?_, fun j _ hj hout => ?_, fun j _ hj hin => ?_⟩
  · rw [hr.occupants_eq, if_neg fun e => hψ ⟨e.1, congrArg some e.2.symm⟩]
  · rw [hr.occupants_self]
    exact hr.placed_subset hj
  · rw [hr.link_eq, if_pos hj, howner]
  · have htaken := (hr.takenOut_iff hj).1 hout
    rw [hr.link_eq, if_neg hj, howner]
    by_cases hp : f.IsNode p
    · simp [hp, htaken]
    · -- out of a draft: it has nothing linked to it, and its fields take away no link
      have hne : f.link j ≠ some p := fun hl => hp (h.holds_of_link hl).2
      rw [if_neg hp, if_neg hne]
      split
      · next hnone => exact hnone.2.symm
      · rfl
  · rw [hr.link_eq, if_neg hj, if_neg fun e => hin ((hr.takenOut_iff hj).2 e.1)]

/-- Where the records are the same nothing has been placed or taken out. -/
theorem ChangedAt.of_records (h : g.records = f.records) : ChangedAt f g p φ? [] := by
  have ha := Amended.of_records h
  have hrest : ∀ j, (g.record j).rest = (f.record j).rest := fun j => by
    rw [record, record, h]
  refine ⟨Nat.le_of_eq ha.size_eq.symm, fun j _ => hrest j, fun j _ ψ _ => ha.occupants_eq j ψ,
    by simp, by simp, fun j _ _ hout => ?_, fun j _ _ _ => ha.link_eq j⟩
  rw [TakenOut, ha.children_eq] at hout
  exact absurd hout (Nat.lt_irrefl _)

/-- A record that comes to the store before the change is no change of those that were there. -/
theorem ChangedAt.of_push {r : Record} (h : ChangedAt (f.push r) g p φ? placed)
    (hp : p < f.size) : ChangedAt f g p φ? placed := by
  have hsize : ∀ j < f.size, j < (f.push r).size := fun j hj => by
    rw [size_push]
    exact Nat.lt_succ_of_lt hj
  have hrecord : ∀ j < f.size, (f.push r).record j = f.record j :=
    fun j hj => record_push_of_lt hj r
  have hchildren : (f.push r).children p = f.children p := by
    rw [children, hrecord p hp, children]
  have hnode : (f.push r).IsNode p ↔ f.IsNode p := isNode_iff_of_rest (by rw [hrecord p hp])
  have htaken : ∀ j, TakenOut f g p j ↔ TakenOut (f.push r) g p j := fun j => by
    rw [TakenOut, TakenOut, hchildren]
  refine ⟨Nat.le_trans (Nat.le_of_lt (by simp)) h.size_le, fun j hj => ?_, fun j hj ψ hψ => ?_,
    h.placed_held, fun j hj => ?_, fun j hj hn hout => ?_, fun j hj hn hin => ?_⟩
  · rw [h.rest_eq j (hsize j hj), hrecord j hj]
  · rw [h.occupants_eq j (hsize j hj) ψ hψ, occupants, occupants, hrecord j hj]
  · rw [h.link_placed j hj]
    simp only [hnode]
  · rw [h.link_taken j (hsize j hj) hn ((htaken j).1 hout), link, link, hrecord j hj]
  · rw [h.link_kept j (hsize j hj) hn fun hout => hin ((htaken j).2 hout), link, link, hrecord j hj]

/-! ## All changes -/

theorem change_changedAt {c : Change} {made : List NodeId} (h : f.Regular)
    (hc : (Call.change p c).Possible f)
    (hg : (Mutation.change p c).perform f = (.ok made, g)) :
    ChangedAt f g p (c.field? f p) (c.entering f p) := by
  rcases (change_cases hg (hc.receiver_lt p rfl) fun x hx => (hc.isNode_placed x hx).lt_size).2 with
    ⟨hsame, hnil⟩ | ⟨φ, ys, taken, hr, hfield, -, hplaced⟩
  · rw [hnil]
    exact .of_records hsame
  · rw [hfield, hplaced]
    exact hr.changedAt h

/-- The block that a body is made of is new; no node that was there before has a part in it. -/
theorem body_changedAt (h : f.Regular) (hc : (Call.body p).Possible f) :
    ChangedAt f (f.body p).2 p (some (.single .block))
      (if f.single p .block = none then [f.size] else []) := by
  have hp := hc.receiver_lt p rfl
  cases hb : f.single p .block with
  | some b =>
    rw [body_of_some hb, if_neg (by simp)]
    exact .of_records rfl
  | none =>
    rw [if_pos rfl]
    exact ((body_rewired hp hc.sensible hb).changedAt (h.born_empty .block)).of_push hp

end Forest

namespace World

open Forest

/-- **Changes are local.** In every reachable world a change that succeeds, to a node or a draft,
touches nothing but the field that it is made to and the links of the nodes that it puts there or
takes out; asking for a body does no more. -/
theorem changes_local {w : World} (hw : w.Reachable) {p : NodeId} :
    (∀ (c : Change) (made : List NodeId) (g : Forest), (Call.change p c).Possible w.forest →
      (Mutation.change p c).perform w.forest = (.ok made, g) →
      ChangedAt w.forest g p (c.field? w.forest p) (c.entering w.forest p)) ∧
    ((Call.body p).Possible w.forest →
      ChangedAt w.forest (w.forest.body p).2 p (some (.single .block))
        (if w.forest.single p .block = none then [w.forest.size] else [])) :=
  ⟨fun _ _ _ hc hg => change_changedAt hw.regular hc hg, body_changedAt hw.regular⟩

/-- A name that two statements hold, and a draft between them; it is linked to the second. The
draft holds another name too, and the macro statement has no body yet. -/
def contested : List Move :=
  [.call (.construct {} (.reference "x") []),
   .call (.construct {} (.reference "y") []),
   .call (.construct {} .expressionStatement [.single .expression (some 0)]),
   .call (.draft .methodInvocation),
   .call (.change 3 (.edit .arguments (.extend [0, 1, 0]))),
   .call (.construct {} .returnStatement [.single .expression (some 0)]),
   .call (.construct {} (.macroStatement "m") []),
   .hold [1, 2, 3, 4, 5]]

/-- The name is taken out of the first statement, out of the draft and out of the second
statement, and a body is asked for. -/
theorem changes_local_contested :
    let f := (contested.foldl after {}).forest
    let g₁ := ((Mutation.change 2 (.assign .expression (some 1))).perform f).2
    let g₂ := ((Mutation.change 3 (.edit .arguments (.reset [1]))).perform f).2
    let g₃ := ((Mutation.change 4 (.replaceChild 0 1)).perform f).2
    (f.link 0 = some 4 ∧ TakenOut f g₁ 2 0 ∧ TakenOut f g₂ 3 0 ∧ TakenOut f g₃ 4 0) ∧
    ChangedAt f g₁ 2 (some (.single .expression)) [1] ∧
    ChangedAt f g₂ 3 (some (.sequence .arguments)) [1] ∧
    ChangedAt f g₃ 4 (some (.single .expression)) [1] ∧
    ChangedAt f (f.body 5).2 5 (some (.single .block)) [6] := by
  have hw : (contested.foldl after {}).Reachable := .of_allows (.refl _) (by decide +kernel)
  refine ⟨by decide +kernel, ?_, ?_, ?_, ?_⟩
  · exact (changes_local hw).1 (.assign .expression (some 1)) [] _ (by decide +kernel) rfl
  · exact (changes_local hw).1 (.edit .arguments (.reset [1])) [] _ (by decide +kernel) rfl
  · exact (changes_local hw).1 (.replaceChild 0 1) [] _ (by decide +kernel) rfl
  · exact (changes_local hw).2 (by decide +kernel)

end World

/-! ## The parent of what has been placed -/

namespace Forest

variable {f g : Forest} {hands : List NodeId} {p x y : NodeId}

/-- What a rewiring places has the holder as its parent. -/
theorem Rewired.parent?_placed {φ : Field} {ys placed taken : List NodeId}
    (hr : Rewired f g p φ ys placed taken) (h : f.Regular) (hp : f.IsNode p)
    (hlive : Live f hands p) (hx : x ∈ placed) : g.parent? (g.kept hands) x = some p := by
  refine parent?_eq_some ?_ (hr.live_holder hlive)
  rw [hr.link_eq, if_pos hx]
  exact (h.owner_eq_some hr.declared).2 ⟨rfl, hp⟩

/-- Where the records are the same a link still leads to a live holder. -/
theorem parent?_of_records (hsame : g.records = f.records) (hlink : f.link x = some p)
    (hlive : Live f hands p) : g.parent? (g.kept hands) x = some p := by
  have ha := Amended.of_records hsame
  exact parent?_eq_some ((ha.link_eq x).trans hlink)
    (hlive.congr ha.size_eq.symm fun j => (ha.children_eq j).symm)

/-- The answer tells whether there is such a child. -/
theorem mem_children_of_replaceChild
    (h : (Mutation.replaceChild p x y).perform f = (.ok true, g)) : x ∈ f.children p := by
  have hamong : ∀ φs : List Field, (∀ φ ∈ φs, φ ∈ (f.kind p).fields) →
      (Mutation.replaceAmong p x y φs).perform f = (.ok true, g) → x ∈ f.children p := by
    intro φs
    induction φs with
    | nil => intro _ h; exact absurd (Prod.mk.inj h).1 (by simp)
    | cons φ φs ih =>
      intro hφs h
      obtain ⟨hφ, hφs⟩ := List.forall_mem_cons.1 hφs
      obtain ⟨found, g', h₁, h₂⟩ := Mutation.bind_eq_ok.1 h
      rcases replaceIn_answer h₁ with ⟨rfl, hx⟩ | ⟨rfl, -, rfl⟩
      · exact mem_children.2 ⟨φ, hφ, hx⟩
      · exact ih hφs h₂
  exact hamong _ (fun φ hφ => Kind.mem_searchOrder.1 hφ) h

/-- A node that is assigned to a single field gets the holder as its parent. If it is there
already nothing happens, and it keeps the one that it has. -/
theorem parent?_assign {s : SingleField} (h : f.Regular) (hp : f.IsNode p)
    (hlive : Live f hands p) (hx : f.IsNode x)
    (hg : (Mutation.assign p s (some x)).perform f = (.ok (), g)) :
    (f.single p s = some x → g = f) ∧
      ((f.single p s = some x → f.link x = some p) → g.parent? (g.kept hands) x = some p) := by
  rcases assign_rewired hg hp.lt_size (by intro n hn; cases hn; exact hx.lt_size) with
    ⟨n, hn, hsn, rfl⟩ | ⟨hne, hr⟩
  · obtain rfl := Option.some.inj hn
    exact ⟨fun _ => rfl, fun hlink => parent?_of_records rfl (hlink hsn) hlive⟩
  · exact ⟨fun hsx => absurd hsx (hne x rfl),
      fun _ => hr.parent?_placed h hp hlive List.mem_cons_self⟩

/-- The nodes that go into a sequence get the holder as their parent. If one is to take its own
place nothing happens, and it keeps the parent that it has. -/
theorem parent?_edit {s : SequenceField} {e : SequenceEdit NodeId} {a : SequenceAnswer}
    (h : f.Regular) (hp : f.IsNode p) (hlive : Live f hands p) (he : ∀ x ∈ e.placed, f.IsNode x)
    (hg : (Mutation.edit p s e).perform f = (.ok a, g)) (ha : a ≠ .found false) :
    (∀ x, e = .substitute x x → g = f) ∧
      ∀ x ∈ e.placed, (e = .substitute x x → f.link x = some p) →
        g.parent? (g.kept hands) x = some p := by
  rcases edit_rewired hg hp.lt_size fun x hx => (he x hx).lt_size with
    ⟨rfl, hnil⟩ | ⟨ys, taken, hr, -, hplaced⟩
  · refine ⟨fun _ _ => rfl, fun x hx hlink => parent?_of_records rfl (hlink ?_) hlive⟩
    cases e with
    | substitute y z =>
      -- nothing was put there although the place was found: the two are the same node
      obtain ⟨b, hb, rfl⟩ := Mutation.bind_pure_eq_ok.1 hg
      rcases replaceIn_answer (φ := .sequence s) hb with ⟨-, hy⟩ | ⟨rfl, -⟩
      · have hyz : y = z := Decidable.byContradiction fun hne => by
          rw [SequenceEdit.entering, if_pos ⟨hy, hne⟩] at hnil
          exact absurd hnil (by simp)
        rw [List.mem_singleton.1 hx, hyz]
      · exact absurd rfl ha
    | _ =>
      -- of the other operations, those that hand over a node put it there
      have hempty : x ∈ ([] : List NodeId) := hnil ▸ hx
      exact absurd hempty List.not_mem_nil
  · refine ⟨fun x hx => ?_, fun x hx _ => hr.parent?_placed h hp hlive hx⟩
    subst hx
    rw [SequenceEdit.entering, if_neg fun hx => hx.2 rfl] at hplaced
    exact absurd hplaced (by simp [SequenceEdit.placed])

/-- A node that takes the place of another child gets the holder as its parent. -/
theorem parent?_replaceChild (h : f.Regular) (hp : f.IsNode p) (hlive : Live f hands p)
    (hy : f.IsNode y) (hg : (Mutation.replaceChild p x y).perform f = (.ok true, g))
    (hlink : x = y → f.link y = some p) : g.parent? (g.kept hands) y = some p := by
  rcases replaceChild_rewired hg hp.lt_size hy.lt_size with ⟨hsame, hxy⟩ | ⟨-, φ, ys, -, hr⟩
  · exact parent?_of_records hsame (hlink (hxy (mem_children_of_replaceChild hg))) hlive
  · exact hr.parent?_placed h hp hlive List.mem_cons_self

end Forest

namespace World

open Forest

/-- **What is placed has the holder as its parent**, in every reachable world and whatever held
it before, when it has been assigned to a single field, put into a sequence or put in the place of
another child. A node that a single field holds already, or that takes its own place in a sequence,
is left alone, together with everything else. -/
theorem placed_parent_eq {w : World} (hw : w.Reachable) {p : NodeId} (hp : w.forest.IsNode p)
    (hlive : w.Live p) :
    (∀ (s : SingleField) (x : NodeId) (g : Forest), w.forest.IsNode x →
      (Mutation.assign p s (some x)).perform w.forest = (.ok (), g) →
      (w.forest.single p s = some x → g = w.forest) ∧
        ((w.forest.single p s = some x → w.forest.link x = some p) →
          g.parent? (g.kept w.hands) x = some p)) ∧
    (∀ (s : SequenceField) (e : SequenceEdit NodeId) (a : SequenceAnswer) (g : Forest),
      (∀ x ∈ e.placed, w.forest.IsNode x) →
      (Mutation.edit p s e).perform w.forest = (.ok a, g) → a ≠ .found false →
      (∀ x, e = .substitute x x → g = w.forest) ∧
        ∀ x ∈ e.placed, (e = .substitute x x → w.forest.link x = some p) →
          g.parent? (g.kept w.hands) x = some p) ∧
    ∀ (x y : NodeId) (g : Forest), w.forest.IsNode y →
      (Mutation.replaceChild p x y).perform w.forest = (.ok true, g) →
      (x = y → w.forest.link y = some p) → g.parent? (g.kept w.hands) y = some p :=
  ⟨fun _ _ _ => parent?_assign hw.regular hp hlive,
    fun _ _ _ _ => parent?_edit hw.regular hp hlive,
    fun _ _ _ => parent?_replaceChild hw.regular hp hlive⟩

/-- A statement `x`, one `return x` that has the same name, and an invocation `y(x, z)` of it. -/
def handedRound : List Move :=
  [.call (.construct {} (.reference "x") []),
   .call (.construct {} .expressionStatement [.single .expression (some 0)]),
   .call (.construct {} (.reference "y") []),
   .call (.construct {} (.reference "z") []),
   .call (.construct {} .methodInvocation [.single .target (some 2), .sequence .arguments [0, 3]]),
   .call (.construct {} .returnStatement [.single .expression (some 0)]),
   .hold [1, 4, 5]]

/-- The name is linked to the return statement. Put into the other holders again, it gets them as
its parents. -/
theorem placed_parent_eq_handedRound :
    let w := handedRound.foldl after {}
    let g₁ := ((Mutation.assign 4 .target (some 0)).perform w.forest).2
    let g₂ := ((Mutation.edit 4 .arguments (.substitute 3 0)).perform w.forest).2
    let g₃ := ((Mutation.replaceChild 4 3 0).perform w.forest).2
    w.parent? 0 = some 5 ∧ g₁.parent? (g₁.kept w.hands) 0 = some 4 ∧
      g₂.parent? (g₂.kept w.hands) 0 = some 4 ∧ g₃.parent? (g₃.kept w.hands) 0 = some 4 := by
  have hw : (handedRound.foldl after {}).Reachable := .of_allows (.refl _) (by decide +kernel)
  have hp : (handedRound.foldl after {}).forest.IsNode 4 := by decide +kernel
  have hlive : (handedRound.foldl after {}).Live 4 := by decide +kernel
  refine ⟨by decide +kernel, ?_, ?_, ?_⟩
  · exact ((placed_parent_eq hw hp hlive).1 .target 0 _ (by decide +kernel) rfl).2
      (by decide +kernel)
  · exact ((placed_parent_eq hw hp hlive).2.1 .arguments (.substitute 3 0) (.found true) _
      (by decide +kernel) rfl (by decide)).2 0 (by decide) (by simp)
  · exact (placed_parent_eq hw hp hlive).2.2 3 0 _ (by decide +kernel) rfl (by decide)

/-- Handed over to a holder that has it already, in the very place where it is, the name stays
with the return statement. -/
theorem reassigned_parent_ne :
    let w := handedRound.foldl after {}
    w.Reachable ∧ (w.Live 1 ∧ w.forest.IsNode 1) ∧ (w.Live 4 ∧ w.forest.IsNode 4) ∧
    (∃ g, (Mutation.assign 1 .expression (some 0)).perform w.forest = (.ok (), g) ∧
      g.parent? (g.kept w.hands) 0 ≠ some 1) ∧
    ∃ g, (Mutation.edit 4 .arguments (.substitute 0 0)).perform w.forest =
        (.ok (.found true), g) ∧ g.parent? (g.kept w.hands) 0 ≠ some 4 := by
  refine ⟨.of_allows (.refl _) (by decide +kernel), by decide +kernel, by decide +kernel, ?_, ?_⟩
  · exact ⟨_, rfl, by decide +kernel⟩
  · exact ⟨_, rfl, by decide +kernel⟩

end World

end SyntaxForest
