import SyntaxForest.Proofs.Walks

/-!
# Links lead to holders

With no discipline at all a node may be held by several nodes, several times by one, or by a
draft and a node at once. Still a link never leads to a node that does not hold the linked one:
this is part of what makes a forest regular, and every reachable forest is.

More is true of a call that takes a node out of its holder. It breaks the link to that holder
even if the holder has the node in another place (`link_ne_of_taken_out`), so that a node which
was taken out, and was not handed over for placement by the same call, never reports the holder
that it was taken from.
-/

namespace SyntaxForest

namespace Forest

variable {f g : Forest} {n p : NodeId}

/-- Growing takes nothing out of any field. -/
theorem Grows.count_le (h : Grows f g) (n p : NodeId) :
    (f.children p).count n ≤ (g.children p).count n := by
  by_cases hp : p < f.size
  · rw [h.children_eq hp]
  · rw [children_of_size_le (Nat.le_of_not_lt hp)]
    exact Nat.zero_le _

/-- Constructing a node changes the records of other nodes in their links at most. -/
theorem grows_construct {l : Location} {k : Head} {as : List Placement}
    (has : ∀ x ∈ as.flatMap Placement.nodes, f.IsNode x) : Grows f (f.construct l k as).2 := by
  have hborn := born_push f (Record.children_draft k)
  have hgrows : Grows f ((f.push { head := k }).fill f.size as).2 :=
    fill_induction (.of_born hborn) (by rw [hborn.size_eq]; exact Nat.lt_succ_self _)
      (fun x hx => hborn.isNode_of_isNode (has x hx)) fun hg hr _ => hg.rewired hr (Nat.le_refl _)
  rcases construct_cases f l k as with ⟨g, hfill, hcon⟩ | ⟨e, g, hfill, hcon⟩
  · rw [hfill] at hgrows
    rw [hcon]
    exact hgrows.assemble (Nat.le_refl _)
  · rw [hfill] at hgrows
    rw [hcon]
    exact hgrows

/-- Only a change takes nodes out of fields. -/
theorem count_le_call {c : Call} (h : f.Regular) (hc : c.Possible f)
    (hother : ∀ q e, c ≠ .change q e) (n p : NodeId) :
    (f.children p).count n ≤ ((f.call c).2.children p).count n := by
  cases c with
  | draft k => exact (Grows.of_born (born_push f (Record.children_draft k))).count_le n p
  | assemble d l =>
    show _ ≤ ((f.assemble d l).children p).count n
    rw [children_assemble]
  | construct l k as =>
    rw [call_construct_snd]
    exact (grows_construct hc.isNode_placed).count_le n p
  | change q e => exact absurd rfl (hother q e)
  | body q =>
    show _ ≤ ((f.body q).2.children p).count n
    cases hb : f.single q .block with
    | some b => rw [body_of_some hb]
    | none =>
      have hgrows := Grows.of_born (born_push f (Record.children_empty .block f.size))
      have hr := body_rewired (hc.receiver_lt q rfl) hc.sensible hb
      refine (hgrows.count_le n p).trans ?_
      by_cases hp : p = q
      · have := hr.count_children n
        rw [hp]
        simp only [List.count_nil, Nat.add_zero] at this
        omega
      · rw [hr.children_of_ne hp]
  | copy m => exact (regular_copyWithin f.size f m h hc.sensible).grows.count_le n p
  | amend m a =>
    show _ ≤ ((f.amend m a).children p).count n
    rw [(amend_amended hc.sensible).children_eq]
  | report journal => exact Nat.le_refl _

/-- A rewiring breaks the link of what it takes out, if it led to the holder. -/
theorem Rewired.link_ne_of_taken_out {q : NodeId} {φ : Field} {ys placed taken : List NodeId}
    (hr : Rewired f g q φ ys placed taken) (h : f.Regular) (hn : n ∉ placed)
    (hout : (g.children p).count n < (f.children p).count n) : g.link n ≠ some p := by
  have hpq : p = q := by
    apply Decidable.byContradiction
    intro hpq
    rw [hr.children_of_ne hpq] at hout
    exact Nat.lt_irrefl _ hout
  subst hpq
  have hcount := hr.count_children n
  have hnew := List.count_eq_zero.2 hn
  have htaken : n ∈ taken := List.count_pos_iff.1 (by omega)
  rw [hr.link_eq, if_neg hn]
  intro hlink
  split at hlink
  · exact absurd hlink (by simp)
  · next hnot =>
    have hnode := (h.holds_of_link hlink).2
    exact hnot ⟨htaken, hlink.trans ((h.owner_eq_some hr.declared).2 ⟨rfl, hnode⟩).symm⟩

/-- **What is taken out of a holder no longer leads to it**, unless it has been handed over for
placement at the same time. -/
theorem link_ne_of_taken_out {c : Call} (h : f.Regular) (hc : c.Possible f) (hn : n ∉ c.placed)
    (hout : ((f.call c).2.children p).count n < (f.children p).count n) :
    (f.call c).2.link n ≠ some p := by
  by_cases hchange : ∃ q e, c = .change q e
  · obtain ⟨q, e, rfl⟩ := hchange
    rcases call_change_cases f q e with ⟨made, g, hg, hcall⟩ | hcall
    · rw [hcall] at hout ⊢
      rcases (change_rewired hg (hc.receiver_lt q rfl) fun x hx =>
        (hc.isNode_placed x hx).lt_size).2 with hsame | ⟨φ, ys, taken, hr, -⟩
      · rw [(Amended.of_records hsame).children_eq] at hout
        exact absurd hout (Nat.lt_irrefl _)
      · exact hr.link_ne_of_taken_out h hn hout
    · rw [hcall] at hout
      exact absurd hout (Nat.lt_irrefl _)
  · have hle := count_le_call h hc (fun q e heq => hchange ⟨q, e, heq⟩) n p
    omega

end Forest

namespace World

theorem lenient_anything : Lenient Anything := ⟨fun _ => trivial, trivial⟩

/-- In every reachable world, whatever is taken to be kept, the parent of a node holds it; and
a call that takes a node out of a holder, without placing it anew, leaves it without a link to
that holder. A walk or a substitution in a reachable world, with a client that makes any moves,
leads to a reachable world, and calls the client in reachable worlds only. -/
theorem parent_holds_child :
    (∀ {w : World}, w.Reachable →
      (∀ {kept : Forest.Marks} {n p : NodeId}, w.forest.parent? kept n = some p →
        n ∈ w.forest.children p) ∧
      ∀ {c : Call} {n p : NodeId}, c.Possible w.forest → n ∉ c.placed →
        ((w.forest.call c).2.children p).count n < (w.forest.children p).count n →
        ∀ {kept : Forest.Marks}, (w.forest.call c).2.parent? kept n ≠ some p) ∧
    (∀ {σ : Type} {visit : List NodeId → NodeId → Forest × σ → Forest × σ}
      {hands : σ → List NodeId} {held : List NodeId} {s : Forest × σ} {depth : Nat}
      {root : NodeId}, (midway hands held s).Reachable → (midway hands held s).Live root →
      (∀ v ∈ Forest.visits visit depth held root s, Obeys Anything {} hands visit v) →
      (∀ v ∈ Forest.visits visit depth held root s, (ofCall hands v).Reachable) ∧
        (midway hands held (Forest.forEach visit depth held root s)).Reachable) ∧
    ∀ {σ : Type} {offer : Forest.Offer σ} {hands : σ → List NodeId} {held : List NodeId}
      {s : Forest × σ} {depth : Nat} {root : NodeId},
      (midway hands held s).Reachable → (midway hands held s).Live root →
      (∀ o ∈ Forest.offers offer depth held root s, OfferObeys Anything {} hands offer o) →
      (∀ o ∈ Forest.offers offer depth held root s, (ofCall hands o.toHandover).Reachable) ∧
        (midway hands held (Forest.replaceAll offer depth held root s).2).Reachable := by
  have hlink : ∀ {f : Forest} {kept : Forest.Marks} {n p : NodeId}, f.parent? kept n = some p →
      f.link n = some p := fun h => (Option.filter_eq_some_iff.1 h).1
  refine ⟨fun hw => ⟨fun hp => (hw.regular.holds_of_link (hlink hp)).1,
    fun hc hn hout _ hp => ?_⟩, ?_, ?_⟩
  · exact Forest.link_ne_of_taken_out hw.regular hc hn hout (hlink hp)
  · exact fun hrun hroot hobeys => forEach_run lenient_anything sound_empty hrun hroot hobeys
  · exact fun hrun hroot hobeys => replaceAll_run lenient_anything sound_empty hrun hroot hobeys

/-- A name that is both operands of a sum, and twice an argument of an invocation. -/
def sharing : List Move :=
  [.call (.construct {} (.reference "a") []),
   .call (.construct {} (.binary .addition) [.single .left (some 0), .single .right (some 0)]),
   .call (.construct {} (.reference "b") []),
   .call (.construct {} .methodInvocation
    [.single .target (some 2), .sequence .arguments [0, 0]]),
   .hold [1, 3]]

/-- Notes on a node that it has been seen. -/
def markSeen (_ : List NodeId) (n : NodeId) (s : Forest × Unit) : Forest × Unit :=
  (s.1.amend n (.documentation (some "seen")), s.2)

/-- Answers every node with the first one of the store. -/
def everywhereFirst : Forest.Offer Unit := fun _ _ s => (if s.1.IsNode 0 then some 0 else none, s)

theorem parent_holds_child_sharing :
    let w := sharing.foldl after {}
    let kept := w.forest.kept w.hands
    0 ∈ w.forest.children 3 ∧
      (w.forest.call (.change 3 (.edit .arguments (.remove 0)))).2.parent? kept 0 ≠ some 3 ∧
      (midway (fun _ => [3]) [1] (Forest.forEach markSeen 4 [1] 1 (w.forest, ()))).Reachable ∧
      (midway (fun _ => [3]) [1]
        (Forest.replaceAll everywhereFirst 4 [1] 1 (w.forest, ())).2).Reachable := by
  have hw : (sharing.foldl after {}).Reachable := .of_allows (.refl _) (by decide +kernel)
  have hparent : (sharing.foldl after {}).parent? 0 = some 3 := by decide +kernel
  have hmidway : (midway (fun _ => [3]) [1] ((sharing.foldl after {}).forest, ())).Reachable := hw
  have hhands : ∀ {held : List NodeId} {n : NodeId} {s : Forest × Unit}, n ∈ held →
      (midway (fun _ => [3]) held s).Reachable → n < s.1.size := fun hn hrun =>
    (hrun.sound sound_empty).hands_lt _ (List.mem_append_left _ hn)
  refine ⟨(parent_holds_child.1 hw).1 hparent,
    (parent_holds_child.1 hw).2 (by decide +kernel) (by decide +kernel) (by decide +kernel),
    (parent_holds_child.2.1 hmidway (by decide +kernel) fun v _ hn hrun => ?_).2,
    (parent_holds_child.2.2 hmidway (by decide +kernel) fun o _ => ⟨fun _ _ => .refl _, ?_⟩).2⟩
  · exact Run.move (.refl _) (m := .call (.amend v.node (.documentation (some "seen"))))
      ⟨by rintro p ⟨⟩; exact hhands hn hrun, by simp [Call.placed], trivial⟩ trivial
  · intro x hx hp hrun
    obtain ⟨hnode, hx⟩ := Option.ite_none_right_eq_some.1 hx
    refine ⟨⟨by rintro q ⟨⟩; exact hhands hp hrun, fun y hy => ?_, trivial⟩, trivial⟩
    rw [List.mem_singleton.1 hy, ← Option.some.inj hx]
    exact hnode

end World

end SyntaxForest
