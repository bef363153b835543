import SyntaxForest.Proofs.Walks

/-!
# Parents and children agree, if handled with care

A forest lets a node be held in several places, and then its link can lead to one of them at
most. A user who wants more has to be careful: hand over a node for placement only when nothing
holds it, not twice in one call, and never into its own subtree. `Careful` is that discipline.
Putting a node where it is anyway is no harm.

What care is rewarded with is `Consistent`. Nothing lies below itself, and among the live records
every node is held in one place at most, and a node's link leads to the node that holds it. No
part of this would do alone. That a node taken out of its place loses the right link needs that
it was there only once; that what is placed has not been somewhere else needs the discipline
for the present move and uniqueness for all moves before.

As to holders, records that are not live are left out on purpose. A draft that was given up, or a
node that was let go, may still hold a node in the store while somebody else holds it too. But
there are no circles even among these, so that nothing is kept but what is live
(`Consistent.kept_iff_live`).

Main statement: `Run.consistent`, from one lemma for each sort of change.
-/

namespace SyntaxForest

namespace Forest

variable {f g : Forest} {p q a b c n : NodeId} {φ : Field} {ys placed taken roots : List NodeId}

/-! ## Reachability through a rewiring -/

namespace Rewired

theorem live_of_live (hr : Rewired f g p φ ys placed taken)
    (hplaced : ∀ x ∈ placed, Live f roots x) (h : Live g roots n) : Live f roots n := by
  induction h with
  | root hmem hlt => exact .root hmem (hr.size_eq ▸ hlt)
  | held _ hc hlt ih =>
    rcases hr.mem_children_of_mem hc with hc | ⟨-, hc⟩
    · exact .held ih hc (hr.size_eq ▸ hlt)
    · exact hplaced _ hc

/-- A way down that does not come through the holder is still there. -/
theorem below_or_below (hr : Rewired f g p φ ys placed taken) (h : f.Below a b) :
    f.Below a p ∨ g.Below a b := by
  induction h with
  | root hmem hlt => exact .inr (.root hmem (hr.size_eq.symm ▸ hlt))
  | @held k m hk hc hlt ih =>
    by_cases hkp : k = p
    · exact .inl (hkp ▸ hk)
    · exact ih.imp_right fun ih => .held ih (by rwa [hr.children_of_ne hkp])
        (hr.size_eq.symm ▸ hlt)

/-- A way down is an old one, or its last new step leads from the holder to a placed node. -/
theorem below_cases (hr : Rewired f g p φ ys placed taken) (h : g.Below a b) :
    f.Below a b ∨ g.Below a p ∧ ∃ y ∈ placed, f.Below y b := by
  induction h with
  | root hmem hlt => exact .inl (.root hmem (hr.size_eq ▸ hlt))
  | @held k m hk hc hlt ih =>
    have hlt' := hr.size_eq ▸ hlt
    rcases hr.mem_children_of_mem hc with hc | ⟨rfl, hc⟩
    · refine ih.imp (.held · hc hlt') ?_
      rintro ⟨hp, y, hy, hb⟩
      exact ⟨hp, y, hy, .held hb hc hlt'⟩
    · exact .inr ⟨hk, m, hc, .refl hlt'⟩

/-- **Placing nodes that the holder does not lie below makes no cycle.** -/
theorem acyclic (hr : Rewired f g p φ ys placed taken) (hfree : ∀ y ∈ placed, ¬ f.Below y p)
    (hold : ∀ c ∈ f.children q, ¬ f.Below c q) (hclosed : f.Closed) :
    ∀ c ∈ g.children q, ¬ g.Below c q := by
  have hplaced : ∀ y ∈ placed, ¬ g.Below y p := by
    intro y hy hb
    rcases hr.below_cases hb with hb | ⟨-, z, hz, hb⟩
    · exact hfree y hy hb
    · exact hfree z hz hb
  intro c hc hb
  rcases hr.mem_children_of_mem hc with hcf | ⟨rfl, hc⟩
  · rcases hr.below_cases hb with hbf | ⟨hcp, y, hy, hyq⟩
    · exact hold c hcf hbf
    · -- from the placed node down to `q`, to its child, and on to the holder
      have hyq := (hr.below_or_below hyq).resolve_left (hfree y hy)
      have hyc : g.Below y c := .held hyq hc (hr.size_eq.symm ▸ hclosed q c hcf)
      exact hplaced y hy (hyc.trans hcp)
  · exact hplaced c hc hb

end Rewired

/-- What is live after new records have come is one of them or was live before. -/
theorem Sprouted.live_cases (hs : Sprouted f g) (hclosed : f.Closed)
    (hroots : ∀ r ∈ roots, r < f.size) (ha : f.size ≤ a) (h : Live g (a :: roots) n) :
    f.size ≤ n ∨ Live f roots n := by
  induction h with
  | root hmem _ =>
    rcases List.mem_cons.1 hmem with rfl | hmem
    · exact .inl ha
    · exact .inr (.root hmem (hroots _ hmem))
  | held hp hc _ ih =>
    rcases ih with hle | hp'
    · exact .inl (hs.held_new _ hp.lt_size hle _ hc).1
    · rw [hs.grows.children_eq hp'.lt_size] at hc
      exact .inr (.held hp' hc (hclosed _ _ hc))

/-- A new record that holds nothing. -/
theorem sprouted_push (f : Forest) {r : Record} (hr : r.children = []) : Sprouted f (f.push r) := by
  refine (Sprouted.refl f).born (born_push f hr) ?_ ?_
  · rw [hr]
    exact .nil
  · rw [hr]
    exact fun c hc => absurd hc List.not_mem_nil

end Forest

/-! ## The discipline -/

namespace Call

/-- The node, handed over for placement, is to stay where it is. -/
def Keeps (f : Forest) (x : NodeId) : Call → Prop
  | change p c => c.Keeps f p x
  | _ => False

instance (f : Forest) (x : NodeId) : (c : Call) → Decidable (c.Keeps f x)
  | change p c => inferInstanceAs (Decidable (c.Keeps f p x))
  | draft _ | assemble .. | construct .. | body _ | copy _ | amend .. | report _ =>
    inferInstanceAs (Decidable False)

/-- The call is made on something live, and hands over for placement live nodes, each once. A
node that is not to stay where it is has no holder, and the receiver is not in its subtree. -/
structure Careful (w : World) (c : Call) : Prop where
  receiver_live : ∀ p ∈ c.receiver?, w.Live p
  placed_live : ∀ x ∈ c.placed, w.Live x
  placed_nodup : c.placed.Nodup
  placed_free : ∀ x ∈ c.placed, c.Keeps w.forest x ∨
    (∀ p, w.Live p → x ∉ w.forest.children p) ∧ ∀ p ∈ c.receiver?, ¬ w.forest.Below x p

instance (w : World) (c : Call) : Decidable (c.Careful w) :=
  decidable_of_iff ((∀ p ∈ c.receiver?, w.Live p) ∧ (∀ x ∈ c.placed, w.Live x) ∧ c.placed.Nodup ∧
      ∀ x ∈ c.placed, c.Keeps w.forest x ∨
        (∀ p < w.forest.size, w.Live p → x ∉ w.forest.children p) ∧
          ∀ p ∈ c.receiver?, ¬ w.forest.Below x p)
    ⟨fun ⟨h₁, h₂, h₃, h₄⟩ => ⟨h₁, h₂, h₃, fun x hx => (h₄ x hx).imp_right fun h =>
        ⟨fun p hp => h.1 p hp.lt_size hp, h.2⟩⟩,
      fun ⟨h₁, h₂, h₃, h₄⟩ => ⟨h₁, h₂, h₃, fun x hx => (h₄ x hx).imp_right fun h =>
        ⟨fun p _ => h.1 p, h.2⟩⟩⟩

end Call

namespace World

/-- Calls are made with care, and only what is live is taken in hand. -/
def Careful : Discipline := fun w m =>
  match m with
  | .call c => c.Careful w
  | .hold hands => ∀ n ∈ hands, w.Live n

instance (w : World) : (m : Move) → Decidable (Careful w m)
  | .call c => inferInstanceAs (Decidable (c.Careful w))
  | .hold hands => inferInstanceAs (Decidable (∀ n ∈ hands, w.Live n))

/-- A live node that nothing holds is in hand. -/
theorem mem_hands_of_live {w : World} {x : NodeId} (hx : w.Live x)
    (hnone : ∀ p, w.Live p → x ∉ w.forest.children p) : x ∈ w.hands := by
  cases hx with
  | root hmem _ => exact hmem
  | held hp hc _ => exact absurd hc (hnone _ hp)

theorem lenient_careful : Lenient Careful where
  hold h := h
  report := ⟨by simp [Call.receiver?], by simp [Call.placed], by simp [Call.placed],
    by simp [Call.placed]⟩

/-- Nothing lies below itself. Among the live records every node is held in one place at most, and
what a node holds is linked to it. -/
structure Consistent (w : World) : Prop extends Sound w where
  nodup : ∀ {p}, w.Live p → (w.forest.children p).Nodup
  unique : ∀ {p q c}, w.Live p → w.Live q → c ∈ w.forest.children p → c ∈ w.forest.children q →
    p = q
  acyclic : ∀ {p}, ∀ c ∈ w.forest.children p, ¬ w.forest.Below c p
  linked : ∀ {p c}, w.Live p → w.forest.IsNode p → c ∈ w.forest.children p →
    w.forest.link c = some p

namespace Consistent

variable {f g : Forest} {hands : List NodeId}

theorem empty : ({} : World).Consistent := by
  have hlive : ∀ {p}, ¬ ({} : World).Live p := fun hp => absurd hp.lt_size (Nat.not_lt_zero _)
  exact ⟨sound_empty, fun hp => absurd hp hlive, fun hp => absurd hp hlive,
    fun _ hc => absurd (Forest.lt_size_of_mem_children hc) (Nat.not_lt_zero _),
    fun hp => absurd hp hlive⟩

/-- Holding other things, as long as they are live. -/
theorem hold {w : World} (h : w.Consistent) {hands : List NodeId} (hl : ∀ n ∈ hands, w.Live n) :
    ({ w with hands := hands } : World).Consistent := by
  have hlive : ∀ {p}, ({ w with hands := hands } : World).Live p → w.Live p := fun hp =>
    Forest.Live.of_roots hp fun r hr _ => hl r hr
  exact ⟨⟨h.regular, fun n hn => (hl n hn).lt_size⟩, fun hp => h.nodup (hlive hp),
    fun hp hq => h.unique (hlive hp) (hlive hq), h.acyclic, fun hp => h.linked (hlive hp)⟩

/-- A rewiring made with care: live nodes are placed into a live holder, each once. What the
rewiring has not taken out itself is held by nothing, and the holder does not lie below it. -/
structure CarefullyRewired (f g : Forest) (hands : List NodeId) (p : NodeId) (φ : Field)
    (ys placed taken : List NodeId) : Prop extends Forest.Rewired f g p φ ys placed taken where
  holder_live : (⟨f, hands⟩ : World).Live p
  isNode : ∀ x ∈ placed, f.IsNode x
  placed_live : ∀ x ∈ placed, (⟨f, hands⟩ : World).Live x
  placed_nodup : placed.Nodup
  free : ∀ x ∈ placed, x ∈ taken ∨
    (∀ q, (⟨f, hands⟩ : World).Live q → x ∉ f.children q) ∧ ¬ f.Below x p

namespace CarefullyRewired

variable {p : NodeId} {φ : Field} {ys placed taken : List NodeId}

theorem live (hr : CarefullyRewired f g hands p φ ys placed taken) {q : NodeId}
    (hq : (⟨g, hands⟩ : World).Live q) : (⟨f, hands⟩ : World).Live q :=
  hr.live_of_live hr.placed_live hq

theorem count_placed (hr : CarefullyRewired f g hands p φ ys placed taken) {x : NodeId}
    (hx : x ∈ placed) : placed.count x = 1 :=
  List.count_eq_one_of_mem hr.placed_nodup hx

/-- What is put back was held by the receiver before. -/
theorem held_before (hr : CarefullyRewired f g hands p φ ys placed taken) {x : NodeId}
    (hx : x ∈ placed) (hxt : x ∈ taken) : x ∈ f.children p := by
  have hcount := hr.count_eq x
  have hys := List.count_pos_iff.2 (hr.placed_subset hx)
  have htaken := List.count_pos_iff.2 hxt
  have hocc : 0 < (f.occupants p φ).count x := by
    rw [hr.count_placed hx] at hcount
    omega
  exact Forest.mem_children.2 ⟨φ, hr.declared, List.count_pos_iff.1 hocc⟩

/-- What is placed has no other holder, before or after. -/
theorem holder_eq (hr : CarefullyRewired f g hands p φ ys placed taken)
    (h : (⟨f, hands⟩ : World).Consistent) {q x : NodeId} (hq : (⟨g, hands⟩ : World).Live q)
    (hx : x ∈ placed) (hxq : x ∈ g.children q) : q = p := by
  rcases hr.mem_children_of_mem hxq with hxq | ⟨rfl, -⟩
  · rcases hr.free x hx with hxt | ⟨hnone, -⟩
    · exact h.unique (hr.live hq) hr.holder_live hxq (hr.held_before hx hxt)
    · exact absurd hxq (hnone q (hr.live hq))
  · rfl

/-- What is held and has not been placed was held before. -/
theorem mem_of_not_placed (hr : CarefullyRewired f g hands p φ ys placed taken) {q x : NodeId}
    (hx : x ∉ placed) (hxq : x ∈ g.children q) : x ∈ f.children q :=
  (hr.mem_children_of_mem hxq).resolve_right fun e => hx e.2

theorem nodup_children (hr : CarefullyRewired f g hands p φ ys placed taken)
    (h : (⟨f, hands⟩ : World).Consistent) : (g.children p).Nodup := by
  refine List.nodup_iff_count_le_one.2 fun x => ?_
  show (g.children p).count x ≤ 1
  have hcount := hr.count_children x
  have hold : (f.children p).count x ≤ 1 :=
    List.nodup_iff_count_le_one.1 (h.nodup hr.holder_live) x
  by_cases hx : x ∈ placed
  · rw [hr.count_placed hx] at hcount
    rcases hr.free x hx with hxt | ⟨hnone, -⟩
    · have := List.count_pos_iff.2 hxt
      omega
    · have := List.count_eq_zero.2 (hnone p hr.holder_live)
      omega
  · have := List.count_eq_zero.2 hx
    omega

/-- A node that is still held where it was cannot have been taken out. -/
theorem not_taken (hr : CarefullyRewired f g hands p φ ys placed taken)
    (h : (⟨f, hands⟩ : World).Consistent) {c : NodeId} (hx : c ∉ placed)
    (hc : c ∈ g.children p) : c ∉ taken := by
  intro hxt
  have hcount := hr.count_children c
  have hold : (f.children p).count c ≤ 1 :=
    List.nodup_iff_count_le_one.1 (h.nodup hr.holder_live) c
  have hstill : 0 < (g.children p).count c := List.count_pos_iff.2 hc
  have htaken := List.count_pos_iff.2 hxt
  have hnew := List.count_eq_zero.2 hx
  omega

theorem linked (hr : CarefullyRewired f g hands p φ ys placed taken)
    (h : (⟨f, hands⟩ : World).Consistent) {q c : NodeId} (hq : (⟨g, hands⟩ : World).Live q)
    (hnode : f.IsNode q) (hc : c ∈ g.children q) : g.link c = some q := by
  rw [hr.link_eq]
  by_cases hx : c ∈ placed
  · have hqp := hr.holder_eq h hq hx hc
    rw [if_pos hx, hqp]
    exact (h.regular.owner_eq_some hr.declared).2 ⟨rfl, hqp ▸ hnode⟩
  · have hlink := h.linked (hr.live hq) hnode (hr.mem_of_not_placed hx hc)
    rw [if_neg hx, if_neg, hlink]
    rintro ⟨hxt, howner⟩
    obtain ⟨rfl, -⟩ := (h.regular.owner_eq_some hr.declared).1 (howner.symm.trans hlink)
    exact hr.not_taken h hx hc hxt

end CarefullyRewired

/-- **A careful rewiring keeps a world consistent.** -/
theorem rewired {p : NodeId} {φ : Field} {ys placed taken : List NodeId}
    (h : (⟨f, hands⟩ : World).Consistent)
    (hr : CarefullyRewired f g hands p φ ys placed taken) : (⟨g, hands⟩ : World).Consistent := by
  refine ⟨⟨h.regular.rewired hr.toRewired hr.isNode, ?_⟩, fun {q} hq => ?_,
    fun {q q' c} hq hq' hc hc' => ?_, ?_, fun {q c} hq hnode hc => ?_⟩
  · intro n hn
    exact hr.size_eq ▸ h.hands_lt n hn
  · by_cases hqp : q = p
    · rw [hqp]
      exact hr.nodup_children h
    · rw [hr.children_of_ne hqp]
      exact h.nodup (hr.live hq)
  · by_cases hx : c ∈ placed
    · rw [hr.holder_eq h hq hx hc, hr.holder_eq h hq' hx hc']
    · exact h.unique (hr.live hq) (hr.live hq') (hr.mem_of_not_placed hx hc)
        (hr.mem_of_not_placed hx hc')
  · refine hr.acyclic (fun y hy => ?_) h.acyclic h.regular.closed
    rcases hr.free y hy with hyt | ⟨-, hbelow⟩
    · exact h.acyclic y (hr.held_before hy hyt)
    · exact hbelow
  · exact hr.linked h hq (hr.isNode_iff.1 hnode) hc

/-- New records, one of which is taken in hand. -/
theorem sprouted {k : NodeId} (h : (⟨f, hands⟩ : World).Consistent) (hs : Forest.Sprouted f g)
    (hreg : g.Regular) (hk : f.size ≤ k) (hlt : k < g.size) :
    (⟨g, k :: hands⟩ : World).Consistent := by
  have hclosed := h.regular.closed
  have hold : ∀ {j}, j < f.size → g.children j = f.children j := hs.grows.children_eq
  have hlive : ∀ {q}, (⟨g, k :: hands⟩ : World).Live q →
      f.size ≤ q ∨ (⟨f, hands⟩ : World).Live q := hs.live_cases hclosed h.hands_lt hk
  refine ⟨⟨hreg, fun n hn => ?_⟩, fun {p} hp => ?_, fun {p q c} hp hq hc hc' => ?_,
    fun {p} c hc hb => ?_, fun {p c} hp hnode hc => ?_⟩
  · rcases List.mem_cons.1 hn with rfl | hn
    · exact hlt
    · exact Nat.lt_of_lt_of_le (h.hands_lt n hn) hs.size_le
  · rcases hlive hp with hle | hp'
    · exact (hs.ordered p hp.lt_size hle).imp Nat.ne_of_lt
    · rw [hold hp'.lt_size]
      exact h.nodup hp'
  · -- new nodes hold new ones and old nodes old ones
    rcases hlive hp with hle | hp' <;> rcases hlive hq with hle' | hq'
    · have h₁ := (hs.held_new p hp.lt_size hle c hc).2.2
      have h₂ := (hs.held_new q hq.lt_size hle' c hc').2.2
      exact Option.some.inj (h₁.symm.trans h₂)
    · have h₁ := (hs.held_new p hp.lt_size hle c hc).1
      rw [hold hq'.lt_size] at hc'
      exact absurd (hclosed q c hc') (Nat.not_lt.2 h₁)
    · have h₁ := (hs.held_new q hq.lt_size hle' c hc').1
      rw [hold hp'.lt_size] at hc
      exact absurd (hclosed p c hc) (Nat.not_lt.2 h₁)
    · rw [hold hp'.lt_size] at hc
      rw [hold hq'.lt_size] at hc'
      exact h.unique hp' hq' hc hc'
  · rcases Nat.lt_or_ge p f.size with hp | hle
    · rw [hold hp] at hc
      exact h.acyclic c hc (hs.grows.below hclosed (hclosed p c hc) hb)
    · obtain ⟨hge, hcp, -⟩ := hs.held_new p (Forest.lt_size_of_mem_children hc) hle c hc
      exact absurd (hs.below_new hge hb).2 (Nat.not_le.2 hcp)
  · rcases hlive hp with hle | hp'
    · exact (hs.held_new p hp.lt_size hle c hc).2.2
    · rw [hold hp'.lt_size] at hc
      rw [Forest.IsNode, hs.record_old p hp'.lt_size] at hnode
      rw [Forest.link, hs.record_old c (hclosed p c hc)]
      exact h.linked hp' hnode hc

/-- Changes to attributes and to the journal. -/
theorem amended (h : (⟨f, hands⟩ : World).Consistent) (ha : Forest.Amended f g) :
    (⟨g, hands⟩ : World).Consistent := by
  have hlive : ∀ {q}, (⟨g, hands⟩ : World).Live q → (⟨f, hands⟩ : World).Live q := fun hq =>
    Forest.Live.congr hq ha.size_eq ha.children_eq
  refine ⟨⟨h.regular.amended ha, fun n hn => ha.size_eq ▸ h.hands_lt n hn⟩, fun {p} hp => ?_,
    fun {p q c} hp hq hc hc' => ?_, fun {p} c hc hb => ?_, fun {p c} hp hnode hc => ?_⟩
  · rw [ha.children_eq]
    exact h.nodup (hlive hp)
  · rw [ha.children_eq] at hc hc'
    exact h.unique (hlive hp) (hlive hq) hc hc'
  · rw [ha.children_eq] at hc
    exact h.acyclic c hc (Forest.Live.congr hb ha.size_eq ha.children_eq)
  · rw [ha.children_eq] at hc
    rw [ha.link_eq]
    exact h.linked (hlive hp) (ha.isNode_iff.1 hnode) hc

/-- What a draft holds had no link, and gets the right one when the draft becomes a node. -/
theorem assemble {d : NodeId} {l : Location} (h : (⟨f, hands⟩ : World).Consistent)
    (hd : (⟨f, hands⟩ : World).Live d) (hdraft : ¬ f.IsNode d) :
    (⟨f.assemble d l, hands⟩ : World).Consistent := by
  have hsize := Forest.size_assemble f d l
  have hchildren := Forest.children_assemble f d (l := l)
  have hlive : ∀ {q}, (⟨f.assemble d l, hands⟩ : World).Live q → (⟨f, hands⟩ : World).Live q :=
    fun hq => Forest.Live.congr hq hsize hchildren
  refine ⟨⟨h.regular.assemble hd.lt_size, fun n hn => hsize ▸ h.hands_lt n hn⟩, fun {p} hp => ?_,
    fun {p q c} hp hq hc hc' => ?_, fun {p} c hc hb => ?_, fun {p c} hp hnode hc => ?_⟩
  · rw [hchildren]
    exact h.nodup (hlive hp)
  · rw [hchildren] at hc hc'
    exact h.unique (hlive hp) (hlive hq) hc hc'
  · rw [hchildren] at hc
    exact h.acyclic c hc (Forest.Live.congr hb hsize hchildren)
  · rw [hchildren] at hc
    rw [Forest.link_assemble hd.lt_size (h.regular.closed d)]
    by_cases hcd : c ∈ f.children d
    · rw [if_pos hcd, h.unique (hlive hp) hd hc hcd]
    · rw [if_neg hcd, if_neg]
      · have hnode' := ((Forest.isNode_assemble hd.lt_size).1 hnode).resolve_right
          fun e => hcd (e ▸ hc)
        exact h.linked (hlive hp) hnode' hc
      · rintro rfl
        exact hdraft (h.regular.isNode_of_mem hc)

/-! ### Construction -/

/-- A draft lies below nothing but itself. -/
theorem not_below_draft {d x : NodeId} (hreg : f.Regular) (hd : ¬ f.IsNode d) (hx : f.IsNode x) :
    ¬ f.Below x d := by
  intro hb
  cases hb with
  | root hmem _ => exact hd (List.mem_singleton.1 hmem ▸ hx)
  | held _ hc _ => exact hd (hreg.isNode_of_mem hc)

/-- A draft in the middle of being filled: what is still to be placed is in hand, each node
once, and nothing holds it. -/
structure BeingFilled (hands : List NodeId) (d : NodeId) (as : List Placement) (f : Forest) :
    Prop where
  consistent : (⟨f, d :: hands⟩ : World).Consistent
  draft : ¬ f.IsNode d
  nodup : (as.flatMap Placement.nodes).Nodup
  isNode : ∀ x ∈ as.flatMap Placement.nodes, f.IsNode x
  mem_hands : ∀ x ∈ as.flatMap Placement.nodes, x ∈ hands
  free : ∀ x ∈ as.flatMap Placement.nodes, ∀ p, (⟨f, d :: hands⟩ : World).Live p →
    x ∉ f.children p

theorem BeingFilled.place {d : NodeId} {a : Placement} {as : List Placement}
    (h : BeingFilled hands d (a :: as) f) (hg : (Mutation.place d a).perform f = (.ok (), g)) :
    BeingFilled hands d as g := by
  obtain ⟨h, hdraft, hnodup, hnode, hhands, hfree⟩ := h
  simp only [List.flatMap_cons, List.mem_append, or_imp, forall_and] at hnode hhands hfree
  rw [List.flatMap_cons, List.nodup_append'] at hnodup
  obtain ⟨hnodup₁, hnodup₂, hdisjoint⟩ := hnodup
  have hd : (⟨f, d :: hands⟩ : World).Live d := h.live_hand List.mem_cons_self
  rcases Forest.place_rewired hg hd.lt_size fun x hx => (hnode.1 x hx).lt_size with
    rfl | ⟨φ, ys, taken, hr⟩
  · exact ⟨h, hdraft, hnodup₂, hnode.2, hhands.2, hfree.2⟩
  · have hplaced : ∀ x ∈ a.nodes, (⟨f, d :: hands⟩ : World).Live x := fun x hx =>
      h.live_hand (List.mem_cons_of_mem _ (hhands.1 x hx))
    have hg := h.rewired ⟨hr, hd, hnode.1, hplaced, hnodup₁, fun x hx =>
      .inr ⟨hfree.1 x hx, not_below_draft h.regular hdraft (hnode.1 x hx)⟩⟩
    refine ⟨hg, fun hd => hdraft (hr.isNode_iff.1 hd), hnodup₂,
      fun x hx => hr.isNode_iff.2 (hnode.2 x hx), hhands.2, fun x hx p hp hxp => ?_⟩
    rcases hr.mem_children_of_mem hxp with hxp | ⟨-, hxa⟩
    · exact hfree.2 x hx p (hr.live_of_live hplaced hp) hxp
    · exact hdisjoint hxa hx

/-- A draft is made, filled and assembled. If a placement is refused the draft is given up. -/
theorem construct {l : Location} {k : Head} {as : List Placement}
    (h : (⟨f, hands⟩ : World).Consistent) (hc : (Call.construct l k as).Possible f)
    (hcare : (Call.construct l k as).Careful ⟨f, hands⟩) :
    ((⟨f, hands⟩ : World).after (.call (.construct l k as))).Consistent := by
  have hfree : ∀ x ∈ as.flatMap Placement.nodes, ∀ p, (⟨f, hands⟩ : World).Live p →
      x ∉ f.children p := fun x hx => ((hcare.placed_free x hx).resolve_left id).1
  have hnil := Record.children_draft k
  have hborn := Forest.born_push f hnil
  have hs := Forest.sprouted_push f hnil
  have hserved := Forest.served_push_draft h.regular k
  have hstart : BeingFilled hands f.size as (f.push { head := k }) := by
    refine ⟨h.sprouted hs hserved.regular (Nat.le_refl _) (hserved.made_lt _ List.mem_cons_self),
      ?_, hcare.placed_nodup, fun x hx => hborn.isNode_of_isNode (hc.isNode_placed x hx),
      fun x hx => mem_hands_of_live (hcare.placed_live x hx) (hfree x hx),
      fun x hx p hp hxp => ?_⟩
    · rw [Forest.IsNode, hborn.record_new]
      exact Bool.false_ne_true
    · rcases hs.live_cases h.regular.closed h.hands_lt (Nat.le_refl _) hp with hle | hp'
      · have hge := (hs.held_new p hp.lt_size hle x hxp).1
        exact absurd (hc.isNode_placed x hx).lt_size (Nat.not_lt.2 hge)
      · rw [hs.grows.children_eq hp'.lt_size] at hxp
        exact hfree x hx p hp' hxp
  obtain ⟨rest, hrest, hok⟩ := Forest.fill_invariant (I := BeingFilled hands f.size)
    (fun _ _ _ _ h hg => h.place hg) as _ hstart
  simp only [after, Forest.call, Forest.construct, Forest.draft]
  generalize (f.push { head := k }).fill f.size as = r at hrest hok
  obtain ⟨outcome, g⟩ := r
  have hd := hrest.consistent.live_hand List.mem_cons_self
  cases outcome with
  | ok => exact hrest.consistent.assemble hd hrest.draft
  | error e => exact hrest.consistent.hold fun n hn =>
      hrest.consistent.live_hand (List.mem_cons_of_mem _ hn)

/-! ### The other calls -/

/-- A body is created where there was none, and put in its place. -/
theorem body {p : NodeId} (h : (⟨f, hands⟩ : World).Consistent)
    (hp : (⟨f, hands⟩ : World).Live p) (hk : f.kind p = .macroStatement) :
    ((⟨f, hands⟩ : World).after (.call (.body p))).Consistent := by
  simp only [after, Forest.call]
  cases hb : f.single p .block with
  | some b =>
    have hmem : b ∈ f.children p := Forest.mem_children.2 ⟨.single .block, by rw [hk]; decide,
      Option.mem_toList.2 hb⟩
    rw [Forest.body_of_some hb]
    refine h.hold fun n hn => ?_
    rcases List.mem_cons.1 hn with rfl | hn
    · exact .held hp hmem (h.regular.closed p n hmem)
    · exact h.live_hand hn
  | none =>
    have hs := Forest.sprouted_push f (Record.children_empty .block f.size)
    have hborn := Forest.born_push f (Record.children_empty .block f.size)
    have hr := Forest.body_rewired hp.lt_size hk hb
    have hpush : (⟨f.push (Record.empty .block f.size), f.size :: hands⟩ : World).Consistent :=
      h.sprouted hs (h.regular.born_empty .block) (Nat.le_refl _)
        (by rw [hborn.size_eq]; exact Nat.lt_succ_self _)
    rw [Forest.body_of_none hb]
    refine hpush.rewired ⟨hr, (hs.grows.live hp).mono (List.subset_cons_self ..), ?_, ?_,
      List.nodup_singleton _, ?_⟩ <;> intro x hx <;> rw [List.mem_singleton.1 hx]
    · rw [Forest.IsNode, hborn.record_new]
      rfl
    · exact hpush.live_hand List.mem_cons_self
    · refine .inr ⟨fun q hq hxq => ?_, fun hbelow => ?_⟩
      · rcases hs.live_cases h.regular.closed h.hands_lt (Nat.le_refl _) hq with hle | hq'
        · have hlt : f.size < q := (hs.held_new q hq.lt_size hle _ hxq).2.1
          have hsize : q < (f.push (Record.empty .block f.size)).size := hq.lt_size
          rw [hborn.size_eq] at hsize
          exact absurd hlt (Nat.not_lt.2 (Nat.le_of_lt_succ hsize))
        · rw [hs.grows.children_eq hq'.lt_size] at hxq
          exact absurd (h.regular.closed q _ hxq) (Nat.lt_irrefl _)
      · exact absurd (hs.below_new (Nat.le_refl _) hbelow).1 (Nat.not_le.2 hp.lt_size)

theorem change {p : NodeId} {c : Change} (h : (⟨f, hands⟩ : World).Consistent)
    (hc : (Call.change p c).Possible f) (hcare : (Call.change p c).Careful ⟨f, hands⟩) :
    ((⟨f, hands⟩ : World).after (.call (.change p c))).Consistent := by
  have hp := hcare.receiver_live p rfl
  rw [after]
  rcases Forest.call_change_cases f p c with ⟨made, g, hg, hcall⟩ | hcall
  · rw [hcall]
    obtain ⟨hmade, hg⟩ := Forest.change_rewired hg hp.lt_size fun x hx =>
      (hc.isNode_placed x hx).lt_size
    -- what is handed out was held before, so that it may just as well be in hand already
    have hhold : ∀ n ∈ made ++ hands, (⟨f, hands⟩ : World).Live n := by
      intro n hn
      rcases List.mem_append.1 hn with hn | hn
      · exact .held hp (hmade n hn) (h.regular.closed p n (hmade n hn))
      · exact h.live_hand hn
    have hbefore := h.hold hhold
    have hlive : ∀ {q}, (⟨f, made ++ hands⟩ : World).Live q → (⟨f, hands⟩ : World).Live q :=
      fun hq => Forest.Live.of_roots hq fun r hr _ => hhold r hr
    have hlive' : ∀ {q}, (⟨f, hands⟩ : World).Live q → (⟨f, made ++ hands⟩ : World).Live q :=
      fun hq => Forest.Live.mono hq (List.subset_append_right ..)
    rcases hg with hsame | ⟨φ, ys, taken, hr, hkeep⟩
    · exact hbefore.amended (.of_records hsame)
    · refine hbefore.rewired ⟨hr, hlive' hp, hc.isNode_placed,
        fun x hx => hlive' (hcare.placed_live x hx), hcare.placed_nodup, fun x hx => ?_⟩
      refine (hcare.placed_free x hx).imp (hkeep x hx) ?_
      rintro ⟨hnone, hbelow⟩
      exact ⟨fun q hq => hnone q (hlive hq), hbelow p rfl⟩
  · rw [hcall]
    exact h

theorem acyclicBelow {w : World} (h : w.Consistent) (n : NodeId) : w.forest.AcyclicBelow n :=
  fun _ _ => h.acyclic

/-- With care, nothing is kept that is not live. -/
theorem kept_iff_live {w : World} {n : NodeId} (h : w.Consistent) : w.Kept n ↔ w.Live n :=
  ⟨fun hn => Forest.Kept.live hn fun _ _ => h.acyclic, fun hn => Forest.Live.kept hn⟩

theorem copy {n : NodeId} (h : (⟨f, hands⟩ : World).Consistent)
    (hn : (⟨f, hands⟩ : World).Live n) (hnode : f.IsNode n) :
    ((⟨f, hands⟩ : World).after (.call (.copy n))).Consistent := by
  have hfits := (h.acyclicBelow n).fitsWithin h.regular.closed hn.lt_size
  obtain ⟨hs, hcopy⟩ := Forest.sprouted_copyWithin f.size f n h.regular.closed hn.lt_size hfits
  have hreg := (Forest.regular_copyWithin f.size f n h.regular hnode).regular
  exact h.sprouted hs hreg hcopy.fresh hcopy.isNode.lt_size

/-- **Every careful move keeps a consistent world consistent.** -/
theorem after {w : World} {m : Move} (h : w.Consistent) (hm : w.CanMake m) (hcare : Careful w m) :
    (w.after m).Consistent := by
  cases m with
  | hold hands => exact h.hold hcare
  | call c =>
    have hlive := hcare.receiver_live
    cases c with
    | draft k =>
      have hserved := Forest.served_push_draft h.regular k
      exact h.sprouted (Forest.sprouted_push _ (Record.children_draft k)) hserved.regular
        (Nat.le_refl _) (hserved.made_lt _ List.mem_cons_self)
    | assemble d l =>
      refine (h.hold fun n hn => ?_).assemble
        (Forest.Live.mono (hlive d rfl) (List.subset_cons_self ..)) hm.sensible
      rcases List.mem_cons.1 hn with rfl | hn
      · exact hlive n rfl
      · exact h.live_hand hn
    | construct l k as => exact h.construct hm hcare
    | change p c => exact h.change hm hcare
    | body p => exact h.body (hlive p rfl) hm.sensible
    | copy n => exact h.copy (hlive n rfl) hm.sensible
    | amend n a => exact h.amended (Forest.amend_amended hm.sensible)
    | report journal => exact h.amended (.of_records rfl)

end Consistent

/-- **A careful run leads to consistent worlds only.** -/
theorem Run.consistent {w v : World} (h : Run Careful w v) (hw : w.Consistent) : v.Consistent :=
  h.invariant hw fun _ _ hu hm hcare => hu.after hm hcare

/-! ## What the user sees of it -/

/-- Everything is in order: a node occurs at most once in all fields of all live records,
nothing lies below itself, the parent of a node is the live node that holds it, and checking the
links below a node finds nothing wrong. -/
structure InOrder (w : World) : Prop where
  occurs_once : ∀ {c p q i j}, w.Live p → w.Live q → w.forest.childAt? p i = some c →
    w.forest.childAt? q j = some c → p = q ∧ i = j
  acyclic : ∀ {p c}, c ∈ w.forest.children p → ¬ w.forest.Below c p
  parent_iff : ∀ {c p},
    w.parent? c = some p ↔ w.Live p ∧ w.forest.IsNode p ∧ c ∈ w.forest.children p
  verified : ∀ {n}, w.Live n → w.forest.IsNode n →
    w.forest.verifyLinks n = (.ok (), w.forest)

theorem parent?_eq_some {w : World} {c p : NodeId} :
    w.parent? c = some p ↔ w.forest.link c = some p ∧ w.Kept p := by
  rw [parent?, Forest.parent?, Option.filter_eq_some_iff]
  exact and_congr_right fun _ => Forest.contains_kept_iff

theorem Consistent.inOrder {w : World} (h : w.Consistent) : w.InOrder where
  occurs_once hp hq hi hj := by
    have hpq := h.unique hp hq (Forest.mem_of_childAt? hi) (Forest.mem_of_childAt? hj)
    subst hpq
    exact ⟨rfl, Forest.place_unique (h.nodup hp) hi hj⟩
  acyclic hc := h.acyclic _ hc
  parent_iff {c p} := by
    rw [parent?_eq_some, h.kept_iff_live]
    constructor
    · rintro ⟨hlink, hp⟩
      obtain ⟨hc, hnode⟩ := h.regular.holds_of_link hlink
      exact ⟨hp, hnode, hc⟩
    · rintro ⟨hp, hnode, hc⟩
      exact ⟨h.linked hp hnode hc, hp⟩
  verified {n} hn hnode := by
    refine Forest.verifyLinks_eq_ok hn.lt_size h.regular.closed fun m hm c hc => ?_
    have hm' : w.forest.IsNode m := by
      cases hm with
      | root hmem _ => exact List.mem_singleton.1 hmem ▸ hnode
      | held _ hc _ => exact h.regular.isNode_of_mem hc
    exact h.linked (hm.trans_live hn) hm' hc

/-- In every world of a careful run everything is in order. A substitution in which all is done
with care, by the client and in the replacements, is part of such a run, with all the worlds in
which the client is called. -/
theorem careful_run_inOrder :
    (∀ {w : World}, Run Careful {} w → w.InOrder) ∧
      ∀ {σ : Type} {offer : Forest.Offer σ} {hands : σ → List NodeId} {held : List NodeId}
        {s : Forest × σ} {depth : Nat} {root : NodeId},
        Run Careful {} (midway hands held s) → (midway hands held s).Live root →
        (∀ o ∈ Forest.offers offer depth held root s, OfferObeys Careful {} hands offer o) →
        (∀ o ∈ Forest.offers offer depth held root s,
          Run Careful {} (ofCall hands o.toHandover)) ∧
          Run Careful {} (midway hands held (Forest.replaceAll offer depth held root s).2) :=
  ⟨fun h => (h.consistent .empty).inOrder, fun hrun hroot hobeys =>
    replaceAll_run lenient_careful sound_empty hrun hroot hobeys⟩

/-- A macro statement with a sum as its argument, built through a draft, given a body and
copied; the copy is dropped, and another name is in hand. -/
def surgery : List Move :=
  [.call (.construct {} (.reference "a") []),
   .call (.construct {} (.reference "b") []),
   .call (.construct {} (.binary .addition) [.single .left (some 0), .single .right (some 1)]),
   .call (.draft (.macroStatement "m")),
   .call (.change 3 (.edit .arguments (.append 2))),
   .call (.assemble 3 {}),
   .call (.body 3),
   .call (.copy 3),
   .call (.construct {} (.reference "c") []),
   .hold [3, 10]]

/-- Answers the first operand of the sum with the name in hand. -/
def swapOperand : Forest.Offer Unit := fun _ n s => (if n = 0 then some 10 else none, s)

theorem careful_run_inOrder_surgery :
    (surgery.foldl after {}).InOrder ∧
      (midway (fun _ => [3, 10]) [] (Forest.replaceAll swapOperand 1 [] 2
        ((surgery.foldl after {}).forest, ())).2).InOrder := by
  have hrun : Run Careful {} (surgery.foldl after {}) := .of_allows (.refl _) (by decide +kernel)
  have hmidway : Run Careful {}
      (midway (fun _ => [3, 10]) [] ((surgery.foldl after {}).forest, ())) := hrun
  have hchildren : (surgery.foldl after {}).forest.children 2 = [0, 1] := by decide +kernel
  refine ⟨careful_run_inOrder.1 hrun,
    careful_run_inOrder.1 (careful_run_inOrder.2 hmidway (by decide +kernel) ?_).2⟩
  rw [Forest.offers, Forest.offersWithin, hchildren]
  refine List.forall_mem_cons.2 ⟨⟨fun _ _ => .refl _, ?_⟩, ?_⟩
  · rintro x ⟨⟩ _ _
    decide +kernel
  · simp only [swapOperand, if_true]
    split
    · simp
    · refine List.forall_mem_cons.2 ⟨⟨fun _ _ => .refl _, fun x hx => ?_⟩, ?_⟩
      · exact absurd hx (by simp [swapOperand])
      · exact List.forall_mem_nil _

end World

end SyntaxForest
