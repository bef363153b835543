import SyntaxForest.Proofs.Copies
import SyntaxForest.Proofs.Walks

/-!
# Separation: a copy and its source go their own ways

A call names a receiver and the nodes that are to be placed, but it reaches further: what is
taken out of a field loses its link, an assembled draft links all that it holds, and clearing the
bindings of a node goes all the way down. All of this stays among the nodes that can be reached
from those named. So a set of nodes from which no way down leads out, and which takes in all that
is yet to come, is a *region*: a run that names only nodes of the region changes no record
outside it, and leaves it a region.

After a copy has been made there are two regions. The copy together with what comes later is one,
since new nodes hold new nodes only. All that is not in the copy is another: a node of the copy
is linked to its only holder, which is in the copy too.

A substitution in a region has to find its way through it. The nodes that it offers and their
holders belong to the region by themselves; only what the client does and answers has to be asked
for.
-/

namespace SyntaxForest

namespace Forest

variable {R : NodeId → Prop} {f g h : Forest}

/-- No way down leads out of `R`, and identities still to be given out belong to it. -/
structure Region (R : NodeId → Prop) (f : Forest) : Prop where
  closed : ∀ {p c}, R p → c ∈ f.children p → R c
  fresh : ∀ {m}, f.size ≤ m → R m

/-- On the way from `f` to `g` nothing has happened outside `R`, which is still a region. -/
structure Confined (R : NodeId → Prop) (f g : Forest) : Prop where
  region : Region R g
  record_eq : ∀ {m}, ¬ R m → g.record m = f.record m

theorem Region.confined_refl (hR : Region R f) : Confined R f f := ⟨hR, fun _ => rfl⟩

theorem Confined.trans (h₁ : Confined R f g) (h₂ : Confined R g h) : Confined R f h :=
  ⟨h₂.region, fun hm => (h₂.record_eq hm).trans (h₁.record_eq hm)⟩

/-! ## What the four sorts of change do to a region -/

/-- A field of the region is rewired. What is taken out of it is in the region, too. -/
theorem Region.rewired {p : NodeId} {φ : Field} {ys placed taken : List NodeId}
    (hR : Region R f) (hr : Rewired f g p φ ys placed taken) (hp : R p)
    (hplaced : ∀ x ∈ placed, R x) : Confined R f g := by
  have htaken : ∀ x ∈ taken, R x := by
    intro x hx
    rcases hr.mem_of_taken hx with hx | hx
    · exact hR.closed hp (mem_children.2 ⟨φ, hr.declared, hx⟩)
    · exact hplaced x hx
  refine ⟨⟨fun {q c} hq hc => ?_, fun hm => hR.fresh (by rwa [hr.size_eq] at hm)⟩, fun {m} hm => ?_⟩
  · rcases hr.mem_children_of_mem hc with hc | ⟨-, hc⟩
    · exact hR.closed hq hc
    · exact hplaced c hc
  · have hlink : g.link m = f.link m := by
      rw [hr.link_eq, if_neg fun hx => hm (hplaced m hx), if_neg fun hx => hm (htaken m hx.1)]
    exact Record.eq_of_withLink (hr.record_of_ne (by rintro rfl; exact hm hp)) hlink

/-- A record comes to the store, and is in the region like everything to come. -/
theorem Region.born {r : Record} (hR : Region R f) (hb : Born f g r)
    (hr : ∀ c ∈ r.children, R c) : Confined R f g := by
  refine ⟨⟨fun {p c} hp hc => ?_, fun {m} hm => hR.fresh ?_⟩, fun {m} hm => ?_⟩
  · by_cases hnew : p = f.size
    · rw [hnew, hb.children_new] at hc
      exact hr c hc
    · rw [hb.children_old hnew] at hc
      exact hR.closed hp hc
  · rw [hb.size_eq] at hm
    exact Nat.le_of_succ_le hm
  · have hold : m ≠ f.size := by
      rintro rfl
      exact hm (hR.fresh (Nat.le_refl _))
    rw [hb.record_old m hold, if_neg fun hc => hm (hr m hc)]

/-- A draft of the region is assembled. -/
theorem Region.assemble {d : NodeId} {l : Location} (hR : Region R f) (hd : R d) :
    Confined R f (f.assemble d l) := by
  refine ⟨⟨fun {p c} hp hc => ?_, fun hm => hR.fresh (by rwa [size_assemble] at hm)⟩,
    fun {m} hm => ?_⟩
  · rw [children_assemble] at hc
    exact hR.closed hp hc
  · have hne : d ≠ m := by rintro rfl; exact hm hd
    rw [record_assemble, if_neg fun hc => hm (hR.closed hd hc.1), if_neg fun e => hne e.1]

/-- Attributes are amended, of nodes of the region only. -/
theorem Region.amended (hR : Region R f) (ha : Amended f g)
    (hrecord : ∀ {m}, ¬ R m → g.record m = f.record m) : Confined R f g := by
  refine ⟨⟨fun {p c} hp hc => ?_, fun hm => hR.fresh (by rwa [ha.size_eq] at hm)⟩, hrecord⟩
  rw [ha.children_eq] at hc
  exact hR.closed hp hc

/-! ## What calls do to a region -/

/-- The listing of a node of the region stays in it. -/
theorem Region.of_mem_preorderWithin (hR : Region R f) : ∀ (depth : Nat) {n m : NodeId}, R n →
    m ∈ f.preorderWithin depth n → R m := by
  intro depth
  induction depth with
  | zero => intro n m _ hm; exact absurd hm List.not_mem_nil
  | succ depth ih =>
    intro n m hn hm
    rcases List.mem_cons.1 hm with rfl | hm
    · exact hn
    · obtain ⟨c, hc, hm⟩ := List.mem_flatMap.1 hm
      exact ih (hR.closed hn hc) hm

theorem record_clearWithin_of_not (depth : Nat) (f : Forest) (n : NodeId) (hR : Region R f)
    (hn : R n) {m : NodeId} (hm : ¬ R m) : (clearWithin depth f n).record m = f.record m :=
  (clearWithin_wiped depth f n).record_of_not_mem fun hmem =>
    hm (hR.of_mem_preorderWithin depth hn hmem)

theorem Region.amend {n : NodeId} {a : Amendment} (hR : Region R f) (hn : R n)
    (ha : (Call.amend n a).Sensible f) : Confined R f (f.amend n a) := by
  refine hR.amended (amend_amended ha) fun {m} hm => ?_
  have hne : n ≠ m := by rintro rfl; exact hm hn
  cases a with
  | noBindings => exact record_clearWithin_of_not f.size f n hR hn hm
  | _ => exact record_update_of_ne f hne _

theorem Region.body {p : NodeId} (hR : Region R f) (hp : R p) (hlt : p < f.size)
    (hk : f.kind p = .macroStatement) : Confined R f (f.body p).2 := by
  cases hb : f.single p .block with
  | some b =>
    rw [body_of_some hb]
    exact hR.confined_refl
  | none =>
    have hborn := hR.born (born_push f (Record.children_empty .block f.size))
      (by simp [Record.children_empty])
    refine hborn.trans (hborn.region.rewired (body_rewired hlt hk hb) hp fun x hx => ?_)
    rw [List.mem_singleton.1 hx]
    exact hR.fresh (Nat.le_refl _)

theorem Region.change {p : NodeId} {c : Change} (hR : Region R f) (hp : R p) (hlt : p < f.size)
    (hplaced : ∀ x ∈ c.placed, R x) (hxs : ∀ x ∈ c.placed, x < f.size) :
    Confined R f (f.call (.change p c)).2 := by
  rcases call_change_cases f p c with ⟨made, g, hg, hcall⟩ | hcall
  · rw [hcall]
    rcases (change_rewired hg hlt hxs).2 with hsame | ⟨φ, ys, taken, hr, -⟩
    · exact hR.amended (.of_records hsame) fun _ => by rw [record, record, hsame]
    · exact hR.rewired hr hp hplaced
  · rw [hcall]
    exact hR.confined_refl

/-- A node is constructed of nodes of the region; the draft is new, and so in the region. -/
theorem Region.construct {l : Location} {k : Head} {as : List Placement} (hR : Region R f)
    (hplaced : ∀ x ∈ as.flatMap Placement.nodes, R x ∧ f.IsNode x) :
    Confined R f (f.construct l k as).2 := by
  have hd : R f.size := hR.fresh (Nat.le_refl _)
  have hborn := born_push f (Record.children_draft k)
  have hfill : Confined R f ((f.push { head := k }).fill f.size as).2 :=
    fill_induction (hR.born hborn (by simp)) (by rw [hborn.size_eq]; exact Nat.lt_succ_self _)
      (fun x hx => hborn.isNode_of_isNode (hplaced x hx).2) fun hg hr hxs =>
        hg.trans (hg.region.rewired hr hd fun x hx => (hplaced x (hxs x hx).1).1)
  rcases construct_cases f l k as with ⟨g, hg, hcon⟩ | ⟨e, g, hg, hcon⟩
  · rw [hg] at hfill
    rw [hcon]
    exact hfill.trans (hfill.region.assemble hd)
  · rw [hg] at hfill
    rw [hcon]
    exact hfill

theorem Region.sprouted (hR : Region R f) (hs : Sprouted f g) : Confined R f g := by
  refine ⟨⟨fun {p c} hp hc => ?_, fun hm => hR.fresh (Nat.le_trans hs.size_le hm)⟩,
    fun {m} hm => hs.record_old m (Nat.lt_of_not_le fun hle => hm (hR.fresh hle))⟩
  by_cases hold : p < f.size
  · rw [hs.grows.children_eq hold] at hc
    exact hR.closed hp hc
  · have hlt := lt_size_of_mem_children hc
    exact hR.fresh (hs.held_new p hlt (Nat.le_of_not_lt hold) c hc).1

end Forest

/-- The call names nodes of `R` only. A copy may be made of any tree: it names its source, but
does nothing to it. -/
def Call.Within (R : NodeId → Prop) (f : Forest) : Call → Prop
  | .copy n => f.AcyclicBelow n
  | c => (∀ p ∈ c.receiver?, R p) ∧ ∀ x ∈ c.placed, R x

instance (R : NodeId → Prop) [DecidablePred R] (f : Forest) :
    (c : Call) → Decidable (c.Within R f)
  | .copy n => inferInstanceAs (Decidable (f.AcyclicBelow n))
  | .draft _ | .assemble .. | .construct .. | .change .. | .body _ | .amend .. | .report _ =>
    inferInstanceAs (Decidable (_ ∧ _))

namespace Forest

/-- **A call that names nodes of a region only changes nothing outside it.** -/
theorem Region.call {R : NodeId → Prop} {f : Forest} {c : Call} (hR : Region R f)
    (hreg : f.Regular) (hc : c.Possible f) (hin : c.Within R f) : Confined R f (f.call c).2 := by
  have hlt := hc.receiver_lt
  cases c with
  | draft k => exact hR.born (born_push f (Record.children_draft k)) (by simp)
  | assemble d l => exact hR.assemble (hin.1 d rfl)
  | construct l k as =>
    rw [call_construct_snd]
    exact hR.construct fun x hx => ⟨hin.2 x hx, hc.isNode_placed x hx⟩
  | change p e =>
    exact hR.change (hin.1 p rfl) (hlt p rfl) hin.2 fun x hx => (hc.isNode_placed x hx).lt_size
  | body p => exact hR.body (hin.1 p rfl) (hlt p rfl) hc.sensible
  | copy n =>
    have hfits := AcyclicBelow.fitsWithin hin hreg.closed (hlt n rfl)
    exact hR.sprouted (sprouted_copyWithin f.size f n hreg.closed (hlt n rfl) hfits).1
  | amend n a => exact hR.amend (hin.1 n rfl) hc.sensible
  | report journal => exact hR.amended (.of_records rfl) fun _ => rfl

end Forest

namespace World

open Forest

/-- Calls name nodes of `R` only. -/
def Within (R : NodeId → Prop) : Discipline
  | w, .call c => c.Within R w.forest
  | _, .hold _ => True

instance (R : NodeId → Prop) [DecidablePred R] (w : World) : (m : Move) → Decidable (Within R w m)
  | .call c => inferInstanceAs (Decidable (c.Within R w.forest))
  | .hold _ => inferInstanceAs (Decidable True)

variable {R : NodeId → Prop}

theorem lenient_within (R : NodeId → Prop) : Lenient (Within R) :=
  ⟨fun _ => trivial, ⟨by simp [Call.receiver?], by simp [Call.placed]⟩⟩

/-- **A run in a region changes nothing outside it.** -/
theorem Run.confined {w v : World} (h : Run (Within R) w v) (hw : w.Sound)
    (hR : Region R w.forest) : Confined R w.forest v.forest := by
  refine (h.invariant (I := fun u => u.Sound ∧ Confined R w.forest u.forest)
    ⟨hw, hR.confined_refl⟩ fun u m hu hm hd => ⟨hu.1.after hm, ?_⟩).2
  cases m with
  | call c => exact hu.2.trans (hu.2.region.call hu.1.regular hm hd)
  | hold hands => exact hu.2

/-! ## The two regions after a copy -/

/-- The copy and what comes later: new nodes hold new nodes only. -/
theorem region_copy {g : Forest} (k : NodeId) (hclosed : g.Closed) :
    Region (fun i => g.Below k i ∨ g.size ≤ i) g where
  closed hp hc := by
    rcases hp with hp | hp
    · exact .inl (.held hp hc (hclosed _ _ hc))
    · exact absurd (lt_size_of_mem_children hc) (Nat.not_lt.2 hp)
  fresh hm := .inr hm

/-- Everything but the copy: what the copy holds is held by nobody else. -/
theorem region_rest {f g : Forest} {n k : NodeId} (hs : Sprouted f g) (hclosed : f.Closed)
    (hcopy : FreshCopy f g n k) : Region (fun i => ¬ g.Below k i) g where
  closed := by
    intro p c hp hc hbelow
    have hnew := (hs.below_new hcopy.fresh hbelow).1
    -- a holder of a new node is new, and the node is linked to it
    have hlink : g.link c = some p := by
      by_cases hold : p < f.size
      · rw [hs.grows.children_eq hold] at hc
        exact absurd (hclosed p c hc) (Nat.not_lt.2 hnew)
      · have hlt := lt_size_of_mem_children hc
        exact (hs.held_new p hlt (Nat.le_of_not_lt hold) c hc).2.2
    cases hbelow with
    | root hr _ =>
      rw [List.mem_singleton.1 hr, hcopy.unlinked] at hlink
      exact absurd hlink (by simp)
    | held hq hcq _ =>
      have hlinkq := (hs.held_new _ hq.lt_size (hs.below_new hcopy.fresh hq).1 _ hcq).2.2
      obtain rfl := Option.some.inj (hlink.symm.trans hlinkq)
      exact hp hq
  fresh hm hbelow := Nat.not_lt.2 hm hbelow.lt_size

/-- After a copy, a run that names only nodes of the copy and later ones leaves every record of
before as it was, and a run that never names a node of the copy leaves the copy as it was. For
substitutions on either side only the client's own moves and answers have to keep to that side:
the rest of the walk does so by itself. -/
theorem copy_and_source_apart {w : World} (hw : w.Reachable) {n : NodeId}
    (hn : w.forest.IsNode n) (hacyclic : w.forest.AcyclicBelow n) :
    let k := (w.forest.copy n).1
    let g := (w.forest.copy n).2
    let start := w.after (.call (.copy n))
    let copySide := fun i => g.Below k i ∨ g.size ≤ i
    let sourceSide := fun i => ¬ g.Below k i
    (∀ {v : World}, Run (Within copySide) start v →
      ∀ m < w.forest.size, v.forest.record m = w.forest.record m) ∧
    (∀ {v : World}, Run (Within sourceSide) start v →
      ∀ m, g.Below k m → v.forest.record m = g.record m) ∧
    ∀ side : NodeId → Prop, side = copySide ∨ side = sourceSide →
      ∀ {σ : Type} {offer : Offer σ} {hands : σ → List NodeId} {held : List NodeId}
        {s : Forest × σ} {depth : Nat} {root : NodeId},
      Run (Within side) start (midway hands held s) → (midway hands held s).Live root →
      side root →
      (∀ o ∈ offers offer depth held root s, side o.node → side o.holder →
        OfferObeys (Within side) start hands offer o) →
      (∀ o ∈ offers offer depth held root s, Run (Within side) start (ofCall hands o.toHandover)) ∧
        Run (Within side) start (midway hands held (replaceAll offer depth held root s).2) := by
  intro k g start copySide sourceSide
  have hclosed := hw.regular.closed
  obtain ⟨hs, hcopy⟩ : Sprouted w.forest g ∧ FreshCopy w.forest g n k :=
    sprouted_copyWithin w.forest.size w.forest n hclosed hn.lt_size
      (hacyclic.fitsWithin hclosed hn.lt_size)
  have hsound : start.Sound := (hw.sound sound_empty).after (m := .call (.copy n))
    ⟨by rintro p ⟨⟩; exact hn.lt_size, by simp [Call.placed], hn⟩
  have hcopySide : Region copySide start.forest := region_copy k (hs.closed hclosed)
  have hsourceSide : Region sourceSide start.forest := region_rest hs hclosed hcopy
  refine ⟨fun hrun m hm => ?_, fun hrun m hm => ?_,
    fun side hside σ offer hands held s depth root hrun hroot hrootSide hobeys => ?_⟩
  · have hout : ¬ copySide m := by
      rintro (hbelow | hle)
      · exact absurd hm (Nat.not_lt.2 (hs.below_new hcopy.fresh hbelow).1)
      · exact absurd hm (Nat.not_lt.2 (Nat.le_trans hs.size_le hle))
    exact ((hrun.confined hsound hcopySide).record_eq hout).trans (hs.record_old m hm)
  · exact (hrun.confined hsound hsourceSide).record_eq fun hout => hout hm
  · have hregion : Region side start.forest := by
      rcases hside with rfl | rfl
      · exact hcopySide
      · exact hsourceSide
    exact replaceAll_run_within (lenient_within side) hsound
      (fun hv hp hc => (hv.confined hsound hregion).region.closed hp hc) hrun hroot hrootSide hobeys

/-- Work on the copy of the tangled statement: an argument out, another in, and a body. -/
def workOnCopy : List Move :=
  [.call (.change 5 (.edit .arguments (.removeAt 0))),
   .call (.body 5),
   .call (.amend 5 .noBindings),
   .call (.construct {} (.reference "b") []),
   .call (.change 5 (.edit .arguments (.append 7))),
   .hold [5]]

/-- Work on the tangled statement itself, and on the other one that has its argument. -/
def workOnSource : List Move :=
  [.call (.change 1 (.edit .arguments .clear)),
   .call (.amend 0 (.scalar (.reference "c"))),
   .call (.body 1),
   .call (.amend 1 .noBindings),
   .call (.change 2 (.assign .expression none))]

/-- Answers every reference with the node numbered 7. -/
def seventhForReferences : Offer Unit := fun _ n s =>
  (if s.1.kind n = .reference ∧ s.1.IsNode 7 then some 7 else none, s)

theorem copy_and_source_apart_tangled :
    let w := tangled.foldl after {}
    let start := w.after (.call (.copy 1))
    let worked := workOnCopy.foldl after start
    (worked.forest.record 0 = w.forest.record 0 ∧
      (workOnSource.foldl after start).forest.record 5 = (w.forest.copy 1).2.record 5) ∧
    (replaceAll seventhForReferences 4 [5] 5 (worked.forest, ())).2.1.record 0 =
      w.forest.record 0 := by
  intro w start worked
  have hw : w.Reachable := .of_allows (.refl _) (by decide +kernel)
  obtain ⟨hcopy, hsource, hwalk⟩ :=
    copy_and_source_apart hw (n := 1) (by decide +kernel) (by decide +kernel)
  let side := fun i => (w.forest.copy 1).2.Below (w.forest.copy 1).1 i ∨
    (w.forest.copy 1).2.size ≤ i
  have hworked : Run (Within side) start worked := .of_allows (.refl _) (by decide +kernel)
  have hsound : start.Sound :=
    (hw.sound sound_empty).after (m := .call (.copy 1)) (by decide +kernel)
  have hwalked : Run (Within side) start (midway (fun _ => []) [5]
      (replaceAll seventhForReferences 4 [5] 5 (worked.forest, ())).2) := by
    refine (hwalk side (.inl rfl) (hworked.seenMidway (by decide +kernel)) (by decide +kernel)
      (.inl (by decide +kernel))
      fun o _ _ hholder => ⟨fun _ _ => .refl _, fun x hx hp hrun => ?_⟩).2
    obtain ⟨⟨-, hnode⟩, hx⟩ := Option.ite_none_right_eq_some.1 hx
    obtain rfl := Option.some.inj hx
    refine ⟨⟨?_, ?_, trivial⟩, ?_, ?_⟩
    · rintro p ⟨⟩
      exact (hrun.sound hsound).hands_lt _ (List.mem_append_left _ hp)
    · intro y hy
      rw [List.mem_singleton.1 hy]
      exact hnode
    · rintro p ⟨⟩
      exact hholder
    · intro y hy
      rw [List.mem_singleton.1 hy]
      exact .inr (by decide +kernel)
  have hother : Run (Within fun i => ¬ (w.forest.copy 1).2.Below (w.forest.copy 1).1 i) start
      (workOnSource.foldl after start) := .of_allows (.refl _) (by decide +kernel)
  have hend := hcopy hwalked 0 (by decide +kernel)
  simp only [midway] at hend
  exact ⟨⟨hcopy hworked 0 (by decide +kernel), hsource hother 5 (by decide +kernel)⟩, hend⟩

end World

end SyntaxForest
