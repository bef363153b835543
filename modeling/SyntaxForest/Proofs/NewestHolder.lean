import SyntaxForest.Proofs.Wrapping

/-!
# A node keeps to its newest holder

A node may be put into a new holder while others hold it still. Its link then leads to the new
one, and whatever the others do with the node later, taking it out included, leaves the link
alone: a node loses a link only to the holder that it is taken out of.

To say this one has to remember who came last. `entries` lists the nodes that a call puts into
holders, in order: a draft that is assembled gets all that it holds once more, and assigning what
is there already puts nothing anywhere. The *history* of a run is the list of all entries, and
the newest holder of a node is the one in its last entry.

The newest holder is the parent of the node as long as it is live and has it, provided that no
holder ever has a node twice and no node is ever below itself. The first proviso is what the step
lemma `LinkedToNewest.rewired` needs: a holder that has a node twice may take it out of one place
and unlink it, and have it still.
-/

namespace SyntaxForest

/-! ## Entries -/

/-- The given nodes are put into one holder. -/
def into (q : NodeId) (xs : List NodeId) : List (NodeId × NodeId) := xs.map fun x => (x, q)

@[simp] theorem into_nil (q : NodeId) : into q [] = [] := rfl

@[simp] theorem into_append (q : NodeId) (xs ys : List NodeId) :
    into q (xs ++ ys) = into q xs ++ into q ys := List.map_append

/-- The holder of the last entry of a node. -/
def newest (entries : List (NodeId × NodeId)) (c : NodeId) : Option NodeId :=
  entries.reverse.lookup c

/-- Later entries count before earlier ones. -/
theorem newest_append (es es' : List (NodeId × NodeId)) (c : NodeId) :
    newest (es ++ es') c = (newest es' c).or (newest es c) := by
  rw [newest, List.reverse_append, List.lookup_append]
  rfl

/-- All nodes put into one holder have it as their newest. -/
theorem newest_into (q : NodeId) (xs : List NodeId) (c : NodeId) :
    newest (into q xs) c = if c ∈ xs then some q else none := by
  induction xs with
  | nil => rfl
  | cons x xs ih =>
    have hcons : into q (x :: xs) = [(x, q)] ++ into q xs := rfl
    have hfirst : newest [(x, q)] c = if c = x then some q else none := by
      rw [newest, List.reverse_singleton, List.lookup_cons]
      by_cases hx : c = x
      · simp [hx]
      · simp [hx, beq_false_of_ne hx]
    rw [hcons, newest_append, ih, hfirst]
    by_cases hc : c ∈ xs
    · simp [hc]
    · simp only [hc, List.mem_cons, or_false, if_false, Option.none_or]

theorem newest_append_into (es : List (NodeId × NodeId)) (q : NodeId) (xs : List NodeId)
    (c : NodeId) : newest (es ++ into q xs) c = if c ∈ xs then some q else newest es c := by
  rw [newest_append, newest_into]
  split <;> simp

/-- The nodes that a placement puts into the draft. -/
def Placement.entering (f : Forest) (d : NodeId) : Placement → List NodeId
  | single s x => (Change.assign s x).entering f d
  | sequence _ xs => xs

namespace Forest

/-- A placement that succeeds rewires a field of the draft with the nodes that it puts there, or
leaves all records as they were. -/
theorem place_cases {f g : Forest} {d : NodeId} {a : Placement}
    (hg : (Mutation.place d a).perform f = (.ok (), g)) (hd : d < f.size)
    (ha : ∀ x ∈ a.nodes, x < f.size) :
    g.records = f.records ∧ a.entering f d = [] ∨
      ∃ φ ys taken, Rewired f g d φ ys (a.entering f d) taken := by
  cases a with
  | single s x =>
    have hchange : (Mutation.change d (.assign s x)).perform f = (.ok [], g) :=
      Mutation.bind_pure_eq_ok.2 ⟨(), hg, rfl⟩
    refine (change_cases hchange hd ha).2.imp_right ?_
    rintro ⟨φ, ys, taken, hr, -, -, hplaced⟩
    rw [Placement.entering, hplaced]
    exact ⟨φ, ys, taken, hr⟩
  | sequence s xs => exact .inr ⟨_, _, _, extend_rewired hg hd ha⟩

/-- The nodes that are put into a draft while it is filled, up to the first refusal. -/
def filling (f : Forest) (d : NodeId) : List Placement → List NodeId
  | [] => []
  | a :: as =>
    match (Mutation.place d a).perform f with
    | (.ok (), g) => a.entering f d ++ g.filling d as
    | (.error _, _) => []

/-- The nodes that a call puts into holders, each with its holder, in order. -/
def entries (f : Forest) : Call → List (NodeId × NodeId)
  | .assemble d _ => into d (f.children d)
  | .construct _ h as =>
    let (d, g) := f.draft h
    into d (g.filling d as) ++
      match g.fill d as with
      | (.ok (), g) => into d (g.children d)
      | (.error _, _) => []
  | .change p c =>
    match (Mutation.change p c).perform f with
    | (.ok _, _) => into p (c.entering f p)
    | (.error _, _) => []
  | .body p => if f.single p .block = none then into p [f.size] else []
  | .copy n =>
    let g := (f.copy n).2
    (List.range' f.size (g.size - f.size)).flatMap fun j => into j (g.children j)
  | .draft _ | .amend .. | .report _ => []

/-! ## What one call keeps -/

/-- Nodes are linked to their newest holders, as long as these are nodes that have them. -/
def LinkedToNewest (f : Forest) (es : List (NodeId × NodeId)) : Prop :=
  ∀ c q, newest es c = some q → f.IsNode q → c ∈ f.children q → f.link c = some q

namespace LinkedToNewest

variable {f g : Forest} {es : List (NodeId × NodeId)}

/-- A rewiring puts the placed nodes into the holder. It unlinks what is taken out of the holder,
which therefore must not have it in another place, unless the holder is a draft. -/
theorem rewired {p : NodeId} {φ : Field} {ys placed taken : List NodeId}
    (h : f.LinkedToNewest es) (hreg : f.Regular) (hr : Rewired f g p φ ys placed taken)
    (hnodup : f.IsNode p → (f.children p).Nodup) : g.LinkedToNewest (es ++ into p placed) := by
  intro c q hc hq hmem
  rw [newest_append_into] at hc
  rw [hr.isNode_iff] at hq
  rw [hr.link_eq]
  split at hc
  · next hplaced =>
    obtain rfl := Option.some.inj hc
    rw [if_pos hplaced, (hreg.owner_eq_some hr.declared).2 ⟨rfl, hq⟩]
  · next hplaced =>
    have hbefore := (hr.mem_children_of_mem hmem).resolve_right fun e => hplaced e.2
    have hlink := h c q hc hq hbefore
    rw [if_neg hplaced, if_neg, hlink]
    rintro ⟨htaken, howner⟩
    -- it would have been held twice
    obtain ⟨rfl, -⟩ := (hreg.owner_eq_some hr.declared).1 (howner.symm.trans hlink)
    have hcount := hr.count_children c
    have hone := List.nodup_iff_count_le_one.1 (hnodup hq) c
    have := List.count_pos_iff.2 hmem
    have := List.count_pos_iff.2 htaken
    have := List.count_eq_zero_of_not_mem hplaced
    omega

/-- Attributes have no say in who is held by whom, or linked to whom. -/
theorem amended (h : f.LinkedToNewest es) (ha : Amended f g) : g.LinkedToNewest es := by
  intro c q hc hq hmem
  rw [ha.isNode_iff] at hq
  rw [ha.children_eq] at hmem
  rw [ha.link_eq]
  exact h c q hc hq hmem

/-- A new record that holds nothing. -/
theorem push {r : Record} (h : f.LinkedToNewest es) (hclosed : f.Closed) (hr : r.children = []) :
    (f.push r).LinkedToNewest es := by
  have hborn := born_push f hr
  intro c q hc hq hmem
  have hold : q ≠ f.size := by
    rintro rfl
    rw [hborn.children_new, hr] at hmem
    exact absurd hmem List.not_mem_nil
  rw [hborn.isNode_old hold] at hq
  rw [hborn.children_old hold] at hmem
  rw [hborn.link_old (Nat.ne_of_lt (hclosed q c hmem)), hr, if_neg List.not_mem_nil]
  exact h c q hc hq hmem

/-- A draft that is assembled is the newest holder of all that it holds. -/
theorem assemble {d : NodeId} {l : Location} (h : f.LinkedToNewest es) (hreg : f.Regular)
    (hd : d < f.size) (hdraft : ¬ f.IsNode d) :
    (f.assemble d l).LinkedToNewest (es ++ into d (f.children d)) := by
  intro c q hc hq hmem
  rw [newest_append_into] at hc
  rw [children_assemble] at hmem
  rw [link_assemble hd (hreg.closed d)]
  split at hc
  · next hcd =>
    rw [if_pos hcd]
    exact hc
  · next hcd =>
    have hq : f.IsNode q :=
      ((isNode_assemble hd).1 hq).resolve_right (by rintro rfl; exact hcd hmem)
    have hne : c ≠ d := by
      rintro rfl
      exact hdraft (hreg.isNode_of_mem hmem)
    rw [if_neg hcd, if_neg hne]
    exact h c q hc hq hmem

/-- Nodes of a new copy have one holder each, to which they are linked. -/
theorem sprouted (h : f.LinkedToNewest es) (hclosed : f.Closed) (hs : Sprouted f g) :
    g.LinkedToNewest (es ++ (List.range' f.size (g.size - f.size)).flatMap fun j =>
      into j (g.children j)) := by
  intro c q hc hq hmem
  by_cases hnew : f.size ≤ q
  · exact (hs.held_new q hq.lt_size hnew c hmem).2.2
  · have hlt := Nat.lt_of_not_le hnew
    rw [hs.grows.children_eq hlt] at hmem
    have hold := hclosed q c hmem
    -- an old node is in none of the new entries
    have hnone : newest ((List.range' f.size (g.size - f.size)).flatMap fun j =>
        into j (g.children j)) c = none := by
      refine List.lookup_eq_none_iff.2 fun e he => ?_
      obtain ⟨j, hj, he⟩ := List.mem_flatMap.1 (List.mem_reverse.1 he)
      obtain ⟨x, hx, rfl⟩ := List.mem_map.1 he
      obtain ⟨hge, hjlt⟩ := List.mem_range'_1.1 hj
      have hxnew := (hs.held_new j (by omega) hge x hx).1
      simpa using Nat.ne_of_lt (Nat.lt_of_lt_of_le hold hxnew)
    rw [newest_append, hnone, Option.none_or] at hc
    rw [link, hs.record_old c hold]
    rw [IsNode, hs.record_old q hlt] at hq
    exact h c q hc hq hmem

/-- A placement into a draft. What it takes out has no link that could be lost. -/
theorem place {d : NodeId} {a : Placement} (h : f.LinkedToNewest es) (hreg : f.Regular)
    (hdraft : ¬ f.IsNode d) (hd : d < f.size) (ha : ∀ x ∈ a.nodes, x < f.size)
    (hg : (Mutation.place d a).perform f = (.ok (), g)) :
    g.LinkedToNewest (es ++ into d (a.entering f d)) := by
  rcases place_cases hg hd ha with ⟨hsame, hnil⟩ | ⟨φ, ys, taken, hr⟩
  · rw [hnil, into_nil, List.append_nil]
    exact h.amended (.of_records hsame)
  · exact h.rewired hreg hr fun hnode => absurd hnode hdraft

/-- A draft is filled. -/
theorem fill {d : NodeId} : ∀ {as : List Placement} {f : Forest} {es : List (NodeId × NodeId)},
    f.LinkedToNewest es → f.Regular → ¬ f.IsNode d → d < f.size →
    (∀ x ∈ as.flatMap Placement.nodes, f.IsNode x) →
    (f.fill d as).2.LinkedToNewest (es ++ into d (f.filling d as)) ∧
      ¬ (f.fill d as).2.IsNode d := by
  intro as
  induction as with
  | nil => intro f es h _ hdraft _ _; exact ⟨by simpa [filling, Forest.fill] using h, hdraft⟩
  | cons a as ih =>
    intro f es h hreg hdraft hd has
    rw [List.flatMap_cons, List.forall_mem_append] at has
    obtain ⟨ha, has⟩ := has
    have halt : ∀ x ∈ a.nodes, x < f.size := fun x hx => (ha x hx).lt_size
    rw [Forest.fill, filling]
    rcases hg : (Mutation.place d a).perform f with ⟨e | _, g⟩
    · obtain rfl := Mutation.atomic_place a e g hg
      exact ⟨by simpa using h, hdraft⟩
    · have hplace := h.place hreg hdraft hd halt hg
      rcases place_rewired hg hd halt with rfl | ⟨φ, ys, taken, hr⟩
      · simpa using ih hplace hreg hdraft hd has
      · have hrest := ih hplace (hreg.rewired hr ha) (by rwa [hr.isNode_iff])
          (by rwa [hr.size_eq]) fun x hx => hr.isNode_iff.2 (has x hx)
        simpa using hrest

/-- Construction: a draft is made, filled and, if nothing was refused, assembled. -/
theorem construct {l : Location} {k : Head} {as : List Placement} (h : f.LinkedToNewest es)
    (hreg : f.Regular) (has : ∀ x ∈ as.flatMap Placement.nodes, f.IsNode x) :
    (f.construct l k as).2.LinkedToNewest (es ++ f.entries (.construct l k as)) := by
  have hborn := born_push f (Record.children_draft k)
  have hdraft := served_push_draft hreg k
  have hd : f.size < (f.push { head := k }).size := hdraft.made_lt _ List.mem_cons_self
  have hnode : ¬ (f.push { head := k }).IsNode f.size := by
    rw [IsNode, hborn.record_new]
    exact Bool.false_ne_true
  have has : ∀ x ∈ as.flatMap Placement.nodes, (f.push { head := k }).IsNode x :=
    fun x hx => hdraft.extended.isNode (has x hx)
  obtain ⟨hfill, hunassembled⟩ :=
    (h.push hreg.closed (Record.children_draft k)).fill hdraft.regular hnode hd has
  have hserved := served_fill hdraft.regular hd has
  simp only [Forest.construct, entries, draft, ← List.append_assoc]
  rcases hg : (f.push { head := k }).fill f.size as with ⟨e | _, g⟩
  · rw [hg] at hfill
    simpa using hfill
  · rw [hg] at hfill hserved hunassembled
    exact hfill.assemble hserved.regular (hserved.made_lt _ List.mem_cons_self) hunassembled

/-- A body that is asked for the first time enters its macro statement. Nothing is taken out. -/
theorem body {p : NodeId} (h : f.LinkedToNewest es) (hreg : f.Regular) (hp : p < f.size)
    (hk : f.kind p = .macroStatement) (hnodup : (f.children p).Nodup) :
    (f.body p).2.LinkedToNewest (es ++ f.entries (.body p)) := by
  cases hb : f.single p .block with
  | some b =>
    rw [body_of_some hb, entries, if_neg (by simp [hb]), List.append_nil]
    exact h
  | none =>
    have hnil := Record.children_empty .block f.size
    rw [entries, if_pos hb]
    refine (h.push hreg.closed hnil).rewired (hreg.born_empty .block) (body_rewired hp hk hb) ?_
    rw [(born_push f hnil).children_old (Nat.ne_of_lt hp)]
    exact fun _ => hnodup

/-- A change that is refused enters nothing, and one that succeeds enters what it places. -/
theorem change {p : NodeId} {c : Change} (h : f.LinkedToNewest es) (hreg : f.Regular)
    (hp : p < f.size) (hx : ∀ x ∈ c.placed, x < f.size) (hnodup : (f.children p).Nodup) :
    (f.call (.change p c)).2.LinkedToNewest (es ++ f.entries (.change p c)) := by
  rw [entries, call]
  rcases hg : (Mutation.change p c).perform f with ⟨e | made, g⟩
  · obtain rfl := Mutation.atomic_change p c f e g hg
    simpa using h
  · rcases (change_cases hg hp hx).2 with ⟨hsame, hnil⟩ | ⟨φ, ys, taken, hr, -, -, hplaced⟩
    · simpa [hnil] using h.amended (.of_records hsame)
    · simpa [hplaced] using h.rewired hreg hr fun _ => hnodup

end LinkedToNewest

/-! ## Runs in good order -/

/-- No holder has a node twice, and no node is below one that it holds. -/
structure Orderly (f : Forest) : Prop where
  nodup : ∀ p, (f.children p).Nodup
  acyclic : ∀ p, ∀ c ∈ f.children p, ¬ f.Below c p

instance (f : Forest) : Decidable f.Orderly :=
  decidable_of_iff (∀ p < f.size, (f.children p).Nodup ∧ ∀ c ∈ f.children p, ¬ f.Below c p) <| by
    refine ⟨fun h => ⟨fun p => ?_, fun p c hc => ?_⟩, fun h p _ => ⟨h.nodup p, h.acyclic p⟩⟩
    · by_cases hp : p < f.size
      · exact (h p hp).1
      · rw [children_of_size_le (Nat.le_of_not_lt hp)]
        exact List.nodup_nil
    · exact (h p (lt_size_of_mem_children hc)).2 c hc

/-- The run starts in good order. -/
theorem orderly_empty : ({} : Forest).Orderly := by decide

/-- **Every call on a forest in good order keeps nodes linked to their newest holders.** -/
theorem LinkedToNewest.call {f : Forest} {es : List (NodeId × NodeId)} {c : Call}
    (h : f.LinkedToNewest es) (hreg : f.Regular) (ho : f.Orderly) (hc : c.Possible f) :
    (f.call c).2.LinkedToNewest (es ++ f.entries c) := by
  have hlt := hc.receiver_lt
  cases c with
  | draft k =>
    rw [entries, List.append_nil]
    exact h.push hreg.closed (Record.children_draft k)
  | assemble d l => exact h.assemble hreg (hlt d rfl) hc.sensible
  | construct l k as =>
    rw [call_construct_snd]
    exact h.construct hreg hc.isNode_placed
  | change p e =>
    exact h.change hreg (hlt p rfl) (fun x hx => (hc.isNode_placed x hx).lt_size) (ho.nodup p)
  | body p => exact h.body hreg (hlt p rfl) hc.sensible (ho.nodup p)
  | copy n =>
    have hacyclic : f.AcyclicBelow n := fun m _ => ho.acyclic m
    have hfits := hacyclic.fitsWithin hreg.closed (hlt n rfl)
    exact h.sprouted hreg.closed (sprouted_copyWithin f.size f n hreg.closed (hlt n rfl) hfits).1
  | amend n a =>
    rw [entries, List.append_nil]
    exact h.amended (amend_amended hc.sensible)
  | report journal =>
    rw [entries, List.append_nil]
    exact h.amended (.of_records rfl)

end Forest

namespace World

open Forest

/-- After the move the forest is in good order. -/
def KeepsOrder : Discipline := fun w m => (w.after m).forest.Orderly

instance (w : World) (m : Move) : Decidable (KeepsOrder w m) :=
  inferInstanceAs (Decidable (Orderly _))

/-- All entries made by moves, in order. -/
def history : World → List Move → List (NodeId × NodeId)
  | _, [] => []
  | w, .call c :: ms => w.forest.entries c ++ history (w.after (.call c)) ms
  | w, .hold hands :: ms => history (w.after (.hold hands)) ms

/-- **A run in good order keeps nodes linked to their newest holders.** -/
theorem linkedToNewest_run : ∀ (ms : List Move) (w : World) (es : List (NodeId × NodeId)),
    w.Sound → w.forest.Orderly → w.forest.LinkedToNewest es → Allows KeepsOrder w ms →
    (ms.foldl after w).forest.LinkedToNewest (es ++ w.history ms) := by
  intro ms
  induction ms with
  | nil => intro w es _ _ h _; simpa [history] using h
  | cons m ms ih =>
    rintro w es hw ho h ⟨hm, hd, hms⟩
    have hnext := ih (w.after m)
    cases m with
    | call c =>
      rw [history, ← List.append_assoc]
      exact hnext _ (hw.after hm) hd (h.call hw.regular ho hm) hms
    | hold hands => exact hnext es (hw.after hm) hd h hms

end World

/-! ## Substitutions, move by move -/

namespace Forest

/-- The forest after some moves. What is in hand does not matter. -/
def afterMoves (f : Forest) (ms : List Move) : Forest := (ms.foldl World.after ⟨f, []⟩).forest

/-- Moves come to the same forest from any hands. -/
theorem forest_foldl_after (ms : List Move) (w : World) :
    (ms.foldl World.after w).forest = w.forest.afterMoves ms := by
  induction ms generalizing w with
  | nil => rfl
  | cons m ms ih =>
    have hstep : (w.after m).forest = ((⟨w.forest, []⟩ : World).after m).forest := by
      cases m <;> rfl
    rw [afterMoves, List.foldl_cons, List.foldl_cons, ih, ih, hstep]

theorem afterMoves_append (f : Forest) (xs ys : List Move) :
    f.afterMoves (xs ++ ys) = (f.afterMoves xs).afterMoves ys := by
  rw [afterMoves, List.foldl_append, forest_foldl_after]
  rfl

end Forest

namespace Offering

open Forest

variable {σ : Type} (offer : Offer σ) (script : Offering σ → List Move)

/-- The moves made for an offer: those of the client, as the script has them, and then the
replacement that it answers. -/
def moves (o : Offering σ) : List Move :=
  script o ++
    match (offer o.held o.node o.state).1 with
    | some x => [.call (.change o.holder (.replaceChild o.node x))]
    | none => []

/-- The script has the moves that the client makes. -/
def Scripted (o : Offering σ) : Prop :=
  o.state.1.afterMoves (script o) = (offer o.held o.node o.state).2.1

/-- One offer after the other, each in the forest that the moves for those before it leave. -/
def Chained : Forest → List (Offering σ) → Forest → Prop
  | f, [], g => g = f
  | f, o :: os, g => o.state.1 = f ∧ Chained (f.afterMoves (o.moves offer script)) os g

variable {offer script} {f g h : Forest} {os os' : List (Offering σ)}

/-- Two chains make one where the second starts from what the first leaves. -/
theorem Chained.append (h₁ : Chained offer script f os g) (h₂ : Chained offer script g os' h) :
    Chained offer script f (os ++ os') h := by
  induction os generalizing f with
  | nil =>
    obtain rfl : g = f := h₁
    exact h₂
  | cons o os ih => exact ⟨h₁.1, ih h₁.2⟩

/-- A chain leaves the forest that all of its moves leave. -/
theorem Chained.forest_eq (hc : Chained offer script f os g) :
    g = f.afterMoves (os.flatMap (moves offer script)) := by
  induction os generalizing f with
  | nil => exact hc
  | cons o os ih =>
    rw [List.flatMap_cons, afterMoves_append]
    exact ih hc.2

/-- Every offer is made in the forest that the moves for the earlier ones leave. -/
theorem Chained.state_eq {before rest : List (Offering σ)} {o : Offering σ}
    (hc : Chained offer script f (before ++ o :: rest) g) :
    o.state.1 = f.afterMoves (before.flatMap (moves offer script)) := by
  induction before generalizing f with
  | nil => exact hc.1
  | cons o' before ih =>
    rw [List.flatMap_cons, afterMoves_append]
    exact ih hc.2

/-- Siblings are offered one after the other, each with what comes of it: the replacement, or the
offers below it. So the chain goes on if it does below. -/
theorem chained_offerSiblings
    {enter : List NodeId → NodeId → Substitution σ → Except Error Unit × Substitution σ}
    {offers : List NodeId → NodeId → Substitution σ → List (Offering σ)}
    {held : List NodeId} {p : NodeId}
    (henter : ∀ held n s, (∀ o ∈ offers held n s, o.Scripted offer script) →
      Chained offer script s.forest (offers held n s) (enter held n s).2.forest) :
    ∀ (cs : List NodeId) (s : Substitution σ),
      (∀ o ∈ siblingOffers offer enter offers held p cs s, o.Scripted offer script) →
      Chained offer script s.forest (siblingOffers offer enter offers held p cs s)
        (offerSiblings offer enter held p cs s).2.forest := by
  intro cs
  induction cs with
  | nil => intro s _; rfl
  | cons c rest ih =>
    intro s hscripted
    rw [siblingOffers, List.forall_mem_cons] at hscripted
    obtain ⟨hc, hscripted⟩ := hscripted
    rw [siblingOffers, offerSiblings]
    refine ⟨rfl, ?_⟩
    simp only [Scripted] at hc
    simp only [moves, afterMoves_append, hc]
    generalize offer (c :: rest ++ held) c (s.forest, s.client) = r at hscripted ⊢
    obtain ⟨answer, f, client⟩ := r
    cases answer with
    | some x =>
      have hreplaced : f.afterMoves [.call (.change p (.replaceChild c x))] =
          ((Mutation.replaceChild p c x).perform f).2 :=
        congrArg World.forest (World.after_replaceChild ⟨f, []⟩ p c x)
      simp only [hreplaced] at hscripted ⊢
      generalize (Mutation.replaceChild p c x).perform f = r at hscripted ⊢
      obtain ⟨e | replaced, g⟩ := r
      · rfl
      · exact ih _ hscripted
    | none =>
      simp only [List.forall_mem_append] at hscripted
      obtain ⟨hbelow, hrest⟩ := hscripted
      have hentered := henter _ _ _ hbelow
      simp only at hrest ⊢
      generalize enter (c :: rest ++ held) c { s with forest := f, client := client } = r
        at hentered hrest ⊢
      obtain ⟨e | _, t⟩ := r
      · exact hentered.append rfl
      · exact hentered.append (ih t hrest)

/-- **A substitution is a chain of moves**, to any depth. -/
theorem chained_offerBelow : ∀ (depth : Nat) (held : List NodeId) (p : NodeId)
    (s : Substitution σ), (∀ o ∈ offersWithin offer depth held p s, o.Scripted offer script) →
    Chained offer script s.forest (offersWithin offer depth held p s)
      (offerBelow offer depth held p s).2.forest := by
  intro depth
  induction depth with
  | zero => intro held p s _; rfl
  | succ depth ih => intro held p s hscripted; exact chained_offerSiblings ih _ s hscripted

end Offering

/-! ## The newest holder is the parent -/

/-- Whatever is in hand: the newest holder of a node, if it is live and has the node still, is
the parent of the node. -/
def Forest.NewestIsParent (f : Forest) (es : List (NodeId × NodeId)) : Prop :=
  ∀ hands c q, newest es c = some q → Live f hands q → f.IsNode q → c ∈ f.children q →
    f.parent? (f.kept hands) c = some q

/-- A link to a live holder is answered, whatever else is in hand. -/
theorem Forest.LinkedToNewest.newestIsParent {f : Forest} {es : List (NodeId × NodeId)}
    (h : f.LinkedToNewest es) : f.NewestIsParent es :=
  fun _ c q hc hlive hq hmem => parent?_eq_some (h c q hc hq hmem) hlive

namespace World

open Forest

theorem Allows.of_append {D : Discipline} : ∀ {xs ys : List Move} {w : World},
    Allows D w (xs ++ ys) → Allows D w xs
  | [], _, _, _ => trivial
  | _ :: _, _, _, ⟨hm, hd, hms⟩ => ⟨hm, hd, of_append hms⟩

/-- So it is in every world that a run in good order reaches from the start. -/
theorem linkedToNewest_reached {ms : List Move} (hms : Allows KeepsOrder {} ms) :
    (ms.foldl after {}).forest.LinkedToNewest (history {} ms) :=
  linkedToNewest_run ms {} [] sound_empty orderly_empty
    (fun _ _ hc => absurd hc (by simp [newest])) hms

/-- In every world of a run in good order, the newest holder of a node is its parent, as long as
it is a live node that has it. This is so in the middle of a substitution and after it, too, the
moves being those of the client and the replacements. And wrapping works, with no discipline at
all: where a new node that holds a child of a live node fits in the place of the child, replacing
the child by it succeeds, and makes the one the parent of the other. -/
theorem newest_holder_is_parent :
    (∀ {ms : List Move}, Allows KeepsOrder {} ms →
      (ms.foldl after {}).forest.NewestIsParent (history {} ms)) ∧
    (∀ {σ : Type} {offer : Offer σ} {script : Offering σ → List Move} {ms : List Move}
      {held : List NodeId} {client : σ} {depth : Nat} {root : NodeId},
      let f := (ms.foldl after {}).forest
      let os := offers offer depth held root (f, client)
      (∀ o ∈ os, o.Scripted offer script) →
      Allows KeepsOrder {} (ms ++ os.flatMap (Offering.moves offer script)) →
      (∀ (before rest : List (Offering σ)) (o : Offering σ), os = before ++ o :: rest →
        o.state.1.NewestIsParent
          (history {} (ms ++ before.flatMap (Offering.moves offer script)))) ∧
      (replaceAll offer depth held root (f, client)).2.1.NewestIsParent
        (history {} (ms ++ os.flatMap (Offering.moves offer script)))) ∧
    ∀ {w : World} {build : Call} {p c d : NodeId}, w.Reachable → w.CanMake (.call build) →
      ((∃ l, build = .assemble d l) ∨
        ∃ l h as, build = .construct l h as ∧ (w.forest.construct l h as).1 = .ok d) →
      w.Live p → w.forest.IsNode p → c ∈ w.forest.children p →
      let u := w.after (.call build)
      c ∈ u.forest.children d →
      (∀ φ ∈ (w.forest.kind p).fields, c ∈ w.forest.occupants p φ →
        φ.category.accepts (u.forest.kind d) = true) →
      ((Mutation.replaceChild p c d).perform u.forest).1 = .ok true ∧
        let v := u.after (.call (.change p (.replaceChild c d)))
        v.parent? d = some p ∧ v.parent? c = some d := by
  refine ⟨fun hms => (linkedToNewest_reached hms).newestIsParent, ?_, ?_⟩
  · intro σ offer script ms held client depth root f os hscripted hms
    have hchain := Offering.chained_offerBelow depth (root :: held) root ⟨f, client, 0⟩ hscripted
    have hforest : ∀ ys, ((ms ++ ys).foldl after {}).forest = f.afterMoves ys := fun ys => by
      rw [List.foldl_append, forest_foldl_after]
    refine ⟨fun before rest o hos => ?_, ?_⟩
    · have hchain : Offering.Chained offer script f os _ := hchain
      rw [hos] at hchain hms
      rw [List.flatMap_append, ← List.append_assoc] at hms
      have hlinked := linkedToNewest_reached hms.of_append
      rw [hforest, ← hchain.state_eq] at hlinked
      exact hlinked.newestIsParent
    · have hlinked := linkedToNewest_reached hms
      rw [hforest] at hlinked
      have hrecords : (replaceAll offer depth held root (f, client)).2.1.records =
          (offerBelow offer depth (root :: held) root ⟨f, client, 0⟩).2.forest.records := by
        unfold replaceAll
        rcases offerBelow offer depth (root :: held) root ⟨f, client, 0⟩ with ⟨e | _, t⟩ <;> rfl
      rw [hchain.forest_eq] at hrecords
      exact (hlinked.amended (.of_records hrecords)).newestIsParent
  · intro w build p c d hw hm hbuild hlive hp hc u hcd hfit
    have hreg := hw.regular
    have hsound : u.Sound := (hw.sound sound_empty).after hm
    have hbuilt : Built w u d := by
      rcases hbuild with ⟨l, rfl⟩ | ⟨l, h, as, rfl, hmade⟩
      · exact built_assemble hreg hm
      · exact built_construct hreg hm hmade
    have hold : ∀ {m}, w.forest.IsNode m → m ≠ d := fun hm e => hbuilt.fresh (e ▸ hm)
    have hlive : Forest.Live u.forest u.hands p := hbuilt.live hlive
    obtain ⟨g, hg, hparents⟩ := hsound.regular.wrap hlive
      (hbuilt.isNode_of_isNode hp) hbuilt.isNode (hold hp).symm
      (by rwa [children_congr (hbuilt.kind_eq hp) (hbuilt.occupants_eq hp)])
      (hold (hreg.isNode_of_mem hc)) (hbuilt.link_eq c hcd)
      (by rw [hbuilt.kind_eq hp]; simpa only [hbuilt.occupants_eq hp] using hfit)
    have hafter : u.after (.call (.change p (.replaceChild c d))) = ⟨g, u.hands⟩ := by
      rw [after_replaceChild, hg]
    rw [hg, hafter]
    exact ⟨rfl, hparents⟩

/-- A name goes from one statement to another, and the first lets go of it afterwards. -/
def handedOn : List Move :=
  [.call (.construct {} (.reference "a") []),
   .call (.construct {} .expressionStatement [.single .expression (some 0)]),
   .call (.construct {} .returnStatement [.single .expression (some 0)]),
   .call (.change 1 (.assign .expression none)),
   .call (.construct {} (.reference "b") []),
   .hold [1, 2, 3]]

/-- Answers every reference with the node numbered 3. -/
def thirdForReferences : Offer Unit := fun _ n s =>
  (if s.1.kind n = .reference then some 3 else none, s)

theorem newest_holder_is_parent_handedOn :
    let w := handedOn.foldl after {}
    let f := (replaceAll thirdForReferences 4 [2] 2 (w.forest, ())).2.1
    let u := w.after (.call (.construct {} .methodInvocation [.single .target (some 0)]))
    let v := u.after (.call (.change 2 (.replaceChild 0 4)))
    w.parent? 0 = some 2 ∧ f.parent? (f.kept [2]) 3 = some 2 ∧
      v.parent? 4 = some 2 ∧ v.parent? 0 = some 4 := by
  have hms : Allows KeepsOrder {} handedOn := by decide +kernel
  have hw : (handedOn.foldl after {}).Reachable := .of_allows (.refl _) (by decide +kernel)
  have hfirst := newest_holder_is_parent.1 hms (handedOn.foldl after {}).hands 0 2
    (by decide +kernel) (by decide +kernel) (by decide +kernel) (by decide +kernel)
  have hscripted : ∀ o ∈ offers thirdForReferences 4 [2] 2 ((handedOn.foldl after {}).forest, ()),
      o.Scripted thirdForReferences fun _ => [] := fun _ _ => rfl
  have hwalk := (newest_holder_is_parent.2.1 hscripted (by decide +kernel)).2 [2] 3 2
    (by decide +kernel) (by decide +kernel) (by decide +kernel) (by decide +kernel)
  have hwrap := newest_holder_is_parent.2.2 (p := 2) (c := 0) (d := 4) hw
    (by decide +kernel)
    (.inr ⟨{}, .methodInvocation, [.single .target (some 0)], rfl, by decide +kernel⟩)
    (by decide +kernel) (by decide +kernel) (by decide +kernel) (by decide +kernel)
    (by decide +kernel)
  exact ⟨hfirst, hwalk, hwrap.2⟩

end World

end SyntaxForest
