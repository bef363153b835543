import SyntaxForest.Forest.Substitution
import SyntaxForest.Forest.Walk
import SyntaxForest.Proofs.Worlds

/-!
# Walks are runs

A walk hands over the nodes of a tree to a client, and the client may do anything in between.
Seen from the world this is nothing new: the client makes its moves, a substitution adds the
replacements, and what the walk holds on to is in somebody's hands. So a walk is a run, and
whatever is known of runs holds before, after and in the middle of it.

`visits` and `offers` list the calls to the client in order, each with the state in which it is
made; a client that keeps a log ends up with that list (`forEach_logging`, `replaceAll_logging`).
Which discipline the run keeps is up to the client. `Obeys` and `OfferObeys` say of one call that
the client's moves are allowed, and so is the replacement it answers, at the moment at which it
takes place. The client may count on being called in a world of the run, and so on everything
that is known of such worlds.

Main statements: `forEach_run` and `replaceAll_run`. All the worlds in which the client is
called, and the one at the end, are worlds of the run.
-/

namespace SyntaxForest

/-! ## The calls to a client -/

/-- A call to the client of a walk: what the walk holds on to, the node that is handed over,
and the state in which that happens. -/
structure Handover (σ : Type) where
  held : List NodeId
  node : NodeId
  state : Forest × σ

/-- A call to the client of a substitution: the node is offered as a child of the holder. -/
structure Offering (σ : Type) extends Handover σ where
  holder : NodeId

namespace Forest

variable {σ : Type}

section Visits

variable (visit : List NodeId → NodeId → Forest × σ → Forest × σ)

/-- The calls made while siblings are gone through, given those for each of them. -/
def siblingVisits (enter : List NodeId → NodeId → Forest × σ → Forest × σ)
    (visits : List NodeId → NodeId → Forest × σ → List (Handover σ)) (held : List NodeId) :
    List NodeId → Forest × σ → List (Handover σ)
  | [], _ => []
  | c :: rest, s =>
    visits (c :: rest ++ held) c s ++
      siblingVisits enter visits held rest (enter (c :: rest ++ held) c s)

/-- The calls made for a node and what is below it. -/
def visitsWithin : Nat → List NodeId → NodeId → Forest × σ → List (Handover σ)
  | 0, _, _, _ => []
  | depth + 1, held, n, s =>
    ⟨held, n, s⟩ :: siblingVisits (forEachWithin visit depth) (visitsWithin depth) held
      ((visit held n s).1.children n) (visit held n s)

/-- The calls made by `forEach`. -/
def visits (depth : Nat) (held : List NodeId) (root : NodeId) (s : Forest × σ) :
    List (Handover σ) :=
  visitsWithin visit depth (root :: held) root s

/-- The client that does the same and keeps a log of the calls. -/
def logging (held : List NodeId) (n : NodeId) (s : Forest × (σ × List (Handover σ))) :
    Forest × (σ × List (Handover σ)) :=
  let (f, client) := visit held n (s.1, s.2.1)
  (f, client, s.2.2 ++ [⟨held, n, s.1, s.2.1⟩])

variable {visit}

theorem forSiblings_logging {enter : List NodeId → NodeId → Forest × σ → Forest × σ}
    {visits : List NodeId → NodeId → Forest × σ → List (Handover σ)}
    {entering : List NodeId → NodeId → Forest × (σ × List (Handover σ)) →
      Forest × (σ × List (Handover σ))} (held : List NodeId)
    (henter : ∀ held n s log, entering held n (s.1, s.2, log) =
      ((enter held n s).1, (enter held n s).2, log ++ visits held n s)) :
    ∀ (cs : List NodeId) (s : Forest × σ) (log : List (Handover σ)),
      forSiblings entering held cs (s.1, s.2, log) =
        ((forSiblings enter held cs s).1, (forSiblings enter held cs s).2,
          log ++ siblingVisits enter visits held cs s) := by
  intro cs
  induction cs with
  | nil => intro s log; simp [forSiblings, siblingVisits]
  | cons c rest ih =>
    intro s log
    rw [forSiblings, henter, ih, List.append_assoc]
    rfl

theorem forEachWithin_logging : ∀ (depth : Nat) (held : List NodeId) (n : NodeId)
    (s : Forest × σ) (log : List (Handover σ)),
    forEachWithin (logging visit) depth held n (s.1, s.2, log) =
      ((forEachWithin visit depth held n s).1, (forEachWithin visit depth held n s).2,
        log ++ visitsWithin visit depth held n s) := by
  intro depth
  induction depth with
  | zero => intro held n s log; simp [forEachWithin, visitsWithin]
  | succ depth ih =>
    intro held n s log
    simp only [forEachWithin, visitsWithin, logging]
    rw [forSiblings_logging held ih, List.append_assoc]
    rfl

/-- **The calls are those that a client sees.** -/
theorem forEach_logging (depth : Nat) (held : List NodeId) (root : NodeId) (s : Forest × σ) :
    forEach (logging visit) depth held root (s.1, s.2, []) =
      ((forEach visit depth held root s).1, (forEach visit depth held root s).2,
        visits visit depth held root s) :=
  forEachWithin_logging depth (root :: held) root s []

end Visits

section Offers

variable (offer : Offer σ)

/-- The calls made while children of `p` are offered, given those for what is below each. -/
def siblingOffers
    (enter : List NodeId → NodeId → Substitution σ → Except Error Unit × Substitution σ)
    (offers : List NodeId → NodeId → Substitution σ → List (Offering σ))
    (held : List NodeId) (p : NodeId) : List NodeId → Substitution σ → List (Offering σ)
  | [], _ => []
  | c :: rest, s =>
    ⟨⟨c :: rest ++ held, c, s.forest, s.client⟩, p⟩ ::
      match offer (c :: rest ++ held) c (s.forest, s.client) with
      | (some x, f, client) =>
        match (Mutation.replaceChild p c x).perform f with
        | (.error _, _) => []
        | (.ok replaced, g) =>
          siblingOffers enter offers held p rest
            { forest := g, client := client, count := if replaced then s.count + 1 else s.count }
      | (none, f, client) =>
        offers (c :: rest ++ held) c { s with forest := f, client := client } ++
          match enter (c :: rest ++ held) c { s with forest := f, client := client } with
          | (.error _, _) => []
          | (.ok (), s) => siblingOffers enter offers held p rest s

/-- The calls made for everything below a node. -/
def offersWithin : Nat → List NodeId → NodeId → Substitution σ → List (Offering σ)
  | 0, _, _, _ => []
  | depth + 1, held, p, s =>
    siblingOffers offer (offerBelow offer depth) (offersWithin depth) held p
      (s.forest.children p) s

/-- The calls made by `replaceAll`. -/
def offers (depth : Nat) (held : List NodeId) (root : NodeId) (s : Forest × σ) :
    List (Offering σ) :=
  offersWithin offer depth (root :: held) root { forest := s.1, client := s.2 }

/-- The client that answers the same and keeps a log of the calls. -/
def loggingOffer : Offer (σ × List (Handover σ)) := fun held n s =>
  let (x, f, client) := offer held n (s.1, s.2.1)
  (x, f, client, s.2.2 ++ [⟨held, n, s.1, s.2.1⟩])

/-- How far a substitution has come, with a log. -/
def Substitution.withLog (s : Substitution σ) (log : List (Handover σ)) :
    Substitution (σ × List (Handover σ)) :=
  { forest := s.forest, client := (s.client, log), count := s.count }

variable {offer}

theorem offerSiblings_logging
    {enter : List NodeId → NodeId → Substitution σ → Except Error Unit × Substitution σ}
    {offers : List NodeId → NodeId → Substitution σ → List (Offering σ)}
    {entering : List NodeId → NodeId → Substitution (σ × List (Handover σ)) →
      Except Error Unit × Substitution (σ × List (Handover σ))} (held : List NodeId) (p : NodeId)
    (henter : ∀ held n s log, entering held n (s.withLog log) = ((enter held n s).1,
      (enter held n s).2.withLog (log ++ (offers held n s).map Offering.toHandover))) :
    ∀ (cs : List NodeId) (s : Substitution σ) (log : List (Handover σ)),
      offerSiblings (loggingOffer offer) entering held p cs (s.withLog log) =
        ((offerSiblings offer enter held p cs s).1,
          (offerSiblings offer enter held p cs s).2.withLog
            (log ++ (siblingOffers offer enter offers held p cs s).map Offering.toHandover)) := by
  intro cs
  induction cs with
  | nil => intro s log; simp [offerSiblings, siblingOffers]
  | cons c rest ih =>
    intro s log
    simp only [offerSiblings, siblingOffers, loggingOffer, Substitution.withLog]
    generalize offer (c :: rest ++ held) c (s.forest, s.client) = r
    obtain ⟨answer, f, client⟩ := r
    cases answer with
    | some x =>
      simp only
      rcases (Mutation.replaceChild p c x).perform f with ⟨e | replaced, g⟩
      · simp
      · have hrest := ih ⟨g, client, if replaced then s.count + 1 else s.count⟩
          (log ++ [⟨c :: rest ++ held, c, s.forest, s.client⟩])
        simpa [Substitution.withLog] using hrest
    | none =>
      have hbelow := henter (c :: rest ++ held) c ⟨f, client, s.count⟩
        (log ++ [⟨c :: rest ++ held, c, s.forest, s.client⟩])
      simp only [Substitution.withLog] at hbelow
      simp only [hbelow]
      generalize enter (c :: rest ++ held) c ⟨f, client, s.count⟩ = r
      obtain ⟨outcome, t⟩ := r
      cases outcome with
      | error e => simp
      | ok =>
        have hrest := ih t
        simp only [Substitution.withLog] at hrest
        simp [hrest]

theorem offerBelow_logging : ∀ (depth : Nat) (held : List NodeId) (p : NodeId)
    (s : Substitution σ) (log : List (Handover σ)),
    offerBelow (loggingOffer offer) depth held p (s.withLog log) =
      ((offerBelow offer depth held p s).1, (offerBelow offer depth held p s).2.withLog
        (log ++ (offersWithin offer depth held p s).map Offering.toHandover)) := by
  intro depth
  induction depth with
  | zero => intro held p s log; simp [offerBelow, offersWithin]
  | succ depth ih =>
    intro held p s log
    exact offerSiblings_logging held p ih (s.forest.children p) s log

/-- **The calls are those that a client sees**, whether or not the substitution succeeds. -/
theorem replaceAll_logging (depth : Nat) (held : List NodeId) (root : NodeId) (s : Forest × σ) :
    replaceAll (loggingOffer offer) depth held root (s.1, s.2, []) =
      ((replaceAll offer depth held root s).1, (replaceAll offer depth held root s).2.1,
        (replaceAll offer depth held root s).2.2,
        (offers offer depth held root s).map Offering.toHandover) := by
  have hbelow := @offerBelow_logging σ offer depth (root :: held) root ⟨s.1, s.2, 0⟩ []
  simp only [Substitution.withLog] at hbelow
  unfold replaceAll offers
  rw [hbelow]
  generalize offerBelow offer depth (root :: held) root ⟨s.1, s.2, 0⟩ = r
  obtain ⟨outcome, t⟩ := r
  cases outcome with
  | error e => rfl
  | ok => rfl

end Offers

end Forest

namespace World

open Forest

/-- A replacement hands out nothing. -/
theorem after_replaceChild (w : World) (p x y : NodeId) :
    w.after (.call (.change p (.replaceChild x y))) =
      ⟨((Mutation.replaceChild p x y).perform w.forest).2, w.hands⟩ := by
  simp only [after, call, Mutation.change, Mutation.perform_bind]
  rcases (Mutation.replaceChild p x y).perform w.forest with ⟨e | b, g⟩ <;> rfl

/-! ## What is held on to -/

/-- A discipline that never forbids to hold what can be reached, nor to report. -/
structure Lenient (D : Discipline) : Prop where
  hold : ∀ {w : World} {hands : List NodeId}, (∀ n ∈ hands, w.Live n) → D w (.hold hands)
  report : ∀ {w : World} {journal : Array Event}, D w (.call (.report journal))

/-- What is in hand can go on being held, together with what is held by it. -/
theorem Run.hold {D : Discipline} {w v : World} {hands : List NodeId} (h : Run D w v)
    (hD : Lenient D) (hlive : ∀ n ∈ hands, v.Live n) : Run D w { v with hands := hands } :=
  h.move (m := .hold hands) (fun n hn => (hlive n hn).lt_size) (hD.hold hlive)

theorem Sound.live_hand {w : World} (h : w.Sound) {n : NodeId} (hn : n ∈ w.hands) : w.Live n :=
  .root hn (h.hands_lt n hn)

section Walk

variable {σ : Type} (D : Discipline) (w : World) (hands : σ → List NodeId)

/-- The world in the middle of a walk: `held` is held by the walk, the rest by the client. -/
def midway (held : List NodeId) (s : Forest × σ) : World := ⟨s.1, held ++ hands s.2⟩

/-- The world in which the client is called. -/
def ofCall (v : Handover σ) : World := midway hands v.held v.state

variable {D} {w} {hands} {held : List NodeId} {s : Forest × σ}

/-- A world seen as the middle of a walk. -/
theorem Run.seenMidway {v : World} {client : σ} (h : Run D w v)
    (hhands : v.hands = held ++ hands client) :
    Run D w (midway hands held (v.forest, client)) := by
  rw [midway, ← hhands]
  exact h

/-- The walk lets go of some nodes. -/
theorem Run.release {kept : List NodeId} (h : Run D w (midway hands held s)) (hD : Lenient D)
    (hw : w.Sound) (hsub : kept ⊆ held) : Run D w (midway hands kept s) := by
  refine h.hold hD fun n hn => (h.sound hw).live_hand ?_
  rcases List.mem_append.1 hn with hn | hn
  · exact List.mem_append_left _ (hsub hn)
  · exact List.mem_append_right _ hn

/-- The walk takes hold of its root. -/
theorem Run.start {root : NodeId} (h : Run D w (midway hands held s)) (hD : Lenient D)
    (hw : w.Sound) (hroot : (midway hands held s).Live root) :
    Run D w (midway hands (root :: held) s) := by
  refine h.hold hD fun n hn => ?_
  rcases List.mem_cons.1 hn with rfl | hn
  · exact hroot
  · exact (h.sound hw).live_hand hn

/-- The walk takes hold of the children of a node that it holds. -/
theorem Run.enter {p : NodeId} (h : Run D w (midway hands held s)) (hD : Lenient D)
    (hw : w.Sound) (hp : p ∈ held) :
    Run D w (midway hands (s.1.children p ++ held) s) := by
  have hsound := h.sound hw
  have hlive := hsound.live_hand (List.mem_append_left _ hp)
  refine h.hold hD fun n hn => ?_
  rw [List.append_assoc] at hn
  rcases List.mem_append.1 hn with hn | hn
  · exact .held hlive hn (hsound.regular.closed p n hn)
  · exact hsound.live_hand hn

/-! ## Walks that hand over nodes -/

section ForEach

variable (D w hands)

/-- Called like this, in a world that a run leads to, the client keeps the discipline. -/
def Obeys (visit : List NodeId → NodeId → Forest × σ → Forest × σ) (v : Handover σ) : Prop :=
  v.node ∈ v.held → Run D w (ofCall hands v) →
    Run D (ofCall hands v) (midway hands v.held (visit v.held v.node v.state))

variable {D w hands} {visit : List NodeId → NodeId → Forest × σ → Forest × σ}

theorem forSiblings_run {enter : List NodeId → NodeId → Forest × σ → Forest × σ}
    {visits : List NodeId → NodeId → Forest × σ → List (Handover σ)} (hD : Lenient D)
    (hw : w.Sound)
    (henter : ∀ {held n s}, Run D w (midway hands held s) → n ∈ held →
      (∀ v ∈ visits held n s, Obeys D w hands visit v) →
      (∀ v ∈ visits held n s, Run D w (ofCall hands v)) ∧
        Run D w (midway hands held (enter held n s))) :
    ∀ (cs : List NodeId) (s : Forest × σ), Run D w (midway hands (cs ++ held) s) →
      (∀ v ∈ siblingVisits enter visits held cs s, Obeys D w hands visit v) →
      (∀ v ∈ siblingVisits enter visits held cs s, Run D w (ofCall hands v)) ∧
        Run D w (midway hands held (forSiblings enter held cs s)) := by
  intro cs
  induction cs with
  | nil => intro s hrun _; exact ⟨by simp [siblingVisits], hrun⟩
  | cons c rest ih =>
    intro s hrun hobeys
    rw [siblingVisits, List.forall_mem_append] at hobeys ⊢
    obtain ⟨hcalls, hc⟩ := henter hrun List.mem_cons_self hobeys.1
    obtain ⟨hrest, hend⟩ := ih _ (hc.release hD hw (List.subset_cons_self c _)) hobeys.2
    exact ⟨⟨hcalls, hrest⟩, hend⟩

theorem forEachWithin_run (hD : Lenient D) (hw : w.Sound) : ∀ (depth : Nat)
    {held : List NodeId} {n : NodeId} {s : Forest × σ}, Run D w (midway hands held s) →
      n ∈ held → (∀ v ∈ visitsWithin visit depth held n s, Obeys D w hands visit v) →
      (∀ v ∈ visitsWithin visit depth held n s, Run D w (ofCall hands v)) ∧
        Run D w (midway hands held (forEachWithin visit depth held n s)) := by
  intro depth
  induction depth with
  | zero => intro held n s hrun _ _; exact ⟨by simp [visitsWithin], hrun⟩
  | succ depth ih =>
    intro held n s hrun hn hobeys
    rw [visitsWithin, List.forall_mem_cons] at hobeys ⊢
    have hvisit := hrun.trans (hobeys.1 hn hrun)
    obtain ⟨hbelow, hend⟩ := forSiblings_run hD hw ih _ _ (hvisit.enter hD hw hn) hobeys.2
    exact ⟨⟨hrun, hbelow⟩, hend⟩

/-- **A walk whose client keeps a discipline is a run of that discipline.** -/
theorem forEach_run {depth : Nat} {root : NodeId} (hD : Lenient D) (hw : w.Sound)
    (hrun : Run D w (midway hands held s)) (hroot : (midway hands held s).Live root)
    (hobeys : ∀ v ∈ visits visit depth held root s, Obeys D w hands visit v) :
    (∀ v ∈ visits visit depth held root s, Run D w (ofCall hands v)) ∧
      Run D w (midway hands held (forEach visit depth held root s)) := by
  obtain ⟨hcalls, hend⟩ := forEachWithin_run hD hw depth (hrun.start hD hw hroot)
    List.mem_cons_self hobeys
  exact ⟨hcalls, hend.release hD hw (List.subset_cons_self root _)⟩

end ForEach

/-! ## Substitutions -/

section ReplaceAll

variable (D w hands)

/-- Called like this, in a world that a run leads to, the client keeps the discipline, and so
does the replacement that it answers. -/
structure OfferObeys (offer : Offer σ) (o : Offering σ) : Prop where
  client : o.node ∈ o.held → Run D w (ofCall hands o.toHandover) →
    Run D (ofCall hands o.toHandover) (midway hands o.held (offer o.held o.node o.state).2)
  replacement : ∀ x, (offer o.held o.node o.state).1 = some x → o.holder ∈ o.held →
    Run D w (midway hands o.held (offer o.held o.node o.state).2) →
    let there := midway hands o.held (offer o.held o.node o.state).2
    let replacing : Move := .call (.change o.holder (.replaceChild o.node x))
    there.CanMake replacing ∧ D there replacing

variable {D w hands} {offer : Offer σ} {N : NodeId → Prop}

theorem offerSiblings_run {p : NodeId}
    {enter : List NodeId → NodeId → Substitution σ → Except Error Unit × Substitution σ}
    {offers : List NodeId → NodeId → Substitution σ → List (Offering σ)} (hD : Lenient D)
    (hw : w.Sound) (hp : p ∈ held) (hpN : N p)
    (henter : ∀ {held n s}, Run D w (midway hands held (s.forest, s.client)) → n ∈ held → N n →
      (∀ o ∈ offers held n s, N o.node → N o.holder → OfferObeys D w hands offer o) →
      (∀ o ∈ offers held n s, Run D w (ofCall hands o.toHandover)) ∧
        Run D w (midway hands held ((enter held n s).2.forest, (enter held n s).2.client))) :
    ∀ (cs : List NodeId) (s : Substitution σ), (∀ c ∈ cs, N c) →
      Run D w (midway hands (cs ++ held) (s.forest, s.client)) →
      (∀ o ∈ siblingOffers offer enter offers held p cs s,
        N o.node → N o.holder → OfferObeys D w hands offer o) →
      (∀ o ∈ siblingOffers offer enter offers held p cs s, Run D w (ofCall hands o.toHandover)) ∧
        Run D w (midway hands held ((offerSiblings offer enter held p cs s).2.forest,
          (offerSiblings offer enter held p cs s).2.client)) := by
  intro cs
  induction cs with
  | nil => intro s _ hrun _; exact ⟨by simp [siblingOffers], hrun⟩
  | cons c rest ih =>
    intro s hcs hrun hobeys
    obtain ⟨hcN, hcs⟩ := List.forall_mem_cons.1 hcs
    have hdrop : rest ++ held ⊆ c :: rest ++ held := List.subset_cons_self c _
    have hheld : held ⊆ c :: rest ++ held := List.subset_append_right ..
    rw [siblingOffers, List.forall_mem_cons] at hobeys ⊢
    obtain ⟨hc, hobeys⟩ := hobeys
    obtain ⟨hclient, hreplacement⟩ := hc hcN hpN
    have hclient := hrun.trans (hclient List.mem_cons_self hrun)
    simp only at hclient hreplacement
    rw [offerSiblings]
    generalize offer (c :: rest ++ held) c (s.forest, s.client) = r
      at hclient hreplacement hobeys ⊢
    obtain ⟨answer, f, client⟩ := r
    cases answer with
    | some x =>
      have hallowed := hreplacement x rfl (hheld hp) hclient
      have hreplaced : Run D w (midway hands (c :: rest ++ held)
          (((Mutation.replaceChild p c x).perform f).2, client)) := by
        have hmove := hclient.move hallowed.1 hallowed.2
        rwa [after_replaceChild] at hmove
      simp only at hobeys ⊢
      generalize (Mutation.replaceChild p c x).perform f = r at hobeys hreplaced ⊢
      obtain ⟨e | replaced, g⟩ := r
      · exact ⟨⟨hrun, by simp⟩, hreplaced.release hD hw hheld⟩
      · obtain ⟨hcalls, hend⟩ := ih _ hcs (hreplaced.release hD hw hdrop) hobeys
        exact ⟨⟨hrun, hcalls⟩, hend⟩
    | none =>
      simp only [List.forall_mem_append] at hobeys ⊢
      obtain ⟨hbelow, hobeys⟩ := hobeys
      obtain ⟨hcalls, hentered⟩ :=
        @henter (c :: rest ++ held) c _ hclient List.mem_cons_self hcN hbelow
      rcases he : enter (c :: rest ++ held) c { s with forest := f, client := client } with
        ⟨outcome, t⟩
      rw [he] at hobeys hentered
      cases outcome with
      | error e => exact ⟨⟨hrun, hcalls, by simp⟩, hentered.release hD hw hheld⟩
      | ok =>
        obtain ⟨hrest, hend⟩ := ih t hcs (hentered.release hD hw hdrop) hobeys
        exact ⟨⟨hrun, hcalls, hrest⟩, hend⟩

theorem offerBelow_run (hD : Lenient D) (hw : w.Sound)
    (hN : ∀ {v : World} {p c}, Run D w v → N p → c ∈ v.forest.children p → N c) :
    ∀ (depth : Nat) {held : List NodeId} {p : NodeId} {s : Substitution σ},
      Run D w (midway hands held (s.forest, s.client)) → p ∈ held → N p →
      (∀ o ∈ offersWithin offer depth held p s,
        N o.node → N o.holder → OfferObeys D w hands offer o) →
      (∀ o ∈ offersWithin offer depth held p s, Run D w (ofCall hands o.toHandover)) ∧
        Run D w (midway hands held ((offerBelow offer depth held p s).2.forest,
          (offerBelow offer depth held p s).2.client)) := by
  intro depth
  induction depth with
  | zero => intro held p s hrun _ _ _; exact ⟨by simp [offersWithin], hrun⟩
  | succ depth ih =>
    intro held p s hrun hp hpN hobeys
    exact offerSiblings_run hD hw hp hpN ih _ _ (fun _ hc => hN hrun hpN hc)
      (hrun.enter hD hw hp) hobeys

/-- A substitution in a part of the forest from which no link down leads out: its client and its
replacements have to keep the discipline there only. -/
theorem replaceAll_run_within {depth : Nat} {root : NodeId} (hD : Lenient D) (hw : w.Sound)
    (hN : ∀ {v : World} {p c}, Run D w v → N p → c ∈ v.forest.children p → N c)
    (hrun : Run D w (midway hands held s)) (hroot : (midway hands held s).Live root)
    (hrootN : N root)
    (hobeys : ∀ o ∈ offers offer depth held root s,
      N o.node → N o.holder → OfferObeys D w hands offer o) :
    (∀ o ∈ offers offer depth held root s, Run D w (ofCall hands o.toHandover)) ∧
      Run D w (midway hands held (replaceAll offer depth held root s).2) := by
  obtain ⟨hcalls, hend⟩ := @offerBelow_run σ D w hands offer N hD hw hN depth _ _ ⟨s.1, s.2, 0⟩
    (hrun.start hD hw hroot) List.mem_cons_self hrootN hobeys
  refine ⟨hcalls, ?_⟩
  have hend := hend.release hD hw (List.subset_cons_self root _)
  unfold replaceAll
  generalize offerBelow offer depth (root :: held) root ⟨s.1, s.2, 0⟩ = r at hend ⊢
  obtain ⟨outcome, t⟩ := r
  cases outcome with
  | error e => exact hend
  | ok => exact hend.move (m := .call (.report _)) ⟨by simp [Call.receiver?], by simp [Call.placed],
      trivial⟩ hD.report

/-- **A substitution whose client and replacements keep a discipline is a run of that
discipline.** -/
theorem replaceAll_run {depth : Nat} {root : NodeId} (hD : Lenient D) (hw : w.Sound)
    (hrun : Run D w (midway hands held s)) (hroot : (midway hands held s).Live root)
    (hobeys : ∀ o ∈ offers offer depth held root s, OfferObeys D w hands offer o) :
    (∀ o ∈ offers offer depth held root s, Run D w (ofCall hands o.toHandover)) ∧
      Run D w (midway hands held (replaceAll offer depth held root s).2) :=
  replaceAll_run_within (N := fun _ => True) hD hw (fun _ _ _ => trivial) hrun hroot trivial
    fun o ho _ _ => hobeys o ho

end ReplaceAll

end Walk

end World

end SyntaxForest
