import SyntaxForest.Proofs.Ascents
import SyntaxForest.Proofs.Offerings

/-!
# Traversals

There are three ways to go through a tree: to walk through it with a client, to give its nodes to
handlers by kind, and to offer them for substitution. Each has a recursion of its own, and keeps
its own account of what is still to come. All of them keep to one order, that of the listing
`preorder`, and a substitution leaves out the root.

A client may change the forest, and what a node holds is read when the walk comes to that node. So
the order is that of the listing if the client leaves alone what the nodes of the tree hold,
whatever else it does. In the proofs this is a property `I` of forests which is true at the start
and which every call keeps; all that is asked of it is to tell what these nodes hold. A
substitution whose client declines everything adds nothing of its own, and so `I` can also say that
the forest is the one that it was.

Main statement: `World.traversals_agree`.
-/

namespace SyntaxForest

namespace Forest

variable {f : Forest} {n root : NodeId}

/-- A node, then the listings of what it holds. -/
theorem FitsWithin.preorder_eq (h : f.FitsWithin f.size n) :
    f.preorder n = n :: (f.children n).flatMap f.preorder := by
  rw [preorder]
  cases hsize : f.size with
  | zero =>
    rw [hsize] at h
    exact h.elim
  | succ depth =>
    rw [hsize] at h
    rw [preorderWithin]
    congr 1
    refine List.flatMap_congr fun c hc => ?_
    rw [preorder, hsize]
    exact (preorderWithin_eq_of_le depth (depth + 1) (h c hc) (Nat.le_succ depth)).symm

/-- In the tree of `root`, nodes hold what they held. -/
def SameBelow (f : Forest) (root : NodeId) (g : Forest) : Prop :=
  ∀ j, f.Below root j → g.children j = f.children j

/-! ## Walks with a client -/

section Walk

variable {σ : Type} {visit : List NodeId → NodeId → Forest × σ → Forest × σ} {I : Forest → Prop}

/-- Called like this, the client keeps what is known of the forest. -/
def Keeping (I : Forest → Prop) (visit : List NodeId → NodeId → Forest × σ → Forest × σ)
    (v : Handover σ) : Prop :=
  I v.state.1 → I (visit v.held v.node v.state).1

theorem map_node_siblingVisits {enter : List NodeId → NodeId → Forest × σ → Forest × σ}
    {visits : List NodeId → NodeId → Forest × σ → List (Handover σ)}
    {listing : NodeId → List NodeId} (held : List NodeId)
    (henter : ∀ held n s, f.Below root n → I s.1 →
      (∀ v ∈ visits held n s, Keeping I visit v) →
      I (enter held n s).1 ∧ (visits held n s).map (·.node) = listing n) :
    ∀ (cs : List NodeId) (s : Forest × σ), (∀ c ∈ cs, f.Below root c) → I s.1 →
      (∀ v ∈ siblingVisits enter visits held cs s, Keeping I visit v) →
      I (forSiblings enter held cs s).1 ∧
        (siblingVisits enter visits held cs s).map (·.node) = cs.flatMap listing := by
  intro cs
  induction cs with
  | nil => intro s _ hs _; exact ⟨hs, rfl⟩
  | cons c rest ih =>
    intro s hcs hs hkeep
    obtain ⟨hc, hcs⟩ := List.forall_mem_cons.1 hcs
    rw [siblingVisits, List.forall_mem_append] at hkeep
    obtain ⟨hentered, hnodes⟩ := henter _ c s hc hs hkeep.1
    obtain ⟨hend, hrest⟩ := ih _ hcs hentered hkeep.2
    refine ⟨hend, ?_⟩
    rw [siblingVisits, List.map_append, hnodes, hrest, List.flatMap_cons]

/-- **A walk hands over the nodes of the listing**, one after the other, if its client leaves alone
what they hold. -/
theorem map_node_visitsWithin (hclosed : f.Closed)
    (hI : ∀ {g}, I g → SameBelow f root g) :
    ∀ (depth : Nat) (held : List NodeId) (n : NodeId) (s : Forest × σ), f.Below root n → I s.1 →
      (∀ v ∈ visitsWithin visit depth held n s, Keeping I visit v) →
      I (forEachWithin visit depth held n s).1 ∧
        (visitsWithin visit depth held n s).map (·.node) = f.preorderWithin depth n := by
  intro depth
  induction depth with
  | zero => intro held n s _ hs _; exact ⟨hs, rfl⟩
  | succ depth ih =>
    intro held n s hn hs hkeep
    rw [visitsWithin, List.forall_mem_cons] at hkeep
    have hvisit : I (visit held n s).1 := hkeep.1 hs
    have hchildren := hI hvisit n hn
    have hbelow : ∀ c ∈ (visit held n s).1.children n, f.Below root c := by
      intro c hc
      rw [hchildren] at hc
      exact .held hn hc (hclosed n c hc)
    obtain ⟨hend, hnodes⟩ := map_node_siblingVisits held ih _ _ hbelow hvisit hkeep.2
    refine ⟨hend, ?_⟩
    rw [visitsWithin, List.map_cons, hnodes, hchildren, preorderWithin]

/-- The client that only looks at the forest, and makes up its mind anew at every node. -/
def looking (step : Forest → NodeId → σ → σ) (_ : List NodeId) (n : NodeId) (s : Forest × σ) :
    Forest × σ :=
  (s.1, step s.1 n s.2)

theorem forSiblings_looking {step : Forest → NodeId → σ → σ} {listing : NodeId → List NodeId}
    {enter : List NodeId → NodeId → Forest × σ → Forest × σ} (held : List NodeId)
    (henter : ∀ held n client, enter held n (f, client) =
      (f, (listing n).foldl (fun client m => step f m client) client)) :
    ∀ (cs : List NodeId) (client : σ), forSiblings enter held cs (f, client) =
      (f, (cs.flatMap listing).foldl (fun client m => step f m client) client) := by
  intro cs
  induction cs with
  | nil => intro client; rfl
  | cons c rest ih =>
    intro client
    rw [forSiblings, henter, ih, List.flatMap_cons, List.foldl_append]

/-- A walk whose client only looks goes through the listing. -/
theorem forEachWithin_looking {step : Forest → NodeId → σ → σ} : ∀ (depth : Nat)
    (held : List NodeId) (n : NodeId) (client : σ),
    forEachWithin (looking step) depth held n (f, client) =
      (f, (f.preorderWithin depth n).foldl (fun client m => step f m client) client) := by
  intro depth
  induction depth with
  | zero => intro held n client; rfl
  | succ depth ih =>
    intro held n client
    exact forSiblings_looking held ih (f.children n) (step f n client)

end Walk

/-! ## Substitutions in which everything is declined -/

section Substitution

variable {σ : Type} {offer : Offer σ} {I : Forest → Prop}

/-- Offered a node like this, the client declines, and keeps what is known of the forest. -/
def Declining (I : Forest → Prop) (offer : Offer σ) (o : Offering σ) : Prop :=
  o.answer offer = none ∧ (I o.state.1 → I (o.after offer).1)

theorem offerSiblings_declining
    {enter : List NodeId → NodeId → Substitution σ → Except Error Unit × Substitution σ}
    {offers : List NodeId → NodeId → Substitution σ → List (Offering σ)}
    {listing : NodeId → List NodeId} (held : List NodeId) (p : NodeId)
    (henter : ∀ held n s, f.Below root n → I s.forest →
      (∀ o ∈ offers held n s, Declining I offer o) →
      (∃ t, enter held n s = (.ok (), t) ∧ t.count = s.count ∧ I t.forest) ∧
        (offers held n s).map (·.node) = listing n) :
    ∀ (cs : List NodeId) (s : Substitution σ), (∀ c ∈ cs, f.Below root c) → I s.forest →
      (∀ o ∈ siblingOffers offer enter offers held p cs s, Declining I offer o) →
      (∃ t, offerSiblings offer enter held p cs s = (.ok (), t) ∧ t.count = s.count ∧
        I t.forest) ∧
      (siblingOffers offer enter offers held p cs s).map (·.node) =
        cs.flatMap fun c => c :: listing c := by
  intro cs
  induction cs with
  | nil => intro s _ hs _; exact ⟨⟨s, rfl, rfl, hs⟩, rfl⟩
  | cons c rest ih =>
    intro s hcs hs hdecline
    obtain ⟨hc, hcs⟩ := List.forall_mem_cons.1 hcs
    rw [siblingOffers, List.forall_mem_cons] at hdecline
    obtain ⟨⟨hnone, hkeep⟩, hdecline⟩ := hdecline
    have hkeep := hkeep hs
    simp only [Offering.answer, Offering.after] at hnone hkeep
    rw [offerSiblings, siblingOffers]
    generalize offer (c :: rest ++ held) c (s.forest, s.client) = r at hnone hkeep hdecline ⊢
    obtain ⟨answer, g, client⟩ := r
    obtain rfl : answer = none := hnone
    simp only [List.forall_mem_append] at hdecline ⊢
    obtain ⟨⟨t, hentered, hcount, ht⟩, hbelow⟩ := henter _ c _ hc hkeep hdecline.1
    rw [hentered] at hdecline ⊢
    obtain ⟨⟨u, hend, hcount', hu⟩, hrest⟩ := ih t hcs ht hdecline.2
    refine ⟨⟨u, hend, hcount'.trans hcount, hu⟩, ?_⟩
    rw [List.map_cons, List.map_append, hbelow, hrest, List.flatMap_cons]
    rfl

/-- **A substitution offers what the listing has below the root**, and if all of that is declined,
nothing is replaced. -/
theorem offerBelow_declining (hclosed : f.Closed)
    (hI : ∀ {g}, I g → SameBelow f root g) :
    ∀ (depth : Nat) (held : List NodeId) (p : NodeId) (s : Substitution σ), f.Below root p →
      I s.forest → (∀ o ∈ offersWithin offer depth held p s, Declining I offer o) →
      (∃ t, offerBelow offer depth held p s = (.ok (), t) ∧ t.count = s.count ∧ I t.forest) ∧
        (offersWithin offer depth held p s).map (·.node) =
          (f.preorderWithin (depth + 1) p).tail := by
  intro depth
  induction depth with
  | zero =>
    intro held p s _ hs _
    refine ⟨⟨s, rfl, rfl, hs⟩, ?_⟩
    simp [offersWithin, preorderWithin]
  | succ depth ih =>
    intro held p s hp hs hdecline
    have hchildren := hI hs p hp
    have hbelow : ∀ c ∈ s.forest.children p, f.Below root c := by
      intro c hc
      rw [hchildren] at hc
      exact .held hp hc (hclosed p c hc)
    obtain ⟨hend, hnodes⟩ := offerSiblings_declining held p ih _ s hbelow hs hdecline
    refine ⟨hend, ?_⟩
    rw [offersWithin, hnodes, hchildren]
    rfl

/-- A substitution with nothing but declined offers reports that it has come to its end. -/
theorem replaceAll_declining (depth : Nat) (held : List NodeId) (s : Forest × σ)
    (hclosed : f.Closed) (hI : ∀ {g}, I g → SameBelow f root g) (hroot : root < f.size)
    (hs : I s.1) (hdecline : ∀ o ∈ offers offer depth held root s, Declining I offer o) :
    (∃ g client, replaceAll offer depth held root s =
      (.ok 0, g.note (.substitutionFinished (g.kind root) 0), client) ∧ I g) ∧
    (offers offer depth held root s).map (·.node) =
      (f.preorderWithin (depth + 1) root).tail := by
  obtain ⟨⟨t, hend, hcount, ht⟩, hnodes⟩ :=
    offerBelow_declining hclosed hI depth (root :: held) root ⟨s.1, s.2, 0⟩ (.refl hroot) hs
      hdecline
  refine ⟨⟨t.forest, t.client, ?_, ht⟩, hnodes⟩
  rw [replaceAll, hend]
  simp only [hcount]

end Substitution

end Forest

/-! ## Handlers by kind -/

namespace HandlerTable

variable {α : Type} {t : HandlerTable α}

/-- The handler is one of the table, for some kind or for all others. -/
def Has (t : HandlerTable α) (h : Handler α) : Prop :=
  h = t.otherwise ∨ ∃ k, t.forKind k = some h

theorem has_handler (t : HandlerTable α) (k : Kind) : t.Has (t.handler k) := by
  rw [handler]
  cases hk : t.forKind k with
  | none => exact .inl rfl
  | some h => exact .inr ⟨k, hk⟩

/-- **Handlers that go on below every node record the listing**, whichever of them it is that a
node is given to. -/
theorem acceptWithin_eq_map (f : Forest) (ht : ∀ h, t.Has h → ∀ n, h.descends n = true) :
    ∀ (depth : Nat) (n : NodeId), t.acceptWithin f depth n =
      (f.preorderWithin depth n).map fun m => (t.handler (f.kind m)).record m := by
  intro depth
  induction depth with
  | zero => intro n; rfl
  | succ depth ih =>
    intro n
    rw [acceptWithin, Forest.preorderWithin, List.map_cons, List.map_flatMap,
      if_pos (ht _ (t.has_handler _) n), List.flatMap_congr fun c _ => ih c]

end HandlerTable

/-! ## Main statement -/

namespace World

open Forest

/-- **All traversals keep to one order.** In every reachable world and for every live root with an
acyclic subtree, whatever is shared there: the listing has a node, and then the listings of what it
holds, its shared fields first and then its own ones. Handlers by kind of which each records the
node and goes on below it record this listing, whichever kinds have a handler of their own. A walk
hands over the nodes of this listing to its client, if the client leaves alone what the nodes of
the tree hold. A substitution offers them all but the first; if the client declines all of them,
none is replaced, and but for the client nothing is changed. For the walks there are as many levels
as the tree needs; as many as there are records will do. -/
theorem traversals_agree {w : World} (hw : w.Reachable) {root : NodeId} (hroot : w.Live root)
    (hacyclic : w.forest.AcyclicBelow root) :
    (∀ n, w.forest.Below root n → w.forest.preorder n =
      n :: ((w.forest.kind n).sharedFields ++ (w.forest.kind n).ownFields).flatMap fun φ =>
        (w.forest.occupants n φ).flatMap w.forest.preorder) ∧
    (∀ t : HandlerTable NodeId,
      (∀ h, t.Has h → ∀ n, h.record n = n ∧ h.descends n = true) →
      t.accept w.forest root = w.forest.preorder root) ∧
    w.forest.FitsWithin w.forest.size root ∧
    ∀ depth, w.forest.FitsWithin depth root → ∀ {σ : Type} (held : List NodeId) (client : σ),
      (∀ visit : List NodeId → NodeId → Forest × σ → Forest × σ,
        (∀ v ∈ visits visit depth held root (w.forest, client), ∀ j, w.forest.Below root j →
          (visit v.held v.node v.state).1.children j = v.state.1.children j) →
        (forEach (logging visit) depth held root (w.forest, client, [])).2.2.map (·.node) =
          w.forest.preorder root) ∧
      ∀ offer : Offer σ,
        (∀ o ∈ offers offer depth held root (w.forest, client), o.answer offer = none ∧
          ∀ j, w.forest.Below root j → (o.after offer).1.children j = o.state.1.children j) →
        (replaceAll (loggingOffer offer) depth held root (w.forest, client, [])).2.2.2.map
          (·.node) = (w.forest.preorder root).tail ∧
        (replaceAll offer depth held root (w.forest, client)).1 = .ok 0 ∧
        ((∀ o ∈ offers offer depth held root (w.forest, client),
            (o.after offer).1 = o.state.1) →
          (replaceAll offer depth held root (w.forest, client)).2.1 =
            w.forest.note (.substitutionFinished (w.forest.kind root) 0)) := by
  have hclosed := hw.regular.closed
  have hself : w.forest.Below root root := .refl hroot.lt_size
  have hsize := hacyclic.fitsWithin hclosed hroot.lt_size
  refine ⟨fun n hn => ?_, fun t ht => ?_, hsize, fun depth hdepth σ held client =>
    ⟨fun visit hvisit => ?_, fun offer hoffer => ?_⟩⟩
  · rw [((hacyclic.of_below hn).fitsWithin hclosed hn.lt_size).preorder_eq,
      children_eq_flatMap, List.flatMap_assoc]
    rfl
  · have hlisting := HandlerTable.acceptWithin_eq_map w.forest (fun h hh n => (ht h hh n).2)
      w.forest.size root
    have hrecord : ∀ m, (t.handler (w.forest.kind m)).record m = m := fun m =>
      (ht _ (t.has_handler _) m).1
    simpa [HandlerTable.accept, hrecord, preorder] using hlisting
  · have hkept : ∀ v ∈ visits visit depth held root (w.forest, client),
        Keeping (SameBelow w.forest root) visit v := fun v hv h j hj =>
      (hvisit v hv j hj).trans (h j hj)
    obtain ⟨-, hnodes⟩ := map_node_visitsWithin hclosed (fun h => h) depth (root :: held) root
      (w.forest, client) hself (fun _ _ => rfl) hkept
    have hlog := @forEach_logging σ visit depth held root (w.forest, client)
    rw [hlog, visits, hnodes, preorderWithin_eq_preorder hdepth hsize]
  · have hlisting : w.forest.preorderWithin (depth + 1) root = w.forest.preorder root := by
      rw [preorderWithin_eq_of_le depth (depth + 1) hdepth (Nat.le_succ depth)]
      exact preorderWithin_eq_preorder hdepth hsize
    have hkept : ∀ o ∈ offers offer depth held root (w.forest, client),
        Declining (SameBelow w.forest root) offer o := fun o ho =>
      ⟨(hoffer o ho).1, fun h j hj => ((hoffer o ho).2 j hj).trans (h j hj)⟩
    obtain ⟨⟨g, client', hend, -⟩, hnodes⟩ := replaceAll_declining depth held (w.forest, client)
      hclosed (fun h => h) hroot.lt_size (fun _ _ => rfl) hkept
    have hlog := @replaceAll_logging σ offer depth held root (w.forest, client)
    refine ⟨?_, by rw [hend], fun hsame => ?_⟩
    · rw [hlog, ← hlisting, ← hnodes, List.map_map]
      rfl
    · have hkept : ∀ o ∈ offers offer depth held root (w.forest, client),
          Declining (· = w.forest) offer o := fun o ho =>
        ⟨(hoffer o ho).1, fun h => (hsame o ho).trans h⟩
      obtain ⟨⟨g, client', hend, rfl⟩, -⟩ := replaceAll_declining (I := (· = w.forest)) depth held
        (w.forest, client) hclosed (fun h j _ => by rw [h]) hroot.lt_size rfl hkept
      rw [hend]

/-- Handlers for blocks and for names, which record the node like the one for all other kinds. -/
def someHandlers : HandlerTable NodeId where
  forKind k := if k = .block ∨ k = .reference then some ⟨id, fun _ => true⟩ else none
  otherwise := ⟨id, fun _ => true⟩

/-- Through a modifier, and through an argument that is there twice. The client of the walk leaves
its mark on every node. -/
theorem traversals_agree_nested :
    let w := nested.foldl after {}
    w.forest.AcyclicBelow 7 ∧ w.forest.FitsWithin 5 7 ∧
    w.forest.preorder 7 = [7, 6, 3, 5, 4, 2, 1, 0, 0] ∧
    someHandlers.accept w.forest 7 = w.forest.preorder 7 ∧
    (forEach (logging markSeen) 5 [] 7 (w.forest, (), [])).2.2.map (·.node) =
      w.forest.preorder 7 ∧
    (replaceAll (fun _ _ s => (none, s)) 5 [] 7 (w.forest, ())).1 = .ok 0 ∧
    (replaceAll (fun _ _ s => (none, s)) 5 [] 7 (w.forest, ())).2.1 =
      w.forest.note (.substitutionFinished .macroStatement 0) := by
  have hw : (nested.foldl after {}).Reachable := .of_allows (.refl _) (by decide +kernel)
  have hacyclic : (nested.foldl after {}).forest.AcyclicBelow 7 := by decide +kernel
  have hdepth : (nested.foldl after {}).forest.FitsWithin 5 7 := by
    simp only [FitsWithin]
    decide +kernel
  have hkind : (nested.foldl after {}).forest.kind 7 = .macroStatement := by decide +kernel
  have hmark : ∀ held n s j, (markSeen held n s).1.children j = s.1.children j := fun _ _ s j =>
    (amend_amended (f := s.1) (a := .documentation (some "seen")) trivial).children_eq j
  obtain ⟨-, hhandlers, -, hwalks⟩ :=
    @traversals_agree (nested.foldl after {}) hw 7 (by decide +kernel) hacyclic
  obtain ⟨hwalk, hsubstitution⟩ := hwalks 5 hdepth [] ()
  obtain ⟨-, hcount, hsame⟩ :=
    hsubstitution (fun _ _ s => (none, s)) fun _ _ => ⟨rfl, fun _ _ => rfl⟩
  have hsame := hsame fun _ _ => rfl
  rw [hkind] at hsame
  refine ⟨hacyclic, hdepth, by decide +kernel, hhandlers someHandlers ?_,
    hwalk markSeen fun _ _ j _ => hmark _ _ _ j, hcount, hsame⟩
  rintro h (rfl | ⟨k, hk⟩) n
  · exact ⟨rfl, rfl⟩
  · simp only [someHandlers] at hk
    split at hk
    · obtain rfl := Option.some.inj hk
      exact ⟨rfl, rfl⟩
    · exact absurd hk (by simp)

end World

end SyntaxForest
