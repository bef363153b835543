import SyntaxForest.Proofs.Clearing
import SyntaxForest.Proofs.Copying

/-!
# Sweeps in post-order

Two operations sweep through a whole subtree and leave an event at every node: copying, and
clearing bindings. They are not written alike. Copying goes through the fields of a node, in the
order in which its kind declares them, and makes the copies for one field after the other
(`copyWithin_declared`). Clearing goes through the list of children, which has the shared fields
first. But kinds declare their shared fields first, so the two orders are one
(`Kind.declaredFields_eq`), and both sweeps leave the event of a node after those of its children.

To say that every occurrence of a node has its event, and when, occurrences are told apart by their
routes. In post-order a route has its turn after all that go on from it, and before all that turn
off to a later child: `Route.Finishes`. `routes` has all routes of a subtree in this order.

A sweep goes from one forest to the next while it is busy with what it found in the first. What
these forests have in common with the first is different for the two sweeps: copies are added, or
stores go away. Either way the nodes of the subtree hold what they held.

Main statement: `World.sweeps_in_postorder`.
-/

namespace SyntaxForest

/-! ## Fields in declared order -/

namespace Kind

/-- The fields of a kind in the order of its declaration. -/
def declaredFields : Kind → List Field
  | block => [.single .modifier, .sequence .statements]
  | expressionStatement | returnStatement => [.single .modifier, .single .expression]
  | macroStatement => [.single .modifier, .sequence .arguments, .single .block]
  | statementModifier => [.single .condition]
  | methodInvocation => [.single .target, .sequence .arguments]
  | binary => [.single .left, .single .right]
  | reference | integerLiteral | stringLiteral | boolLiteral => []

/-- A listing has the modifier, which all statements share, before a kind's own fields. -/
theorem fields_eq_filter (k : Kind) :
    k.fields = k.declaredFields.filter (· = .single .modifier) ++
      k.declaredFields.filter (· ≠ .single .modifier) := by
  cases k <;> rfl

/-- **The modifier is declared first.** -/
theorem declaredFields_eq (k : Kind) : k.declaredFields = k.fields := by
  cases k <;> rfl

end Kind

/-! ## Routes in post-order -/

namespace Route

/-- The end of the first route is done before the end of the second: it is below, or below an
earlier child. -/
def Finishes : Route → Route → Prop
  | [], _ => False
  | _ :: _, [] => True
  | i :: r, j :: s => i < j ∨ i = j ∧ Finishes r s

theorem not_finishes_self : ∀ r : Route, ¬ Finishes r r
  | [] => id
  | i :: r => fun h => h.elim (Nat.lt_irrefl i) fun h => not_finishes_self r h.2

/-- Routes in post-order are all different. -/
theorem nodup_of_pairwise_finishes {routes : List Route} (h : routes.Pairwise Finishes) :
    routes.Nodup := by
  refine h.imp fun {r s} hrs heq => ?_
  rw [heq] at hrs
  exact not_finishes_self s hrs

end Route

namespace Forest

variable {f g : Forest} {n m : NodeId}

/-- The routes down to the given number of levels, in post-order. -/
def routesWithin (f : Forest) : Nat → NodeId → List Route
  | 0, _ => []
  | depth + 1, n =>
    (f.children n).zipIdx.flatMap (fun p => (routesWithin f depth p.1).map (p.2 :: ·)) ++ [[]]

/-- The routes of a subtree in post-order. -/
def routes (f : Forest) (n : NodeId) : List Route := f.routesWithin f.size n

theorem mem_routesWithin : ∀ {depth : Nat} {n : NodeId} {r : Route},
    r ∈ f.routesWithin depth n ↔ r.length < depth ∧ ∃ m, f.descend n r = some m := by
  intro depth
  induction depth with
  | zero => intro n r; simp [routesWithin]
  | succ depth ih =>
    intro n r
    rw [routesWithin, List.mem_append, List.mem_flatMap, List.mem_singleton]
    constructor
    · rintro (⟨⟨c, i⟩, hc, hr⟩ | rfl)
      · obtain ⟨s, hs, rfl⟩ := List.mem_map.1 hr
        obtain ⟨hlength, m, hm⟩ := ih.1 hs
        exact ⟨Nat.succ_lt_succ hlength, m,
          descend_cons_eq_some.2 ⟨c, List.mem_zipIdx_iff_getElem?.1 hc, hm⟩⟩
      · exact ⟨Nat.succ_pos depth, n, rfl⟩
    · rintro ⟨hlength, m, hm⟩
      cases r with
      | nil => exact .inr rfl
      | cons i s =>
        obtain ⟨c, hc, hm⟩ := descend_cons_eq_some.1 hm
        exact .inl ⟨(c, i), List.mem_zipIdx_iff_getElem?.2 hc,
          List.mem_map_of_mem (ih.2 ⟨Nat.lt_of_succ_lt_succ hlength, m, hm⟩)⟩

/-- A node's route comes after those through its children, which come child by child. -/
theorem pairwise_routesWithin : ∀ (depth : Nat) (n : NodeId),
    (f.routesWithin depth n).Pairwise Route.Finishes := by
  intro depth
  induction depth with
  | zero => intro n; exact .nil
  | succ depth ih =>
    intro n
    have hsplit : ∀ p : NodeId × Nat, ∀ r ∈ (f.routesWithin depth p.1).map (p.2 :: ·),
        ∃ s, r = p.2 :: s := by
      intro p r hr
      obtain ⟨s, -, rfl⟩ := List.mem_map.1 hr
      exact ⟨s, rfl⟩
    have hplaces : (f.children n).zipIdx.Pairwise fun p q => p.2 < q.2 := by
      rw [← List.pairwise_map, List.zipIdx_map_snd]
      exact List.pairwise_lt_range'
    rw [routesWithin, List.pairwise_append, List.pairwise_flatMap]
    refine ⟨⟨fun p _ => ?_, hplaces.imp fun {p q} hpq r hr s hs => ?_⟩,
      List.pairwise_singleton .., ?_⟩
    · exact List.pairwise_map.2 ((ih p.1).imp fun h => .inr ⟨rfl, h⟩)
    · obtain ⟨r, rfl⟩ := hsplit p r hr
      obtain ⟨s, rfl⟩ := hsplit q s hs
      exact .inl hpq
    · intro r hr s hs
      obtain ⟨p, -, hr⟩ := List.mem_flatMap.1 hr
      obtain ⟨r, rfl⟩ := hsplit p r hr
      rw [List.mem_singleton.1 hs]
      trivial

/-- The listing in post-order has the ends of these routes. -/
theorem map_descend_routesWithin : ∀ (depth : Nat) (n : NodeId),
    (f.routesWithin depth n).map (f.descend n) = (f.postorderWithin depth n).map some := by
  intro depth
  induction depth with
  | zero => intro n; rfl
  | succ depth ih =>
    intro n
    have hchild : ∀ p ∈ (f.children n).zipIdx,
        ((f.routesWithin depth p.1).map (p.2 :: ·)).map (f.descend n) =
          (f.postorderWithin depth p.1).map some := by
      rintro ⟨c, i⟩ hp
      have hc := List.mem_zipIdx_iff_getElem?.1 hp
      rw [← ih c, List.map_map]
      refine List.map_congr_left fun r _ => ?_
      rw [Function.comp_apply, descend, hc, Option.bind_some]
    rw [routesWithin, postorderWithin, List.map_append, List.map_append, List.map_flatMap,
      List.map_flatMap, List.flatMap_congr hchild]
    congr 1
    have hflat := List.flatMap_map Prod.fst (fun c => (f.postorderWithin depth c).map some)
      (f.children n).zipIdx
    rw [← hflat, List.zipIdx_map_fst]

theorem Closed.lt_size_of_descend (hclosed : f.Closed) {r : Route} (hn : n < f.size)
    (h : f.descend n r = some m) : m < f.size := by
  induction r generalizing n with
  | nil => exact Option.some.inj h ▸ hn
  | cons i r ih =>
    obtain ⟨c, hc, h⟩ := descend_cons_eq_some.1 h
    exact ih (hclosed n c (List.mem_of_getElem? hc)) h

/-- **All routes of an acyclic subtree are there.** -/
theorem AcyclicBelow.mem_routes_iff (h : f.AcyclicBelow n) (hclosed : f.Closed) (hn : n < f.size)
    {r : Route} : r ∈ f.routes n ↔ ∃ m, f.descend n r = some m := by
  rw [routes, mem_routesWithin]
  refine ⟨And.right, fun hr => ⟨?_, hr⟩⟩
  obtain ⟨m, hm⟩ := hr
  exact h.length_lt (hclosed.lt_size_of_descend hn hm) hm

/-! ## The journal of a sweep -/

/-- An event for every node of the listing, by its kind. -/
def eventsWithin (f : Forest) (event : Kind → Event) (depth : Nat) (n : NodeId) : List Event :=
  ((f.postorderWithin depth n).map f.kind).map event

theorem eventsWithin_succ (event : Kind → Event) (depth : Nat) (n : NodeId) :
    f.eventsWithin event (depth + 1) n =
      (f.children n).flatMap (f.eventsWithin event depth) ++ [event (f.kind n)] := by
  simp only [eventsWithin, postorderWithin, List.map_append, List.map_flatMap]
  rfl

section Sweep

variable (event : Kind → Event) (depth : Nat) (sweep : Forest → NodeId → Forest)
  (I : Forest → Prop)

/-- Sweeps from one forest to the next leave their events one after the other. Of these forests `I`
is known. -/
theorem journal_foldl : ∀ (cs : List NodeId) (g : Forest),
    (∀ c ∈ cs, ∀ g, I g → I (sweep g c) ∧
      (sweep g c).journal.toList = g.journal.toList ++ f.eventsWithin event depth c) →
    I g → (cs.foldl sweep g).journal.toList =
      g.journal.toList ++ cs.flatMap (f.eventsWithin event depth) := by
  intro cs
  induction cs with
  | nil => intro g _ _; simp
  | cons c cs ih =>
    intro g hsweep hg
    rw [List.forall_mem_cons] at hsweep
    obtain ⟨hfirst, hjournal⟩ := hsweep.1 g hg
    rw [List.foldl_cons, ih _ hsweep.2 hfirst, hjournal, List.flatMap_cons, List.append_assoc]

/-- **One level of a sweep**: the children one after the other, then the event of the node. -/
theorem journal_sweep (hg : I g) (hsweep : ∀ c ∈ f.children n, ∀ g, I g → I (sweep g c) ∧
      (sweep g c).journal.toList = g.journal.toList ++ f.eventsWithin event depth c) :
    (((f.children n).foldl sweep g).note (event (f.kind n))).journal.toList =
      g.journal.toList ++ f.eventsWithin event (depth + 1) n := by
  rw [journal_note, Array.toList_push,
    journal_foldl event depth sweep I (f.children n) g hsweep hg, eventsWithin_succ,
    List.append_assoc]

end Sweep

theorem children_eq_declared (f : Forest) (n : NodeId) :
    f.children n = (f.kind n).declaredFields.flatMap (f.occupants n) := by
  rw [Kind.declaredFields_eq, children_eq_flatMap]

/-- One level of copying goes along the fields as they are declared. -/
theorem copyWithin_declared (depth : Nat) (f : Forest) (n : NodeId) :
    copyWithin (depth + 1) f n =
      let copies := copyFields (copyWithin depth) (f.record n).contents
        (f.kind n).declaredFields {} f
      let copied := (f.record n).copiedAs copies.2.size copies.1
      (copies.2.size, ((copies.2.push copied).linkAll copied.children
        (some copies.2.size)).note (.copied (f.kind n))) := by
  rw [Kind.declaredFields_eq]
  rfl

theorem copyList_snd {copy : Forest → NodeId → NodeId × Forest} (xs : List NodeId) (f : Forest) :
    (copyList copy xs f).2 = xs.foldl (fun f x => (copy f x).2) f := by
  induction xs generalizing f with
  | nil => rfl
  | cons x xs ih => exact ih (copy f x).2

/-- The events of one level of copying are those of the copies of all children. -/
theorem journal_copyWithin_succ (depth : Nat) (f : Forest) (n : NodeId) :
    (copyWithin (depth + 1) f n).2.journal =
      (((f.children n).foldl (fun f c => (copyWithin depth f c).2) f).note
        (.copied (f.kind n))).journal := by
  have hnodup : (f.kind n).declaredFields.Nodup := by
    rw [Kind.declaredFields_eq]
    exact Kind.nodup_fields _
  have hfields := (@copyFields_spec (copyWithin depth) (f.record n).contents
    (f.kind n).declaredFields {} f hnodup).1
  rw [copyWithin_declared, children_eq_declared, ← copyList_snd]
  simp only [journal_note, journal_linkAll, journal_push, hfields]
  rfl

/-- **Copying leaves its events in post-order**, whatever copies have been made before. -/
theorem journal_copyWithin (hf : f.Regular) : ∀ (depth : Nat) (g : Forest) (n : NodeId),
    g.Regular → Grows f g → f.IsNode n → (copyWithin depth g n).2.journal.toList =
      g.journal.toList ++ f.eventsWithin .copied depth n := by
  intro depth
  induction depth with
  | zero => intro g n _ _ _; exact (List.append_nil _).symm
  | succ depth ih =>
    intro g n hg hgrows hn
    -- the copies made so far leave the node as it was
    rw [journal_copyWithin_succ, hgrows.kind_eq hn.lt_size, hgrows.children_eq hn.lt_size]
    refine journal_sweep .copied depth (fun g c => (copyWithin depth g c).2)
      (fun g => g.Regular ∧ Grows f g) ⟨hg, hgrows⟩ fun c hc g hI => ?_
    have hc := hf.isNode_of_mem hc
    have hrough := regular_copyWithin depth g c hI.1 (hI.2.isNode hc)
    exact ⟨⟨hrough.regular, hI.2.trans hrough.grows⟩, ih g c hI.1 hI.2 hc⟩

/-- **Clearing leaves its events in post-order**, whatever stores have been dropped before. -/
theorem journal_clearWithin : ∀ (depth : Nat) (g : Forest) (n : NodeId), (∃ ns, Wiped f g ns) →
    (clearWithin depth g n).journal.toList =
      g.journal.toList ++ f.eventsWithin .clearedBindings depth n := by
  intro depth
  induction depth with
  | zero => intro g n _; exact (List.append_nil _).symm
  | succ depth ih =>
    intro g n ⟨ns, hg⟩
    -- the children are read before the store goes, and are the same afterwards
    have hchildren : (g.record n).children = f.children n := hg.children_eq n
    have hkind : (g.record n).kind = f.kind n := hg.kind_eq n
    rw [clearWithin, hchildren, hkind]
    refine journal_sweep .clearedBindings depth (clearWithin depth) (fun g => ∃ ns, Wiped f g ns)
      ⟨_, hg.trans (wiped_update g n)⟩ fun c _ g hI => ⟨?_, ih g c hI⟩
    obtain ⟨ns, hg⟩ := hI
    exact ⟨_, hg.trans (clearWithin_wiped depth g c)⟩

end Forest

/-! ## Main statement -/

namespace World

open Forest

/-- **Copying and clearing sweep in post-order.** In every reachable forest, let the subtree of a
node be acyclic, whatever is shared there. Its routes, all of them and each of them once, are in
post-order those to the nodes of the listing `postorder`. The children of a node are listed with the
modifier before what is in its own fields, and this is the order in which its kind declares the
fields. A copy of the node leaves an event for each node of the post-order listing, with the kind of
the node, and so does clearing its bindings: the same kinds in the same order. Neither leaves
anything else in the journal. -/
theorem sweeps_in_postorder {w : World} (hw : w.Reachable) {n : NodeId}
    (hn : w.forest.IsNode n) (hacyclic : w.forest.AcyclicBelow n) :
    ((w.forest.routes n).Pairwise Route.Finishes ∧ (w.forest.routes n).Nodup ∧
      (∀ r, r ∈ w.forest.routes n ↔ ∃ m, w.forest.descend n r = some m) ∧
      (w.forest.routes n).map (w.forest.descend n) = (w.forest.postorder n).map some) ∧
    (∀ m, let declared := (w.forest.kind m).declaredFields
      w.forest.children m = (declared.filter (· = .single .modifier) ++
        declared.filter (· ≠ .single .modifier)).flatMap (w.forest.occupants m) ∧
      w.forest.children m = declared.flatMap (w.forest.occupants m)) ∧
    (w.forest.copy n).2.journal.toList =
      w.forest.journal.toList ++ ((w.forest.postorder n).map w.forest.kind).map .copied ∧
    (w.forest.clearBindings n).journal.toList =
      w.forest.journal.toList ++
        ((w.forest.postorder n).map w.forest.kind).map .clearedBindings := by
  have hregular := hw.regular
  have hpairwise := pairwise_routesWithin (f := w.forest) w.forest.size n
  refine ⟨⟨hpairwise, Route.nodup_of_pairwise_finishes hpairwise, fun r =>
    hacyclic.mem_routes_iff hregular.closed hn.lt_size,
    map_descend_routesWithin w.forest.size n⟩, fun m => ⟨?_, ?_⟩, ?_, ?_⟩
  · rw [← Kind.fields_eq_filter, children_eq_flatMap]
  · exact children_eq_declared w.forest m
  · exact journal_copyWithin hregular w.forest.size w.forest n hregular (.refl _) hn
  · exact journal_clearWithin w.forest.size w.forest n ⟨[], .refl _⟩

/-- The macro statement of `nested`: a modifier, whose condition comes first, and an argument that
is there twice. -/
theorem sweeps_in_postorder_nested :
    let f := (nested.foldl after {}).forest
    (f.AcyclicBelow 7 ∧ f.postorder 7 = [4, 5, 1, 0, 0, 2, 3, 6, 7]) ∧
    (f.routes 7).length = 9 ∧
    ((f.copy 7).2.journal.toList = [.reference, .statementModifier, .reference, .reference,
      .reference, .methodInvocation, .expressionStatement, .block, .macroStatement].map .copied) ∧
    ((f.clearBindings 7).journal.toList = [.reference, .statementModifier, .reference, .reference,
      .reference, .methodInvocation, .expressionStatement, .block, .macroStatement].map
        .clearedBindings) := by
  have hw : (nested.foldl after {}).Reachable := .of_allows (.refl _) (by decide +kernel)
  have hacyclic : (nested.foldl after {}).forest.AcyclicBelow 7 := by decide +kernel
  obtain ⟨⟨-, -, -, hroutes⟩, -, hcopy, hclear⟩ :=
    sweeps_in_postorder hw (n := 7) (by decide +kernel) hacyclic
  have hlisting : (nested.foldl after {}).forest.postorder 7 = [4, 5, 1, 0, 0, 2, 3, 6, 7] := by
    decide +kernel
  rw [hlisting] at hroutes hcopy hclear
  refine ⟨⟨hacyclic, hlisting⟩, ?_, hcopy.trans (by decide +kernel),
    hclear.trans (by decide +kernel)⟩
  simpa using congrArg List.length hroutes

end World

end SyntaxForest
