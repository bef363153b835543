import SyntaxForest.Forest.Assembly
import SyntaxForest.Proofs.Rewiring

/-!
# Atomicity: a change that fails has changed nothing

A mutation goes on step by step, and a failure does not undo the steps before it. That a change
to what a node holds still happens as a whole or not at all is due to the order of its steps:
as long as something can fail, nothing has happened, and once something has happened nothing can
fail any more. `Atomic.bind` is this argument for one step and those after it.

It takes work where the second half is said of steps that do check something. `extend` looks at
every node again when it is appended, and `reset` clears the field in between: none of this
changes a kind, so what has passed the check once passes it again. `replaceChild` goes from
field to field, and where it does not find the child it has done nothing.

Main statement: `Mutation.failed_change_undone`.
-/

namespace SyntaxForest

/-- A change to what a node or draft holds. -/
inductive Change
  | assign (s : SingleField) (x : Option NodeId)
  | edit (s : SequenceField) (e : SequenceEdit NodeId)
  | replaceChild (x y : NodeId)

namespace Mutation

variable {α β : Type} {f g : Forest} {p : NodeId} {s : SequenceField}

/-- Changes what a node or draft holds. A node that is taken out by its place is handed out. -/
def change (p : NodeId) : Change → Mutation (List NodeId)
  | .assign s x => do
    assign p s x
    return []
  | .edit s e => do
    match ← edit p s e with
    | .removed x => return [x]
    | .done | .found _ => return []
  | .replaceChild x y => do
    let _ ← replaceChild p x y
    return []

/-! ## Failing early and not at all -/

/-- If the mutation fails on the forest, it leaves the forest as it was. -/
def Atomic (m : Mutation α) (f : Forest) : Prop := ∀ e g, m.perform f = (.error e, g) → g = f

/-- The mutation does not fail on the forest. -/
def Succeeds (m : Mutation α) (f : Forest) : Prop := ∃ a g, m.perform f = (.ok a, g)

instance (m : Mutation α) (f : Forest) : Decidable (Succeeds m f) :=
  match h : m.perform f with
  | (.ok a, g) => .isTrue ⟨a, g, h⟩
  | (.error _, _) => .isFalse fun ⟨_, _, hok⟩ => nomatch h.symm.trans hok

/-- Doing nothing does not fail. -/
theorem Succeeds.pure (a : α) : Succeeds (Pure.pure a) f := ⟨a, f, rfl⟩

/-- A mere change does not fail. -/
theorem Succeeds.modify (h : Forest → Forest) : Succeeds (modify h) f := ⟨(), h f, rfl⟩

/-- Two steps do not fail if the first does not, and the second does not after it. -/
theorem Succeeds.bind {m : Mutation α} {k : α → Mutation β} {a : α}
    (hm : m.perform f = (.ok a, g)) (hk : Succeeds (k a) g) : Succeeds (m >>= k) f := by
  obtain ⟨b, g', hb⟩ := hk
  exact ⟨b, g', bind_eq_ok.2 ⟨a, g, hm, hb⟩⟩

/-- What begins with a check does not fail if the check passes and the rest does not fail. -/
theorem Succeeds.check_bind {c : Forest → Except Error Unit} {k : Unit → Mutation β}
    (hc : c f = .ok ()) (hk : Succeeds (k ()) f) : Succeeds (check c >>= k) f :=
  .bind (by rw [perform_check, hc]) hk

/-- What begins with a look at the forest does not fail if the rest does not. -/
theorem Succeeds.get_bind {k : Forest → Mutation β} (hk : Succeeds (k f) f) :
    Succeeds (get >>= k) f := hk

/-- What is done with the result of a mutation does not make it fail. -/
theorem Succeeds.bind_pure {m : Mutation α} (hm : Succeeds m f) (h : α → β) :
    Succeeds (m >>= fun a => Pure.pure (h a)) f := by
  obtain ⟨a, g, ha⟩ := hm
  exact .bind ha (.pure (h a))

/-- What does not fail has nothing to undo. -/
theorem Succeeds.atomic {m : Mutation α} (h : Succeeds m f) : Atomic m f := by
  rintro e g he
  obtain ⟨a, g', ha⟩ := h
  rw [ha] at he
  exact absurd (Prod.mk.inj he).1 (by simp)

/-- Where one step has succeeded, either the rest cannot fail any more or nothing has happened
yet. -/
theorem Atomic.bind {m : Mutation α} {k : α → Mutation β} (hm : Atomic m f)
    (hk : ∀ a g, m.perform f = (.ok a, g) → Succeeds (k a) g ∨ g = f ∧ Atomic (k a) f) :
    Atomic (m >>= k) f := by
  intro e g h
  rw [perform_bind] at h
  rcases ha : m.perform f with ⟨e' | a, f'⟩
  · rw [ha] at h
    obtain ⟨-, rfl⟩ := Prod.mk.inj h
    exact hm e' _ ha
  · rw [ha] at h
    rcases hk a f' ha with hsucc | ⟨rfl, hatomic⟩
    · obtain ⟨b, g', hb⟩ := hsucc
      exact absurd (Prod.mk.inj (hb.symm.trans h)).1 (by simp)
    · exact hatomic e g h

/-- A check changes nothing, so that it only matters what comes after it. -/
theorem Atomic.check_bind {c : Forest → Except Error Unit} {k : Unit → Mutation β}
    (hk : c f = .ok () → Atomic (k ()) f) : Atomic (check c >>= k) f := by
  refine Atomic.bind (fun _ _ h => (Prod.mk.inj h).2.symm) fun a g h => ?_
  obtain ⟨hc, rfl⟩ := Prod.mk.inj h
  exact .inr ⟨rfl, hk hc⟩

/-- A look at the forest changes nothing either. -/
theorem Atomic.get_bind {k : Forest → Mutation β} (hk : Atomic (k f) f) :
    Atomic (get >>= k) f := hk

/-- What is done with the result of a mutation cannot fail. -/
theorem Atomic.bind_pure {m : Mutation α} (h : α → β) (hm : Atomic m f) :
    Atomic (m >>= fun a => Pure.pure (h a)) f :=
  hm.bind fun a _ _ => .inl (.pure (h a))

/-! ## Single fields -/

/-- Assigning checks field and fit before it changes anything. -/
theorem atomic_assign (s : SingleField) (x : Option NodeId) : Atomic (assign p s x) f := by
  refine .check_bind fun _ => ?_
  cases x with
  | none => exact (Succeeds.modify _).atomic
  | some n =>
    refine .check_bind fun _ => .get_bind ?_
    split
    · exact (Succeeds.pure ()).atomic
    · exact (Succeeds.modify _).atomic

/-! ## Sequence fields -/

/-- What appending does where the field is there and the node fits. -/
theorem perform_append {x : NodeId} (hs : .sequence s ∈ (f.kind p).fields)
    (hfit : (Field.sequence s).category.accepts (f.kind x) = true) :
    (append p s x).perform f = (.ok (), f.linkInto p s x (f.sequence p s ++ [x])) :=
  check_bind_eq_ok.2 ⟨Forest.requireField_eq_ok.2 hs,
    check_bind_eq_ok.2 ⟨Forest.requireFit_eq_ok.2 hfit, rfl⟩⟩

/-- Appending does not change a kind, so that what fits before fits when its turn comes. -/
theorem succeeds_forM_append {xs : List NodeId} (hs : .sequence s ∈ (f.kind p).fields)
    (hfits : ∀ x ∈ xs, (Field.sequence s).category.accepts (f.kind x) = true) :
    Succeeds (xs.forM (append p s)) f := by
  induction xs generalizing f with
  | nil => exact .pure ()
  | cons x xs ih =>
    refine .bind (perform_append hs (hfits x List.mem_cons_self)) (ih ?_ fun y hy => ?_)
    · rwa [Forest.kind_linkInto]
    · rw [Forest.kind_linkInto]
      exact hfits y (List.mem_cons_of_mem _ hy)

/-- Extending does not fail where the field is there and all nodes fit. -/
theorem succeeds_extend {xs : List NodeId} (hs : .sequence s ∈ (f.kind p).fields)
    (hfits : ∀ x ∈ xs, (Field.sequence s).category.accepts (f.kind x) = true) :
    Succeeds (extend p s xs) f :=
  .check_bind (Forest.requireField_eq_ok.2 hs) <|
    .check_bind (Forest.requireFits_eq_ok.2 hfits) (succeeds_forM_append hs hfits)

/-- Extending checks all nodes before it appends the first. -/
theorem atomic_extend (xs : List NodeId) : Atomic (extend p s xs) f :=
  .check_bind fun hs => .check_bind fun hfits =>
    (succeeds_forM_append (Forest.requireField_eq_ok.1 hs)
      (Forest.requireFits_eq_ok.1 hfits)).atomic

/-- Clearing does not change a kind, so that extending does not fail after it. -/
theorem succeeds_clear_extend {xs : List NodeId} (hs : .sequence s ∈ (f.kind p).fields)
    (hfits : ∀ x ∈ xs, (Field.sequence s).category.accepts (f.kind x) = true) :
    Succeeds (clear p s >>= fun _ => extend p s xs) f := by
  have hclear : (clear p s).perform f = (.ok (), f.unlinkFrom p s [] (f.sequence p s)) :=
    check_bind_eq_ok.2 ⟨Forest.requireField_eq_ok.2 hs, rfl⟩
  refine .bind hclear (succeeds_extend ?_ fun x hx => ?_)
  · rw [Forest.kind_unlinkFrom]
    exact hs
  · rw [Forest.kind_unlinkFrom]
    exact hfits x hx

/-- Resetting checks all nodes before it clears. -/
theorem atomic_reset (xs : List NodeId) : Atomic (reset p s xs) f :=
  .check_bind fun hs => .check_bind fun hfits =>
    (succeeds_clear_extend (Forest.requireField_eq_ok.1 hs)
      (Forest.requireFits_eq_ok.1 hfits)).atomic

/-- An index out of bounds is found before anything is taken out. -/
theorem atomic_removeAt (i : Nat) : Atomic (removeAt p s i) f := by
  refine .check_bind fun _ => .get_bind ?_
  dsimp only
  split
  · exact fun _ _ h => (Prod.mk.inj h).2.symm
  · exact Succeeds.atomic ⟨_, _, rfl⟩

/-- The fit is checked once the place is known, and before the exchange. -/
theorem atomic_substitute (x y : NodeId) : Atomic (substitute p s x y) f := by
  refine .check_bind fun _ => .get_bind ?_
  split
  · exact (Succeeds.pure false).atomic
  · refine .check_bind fun _ => ?_
    split <;> exact Succeeds.atomic ⟨_, _, rfl⟩

/-- **An operation on a sequence happens as a whole or not at all.** -/
theorem atomic_edit (e : SequenceEdit NodeId) : Atomic (edit p s e) f := by
  cases e with
  | append x =>
    exact .bind_pure _ <| .check_bind fun _ => .check_bind fun _ => (Succeeds.modify _).atomic
  | insertAt i x =>
    exact .bind_pure _ <| .check_bind fun _ => .check_bind fun _ => .check_bind fun _ =>
      (Succeeds.modify _).atomic
  | extend xs => exact .bind_pure _ (atomic_extend xs)
  | reset xs => exact .bind_pure _ (atomic_reset xs)
  | clear => exact .bind_pure _ <| .check_bind fun _ => (Succeeds.modify _).atomic
  | remove x =>
    refine .bind_pure _ <| .check_bind fun _ => .get_bind ?_
    split <;> exact Succeeds.atomic ⟨_, _, rfl⟩
  | removeAt i => exact .bind_pure _ (atomic_removeAt i)
  | substitute x y => exact .bind_pure _ (atomic_substitute x y)

/-! ## Replacing a child -/

/-- Replacing a child in one field is assigning, or substituting in a sequence. -/
theorem atomic_replaceIn (x y : NodeId) (φ : Field) : Atomic (replaceIn p x y φ) f := by
  cases φ with
  | single s =>
    refine .get_bind ?_
    split
    · exact .bind_pure (fun _ => true) (atomic_assign s (some y))
    · exact (Succeeds.pure false).atomic
  | sequence s => exact atomic_substitute x y

/-- A field in which the child is not found is left as it was, and the next one is tried. -/
theorem atomic_replaceAmong (x y : NodeId) (φs : List Field) :
    Atomic (replaceAmong p x y φs) f := by
  induction φs with
  | nil => exact (Succeeds.pure false).atomic
  | cons φ φs ih =>
    refine (atomic_replaceIn x y φ).bind fun found g h => ?_
    rcases Forest.replaceIn_answer h with ⟨rfl, -⟩ | ⟨rfl, -, hg⟩
    · exact .inl ⟨_, _, rfl⟩
    · exact .inr ⟨hg, ih⟩

/-- **Replacing a child happens as a whole or not at all.** -/
theorem atomic_replaceChild (x y : NodeId) : Atomic (replaceChild p x y) f :=
  .get_bind (atomic_replaceAmong x y _)

/-! ## All changes -/

/-- Filling a field of a draft is assigning or extending. -/
theorem atomic_place (a : Placement) : Atomic (place p a) f := by
  cases a with
  | single s x => exact atomic_assign s x
  | sequence s xs => exact atomic_extend xs

/-- **Every change happens as a whole or not at all.** -/
theorem atomic_change (p : NodeId) (c : Change) (f : Forest) : Atomic (change p c) f := by
  cases c with
  | assign s x => exact .bind_pure (fun _ => []) (atomic_assign s x)
  | edit s e =>
    refine (atomic_edit e).bind fun a _ _ => .inl ?_
    cases a <;> exact .pure _
  | replaceChild x y => exact .bind_pure (fun _ => []) (atomic_replaceChild x y)

/-- **A change that fails has changed nothing.** Whatever the node or draft, the field and the
nodes handed over, and whatever the state of the forest: it is the same forest afterwards. -/
theorem failed_change_undone {p : NodeId} {c : Change} {f g : Forest} {e : Error}
    (h : (change p c).perform f = (.error e, g)) : g = f :=
  atomic_change p c f e g h

/-- An invocation `f(1)`, a number and a return statement. -/
def trialForest : Forest :=
  let f := (({} : Forest).newReference {} "f").2
  let f := (f.newInteger {} 1).2
  let f := (f.newInvocation {} 0 [1]).2
  let f := (f.newInteger {} 2).2
  (f.newReturn {} none).2

/-- In each batch the number comes first and would fit; the return statement does not. The last
one fails in the second field that is looked at. -/
theorem failed_change_undone_batch :
    let f := trialForest
    let refusal := Error.incompatibleNode .methodInvocation (.sequence .arguments) .returnStatement
    (change 2 (.edit .arguments (.extend [3, 4]))).perform f = (.error refusal, f) ∧
    (change 2 (.edit .arguments (.reset [3, 4]))).perform f = (.error refusal, f) ∧
    (change 2 (.replaceChild 1 4)).perform f = (.error refusal, f) :=
  ⟨Prod.ext rfl (failed_change_undone (Prod.ext rfl rfl)),
    Prod.ext rfl (failed_change_undone (Prod.ext rfl rfl)),
    Prod.ext rfl (failed_change_undone (Prod.ext rfl rfl))⟩

end Mutation

end SyntaxForest
