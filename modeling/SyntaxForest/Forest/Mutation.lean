import SyntaxForest.Forest.Basic

/-!
# Mutations

An operation that changes a forest goes on step by step, and one of its steps may fail. There
is no way back: what was done before the failure stays done. `Mutation.perform` therefore gives
a forest in any case, together with the result or the error. An operation that is meant to
happen as a whole or not at all has to look at everything first and to begin only then.
-/

namespace SyntaxForest

/-- A change of a forest, step by step, that may fail on the way. -/
abbrev Mutation := ExceptT Error (StateM Forest)

namespace Mutation

variable {α β : Type}

/-- Performs a mutation: its result or its error, and the forest that it leaves. -/
def perform (m : Mutation α) (f : Forest) : Except Error α × Forest := ExceptT.run m f

/-- Checks something, without a change to the forest. -/
def check (c : Forest → Except Error Unit) : Mutation Unit := ExceptT.mk fun f => (c f, f)

@[simp] theorem perform_pure (a : α) (f : Forest) :
    (pure a : Mutation α).perform f = (.ok a, f) := rfl

@[simp] theorem perform_throw (e : Error) (f : Forest) :
    (throw e : Mutation α).perform f = (.error e, f) := rfl

@[simp] theorem perform_check (c : Forest → Except Error Unit) (f : Forest) :
    (check c).perform f = (c f, f) := rfl

@[simp] theorem perform_modify (h : Forest → Forest) (f : Forest) :
    (modify h : Mutation Unit).perform f = (.ok (), h f) := rfl

/-- One mutation after the other: the second goes on from where the first has come to. -/
theorem perform_bind (m : Mutation α) (k : α → Mutation β) (f : Forest) :
    (m >>= k).perform f =
      match m.perform f with
      | (.ok a, g) => (k a).perform g
      | (.error e, g) => (.error e, g) := by
  rcases h : m.perform f with ⟨a | a, g⟩ <;>
    · show (match m.perform f with | (x, g) => ExceptT.bindCont k x g) = _
      rw [h]
      rfl

@[simp] theorem perform_get_bind (k : Forest → Mutation β) (f : Forest) :
    (get >>= k).perform f = (k f).perform f := rfl

/-- A check passes, or ends it all. -/
theorem perform_check_bind (c : Forest → Except Error Unit) (k : Unit → Mutation β)
    (f : Forest) :
    (check c >>= k).perform f =
      match c f with
      | .ok () => (k ()).perform f
      | .error e => (.error e, f) := by
  rw [perform_bind, perform_check]
  cases c f <;> rfl

/-- Two mutations succeed together just if the first does and the second does where the first has
left off. -/
theorem bind_eq_ok {m : Mutation α} {k : α → Mutation β} {f g : Forest} {b : β} :
    (m >>= k).perform f = (.ok b, g) ↔
      ∃ a f', m.perform f = (.ok a, f') ∧ (k a).perform f' = (.ok b, g) := by
  rw [perform_bind]
  rcases m.perform f with ⟨a | a, f'⟩ <;> simp [and_assoc]

/-- Working on the result neither fails nor changes anything. -/
theorem bind_pure_eq_ok {m : Mutation α} {h : α → β} {f g : Forest} {b : β} :
    (m >>= fun a => pure (h a)).perform f = (.ok b, g) ↔
      ∃ a, m.perform f = (.ok a, g) ∧ h a = b := by
  rw [perform_bind]
  rcases m.perform f with ⟨a | a, f'⟩ <;> simp [and_assoc, and_comm (a := h _ = b)]

/-- What comes after a check that passes starts from the same forest. -/
theorem check_bind_eq_ok {c : Forest → Except Error Unit} {k : Unit → Mutation β}
    {f g : Forest} {b : β} : (check c >>= k).perform f = (.ok b, g) ↔
      c f = .ok () ∧ (k ()).perform f = (.ok b, g) := by
  rw [perform_check_bind]
  cases c f <;> simp

end Mutation

end SyntaxForest
