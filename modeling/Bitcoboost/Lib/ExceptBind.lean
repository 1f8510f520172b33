import Mathlib.Logic.Basic

/-!
# Computations that can fail

What is needed to take a `do` block in `Except` apart: a sequence succeeds exactly if its parts
do, one after the other.
-/

namespace ExceptBind

open List

variable {ε ε' α β : Type} {x : Except ε α} {a : α}

@[simp] theorem ok_bind (a : α) (f : α → Except ε β) : ((.ok a : Except ε α) >>= f) = f a := rfl

theorem bind_ok {f : α → Except ε β} {b : β} :
    (x >>= f) = .ok b ↔ ∃ a, x = .ok a ∧ f a = .ok b := by
  cases x with
  | error e => exact ⟨fun h => (by cases h), fun ⟨_, h, _⟩ => (by cases h)⟩
  | ok a =>
    refine ⟨fun h => ⟨a, rfl, h⟩, ?_⟩
    rintro ⟨_, ⟨⟩, h⟩
    exact h

theorem mapError_ok {f : ε → ε'} : x.mapError f = .ok a ↔ x = .ok a := by
  cases x with
  | error e => exact ⟨fun h => (by cases h), fun h => (by cases h)⟩
  | ok a' => exact ⟨fun h => congrArg _ (Except.ok.inj h), fun h => congrArg _ (Except.ok.inj h)⟩

theorem toOption_eq_some : x.toOption = some a ↔ x = .ok a := by
  cases x with
  | error e => exact ⟨fun h => (by cases h), fun h => (by cases h)⟩
  | ok a' => exact ⟨fun h => congrArg _ (Option.some.inj h), fun h => congrArg _ (Except.ok.inj h)⟩

/-- What succeeds after a check has passed it. -/
theorem ite_error_ok {c : Prop} [Decidable c] {e : ε} :
    (if c then .error e else x) = .ok a ↔ ¬ c ∧ x = .ok a := by
  by_cases hc : c
  · simp [hc]
  · simp [hc]

/-- A sequence all of whose steps succeed, in any monad. -/
theorem mapM_pure {m : Type → Type} [Monad m] [LawfulMonad m] {l : List α} {f : α → m β} {g : α → β}
    (h : ∀ a ∈ l, f a = pure (g a)) : l.mapM f = pure (l.map g) := by
  induction l with
  | nil => rfl
  | cons a l ih =>
    rw [mapM_cons, h a mem_cons_self, ih fun b hb => h b (mem_cons_of_mem a hb),
      pure_bind, pure_bind]
    rfl

end ExceptBind
