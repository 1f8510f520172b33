import Bitcoboost.Lib.ExceptBind

/-!
# Computations that fail less

`Implied x y`: where `x` succeeds, `y` succeeds with the same value. The constructs of a program
are monotone in this preorder, which compares two runs of one program of which the second makes
fewer checks.
-/

/-- `y` succeeds with what `x` succeeds with. -/
def Implied {ε α : Type} (x y : Except ε α) : Prop := ∀ ⦃a⦄, x = .ok a → y = .ok a

namespace Implied

variable {ε α β : Type} {x y : Except ε α}

theorem refl (x : Except ε α) : Implied x x := fun _ h => h

theorem error (e : ε) (y : Except ε α) : Implied (.error e) y := fun _ h => (by cases h)

/-- A sequence is monotone in both parts. -/
theorem bind {f g : α → Except ε β} (h : Implied x y) (hfg : ∀ a, Implied (f a) (g a)) :
    Implied (x >>= f) (y >>= g) := by
  intro b hb
  obtain ⟨a, ha, hb⟩ := ExceptBind.bind_ok.mp hb
  exact ExceptBind.bind_ok.mpr ⟨a, h ha, hfg a hb⟩

theorem bind_left {f : α → Except ε β} (h : Implied x y) : Implied (x >>= f) (y >>= f) :=
  h.bind fun _ => refl _

/-- A check that fails in fewer cases. -/
theorem ite_error {c d : Prop} [Decidable c] [Decidable d] {e e' : ε} (hcd : d → c)
    (h : Implied x y) : Implied (if c then .error e else x) (if d then .error e' else y) := by
  by_cases hc : c
  · rw [if_pos hc]
    exact error e _
  · rw [if_neg hc, if_neg fun hd => hc (hcd hd)]
    exact h

/-- A choice that both make alike. -/
theorem ite_same {c : Prop} [Decidable c] {x' y' : Except ε α} (h : Implied x y)
    (h' : Implied x' y') : Implied (if c then x else x') (if c then y else y') := by
  by_cases hc : c
  · rw [if_pos hc, if_pos hc]
    exact h
  · rw [if_neg hc, if_neg hc]
    exact h'

end Implied
