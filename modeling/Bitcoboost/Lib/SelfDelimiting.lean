import Mathlib.Logic.Basic

/-!
# Self-delimiting codes

A code is self-delimiting on a set of values if a text that starts with the code of one of them
determines the value and what follows its code. Codes of one length are, and records and
sequences of self-delimiting codes are again.
-/

/-- A text that starts with a code of a value in `P` has one reading. -/
def SelfDelimiting {α β : Type} (P : α → Prop) (f : α → List β) : Prop :=
  ∀ ⦃a⦄, P a → ∀ ⦃b⦄, P b → ∀ ⦃x y⦄, f a ++ x = f b ++ y → a = b ∧ x = y

namespace SelfDelimiting

open List

variable {α β : Type} {P : α → Prop} {f : α → List β}

theorem of_length {n : Nat} (hlen : ∀ a, P a → (f a).length = n)
    (hinj : ∀ ⦃a⦄, P a → ∀ ⦃b⦄, P b → f a = f b → a = b) : SelfDelimiting P f := by
  intro a ha b hb x y h
  obtain ⟨hcode, hrest⟩ := append_inj h ((hlen a ha).trans (hlen b hb).symm)
  exact ⟨hinj ha hb hcode, hrest⟩

theorem of_read {read : List β → Option (α × List β)}
    (h : ∀ a, P a → ∀ x, read (f a ++ x) = some (a, x)) : SelfDelimiting P f := by
  intro a ha b hb x y heq
  have hread := (h a ha x).symm.trans ((congrArg read heq).trans (h b hb y))
  cases hread
  exact ⟨rfl, rfl⟩

theorem injective (h : SelfDelimiting P f) ⦃a :
    α⦄ (ha : P a) ⦃b : α⦄ (hb : P b) (heq : f a = f b) : a = b :=
  (h ha hb (congrArg (· ++ []) heq)).1

theorem flatMap (h : SelfDelimiting P f) {l l' : List α} (hl : ∀ a ∈ l, P a) (hl' : ∀ a ∈ l', P a)
    (hlen : l.length = l'.length) {x y : List β} (heq : l.flatMap f ++ x = l'.flatMap f ++ y) :
    l = l' ∧ x = y := by
  induction l generalizing l' with
  | nil =>
    obtain rfl := eq_nil_of_length_eq_zero hlen.symm
    exact ⟨rfl, heq⟩
  | cons a l ih =>
    cases l' with
    | nil => cases hlen
    | cons b l' =>
      rw [flatMap_cons, flatMap_cons, append_assoc, append_assoc] at heq
      obtain ⟨rfl, hrest⟩ := h (hl a mem_cons_self) (hl' b mem_cons_self) heq
      obtain ⟨rfl, hxy⟩ := ih (fun c hc => hl c (mem_cons_of_mem a hc))
        (fun c hc => hl' c (mem_cons_of_mem a hc)) (Nat.succ.inj hlen) hrest
      exact ⟨rfl, hxy⟩

/-- Sequences of any length, if no code is empty and nothing follows. -/
theorem flatMap_injective (h : SelfDelimiting P f) (hne : ∀ a, P a → f a ≠ []) {l l' : List α}
    (hl : ∀ a ∈ l, P a) (hl' : ∀ a ∈ l', P a) (heq : l.flatMap f = l'.flatMap f) : l = l' := by
  induction l generalizing l' with
  | nil =>
    cases l' with
    | nil => rfl
    | cons b l' =>
      exact absurd (List.append_eq_nil_iff.mp heq.symm).1 (hne b (hl' b mem_cons_self))
  | cons a l ih =>
    cases l' with
    | nil =>
      rw [flatMap_cons] at heq
      exact absurd (List.append_eq_nil_iff.mp heq).1 (hne a (hl a mem_cons_self))
    | cons b l' =>
      obtain ⟨rfl, hrest⟩ := h (hl a mem_cons_self) (hl' b mem_cons_self) heq
      rw [ih (fun c hc => hl c (mem_cons_of_mem a hc)) (fun c hc =>
        hl' c (mem_cons_of_mem a hc)) hrest]

end SelfDelimiting
