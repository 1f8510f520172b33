import Mathlib.Logic.Basic

/-!
# Codecs

A reader takes a value off the front of a text. It is a codec with a writer if it reads exactly
what the writer writes for the values in a set: what it accepts has only one form, and what is
written is read back.
-/

/-- `read` accepts the texts that start with what `write` writes for a value in `P`. -/
def Codec {α β : Type} (P : α → Prop) (write : α → List β)
    (read : List β → Option (α × List β)) : Prop :=
  ∀ s a rest, read s = some (a, rest) ↔ P a ∧ s = write a ++ rest

namespace Codec

open Option

variable {α β γ : Type} {P : α → Prop} {write : α → List β} {read : List β → Option (α × List β)}

theorem read_write (h : Codec P write read) {a : α} (ha : P a) (rest : List β) :
    read (write a ++ rest) = some (a, rest) :=
  (h _ _ _).mpr ⟨ha, rfl⟩

theorem bind_some (h : Codec P write read) {s : List β} {f : α × List β → Option γ} {r : γ} :
    (read s >>= f) = some r ↔ ∃ a rest, P a ∧ s = write a ++ rest ∧ f (a, rest) = some r := by
  rw [bind_eq_bind, bind_eq_some_iff]
  constructor
  · rintro ⟨⟨a, rest⟩, hread, hf⟩
    obtain ⟨ha, hs⟩ := (h s a rest).mp hread
    exact ⟨a, rest, ha, hs, hf⟩
  · rintro ⟨a, rest, ha, hs, hf⟩
    exact ⟨(a, rest), (h s a rest).mpr ⟨ha, hs⟩, hf⟩

/-- A reader whose values stand for others. -/
theorem map (h : Codec P write read) {Q : γ → Prop} {f : α → γ} {g : γ → α}
    (hf : ∀ a, P a → Q (f a) ∧ g (f a) = a) (hg : ∀ c, Q c → P (g c) ∧ f (g c) = c) :
    Codec Q (fun c => write (g c)) fun s => (read s).map fun (a, rest) => (f a, rest) := by
  intro s c rest
  rw [map_eq_some_iff]
  constructor
  · rintro ⟨⟨a, rest'⟩, hread, heq⟩
    cases heq
    obtain ⟨ha, hs⟩ := (h s a rest).mp hread
    refine ⟨(hf a ha).1, ?_⟩
    dsimp only
    rw [(hf a ha).2]
    exact hs
  · rintro ⟨hc, hs⟩
    refine ⟨(g c, rest), (h s (g c) rest).mpr ⟨(hg c hc).1, hs⟩, ?_⟩
    dsimp only
    rw [(hg c hc).2]

end Codec
