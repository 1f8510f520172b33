import Mathlib.Logic.Relation

/-!
# A new source in a graph

A vertex that no edge leads to is added to a graph, with edges of its own. Paths from
other vertices stay as they were, and a path from the new one goes through one of its
successors.
-/

namespace NewSource

open Relation

variable {α : Type} {r r' : α → α → Prop} {n x y : α}

/-- `r'` has the edges of `r`, none of which leads to `n`, and edges from `n`. -/
structure Extends (r r' : α → α → Prop) (n : α) : Prop where
  old : ∀ {x y}, r x y → r' x y
  new : ∀ {x y}, r' x y → x ≠ n → r x y
  source : ∀ x, ¬r x n

theorem Extends.ne_of_reaches (h : Extends r r' n) (hx : x ≠ n)
    (hxy : ReflTransGen r x y) : y ≠ n := by
  cases hxy with
  | refl => exact hx
  | tail _ hstep =>
    rintro rfl
    exact h.source _ hstep

theorem Extends.reaches_of_ne (h : Extends r r' n) (hx : x ≠ n) :
    ReflTransGen r' x y ↔ ReflTransGen r x y := by
  constructor
  · intro hxy
    induction hxy with
    | refl => exact .refl
    | tail _ hstep ih => exact ih.tail (h.new hstep (h.ne_of_reaches hx ih))
  · intro hxy
    exact ReflTransGen.mono (fun x y => @h.old x y) _ _ hxy

theorem Extends.reaches_source (h : Extends r r' n) :
    ReflTransGen r' n y ↔ y = n ∨ ∃ p, r' n p ∧ p ≠ n ∧ ReflTransGen r p y := by
  constructor
  · intro hny
    induction hny with
    | refl => exact .inl rfl
    | @tail y z _ hstep ih =>
      rcases ih with rfl | ⟨p, hp, hpn, hpy⟩
      · by_cases hz : z = y
        · exact .inl hz
        · exact .inr ⟨z, hstep, hz, .refl⟩
      · exact .inr ⟨p, hp, hpn, hpy.tail (h.new hstep (h.ne_of_reaches hpn hpy))⟩
  · rintro (rfl | ⟨p, hp, hpn, hpy⟩)
    · exact .refl
    · exact .head hp ((h.reaches_of_ne hpn).mpr hpy)

end NewSource
