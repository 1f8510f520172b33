import Mathlib.Data.Finset.Max

/-!
# Worklists

A search of a graph takes a staged vertex, visits it and stages those of its successors that are
not visited. `Walk` is what holds between two visits, whatever vertex is taken. When nothing is
staged the visited vertices are those that can be reached.
-/

namespace Worklist

open Finset

variable {κ : Type} [DecidableEq κ] (next : κ → Finset κ)

/-- There is a path from one vertex to the other. -/
abbrev Reaches : κ → κ → Prop := Relation.ReflTransGen fun x y => y ∈ next x

/-- A search from `start`, at the moment when `staged` and `visited` are its sets. What
is reached from `done` was visited before it began. -/
structure Walk (start done staged visited : Finset κ) : Prop where
  disjoint : Disjoint staged visited
  done_subset : done ⊆ visited
  start_subset : start ⊆ staged ∪ visited
  covered : ∀ x ∈ visited, next x ⊆ staged ∪ visited
  reached : ∀ x ∈ staged ∪ visited, x ∈ done ∨ ∃ s ∈ start, Reaches next s x

variable {next} {start done staged visited vertices : Finset κ} {x y : κ}

theorem Walk.init (hdone : ∀ x ∈ done, next x ⊆ done) :
    Walk next start done (start \ done) done where
  disjoint := sdiff_disjoint
  done_subset := subset_rfl
  start_subset x hx := by
    by_cases h : x ∈ done <;> simp [h, hx]
  covered x hx := (hdone x hx).trans subset_union_right
  reached x hx := by
    rcases Finset.mem_union.mp hx with hx | hx
    · exact .inr ⟨x, (Finset.mem_sdiff.mp hx).1, .refl⟩
    · exact .inl hx

/-- A search that starts afresh. -/
theorem Walk.empty : Walk next start ∅ start ∅ := by
  have h : Walk next start ∅ (start \ ∅) ∅ := .init (by simp)
  rwa [sdiff_empty] at h

/-- The sets after the visit of a vertex. -/
theorem Walk.visit (h : Walk next start done staged visited) (hx : x ∈ staged) :
    Walk next start done (staged.erase x ∪ (next x \ insert x visited)) (insert x visited) := by
  have hgrow :
      staged ∪ visited ⊆ (staged.erase x ∪ (next x \ insert x visited)) ∪ insert x visited := by
    intro y hy
    by_cases hyx : y = x
    · simp [hyx]
    · rcases Finset.mem_union.mp hy with hy | hy
      · simp [hy, hyx]
      · simp [hy]
  refine ⟨?_, h.done_subset.trans (subset_insert _ _), h.start_subset.trans hgrow, ?_, ?_⟩
  · refine Finset.disjoint_union_left.mpr ⟨?_, sdiff_disjoint⟩
    refine Finset.disjoint_insert_right.mpr ⟨by simp, ?_⟩
    exact h.disjoint.mono_left (erase_subset _ _)
  · intro y hy z hz
    rcases Finset.mem_insert.mp hy with rfl | hy
    · by_cases hzv : z ∈ insert y visited
      · exact mem_union_right _ hzv
      · exact mem_union_left _ (mem_union_right _ (Finset.mem_sdiff.mpr ⟨hz, hzv⟩))
    · exact hgrow (h.covered y hy hz)
  · intro y hy
    have hold : ∀ y ∈ staged ∪ visited, y ∈ done ∨ ∃ s ∈ start, Reaches next s y := h.reached
    rcases Finset.mem_union.mp hy with hy | hy
    · rcases Finset.mem_union.mp hy with hy | hy
      · exact hold y (mem_union_left _ (mem_of_mem_erase hy))
      · -- a successor of the visited vertex, which was staged and not done
        rcases hold x (mem_union_left _ hx) with hdone | ⟨s, hs, hsx⟩
        · exact absurd (h.done_subset hdone) (Finset.disjoint_left.mp h.disjoint hx)
        · exact .inr ⟨s, hs, hsx.tail (Finset.mem_sdiff.mp hy).1⟩
    · rcases Finset.mem_insert.mp hy with rfl | hy
      · exact hold y (mem_union_left _ hx)
      · exact hold y (mem_union_right _ hy)

/-- A search that has nothing staged has visited what can be reached. -/
theorem Walk.mem_visited (h : Walk next start done ∅ visited) :
    x ∈ visited ↔ x ∈ done ∨ ∃ s ∈ start, Reaches next s x := by
  have hclosed : ∀ y ∈ visited, next y ⊆ visited := by simpa using h.covered
  constructor
  · intro hx
    exact h.reached x (by simpa using hx)
  · rintro (hx | ⟨s, hs, hsx⟩)
    · exact h.done_subset hx
    · induction hsx with
      | refl => simpa using h.start_subset hs
      | tail _ hstep ih => exact hclosed _ ih hstep

omit [DecidableEq κ] in
/-- A path stays in a set of vertices that no edge leaves. -/
theorem mem_of_reaches (hclosed : ∀ x ∈ vertices, next x ⊆ vertices) (hx : x ∈ vertices)
    (h : Reaches next x y) : y ∈ vertices := by
  induction h with
  | refl => exact hx
  | tail _ hstep ih => exact hclosed _ ih hstep

/-- The search stays in a set of vertices that no edge leaves. -/
theorem Walk.subset (h : Walk next start done staged visited)
    (hclosed : ∀ x ∈ vertices, next x ⊆ vertices)
    (hstart : start ⊆ vertices) (hdone : done ⊆ vertices) : staged ∪ visited ⊆ vertices := by
  intro x hx
  rcases h.reached x hx with hx | ⟨s, hs, hsx⟩
  · exact hdone hx
  · exact mem_of_reaches hclosed (hstart hs) hsx

/-- As long as something is staged, not every vertex has been visited. -/
theorem Walk.card_lt (h : Walk next start done staged visited) (hsub : staged ∪ visited ⊆ vertices)
    (hx : x ∈ staged) : visited.card < vertices.card := by
  refine card_lt_card ((ssubset_iff_of_subset (Finset.subset_union_right.trans hsub)).mpr ?_)
  exact ⟨x, hsub (mem_union_left _ hx), Finset.disjoint_left.mp h.disjoint hx⟩

section Traverse

variable {κ : Type} [LinearOrder κ] (next : κ → Finset κ)

/-- The search that takes the least staged vertex each time, for at most `fuel` visits. -/
def traverse : Nat → Finset κ → Finset κ → Finset κ
  | 0, _, visited => visited
  | fuel + 1, staged, visited =>
    if h : staged.Nonempty then
      let x := staged.min' h
      traverse fuel (staged.erase x ∪ (next x \ insert x visited)) (insert x visited)
    else visited

variable {next} {start done staged visited vertices : Finset κ} {x : κ}

/-- Fuel for the vertices that are not visited is enough. -/
theorem mem_traverse {fuel : Nat} (h : Walk next start done staged visited)
    (hclosed : ∀ x ∈ vertices, next x ⊆ vertices) (hstart : start ⊆ vertices)
    (hdone : done ⊆ vertices) (hfuel : vertices.card ≤ fuel + visited.card) :
    x ∈ traverse next fuel staged visited ↔ x ∈ done ∨ ∃ s ∈ start, Reaches next s x := by
  induction fuel generalizing staged visited with
  | zero =>
    have hstaged : staged = ∅ := by
      rw [eq_empty_iff_forall_notMem]
      intro y hy
      exact absurd (h.card_lt (h.subset hclosed hstart hdone) hy) (by omega)
    rw [hstaged] at h
    exact h.mem_visited
  | succ fuel ih =>
    unfold traverse
    split
    · rename_i hne
      have hmem := staged.min'_mem hne
      refine ih (h.visit hmem) ?_
      rw [card_insert_of_notMem (Finset.disjoint_left.mp h.disjoint hmem)]
      omega
    · rename_i hne
      rw [not_nonempty_iff_eq_empty] at hne
      rw [hne] at h
      exact h.mem_visited

end Traverse

end Worklist
