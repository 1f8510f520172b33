import Mathlib.Data.Finmap

/-!
# Finite maps with a total

Additions to Mathlib's finite maps, for values that do not depend on the key: a map with its
values filtered and converted, a map laid over another one, and the sum of a weight over all
entries.
-/

namespace FiniteMap

open Finmap

universe u v w

/-- A finite map from `α` to `β`. -/
abbrev Map (α : Type u) (β : Type v) : Type max u v := Finmap fun _ : α => β

variable {α : Type u} {β : Type v} {γ : Type w}

namespace FiniteMapLemmas

theorem nodupKeys_filterMap (f : β → Option γ) {s : Multiset (Σ _ : α, β)} (h : s.NodupKeys) :
    (s.filterMap fun e => (f e.2).map fun c => (⟨e.1, c⟩ : Σ _ : α, γ)).NodupKeys := by
  induction s using Quotient.inductionOn with
  | h l =>
    have hl : l.Pairwise fun s s' => s.1 ≠ s'.1 := List.nodupKeys_iff_pairwise.mp h
    refine List.nodupKeys_iff_pairwise.mpr (List.pairwise_filterMap.mpr (hl.imp ?_))
    intro e e' hne x hx y hy
    obtain ⟨_, _, rfl⟩ := Option.map_eq_some_iff.mp hx
    obtain ⟨_, _, rfl⟩ := Option.map_eq_some_iff.mp hy
    exact hne

end FiniteMapLemmas

/-- The entries whose value `f` converts, with the converted value. -/
def filterMap (f : β → Option γ) (m : Map α β) : Map α γ :=
  ⟨m.entries.filterMap fun e => (f e.2).map fun c => ⟨e.1, c⟩,
    FiniteMapLemmas.nodupKeys_filterMap f m.nodupKeys⟩

def total {M : Type w} [AddCommMonoid M] (weight : β → M) (m : Map α β) : M :=
  (m.entries.map fun e => weight e.2).sum

variable [DecidableEq α]

@[simp] theorem lookup_filterMap (f : β → Option γ) (m : Map α β) (a : α) :
    (filterMap f m).lookup a = (m.lookup a).bind f := by
  refine Option.ext fun c => ?_
  rw [← Option.mem_def, mem_lookup_iff, Option.bind_eq_some_iff]
  constructor
  · intro h
    obtain ⟨⟨a', b⟩, hb, hc⟩ := (Multiset.mem_filterMap _ _).mp h
    obtain ⟨c', hc', heq⟩ := Option.map_eq_some_iff.mp hc
    cases heq
    exact ⟨b, Finmap.mem_lookup_iff.mpr hb, hc'⟩
  · rintro ⟨b, hb, hc⟩
    exact (Multiset.mem_filterMap _ _).mpr ⟨⟨a, b⟩, Finmap.mem_lookup_iff.mp hb, by rw [hc]; rfl⟩

/-- `upper` laid over `lower`: where `upper` has an entry, `f` of it decides
whether and with what value the key is present. -/
def overlay (f : γ → Option β) (upper : Map α γ) (lower : Map α β) : Map α β :=
  filterMap id ((filterMap (fun c => some (f c)) upper : Map α (Option β)) ∪
    filterMap (fun b => some (some b)) lower)

theorem lookup_overlay (f : γ → Option β) (upper : Map α γ) (lower : Map α β) (a : α) :
    (overlay f upper lower).lookup a = (upper.lookup a).elim (lower.lookup a) f := by
  rw [overlay, lookup_filterMap]
  cases hu : upper.lookup a with
  | some c =>
    rw [lookup_union_left, lookup_filterMap, hu]
    · rfl
    · rw [← lookup_isSome, lookup_filterMap, hu]
      rfl
  | none =>
    rw [lookup_union_right, lookup_filterMap]
    · cases lower.lookup a <;> rfl
    · rw [← lookup_eq_none, lookup_filterMap, hu]
      rfl

/-! ## Updates of a looked-up value -/

variable {m : Map α β} {a : α} {b : β}

theorem insert_erase_of_lookup (h : m.lookup a = some b) : (m.erase a).insert a b = m := by
  refine ext_lookup fun x => ?_
  by_cases hx : x = a
  · subst hx
    rw [lookup_insert, h]
  · rw [lookup_insert_of_ne _ hx, lookup_erase_ne hx]

theorem erase_of_lookup_none (h : m.lookup a = none) : m.erase a = m := by
  refine ext_lookup fun x => ?_
  by_cases hx : x = a
  · subst hx
    rw [lookup_erase, h]
  · rw [lookup_erase_ne hx]

theorem insert_erase (m : Map α β) (a : α) (b : β) : (m.erase a).insert a b = m.insert a b := by
  refine ext_lookup fun x => ?_
  by_cases hx : x = a
  · subst hx
    rw [lookup_insert, lookup_insert]
  · rw [lookup_insert_of_ne _ hx, lookup_insert_of_ne _ hx, lookup_erase_ne hx]

theorem insert_of_lookup (h : m.lookup a = some b) : m.insert a b = m := by
  rw [← insert_erase, insert_erase_of_lookup h]

/-! ## Totals -/

section Total

variable {M : Type w} [AddCommGroup M] (weight : β → M)

theorem total_insert_of_lookup_none (h : m.lookup a = none) :
    total weight (m.insert a b) = total weight m + weight b := by
  rw [total, entries_insert_of_notMem (Finmap.lookup_eq_none.mp h), Multiset.map_cons,
    Multiset.sum_cons, add_comm, total]

theorem total_erase (m : Map α β) (a : α) :
    total weight (m.erase a) = total weight m - (m.lookup a).elim 0 weight := by
  cases h : m.lookup a with
  | none =>
    rw [erase_of_lookup_none h]
    exact (sub_zero _).symm
  | some b =>
    have hins := total_insert_of_lookup_none weight (b := b) (lookup_erase a m)
    rw [insert_erase_of_lookup h] at hins
    rw [hins]
    exact (add_sub_cancel_right _ _).symm

/-- Inserting a value adds its weight, and takes away that of a value it
replaces. -/
theorem total_insert (m : Map α β) (a : α) (b : β) :
    total weight (m.insert a b) = total weight m - (m.lookup a).elim 0 weight + weight b := by
  rw [← insert_erase, total_insert_of_lookup_none weight (lookup_erase a m), total_erase]

end Total

end FiniteMap
