import Bitcoboost.Lib.FiniteMap

/-!
# Journals of a finite map

A journal is a list of changes to a finite map, each with the value that is added or removed.
What a key has after a journal depends on the journal alone if the journal has the key, so a
journal also repairs a map in which only some of the changes were made.
-/

namespace Journal

open FiniteMap List Finmap

universe u v

variable {κ : Type u} {α : Type v}

inductive Change (κ : Type u) (α : Type v) where
  | add (key : κ) (value : α)
  | remove (key : κ) (value : α)

namespace Change

def key : Change κ α → κ
  | add k _ => k
  | remove k _ => k

variable [DecidableEq κ] (change : Change κ α) (m : Map κ α)

def apply : Change κ α → Map κ α → Map κ α
  | add k v, m => m.insert k v
  | remove k _, m => m.erase k

def revert : Change κ α → Map κ α → Map κ α
  | add k _, m => m.erase k
  | remove k v, m => m.insert k v

def inverse : Change κ α → Change κ α
  | add k v => remove k v
  | remove k v => add k v

omit [DecidableEq κ] in
theorem key_inverse : change.inverse.key = change.key := by
  cases change <;> rfl

theorem revert_eq : change.revert m = change.inverse.apply m := by
  cases change <;> rfl

/-- The key of an addition is not there. -/
def IsNew : Change κ α → Map κ α → Prop
  | add k _, m => m.lookup k = none
  | remove _ _, _ => True

instance : ∀ (change : Change κ α) (m : Map κ α), Decidable (change.IsNew m)
  | add k _, m => inferInstanceAs (Decidable (m.lookup k = none))
  | remove _ _, _ => .isTrue trivial

/-- A key that is added is not there, and one that is removed has the value. -/
def Fits : Change κ α → Map κ α → Prop
  | add k _, m => m.lookup k = none
  | remove k v, m => m.lookup k = some v

theorem lookup_apply_of_ne {k : κ} (hk : k ≠ change.key) :
    (change.apply m).lookup k = m.lookup k := by
  cases change with
  | add => exact lookup_insert_of_ne _ hk
  | remove => exact lookup_erase_ne hk

theorem lookup_revert_of_ne {k : κ} (hk : k ≠ change.key) :
    (change.revert m).lookup k = m.lookup k := by
  rw [revert_eq]
  exact change.inverse.lookup_apply_of_ne m (by rwa [key_inverse])

theorem revert_apply {change : Change κ α} {m : Map κ α} (h : change.Fits m) :
    change.revert (change.apply m) = m := by
  refine ext_lookup fun k => ?_
  by_cases hk : k = change.key
  · subst hk
    cases change with
    | add => exact (lookup_erase _ _).trans h.symm
    | remove => exact (lookup_insert _).trans h.symm
  · exact (change.lookup_revert_of_ne _ hk).trans (change.lookup_apply_of_ne m hk)

/-- What a change leaves at its key does not depend on what was there. -/
theorem lookup_apply_key (m m' : Map κ α) :
    (change.apply m).lookup change.key = (change.apply m').lookup change.key := by
  cases change with
  | add => rw [apply, apply, key, lookup_insert, lookup_insert]
  | remove => rw [apply, apply, key, lookup_erase, lookup_erase]

end Change

variable [DecidableEq κ]

def applyAll (journal : List (Change κ α)) (m : Map κ α) : Map κ α :=
  journal.foldl (fun m change => change.apply m) m

/-- The changes reverted, the last one first. -/
def revertAll (journal : List (Change κ α)) (m : Map κ α) : Map κ α := journal.foldr Change.revert m

def Fits : List (Change κ α) → Map κ α → Prop
  | [], _ => True
  | change :: journal, m => change.Fits m ∧ Fits journal (change.apply m)

variable {journal journal' : List (Change κ α)} {m m' : Map κ α} {k : κ}

theorem applyAll_append (journal journal' : List (Change κ α)) (m : Map κ α) :
    applyAll (journal ++ journal') m = applyAll journal' (applyAll journal m) := foldl_append

/-- The inverse changes, the last one first. -/
def inverses (journal : List (Change κ α)) : List (Change κ α) :=
  (journal.map Change.inverse).reverse

omit [DecidableEq κ] in
theorem mem_keys_inverses : k ∈ (inverses journal).map Change.key ↔ k ∈ journal.map Change.key := by
  simp [inverses, Change.key_inverse]

theorem revertAll_eq (journal : List (Change κ α)) (m : Map κ α) :
    revertAll journal m = applyAll (inverses journal) m := by
  rw [revertAll, applyAll, inverses, foldl_reverse, foldr_map]
  exact congrArg (List.foldr · m journal) (funext fun change => funext (change.revert_eq ·))

theorem revertAll_append (journal journal' : List (Change κ α)) (m : Map κ α) :
    revertAll (journal ++ journal') m = revertAll journal (revertAll journal' m) := foldr_append

theorem fits_append : Fits (journal ++ journal') m ↔ Fits journal m ∧
    Fits journal' (applyAll journal m) := by
  induction journal generalizing m with
  | nil => exact ⟨fun h => ⟨trivial, h⟩, And.right⟩
  | cons change journal ih => exact (and_congr_right fun _ => ih).trans and_assoc.symm

theorem revertAll_applyAll (h : Fits journal m) : revertAll journal (applyAll journal m) = m := by
  induction journal generalizing m with
  | nil => rfl
  | cons change journal ih =>
    obtain ⟨hfits, h⟩ := h
    calc change.revert (revertAll journal (applyAll journal (change.apply m)))
        = change.revert (change.apply m) := by rw [ih h]
      _ = m := Change.revert_apply hfits

/-- Every key that is added is not there. -/
def NoOverwrite : List (Change κ α) → Map κ α → Prop
  | [], _ => True
  | change :: journal, m => change.IsNew m ∧ NoOverwrite journal (change.apply m)

instance decidableNoOverwrite :
    ∀ (journal : List (Change κ α)) (m : Map κ α), Decidable (NoOverwrite journal m)
  | [], _ => .isTrue trivial
  | change :: journal, m =>
    have := decidableNoOverwrite journal (change.apply m)
    inferInstanceAs (Decidable (change.IsNew m ∧ NoOverwrite journal (change.apply m)))

theorem noOverwrite_append :
    NoOverwrite (journal ++ journal') m ↔ NoOverwrite journal m ∧
    NoOverwrite journal' (applyAll journal m) := by
  induction journal generalizing m with
  | nil => exact ⟨fun h => ⟨trivial, h⟩, And.right⟩
  | cons change journal ih => exact (and_congr_right fun _ => ih).trans and_assoc.symm

/-! ## Journals that only add, or only remove -/

def adds (entries : List (κ × α)) : List (Change κ α) := entries.map fun e => .add e.1 e.2

def removes (entries : List (κ × α)) : List (Change κ α) := entries.map fun e => .remove e.1 e.2

variable {entries : List (κ × α)}

theorem lookup_applyAll_adds {v : α} (h : Fits (adds entries) m) (hk : m.lookup k = some v) :
    k ∉ entries.map Prod.fst ∧ (applyAll (adds entries) m).lookup k = some v := by
  induction entries generalizing m with
  | nil => exact ⟨not_mem_nil, hk⟩
  | cons e entries ih =>
    obtain ⟨hnone, h⟩ := h
    have hne : k ≠ e.1 := by
      rintro rfl
      cases hnone.symm.trans hk
    obtain ⟨hnotin, hlookup⟩ := ih h ((lookup_insert_of_ne _ hne).trans hk)
    exact ⟨fun hmem => (List.mem_cons.mp hmem).elim hne hnotin, hlookup⟩

/-- What is added is there afterwards, and no key is added twice. -/
theorem fits_adds (h : Fits (adds entries) m) :
    (entries.map Prod.fst).Nodup ∧ ∀ e ∈ entries,
    (applyAll (adds entries) m).lookup e.1 = some e.2 := by
  induction entries generalizing m with
  | nil => exact ⟨nodup_nil, fun _ hmem => (by cases hmem)⟩
  | cons e entries ih =>
    obtain ⟨_, h⟩ := h
    obtain ⟨hnotin, hlookup⟩ := lookup_applyAll_adds h (lookup_insert _)
    obtain ⟨hnodup, hall⟩ := ih h
    exact ⟨List.nodup_cons.mpr ⟨hnotin, hnodup⟩, List.forall_mem_cons.mpr ⟨hlookup, hall⟩⟩

theorem lookup_applyAll_removes (h : Fits (removes entries) m) (hk : m.lookup k = none) :
    k ∉ entries.map Prod.fst ∧ (applyAll (removes entries) m).lookup k = none := by
  induction entries generalizing m with
  | nil => exact ⟨not_mem_nil, hk⟩
  | cons e entries ih =>
    obtain ⟨hsome, h⟩ := h
    have hne : k ≠ e.1 := by
      rintro rfl
      cases hk.symm.trans hsome
    obtain ⟨hnotin, hlookup⟩ := ih h ((lookup_erase_ne hne).trans hk)
    exact ⟨fun hmem => (List.mem_cons.mp hmem).elim hne hnotin, hlookup⟩

/-- What is removed is gone afterwards, and no key is removed twice. -/
theorem fits_removes (h : Fits (removes entries) m) :
    (entries.map Prod.fst).Nodup ∧ ∀ e ∈ entries,
    (applyAll (removes entries) m).lookup e.1 = none := by
  induction entries generalizing m with
  | nil => exact ⟨nodup_nil, fun _ hmem => (by cases hmem)⟩
  | cons e entries ih =>
    obtain ⟨_, h⟩ := h
    obtain ⟨hnotin, hlookup⟩ := lookup_applyAll_removes h (lookup_erase _ _)
    obtain ⟨hnodup, hall⟩ := ih h
    exact ⟨List.nodup_cons.mpr ⟨hnotin, hnodup⟩, List.forall_mem_cons.mpr ⟨hlookup, hall⟩⟩

/-- Additions are reverted in any order. -/
theorem revertAll_adds_cons (e : κ × α) (entries : List (κ × α)) (m : Map κ α) :
    revertAll (adds (e :: entries)) m = revertAll (adds entries) (m.erase e.1) := by
  induction entries with
  | nil => rfl
  | cons e' entries ih =>
    calc revertAll (adds (e :: e' :: entries)) m
        = ((revertAll (adds entries) m).erase e'.1).erase e.1 := rfl
      _ = (revertAll (adds (e :: entries)) m).erase e'.1 := erase_erase
      _ = (revertAll (adds entries) (m.erase e.1)).erase e'.1 := by rw [ih]

/-! ## The last writer -/

theorem lookup_applyAll_of_not_mem (hk : k ∉ journal.map Change.key) :
    (applyAll journal m).lookup k = m.lookup k := by
  induction journal generalizing m with
  | nil => rfl
  | cons change journal ih =>
    obtain ⟨hne, hk⟩ := not_or.mp (mt List.mem_cons.mpr hk)
    exact (ih hk).trans (change.lookup_apply_of_ne m hne)

/-- A value that is there and was not before was added. -/
theorem add_mem_of_lookup {v : α} (hm : m.lookup k ≠ some v)
    (h : (applyAll journal m).lookup k = some v) : .add k v ∈ journal := by
  induction journal generalizing m with
  | nil => exact absurd h hm
  | cons change journal ih =>
    by_cases hchange : (change.apply m).lookup k = some v
    · by_cases hk : k = change.key
      · subst hk
        cases change with
        | add =>
          cases (lookup_insert _).symm.trans hchange
          exact mem_cons_self
        | remove => cases (lookup_erase _ _).symm.trans hchange
      · exact absurd ((change.lookup_apply_of_ne m hk).symm.trans hchange) hm
    · exact mem_cons_of_mem _ (ih hchange h)

theorem lookup_applyAll_congr (h : k ∈ journal.map Change.key ∨ m.lookup k = m'.lookup k) :
    (applyAll journal m).lookup k = (applyAll journal m').lookup k := by
  induction journal generalizing m m' with
  | nil => exact h.resolve_left not_mem_nil
  | cons change journal ih =>
    have hstep : k ∈ journal.map Change.key ∨
        (change.apply m).lookup k = (change.apply m').lookup k := by
      by_cases hk : k = change.key
      · subst hk
        exact .inr (change.lookup_apply_key m m')
      · rw [change.lookup_apply_of_ne m hk, change.lookup_apply_of_ne m' hk]
        exact h.imp_left fun hmem => (List.mem_cons.mp hmem).resolve_left hk
    exact ih hstep

/-- Two journals lead from one map to two others. A map that has for each key what one of
the two has is led to the second one by reverting the first journal and applying the second. -/
theorem applyAll_revertAll_of_mixture {base mixed : Map κ α} (h : Fits journal base)
    (hmixed : ∀ k, mixed.lookup k = (applyAll journal base).lookup k ∨
      mixed.lookup k = (applyAll journal' base).lookup k) :
    applyAll journal' (revertAll journal mixed) = applyAll journal' base := by
  refine ext_lookup fun k => ?_
  by_cases hk' : k ∈ journal'.map Change.key
  · exact lookup_applyAll_congr (.inl hk')
  · rw [lookup_applyAll_of_not_mem hk', lookup_applyAll_of_not_mem hk']
    by_cases hk : k ∈ journal.map Change.key
    · have hsame : (revertAll journal mixed).lookup k =
          (revertAll journal (applyAll journal base)).lookup k := by
        rw [revertAll_eq, revertAll_eq]
        exact lookup_applyAll_congr (.inl (mem_keys_inverses.mpr hk))
      rw [hsame, revertAll_applyAll h]
    · rw [revertAll_eq, lookup_applyAll_of_not_mem (mt mem_keys_inverses.mp hk)]
      rcases hmixed k with hold | hnew
      · rw [hold, lookup_applyAll_of_not_mem hk]
      · rw [hnew, lookup_applyAll_of_not_mem hk']

end Journal
