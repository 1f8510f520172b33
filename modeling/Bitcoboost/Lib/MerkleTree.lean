import Mathlib.Data.List.Basic
import Mathlib.Logic.Function.Iterate

/-!
# Merkle trees that pair an odd last node with itself

A level of the tree joins neighbours, and a last node without one is joined with itself. So a
list that ends with a copy of its last nodes has the root of the list without it. Two lists with
one root are the same list if the trees have the same height and no level joins two equal
neighbours, or else two different pairs are joined into equal nodes.
-/

namespace MerkleTree

open List Function

variable {α : Type} (node : α → α → α)

/-- The pairs that are joined to make the next level. -/
def pairs : List α → List (α × α)
  | [] => []
  | [a] => [(a, a)]
  | a :: b :: l => (a, b) :: pairs l

/-- The next level of the tree. -/
def level (l : List α) : List α := (pairs l).map fun p => node p.1 p.2

/-- `Root node d l r`: the tree over the list `l` has height `d` and the root `r`. -/
inductive Root : Nat → List α → α → Prop
  | leaf (r : α) : Root 0 [r] r
  | step {d : Nat} {l : List α} {r : α} : 1 < l.length → Root d (level node l) r → Root (d + 1) l r

/-- The nodes `a` and `b` are joined somewhere in the tree over a list. -/
inductive Joined : List α → α → α → Prop
  | here {l : List α} {a b : α} : 1 < l.length → (a, b) ∈ pairs l → Joined l a b
  | above {l : List α} {a b : α} : 1 < l.length → Joined (level node l) a b → Joined l a b

/-- Two equal neighbours are joined. -/
def Twins : List α → Prop
  | a :: b :: l => a = b ∨ Twins l
  | _ => False

/-- No level of the tree over a list joins two equal neighbours. -/
inductive NoTwins : List α → Prop
  | leaf (r : α) : NoTwins [r]
  | step {l : List α} : 1 < l.length → ¬ Twins l → NoTwins (level node l) → NoTwins l

/-- The trees over two lists join two different pairs into equal nodes. -/
def Collide (l l' : List α) : Prop :=
  ∃ a b a' b', Joined node l a b ∧ Joined node l' a' b' ∧ (a, b) ≠ (a', b') ∧ node a b = node a' b'

variable {node} {l l' : List α} {d e d' : Nat} {r : α}

theorem Collide.above (hl : 1 < l.length) (hl' : 1 < l'.length)
    (h : Collide node (level node l) (level node l')) : Collide node l l' := by
  obtain ⟨a, b, a', b', hab, hab', hne, heq⟩ := h
  exact ⟨a, b, a', b', .above hl hab, .above hl' hab', hne, heq⟩

/-! ## One level -/

theorem pairs_eq_or_collide (hl : 1 < l.length) (hl' : 1 < l'.length)
    (h : level node l = level node l') : pairs l = pairs l' ∨ Collide node l l' := by
  have hlen : (pairs l).length = (pairs l').length := by
    have := congrArg List.length h
    rwa [level, level, length_map, length_map] at this
  by_cases heq : pairs l = pairs l'
  · exact .inl heq
  · right
    have hex : ∃ i : Nat, (pairs l)[i]? ≠ (pairs l')[i]? := by
      by_contra hall
      exact heq (ext_getElem? fun i => not_not.mp fun hi => hall ⟨i, hi⟩)
    obtain ⟨i, hi⟩ := hex
    have hlt : i < (pairs l).length := by
      by_contra hge
      rw [List.getElem?_eq_none (Nat.not_lt.mp hge),
        List.getElem?_eq_none (hlen ▸ Nat.not_lt.mp hge)] at hi
      exact hi rfl
    rw [List.getElem?_eq_getElem hlt, List.getElem?_eq_getElem (hlen ▸ hlt)] at hi
    have hnode := congrArg (·[i]?) h
    simp only [level, List.getElem?_map, List.getElem?_eq_getElem hlt,
      List.getElem?_eq_getElem (hlen ▸ hlt), Option.map_some, Option.some.injEq] at hnode
    exact ⟨_, _, _, _, .here hl (getElem_mem hlt), .here hl' (getElem_mem (hlen ▸ hlt)),
      fun hpair => hi (congrArg some hpair), hnode⟩

theorem pairs_eq_nil : pairs l = [] ↔ l = [] := by
  cases l with
  | nil => exact ⟨fun _ => rfl, fun _ => rfl⟩
  | cons a l =>
    cases l with
    | nil => exact ⟨fun h => (by cases h), fun h => (by cases h)⟩
    | cons b l => exact ⟨fun h => (by cases h), fun h => (by cases h)⟩

/-- Pairs tell the list if none is of two equal neighbours. -/
theorem pairs_injective : ∀ l l' : List α, ¬ Twins l → ¬ Twins l' → pairs l = pairs l' → l = l'
  | [], l', _, _, heq => (pairs_eq_nil.mp heq.symm).symm
  | a :: l, [], _, _, heq => pairs_eq_nil.mp heq
  | [a], [a'], _, _, heq => by
    cases heq
    rfl
  | [a], a' :: b' :: l', _, h', heq => by
    cases (List.cons.inj heq).1
    exact absurd (.inl rfl) h'
  | a :: b :: l, [a'], h, _, heq => by
    cases (List.cons.inj heq).1
    exact absurd (.inl rfl) h
  | a :: b :: l, a' :: b' :: l', h, h', heq => by
    obtain ⟨hpair, htail⟩ := List.cons.inj heq
    cases hpair
    rw [pairs_injective l l' (fun ht => h (.inr ht)) (fun ht => h' (.inr ht)) htail]

theorem pairs_injective_of_length :
    ∀ l l' : List α, l.length = l'.length → pairs l = pairs l' → l = l'
  | [], l', _, heq => (pairs_eq_nil.mp heq.symm).symm
  | a :: l, [], _, heq => pairs_eq_nil.mp heq
  | [a], [a'], _, heq => by
    cases heq
    rfl
  | [a], a' :: b' :: l', hlen, _ => by cases hlen
  | a :: b :: l, [a'], hlen, _ => by cases hlen
  | a :: b :: l, a' :: b' :: l', hlen, heq => by
    obtain ⟨hpair, htail⟩ := List.cons.inj heq
    cases hpair
    rw [pairs_injective_of_length l l' (Nat.succ.inj (Nat.succ.inj hlen)) htail]

theorem length_pairs : ∀ l : List α, (pairs l).length = (l.length + 1) / 2
  | [] => by simp [pairs]
  | [_] => by simp [pairs]
  | _ :: _ :: l => by
    rw [pairs, length_cons, length_pairs l, length_cons, length_cons]
    omega

theorem length_level : (level node l).length = (l.length + 1) / 2 := by
  rw [level, length_map, length_pairs]

theorem exists_cons_cons (h : 1 < l.length) : ∃ a b t, l = a :: b :: t := by
  cases l with
  | nil => exact absurd h (Nat.not_lt_zero 1)
  | cons a l =>
    cases l with
    | nil => exact absurd h (Nat.lt_irrefl 1)
    | cons b t => exact ⟨a, b, t, rfl⟩

/-! ## Trees of one height -/

/-- Trees of one height without twins: the root tells the list, or there is a collision. -/
theorem Root.eq_or_collide (h : Root node d l r) (h' : Root node d l' r) (hl : NoTwins node l)
    (hl' : NoTwins node l') : l = l' ∨ Collide node l l' := by
  induction h generalizing l' with
  | leaf r =>
    cases h'
    exact .inl rfl
  | step hlen _ ih =>
    cases h' with
    | step hlen' h' =>
      cases hl with
      | leaf => cases Nat.lt_irrefl 1 hlen
      | step _ htwins hl =>
        cases hl' with
        | leaf => cases Nat.lt_irrefl 1 hlen'
        | step _ htwins' hl' =>
          rcases ih h' hl hl' with hlevel | hcollide
          · rcases pairs_eq_or_collide hlen hlen' hlevel with hpairs | hcollide
            · exact .inl (pairs_injective _ _ htwins htwins' hpairs)
            · exact .inr hcollide
          · exact .inr (hcollide.above hlen hlen')

/-- Lists of one length: the root tells the list, or there is a collision. -/
theorem Root.eq_or_collide_of_length (h : Root node d l r) (h' : Root node d' l' r)
    (hlen : l.length = l'.length) : l = l' ∨ Collide node l l' := by
  induction h generalizing l' d' with
  | leaf r =>
    cases h' with
    | leaf => exact .inl rfl
    | step hlen' => exact absurd hlen' (by rw [← hlen]; exact Nat.lt_irrefl 1)
  | step hlong _ ih =>
    cases h' with
    | leaf => exact absurd hlong (by rw [hlen]; exact Nat.lt_irrefl 1)
    | step hlong' h' =>
      rcases ih h' (by rw [length_level, length_level, hlen]) with hlevel | hcollide
      · rcases pairs_eq_or_collide hlong hlong' hlevel with hpairs | hcollide
        · exact .inl (pairs_injective_of_length _ _ hlen hpairs)
        · exact .inr hcollide
      · exact .inr (hcollide.above hlong hlong')

/-- The root is the only leaf, or it is made of two nodes. -/
theorem Root.leaf_or_joined (h : Root node d l r) :
    l = [r] ∨ ∃ a b, Joined node l a b ∧ node a b = r := by
  induction h with
  | leaf r => exact .inl rfl
  | @step _ l r hlen _ ih =>
    right
    rcases ih with hlevel | ⟨a, b, hab, heq⟩
    · obtain ⟨a, b, t, rfl⟩ := exists_cons_cons hlen
      exact ⟨a, b, .here hlen (.head _), (List.cons.inj hlevel).1⟩
    · exact ⟨a, b, .above hlen hab, heq⟩

/-! ## Trees of different heights -/

theorem Root.eq_singleton (h : Root node 0 l r) : l = [r] := by
  cases h
  rfl

theorem Root.iterate (h : Root node (d + e) l r) : Root node d ((level node)^[e] l) r := by
  induction e generalizing l with
  | zero => exact h
  | succ e ih =>
    cases h with
    | step _ h => exact ih h

theorem Joined.of_iterate (h : Root node (d + e) l r) {a b : α}
    (hab : Joined node ((level node)^[e] l) a b) : Joined node l a b := by
  induction e generalizing l with
  | zero => exact hab
  | succ e ih =>
    cases h with
    | step hlen h => exact .above hlen (ih h hab)

theorem Root.exists_pair (h : Root node (d + 1 + e) l r) :
    ∃ a b t, (level node)^[e] l = a :: b :: t ∧ Joined node l a b := by
  cases h.iterate with
  | step hlong _ =>
    obtain ⟨a, b, t, heq⟩ := exists_cons_cons hlong
    exact ⟨a, b, t, heq, .of_iterate h (.here hlong (heq ▸ mem_cons_self))⟩

/-- The first leaf of a tree is the first node at its depth in a higher tree with the
same root, or there is a collision. -/
theorem Root.head_eq_or_collide (h : Root node d l r) (h' : Root node (d + e) l' r) :
    l.head? = ((level node)^[e] l').head? ∨ Collide node l l' := by
  induction h generalizing l' with
  | leaf r =>
    rw [h'.iterate.eq_singleton]
    exact .inl rfl
  | @step d l r hlen hroot ih =>
    obtain ⟨a', b', t', heq, hjoined⟩ := h'.exists_pair
    rw [Nat.add_right_comm] at h'
    cases h' with
    | step hlen' hroot' =>
      rcases ih hroot' with hhead | hcollide
      · -- the first pairs of the two levels are joined into equal nodes
        obtain ⟨a, b, t, rfl⟩ := exists_cons_cons hlen
        rw [← iterate_succ_apply, iterate_succ_apply', heq] at hhead
        have hnode : node a b = node a' b' := Option.some.inj hhead
        by_cases hpair : (a, b) = (a', b')
        · cases hpair
          rw [heq]
          exact .inl rfl
        · exact .inr ⟨a, b, a', b', .here hlen mem_cons_self, hjoined, hpair, hnode⟩
      · exact .inr (hcollide.above hlen hlen')

/-- The first leaf of a tree is joined from two nodes of a higher tree with the same
root, or there is a collision. -/
theorem Root.head_joined_or_collide (h : Root node d l r) (h' : Root node d' l' r) (hlt : d < d') :
    (∃ a b, Joined node l' a b ∧ l.head? = some (node a b)) ∨ Collide node l l' := by
  obtain ⟨e, rfl⟩ := Nat.exists_eq_add_of_lt hlt
  rw [Nat.add_assoc] at h'
  rcases h.head_eq_or_collide h' with hhead | hcollide
  · rw [Nat.add_comm e, ← Nat.add_assoc] at h'
    obtain ⟨a, b, t, heq, hjoined⟩ := h'.exists_pair
    rw [iterate_succ_apply', heq] at hhead
    exact .inl ⟨a, b, hjoined, hhead⟩
  · exact .inr hcollide

end MerkleTree
