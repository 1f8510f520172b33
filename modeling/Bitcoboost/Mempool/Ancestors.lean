import Bitcoboost.Mempool.Exact

/-!
# The walk over ancestors

`CalculateAncestorsAndCheckLimits` checks the limits while it walks, on the ancestors
that it has found so far, and stops at the first that is exceeded. That is the same as to
find all ancestors first and check the limits on the whole set: `ancestorsLoop_of_within`
and `ancestorsLoop_eq_ok`.
-/

namespace Bitcoboost.Mempool

open Relation ExceptBind Worklist List Finset

variable {nBytesPerSigOp : Nat}

namespace CTxMemPool

variable {pool : CTxMemPool nBytesPerSigOp} {limits : Limits} {staged : Finset Txid}
  {entryCount : Nat}

/-! ## The inner loops -/

/-- The loop over the parents stages those that are not visited. As the staged set only
grows, the last check decides. -/
theorem stageParents_eq {ancestors : Finset Txid} {parents : List Txid} :
    stageParents limits entryCount ancestors parents staged =
      if parents = [] ∨ (staged ∪ (parents.toFinset \ ancestors)).card + ancestors.card + entryCount
          ≤ limits.ancestorCount.toNat then .ok (staged ∪ (parents.toFinset \ ancestors))
      else .error ("too many unconfirmed ancestors" ++ limitText limits.ancestorCount) := by
  induction parents generalizing staged with
  | nil => simp [stageParents]
  | cons parent parents ih =>
    have hstaged : staged ∪ ((parent :: parents).toFinset \ ancestors)
        = (if parent ∈ ancestors then staged else insert parent staged) ∪
          (parents.toFinset \ ancestors) := by
      split
      · rename_i hmem
        rw [toFinset_cons, insert_sdiff_of_mem _ hmem]
      · rename_i hmem
        rw [toFinset_cons, insert_sdiff_of_notMem _ hmem, union_insert, insert_union]
    rw [hstaged, stageParents, ih]
    generalize (if parent ∈ ancestors then staged else insert parent staged) = grown
    have hcard : grown.card ≤ (grown ∪ (parents.toFinset \ ancestors)).card :=
      card_le_card subset_union_left
    cases parents with
    | nil =>
      simp only [toFinset_nil, empty_sdiff, union_empty, true_or, if_true, reduceCtorEq, false_or]
      split
      · rw [if_neg (by omega)]
      · rw [if_pos (by omega)]
    | cons p ps =>
      simp only [reduceCtorEq, false_or]
      split
      · rw [if_neg (by omega)]
      · rfl

theorem stageInputs_eq {hashes : List Txid} :
    pool.stageInputs limits hashes staged =
      if pool.getIterSet hashes = ∅ ∨ (staged ∪ pool.getIterSet hashes).card + 1 ≤
        limits.ancestorCount.toNat then .ok (staged ∪ pool.getIterSet hashes)
      else .error ("too many unconfirmed parents" ++ limitText limits.ancestorCount) := by
  induction hashes generalizing staged with
  | nil => simp [stageInputs, getIterSet]
  | cons hash hashes ih =>
    unfold stageInputs
    by_cases hmem : hash ∈ pool.txids
    · have hset : pool.getIterSet (hash :: hashes) = insert hash (pool.getIterSet hashes) := by
        unfold getIterSet
        rw [toFinset_cons, insert_inter_of_mem hmem]
      have hunion : staged ∪ insert hash (pool.getIterSet hashes) =
          insert hash staged ∪ pool.getIterSet hashes := by
        rw [union_insert, insert_union]
      have hcard : (insert hash staged).card ≤ (insert hash staged ∪ pool.getIterSet hashes).card :=
        card_le_card subset_union_left
      rw [if_pos hmem, ih, hset, hunion]
      simp only [insert_ne_empty, false_or]
      split
      · rw [if_neg (by omega)]
      · rename_i hle
        by_cases hempty : pool.getIterSet hashes = ∅
        · rw [hempty, union_empty, if_pos (.inl rfl), if_pos (by omega)]
        · simp only [hempty, false_or]
    · have hset : pool.getIterSet (hash :: hashes) = pool.getIterSet hashes := by
        unfold getIterSet
        rw [toFinset_cons, insert_inter_of_notMem hmem]
      rw [if_neg hmem, ih, hset]

theorem checkStage_eq_ok {entrySize total : Int} {stage : Txid} :
    pool.checkStage limits entrySize entryCount total stage = .ok () ↔
      (pool.entry stage).withDescendants.size + entrySize ≤ limits.descendantSizeVbytes.toInt
        ∧ (pool.entry stage).withDescendants.count + entryCount ≤ limits.descendantCount.toNat
        ∧ total ≤ limits.ancestorSizeVbytes.toInt := by
  simp only [checkStage, gt_iff_lt]
  split
  · rename_i h
    exact iff_of_false nofun fun hok => absurd hok.1 (not_le.mpr h)
  · split
    · rename_i h
      exact iff_of_false nofun fun hok => absurd hok.2.1 (not_le.mpr h)
    · split
      · rename_i h
        exact iff_of_false nofun fun hok => absurd hok.2.2 (not_le.mpr h)
      · exact iff_of_true rfl ⟨by omega, by omega, by omega⟩

/-! ## The loop -/

/-- What the walk checks, on the whole set of ancestors. Nothing is checked if there are none. -/
structure WithinLimits (pool : CTxMemPool nBytesPerSigOp) (limits : Limits) (entrySize : Int)
    (entryCount : Nat) (ancestors : Finset Txid) : Prop where
  descendantSize : ∀ a ∈ ancestors, (pool.entry a).withDescendants.size + entrySize ≤
    limits.descendantSizeVbytes.toInt
  descendantCount : ∀ a ∈ ancestors, (pool.entry a).withDescendants.count + entryCount ≤
    limits.descendantCount.toNat
  ancestorSize : ancestors.Nonempty →
    entrySize + ∑ a ∈ ancestors, (pool.entry a).getTxSize ≤ limits.ancestorSizeVbytes.toInt
  ancestorCount : ancestors.Nonempty → ancestors.card + entryCount ≤ limits.ancestorCount.toNat

theorem sum_getTxSize_le {s t : Finset Txid} (h : s ⊆ t) :
    ∑ a ∈ s, (pool.entry a).getTxSize ≤ ∑ a ∈ t, (pool.entry a).getTxSize :=
  sum_le_sum_of_subset_of_nonneg h fun a _ _ => (pool.entry a).getTxSize_pos.le

section Loop

variable {entrySize total : Int} {entryCount fuel : Nat}
  {start staged visited ancestors result : Finset Txid}
  (hclosed : ∀ x ∈ pool.txids, (pool.entry x).parents ⊆ pool.txids) (hstart : start ⊆ pool.txids)
  (hancestors : ∀ x, x ∈ ancestors ↔ ∃ s ∈ start, Reaches (fun x => (pool.entry x).parents) s x)

section

variable (h : Walk (fun x => (pool.entry x).parents) start ∅ staged visited)
include h

include hancestors in
theorem walk_subset : staged ∪ visited ⊆ ancestors := by
  intro x hx
  rcases h.reached x hx with hx | hx
  · cases hx
  · exact (hancestors x).mpr hx

include hancestors in
theorem walk_end (hend : staged = ∅) : visited = ancestors := by
  subst hend
  ext x
  rw [h.mem_visited, hancestors]
  simp

include hclosed hstart in
theorem walk_out_of_fuel (hfuel : pool.txids.card ≤ 0 + visited.card) : staged = ∅ := by
  rw [eq_empty_iff_forall_notMem]
  intro x hx
  have hlt := h.card_lt (h.subset hclosed hstart (empty_subset _)) hx
  omega

end

include hclosed hstart hancestors

/-- Where the whole set is within the limits, so is every part of it that the walk checks. -/
theorem ancestorsLoop_of_within (hwithin : pool.WithinLimits limits entrySize entryCount ancestors)
    (h : Walk (fun x => (pool.entry x).parents) start ∅ staged visited)
    (hfuel : pool.txids.card ≤ fuel + visited.card)
    (htotal : total = entrySize + ∑ a ∈ visited, (pool.entry a).getTxSize) :
    pool.ancestorsLoop limits entrySize entryCount fuel staged visited total = .ok ancestors := by
  induction fuel generalizing staged visited total with
  | zero =>
    exact congrArg Except.ok (walk_end hancestors h (walk_out_of_fuel hclosed hstart h hfuel))
  | succ fuel ih =>
    unfold ancestorsLoop
    split
    · rename_i hne
      have hmem := staged.min'_mem hne
      generalize staged.min' hne = stage at hmem
      have hnext := h.visit hmem
      have hvisited : stage ∉ visited := Finset.disjoint_left.mp h.disjoint hmem
      have hstage : stage ∈ ancestors := walk_subset hancestors h (mem_union_left _ hmem)
      have hsub := walk_subset hancestors hnext
      have htotal' : total + (pool.entry stage).getTxSize
          = entrySize + ∑ a ∈ insert stage visited, (pool.entry a).getTxSize := by
        rw [sum_insert hvisited, htotal]
        omega
      have hcheck :
          pool.checkStage limits entrySize entryCount (total + (pool.entry stage).getTxSize) stage =
          .ok () := by
        refine checkStage_eq_ok.mpr ⟨hwithin.descendantSize _ hstage,
          hwithin.descendantCount _ hstage, ?_⟩
        have hle : ∑ a ∈ insert stage visited, (pool.entry a).getTxSize ≤ ∑ a ∈ ancestors,
          (pool.entry a).getTxSize := sum_getTxSize_le (Finset.subset_union_right.trans hsub)
        have hsize := hwithin.ancestorSize ⟨_, hstage⟩
        omega
      have hcard : (staged.erase stage ∪ ((pool.entry stage).parents \ insert stage visited)).card
          + (insert stage visited).card ≤ ancestors.card := by
        rw [← card_union_of_disjoint hnext.disjoint]
        exact card_le_card hsub
      have hcount := hwithin.ancestorCount ⟨_, hstage⟩
      simp only [hcheck, ok_bind, stageParents_eq, Ascending.toFinset_elements]
      rw [if_pos (.inr (by omega)), ok_bind]
      refine ih hnext ?_ htotal'
      rw [card_insert_of_notMem hvisited]
      omega
    · rename_i hne
      exact congrArg Except.ok (walk_end hancestors h (Finset.not_nonempty_iff_eq_empty.mp hne))

/-- If the walk ends well, then it has checked the whole set. -/
theorem ancestorsLoop_eq_ok
    (hok : pool.ancestorsLoop limits entrySize entryCount fuel staged visited total = .ok result)
    (h : Walk (fun x => (pool.entry x).parents) start ∅ staged visited)
    (hfuel : pool.txids.card ≤ fuel + visited.card)
    (htotal : total = entrySize + ∑ a ∈ visited, (pool.entry a).getTxSize)
    (hvisited : pool.WithinLimits limits entrySize entryCount visited)
    (hcount : (staged ∪ visited).Nonempty → (staged ∪ visited).card + entryCount ≤
      limits.ancestorCount.toNat) :
    result = ancestors ∧ pool.WithinLimits limits entrySize entryCount ancestors := by
  induction fuel generalizing staged visited total with
  | zero =>
    have hend := walk_end hancestors h (walk_out_of_fuel hclosed hstart h hfuel)
    exact ⟨(Except.ok.inj hok).symm.trans hend, hend ▸ hvisited⟩
  | succ fuel ih =>
    unfold ancestorsLoop at hok
    split at hok
    · rename_i hne
      have hmem := staged.min'_mem hne
      generalize staged.min' hne = stage at hmem hok
      have hnext := h.visit hmem
      have hnew : stage ∉ visited := Finset.disjoint_left.mp h.disjoint hmem
      obtain ⟨_, hcheck, hok⟩ := bind_ok.mp hok
      obtain ⟨hsize, hdescendants, htotalSize⟩ := checkStage_eq_ok.mp hcheck
      obtain ⟨grown, hgrown, hok⟩ := bind_ok.mp hok
      rw [stageParents_eq, Ascending.toFinset_elements] at hgrown
      have htotal' : total + (pool.entry stage).getTxSize
          = entrySize + ∑ a ∈ insert stage visited, (pool.entry a).getTxSize := by
        rw [sum_insert hnew, htotal]
        omega
      have hunion := card_union_of_disjoint hnext.disjoint
      -- the set of ancestors that are known only grows if there are parents to check
      have hcount' : (staged.erase stage ∪ ((pool.entry stage).parents \ insert stage visited)
            ∪ insert stage visited).card + entryCount ≤ limits.ancestorCount.toNat
          ∧ grown = staged.erase stage ∪ ((pool.entry stage).parents \ insert stage visited) := by
        split at hgrown
        · rename_i hcond
          refine ⟨?_, (Except.ok.inj hgrown).symm⟩
          rcases hcond with hnil | hle
          · have hparents : (pool.entry stage).parents = ∅ := by
              rw [← Ascending.toFinset_elements (pool.entry stage).parents, hnil, toFinset_nil]
            have hsame : staged.erase stage ∪ insert stage visited = staged ∪ visited := by
              rw [union_insert, ← insert_union, insert_erase hmem]
            rw [hparents, empty_sdiff, union_empty, hsame]
            exact hcount ⟨stage, mem_union_left _ hmem⟩
          · omega
        · cases hgrown
      obtain ⟨hcard, rfl⟩ := hcount'
      refine ih hok hnext ?_ htotal' ?_ fun _ => hcard
      · rw [card_insert_of_notMem hnew]
        omega
      · refine ⟨?_, ?_, fun _ => htotal' ▸ htotalSize, fun _ => ?_⟩
        · intro a ha
          rcases Finset.mem_insert.mp ha with rfl | ha
          · exact hsize
          · exact hvisited.descendantSize a ha
        · intro a ha
          rcases Finset.mem_insert.mp ha with rfl | ha
          · exact hdescendants
          · exact hvisited.descendantCount a ha
        · omega
    · rename_i hne
      have hend := walk_end hancestors h (Finset.not_nonempty_iff_eq_empty.mp hne)
      exact ⟨(Except.ok.inj hok).symm.trans hend, hend ▸ hvisited⟩

end Loop

/-! ## The functions -/

section Functions

variable {Linked : Txid → Txid → Prop} {entrySize : Int} {entryCount : Nat}
  {start ancestors result : Finset Txid}

/-- `CalculateAncestorsAndCheckLimits` returns the ancestors if they are within the limits
and fails otherwise. It takes for granted that those it starts with are not too many. -/
theorem calculateAncestorsAndCheckLimits_eq_ok (hlinks : pool.ParentLinks Linked)
    (hstart : start ⊆ pool.txids)
    (hancestors : ∀ x, x ∈ ancestors ↔ ∃ s ∈ start, ReflTransGen Linked s x)
    (hcount : start.Nonempty → start.card + entryCount ≤ limits.ancestorCount.toNat) :
    pool.calculateAncestorsAndCheckLimits entrySize entryCount start limits = .ok result ↔
      result = ancestors ∧ pool.WithinLimits limits entrySize entryCount ancestors := by
  have hreach : ∀ x, x ∈ ancestors ↔ ∃ s ∈ start,
      Reaches (fun x => (pool.entry x).parents) s x := by
    intro x
    rw [hancestors]
    exact exists_congr fun s => and_congr_right fun hs => (hlinks.reaches_parents (hstart hs)).symm
  have hfuel : pool.txids.card ≤ pool.txids.card + (∅ : Finset Txid).card := Nat.le_add_right _ _
  constructor
  · intro hok
    refine ancestorsLoop_eq_ok hlinks.parents_subset hstart hreach hok .empty hfuel (by simp) ?_ ?_
    · constructor <;> simp
    · rw [union_empty]
      exact hcount
  · rintro ⟨rfl, hwithin⟩
    exact ancestorsLoop_of_within hlinks.parents_subset hstart hreach hwithin .empty hfuel (by simp)

def AncestorOf (pool : CTxMemPool nBytesPerSigOp) (Linked : Txid → Txid → Prop)
    (e : NewTx nBytesPerSigOp) (a : Txid) : Prop :=
  ∃ parent ∈ pool.getIterSet e.prevoutHashes, ReflTransGen Linked parent a

open Classical in
noncomputable def ancestorsOf (pool : CTxMemPool nBytesPerSigOp) (Linked : Txid → Txid → Prop)
    (e : NewTx nBytesPerSigOp) : Finset Txid :=
  pool.txids.filter (pool.AncestorOf Linked e)

variable {e : NewTx nBytesPerSigOp}

theorem ancestorsOf_subset : pool.ancestorsOf Linked e ⊆ pool.txids := by
  classical
  exact filter_subset _ _

theorem mem_ancestorsOf (hlinks : pool.ParentLinks Linked) {a : Txid} :
    a ∈ pool.ancestorsOf Linked e ↔ pool.AncestorOf Linked e a := by
  classical
  rw [ancestorsOf, Finset.mem_filter, and_iff_right_iff_imp]
  rintro ⟨parent, hparent, hanc⟩
  exact hlinks.mem_of_ancestor (Finset.mem_inter.mp hparent).2 hanc

/-- `CalculateMemPoolAncestors` returns the ancestors if they are within the limits and fails
otherwise. -/
theorem calculateMemPoolAncestors_eq_ok (hlinks : pool.ParentLinks Linked) :
    pool.calculateMemPoolAncestors e limits = .ok result ↔
      result = pool.ancestorsOf Linked e ∧ pool.WithinLimits limits e.getTxSize 1
        (pool.ancestorsOf Linked e) := by
  have hstart : pool.getIterSet e.prevoutHashes ⊆ pool.txids := inter_subset_right
  have hancestors : ∀ x, x ∈ pool.ancestorsOf Linked e ↔
      ∃ s ∈ pool.getIterSet e.prevoutHashes, ReflTransGen Linked s x :=
      fun _ => mem_ancestorsOf hlinks
  have hsub : pool.getIterSet e.prevoutHashes ⊆ pool.ancestorsOf Linked e :=
    fun p hp => (hancestors p).mpr ⟨p, hp, .refl⟩
  unfold calculateMemPoolAncestors
  rw [bind_ok]
  simp only [stageInputs_eq, empty_union]
  constructor
  · rintro ⟨staged, hstaged, hok⟩
    split at hstaged
    · rename_i hcond
      cases hstaged
      refine (calculateAncestorsAndCheckLimits_eq_ok hlinks hstart hancestors fun hne => ?_).mp hok
      exact hcond.resolve_left hne.ne_empty
    · cases hstaged
  · rintro ⟨rfl, hwithin⟩
    have hcount : (pool.getIterSet e.prevoutHashes).Nonempty →
        (pool.getIterSet e.prevoutHashes).card + 1 ≤ limits.ancestorCount.toNat := by
      intro hne
      have hall := hwithin.ancestorCount (hne.mono hsub)
      have hle := card_le_card hsub
      omega
    refine ⟨_, if_pos ?_, ?_⟩
    · rcases (pool.getIterSet e.prevoutHashes).eq_empty_or_nonempty with h | h
      · exact .inl h
      · exact .inr (hcount h)
    · exact (calculateAncestorsAndCheckLimits_eq_ok hlinks hstart hancestors hcount).mpr
        ⟨rfl, hwithin⟩

/-- Nothing in the pool comes near the limits of `NoLimits`. -/
structure Unlimited (pool : CTxMemPool nBytesPerSigOp) : Prop where
  descendantSize : ∀ a ∈ pool.txids, (pool.entry a).withDescendants.size < 2 ^ 62
  descendantCount : ∀ a ∈ pool.txids, (pool.entry a).withDescendants.count < 2 ^ 62
  size : ∑ a ∈ pool.txids, (pool.entry a).getTxSize < 2 ^ 62

theorem card_le_sum_getTxSize (pool : CTxMemPool nBytesPerSigOp) (s : Finset Txid) :
    (s.card : Int) ≤ ∑ a ∈ s, (pool.entry a).getTxSize := by
  have hone : ∑ _a ∈ s, (1 : Int) ≤ ∑ a ∈ s, (pool.entry a).getTxSize :=
    sum_le_sum fun a _ => (pool.entry a).getTxSize_pos
  simpa using hone

theorem Unlimited.within (h : pool.Unlimited) (hsub : ancestors ⊆ pool.txids)
    (hsize : entrySize < 2 ^ 31) : pool.WithinLimits .noLimits entrySize 1 ancestors := by
  have hle : ∑ a ∈ ancestors, (pool.entry a).getTxSize ≤ ∑ a ∈ pool.txids,
    (pool.entry a).getTxSize := sum_getTxSize_le hsub
  have hcard := card_le_sum_getTxSize pool ancestors
  have hlimit : (BitVec.ofInt 64 (2 ^ 63 - 1)).toInt = 2 ^ 63 - 1 := by decide
  have hlimit' : (BitVec.ofInt 64 (2 ^ 63 - 1)).toNat = 2 ^ 63 - 1 := by decide
  have hall := h.size
  simp only [Limits.noLimits]
  refine ⟨fun a ha => ?_, fun a ha => ?_, fun _ => ?_, fun _ => ?_⟩
  · have := h.descendantSize a (hsub ha)
    rw [hlimit]
    omega
  · have := h.descendantCount a (hsub ha)
    rw [hlimit']
    omega
  · rw [hlimit]
    omega
  · rw [hlimit']
    omega

theorem mem_assumeCalculateMemPoolAncestors (hlinks : pool.ParentLinks Linked)
    (hunlimited : pool.Unlimited) {x y : Txid}
    (hx : x ∈ pool.txids) : y ∈ pool.assumeCalculateMemPoolAncestors x ↔ TransGen Linked x y := by
  classical
  have hstart := hlinks.parents_subset x hx
  have hmem : ∀ y, y ∈ pool.txids.filter (TransGen Linked x) ↔
      ∃ s ∈ (pool.entry x).parents, ReflTransGen Linked s y := by
    intro y
    rw [Finset.mem_filter, TransGen.head'_iff]
    simp only [hlinks.parents x hx]
    refine and_iff_right_of_imp ?_
    rintro ⟨p, hp, hpy⟩
    exact hlinks.mem_of_ancestor (hlinks.mem hp).2 hpy
  have hcount : (pool.entry x).parents.card + 1 ≤ Limits.noLimits.ancestorCount.toNat := by
    have hcard := card_le_sum_getTxSize pool (pool.entry x).parents
    have hle : ∑ a ∈ (pool.entry x).parents, (pool.entry a).getTxSize ≤ ∑ a ∈ pool.txids,
      (pool.entry a).getTxSize := sum_getTxSize_le hstart
    have hall := hunlimited.size
    have hlimit : Limits.noLimits.ancestorCount.toNat = 2 ^ 63 - 1 := by decide
    omega
  have hok :
      pool.calculateAncestorsAndCheckLimits (pool.entry x).getTxSize 1
      (pool.entry x).parents .noLimits
      = .ok (pool.txids.filter (TransGen Linked x)) :=
    (calculateAncestorsAndCheckLimits_eq_ok hlinks hstart hmem fun _ => hcount).mpr
      ⟨rfl, hunlimited.within (filter_subset _ _) (pool.entry x).getTxSize_lt⟩
  unfold assumeCalculateMemPoolAncestors
  rw [hok, Finset.mem_filter, and_iff_right_iff_imp]
  intro hxy
  exact hlinks.mem_of_ancestor hx hxy.to_reflTransGen

end Functions

end CTxMemPool

end Bitcoboost.Mempool
