import Bitcoboost.Primitives.Wire
import Bitcoboost.Validation.ChainOrder
import Mathlib.Data.Nat.Digits.Lemmas

/-!
# The best chain is activated

What `ActivateBestChain` does is a sequence of small changes: candidates with an invalid ancestor
are set aside, blocks of the chain are disconnected, and others are connected or found invalid.
Through all of them an anchor, the best tip that was reached so far, stays among the candidates,
and so does everything better that can still be reached.
-/

namespace Bitcoboost

open ChainLemmas AncestorLemmas ChainOrderLemmas Chainstate CBlockIndex Option Function List

/-- No block of the path to an entry carries a failure flag. -/
def Chainstate.Clean (s : Chainstate) (pindex : CBlockIndex) : Prop :=
  ∀ a : CBlockIndex, a.Below pindex → (s.entry a).failed = false

def Chainstate.Linked (s : Chainstate) (pindex : CBlockIndex) : Prop :=
  ∀ a : CBlockIndex, a.Below pindex → (s.entry a).haveData = true ∧
    (s.entry a).haveNumChainTxs = true

def ChainEnv.Connects (env : ChainEnv) (pindex : CBlockIndex) : Prop :=
  ∀ a : CBlockIndex, a.Below pindex → env.connectBlock a = true

structure Chainstate.OnTree (s : Chainstate) : Prop where
  tip : s.tip ∈ s.blockIndex
  candidates : ∀ c ∈ s.setBlockIndexCandidates, c ∈ s.blockIndex

/-- The changes that activating a chain is made of. -/
inductive ChainStep (env : ChainEnv) : Chainstate → Chainstate → Prop
  | setAside {s : Chainstate} {pindex pprev a : CBlockIndex} : pindex.pprev = some pprev →
      a.Below pprev → (s.entry a).failed = true →
      ChainStep env s
        ((s.setEntry pindex { s.entry pindex with failedChild := true }).eraseCandidate pindex)
  | erase {s : Chainstate} {pindex : CBlockIndex} : (s.entry pindex).failed = true →
      ChainStep env s (s.eraseCandidate pindex)
  | disconnect {s : Chainstate} {pprev : CBlockIndex} : s.tip.pprev = some pprev →
      ChainStep env s { s with tip := pprev }
  | connect {s : Chainstate} {pindex : CBlockIndex} : pindex.pprev = some s.tip →
      pindex ∈ s.blockIndex → env.connectBlock pindex = true → (s.entry pindex).failed = false →
      s.Linked pindex →
      ChainStep env s { s.setEntry pindex (s.entry pindex).connected with
        tip := pindex
        blockChecked := s.blockChecked ++ [(pindex, true)]
        setBlockIndexCandidates :=
          s.setBlockIndexCandidates.filter fun c => !workComparator env s.entry c pindex }
  | invalid {s : Chainstate} {pindex : CBlockIndex} : pindex.pprev = some s.tip →
      pindex ∈ s.blockIndex → env.connectBlock pindex = false → s.Linked pindex →
      ChainStep env s
        ({ s with blockChecked := s.blockChecked ++ [(pindex, false)] }.invalidBlockFound pindex)

/-- Where the best chain can be activated from: the tip is on a chain that connects, candidates
have their data, and whatever can be reached and is not worse than an anchor is a candidate. -/
structure Ready (env : ChainEnv) (s : Chainstate) (anchor : CBlockIndex) : Prop where
  closed : ∀ b ∈ s.blockIndex, ∀ a : CBlockIndex, a.Below b → a ∈ s.blockIndex
  rooted : ∀ b ∈ s.blockIndex, b.root = s.tip.root
  tip_mem : s.tip ∈ s.blockIndex
  tip_clean : s.Clean s.tip
  tip_connects : env.Connects s.tip
  candidates : ∀ c ∈ s.setBlockIndexCandidates, c ∈ s.blockIndex ∧ s.Linked c
  anchor_mem : anchor ∈ s.setBlockIndexCandidates
  anchor_clean : s.Clean anchor
  anchor_connects : env.Connects anchor
  full : ∀ b ∈ s.blockIndex, s.Clean b → s.Linked b → rank env s.entry anchor ≤ rank env s.entry b →
    b ∈ s.setBlockIndexCandidates

namespace BestChainLemmas

variable {env : ChainEnv} {s s' : Chainstate} {anchor : CBlockIndex}

/-! ## What the changes keep -/

/-- What activating a chain leaves as it is: the entries, except for their flags. -/
structure Frame (s s' : Chainstate) : Prop where
  blockIndex : s'.blockIndex = s.blockIndex
  root : s'.tip.root = s.tip.root
  haveData : ∀ b, (s'.entry b).haveData = (s.entry b).haveData
  nTx : ∀ b, (s'.entry b).nTx = (s.entry b).nTx
  nChainTx : ∀ b, (s'.entry b).nChainTx = (s.entry b).nChainTx
  nSequenceId : ∀ b, (s'.entry b).nSequenceId = (s.entry b).nSequenceId
  failedValid : ∀ b, (s.entry b).failedValid = true → (s'.entry b).failedValid = true
  failed : ∀ b, (s.entry b).failed = true → (s'.entry b).failed = true

theorem Frame.refl (s : Chainstate) : Frame s s :=
  ⟨rfl, rfl, fun _ => rfl, fun _ => rfl, fun _ => rfl, fun _ => rfl, fun _ => id, fun _ => id⟩

theorem Frame.trans {s'' : Chainstate} (h : Frame s s') (h' : Frame s' s'') : Frame s s'' where
  blockIndex := h'.blockIndex.trans h.blockIndex
  root := h'.root.trans h.root
  haveData b := (h'.haveData b).trans (h.haveData b)
  nTx b := (h'.nTx b).trans (h.nTx b)
  nChainTx b := (h'.nChainTx b).trans (h.nChainTx b)
  nSequenceId b := (h'.nSequenceId b).trans (h.nSequenceId b)
  failedValid b hb := h'.failedValid b (h.failedValid b hb)
  failed b hb := h'.failed b (h.failed b hb)

variable {pindex b fork a : CBlockIndex} {e : IndexEntry}

/-- A change to the flags of one entry. -/
theorem frame_update (hindex : s'.blockIndex = s.blockIndex) (hroot : s'.tip.root = s.tip.root)
    (hentry : s'.entry = update s.entry pindex e) (hdata : e.haveData = (s.entry pindex).haveData)
    (htx : e.nTx = (s.entry pindex).nTx) (hchain : e.nChainTx = (s.entry pindex).nChainTx)
    (hseq : e.nSequenceId = (s.entry pindex).nSequenceId)
    (hvalid : (s.entry pindex).failedValid = true → e.failedValid = true)
    (hfailed : (s.entry pindex).failed = true → e.failed = true) : Frame s s' := by
  have hfield {β : Type} (f : IndexEntry → β) (hf : f e = f (s.entry pindex)) (b : CBlockIndex) :
      f (s'.entry b) = f (s.entry b) := by
    rw [hentry]
    grind
  have hmono (f : IndexEntry → Bool) (hf : f (s.entry pindex) = true → f e = true) (b : CBlockIndex)
      (h : f (s.entry b) = true) :
      f (s'.entry b) = true := by
    rw [hentry]
    grind
  exact ⟨hindex, hroot, hfield _ hdata, hfield _ htx, hfield _ hchain, hfield _ hseq,
    hmono _ hvalid, hmono _ hfailed⟩

theorem connected_eq (e : IndexEntry) :
    ∃ valid, e.connected = { e with haveUndo := true, valid } := by
  unfold IndexEntry.connected IndexEntry.raiseValidity
  aesop

theorem frame_step (h : ChainStep env s s') : Frame s s' := by
  cases h with
  | setAside _ _ _ =>
    refine frame_update rfl rfl rfl rfl rfl rfl rfl id fun _ => ?_
    exact Bool.or_true _
  | erase _ => exact ⟨rfl, rfl, fun _ => rfl, fun _ => rfl, fun _ => rfl, fun _ => rfl, fun _ => id,
      fun _ => id⟩
  | disconnect hprev =>
    exact ⟨rfl, root_of_below (below_of_pprev hprev), fun _ => rfl, fun _ => rfl, fun _ => rfl,
      fun _ => rfl, fun _ => id, fun _ => id⟩
  | @connect pindex hprev _ _ _ _ =>
    obtain ⟨valid, hconnected⟩ := connected_eq (s.entry pindex)
    grind [frame_update, root_of_below, below_of_pprev, setEntry]
  | invalid _ _ _ _ => exact frame_update rfl rfl rfl rfl rfl rfl rfl (fun _ => rfl) fun _ => rfl

theorem Frame.rank (h : Frame s s') : rank env s'.entry = rank env s.entry :=
  rank_congr h.nSequenceId

theorem Frame.linked (h : Frame s s') (b : CBlockIndex) : s'.Linked b ↔ s.Linked b := by
  unfold Chainstate.Linked IndexEntry.haveNumChainTxs
  simp only [h.haveData, h.nChainTx]

theorem Frame.clean (h : Frame s s') (hb : s'.Clean b) : s.Clean b := by
  intro a ha
  have := hb a ha
  cases hfailed : (s.entry a).failed with
  | false => rfl
  | true =>
    grind [failed]

theorem clean_update (hentry : s'.entry = update s.entry pindex e) (hb : s.Clean b)
    (hpindex : pindex.Below b → e.failed = false) : s'.Clean b := by
  intro a ha
  rw [hentry]
  by_cases heq : a = pindex
  · grind
  aesop

/-- A path that connects does not get a flag. -/
theorem clean_step (h : ChainStep env s s') (hb : s.Clean b) (hconnects : env.Connects b) :
    s'.Clean b := by
  cases h with
  | @setAside pindex pprev a hprev ha hfailed =>
    refine clean_update rfl hb fun hpindex => ?_
    rw [hb a ((ha.trans (below_of_pprev hprev)).trans hpindex)] at hfailed
    cases hfailed
  | erase _ => exact hb
  | disconnect _ => exact hb
  | @connect pindex _ _ _ hfailed _ =>
    obtain ⟨valid, hconnected⟩ := connected_eq (s.entry pindex)
    exact clean_update rfl hb fun _ => by rw [hconnected]; exact hfailed
  | @invalid pindex _ _ hconnect _ =>
    refine clean_update rfl hb fun hpindex => ?_
    rw [hconnects pindex hpindex] at hconnect
    cases hconnect

/-- Any number of changes. -/
abbrev Steps (env : ChainEnv) : Chainstate → Chainstate → Prop :=
  Relation.ReflTransGen (ChainStep env)

theorem frame_steps (h : Steps env s s') : Frame s s' := by
  induction h with
  | refl => exact Frame.refl s
  | tail _ hstep ih => exact ih.trans (frame_step hstep)

theorem clean_steps (h : Steps env s s') (hb : s.Clean b) (hconnects : env.Connects b) :
    s'.Clean b := by
  induction h with
  | refl => exact hb
  | tail _ hstep ih => exact clean_step hstep ih hconnects

theorem disconnect_steps {tip : CBlockIndex} (htip : s.tip = tip) (hfork : fork.Below tip) :
    Steps env s { s with tip := fork } := by
  induction hfork generalizing s with
  | refl =>
    subst htip
    exact .refl
  | @next tip header _ ih =>
    have hstep : ChainStep env s { s with tip } := .disconnect (by rw [htip]; rfl)
    exact .head hstep (@ih { s with tip } rfl)

theorem workComparator_congr {entry entry' : CBlockIndex → IndexEntry}
    (h : ∀ b, (entry' b).nSequenceId = (entry b).nSequenceId)
    (a b : CBlockIndex) : workComparator env entry' a b = workComparator env entry a b := by
  rw [Bool.eq_iff_iff, workComparator_iff, workComparator_iff, rank_congr h]

/-! ## Where it can go on -/

section

variable (h : Ready env s anchor) {mostWork c t : CBlockIndex}
include h

/-- A candidate with a flag on its path is removed. -/
theorem ready_remove (hstep : ChainStep env s s') (htip : s'.tip = s.tip)
    (hcandidates : s'.setBlockIndexCandidates = s.setBlockIndexCandidates.filter (· ≠ pindex))
    (hpindex : ¬s'.Clean pindex) : Ready env s' anchor := by
  have hframe := frame_step hstep
  have hanchor := clean_step hstep h.anchor_clean h.anchor_connects
  constructor
  · rw [hframe.blockIndex]
    exact h.closed
  · rw [hframe.blockIndex, htip]
    exact h.rooted
  · rw [hframe.blockIndex, htip]
    exact h.tip_mem
  · rw [htip]
    exact clean_step hstep h.tip_clean h.tip_connects
  · rw [htip]
    exact h.tip_connects
  · intro c hc
    rw [hcandidates] at hc
    obtain ⟨hmem, hlinked⟩ := h.candidates c (mem_of_mem_filter hc)
    exact ⟨hframe.blockIndex ▸ hmem, (hframe.linked c).mpr hlinked⟩
  · grind [Ready.anchor_mem]
  · exact hanchor
  · exact h.anchor_connects
  · intro b hb hclean hlinked hrank
    rw [hframe.blockIndex] at hb
    rw [hframe.rank] at hrank
    grind [Ready.full, Frame.clean, Frame.linked]

theorem ready_disconnect (hfork : fork.Below s.tip) : Ready env { s with tip := fork } anchor where
  closed := h.closed
  rooted b hb := (h.rooted b hb).trans (root_of_below hfork).symm
  tip_mem := h.closed _ h.tip_mem fork hfork
  tip_clean a ha := h.tip_clean a (ha.trans hfork)
  tip_connects a ha := h.tip_connects a (ha.trans hfork)
  candidates := h.candidates
  anchor_mem := h.anchor_mem
  anchor_clean := h.anchor_clean
  anchor_connects := h.anchor_connects
  full := h.full

/-! ## Selecting a candidate -/

theorem findUnusable_cases (hlinked : s.Linked c) :
    (s.findUnusable c = some none ∧ s.Clean c) ∨
      ∃ t, s.findUnusable c = some (some (t, true)) ∧ t.Below c ∧ (s.entry t).failed = true := by
  have hchain {b : CBlockIndex} (hb : s.tip.contains b = true) : s.Clean b :=
    fun a ha => h.tip_clean a (ha.trans (contains_iff.mp hb))
  induction c with
  | genesis header =>
    have hdata := (hlinked _ .refl).1
    unfold findUnusable
    split
    · next hcontains => exact .inl ⟨rfl, hchain hcontains⟩
    · cases hfailed : (s.entry (.genesis header)).failed with
      | true => exact .inr ⟨.genesis header, by simp [hfailed], .refl, hfailed⟩
      | false =>
        grind [below_genesis, Chainstate.Clean]
  | next pprev header ih =>
    obtain ⟨hdata, hcount⟩ := hlinked _ .refl
    unfold findUnusable
    split
    · next hcontains => exact .inl ⟨rfl, hchain hcontains⟩
    · simp only [hcount, if_true, hdata, Bool.not_true, Bool.or_false]
      cases hfailed : (s.entry (.next pprev header)).failed with
      | true => exact .inr ⟨.next pprev header, rfl, .refl, hfailed⟩
      | false =>
        rcases ih fun a ha => hlinked a (.next ha) with ⟨hfind, hclean⟩ | ⟨t, hfind, hbelow, hflag⟩
        · grind [below_next, Chainstate.Clean]
        · exact .inr ⟨t, hfind, .next hbelow, hflag⟩

theorem eraseCandidate_spec (hfailed : (s.entry t).failed = true) :
    Steps env s (s.eraseCandidate t) ∧ Ready env (s.eraseCandidate t) anchor := by
  refine ⟨.single (.erase hfailed), ready_remove h (.erase hfailed) rfl rfl fun hclean => ?_⟩
  have hflag := hclean t .refl
  simp_all [eraseCandidate]

/-- The loop that removes a chain comes down to the failed block. -/
theorem removeChain_spec (hbelow : t.Below c) (hfailed : (s.entry t).failed = true) :
    ∃ s', Chainstate.removeChain t true c s = some s' ∧ Steps env s s' ∧ Ready env s' anchor ∧
    s'.tip = s.tip ∧
      s'.setBlockIndexCandidates.Sublist (s.setBlockIndexCandidates.filter (· ≠ c)) := by
  induction c generalizing s with
  | genesis header =>
    obtain rfl := below_genesis.mp hbelow
    obtain ⟨hsteps, h'⟩ := eraseCandidate_spec h hfailed
    exact ⟨_, if_pos rfl, hsteps, h', rfl, List.Sublist.refl _⟩
  | next pprev header ih =>
    unfold removeChain
    split
    · next heq =>
      subst heq
      obtain ⟨hsteps, h'⟩ := eraseCandidate_spec h hfailed
      exact ⟨_, rfl, hsteps, h', rfl, List.Sublist.refl _⟩
    · next hne =>
      have hbelow := (below_next.mp hbelow).resolve_left hne
      have hstep : ChainStep env s (s.setAside true (.next pprev header) pprev) :=
        .setAside rfl hbelow hfailed
      have hfailed₁ := (frame_step hstep).failed t hfailed
      have h₁ : Ready env (s.setAside true (.next pprev header) pprev) anchor := by
        refine ready_remove h hstep rfl rfl fun hclean => ?_
        have hflag := hclean t (.next hbelow)
        grind
      obtain ⟨s', hs', hsteps, h', htip, hsub⟩ := ih h₁ hbelow hfailed₁
      exact ⟨s', hs', .head hstep hsteps, h', htip, hsub.trans filter_sublist⟩

/-- What `FindMostWorkChain` returns: a best candidate, without a flag on its path. -/
structure Selected (env : ChainEnv) (s : Chainstate) (mostWork : CBlockIndex) : Prop where
  mem : mostWork ∈ s.setBlockIndexCandidates
  greatest : ∀ c ∈ s.setBlockIndexCandidates, rank env s.entry c ≤ rank env s.entry mostWork
  clean : s.Clean mostWork

theorem findMostWorkLoop_spec {fuel : Nat} (hfuel : s.setBlockIndexCandidates.length < fuel) :
    ∃ s' mostWork, Chainstate.findMostWorkLoop env fuel s = some (s', some mostWork) ∧
    Steps env s s' ∧ Ready env s' anchor ∧
      s'.tip = s.tip ∧ Selected env s' mostWork := by
  induction fuel generalizing s with
  | zero => exact absurd hfuel (Nat.not_lt_zero _)
  | succ fuel ih =>
    unfold findMostWorkLoop
    split
    · next hnone =>
      have hanchor := h.anchor_mem
      grind [Greatest.greatest_eq_none]
    · next c hc =>
      obtain ⟨hmem, hmax⟩ := Greatest.greatest_spec workComparator_iff hc
      rcases findUnusable_cases h (h.candidates c hmem).2 with ⟨hfind, hclean⟩ | ⟨t, hfind,
        hbelow, hfailed⟩
      · rw [hfind]
        exact ⟨s, c, rfl, .refl, h, rfl, hmem, hmax, hclean⟩
      · obtain ⟨s₁, hs₁, hsteps₁, h₁, htip₁, hsub⟩ := removeChain_spec h hbelow hfailed
        have hlength : s₁.setBlockIndexCandidates.length < fuel := by
          have hlt :
            (s.setBlockIndexCandidates.filter (· ≠ c)).length < s.setBlockIndexCandidates.length :=
            List.length_filter_lt_length_iff_exists.mpr ⟨c, hmem, by simp⟩
          grind
        grind [Relation.ReflTransGen.trans]

/-! ## Connecting blocks -/

/-- A block that connects: it becomes the tip, and the anchor unless that is better. -/
theorem connect_spec (hprev : b.pprev = some s.tip) (hb : b ∈ s.blockIndex)
    (hconnect : env.connectBlock b = true) (hfailed : (s.entry b).failed = false)
    (hlinked : s.Linked b) :
    ∃ s₁ s' anchor', s.connectTip env b = some (s₁, true) ∧
    s₁.pruneBlockIndexCandidates env = some s' ∧ ChainStep env s s' ∧
      Ready env s' anchor' ∧ s'.tip = b ∧ rank env s.entry b ≤ rank env s.entry anchor' ∧
        anchor' ∈ s.setBlockIndexCandidates ∧
      (∀ c, c ∈ s'.setBlockIndexCandidates ↔ c ∈ s.setBlockIndexCandidates ∧
        rank env s.entry b ≤ rank env s.entry c) ∧
      ∀ c, s.Clean c → s'.Clean c := by
  obtain ⟨s', hs'⟩ : ∃ s', { s.setEntry b (s.entry b).connected with
      tip := b
      blockChecked := s.blockChecked ++ [(b, true)]
      setBlockIndexCandidates :=
        s.setBlockIndexCandidates.filter fun c => !workComparator env s.entry c b } = s' := ⟨_, rfl⟩
  have hstep : ChainStep env s s' := hs' ▸ .connect hprev hb hconnect hfailed hlinked
  have hframe := frame_step hstep
  have hclean : s.Clean b := by
    intro a ha
    cases b with
    | genesis => cases hprev
    | next pprev header =>
      cases hprev
      rcases below_next.mp ha with rfl | ha
      · exact hfailed
      · exact h.tip_clean a ha
  have hconnects : env.Connects b := by
    intro a ha
    cases b with
    | genesis => cases hprev
    | next pprev header =>
      cases hprev
      rcases below_next.mp ha with rfl | ha
      · exact hconnect
      · exact h.tip_connects a ha
  have hmem (c : CBlockIndex) : c ∈ s'.setBlockIndexCandidates ↔
      c ∈ s.setBlockIndexCandidates ∧ rank env s.entry b ≤ rank env s.entry c := by
    rw [← hs', mem_filter, Bool.not_eq_true', not_workComparator_iff]
  -- the better one of the anchor and the new tip
  obtain ⟨anchor', hanchor, hgood, hbest⟩ :
      ∃ anchor', anchor' ∈ s.setBlockIndexCandidates ∧ (s.Clean anchor' ∧ env.Connects anchor') ∧
      rank env s.entry b ≤ rank env s.entry anchor' ∧
        rank env s.entry anchor ≤ rank env s.entry anchor' := by
    rcases le_total (rank env s.entry anchor) (rank env s.entry b) with hle | hle
    · grind [Ready.full]
    · exact ⟨anchor, h.anchor_mem, ⟨h.anchor_clean, h.anchor_connects⟩, hle, le_rfl⟩
  have htip : s'.tip = b := by rw [← hs']
  have hready : Ready env s' anchor' := by
    constructor
    · rw [hframe.blockIndex]
      exact h.closed
    · rw [hframe.blockIndex, hframe.root]
      exact h.rooted
    · aesop
    · grind [clean_step]
    · rw [htip]
      exact hconnects
    · grind [Ready.candidates, Frame.blockIndex, Frame.linked]
    · exact (hmem anchor').mpr ⟨hanchor, hbest.1⟩
    · exact clean_step hstep hgood.1 hgood.2
    · exact hgood.2
    · intro c hc hcclean hclinked hrank
      rw [hframe.blockIndex] at hc
      rw [hframe.rank] at hrank
      grind [Ready.full, Frame.clean, Frame.linked]
  refine ⟨{ s.setEntry b (s.entry b).connected with tip := b, blockChecked := s.blockChecked ++
    [(b, true)] }, s', anchor', ?_, ?_, hstep, hready, htip, hbest.1, hanchor, hmem, fun c hc => ?_⟩
  · unfold connectTip
    rw [if_neg (not_not.mpr hprev), hconnect]
    rfl
  · have hseq (c : CBlockIndex) :
        ((s.setEntry b (s.entry b).connected).entry c).nSequenceId = (s.entry c).nSequenceId := by
      have := hframe.nSequenceId c
      rwa [← hs'] at this
    unfold pruneBlockIndexCandidates
    simp only [workComparator_congr hseq]
    aesop
  · have hentry : s'.entry = update s.entry b (s.entry b).connected := by rw [← hs']; rfl
    refine clean_update hentry hc fun _ => ?_
    obtain ⟨valid, hconnected⟩ := connected_eq (s.entry b)
    rw [hconnected]
    exact hfailed

theorem invalid_spec (hprev : b.pprev = some s.tip) (hb : b ∈ s.blockIndex)
    (hconnect : env.connectBlock b = false) (hlinked : s.Linked b) :
    ∃ s', s.connectTip env b = some (s', false) ∧ ChainStep env s s' ∧ Ready env s' anchor ∧
    (s'.entry b).failedValid = true := by
  have hstep :
    ChainStep env s ({ s with blockChecked := s.blockChecked ++
    [(b, false)] }.invalidBlockFound b) := .invalid hprev hb hconnect hlinked
  have hflag :
      (({ s with blockChecked := s.blockChecked ++ [(b, false)] }.invalidBlockFound b).entry
      b).failedValid = true := by
    unfold invalidBlockFound eraseCandidate setEntry
    simp
  refine ⟨_, ?_, hstep, ready_remove h hstep rfl rfl fun hclean => ?_, hflag⟩
  · simp_all [connectTip]
  · have := hclean b .refl
    rw [IndexEntry.failed, hflag] at this
    cases this

/-- Connecting blocks towards a candidate: the next ones, or up to one that is invalid. -/
theorem connectBlocks_spec (old : CBlockIndex) {l : List CBlockIndex}
    (hclimb : Climb s.tip l mostWork) (hselected : Selected env s mostWork) :
    ∃ s' anchor' found goOn, Chainstate.connectBlocks env old l s = some (s', found, goOn) ∧
    Steps env s s' ∧ Ready env s' anchor' ∧
      (found = true → ∃ b ∈ s.blockIndex, (s.entry b).failedValid = false ∧
        (s'.entry b).failedValid = true) ∧
      (found = false → s'.tip.Below mostWork ∧ Selected env s' mostWork ∧
        (l ≠ [] → s.tip.nHeight < s'.tip.nHeight)) := by
  induction l generalizing s anchor with
  | nil =>
    cases hclimb
    exact ⟨s, anchor, false, true, rfl, .refl, h, Bool.noConfusion, fun _ =>
      ⟨.refl, hselected, fun h => absurd rfl h⟩⟩
  | cons b rest ih =>
    cases hclimb with
    | cons hprev hrest =>
      obtain ⟨hmem, hlinked⟩ := h.candidates mostWork hselected.mem
      have hbelow := hrest.below_last
      have hb := h.closed mostWork hmem b hbelow
      have hblinked : s.Linked b := fun a ha => hlinked a (ha.trans hbelow)
      have hfailed := hselected.clean b hbelow
      unfold connectBlocks
      cases hconnect : env.connectBlock b with
      | false =>
        obtain ⟨s', hs', hstep, h', hflag⟩ := invalid_spec h hprev hb hconnect hblinked
        refine ⟨s', anchor, true, false, by rw [hs']; rfl, .single hstep, h', fun _ =>
          ⟨b, hb, ?_, hflag⟩, Bool.noConfusion⟩
        exact (Bool.or_eq_false_iff.mp hfailed).1
      | true =>
        obtain ⟨s₁, s₂, anchor₂, hs₁, hs₂, hstep, h₂, htip, hrank, hanchor, hcandidates, hclean⟩ :=
          connect_spec h hprev hb hconnect hfailed hblinked
        have hframe := frame_step hstep
        have hselected₂ : Selected env s₂ mostWork := by
          refine ⟨(hcandidates _).mpr ⟨hselected.mem, hrank.trans (hselected.greatest _ hanchor)⟩,
            fun c hc => ?_, hclean _ hselected.clean⟩
          rw [hframe.rank]
          exact hselected.greatest c ((hcandidates c).mp hc).1
        have hheight : s.tip.nHeight < s₂.tip.nHeight := by
          rw [htip, nHeight_of_pprev hprev]
          exact Nat.lt_succ_self _
        rw [hs₁, bind_eq_bind, bind_some]
        simp only [if_true]
        rw [hs₂, bind_eq_bind, bind_some]
        split
        · grind
        · obtain ⟨s', anchor', found, goOn, hs', hsteps, h', hfound, hdone⟩ :=
            ih h₂ (htip ▸ hrest) hselected₂
          refine ⟨s', anchor', found, goOn, hs', .head hstep hsteps, h', fun htrue => ?_,
            fun hfalse => ?_⟩
          · obtain ⟨c, hc, hbefore, hafter⟩ := hfound htrue
            refine ⟨c, hframe.blockIndex ▸ hc, Bool.eq_false_iff.mpr fun hflag => ?_, hafter⟩
            grind [Frame.failedValid]
          · obtain ⟨htip', hselected', hup⟩ := hdone hfalse
            refine ⟨htip', hselected', fun _ => ?_⟩
            cases rest with
            | nil =>
              cases hs'
              exact hheight
            | cons c rest => exact hheight.trans (hup (cons_ne_nil c rest))

/-- `ActivateBestChainStep`: it comes nearer to the candidate, or finds an invalid block. -/
theorem activateBestChainStep_spec (hselected : Selected env s mostWork) (hne : mostWork ≠ s.tip) :
    ∃ s' anchor' found, s.activateBestChainStep env mostWork = some (s', found) ∧ Steps env s s' ∧
    Ready env s' anchor' ∧
      (found = true → ∃ b ∈ s.blockIndex, (s.entry b).failedValid = false ∧
        (s'.entry b).failedValid = true) ∧
      (found = false → s'.tip.Below mostWork ∧ Selected env s' mostWork ∧
        (s.tip.Below mostWork → s.tip.nHeight < s'.tip.nHeight)) := by
  obtain ⟨hmem, _⟩ := h.candidates mostWork hselected.mem
  obtain ⟨fork, hfork, hforktip, hforkwork, hlast⟩ := findFork_spec (h.rooted mostWork hmem)
  have hclimb :
    Climb ({ s with tip := fork } : Chainstate).tip (mostWork.above fork.nHeight) mostWork :=
    climb_above hforkwork
  obtain ⟨s', anchor', found, goOn, hs', hsteps, h', hfound, hdone⟩ :=
    connectBlocks_spec (ready_disconnect h hforktip) s.tip hclimb ⟨hselected.mem,
      hselected.greatest, hselected.clean⟩
  refine ⟨s', anchor', found, ?_, (disconnect_steps rfl hforktip).trans hsteps, h', hfound,
    fun hfalse => ?_⟩
  · grind [activateBestChainStep, disconnectTo_eq, connectWindows_eq, nHeight_le_of_below]
  · obtain ⟨htip', hselected', hup⟩ := hdone hfalse
    refine ⟨htip', hselected', fun htip => ?_⟩
    obtain rfl := below_antisymm hforktip (hlast s.tip .refl htip)
    refine hup fun hnil => hne ?_
    rw [hnil] at hclimb
    cases hclimb
    rfl

end

/-! ## The end of the loops -/

/-- The entries that are not found invalid yet. -/
def unflagged (s : Chainstate) : Nat := s.blockIndex.countP fun b => !(s.entry b).failedValid

theorem unflagged_le (h : Frame s s') : unflagged s' ≤ unflagged s := by
  unfold unflagged
  rw [h.blockIndex]
  refine countP_mono_left fun b _ hb => ?_
  rw [Bool.not_eq_true'] at hb ⊢
  exact Bool.eq_false_iff.mpr fun hflag => Bool.eq_false_iff.mp hb (h.failedValid b hflag)

theorem unflagged_lt (h : Frame s s') (hb : b ∈ s.blockIndex)
    (hbefore : (s.entry b).failedValid = false)
    (hafter : (s'.entry b).failedValid = true) : unflagged s' < unflagged s := by
  unfold unflagged
  rw [h.blockIndex, countP_eq_length_filter, countP_eq_length_filter]
  have hfilter : (s.blockIndex.filter fun b => !(s'.entry b).failedValid) =
      (s.blockIndex.filter fun b => !(s.entry b).failedValid).filter fun b =>
      !(s'.entry b).failedValid := by
    rw [List.filter_filter]
    refine filter_congr fun c _ => ?_
    cases hc : (s.entry c).failedValid with
    | false => rw [Bool.not_false, Bool.and_true]
    | true => rw [h.failedValid c hc]; rfl
  rw [hfilter]
  exact List.length_filter_lt_length_iff_exists.mpr ⟨b,
    List.mem_filter.mpr ⟨hb, by rw [hbefore]; rfl⟩, by simp [hafter]⟩

theorem mem_path : a ∈ b.path ↔ a.Below b := by
  induction b with
  | genesis header => rw [path, mem_singleton, below_genesis]
  | next pprev header ih => rw [path, mem_append, mem_singleton, ih, below_next, or_comm]

theorem nodup_path (b : CBlockIndex) : b.path.Nodup := by
  induction b with
  | genesis header => exact nodup_singleton _
  | next pprev header ih =>
    refine List.nodup_append.mpr ⟨ih, nodup_singleton _, fun a ha c hc heq => ?_⟩
    have hle := nHeight_le_of_below (mem_path.mp ha)
    simp_all

theorem length_path (b : CBlockIndex) : b.path.length = b.nHeight + 1 := by
  induction b with
  | genesis header => rfl
  | next pprev header ih => rw [path, length_append, ih, nHeight_next, length_singleton]

theorem nHeight_lt_length (h : Ready env s anchor) (hb : b ∈ s.blockIndex) :
    b.nHeight < s.blockIndex.length := by
  have hsub : b.path ⊆ s.blockIndex := fun a ha => h.closed b hb a (mem_path.mp ha)
  have hle := ((nodup_path b).subperm hsub).length_le
  rwa [length_path] at hle

/-- How far a candidate is from the tip, for the turns of the loops that are left. -/
def distance (s : Chainstate) : Option CBlockIndex → Nat
  | none => s.blockIndex.length + 1
  | some mostWork => mostWork.nHeight - s.tip.nHeight

/-- A turn that finds a block invalid, or comes nearer to the candidate, has fuel for the next. -/
theorem turn_lt {u u' n d d' fuel : Nat} (h : u' < u ∧ d' ≤ n + 1 ∨ u' ≤ u ∧ d' < d)
    (hfuel : u * (n + 2) + d < fuel + 1) : u' * (n + 2) + d' < fuel := by
  rcases h with ⟨hu, hd⟩ | ⟨hu, hd⟩
  · have := Nat.mul_le_mul_right (n + 2) (Nat.succ_le_of_lt hu)
    grind
  · have := Nat.mul_le_mul_right (n + 2) hu
    omega

/-- The loops end, with a best candidate as the tip. A turn comes nearer to the candidate, or
finds one more block invalid and selects again. -/
theorem activateLoop_spec {fuel : Nat} {p : Chainstate.Progress} (h : Ready env s anchor)
    (hmost : ∀ mostWork, p.pindexMostWork = some mostWork → s.tip.Below mostWork ∧
    Selected env s mostWork) (hnew : p.blocksConnected = true → p.pindexNewTip = some s.tip)
    (hfuel : unflagged s * (s.blockIndex.length + 2) + distance s p.pindexMostWork < fuel) :
    ∃ s' anchor', Chainstate.activateLoop env fuel s p = some s' ∧ Steps env s s' ∧
    Ready env s' anchor' ∧ Selected env s' s'.tip := by
  induction fuel generalizing s anchor p with
  | zero => exact absurd hfuel (Nat.not_lt_zero _)
  | succ fuel ih =>
    -- the candidate of this turn
    obtain ⟨s₁, mostWork, hfind, hsteps₁, h₁, htip₁, hselected, hnear⟩ : ∃ s₁ mostWork,
        s.mostWorkOf env p.pindexMostWork = some (s₁, some mostWork) ∧ Steps env s s₁ ∧
        Ready env s₁ anchor ∧ s₁.tip = s.tip ∧ Selected env s₁ mostWork ∧
        (s₁.tip.Below mostWork ∧ p.pindexMostWork = some mostWork ∨ p.pindexMostWork = none) := by
      cases hp : p.pindexMostWork with
      | none =>
        obtain ⟨s₁, mostWork, hs₁, hsteps₁, h₁, htip₁, hselected⟩ :=
          findMostWorkLoop_spec h (Nat.lt_succ_self _)
        exact ⟨s₁, mostWork, hs₁, hsteps₁, h₁, htip₁, hselected, .inr rfl⟩
      | some mostWork => exact ⟨s, mostWork, rfl, .refl, h, rfl, (hmost mostWork hp).2,
          .inl ⟨(hmost mostWork hp).1, rfl⟩⟩
    have hframe₁ := frame_steps hsteps₁
    unfold activateLoop
    rw [hfind, bind_eq_bind, bind_some]
    dsimp only
    by_cases heq : mostWork = s₁.tip
    · -- a loop that has connected something has the tip as its new tip
      grind
    · obtain ⟨s₂, anchor₂, found, hs₂, hsteps₂, h₂, hfound, hdone⟩ :=
        activateBestChainStep_spec h₁ hselected heq
      have hframe₂ := hframe₁.trans (frame_steps hsteps₂)
      have hsteps := hsteps₁.trans hsteps₂
      rw [if_neg heq, hs₂, bind_eq_bind, bind_some]
      obtain ⟨next, hnext⟩ :
        ∃ next, (if found = true then none else some mostWork) = next := ⟨_, rfl⟩
      rw [hnext]
      have hmost₂ : ∀ m, next = some m → s₂.tip.Below m ∧ Selected env s₂ m := by
        grind
      have hfuel₂ : unflagged s₂ * (s₂.blockIndex.length + 2) + distance s₂ next < fuel := by
        rw [hframe₂.blockIndex]
        refine turn_lt ?_ hfuel
        have hle := unflagged_le hframe₁
        cases found with
        | true =>
          obtain ⟨b, hb, hbefore, hafter⟩ := hfound rfl
          have hlt := unflagged_lt (frame_steps hsteps₂) hb hbefore hafter
          grind [LT.lt.trans_le, distance, Frame.blockIndex]
        | false =>
          obtain ⟨hbelow, _, hup⟩ := hdone rfl
          refine .inr ⟨unflagged_le hframe₂, ?_⟩
          have hheight := nHeight_le_of_below hbelow
          rcases hnear with ⟨hnear, hsome⟩ | hnone
          · grind [distance]
          · have hlt := nHeight_lt_length h₁ (h₁.candidates mostWork hselected.mem).1
            grind [Frame.blockIndex, distance]
      split
      · obtain ⟨s', anchor', hs', hsteps', h'⟩ :=
          ih (p := ⟨p.startingTip, next, some s₂.tip, true⟩) h₂ hmost₂ (fun _ => rfl) hfuel₂
        exact ⟨s', anchor', hs', hsteps.trans hsteps', h'⟩
      · split
        · obtain ⟨s', anchor', hs', hsteps', h'⟩ :=
            ih (p := ⟨s₂.tip, next, some s₂.tip, false⟩) h₂ hmost₂ Bool.noConfusion hfuel₂
          exact ⟨s', anchor', hs', hsteps.trans hsteps', h'⟩
        grind

/-! ## Blocks found invalid -/

/-- What a node reports while it activates a chain: a block it finds invalid is marked. -/
theorem blockChecked_steps (h : Steps env s s') :
    ∃ log, s'.blockChecked = s.blockChecked ++ log ∧ ∀ b, (b, false) ∈ log →
    (s'.entry b).failedValid = true := by
  induction h with
  | refl => exact ⟨[], (append_nil _).symm, nofun⟩
  | @tail s₁ s₂ _ hstep ih =>
    obtain ⟨log, hlog, hmarked⟩ := ih
    have hkept (b : CBlockIndex) (hb : (b, false) ∈ log) :=
      (frame_step hstep).failedValid b (hmarked b hb)
    cases hstep with
    | setAside _ _ _ => exact ⟨log, hlog, hkept⟩
    | erase _ => exact ⟨log, hlog, hkept⟩
    | disconnect _ => exact ⟨log, hlog, hkept⟩
    | @connect pindex _ _ _ _ _ =>
      grind
    | @invalid pindex _ _ _ _ =>
      refine ⟨log ++ [(pindex, false)], ?_, fun b hb => ?_⟩
      · aesop
      · rcases List.mem_append.mp hb with hb | hb
        · exact hkept b hb
        · cases List.mem_singleton.mp hb
          exact congrArg IndexEntry.failedValid (update_self pindex _ s₁.entry)

/-! ## A node that is in order -/

theorem first_eq_none {p : IndexEntry → Bool} :
    s.first p b = none ↔ ∀ a : CBlockIndex, a.Below b → p (s.entry a) = false := by
  simp [first, mem_path]

section Stored

variable (hcheck : s.CheckBlockIndex env) (hdata : ∀ b ∈ s.blockIndex, (s.entry b).haveData = true)
  {b : CBlockIndex}
include hcheck

theorem closed_of_check (hb : b ∈ s.blockIndex) (ha : a.Below b) : a ∈ s.blockIndex :=
  hcheck.traversed b hb a (mem_path.mpr ha)

include hdata

theorem processed_of_check (hb : b ∈ s.blockIndex) : s.firstNeverProcessed b = none := by
  refine first_eq_none.mpr fun a ha => ?_
  have ha := closed_of_check hcheck hb ha
  rw [← (hcheck.entries a ha).haveData, hdata a ha]
  rfl

theorem linked_of_check (hb : b ∈ s.blockIndex) : s.Linked b := by
  intro a ha
  have ha := closed_of_check hcheck hb ha
  exact ⟨hdata a ha, (hcheck.entries a ha).processed.mp (processed_of_check hcheck hdata ha)⟩

/-- A node that stores all blocks can activate its best chain from a chain that connects. -/
theorem ready_of_check (htree : s.OnTree) (hclean : s.Clean s.tip)
    (hconnects : env.Connects s.tip) : Ready env s s.tip := by
  have hfull : ∀ b ∈ s.blockIndex, s.Clean b → rank env s.entry s.tip ≤ rank env s.entry b →
      b ∈ s.setBlockIndexCandidates := by
    intro b hb hclean hrank
    refine (hcheck.entries b hb).candidate ((not_workComparator_iff _ _).mpr hrank)
      (processed_of_check hcheck hdata hb) ?_ (.inl ?_)
    · exact first_eq_none.mpr fun a ha => (Bool.or_eq_false_iff.mp (hclean a ha)).1
    · exact first_eq_none.mpr fun a ha => by rw [hdata a (closed_of_check hcheck hb ha)]; rfl
  exact {
    closed := fun b hb a ha => closed_of_check hcheck hb ha
    rooted :=
      fun b hb => (hcheck.entries b.root (closed_of_check hcheck hb (root_below b))).genesisChain
        (pprev_root b)
    tip_mem := htree.tip
    tip_clean := hclean
    tip_connects := hconnects
    candidates :=
      fun c hc => ⟨htree.candidates c hc, linked_of_check hcheck hdata (htree.candidates c hc)⟩
    anchor_mem := hfull s.tip htree.tip hclean le_rfl
    anchor_clean := hclean
    anchor_connects := hconnects
    full := fun b hb hclean _ hrank => hfull b hb hclean hrank }

end Stored

end BestChainLemmas

open BestChainLemmas

/-- Best chain selection. The tip is the best of the blocks whose whole path connects and has no
failure flag, and blocks that were found invalid are marked. -/
theorem activateBestChain_best (env : ChainEnv) (s : Chainstate) (hcheck : s.CheckBlockIndex env)
    (htree : s.OnTree)
    (hdata : ∀ b ∈ s.blockIndex, (s.entry b).haveData = true) (hclean : s.Clean s.tip)
    (hconnects : env.Connects s.tip) :
    ∃ s', s.activateBestChain env = some s' ∧ s'.blockIndex = s.blockIndex ∧
      (s'.tip ∈ s'.blockIndex ∧ env.Connects s'.tip ∧ s'.Clean s'.tip) ∧
      (∀ b ∈ s'.blockIndex, env.Connects b → s.Clean b →
        workComparator env s'.entry b s'.tip = true ∨ b = s'.tip) ∧
      ∃ log, s'.blockChecked = s.blockChecked ++ log ∧ ∀ b, (b, false) ∈ log →
        (s'.entry b).failedValid = true := by
  have h := ready_of_check hcheck hdata htree hclean hconnects
  have hfuel : unflagged s * (s.blockIndex.length + 2) + distance s none <
      (s.blockIndex.length + 1) * (s.blockIndex.length + 2) := by
    have hle : unflagged s * (s.blockIndex.length + 2) ≤
      s.blockIndex.length * (s.blockIndex.length + 2) := Nat.mul_le_mul_right _ countP_le_length
    rw [distance, Nat.succ_mul]
    omega
  obtain ⟨s', anchor, hs', hsteps, h', hselected⟩ :=
    activateLoop_spec (p := ⟨s.tip, none, none, false⟩) h nofun nofun hfuel
  have hframe := frame_steps hsteps
  refine ⟨s', hs', hframe.blockIndex, ⟨h'.tip_mem, h'.tip_connects, h'.tip_clean⟩,
    fun b hb hbconnects hbclean => ?_, blockChecked_steps hsteps⟩
  have hlinked : s'.Linked b :=
    (hframe.linked b).mpr (linked_of_check hcheck hdata (hframe.blockIndex ▸ hb))
  have hrank : rank env s'.entry b ≤ rank env s'.entry s'.tip := by
    rcases le_total (rank env s'.entry anchor) (rank env s'.entry b) with hle | hle
    · exact hselected.greatest b (h'.full b hb (clean_steps hsteps hbclean hbconnects) hlinked hle)
    · exact hle.trans (hselected.greatest anchor h'.anchor_mem)
  grind [workComparator_iff, rank_injective]

/-! ## A node with two branches -/

/-- An address for every entry: the number that the bytes of its path spell. -/
def CBlockIndex.pathAddress (pindex : CBlockIndex) : Nat :=
  Nat.ofDigits 256 (((pindex.path.map CBlockIndex.header).flatMap CBlockHeader.serialize).map
    UInt8.toNat ++ [1])

namespace BestChainLemmas

theorem headers_injective :
    Function.Injective fun pindex : CBlockIndex => pindex.path.map CBlockIndex.header := by
  intro a
  induction a with
  | genesis header =>
    intro b h
    cases b with
    | genesis header' => cases h; rfl
    | next pprev' header' =>
      have hlength := congrArg List.length h
      simp [path, length_path] at hlength
  | next pprev header ih =>
    intro b h
    cases b with
    | genesis header' =>
      have hlength := congrArg List.length h
      simp [path, length_path] at hlength
    | next pprev' header' =>
      simp only [path, map_append] at h
      aesop

theorem pathAddress_injective : Function.Injective CBlockIndex.pathAddress := by
  have hdigits (b : CBlockIndex) : Nat.digits 256 b.pathAddress =
      ((b.path.map header).flatMap CBlockHeader.serialize).map UInt8.toNat ++ [1] := by
    grind [Nat.digits_ofDigits, UInt8.toNat_lt, pathAddress]
  intro a b h
  have hbytes := append_cancel_right ((hdigits a).symm.trans ((congrArg _ h).trans (hdigits b)))
  refine headers_injective ?_
  refine (SelfDelimiting.of_read fun _ => codec_unserializeHeader.read_write).flatMap_injective
      (fun header _ => ?_) (fun _ _ => trivial)
    (fun _ _ => trivial) ?_
  · grind [CBlockHeader.serialize, BaseBlob.length_data, length_nil]
  · exact List.map_injective_iff.mpr (fun _ _ => UInt8.toNat_inj.mp) hbytes

end BestChainLemmas

def forkRoot : CBlockIndex := .genesis { nBits := 0x207fffff#32 }

/-- A block that connects. -/
def goodTip : CBlockIndex := .next forkRoot { nBits := 0x207fffff#32, nNonce := 1#32 }

/-- A block with as much work, that was received first and does not connect. -/
def badTip : CBlockIndex := .next forkRoot { nBits := 0x207fffff#32, nNonce := 2#32 }

def forkEnv : ChainEnv where
  address := CBlockIndex.pathAddress
  address_injective := BestChainLemmas.pathAddress_injective
  connectBlock b := b ≠ badTip
  getHash _ := nullUint256
  hashGenesisBlock := nullUint256

def forkNode (tip : CBlockIndex) (setBlockIndexCandidates : List CBlockIndex) : Chainstate where
  blockIndex := [forkRoot, goodTip, badTip]
  entry b := {
    nTx := 1
    nChainTx := b.nHeight + 1
    valid := .scripts
    haveData := true
    nSequenceId := if b = goodTip then 2 else if b = badTip then 1 else 0 }
  tip
  setBlockIndexCandidates

/-- The block that does not connect is found invalid, and the other one becomes the tip. -/
theorem activateBestChain_best_fork :
    ∃ s', (forkNode forkRoot [forkRoot, goodTip, badTip]).activateBestChain forkEnv = some s' ∧
    s'.tip = goodTip := by
  have hcheck :
    (forkNode forkRoot [forkRoot, goodTip, badTip]).CheckBlockIndex forkEnv := by decide +kernel
  have hconnects {b : CBlockIndex} (hb : b = forkRoot ∨ b = goodTip) : forkEnv.Connects b := by
    intro a ha
    have : ∀ b ∈ [forkRoot, goodTip], ∀ a ∈ b.path, forkEnv.connectBlock a = true := by decide
    exact this b (by simpa using hb) a (mem_path.mpr ha)
  obtain ⟨s', hs', hindex, ⟨hmem, hgood, _⟩, hbest, _⟩ :=
    activateBestChain_best forkEnv (forkNode forkRoot [forkRoot, goodTip, badTip]) hcheck
      ⟨mem_cons_self, fun _ => id⟩ (fun _ _ => rfl) (fun _ _ => rfl) (hconnects (.inl rfl))
  refine ⟨s', hs', ?_⟩
  rw [hindex] at hmem hbest
  simp only [forkNode, mem_cons, not_mem_nil, or_false] at hmem
  rcases hmem with htip | htip | htip
  · rcases hbest goodTip (by decide) (hconnects (.inr rfl)) (fun _ _ => rfl) with hless | heq
    · have hwork : goodTip.nChainWork > forkRoot.nChainWork := by decide +kernel
      grind [workComparator]
    · exact heq.symm
  · exact htip
  · have := hgood badTip (htip ▸ .refl)
    cases this

/-- A chain that does not connect stays active: nothing connects it again. -/
theorem activateBestChain_badTip :
    (forkNode badTip [badTip]).CheckBlockIndex forkEnv ∧ (forkNode badTip [badTip]).OnTree ∧
    (∀ b ∈ (forkNode badTip [badTip]).blockIndex,
      ((forkNode badTip [badTip]).entry b).haveData = true) ∧
    ((forkNode badTip [badTip]).activateBestChain forkEnv).map Chainstate.tip = some badTip ∧
    ¬forkEnv.Connects badTip := by
  have hcheck : (forkNode badTip [badTip]).CheckBlockIndex forkEnv := by decide +kernel
  refine ⟨hcheck, by constructor <;> decide, fun _ _ => rfl, by decide +kernel, fun hconnects => ?_⟩
  exact Bool.false_ne_true (hconnects badTip .refl)

end Bitcoboost
