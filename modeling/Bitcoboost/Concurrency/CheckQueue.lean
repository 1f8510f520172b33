import Bitcoboost.Lib.Reachable
import Mathlib.Algebra.BigOperators.Fin
import Mathlib.Algebra.Order.BigOperators.Group.Finset

/-!
# The queue of parallel checks

`CCheckQueue` of `checkqueue.h`. The master adds batches of checks and then joins the workers
in `Wait`. A step is one locked section, the execution of one batch, or a wake-up; between the
steps any thread may be the next. No stop is requested.

A thread that has a batch answers for it (`State.Accounted`). When the master finds the queue
empty and `nTodo` at 0, no thread answers for anything, unless `nTodo` wrapped around.
-/

namespace Bitcoboost.CheckQueue

open List Function Finset

/-- Where a thread is. -/
inductive Pc (κ : Type) where
  /-- The master outside of `Add` and `Wait`. -/
  | outside
  /-- The master in `Add`, past the locked section. -/
  | notifying (size : Nat)
  /-- At the lock of `Loop`, with the result of the previous batch. -/
  | ready (nNow : Nat) (fOk : Bool)
  /-- Past the lock of `Loop`, with a batch to execute. -/
  | exec (vChecks : List κ) (fOk : Bool)
  /-- In `cond.wait`. -/
  | waiting
  /-- Notified, or awake without a reason, and about to look at the queue. -/
  | woken

/-- The master is `none`. `added` are the checks that were added since `Wait` returned for the
last time, `ran` and `skipped` those of them that a thread called, or went past. -/
structure State (τ κ : Type) where
  queue : List κ
  nIdle : Nat
  nTotal : Nat
  fAllOk : Bool
  nTodo : Nat
  pc : Option τ → Pc κ
  added : Multiset κ
  ran : Multiset κ
  skipped : Multiset κ

/-- What happens next. -/
inductive Action (τ κ : Type) where
  | add (vChecks : List κ)
  /-- The end of `Add`; `notify_one` wakes the worker that is named. -/
  | notify (worker : Option τ)
  | wait
  /-- The thread goes through its locked section of `Loop`. -/
  | lock (t : Option τ)
  /-- The thread executes its batch. -/
  | execute (t : Option τ)
  | spuriousWake (t : Option τ)

namespace Pc

variable {κ : Type}

def isWaiting : Pc κ → Bool
  | waiting => true
  | _ => false

/-- The size of the batch that the thread answers for. -/
def nNow : Pc κ → Nat
  | ready n _ => n
  | exec vChecks _ => vChecks.length
  | _ => 0

/-- The checks that the thread has yet to look at. -/
def held : Pc κ → List κ
  | exec vChecks _ => vChecks
  | _ => []

/-- The thread knows of a failure that it will report. -/
def failed : Pc κ → Bool
  | ready _ fOk => !fOk
  | exec _ fOk => !fOk
  | _ => false

theorem eq_waiting : ∀ {p : Pc κ}, p.isWaiting = true → p = waiting
  | waiting, _ => rfl

end Pc

/-- What the execution of a batch comes to. -/
structure Executed (κ : Type) where
  fOk : Bool
  ran : List κ
  skipped : List κ

section Model

variable {τ κ : Type} [DecidableEq τ] [Fintype τ] (nBatchSize : Nat) (check : κ → Bool)

/-- The loop over `vChecks`: a check is called while none before it failed. -/
def executeWork (fOk : Bool) : List κ → Executed κ
  | [] => ⟨fOk, [], []⟩
  | c :: vChecks =>
    if fOk then
      let rest := executeWork (check c) vChecks
      { rest with ran := c :: rest.ran }
    else
      let rest := executeWork fOk vChecks
      { rest with skipped := c :: rest.skipped }

namespace State

def init : State τ κ where
  queue := []
  nIdle := 0
  nTotal := 0
  fAllOk := true
  nTodo := 0
  pc
    | none => .outside
    | some _ => .ready 0 true
  added := 0
  ran := 0
  skipped := 0

variable (s : State τ κ)

def setPc (t : Option τ) (p : Pc κ) : State τ κ :=
  { s with pc := update s.pc t p }

/-- `m_master_cv.notify_one()`. -/
def notifyMaster : State τ κ :=
  if (s.pc none).isWaiting then s.setPc none .woken else s

/-- The result of the previous batch is folded in. -/
def foldIn (t : Option τ) (nNow : Nat) (fOk : Bool) : State τ κ :=
  { s with
    fAllOk := s.fAllOk && fOk
    nTodo := (s.nTodo + (0x100000000 - nNow % 0x100000000)) % 0x100000000 }.setPc t .woken

/-- The first part of the locked section: the clean-up of the previous round. -/
def cleanUp (t : Option τ) (nNow : Nat) (fOk : Bool) : State τ κ :=
  if nNow ≠ 0 then
    let s := s.foldIn t nNow fOk
    if s.nTodo = 0 ∧ t ≠ none then s.notifyMaster else s
  else
    { s with nTotal := s.nTotal + 1 }.setPc t .woken

/-- How many checks to take. -/
def nNow : Nat :=
  max 1 (min nBatchSize (s.queue.length % 0x100000000 / (s.nTotal + s.nIdle + 1)))

/-- The second part of the locked section, up to where the lock is released, and what `Loop`
returns if it does. -/
def look (t : Option τ) : State τ κ × Option Bool :=
  if s.queue.isEmpty then
    if t = none ∧ s.nTodo = 0 then
      ({ s with nTotal := s.nTotal - 1, fAllOk := true, added := 0, ran := 0, skipped := 0 }.setPc t
        .outside, some s.fAllOk)
    else
      ({ s with nIdle := s.nIdle + 1 }.setPc t .waiting, none)
  else
    let start := s.queue.length - s.nNow nBatchSize
    ({ s with queue := s.queue.take start }.setPc t (.exec (s.queue.drop start) s.fAllOk), none)

/-- The locked section of `Loop`, entered at the top or on leaving `cond.wait`. -/
def lock (t : Option τ) : Option (State τ κ × Option Bool) :=
  match s.pc t with
  | .ready n fOk => some ((s.cleanUp t n fOk).look nBatchSize t)
  | .woken => some ({ s with nIdle := s.nIdle - 1 }.look nBatchSize t)
  | _ => none

/-- The locked section of `Add`. An empty batch is not added. -/
def add (vChecks : List κ) : State τ κ :=
  if vChecks.isEmpty then s
  else
    { s with
      queue := s.queue ++ vChecks
      nTodo := (s.nTodo + vChecks.length) % 0x100000000
      added := s.added + vChecks }.setPc none (.notifying vChecks.length)

def notifyAll : State τ κ :=
  { s with pc := fun t => if t ≠ none ∧ (s.pc t).isWaiting then .woken else s.pc t }

/-- `m_worker_cv.notify_one()`, which wakes a worker if one is waiting. -/
def notifyOne : Option τ → Option (State τ κ)
  | some w => if (s.pc (some w)).isWaiting then some (s.setPc (some w) .woken) else none
  | none => if ∀ w, (s.pc (some w)).isWaiting = false then some s else none

def next : Action τ κ → Option (State τ κ)
  | .add vChecks =>
    match s.pc none with
    | .outside => some (s.add vChecks)
    | _ => none
  | .notify worker =>
    match s.pc none with
    | .notifying size =>
      (if size = 1 then s.notifyOne worker else some s.notifyAll).map fun s => s.setPc none .outside
    | _ => none
  | .wait =>
    match s.pc none with
    | .outside => some (s.setPc none (.ready 0 true))
    | _ => none
  | .lock t => (s.lock nBatchSize t).map Prod.fst
  | .execute t =>
    match s.pc t with
    | .exec vChecks fOk =>
      let e := executeWork check fOk vChecks
      some ({ s with ran := s.ran + e.ran, skipped := s.skipped + e.skipped }.setPc t
        (.ready vChecks.length e.fOk))
    | _ => none
  | .spuriousWake t =>
    if (s.pc t).isWaiting then some (s.setPc t .woken) else none

/-- The master is in `Wait`. -/
def inWait : Prop :=
  match s.pc none with
  | .outside => False
  | .notifying _ => False
  | _ => True

end State

/-! ## Batches -/

/-- What a thread answers for is the same. -/
def Pc.SameLoad (p q : Pc κ) : Prop :=
  p.nNow = q.nNow ∧ p.held = q.held ∧ p.failed = q.failed

/-- A thread that answers for no check has none left to look at and no failure to report. -/
def Pc.Proper (p : Pc κ) : Prop :=
  p.nNow = 0 → p.held = [] ∧ p.failed = false

/-- Every check of a batch is called or gone past. -/
theorem executeWork_perm (fOk : Bool) (vChecks : List κ) :
    ((executeWork check fOk vChecks).ran : Multiset κ) + (executeWork check fOk vChecks).skipped =
      vChecks := by
  induction vChecks generalizing fOk with
  | nil => rfl
  | cons c vChecks ih =>
    cases fOk with
    | true =>
      simp [executeWork, ← Multiset.cons_coe, Multiset.cons_add, ih]
    | false =>
      simp [executeWork, ← Multiset.cons_coe, ih]

/-- The result of a batch is bad when it was so before or when a check that is called fails. -/
theorem executeWork_fOk (fOk : Bool) (vChecks : List κ) :
    (executeWork check fOk vChecks).fOk = false ↔
      fOk = false ∨ ∃ c ∈ (executeWork check fOk vChecks).ran, check c = false := by
  induction vChecks generalizing fOk with
  | nil => simp [executeWork]
  | cons c vChecks ih =>
    cases fOk with
    | true => simp [executeWork, ih]
    | false =>
      simp only [executeWork, Bool.false_eq_true, if_false, true_or, iff_true]
      exact (ih false).mpr (Or.inl rfl)

/-- A check is gone past only after a failure. -/
theorem executeWork_skipped (fOk : Bool) (vChecks : List κ) :
    (executeWork check fOk vChecks).skipped ≠ [] → (executeWork check fOk vChecks).fOk = false := by
  induction vChecks generalizing fOk with
  | nil => exact fun h => absurd rfl h
  | cons c vChecks ih =>
    cases fOk with
    | true => exact ih (check c)
    | false =>
      intro _
      exact (executeWork_fOk check false (c :: vChecks)).mpr (Or.inl rfl)

variable {pc : Option τ → Pc κ} {t : Option τ} {p q : Pc κ}

omit [Fintype τ] in
theorem sameLoad_update (h : p.SameLoad (pc t)) (x : Option τ) :
    (update pc t p x).SameLoad (pc x) := by
  rcases eq_or_ne x t with rfl | hx
  · rwa [update_self]
  · rw [update_of_ne hx]
    exact ⟨rfl, rfl, rfl⟩

/-- How many checks the threads answer for. -/
def inHand (pc : Option τ → Pc κ) : Nat := ∑ t, (pc t).nNow

/-- The checks that the threads have yet to look at. -/
def heldBy (pc : Option τ → Pc κ) : Multiset κ := ∑ t, ((pc t).held : Multiset κ)

/-- When one thread goes from `q` to `p`, a sum over all threads changes by its term. -/
theorem sum_update {M : Type} [AddCommMonoid M] (g : Pc κ → M)
    (h : pc t = q) (p : Pc κ) : ∑ x, g (update pc t p x) + g q = ∑ x, g (pc x) + g p := by
  have hcomp : ∀ x, g (update pc t p x) = update (fun y => g (pc y)) t (g p) x :=
    fun x => apply_update (fun _ => g) pc t p x
  simp only [hcomp]
  rw [← h, sum_update_of_mem (mem_univ t), ← erase_eq, add_assoc,
    sum_erase_add _ _ (mem_univ t), add_comm]

omit [DecidableEq τ] in
theorem inHand_eq_zero (h : ∀ t, (pc t).nNow = 0) : inHand pc = 0 :=
  sum_eq_zero fun t _ => h t

omit [DecidableEq τ] in
theorem heldBy_eq_zero (h : ∀ t, (pc t).held = []) : heldBy pc = 0 :=
  sum_eq_zero fun t _ => by rw [h t]; rfl

theorem inHand_update (h : pc t = q) {p : Pc κ} :
    inHand (update pc t p) + q.nNow = inHand pc + p.nNow :=
  sum_update Pc.nNow h p

theorem heldBy_update (h : pc t = q) {p : Pc κ} :
    heldBy (update pc t p) + q.held = heldBy pc + p.held :=
  sum_update (fun p => (p.held : Multiset κ)) h p

omit [Fintype τ] in
/-- The master does not begin to wait when a thread goes elsewhere. -/
theorem waiting_of_update (hp : p.isWaiting = false)
    (h : (update pc t p none).isWaiting = true) : (pc none).isWaiting = true := by
  rcases eq_or_ne none t with rfl | hne
  · rw [update_self, hp] at h
    exact absurd h Bool.false_ne_true
  · rwa [update_of_ne hne] at h

omit [Fintype τ] in
theorem proper_update (h : ∀ x, (pc x).Proper) (hp : p.Proper)
    (x : Option τ) : (update pc t p x).Proper := by
  rcases eq_or_ne x t with rfl | hx
  · rwa [update_self]
  · rw [update_of_ne hx]
    exact h x

omit [Fintype τ] in
theorem exists_failed_update :
    (∃ x, (update pc t p x).failed = true) ↔
      p.failed = true ∨ ∃ x, x ≠ t ∧ (pc x).failed = true := by
  constructor
  · rintro ⟨x, hx⟩
    rcases eq_or_ne x t with rfl | hne
    · exact Or.inl (by rwa [update_self] at hx)
    · exact Or.inr ⟨x, hne, by rwa [update_of_ne hne] at hx⟩
  · rintro (hp | ⟨x, hne, hx⟩)
    · exact ⟨t, by rwa [update_self]⟩
    · exact ⟨x, by rwa [update_of_ne hne]⟩

omit [Fintype τ] in
theorem exists_failed (t : Option τ) :
    (∃ x, (pc x).failed = true) ↔ (pc t).failed = true ∨ ∃ x, x ≠ t ∧ (pc x).failed = true := by
  rw [← exists_failed_update, update_eq_self]

/-! ## The invariant -/

def AnyFails (checks : Multiset κ) : Prop := ∃ c ∈ checks, check c = false

namespace State

structure Accounted (s : State τ κ) : Prop where
  proper : ∀ t, (s.pc t).Proper
  todo : s.nTodo = (s.queue.length + inHand s.pc) % 0x100000000
  bound : s.queue.length + inHand s.pc ≤ s.added.card
  account : s.added = s.queue + heldBy s.pc + (s.ran + s.skipped)
  verdict : (s.fAllOk = false ∨ ∃ t, (s.pc t).failed = true) ↔ AnyFails check s.ran
  skipped : s.skipped ≠ 0 → AnyFails check s.ran
  /-- The master waits for batches that others have taken. -/
  master : (s.pc none).isWaiting = true → s.queue = [] ∧ s.nTodo ≠ 0

variable {check} {s s' : State τ κ} {n : Nat} {fOk fOk : Bool} {vChecks : List κ} {t : Option τ}

omit [DecidableEq τ] [Fintype τ] in
theorem init_load :
    ((init : State τ κ).pc t).nNow = 0 ∧ ((init : State τ κ).pc t).held = [] ∧
      ((init : State τ κ).pc t).failed = false := by
  cases t <;> exact ⟨rfl, rfl, rfl⟩

omit [DecidableEq τ] in
theorem Accounted.init : (State.init : State τ κ).Accounted check where
  proper t := fun _ => init_load.2
  todo := by rw [inHand_eq_zero fun t => init_load.1]; rfl
  bound := by rw [inHand_eq_zero fun t => init_load.1]; exact Nat.le_refl 0
  account := by rw [heldBy_eq_zero fun t => init_load.2.1]; rfl
  verdict := by
    simp only [init_load.2.2]
    simp [State.init, AnyFails]
  skipped := fun h => absurd rfl h
  master := fun h => absurd h Bool.false_ne_true

theorem anyFails_add {xs ys : Multiset κ} :
    AnyFails check (xs + ys) ↔ AnyFails check xs ∨ AnyFails check ys := by
  simp [AnyFails, or_and_right, exists_or]

omit [DecidableEq τ] [Fintype τ] in
theorem start_lt (hqueue : s.queue ≠ []) : s.queue.length - s.nNow nBatchSize < s.queue.length :=
  Nat.sub_lt (List.length_pos_iff.mpr hqueue) (Nat.lt_of_lt_of_le Nat.one_pos (Nat.le_max_left 1 _))

omit [Fintype τ] in
/-- After the clean-up the thread is about to look at the queue, which is as it was. -/
theorem cleanUp_spec (s : State τ κ) (n : Nat) :
    (s.cleanUp t n fOk).pc t = .woken ∧ (s.cleanUp t n fOk).queue = s.queue ∧
      (s.cleanUp t n fOk).added = s.added ∧ (s.cleanUp t n fOk).ran = s.ran ∧
      (s.cleanUp t n fOk).skipped = s.skipped := by
  simp only [cleanUp]
  split_ifs with hn hlast
  · unfold notifyMaster
    split_ifs
    · simp [foldIn, setPc, update_of_ne hlast.2]
    · simp [foldIn, setPc]
  · simp [foldIn, setPc]
  · simp [setPc]

section Steps

variable (h : s.Accounted check)
include h

omit [DecidableEq τ] in
/-- Threads may move as long as each answers for the same. -/
theorem Accounted.move (nIdle nTotal : Nat) (hpc : ∀ t, (pc t).SameLoad (s.pc t))
    (hmaster : (pc none).isWaiting = true → s.queue = [] ∧ s.nTodo ≠ 0) :
    { s with pc := pc, nIdle := nIdle, nTotal := nTotal }.Accounted check := by
  have hnNow : ∀ t, (pc t).nNow = (s.pc t).nNow := fun t => (hpc t).1
  have hheld : ∀ t, (pc t).held = (s.pc t).held := fun t => (hpc t).2.1
  have hfailed : ∀ t, (pc t).failed = (s.pc t).failed := fun t => (hpc t).2.2
  constructor
  case proper =>
    intro t ht
    rw [hheld, hfailed]
    exact h.proper t (hnNow t ▸ ht)
  case todo => simpa only [inHand, hnNow] using h.todo
  case bound => simpa only [inHand, hnNow] using h.bound
  case account => simpa only [heldBy, hheld] using h.account
  case verdict => simpa only [hfailed] using h.verdict
  case skipped => exact h.skipped
  case master => exact hmaster

theorem Accounted.setPc (hpc : s.pc t = q) (hp : p.SameLoad q) (hwait : p.isWaiting = false) :
    (s.setPc t p).Accounted check :=
  h.move s.nIdle s.nTotal (sameLoad_update (hpc ▸ hp)) fun hm =>
    h.master (waiting_of_update hwait hm)

/-- A thread that reports its batch answers for nothing afterwards. -/
theorem Accounted.foldIn (hpc : s.pc t = .ready n fOk)
    (hmaster : ((s.foldIn t n fOk).pc none).isWaiting = true → (s.foldIn t n fOk).nTodo ≠ 0) :
    (s.foldIn t n fOk).Accounted check := by
  have hsum : inHand (update s.pc t .woken) + n = inHand s.pc := inHand_update hpc
  have hheld : heldBy (update s.pc t .woken) = heldBy s.pc := add_right_cancel (heldBy_update hpc)
  have htodo := h.todo
  have hbound := h.bound
  constructor
  case proper => exact proper_update h.proper fun _ => ⟨rfl, rfl⟩
  case todo =>
    simp only [State.foldIn, State.setPc]
    omega
  case bound =>
    simp only [State.foldIn, State.setPc]
    omega
  case account =>
    simp only [State.foldIn, State.setPc, hheld]
    exact h.account
  case verdict =>
    have hverdict := h.verdict
    rw [exists_failed t, hpc] at hverdict
    simp only [State.foldIn, State.setPc]
    rw [exists_failed_update, ← hverdict]
    cases s.fAllOk <;> cases fOk <;> simp [Pc.failed]
  case skipped => exact h.skipped
  case master => exact fun hwaiting => ⟨(h.master (waiting_of_update rfl hwaiting)).1,
    hmaster hwaiting⟩

/-- A thread that sleeps answers for nothing, and neither does one that is awake. -/
theorem Accounted.wake (hpc : (s.pc t).isWaiting = true) : (s.setPc t .woken).Accounted check :=
  h.setPc (Pc.eq_waiting hpc) ⟨rfl, rfl, rfl⟩ rfl

theorem Accounted.cleanUp (hpc : s.pc t = .ready n fOk) : (s.cleanUp t n fOk).Accounted check := by
  simp only [State.cleanUp]
  split_ifs with hn hlast
  · -- The master is woken before the report or after it, which makes no difference.
    obtain ⟨-, ht⟩ := hlast
    unfold notifyMaster
    split_ifs with hwaiting
    · have hmaster : (s.pc none).isWaiting = true := by
        simpa only [State.foldIn, State.setPc, update_of_ne ht.symm] using hwaiting
      have hpc' : (s.setPc none .woken).pc t = .ready n fOk := by
        simp [State.setPc, update_of_ne ht, hpc]
      have hcomm : (s.foldIn t n fOk).setPc none .woken = (s.setPc none .woken).foldIn t n fOk := by
        simp [State.foldIn, State.setPc, update_comm ht]
      rw [hcomm]
      refine (h.wake hmaster).foldIn hpc' fun hw => ?_
      simp [State.foldIn, State.setPc, update_of_ne ht.symm, Pc.isWaiting] at hw
    · exact h.foldIn hpc fun hw => absurd hw hwaiting
  · refine h.foldIn hpc fun hw htodo => hlast ⟨htodo, ?_⟩
    rintro rfl
    simp [State.foldIn, State.setPc, Pc.isWaiting] at hw
  · obtain rfl := not_not.mp hn
    have hproper := h.proper t
    rw [hpc] at hproper
    exact Accounted.setPc (h.move s.nIdle (s.nTotal + 1) (fun _ => ⟨rfl, rfl, rfl⟩) h.master) hpc
      ⟨rfl, rfl, (hproper rfl).2.symm⟩ rfl

theorem Accounted.take (hpc : s.pc t = .woken) {start : Nat} (hstart : start < s.queue.length) :
    ({ s with queue := s.queue.take start }.setPc t
      (.exec (s.queue.drop start) s.fAllOk)).Accounted check := by
  have hlen : (s.queue.drop start).length = s.queue.length - start := length_drop
  have hsum : inHand (update s.pc t (.exec (s.queue.drop start) s.fAllOk)) =
      inHand s.pc + (s.queue.drop start).length := inHand_update hpc
  have hheld : heldBy (update s.pc t (.exec (s.queue.drop start) s.fAllOk)) =
      heldBy s.pc + s.queue.drop start := (add_zero _).symm.trans (heldBy_update hpc)
  have htodo := h.todo
  have hbound := h.bound
  constructor
  case proper =>
    refine proper_update h.proper fun h0 => ?_
    have h0 : (s.queue.drop start).length = 0 := h0
    omega
  case todo =>
    simp only [State.setPc, hsum, length_take]
    omega
  case bound =>
    simp only [State.setPc, hsum, length_take]
    omega
  case account =>
    have hqueue : ((s.queue.take start : List κ) : Multiset κ) + s.queue.drop start = s.queue := by
      rw [Multiset.coe_add, take_append_drop]
    simp only [State.setPc, hheld]
    rw [h.account, ← hqueue]
    simp only [add_assoc, add_left_comm, add_comm]
  case verdict =>
    have hverdict := h.verdict
    rw [exists_failed t, hpc] at hverdict
    simp only [State.setPc]
    rw [exists_failed_update, ← hverdict]
    cases s.fAllOk <;> simp [Pc.failed]
  case skipped => exact h.skipped
  case master =>
    intro hwaiting
    rw [(h.master (waiting_of_update rfl hwaiting)).1] at hstart
    exact absurd hstart (Nat.not_lt_zero start)

theorem Accounted.sleep (hpc : s.pc t = .woken) (hmaster : t = none → s.queue = [] ∧ s.nTodo ≠ 0) :
    ({ s with nIdle := s.nIdle + 1 }.setPc t .waiting).Accounted check := by
  have hsame : (Pc.waiting : Pc κ).SameLoad (s.pc t) := hpc ▸ ⟨rfl, rfl, rfl⟩
  refine h.move (s.nIdle + 1) s.nTotal (sameLoad_update hsame) fun hwaiting => ?_
  rcases eq_or_ne t none with ht | hne
  · exact hmaster ht
  · rw [update_of_ne hne.symm] at hwaiting
    exact h.master hwaiting

omit [DecidableEq τ] in
/-- When `nTodo` is 0 without having wrapped around, nobody answers for a check. -/
theorem Accounted.settled (hsmall : s.added.card < 0x100000000) (htodo : s.nTodo = 0)
    (t : Option τ) : (s.pc t).nNow = 0 ∧ (s.pc t).held = [] ∧ (s.pc t).failed = false := by
  have hsum : inHand s.pc = 0 := by
    have h1 := h.todo
    have h2 := h.bound
    omega
  have ht : (s.pc t).nNow = 0 := Finset.sum_eq_zero_iff.mp hsum t (mem_univ t)
  exact ⟨ht, h.proper t ht⟩

/-- The queue starts anew when `Wait` returns. -/
theorem Accounted.return (hsmall : s.added.card < 0x100000000)
    (hqueue : s.queue = []) (htodo : s.nTodo = 0) (nTotal : Nat) :
    ({ s with nTotal := nTotal, fAllOk := true, added := 0, ran := 0, skipped := 0 }.setPc none
      .outside).Accounted
      check := by
  have hidle : ∀ t, (update s.pc none .outside t).nNow = 0 ∧
      (update s.pc none .outside t).held = [] ∧ (update s.pc none .outside t).failed = false := by
    intro t
    rcases eq_or_ne t none with rfl | hne
    · rw [update_self]
      exact ⟨rfl, rfl, rfl⟩
    · rw [update_of_ne hne]
      exact h.settled hsmall htodo t
  have hsum := inHand_eq_zero fun t => (hidle t).1
  have hheld := heldBy_eq_zero fun t => (hidle t).2.1
  constructor
  case proper => exact fun t _ => (hidle t).2
  case todo => simp [State.setPc, hqueue, htodo, hsum]
  case bound => simp [State.setPc, hqueue, hsum]
  case account => simp [State.setPc, hqueue, hheld]
  case verdict => simp [State.setPc, hidle, AnyFails]
  case skipped => exact fun hne => absurd rfl hne
  case master => simp [State.setPc, Pc.isWaiting]

/-- A thread executes its batch, and still answers for it. -/
theorem Accounted.execute (hpc : s.pc t = .exec vChecks fOk) :
    ({ s with
        ran := s.ran + (executeWork check fOk vChecks).ran
        skipped := s.skipped + (executeWork check fOk vChecks).skipped }.setPc t
      (.ready vChecks.length (executeWork check fOk vChecks).fOk)).Accounted check := by
  have hperm := executeWork_perm check fOk vChecks
  have hfOk := executeWork_fOk check fOk vChecks
  have hskipped := executeWork_skipped check fOk vChecks
  have hproper := h.proper t
  have hverdict := h.verdict
  rw [exists_failed t] at hverdict
  rw [hpc] at hproper hverdict
  generalize he : executeWork check fOk vChecks = e at hperm hfOk hskipped ⊢
  have hsum : inHand (update s.pc t (.ready vChecks.length e.fOk)) = inHand s.pc :=
    Nat.add_right_cancel (inHand_update hpc)
  have hheld : heldBy (update s.pc t (.ready vChecks.length e.fOk)) + vChecks = heldBy s.pc :=
    (heldBy_update hpc).trans (add_zero _)
  constructor
  case proper =>
    refine proper_update h.proper fun h0 => ⟨rfl, ?_⟩
    have hnil : vChecks = [] := List.length_eq_zero_iff.mp h0
    have hok : (!fOk) = false := (hproper h0).2
    rw [hnil] at he
    rw [← he]
    exact hok
  case todo => simpa only [State.setPc, hsum] using h.todo
  case bound => simpa only [State.setPc, hsum] using h.bound
  case account =>
    simp only [State.setPc]
    rw [h.account, ← hheld, ← hperm]
    simp [add_assoc, add_left_comm, add_comm]
  case verdict =>
    simp only [State.setPc]
    rw [exists_failed_update, anyFails_add, ← hverdict]
    have hnew : (Pc.ready vChecks.length e.fOk : Pc κ).failed = true ↔ fOk = false ∨
        AnyFails check e.ran := by
      rw [Pc.failed, Bool.not_eq_true', hfOk]
      rfl
    have hold : (Pc.exec vChecks fOk).failed = true ↔ fOk = false := by
      rw [Pc.failed, Bool.not_eq_true']
    rw [hnew, hold]
    simp [or_assoc, or_left_comm, or_comm]
  case skipped =>
    intro hne
    simp only [State.setPc] at hne ⊢
    rw [anyFails_add]
    rcases Multiset.empty_or_exists_mem s.skipped with h0 | ⟨c, hc⟩
    · have hrest : e.skipped ≠ [] := by
        rintro h1
        exact hne (by rw [h0, h1]; rfl)
      rcases hfOk.mp (hskipped hrest) with hbad | hany
      · exact Or.inl (hverdict.mp (Or.inr (Or.inl (by rw [hbad]; rfl))))
      · exact Or.inr hany
    · exact Or.inl (h.skipped (fun h0 => by rw [h0] at hc; exact Multiset.notMem_zero c hc))
  case master => exact fun hwaiting => h.master (waiting_of_update rfl hwaiting)

omit [DecidableEq τ] in
/-- Checks are appended while the master is awake. -/
theorem Accounted.enqueue (hmaster : (s.pc none).isWaiting = false) (vChecks : List κ) :
    { s with
      queue := s.queue ++ vChecks
      nTodo := (s.nTodo + vChecks.length) % 0x100000000
      added := s.added + vChecks }.Accounted check := by
  have htodo := h.todo
  have hbound := h.bound
  constructor
  case proper => exact h.proper
  case todo =>
    simp only [length_append]
    omega
  case bound =>
    simp only [length_append, Multiset.card_add, Multiset.coe_card]
    omega
  case account =>
    simp only [← Multiset.coe_add]
    rw [h.account]
    simp only [add_assoc, add_left_comm, add_comm]
  case verdict => exact h.verdict
  case skipped => exact h.skipped
  case master => exact fun hw => absurd hw (by rw [hmaster]; exact Bool.false_ne_true)

theorem Accounted.add (hpc : s.pc none = .outside) (vChecks : List κ) :
    (s.add vChecks).Accounted check := by
  unfold State.add
  split_ifs
  · exact h
  · exact Accounted.setPc (h.enqueue (by rw [hpc]; rfl) vChecks) hpc ⟨rfl, rfl, rfl⟩ rfl

omit [DecidableEq τ] in
theorem Accounted.notifyAll : s.notifyAll.Accounted check := by
  refine h.move s.nIdle s.nTotal (fun t => ?_) fun hw => h.master (by simpa using hw)
  split_ifs with hwaiting
  · rw [Pc.eq_waiting hwaiting.2]
    exact ⟨rfl, rfl, rfl⟩
  · exact ⟨rfl, rfl, rfl⟩

/-- Whoever `Add` notifies, the master has not moved. -/
theorem Accounted.notify {size : Nat} {worker : Option τ}
    (hnotify : (if size = 1 then s.notifyOne worker else some s.notifyAll) = some s') :
    s'.Accounted check ∧ s'.pc none = s.pc none := by
  split_ifs at hnotify
  · cases worker with
    | some w =>
      simp only [notifyOne] at hnotify
      split_ifs at hnotify with hwaiting
      cases hnotify
      exact ⟨h.wake hwaiting, update_of_ne (Option.some_ne_none w).symm .woken s.pc⟩
    | none =>
      simp only [notifyOne] at hnotify
      split_ifs at hnotify
      cases hnotify
      exact ⟨h, rfl⟩
  · cases hnotify
    exact ⟨h.notifyAll, by simp [State.notifyAll]⟩

theorem Accounted.look (hsmall : s.added.card < 0x100000000)
    (hpc : s.pc t = .woken) : (s.look nBatchSize t).1.Accounted check := by
  unfold State.look
  split_ifs with hqueue hreturn
  · obtain ⟨rfl, htodo⟩ := hreturn
    exact h.return hsmall (List.isEmpty_iff.mp hqueue) htodo _
  · exact h.sleep hpc fun ht => ⟨List.isEmpty_iff.mp hqueue, fun htodo => hreturn ⟨ht, htodo⟩⟩
  · exact h.take hpc (start_lt nBatchSize (fun hnil => hqueue (List.isEmpty_iff.mpr hnil)))

variable {nBatchSize}

/-- What a thread sees of the queue in its locked section: the state in which it looks at it. -/
theorem Accounted.lock {r : Option Bool} (hlock : s.lock nBatchSize t = some (s', r)) :
    ∃ m : State τ κ, m.Accounted check ∧ m.pc t = .woken ∧ m.added = s.added ∧ m.ran = s.ran ∧
      m.look nBatchSize t = (s', r) := by
  unfold State.lock at hlock
  split at hlock
  case h_1 n fOk hpc =>
    obtain ⟨hwoken, -, hadded, hran, -⟩ := cleanUp_spec s n
    exact ⟨s.cleanUp t n fOk, h.cleanUp hpc, hwoken, hadded, hran, Option.some.inj hlock⟩
  case h_2 hpc =>
    exact ⟨{ s with nIdle := s.nIdle - 1 }, h.move _ s.nTotal (fun _ => ⟨rfl, rfl, rfl⟩) h.master,
      hpc, rfl, rfl, Option.some.inj hlock⟩
  case h_3 => cases hlock

theorem Accounted.next {a : Action τ κ} (hsmall : s.added.card < 0x100000000)
    (hnext : s.next nBatchSize check a = some s') : s'.Accounted check := by
  cases a with
  | add vChecks =>
    simp only [State.next] at hnext
    split at hnext
    case h_1 hpc =>
      cases hnext
      exact h.add hpc vChecks
    case h_2 => cases hnext
  | notify worker =>
    simp only [State.next] at hnext
    split at hnext
    case h_1 size hpc =>
      obtain ⟨s₁, hs₁, rfl⟩ := Option.map_eq_some_iff.mp hnext
      obtain ⟨h₁, hsame⟩ := h.notify hs₁
      exact h₁.setPc (hsame.trans hpc) ⟨rfl, rfl, rfl⟩ rfl
    case h_2 => cases hnext
  | wait =>
    simp only [State.next] at hnext
    split at hnext
    case h_1 hpc =>
      cases hnext
      exact h.setPc hpc ⟨rfl, rfl, rfl⟩ rfl
    case h_2 => cases hnext
  | lock t =>
    obtain ⟨⟨s₁, r⟩, hs₁, rfl⟩ := Option.map_eq_some_iff.mp hnext
    obtain ⟨m, hm, hwoken, hadded, -, hlook⟩ := h.lock hs₁
    have hstate := hm.look nBatchSize (hadded ▸ hsmall) hwoken
    rwa [hlook] at hstate
  | execute t =>
    simp only [State.next] at hnext
    split at hnext
    case h_1 vChecks fOk hpc =>
      cases hnext
      exact h.execute hpc
    case h_2 => cases hnext
  | spuriousWake t =>
    simp only [State.next] at hnext
    split_ifs at hnext with hwaiting
    cases hnext
    exact h.wake hwaiting

end Steps

variable {nBatchSize}

/-- Fewer checks than an `unsigned int` can count were added since `Wait` last returned. -/
def Countable (s : State τ κ) : Prop := s.added.card < 0x100000000

theorem accounted (h : Reachable (State.next nBatchSize check) Countable init s) :
    s.Accounted check ∧ s.Countable :=
  h.invariant (fun s => s.Accounted check ∧ s.Countable) ⟨Accounted.init, Nat.two_pow_pos 32⟩
    fun _ _ _ hs hnext hallowed => ⟨hs.1.next hs.2 hnext, hallowed⟩

/-! ## What `Wait` returns -/

omit [Fintype τ] in
/-- `Loop` returns when the master finds nothing to do. -/
theorem look_returns {b : Bool} (h : s.look nBatchSize t = (s', some b)) :
    s.queue = [] ∧ s.nTodo = 0 ∧ b = s.fAllOk ∧ s'.queue = [] ∧ s'.nTodo = 0 ∧
    s'.fAllOk = true := by
  unfold look at h
  split_ifs at h with hqueue hreturn
  · cases h
    exact ⟨List.isEmpty_iff.mp hqueue, hreturn.2, rfl, List.isEmpty_iff.mp hqueue, hreturn.2, rfl⟩
  · cases h
  · cases h

omit [DecidableEq τ] in
/-- Once nobody answers for a check, `fAllOk` is the conjunction of all results; and if it
holds, no check was gone past. -/
theorem Accounted.conclude (h : s.Accounted check) (hsmall : s.Countable) (hqueue : s.queue = [])
    (htodo : s.nTodo = 0) :
    (s.fAllOk = true ↔ ∀ c ∈ s.added, check c = true) ∧ (s.fAllOk = true → s.ran = s.added) := by
  have hsettled := h.settled hsmall htodo
  have hadded : s.added = s.ran + s.skipped := by
    have haccount := h.account
    rwa [hqueue, heldBy_eq_zero fun t => (hsettled t).2.1, Multiset.coe_nil, add_zero,
      zero_add] at haccount
  have hverdict : s.fAllOk = false ↔ AnyFails check s.ran := by
    rw [← h.verdict]
    simp [(hsettled _).2.2]
  have hran : s.fAllOk = true → s.ran = s.added := by
    intro hok
    have hnone : ¬ AnyFails check s.ran := by
      rw [← hverdict, hok]
      exact Bool.noConfusion
    rw [hadded, not_not.mp (mt h.skipped hnone), add_zero]
  refine ⟨⟨fun hok c hc => ?_, fun hall => ?_⟩, hran⟩
  · rw [← hran hok] at hc
    by_contra hbad
    rw [hverdict.mpr ⟨c, hc, Bool.eq_false_of_not_eq_true hbad⟩] at hok
    cases hok
  · by_contra hbad
    obtain ⟨c, hc, hfail⟩ := hverdict.mp (Bool.eq_false_of_not_eq_true hbad)
    rw [hall c (hadded ▸ Multiset.mem_add.mpr (Or.inl hc))] at hfail
    cases hfail

theorem can_go_on {nBatchSize : Nat} {check : κ → Bool} (h : (s.pc t).nNow ≠ 0) :
    (s.next nBatchSize check (.lock t)).isSome ∨ (s.next nBatchSize check (.execute t)).isSome := by
  cases hpc : s.pc t with
  | ready n fOk => exact Or.inl (by simp only [State.next, lock, hpc]; rfl)
  | exec vChecks fOk => exact Or.inr (by simp only [State.next, hpc]; rfl)
  | outside | notifying | waiting | woken =>
    rw [hpc] at h
    exact absurd rfl h

/-- While the master is in `Wait`, it can go on, or a worker that it waits for can. -/
theorem Accounted.not_deadlocked (h : s.Accounted check) (hwait : s.inWait) :
    ∃ t, (s.next nBatchSize check (.lock t)).isSome ∨
    (s.next nBatchSize check (.execute t)).isSome := by
  cases hpc : s.pc none with
  | outside | notifying =>
    simp only [inWait, hpc] at hwait
  | ready n fOk => exact ⟨none, Or.inl (by simp only [State.next, State.lock, hpc]; rfl)⟩
  | woken => exact ⟨none, Or.inl (by simp only [State.next, State.lock, hpc]; rfl)⟩
  | exec vChecks fOk => exact ⟨none, Or.inr (by simp only [State.next, hpc]; rfl)⟩
  | waiting =>
    obtain ⟨hqueue, htodo⟩ := h.master (by rw [hpc]; rfl)
    have hsum : inHand s.pc ≠ 0 := by
      intro h0
      rw [h.todo, hqueue, h0] at htodo
      exact htodo rfl
    obtain ⟨t, -, ht⟩ := exists_ne_zero_of_sum_ne_zero hsum
    exact ⟨t, can_go_on ht⟩

theorem wait_correct (nBatchSize : Nat) (check : κ → Bool)
    (h : Reachable (State.next nBatchSize check) Countable init s) :
    (∀ s' b, s.lock nBatchSize none = some (s', some b) →
      (b = true ↔ ∀ c ∈ s.added, check c = true) ∧ s'.queue = [] ∧ s'.nTodo = 0 ∧ s'.fAllOk = true ∧
        (b = true → s.ran = s.added)) ∧
    (s.inWait → ∃ t, (s.next nBatchSize check (.lock t)).isSome ∨
        (s.next nBatchSize check (.execute t)).isSome) := by
  obtain ⟨haccounted, hsmall⟩ := accounted h
  refine ⟨fun s' b hlock => ?_, haccounted.not_deadlocked⟩
  obtain ⟨m, hm, -, hadded, hran, hlook⟩ := haccounted.lock hlock
  obtain ⟨hqueue, htodo, rfl, hqueue', htodo', hok'⟩ := look_returns hlook
  have hconclude := hm.conclude (by rw [Countable, hadded]; exact hsmall) hqueue htodo
  rw [hadded, hran] at hconclude
  exact ⟨hconclude.1, hqueue', htodo', hok', hconclude.2⟩

/-- A worker that waited executes one of two checks, and the master the other one. -/
theorem wait_correct_shared : ∃ s s' : State (Fin 1) Bool,
    Reachable (State.next 128 id) Countable init s ∧ s.lock 128 none = some (s', some true) ∧
      s.inWait ∧ s.ran = s.added ∧ s'.nTodo = 0 ∧
      ∃ t, (s.next 128 id (.lock t)).isSome ∨ (s.next 128 id (.execute t)).isSome := by
  have hnone : (0 : Multiset Bool).card < 0x100000000 := by decide
  have htwo : ({true, true} : Multiset Bool).card < 0x100000000 := by decide
  have h₁ : Reachable (State.next 128 id) Countable (init : State (Fin 1) Bool) _ :=
    .step (a := .lock (some 0)) .init rfl (by exact hnone)
  have h₂ := h₁.step (a := .add [true, true]) rfl (by exact htwo)
  have h₃ := h₂.step (a := .notify none) rfl (by exact htwo)
  have h₄ := h₃.step (a := .lock (some 0)) rfl (by exact htwo)
  have h₅ := h₄.step (a := .wait) rfl (by exact htwo)
  have h₆ := h₅.step (a := .lock none) rfl (by exact htwo)
  have h₇ := h₆.step (a := .execute (some 0)) rfl (by exact htwo)
  have h₈ := h₇.step (a := .execute none) rfl (by exact htwo)
  have h₉ := h₈.step (a := .lock (some 0)) rfl (by exact htwo)
  obtain ⟨hreturn, hprogress⟩ := wait_correct 128 id h₉
  obtain ⟨-, -, htodo, -, hran⟩ := hreturn _ true rfl
  exact ⟨_, _, h₉, rfl, trivial, hran rfl, htodo, hprogress trivial⟩

/-! ## Where `nTodo` wraps around -/

/-- States of a run in which `Wait` has not returned, so that they are accounted for whatever
the number of checks. -/
def Reached (nBatchSize : Nat) (check : κ → Bool) (s : State τ κ) : Prop :=
  Reachable (State.next nBatchSize check) (fun _ => True) init s ∧ s.Accounted check

omit [Fintype τ] in
theorem setPc_self {s : State τ κ} {p : Pc κ} : (s.setPc t p).pc t = p := by
  simp [setPc]

omit [Fintype τ] in
theorem cleanUp_master (s : State τ κ) (n : Nat) :
    (s.cleanUp none n fOk).pc = update s.pc none .woken ∧
      (fOk = true → (s.cleanUp none n fOk).fAllOk = s.fAllOk) := by
  simp only [cleanUp]
  split_ifs with hn hlast
  · exact absurd rfl hlast.2
  · exact ⟨rfl, fun hok => by simp [foldIn, setPc, hok]⟩
  · exact ⟨rfl, fun _ => rfl⟩

variable (h : s.Reached nBatchSize check)
include h

/-- The master adds a batch while no worker is waiting. -/
theorem Reached.add (hpc : s.pc none = .outside)
    (hworkers : ∀ w, (s.pc (some w)).isWaiting = false) (hsize : 1 < vChecks.length) :
    Reached nBatchSize check { s with
      queue := s.queue ++ vChecks
      nTodo := (s.nTodo + vChecks.length) % 0x100000000
      added := s.added + vChecks } := by
  have hne : vChecks.isEmpty = false := by
    cases vChecks with
    | nil => cases hsize
    | cons c cs => rfl
  have hadd : s.next nBatchSize check (.add vChecks) = some (s.add vChecks) := by
    simp only [State.next, hpc]
  refine ⟨(h.1.step hadd trivial).step (a := .notify none) ?_ trivial,
    h.2.enqueue (by rw [hpc]; rfl) vChecks⟩
  -- Nobody is woken, and the master is back outside.
  have hback :
      (fun t => if t ≠ none ∧ (update s.pc none (.notifying vChecks.length) t).isWaiting then .woken
      else update s.pc none (.notifying vChecks.length) t) =
        update s.pc none (.notifying vChecks.length) := by
    funext t
    cases t with
    | none => simp
    | some w => simp [hworkers]
  simp [State.next, State.add, hne, State.setPc, if_neg hsize.ne', State.notifyAll, hback, ← hpc]

theorem Reached.start {w : τ} (hpc : s.pc (some w) = .ready 0 true)
    (hn : n = max 1 (min nBatchSize (s.queue.length % 0x100000000 / (s.nTotal + 1 + s.nIdle + 1))))
    (hqueue : s.queue ≠ []) :
    Reached nBatchSize check
      ({ s with nTotal := s.nTotal + 1, queue := s.queue.take (s.queue.length - n) }.setPc (some w)
      (.exec (s.queue.drop (s.queue.length - n)) s.fAllOk)) := by
  have hempty : s.queue.isEmpty = false := List.isEmpty_eq_false_iff.mpr hqueue
  have hstart : s.queue.length - n < s.queue.length :=
    Nat.sub_lt (List.length_pos_iff.mpr hqueue)
      (hn ▸ Nat.lt_of_lt_of_le Nat.one_pos (Nat.le_max_left 1 _))
  refine ⟨h.1.step (a := .lock (some w)) ?_ trivial, ?_⟩
  · simp [State.next, lock, hpc, cleanUp, look, setPc, nNow, hempty, ← hn]
  · have htake := (h.2.cleanUp hpc).take (cleanUp_spec s 0).1 hstart
    simpa only [cleanUp, setPc, ne_eq, not_true, if_false, update_idem] using htake

/-- The master adds a batch and a worker starts. -/
theorem Reached.load (hpc : s.pc none = .outside)
    (hworkers : ∀ w, (s.pc (some w)).isWaiting = false) {w : τ} (hw : s.pc (some w) = .ready 0 true)
    (hsize : 1 < vChecks.length) {d : Nat} (hd : s.nTotal + 1 + s.nIdle + 1 = d)
    (hn : n = max 1 (min nBatchSize ((s.queue.length + vChecks.length) % 0x100000000 / d)))
    (hle : n ≤ s.queue.length + vChecks.length) :
    ∃ (s' : State τ κ) (batch : List κ), s'.Reached nBatchSize check ∧
      s'.queue = (s.queue ++ vChecks).take (s.queue.length + vChecks.length - n) ∧
      s'.queue.length = s.queue.length + vChecks.length - n ∧
        (∀ x, (s'.pc (some x)).isWaiting = false) ∧
      s'.pc = update s.pc (some w) (.exec batch s.fAllOk) ∧ batch.length = n ∧
      s'.nTotal = s.nTotal + 1 ∧ s'.nIdle = s.nIdle ∧ s'.fAllOk = s.fAllOk ∧
        s'.added = s.added + vChecks := by
  have hlen : (s.queue ++ vChecks).length = s.queue.length + vChecks.length := length_append
  have hne : s.queue ++ vChecks ≠ [] := List.length_pos_iff.mp (by omega)
  have hstarted := (h.add hpc hworkers hsize).start hw (n := n) (by rw [hlen, hd, hn]) hne
  refine ⟨_, _, hstarted, by rw [← hlen]; rfl, ?_, fun x => ?_, rfl,
    by rw [length_drop, hlen]; omega, rfl, rfl, rfl, rfl⟩
  · simp only [setPc, length_take, hlen]
    omega
  · rcases eq_or_ne x w with rfl | hx
    · rw [setPc_self]
      rfl
    · simp [setPc, update_of_ne (fun h => hx (Option.some.inj h)), hworkers]

section

variable (hpc : s.pc none = .ready n true)
include hpc

theorem Reached.round (hok : s.fAllOk = true) (hall : ∀ c ∈ s.queue, check c = true)
    (hqueue : s.queue ≠ []) :
    ∃ (s' : State τ κ) (n' : Nat), s'.Reached nBatchSize check ∧
    s'.pc = update s.pc none (.ready n' true) ∧
      s'.fAllOk = true ∧ s'.added = s.added ∧ (∀ c ∈ s'.queue, c ∈ s.queue) ∧
      s'.queue.length < s.queue.length := by
  obtain ⟨hwoken, hq, hadded, -, -⟩ := cleanUp_spec s n
  obtain ⟨hcpc, hcok⟩ := cleanUp_master s n
  have hmid := h.2.cleanUp hpc
  generalize hm : s.cleanUp none n true = m at *
  have hempty : m.queue.isEmpty = false := by
    rw [hq, isEmpty_eq_false_iff]
    exact hqueue
  have hstart := start_lt nBatchSize (s := m) (hq ▸ hqueue)
  have hlock : s.next nBatchSize check (.lock none) =
      some ({ m with queue := m.queue.take (m.queue.length - m.nNow nBatchSize) }.setPc none
        (.exec (m.queue.drop (m.queue.length - m.nNow nBatchSize)) m.fAllOk)) := by
    simp [State.next, lock, hpc, hm, look, hempty]
  have htake := hmid.take hwoken hstart
  generalize hbatch : m.queue.drop (m.queue.length - m.nNow nBatchSize) = batch at hlock htake
  have hgood : (executeWork check true batch).fOk = true := by
    rw [← Bool.not_eq_false, executeWork_fOk]
    rintro (hbad | ⟨c, hc, hfail⟩)
    · cases hbad
    · have hcb : c ∈ (batch : Multiset κ) := by
        rw [← executeWork_perm check true batch]
        exact Multiset.mem_add.mpr (Or.inl hc)
      rw [hall c (hq ▸ mem_of_mem_drop (hbatch ▸ hcb))] at hfail
      cases hfail
  rw [hcok rfl, hok] at hlock htake
  have hexec := htake.execute setPc_self
  rw [hgood] at hexec
  refine ⟨_, batch.length, ⟨(h.1.step hlock trivial).step (a := .execute none) ?_ trivial, hexec⟩,
    ?_, ?_, hadded, ?_, ?_⟩
  · simp [State.next, setPc, hgood]
  · simp [setPc, hcpc]
  · rfl
  · exact fun c hc => hq ▸ mem_of_mem_take hc
  · simp only [setPc, length_take]
    rw [hq] at hstart ⊢
    exact Nat.lt_of_le_of_lt (Nat.min_le_left _ _) hstart

/-- The master empties the queue while the workers do nothing. -/
theorem Reached.drain (hok : s.fAllOk = true) (hall : ∀ c ∈ s.queue, check c = true) :
    ∃ (s' : State τ κ) (n' : Nat), s'.Reached nBatchSize check ∧
    s'.pc = update s.pc none (.ready n' true) ∧
      s'.fAllOk = true ∧ s'.added = s.added ∧ s'.queue = [] := by
  -- Each round shortens the queue.
  induction hlen : s.queue.length using Nat.strong_induction_on generalizing s n with
  | _ len ih =>
    rcases eq_or_ne s.queue [] with hqueue | hqueue
    · exact ⟨s, n, h, by rw [← hpc, update_eq_self], hok, rfl, hqueue⟩
    · obtain ⟨s₁, n₁, h₁, hpc₁, hok₁, hadded₁, hmem₁, hlt⟩ := h.round hpc hok hall hqueue
      obtain ⟨s', n', h', hpc', hok', hadded', hqueue'⟩ :=
          ih _ (hlen ▸ hlt) h₁ (by rw [hpc₁, update_self]) hok₁
        (fun c hc => hall c (hmem₁ c hc)) rfl
      exact ⟨s', n', h', by rw [hpc', hpc₁, update_idem], hok', hadded'.trans hadded₁, hqueue'⟩

/-- Where the workers answer for a multiple of `2 ^ 32` checks and the queue is empty, `Wait`
returns. -/
theorem Reached.returns (hok : s.fAllOk = true) (hqueue : s.queue = [])
    (hwrap : (∑ w, (s.pc (some w)).nNow) % 0x100000000 = 0) :
    ∃ s', s.lock nBatchSize none = some (s', some true) := by
  obtain ⟨-, hq, -⟩ := cleanUp_spec s n
  obtain ⟨hcpc, hcok⟩ := cleanUp_master s n
  have htodo : (s.cleanUp none n true).nTodo = 0 := by
    rw [(h.2.cleanUp hpc).todo, hq, hqueue, hcpc, inHand, Fintype.sum_option, update_self]
    simpa [Pc.nNow] using hwrap
  have hempty : (s.cleanUp none n true).queue.isEmpty = true := by
    rw [hq, hqueue]
    rfl
  have hlook : ((s.cleanUp none n true).look nBatchSize none).2 = some true := by
    simp [State.look, hempty, htodo, hcok rfl, hok]
  refine ⟨((s.cleanUp none n true).look nBatchSize none).1, ?_⟩
  simp only [State.lock, hpc]
  exact congrArg some (Prod.ext rfl hlook)

end

end State

end Model

/-- Three workers hold `2 ^ 32` checks when the master finds the queue empty, one of which
will fail: `Wait` returns true. -/
theorem State.nTodo_wraps : ∃ s s' : State (Fin 3) Bool,
    Reachable (State.next 0x7fffffff id) (fun _ => True) State.init s ∧
      s.lock 0x7fffffff none = some (s', some true) ∧ false ∈ s.added := by
  have hinit : (State.init : State (Fin 3) Bool).Reached 0x7fffffff id := ⟨.init, .init⟩
  have hlast : 1 < ([true, true, true, true, true, false] : List Bool).length := by decide
  generalize hC : ([true, true, true, true, true, false] : List Bool) = C at hlast
  have hCsize : C.length = 6 := by rw [← hC]; rfl
  have hCmem : false ∈ C := by rw [← hC]; decide
  obtain ⟨A, hAsize, hAgood⟩ : ∃ A : List Bool, A.length = 0xfffffffe ∧ ∀ c ∈ A, id c = true :=
    ⟨List.replicate 0xfffffffe true, length_replicate, fun c hc => eq_of_mem_replicate hc⟩
  obtain ⟨B, hBsize, hBgood⟩ : ∃ B : List Bool, B.length = 0x80000000 ∧ ∀ c ∈ B, id c = true :=
    ⟨List.replicate 0x80000000 true, length_replicate, fun c hc => eq_of_mem_replicate hc⟩
  -- The first worker takes half of a queue of `2 ^ 32 - 2`.
  obtain ⟨s₁, X, h₁, hq₁, hlen₁, hwork₁, hpc₁, hX, htot₁, hidle₁, hok₁, -⟩ :=
      hinit.load (w := 0) (n := 0x7fffffff)
    (d := 2) rfl (fun _ => rfl) rfl (show 1 < A.length by omega) rfl (by rw [hAsize]; decide)
      (by rw [hAsize]; decide)
  have hlen₁ : s₁.queue.length = 0x7fffffff := by
    rw [hlen₁, hAsize]
    rfl
  -- The second takes a third of one of `2 ^ 32 - 1`.
  obtain ⟨s₂, Y, h₂, hq₂, hlen₂, hwork₂, hpc₂, hY, htot₂, hidle₂, hok₂, -⟩ :=
      h₁.load (w := 1) (n := 0x55555555) (d := 3)
    (by rw [hpc₁]; rfl) hwork₁ (by rw [hpc₁]; rfl) (show 1 < B.length by omega)
      (by rw [htot₁, hidle₁]; rfl)
    (by rw [hlen₁, hBsize]; decide) (by rw [hlen₁, hBsize]; decide)
  have hlen₂ : s₂.queue.length = 0xaaaaaaaa := by rw [hlen₂, hlen₁, hBsize]
  -- The third takes a quarter of what is there then, with the check that fails.
  obtain ⟨s₃, Z, h₃, hq₃, -, -, hpc₃, hZ, -, -, hok₃, hadded₃⟩ :=
      h₂.load (w := 2) (n := 0x2aaaaaac) (d := 4)
    (by rw [hpc₂, hpc₁]; rfl) hwork₂ (by rw [hpc₂, hpc₁]; rfl) hlast
      (by rw [htot₂, htot₁, hidle₂, hidle₁]; rfl)
    (by rw [hlen₂, hCsize]; decide) (by rw [hlen₂, hCsize]; decide)
  have hgood₃ : ∀ c ∈ s₃.queue, id c = true := by
    intro c hc
    rw [hq₃, take_append_of_le_length (by omega)] at hc
    have hc₂ := mem_of_mem_take hc
    rw [hq₂] at hc₂
    rcases List.mem_append.mp (mem_of_mem_take hc₂) with hc₁ | hcB
    · rw [hq₁] at hc₁
      exact hAgood c (mem_of_mem_take hc₁)
    · exact hBgood c hcB
  -- The master joins, empties the queue and finds `nTodo` at 0.
  have hout : s₃.pc none = .outside := by rw [hpc₃, hpc₂, hpc₁]; rfl
  have hwait : s₃.next 0x7fffffff id .wait = some (s₃.setPc none (.ready 0 true)) := by
    simp only [State.next, hout]
  have h₄ : (s₃.setPc none (.ready 0 true)).Reached 0x7fffffff id :=
    ⟨h₃.1.step hwait trivial, h₃.2.setPc hout ⟨rfl, rfl, rfl⟩ rfl⟩
  have hok₄ : s₃.fAllOk = true := by rw [hok₃, hok₂, hok₁]; rfl
  obtain ⟨s₅, n, h₅, hpc₅, hok₅, hadded₅, hq₅⟩ := h₄.drain setPc_self hok₄ hgood₃
  obtain ⟨s₆, hreturn⟩ := h₅.returns (by rw [hpc₅, update_self]) hok₅ hq₅ (by
    rw [hpc₅, Fin.sum_univ_three]
    simp only [State.setPc, hpc₃, hpc₂, hpc₁]
    simp [Pc.nNow, hX, hY, hZ])
  refine ⟨s₅, s₆, h₅.1, hreturn, ?_⟩
  rw [hadded₅]
  exact hadded₃ ▸ Multiset.mem_add.mpr (Or.inr hCmem)

end Bitcoboost.CheckQueue
