import Bitcoboost.Lib.Reachable
import Mathlib.Data.List.Basic

/-!
# Callbacks that run one at a time

`SingleThreadedSchedulerClient` of `scheduler.cpp`, over the queue of `CScheduler`. Any
number of threads service the queue, and others append callbacks; a step is one locked
section, or a call or return of a function that was passed in.

`ProcessQueue` can be in the queue more than once. What keeps the callbacks apart is the flag
`m_are_callbacks_running`: one thread at most is between setting and clearing it (`Owned`).
-/

namespace Bitcoboost.Scheduler

open List Option Function

/-- A function in the queue of the scheduler. -/
inductive Task where
  | processQueue
  | other
deriving DecidableEq

/-- A call that a thread is in, and how far it is. -/
inductive Frame (κ : Type) where
  /-- Another function of the queue. -/
  | task
  /-- `ProcessQueue` before its locked section. -/
  | processQueue
  /-- `ProcessQueue` has the callback and will call it. -/
  | taken (callback : κ)
  | running (callback : κ)
  /-- The callback returned or threw, and `~RAIICallbacksRunning` is next. -/
  | ended
  /-- `MaybeScheduleProcessQueue` before its locked section. -/
  | maybeSchedule
  /-- `MaybeScheduleProcessQueue` has found that it should schedule. -/
  | schedule
  /-- An exception leaves `serviceQueue`. -/
  | unwinding
deriving DecidableEq

/-- The scheduler and the client. `appended` and `started` are the callbacks that were passed
to `AddToProcessQueue` and those that were called, in order. -/
structure State (τ κ : Type) where
  taskQueue : List (Int × Task)
  callbacksPending : List κ
  areCallbacksRunning : Bool
  servicing : τ → Bool
  frames : τ → List (Frame κ)
  appended : List κ
  started : List κ

inductive Action (τ κ : Type) where
  | addToProcessQueue (t : τ) (func : κ)
  | scheduleOther (t : τ) (time : Int)
  | serviceQueue (t : τ)
  | processQueue (t : τ)
  | call (t : τ)
  | finish (t : τ) (threw : Bool)
  | callbacksDone (t : τ)
  | maybeScheduleProcessQueue (t : τ)
  | schedule (t : τ) (time : Int)
  | leave (t : τ)

/-- `taskQueue.insert`: among equal times the new task is the last. -/
def insertTask (time : Int) (task : Task) : List (Int × Task) → List (Int × Task)
  | [] => [(time, task)]
  | first :: rest => if time < first.1 then (time, task) :: first :: rest
      else first :: insertTask time task rest

namespace State

variable {τ κ : Type} [DecidableEq τ]

/-- The calls of one thread change. -/
def setFrames (s : State τ κ) (t : τ) (frames : List (Frame κ)) : State τ κ :=
  { s with frames := update s.frames t frames }

/-- The thread is in a function that was passed in, or outside the scheduler. -/
def inUserCode (s : State τ κ) (t : τ) : Bool :=
  match s.frames t with
  | [] => !s.servicing t
  | .task :: _ => true
  | .running _ :: _ => true
  | _ => false

/-- One step, if the thread can take it. -/
def next (s : State τ κ) : Action τ κ → Option (State τ κ)
  | .addToProcessQueue t func =>
    if s.inUserCode t then
      some { s.setFrames t (.maybeSchedule :: s.frames t) with
        callbacksPending := s.callbacksPending ++ [func], appended := s.appended ++ [func] }
    else none
  | .scheduleOther t time =>
    if s.inUserCode t then some { s with taskQueue := insertTask time .other s.taskQueue } else none
  -- the first task leaves the queue and is called without the lock
  | .serviceQueue t =>
    match s.frames t, s.servicing t, s.taskQueue with
    | [], true, (_, .processQueue) :: rest =>
        some { s.setFrames t [.processQueue] with taskQueue := rest }
    | [], true, (_, .other) :: rest => some { s.setFrames t [.task] with taskQueue := rest }
    | _, _, _ => none
  | .processQueue t =>
    match s.frames t with
    | .processQueue :: frames =>
      if s.areCallbacksRunning then some (s.setFrames t frames)
      else
        match s.callbacksPending with
        | [] => some (s.setFrames t frames)
        | callback :: rest =>
          some { s.setFrames t (.taken callback :: frames) with
            areCallbacksRunning := true, callbacksPending := rest }
    | _ => none
  | .call t =>
    match s.frames t with
    | .taken callback :: frames =>
      some { s.setFrames t (.running callback :: frames) with started := s.started ++ [callback] }
    | _ => none
  | .finish t threw =>
    match s.frames t with
    | .task :: frames => some (s.setFrames t (if threw then .unwinding :: frames else frames))
    | .running _ :: frames =>
      some (s.setFrames t (.ended :: if threw then .unwinding :: frames else frames))
    | _ => none
  | .callbacksDone t =>
    match s.frames t with
    | .ended :: frames =>
      some { s.setFrames t (.maybeSchedule :: frames) with areCallbacksRunning := false }
    | _ => none
  | .maybeScheduleProcessQueue t =>
    match s.frames t with
    | .maybeSchedule :: frames =>
      if s.areCallbacksRunning ∨ s.callbacksPending.isEmpty then some (s.setFrames t frames)
      else some (s.setFrames t (.schedule :: frames))
    | _ => none
  | .schedule t time =>
    match s.frames t with
    | .schedule :: frames =>
      some { s.setFrames t frames with taskQueue := insertTask time .processQueue s.taskQueue }
    | _ => none
  | .leave t =>
    match s.frames t with
    | .unwinding :: frames =>
      some { s.setFrames t frames with servicing := update s.servicing t false }
    | _ => none

structure IsInitial (s : State τ κ) : Prop where
  callbacksPending : s.callbacksPending = []
  areCallbacksRunning : s.areCallbacksRunning = false
  frames : ∀ t, s.frames t = []
  appended : s.appended = []
  started : s.started = []

end State

/-! ## Who runs a callback -/

namespace Frame

variable {κ : Type}

/-- The thread has set `m_are_callbacks_running` and not cleared it. -/
def isCritical : Frame κ → Bool
  | .taken _ => true
  | .running _ => true
  | .ended => true
  | _ => false

/-- The thread will look at the pending callbacks, or has decided to schedule. -/
def willLook : Frame κ → Bool
  | .processQueue => true
  | .maybeSchedule => true
  | .schedule => true
  | _ => false

def taken? : Frame κ → Option κ
  | .taken callback => some callback
  | _ => none

def isRunning : Frame κ → Bool
  | .running _ => true
  | _ => false

end Frame

section Owned

variable {τ κ : Type} [DecidableEq τ] {frames : τ → List (Frame κ)} {owner : Option τ} {t : τ}
  {fs old : List (Frame κ)}

/-- The owner is in one critical call and no other thread is in any. -/
def Owned (frames : τ → List (Frame κ)) (owner : Option τ) : Prop :=
  ∀ t, (frames t).countP Frame.isCritical = if owner = some t then 1 else 0

theorem Owned.owner_eq (h : Owned frames owner) {frame : Frame κ} (hmem : frame ∈ frames t)
    (hcritical : frame.isCritical = true) : owner = some t := by
  by_contra hne
  have hnone := h t
  rw [if_neg hne, countP_eq_zero] at hnone
  exact hnone frame hmem hcritical

theorem Owned.update (h : Owned frames owner) {owner' : Option τ}
    (hothers : ∀ u ≠ t, owner' = some u ↔ owner = some u)
    (hself : fs.countP Frame.isCritical = if owner' = some t then 1 else 0) :
    Owned (update frames t fs) owner' := by
  intro u
  by_cases hu : u = t
  · subst hu
    rw [update_self, hself]
  · rw [update_of_ne hu, h u]
    simp only [hothers u hu]

theorem Owned.same (h : Owned frames owner) (hframes : frames t = old)
    (hcount : fs.countP Frame.isCritical = old.countP Frame.isCritical) :
    Owned (Function.update frames t fs) owner :=
  h.update (fun _ _ => Iff.rfl) (hcount.trans (hframes ▸ h t))

end Owned

section Noticed

variable {τ κ : Type} [DecidableEq τ] {taskQueue : List (Int × Task)} {frames : τ → List (Frame κ)}
  {t : τ} {frame : Frame κ}
  {fs rest : List (Frame κ)}

/-- A pending callback will be noticed: `ProcessQueue` is scheduled or about to look, or a thread
is about to schedule it. -/
def Noticed (taskQueue : List (Int × Task)) (frames : τ → List (Frame κ)) : Prop :=
  (∃ time, (time, Task.processQueue) ∈ taskQueue) ∨ ∃ t, ∃ frame ∈ frames t, frame.willLook = true

/-- A thread that replaces a call which does not look changes nothing for the others. -/
theorem Noticed.update (h : Noticed taskQueue frames) (hframes : frames t = frame :: rest)
    (hlook : frame.willLook = false)
    (hsub : rest ⊆ fs) : Noticed taskQueue (update frames t fs) := by
  rcases h with htask | ⟨u, f, hmem, hf⟩
  · exact .inl htask
  · refine .inr ⟨u, f, ?_, hf⟩
    by_cases hu : u = t
    · subst hu
      rw [hframes, mem_cons] at hmem
      have hne : f ≠ frame := fun heq => Bool.noConfusion (hlook.symm.trans (heq ▸ hf))
      rw [update_self]
      exact hsub (hmem.resolve_left hne)
    · rw [update_of_ne hu]
      exact hmem

theorem noticed_of_frame (hlook : frame.willLook = true) :
    Noticed taskQueue (update frames t (frame :: rest)) :=
  .inr ⟨t, frame, by rw [update_self]; exact mem_cons_self, hlook⟩

theorem mem_insertTask {time : Int} {task : Task} {entry : Int × Task} :
    entry ∈ insertTask time task taskQueue ↔ entry = (time, task) ∨ entry ∈ taskQueue := by
  induction taskQueue with
  | nil => simp [insertTask]
  | cons first queue ih =>
    unfold insertTask
    split
    · exact mem_cons
    · rw [mem_cons, ih, mem_cons, or_left_comm]

end Noticed

namespace State

variable {τ κ : Type} [DecidableEq τ] {s s' : State τ κ} {owner : Option τ} {t : τ}
  {frame : Frame κ} {fs old rest : List (Frame κ)}

/-- The callbacks that were taken and not started. -/
def inTransit (frames : τ → List (Frame κ)) (owner : Option τ) : List κ :=
  owner.elim [] fun t => (frames t).filterMap Frame.taken?

/-- What holds of the client when `owner` runs its callbacks. -/
structure Invariant (s : State τ κ) (owner : Option τ) : Prop where
  running : s.areCallbacksRunning = owner.isSome
  owned : Owned s.frames owner
  order : s.appended = s.started ++ inTransit s.frames owner ++ s.callbacksPending
  noticed : s.callbacksPending ≠ [] → s.areCallbacksRunning = false → Noticed s.taskQueue s.frames

theorem inTransit_update {frames : τ → List (Frame κ)} (fs : List (Frame κ))
    (hframes : frames t = old) (htaken : fs.filterMap Frame.taken? = old.filterMap Frame.taken?) :
    inTransit (update frames t fs) owner = inTransit frames owner := by
  cases owner with
  | none => rfl
  | some u =>
    by_cases hu : u = t
    · subst hu
      rw [inTransit, elim_some, update_self, htaken, ← hframes]
      rfl
    · rw [inTransit, elim_some, update_of_ne hu]
      rfl

theorem Invariant.setFrames (h : s.Invariant owner) (fs : List (Frame κ))
    (hframes : s.frames t = old) (hcount : fs.countP Frame.isCritical = old.countP Frame.isCritical)
    (htaken : fs.filterMap Frame.taken? = old.filterMap Frame.taken?)
    (hnoticed : s.callbacksPending ≠ [] → s.areCallbacksRunning = false →
    Noticed s.taskQueue (update s.frames t fs)) : (s.setFrames t fs).Invariant owner := by
  refine ⟨h.running, h.owned.same hframes hcount, ?_, hnoticed⟩
  rw [State.setFrames, inTransit_update fs hframes htaken]
  exact h.order

theorem Invariant.owner_eq (h : s.Invariant owner) (hframes : s.frames t = frame :: rest)
    (hcritical : frame.isCritical = true) : owner = some t ∧ rest.countP Frame.isCritical = 0 := by
  have howner : owner = some t := h.owned.owner_eq (hframes ▸ mem_cons_self) hcritical
  have hone := h.owned t
  rw [if_pos howner, hframes, countP_cons_of_pos hcritical] at hone
  exact ⟨howner, Nat.succ.inj hone⟩

theorem Invariant.not_critical (h : s.Invariant owner) (hnot : s.areCallbacksRunning = false) :
    owner = none ∧ ∀ t, (s.frames t).countP Frame.isCritical = 0 := by
  have hnone : owner = none := by
    rw [h.running] at hnot
    exact Option.isNone_iff_eq_none.mp (by simpa using hnot)
  refine ⟨hnone, fun t => ?_⟩
  rw [h.owned t, hnone]
  rfl

theorem taken_of_not_critical (h : rest.countP Frame.isCritical = 0) :
    rest.filterMap Frame.taken? = [] := by
  rw [filterMap_eq_nil_iff]
  intro frame hmem
  have hnot := List.countP_eq_zero.mp h frame hmem
  cases frame with
  | taken callback => exact absurd rfl hnot
  | _ => rfl

section Steps

variable (h : s.Invariant owner)
include h

theorem Invariant.addToProcessQueue {func : κ}
    (hstep : s.next (.addToProcessQueue t func) = some s') : s'.Invariant owner := by
  simp only [State.next] at hstep
  split at hstep
  · cases hstep
    have hnext := h.setFrames (t := t) (.maybeSchedule :: s.frames t) rfl rfl rfl fun _ _ =>
      noticed_of_frame rfl
    refine ⟨hnext.running, hnext.owned, ?_, fun _ _ => noticed_of_frame rfl⟩
    have horder : s.appended = _ := hnext.order
    rw [horder, append_assoc]
    rfl
  · cases hstep

theorem Invariant.serviceQueue (hstep : s.next (.serviceQueue t) = some s') :
    s'.Invariant owner := by
  simp only [State.next] at hstep
  split at hstep
  · next queue hframes _ _ =>
    cases hstep
    have hnext := h.setFrames [.processQueue] hframes rfl rfl fun _ _ => noticed_of_frame rfl
    exact ⟨hnext.running, hnext.owned, hnext.order, fun _ _ => noticed_of_frame rfl⟩
  · next queue hframes _ hqueue =>
    cases hstep
    have hnoticed : ∀ fs, s.callbacksPending ≠ [] → s.areCallbacksRunning = false →
        Noticed queue (update s.frames t fs) := by
      intro fs hpending hnot
      rcases h.noticed hpending hnot with ⟨time, hmem⟩ | ⟨u, f, hmem, hf⟩
      · rw [hqueue] at hmem
        exact .inl ⟨time, (List.mem_cons.mp hmem).resolve_left fun heq => by cases heq⟩
      · refine .inr ⟨u, f, ?_, hf⟩
        rw [update_of_ne]
        · exact hmem
        · rintro rfl
          rw [hframes] at hmem
          cases hmem
    refine ⟨h.running, h.owned.same hframes rfl, ?_, hnoticed _⟩
    rw [State.setFrames, inTransit_update [.task] hframes rfl]
    exact h.order
  · cases hstep

theorem Invariant.processQueue (hstep : s.next (.processQueue t) = some s') :
    ∃ owner', s'.Invariant owner' := by
  simp only [State.next] at hstep
  split at hstep
  · next rest hframes =>
    split at hstep
    · next hrunning =>
      cases hstep
      exact ⟨owner, h.setFrames _ hframes rfl rfl fun _ hnot =>
        Bool.noConfusion (hrunning.symm.trans hnot)⟩
    · next hrunning =>
      split at hstep
      · next hpending =>
        cases hstep
        exact ⟨owner, h.setFrames _ hframes rfl rfl fun hne _ => absurd hpending hne⟩
      · next callback pending hpending =>
        cases hstep
        -- the thread becomes the owner
        obtain ⟨rfl, hnone⟩ := h.not_critical (by simpa using hrunning)
        have hrest : rest.countP Frame.isCritical = 0 := by
          have hzero := hnone t
          rw [hframes] at hzero
          exact hzero
        refine ⟨some t, rfl, ?_, ?_, fun _ hnot => by cases hnot⟩
        · refine h.owned.update (fun u hu => ?_) ?_
          · exact iff_of_false (fun heq => hu (Option.some.inj heq).symm) (fun heq => by cases heq)
          · rw [if_pos rfl, countP_cons_of_pos rfl, hrest]
        · have horder := h.order
          rw [hpending] at horder
          simp only [inTransit, State.setFrames, elim_some, update_self, elim_none,
            append_nil] at horder ⊢
          rw [filterMap_cons_some (f := Frame.taken?) rfl, taken_of_not_critical hrest, horder,
            append_assoc]
          rfl
  · cases hstep

theorem Invariant.call (hstep : s.next (.call t) = some s') : s'.Invariant owner := by
  simp only [State.next] at hstep
  split at hstep
  · next callback rest hframes =>
    cases hstep
    obtain ⟨rfl, hrest⟩ := h.owner_eq hframes rfl
    refine ⟨h.running, h.owned.same hframes rfl, ?_, fun _ hnot => ?_⟩
    · have horder := h.order
      simp only [inTransit, State.setFrames, elim_some, update_self] at horder ⊢
      rw [hframes, filterMap_cons_some (f := Frame.taken?) rfl] at horder
      rw [filterMap_cons_none (f := Frame.taken?) rfl, horder]
      simp
    · exact Bool.noConfusion (h.running.symm.trans hnot)
  · cases hstep

theorem Invariant.finish {threw : Bool} (hstep : s.next (.finish t threw) = some s') :
    s'.Invariant owner := by
  simp only [State.next] at hstep
  split at hstep
  · next rest hframes =>
    cases hstep
    refine h.setFrames _ hframes ?_ ?_ fun hpending hnot =>
      (h.noticed hpending hnot).update hframes rfl ?_
    · cases threw <;> rfl
    · cases threw <;> rfl
    · cases threw with
      | true => exact subset_cons_self ..
      | false => exact List.Subset.refl _
  · next callback rest hframes =>
    cases hstep
    refine h.setFrames _ hframes ?_ ?_ fun hpending hnot =>
      (h.noticed hpending hnot).update hframes rfl ?_
    · cases threw <;> rfl
    · cases threw <;> rfl
    · cases threw with
      | true => exact fun _ hmem => mem_cons_of_mem _ (mem_cons_of_mem _ hmem)
      | false => exact subset_cons_self ..
  · cases hstep

theorem Invariant.callbacksDone (hstep : s.next (.callbacksDone t) = some s') :
    s'.Invariant none := by
  simp only [State.next] at hstep
  split at hstep
  · next rest hframes =>
    cases hstep
    obtain ⟨rfl, hrest⟩ := h.owner_eq hframes rfl
    refine ⟨rfl, ?_, ?_, fun _ _ => noticed_of_frame rfl⟩
    · refine h.owned.update (fun u hu => ?_) ?_
      · exact iff_of_false (fun heq => by cases heq) (fun heq => hu (Option.some.inj heq).symm)
      · exact hrest
    · have horder := h.order
      simp only [inTransit, State.setFrames, elim_some, elim_none] at horder ⊢
      rw [hframes, filterMap_cons_none (f := Frame.taken?) rfl,
        taken_of_not_critical hrest] at horder
      exact horder
  · cases hstep

theorem Invariant.maybeScheduleProcessQueue
    (hstep : s.next (.maybeScheduleProcessQueue t) = some s') : s'.Invariant owner := by
  simp only [State.next] at hstep
  split at hstep
  · next rest hframes =>
    split at hstep
    · next hreturn =>
      cases hstep
      refine h.setFrames _ hframes rfl rfl fun hpending hnot => ?_
      rcases hreturn with hrunning | hempty
      · exact Bool.noConfusion (hrunning.symm.trans hnot)
      · exact absurd (List.isEmpty_iff.mp hempty) hpending
    · cases hstep
      exact h.setFrames _ hframes rfl rfl fun _ _ => noticed_of_frame rfl
  · cases hstep

theorem Invariant.schedule {time : Int} (hstep : s.next (.schedule t time) = some s') :
    s'.Invariant owner := by
  simp only [State.next] at hstep
  split at hstep
  · next rest hframes =>
    cases hstep
    refine ⟨h.running, h.owned.same hframes rfl, ?_, fun _ _ =>
      .inl ⟨time, mem_insertTask.mpr (.inl rfl)⟩⟩
    rw [State.setFrames, inTransit_update rest hframes rfl]
    exact h.order
  · cases hstep

theorem Invariant.leave (hstep : s.next (.leave t) = some s') : s'.Invariant owner := by
  simp only [State.next] at hstep
  split at hstep
  · next rest hframes =>
    cases hstep
    have hnext := h.setFrames rest hframes rfl rfl fun hpending hnot =>
      (h.noticed hpending hnot).update hframes rfl (List.Subset.refl rest)
    exact ⟨hnext.running, hnext.owned, hnext.order, hnext.noticed⟩
  · cases hstep

end Steps

theorem Invariant.next (h : s.Invariant owner) {a : Action τ κ} (hstep : s.next a = some s') :
    ∃ owner', s'.Invariant owner' := by
  cases a with
  | addToProcessQueue t func => exact ⟨owner, h.addToProcessQueue hstep⟩
  | scheduleOther t time =>
    simp only [State.next] at hstep
    split at hstep
    · cases hstep
      refine ⟨owner, h.running, h.owned, h.order, fun hpending hnot =>
        (h.noticed hpending hnot).imp_left ?_⟩
      exact fun htask => htask.imp fun _ hmem => mem_insertTask.mpr (.inr hmem)
    · cases hstep
  | serviceQueue t => exact ⟨owner, h.serviceQueue hstep⟩
  | processQueue t => exact h.processQueue hstep
  | call t => exact ⟨owner, h.call hstep⟩
  | finish t threw => exact ⟨owner, h.finish hstep⟩
  | callbacksDone t => exact ⟨none, h.callbacksDone hstep⟩
  | maybeScheduleProcessQueue t => exact ⟨owner, h.maybeScheduleProcessQueue hstep⟩
  | schedule t time => exact ⟨owner, h.schedule hstep⟩
  | leave t => exact ⟨owner, h.leave hstep⟩

theorem scheduler_invariant {init : State τ κ} (hinit : init.IsInitial)
    (h : Reachable State.next (fun _ => True) init s) : ∃ owner, s.Invariant owner := by
  have hfirst : ∃ owner, init.Invariant owner := by
    refine ⟨none, hinit.areCallbacksRunning, fun t => ?_, ?_, fun hpending =>
      absurd hinit.callbacksPending hpending⟩
    · rw [hinit.frames t]
      rfl
    · rw [hinit.appended, hinit.started, hinit.callbacksPending]
      rfl
  refine h.invariant (fun s => ∃ owner, s.Invariant owner) hfirst ?_
  rintro s a s' ⟨owner, hs⟩ hstep _
  exact hs.next hstep

/-- Callbacks are started at most once and in the order they were appended, never two at the
same time, and none is lost: what was appended was started, was taken to be started next, or is
pending. If one is pending and none is running, `ProcessQueue` is scheduled, or a thread is
between appending or finishing a callback and scheduling, or a thread is in `ProcessQueue`
before it starts a callback. -/
theorem callbacks_one_at_a_time (init s : State τ κ) (hinit : init.IsInitial)
    (h : Reachable State.next (fun _ => True) init s) : s.started <+: s.appended ∧
    (∃ owner, s.appended = s.started ++ inTransit s.frames owner ++ s.callbacksPending) ∧
    ((∀ t, (s.frames t).countP Frame.isRunning ≤ 1) ∧
      ∀ t t' callback callback', .running callback ∈ s.frames t →
        .running callback' ∈ s.frames t' → t = t') ∧
    (s.callbacksPending ≠ [] → (∀ t callback, .running callback ∉ s.frames t) →
      (∃ time, (time, Task.processQueue) ∈ s.taskQueue) ∨
        (∃ t, .maybeSchedule ∈ s.frames t ∨ .schedule ∈ s.frames t ∨ .ended ∈ s.frames t) ∨
        ∃ t, .processQueue ∈ s.frames t ∨ ∃ callback, .taken callback ∈ s.frames t) := by
  obtain ⟨owner, hinv⟩ := scheduler_invariant hinit h
  refine ⟨?_, ⟨owner, hinv.order⟩, ⟨fun t => ?_, fun t t' callback callback' hmem hmem' => ?_⟩,
    fun hpending hnone => ?_⟩
  · rw [hinv.order, append_assoc]
    exact prefix_append ..
  · have hle : (s.frames t).countP Frame.isRunning ≤ (s.frames t).countP Frame.isCritical := by
      refine countP_mono_left fun frame _ hrunning => ?_
      cases frame with
      | running callback => rfl
      | _ => cases hrunning
    refine Nat.le_trans hle ?_
    rw [hinv.owned t]
    split <;> decide
  · have howner := hinv.owned.owner_eq hmem rfl
    exact Option.some.inj (howner.symm.trans (hinv.owned.owner_eq hmem' rfl))
  · cases howner : owner with
    | none =>
      rw [howner] at hinv
      rcases hinv.noticed hpending hinv.running with htask | ⟨t, frame, hmem, hlook⟩
      · exact .inl htask
      · cases frame with
        | processQueue => exact .inr (.inr ⟨t, .inl hmem⟩)
        | maybeSchedule => exact .inr (.inl ⟨t, .inl hmem⟩)
        | schedule => exact .inr (.inl ⟨t, .inr (.inl hmem)⟩)
        | _ => cases hlook
    | some t =>
      -- the owner is before or after its callback
      have hone := hinv.owned t
      rw [if_pos howner] at hone
      obtain ⟨frame, hmem, hcritical⟩ := List.countP_pos_iff.mp (hone ▸ Nat.one_pos)
      cases frame with
      | taken callback => exact .inr (.inr ⟨t, .inr ⟨callback, hmem⟩⟩)
      | running callback => exact absurd hmem (hnone t callback)
      | ended => exact .inr (.inl ⟨t, .inr (.inr hmem)⟩)
      | _ => cases hcritical

/-- One thread services the queue, the other appends callbacks. -/
def twoThreads : State Bool Nat := ⟨[], [], false, fun t => t, fun _ => [], [], []⟩

theorem twoThreads_initial : twoThreads.IsInitial := ⟨rfl, rfl, fun _ => rfl, rfl, rfl⟩

def callbackScheduled : State Bool Nat :=
  { twoThreads with
    callbacksPending := [7], appended := [7],
    frames := update (update (update (update (fun _ => []) false [.maybeSchedule])
      false [.schedule]) false []) true [.processQueue] }

theorem callbackScheduled_reachable :
    Reachable State.next (fun _ => True) twoThreads callbackScheduled :=
  .step (a := .serviceQueue true) (.step (a := .schedule false 0)
    (.step (a := .maybeScheduleProcessQueue false)
    (.step (a := .addToProcessQueue false 7) .init rfl trivial) rfl trivial) rfl trivial) rfl
    trivial

/-- The callback runs and appends another one. -/
theorem callbacks_one_at_a_time_nested : ∃ s, Reachable State.next (fun _ => True) twoThreads s ∧
    s.started = [7] ∧ s.callbacksPending = [8] ∧
    ∃ owner, s.appended = s.started ++ inTransit s.frames owner ++ s.callbacksPending := by
  have hreach : ∃ s, Reachable State.next (fun _ => True) twoThreads s ∧ s.started = [7] ∧
      s.callbacksPending = [8] :=
    ⟨_, .step (a := .addToProcessQueue true 8) (.step (a := .call true)
      (.step (a := .processQueue true) callbackScheduled_reachable rfl trivial) rfl trivial) rfl
      trivial, rfl, rfl⟩
  obtain ⟨s, h, hstarted, hpending⟩ := hreach
  have hordered := callbacks_one_at_a_time twoThreads s twoThreads_initial h
  exact ⟨s, h, hstarted, hpending, hordered.2.1⟩

/-- The callback is pending and none is running, but nothing is scheduled, and no thread is between
appending or finishing and scheduling. -/
theorem task_taken_before_look :
    twoThreads.IsInitial ∧ Reachable State.next (fun _ => True) twoThreads callbackScheduled ∧
    callbackScheduled.callbacksPending ≠ [] ∧ callbackScheduled.taskQueue = [] ∧
    callbackScheduled.frames false = [] ∧ callbackScheduled.frames true = [.processQueue] :=
  ⟨twoThreads_initial, callbackScheduled_reachable, by decide, rfl, rfl, rfl⟩

end State

end Bitcoboost.Scheduler
