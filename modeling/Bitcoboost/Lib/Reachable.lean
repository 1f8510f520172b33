import Mathlib.Logic.Function.Basic

/-!
# Reachable states

A system that takes one step at a time, where a step is chosen from outside and may be
impossible. What holds at first and is kept by every step holds of every state that is
reached.
-/

/-- The states that a system reaches by steps after each of which a condition holds. -/
inductive Reachable {σ α : Type*} (next : σ → α → Option σ) (Allowed : σ → Prop)
    (init : σ) : σ → Prop
  | init : Reachable next Allowed init init
  | step {s s' : σ} {a : α} : Reachable next Allowed init s → next s a = some s' → Allowed s' →
      Reachable next Allowed init s'

theorem Reachable.invariant {σ α : Type*} {next : σ → α → Option σ} {Allowed : σ → Prop}
    {init s : σ} (h : Reachable next Allowed init s) (Inv : σ → Prop) (hinit : Inv init)
    (hstep : ∀ s a s', Inv s → next s a = some s' → Allowed s' → Inv s') : Inv s := by
  induction h with
  | init => exact hinit
  | step _ hnext hallowed ih => exact hstep _ _ _ ih hnext hallowed
