import Mathlib.Data.List.Basic

/-!
# Linear checksums

A checksum over the two-element field folds its input into a register: each step applies a linear
map to the register and adds the next input word. Changing the last words of the input changes
the checksum by the checksum of the change.
-/

namespace LinearChecksum

open BitVec List

variable {w : Nat} (feedback : BitVec w → BitVec w)

/-- The register after the words `vs`. -/
def run (c : BitVec w) (vs : List (BitVec w)) : BitVec w := vs.foldl (fun c v => feedback c ^^^ v) c

@[simp] theorem run_nil (c : BitVec w) : run feedback c [] = c := rfl

@[simp] theorem run_cons (c v : BitVec w) (vs : List (BitVec w)) :
    run feedback c (v :: vs) = run feedback (feedback c ^^^ v) vs := rfl

theorem run_append (c : BitVec w) (us vs : List (BitVec w)) :
    run feedback c (us ++ vs) = run feedback (run feedback c us) vs :=
  foldl_append

variable {feedback}

theorem run_xor (hlin : ∀ a b, feedback (a ^^^ b) = feedback a ^^^ feedback b) (a b : BitVec w)
    (vs : List (BitVec w)) :
    run feedback (a ^^^ b) vs = run feedback a (List.replicate vs.length 0#w) ^^^
      run feedback b vs := by
  induction vs generalizing a b with
  | nil => rfl
  | cons v vs ih =>
    rw [run_cons, hlin, xor_assoc, ih, length_cons, List.replicate_succ, run_cons, run_cons,
      xor_zero]

/-- The words at the end add their own checksum to the one over zeros. -/
theorem run_eq_xor (hlin : ∀ a b, feedback (a ^^^ b) = feedback a ^^^ feedback b) (c : BitVec w)
    (vs : List (BitVec w)) :
    run feedback c vs = run feedback c (List.replicate vs.length 0#w) ^^^ run feedback 0#w vs := by
  rw [← run_xor hlin, xor_zero]

end LinearChecksum
