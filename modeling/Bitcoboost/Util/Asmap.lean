import Bitcoboost.Lib.ExceptBind
import Mathlib.Algebra.Group.Nat.Defs
import Mathlib.Logic.Relation

/-!
# Programs that map addresses to autonomous systems

`Interpret` and `SanityCheckASMap` of `util/asmap.cpp`. An asmap is a string of bits with four
instructions of varying length. The interpreter follows one path through it, the check walks
over all instructions in order with a stack of the positions that are jumped to. A round of a
loop is a step, its error is what the loop ends with.
-/

namespace Bitcoboost.Asmap

open ExceptBind (ite_error_ok)

/-! ## Decoding -/

def invalid : UInt32 := 0xFFFFFFFF

/-- The bits of a mantissa in `DecodeBits`, `b` of them are left: the value and the position. -/
def decodeMantissa (asmap : List Bool) : (b : Nat) → UInt32 → Nat → UInt32 × Nat
  | 0, val, pos => (val, pos)
  | b + 1, val, pos =>
    match asmap[pos]? with
    | none => (invalid, pos)
    | some bit => decodeMantissa asmap b (val + (if bit then 1 <<< UInt32.ofNat b else 0)) (pos + 1)

/-- The loop of `DecodeBits` over `bit_sizes`. No bit is read for the last of them. -/
def decodeBits (asmap : List Bool) : List Nat → UInt32 → Nat → UInt32 × Nat
  | [], _, pos => (invalid, pos)
  | [size], val, pos => decodeMantissa asmap size val pos
  | size :: sizes, val, pos =>
    match asmap[pos]? with
    | none => (invalid, pos)
    | some true => decodeBits asmap sizes (val + 1 <<< UInt32.ofNat size) (pos + 1)
    | some false => decodeMantissa asmap size val (pos + 1)

inductive Instruction where
  | «return»
  | jump
  | «match»
  | default
deriving DecidableEq, Repr

variable (asmap : List Bool) (pos : Nat)

/-- `DecodeType`, without an instruction for other values. -/
def decodeType : Option Instruction × Nat :=
  let (val, pos) := decodeBits asmap [0, 0, 1] 0 pos
  ([Instruction.return, .jump, .match, .default][val.toNat]?, pos)

def decodeASN : UInt32 × Nat := decodeBits asmap (List.range' 15 10) 1 pos

def decodeMatch : UInt32 × Nat := decodeBits asmap (List.range' 1 8) 2 pos

def decodeJump : UInt32 × Nat := decodeBits asmap (List.range' 5 26) 17 pos

/-- An instruction and its operand. Both loops end where one of them is invalid. -/
def decode : Option (Instruction × UInt32 × Nat) :=
  match decodeType asmap pos with
  | (none, _) => none
  | (some opcode, pos) =>
    let (operand, pos) :=
      match opcode with
      | .return => decodeASN asmap pos
      | .jump => decodeJump asmap pos
      | .match => decodeMatch asmap pos
      | .default => decodeASN asmap pos
    if operand = invalid then none else some (opcode, operand, pos)

/-- `std::bit_width(match) - 1`, for a match that is not zero. -/
def matchlen (m : UInt32) : Nat := m.toNat.log2

/-- Reading from `pos` to `pos'` does not leave the asmap. -/
def Reads (pos' : Nat) : Prop := pos ≤ pos' ∧ (pos ≤ asmap.length → pos' ≤ asmap.length)

section

variable {asmap : List Bool} {pos pos' : Nat} {opcode : Instruction}

theorem Reads.bit (h : Reads asmap (pos + 1) pos') {bit : Bool} (hbit : asmap[pos]? = some bit) :
    Reads asmap pos pos' := by
  have hlt := (List.getElem?_eq_some_iff.mp hbit).1
  exact ⟨Nat.le_of_succ_le h.1, fun _ => h.2 hlt⟩

theorem reads_decodeMantissa {b : Nat} (val : UInt32) :
    Reads asmap pos (decodeMantissa asmap b val pos).2 := by
  induction b generalizing val pos with
  | zero => exact ⟨Nat.le_refl _, id⟩
  | succ b ih =>
    rw [decodeMantissa]
    cases hbit : asmap[pos]? with
    | none => exact ⟨Nat.le_refl _, id⟩
    | some bit => exact (ih _).bit hbit

theorem reads_decodeBits (sizes : List Nat) (val : UInt32) :
    Reads asmap pos (decodeBits asmap sizes val pos).2 := by
  induction sizes generalizing val pos with
  | nil => exact ⟨Nat.le_refl _, id⟩
  | cons size sizes ih =>
    cases sizes with
    | nil => exact reads_decodeMantissa val
    | cons size' sizes =>
      rw [decodeBits]
      · cases hbit : asmap[pos]? with
        | none => exact ⟨Nat.le_refl _, id⟩
        | some bit =>
          cases bit with
          | true => exact (ih _).bit hbit
          | false => exact (reads_decodeMantissa val).bit hbit
      · rintro ⟨⟩

/-- An instruction takes at least one bit. -/
theorem decodeType_some (h : decodeType asmap pos = (some opcode, pos')) :
    pos < pos' ∧ pos' ≤ asmap.length := by
  have hpos : pos' = (decodeBits asmap [0, 0, 1] 0 pos).2 := (congrArg Prod.snd h).symm
  cases hbit : asmap[pos]? with
  | none =>
    have hinvalid :
      decodeBits asmap [0, 0, 1] 0 pos = (invalid, pos) := by rw [decodeBits, hbit]; rintro ⟨⟩
    rw [decodeType, hinvalid] at h
    cases h
  | some bit =>
    have hlt := (List.getElem?_eq_some_iff.mp hbit).1
    have hreads : Reads asmap (pos + 1) pos' := by
      rw [hpos, decodeBits, hbit]
      · cases bit with
        | true => exact reads_decodeBits [0, 1] _
        | false => exact reads_decodeMantissa _
      · rintro ⟨⟩
    exact ⟨hreads.1, hreads.2 hlt⟩

theorem decode_some {operand : UInt32} (h : decode asmap pos = some (opcode, operand, pos')) :
    pos < pos' ∧ pos' ≤ asmap.length := by
  unfold decode at h
  split at h
  · cases h
  · next start htype =>
    simp only [Option.ite_none_left_eq_some] at h
    obtain ⟨-, ⟨⟩⟩ := h
    obtain ⟨hlt, hle⟩ := decodeType_some htype
    have after {p : Nat} (hreads : Reads asmap start p) : pos < p ∧ p ≤ asmap.length :=
      ⟨Nat.lt_of_lt_of_le hlt hreads.1, hreads.2 hle⟩
    cases opcode <;> exact after (reads_decodeBits _ _)

end

/-! ## `Interpret` -/

/-- How the interpreter ends: with a return, together with `pos` and `bits` at that time, at
the assertion, or by reading outside of the address. -/
inductive Outcome where
  | returned (asn : UInt32) (pos bits : Nat)
  | assertFalse
  | outOfRange
deriving DecidableEq, Repr

/-- `pos`, `bits` and `default_asn`. -/
structure State where
  pos : Nat
  bits : Nat
  defaultAsn : UInt32

/-- The loop over the bits of a match, `bit` of them are left: whether they agree, and the
address bits left. -/
def matchLoop (ip : List Bool) (m : UInt32) : (bit : Nat) → Nat → Option (Bool × Nat)
  | 0, bits => some (true, bits)
  | bit + 1, bits =>
    match ip[ip.length - bits]? with
    | none => none
    | some b => if b ≠ (m >>> UInt32.ofNat bit &&& 1 == 1) then some (false, bits)
        else matchLoop ip m bit (bits - 1)

/-- A round of the loop of `Interpret`. -/
def interpretStep (ip : List Bool) (s : State) : Except Outcome State :=
  if s.pos = asmap.length then .error .assertFalse
  else
    match decode asmap s.pos with
    | none => .error .assertFalse
    | some (.return, asn, pos) => .error (.returned asn pos s.bits)
    | some (.jump, jump, pos) =>
      if s.bits = 0 then .error .assertFalse
      else if jump.toNat ≥ asmap.length - pos then .error .assertFalse
      else
        match ip[ip.length - s.bits]? with
        | none => .error .outOfRange
        | some bit =>
          .ok { s with pos := if bit then pos + jump.toNat else pos, bits := s.bits - 1 }
    | some (.match, m, pos) =>
      if s.bits < matchlen m then .error .assertFalse
      else
        match matchLoop ip m (matchlen m) s.bits with
        | none => .error .outOfRange
        | some (false, bits) => .error (.returned s.defaultAsn pos bits)
        | some (true, bits) => .ok { s with pos, bits }
    | some (.default, asn, pos) => .ok { s with pos, defaultAsn := asn }

theorem matchLoop_le {ip : List Bool} {m : UInt32} {bit bits bits' : Nat} {same : Bool}
    (h : matchLoop ip m bit bits = some (same, bits')) : bits' ≤ bits := by
  induction bit generalizing bits with
  | zero =>
    cases h
    exact Nat.le_refl _
  | succ bit ih =>
    rw [matchLoop] at h
    split at h
    · cases h
    · split at h
      · cases h
        exact Nat.le_refl _
      · exact Nat.le_trans (ih h) (Nat.sub_le _ _)

/-- A round that goes on moves within the asmap and only consumes bits of the address. -/
theorem interpretStep_ok {asmap ip : List Bool} {s s' : State}
    (h : interpretStep asmap ip s = .ok s') :
    s.pos < s'.pos ∧ s'.pos ≤ asmap.length ∧ s'.bits ≤ s.bits := by
  simp only [interpretStep, ite_error_ok] at h
  replace h := h.2
  split at h
  · cases h
  · cases h
  · next jump pos hop =>
    have hpos := decode_some hop
    simp only [ite_error_ok] at h
    obtain ⟨-, hjump, h⟩ := h
    split at h
    · cases h
    · cases h
      dsimp only
      split <;> omega
  · next m pos hop =>
    have hpos := decode_some hop
    simp only [ite_error_ok] at h
    replace h := h.2
    split at h
    · cases h
    · cases h
    · next hloop =>
      cases h
      exact ⟨hpos.1, hpos.2, matchLoop_le hloop⟩
  · next asn pos hop =>
    cases h
    exact ⟨(decode_some hop).1, (decode_some hop).2, Nat.le_refl _⟩

def interpretLoop (asmap ip : List Bool) (s : State) : Outcome :=
  match _hstep : interpretStep asmap ip s with
  | .error outcome => outcome
  | .ok s' => interpretLoop asmap ip s'
termination_by asmap.length - s.pos
decreasing_by
  have hmoves := interpretStep_ok _hstep
  omega

/-- `Interpret`. The number of bits is a `uint8_t`. -/
def interpret (ip : List Bool) : Outcome := interpretLoop asmap ip ⟨0, ip.length % 2 ^ 8, 0⟩

/-! ## `SanityCheckASMap` -/

/-- The variables of the check, the last of the `jumps` first. -/
structure Sanity where
  pos : Nat
  jumps : List (Nat × Nat)
  bits : Nat
  prevopcode : Instruction
  hadIncompleteMatch : Bool

/-- The conversion of a position to `uint32_t`. -/
def offset : Nat := pos % 2 ^ 32

/-- A round of the loop of `SanityCheckASMap`. -/
def sanityStep (s : Sanity) : Except Bool Sanity :=
  if s.pos = asmap.length then .error false
  else if s.jumps.head?.any fun jump => offset s.pos ≥ jump.1 then .error false
  else
    match decode asmap s.pos with
    | none => .error false
    | some (.return, _, pos) =>
      if s.prevopcode = .default then .error false
      else
        match s.jumps with
        | [] => .error (asmap.length - pos ≤ 7 && (asmap.drop pos).all (!·))
        | (target, bits) :: jumps =>
          if offset pos ≠ target then .error false
          else .ok { s with pos, jumps, bits, prevopcode := .jump }
    | some (.jump, jump, pos) =>
      if jump.toNat > asmap.length - pos then .error false
      else if s.bits = 0 then .error false
      else if s.jumps.head?.any fun other => offset (pos + jump.toNat) ≥ other.1 then .error false
      else
        .ok { s with
          pos
          jumps := (offset (pos + jump.toNat), s.bits - 1) :: s.jumps
          bits := s.bits - 1
          prevopcode := .jump }
    | some (.match, m, pos) =>
      if matchlen m < 8 ∧ s.prevopcode = .match ∧ s.hadIncompleteMatch then .error false
      else if s.bits < matchlen m then .error false
      else
        .ok { s with
          pos, bits := s.bits - matchlen m, prevopcode := .match
          hadIncompleteMatch := matchlen m < 8 }
    | some (.default, _, pos) =>
      if s.prevopcode = .default then .error false else .ok { s with pos, prevopcode := .default }

/-- What is known after a round of the check that goes on. -/
inductive Checked (asmap : List Bool) (s s' : Sanity) : Instruction → UInt32 → Prop where
  | return {asn : UInt32} (hjumps : s.jumps = (offset s'.pos, s'.bits) :: s'.jumps) :
      Checked asmap s s' .return asn
  | jump {jump : UInt32} (hle : jump.toNat ≤ asmap.length - s'.pos) (hbits : s.bits = s'.bits + 1)
      (hjumps : s'.jumps = (offset (s'.pos + jump.toNat), s'.bits) :: s.jumps) :
        Checked asmap s s' .jump jump
  | match {m : UInt32} (hbits : s.bits = s'.bits + matchlen m) (hjumps : s'.jumps = s.jumps) :
      Checked asmap s s' .match m
  | default {asn : UInt32} (hbits : s'.bits = s.bits) (hjumps : s'.jumps = s.jumps) :
      Checked asmap s s' .default asn

section

variable {asmap : List Bool} {s s' : Sanity}

theorem checked_of_sanityStep (h : sanityStep asmap s = .ok s') :
    ∃ opcode operand, decode asmap s.pos = some (opcode, operand, s'.pos) ∧
    Checked asmap s s' opcode operand := by
  simp only [sanityStep, ite_error_ok] at h
  obtain ⟨-, -, h⟩ := h
  split at h
  · cases h
  · next hop =>
    replace h := (ite_error_ok.mp h).2
    split at h
    · cases h
    · next hjumps =>
      simp only [ite_error_ok, not_not] at h
      obtain ⟨rfl, ⟨⟩⟩ := h
      exact ⟨_, _, hop, .return hjumps⟩
  · next hop =>
    simp only [ite_error_ok] at h
    obtain ⟨hle, hbits, -, ⟨⟩⟩ := h
    exact ⟨_, _, hop, .jump (Nat.not_lt.mp hle) (Nat.succ_pred hbits).symm rfl⟩
  · next hop =>
    simp only [ite_error_ok] at h
    obtain ⟨-, hbits, ⟨⟩⟩ := h
    exact ⟨_, _, hop, .match (Nat.sub_add_cancel (Nat.not_lt.mp hbits)).symm rfl⟩
  · next hop =>
    simp only [ite_error_ok] at h
    obtain ⟨-, ⟨⟩⟩ := h
    exact ⟨_, _, hop, .default rfl rfl⟩

/-- The check ends well only at a return, when no jump is open. -/
theorem return_of_sanityStep (h : sanityStep asmap s = .error true) :
    s.jumps = [] ∧ ∃ asn pos, decode asmap s.pos = some (.return, asn, pos) := by
  unfold sanityStep at h
  split at h
  · cases h
  split at h
  · cases h
  split at h
  · cases h
  · next hop =>
    split at h
    · cases h
    split at h
    · next hjumps => exact ⟨hjumps, _, _, hop⟩
    · split at h <;> cases h
  all_goals
    repeat' split at h
    all_goals cases h

end

def sanityLoop (asmap : List Bool) (s : Sanity) : Bool :=
  match _hstep : sanityStep asmap s with
  | .error sane => sane
  | .ok s' => sanityLoop asmap s'
termination_by asmap.length - s.pos
decreasing_by
  obtain ⟨_, _, hop, -⟩ := checked_of_sanityStep _hstep
  have hpos := decode_some hop
  omega

def sanityCheckASMap (bits : Nat) : Bool := sanityLoop asmap ⟨0, [], bits, .jump, false⟩

/-! ## Soundness of the check -/

/-- From `pos` on, with `bits` left of any address, the interpreter comes to a return. -/
def Returns (bits : Nat) : Prop :=
  ∀ (ip : List Bool) (defaultAsn : UInt32), bits ≤ ip.length → ∃ asn pos' bits',
    interpretLoop asmap ip ⟨pos, bits, defaultAsn⟩ = .returned asn pos' bits' ∧
    pos' ≤ asmap.length ∧ bits' ≤ bits

section

variable {asmap ip : List Bool} {pos pos' bits bits' : Nat}

theorem interpretLoop_error {s : State} {outcome : Outcome}
    (h : interpretStep asmap ip s = .error outcome) : interpretLoop asmap ip s = outcome := by
  rw [interpretLoop]
  split
  · next heq => exact Except.error.inj (heq.symm.trans h)
  · next heq => cases heq.symm.trans h

theorem interpretLoop_ok {s s' : State} (h : interpretStep asmap ip s = .ok s') :
    interpretLoop asmap ip s = interpretLoop asmap ip s' := by
  rw [interpretLoop]
  split
  · next heq => cases heq.symm.trans h
  · next heq => rw [Except.ok.inj (heq.symm.trans h)]

/-- A round that goes on to where the interpreter returns. -/
theorem Returns.before (h : Returns asmap pos' bits') (hip : bits' ≤ ip.length)
    (hbits : bits' ≤ bits)
    {defaultAsn asn : UInt32} (hstep : interpretStep asmap ip ⟨pos, bits, defaultAsn⟩ =
      .ok ⟨pos', bits', asn⟩) :
    ∃ asn pos' bits', interpretLoop asmap ip ⟨pos, bits, defaultAsn⟩ = .returned asn pos' bits' ∧
      pos' ≤ asmap.length ∧ bits' ≤ bits := by
  obtain ⟨asn, pos', bits', hreturn, hend, hle⟩ := h ip asn hip
  exact ⟨asn, pos', bits', (interpretLoop_ok hstep).trans hreturn, hend, Nat.le_trans hle hbits⟩

/-- Enough bits of the address are left for a match. -/
theorem matchLoop_some (m : UInt32) {bit : Nat} (hip : bits ≤ ip.length) (hbit : bit ≤ bits) :
    matchLoop ip m bit bits = some (true, bits - bit) ∨ ∃ bits',
    matchLoop ip m bit bits = some (false, bits') := by
  induction bit generalizing bits with
  | zero => exact .inl rfl
  | succ bit ih =>
    have hlt : ip.length - bits < ip.length := by omega
    rw [matchLoop, List.getElem?_eq_getElem hlt]
    dsimp only
    split
    · exact .inr ⟨bits, rfl⟩
    · rw [← Nat.sub_sub_sub_cancel_right (Nat.succ_le_succ (Nat.zero_le bit))]
      exact ih (by omega) (by omega)

theorem returns_return {asn : UInt32} (hop : decode asmap pos = some (.return, asn, pos')) :
    Returns asmap pos bits := by
  intro ip defaultAsn _
  have hpos := decode_some hop
  refine ⟨asn, pos', bits, interpretLoop_error ?_, hpos.2, Nat.le_refl _⟩
  simp only [interpretStep, if_neg (show pos ≠ asmap.length by omega), hop]

/-- Where the check goes on, so does the interpreter, to the next instruction or to the target of a
jump. -/
theorem Checked.returns {s s' : Sanity} {opcode : Instruction} {operand : UInt32}
    (hop : decode asmap s.pos = some (opcode, operand, s'.pos))
    (h : Checked asmap s s' opcode operand)
    (hasmap : asmap.length < 2 ^ 32) (hnext : Returns asmap s'.pos s'.bits)
    (hjumps : ∀ jump ∈ s'.jumps, Returns asmap jump.1 jump.2) :
    Returns asmap s.pos s.bits ∧ ∀ jump ∈ s.jumps, Returns asmap jump.1 jump.2 := by
  have hpos := decode_some hop
  have hne : s.pos ≠ asmap.length := by omega
  have hoffset {n : Nat} (hn : n ≤ asmap.length) : offset n = n := Nat.mod_eq_of_lt (by omega)
  cases h with
  | «return» hstack =>
    refine ⟨returns_return hop, ?_⟩
    rw [hstack, hoffset hpos.2]
    exact List.forall_mem_cons.mpr ⟨hnext, hjumps⟩
  | jump hle hbits hstack =>
    rw [hstack, hoffset (by omega)] at hjumps
    obtain ⟨htarget, hjumps⟩ := List.forall_mem_cons.mp hjumps
    refine ⟨fun ip defaultAsn hip => ?_, hjumps⟩
    -- a jump to the end would come to the assertion
    have hlt : operand.toNat < asmap.length - s'.pos := by
      refine Nat.lt_of_le_of_ne hle fun heq => ?_
      obtain ⟨_, _, _, hreturn, -⟩ := htarget ip defaultAsn (by omega)
      have hend : interpretStep asmap ip ⟨s'.pos + operand.toNat, s'.bits, defaultAsn⟩ =
        .error .assertFalse := if_pos (show s'.pos + operand.toNat = asmap.length by omega)
      cases (interpretLoop_error hend).symm.trans hreturn
    have hread : ip.length - s.bits < ip.length := by omega
    have hless : s.bits - 1 = s'.bits := by omega
    have hstep : interpretStep asmap ip ⟨s.pos, s.bits, defaultAsn⟩
        = .ok ⟨if ip[ip.length - s.bits] then s'.pos + operand.toNat
          else s'.pos, s'.bits, defaultAsn⟩ := by
      simp only [interpretStep, if_neg hne, hop, if_neg (show s.bits ≠ 0 by omega),
        if_neg (Nat.not_le.mpr hlt), List.getElem?_eq_getElem hread, hless]
    split at hstep
    · exact htarget.before (by omega) (by omega) hstep
    · exact hnext.before (by omega) (by omega) hstep
  | «match» hbits hstack =>
    refine ⟨fun ip defaultAsn hip => ?_, hstack ▸ hjumps⟩
    have hstep : interpretStep asmap ip ⟨s.pos, s.bits, defaultAsn⟩ =
        match matchLoop ip operand (matchlen operand) s.bits with
        | none => .error .outOfRange
        | some (false, bits) => .error (.returned defaultAsn s'.pos bits)
        | some (true, bits) => .ok ⟨s'.pos, bits, defaultAsn⟩ := by
      simp only [interpretStep, if_neg hne, hop, if_neg (show ¬ s.bits < matchlen operand by omega)]
    rcases matchLoop_some operand hip (show matchlen operand ≤
      s.bits by omega) with hloop | ⟨bits', hloop⟩
    · rw [hloop, show s.bits - matchlen operand = s'.bits by omega] at hstep
      exact hnext.before (by omega) (by omega) hstep
    · rw [hloop] at hstep
      exact ⟨_, _, bits', interpretLoop_error hstep, hpos.2, matchLoop_le hloop⟩
  | default hbits hstack =>
    refine ⟨fun ip defaultAsn hip => ?_, hstack ▸ hjumps⟩
    have hstep :
        interpretStep asmap ip ⟨s.pos, s.bits, defaultAsn⟩ = .ok ⟨s'.pos, s'.bits, operand⟩ := by
      simp only [interpretStep, if_neg hne, hop, hbits]
    exact hnext.before (hbits ▸ hip) (Nat.le_of_eq hbits) hstep

/-- The interpreter returns from wherever the check goes on, and from every jump target that it has
still to come to. -/
theorem returns_of_sanityLoop (hasmap : asmap.length < 2 ^ 32) (s : Sanity)
    (h : sanityLoop asmap s = true) :
    Returns asmap s.pos s.bits ∧ ∀ jump ∈ s.jumps, Returns asmap jump.1 jump.2 := by
  rw [sanityLoop] at h
  split at h
  · next hstep =>
    subst h
    obtain ⟨hjumps, asn, pos, hop⟩ := return_of_sanityStep hstep
    refine ⟨returns_return hop, ?_⟩
    rw [hjumps]
    exact List.forall_mem_nil _
  · next s' hstep =>
    obtain ⟨opcode, operand, hop, hchecked⟩ := checked_of_sanityStep hstep
    have hpos := decode_some hop
    obtain ⟨hnext, hjumps⟩ := returns_of_sanityLoop hasmap s' h
    exact hchecked.returns hop hasmap hnext hjumps
termination_by asmap.length - s.pos

end

/-- No round of the interpreter leaves the asmap, and none consumes more than the address. -/
theorem interpret_within {asmap ip : List Bool} {start s : State} (hpos : start.pos ≤ asmap.length)
    (h : Relation.ReflTransGen (fun s s' => interpretStep asmap ip s = .ok s') start s) :
    s.pos ≤ asmap.length ∧ s.bits ≤ start.bits := by
  induction h with
  | refl => exact ⟨hpos, Nat.le_refl _⟩
  | tail _ hstep ih =>
    have hnext := interpretStep_ok hstep
    exact ⟨hnext.2.1, Nat.le_trans hnext.2.2 ih.2⟩

/-- An asmap that passed the check is executed up to a return, within the asmap and the address. -/
theorem interpret_of_sane (asmap : List Bool) (hasmap : asmap.length < 2 ^ 32) (n : Nat)
    (hn : n ≤ 255)
    (hsane : sanityCheckASMap asmap n = true) (ip : List Bool) (hip : ip.length = n) :
    (∃ asn pos bits, interpret asmap ip = .returned asn pos bits ∧ pos ≤ asmap.length ∧ bits ≤ n) ∧
      ∀ s, Relation.ReflTransGen (fun s s' => interpretStep asmap ip s = .ok s') ⟨0, n, 0⟩ s →
        s.pos ≤ asmap.length ∧ s.bits ≤ n := by
  have hbits : ip.length % 2 ^ 8 = n := by
    rw [hip]
    exact Nat.mod_eq_of_lt (by omega)
  have hreturns := (returns_of_sanityLoop hasmap _ hsane).1
  refine ⟨?_, fun s hrun => interpret_within (Nat.zero_le _) hrun⟩
  rw [interpret, hbits]
  exact hreturns ip 0 (Nat.le_of_eq hip.symm)

/-- A jump over a return to another return, with an address of one bit. -/
theorem interpret_of_sane_jump : let asmap := [true, false] ++ List.replicate 39 false ++ [true]
    (∃ asn pos bits, interpret asmap [true] = .returned asn pos bits ∧
      pos ≤ asmap.length ∧ bits ≤ 1) ∧
      ∀ s, Relation.ReflTransGen (fun s s' => interpretStep asmap [true] s = .ok s') ⟨0, 1, 0⟩ s →
        s.pos ≤ asmap.length ∧ s.bits ≤ 1 :=
  interpret_of_sane _ (by decide) 1 (by decide) (by decide +kernel) [true] rfl

end Bitcoboost.Asmap
