import Bitcoboost.Wallet.SignMulti

/-!
# The backup file of the reference wallet

`save_backup` and `load_backup` of `contrib/pqwallet/bb_pqwallet.cpp`. The cipher and PBKDF2 are
parameters, as is what `rnd` fills in. A read of bytes that are not there and a size below zero
are failures of their own: `size_t` wraps, and the vector of that size throws
`std::length_error`, which nothing catches.
-/

namespace Bitcoboost

open ExceptBind List

/-- `AEADChaCha20Poly1305` with the key of its constructor: a nonce, the data to authenticate and
the text. -/
structure Aead where
  encrypt : BaseBlob 32 → BitVec 32 × BitVec 64 → Bytes → Bytes → Bytes
  decrypt : BaseBlob 32 → BitVec 32 × BitVec 64 → Bytes → Bytes → Option Bytes
  length_encrypt : ∀ key nonce aad plain, (encrypt key nonce aad plain).length = plain.length + 16
  length_decrypt : ∀ key nonce aad cipher plain, decrypt key nonce aad cipher = some plain →
    cipher.length = plain.length + 16
  decrypt_encrypt : ∀ key nonce aad plain, decrypt key nonce aad
    (encrypt key nonce aad plain) = some plain

/-- `AEADChaCha20Poly1305::EXPANSION`. -/
def expansion : Nat := 16

def iters : Nat := 600000

def magic : Bytes := [0x42, 0x42, 0x50, 0x51]

structure BackupKeys (crypto : Crypto) extends Keys crypto where
  net : UInt8

/-- How `load_backup` does not load: it returns false and prints a message, or it does not
return. -/
inductive LoadFailure where
  | refused (message : String)
  | lengthError
  | outOfBounds
deriving DecidableEq, Repr

def LoadReturns {crypto : Crypto} (r : Except LoadFailure (BackupKeys crypto)) : Prop :=
  (∃ k, r = .ok k) ∨ ∃ message, r = .error (.refused message)

def mkNonce (n : BaseBlob 12) : BitVec 32 × BitVec 64 :=
  (BitVec.ofNat 32 (Bytes.leValue (n.data.take 4)), BitVec.ofNat 64 (Bytes.leValue (n.data.drop 4)))

section

variable (crypto : Crypto) (aead : Aead) (pbkdf2 : Bytes → Bytes → BitVec 32 → BaseBlob 32)

/-! ## Writing -/

def BackupKeys.plain {crypto : Crypto} (k : BackupKeys crypto) : Bytes :=
  k.esk.data ++ (k.epk.data ++ (k.msk.data ++ k.mpk.data))

def backupHeader (net : UInt8) (salt : BaseBlob 16) (nonce : BaseBlob 12) : Bytes :=
  magic ++ ([1, net, UInt8.ofNat (iters >>> 24), UInt8.ofNat (iters >>> 16),
    UInt8.ofNat (iters >>> 8), UInt8.ofNat iters] ++ (salt.data ++ nonce.data))

def saveBackup {crypto : Crypto} (pass : Bytes) (k : BackupKeys crypto) (salt : BaseBlob 16)
    (nonce : BaseBlob 12) : Bytes :=
  let key := pbkdf2 pass salt.data (BitVec.ofNat 32 iters)
  let hdr := backupHeader k.net salt nonce
  hdr ++ aead.encrypt key (mkNonce nonce) hdr k.plain

/-! ## Reading -/

def byteAt (v : Bytes) (i : Nat) : Except LoadFailure UInt8 :=
  match v[i]? with
  | some byte => .ok byte
  | none => .error .outOfBounds

/-- Bytes of a vector that are copied from an offset. -/
def blobAt (n : Nat) (v : Bytes) (o : Nat) : Except LoadFailure (BaseBlob n) :=
  match BaseBlob.ofBytes? n ((v.drop o).take n) with
  | some blob => .ok blob
  | none => .error .outOfBounds

/-- The size of a vector, as the difference of two others. -/
def sizeDifference (a b : Nat) : Except LoadFailure Nat :=
  if a < b then .error .lengthError else .ok (a - b)

/-- `load_backup`, from the plain text on. -/
def loadPlain (net : UInt8) (p : Bytes) : Except LoadFailure (BackupKeys crypto) :=
  if p.length ≠ 32 + 33 + 2560 + 1312 then .error (.refused "backup di dimensione inattesa")
  else do
    let esk ← blobAt 32 p 0
    let epk ← blobAt 33 p 32
    let msk ← blobAt 2560 p 65
    let mpk ← blobAt 1312 p 2625
    .ok { esk, epk, msk, mpk, program := crypto.shake256 (epk.data ++ mpk.data)
          program_eq := rfl, net }

/-- `load_backup`, from a header with the right magic on. -/
def loadBody (pass file : Bytes) : Except LoadFailure (BackupKeys crypto) := do
  let net ← byteAt file 5
  let i₀ ← byteAt file 6
  let i₁ ← byteAt file 7
  let i₂ ← byteAt file 8
  let i₃ ← byteAt file 9
  let iters := i₀.toBitVec.setWidth 32 <<< 24 ||| i₁.toBitVec.setWidth 32 <<< 16 |||
    i₂.toBitVec.setWidth 32 <<< 8 ||| i₃.toBitVec.setWidth 32
  let salt ← blobAt 16 file 10
  let nonce ← blobAt 12 file 26
  let hdr ← blobAt 38 file 0
  let ct := file.drop 38
  let key := pbkdf2 pass salt.data iters
  let _ ← sizeDifference ct.length expansion
  match aead.decrypt key (mkNonce nonce) hdr.data ct with
  | none => .error (.refused "passphrase errata o file corrotto")
  | some p => loadPlain crypto net p

/-- `load_backup`, of a file with these bytes. -/
def loadBackup (pass file : Bytes) : Except LoadFailure (BackupKeys crypto) :=
  if file.length < 38 then .error (.refused "file backup non valido")
  else do
    let start ← blobAt 4 file 0
    if start.data ≠ magic then .error (.refused "file backup non valido")
    else loadBody crypto aead pbkdf2 pass file

end

namespace BackupLemmas

variable {crypto : Crypto} {aead : Aead} {pbkdf2 : Bytes → Bytes → BitVec 32 → BaseBlob 32}

/-! ## Reads inside a vector -/

theorem byteAt_of_lt {v : Bytes} {i : Nat} (h : i < v.length) : ∃ byte, byteAt v i = .ok byte := by
  unfold byteAt
  rw [List.getElem?_eq_getElem h]
  exact ⟨_, rfl⟩

theorem blobAt_of_le {n o : Nat} {v : Bytes} (h : o + n ≤ v.length) :
    ∃ blob, blobAt n v o = .ok blob ∧ blob.data = (v.drop o).take n := by
  have hlength : ((v.drop o).take n).length = n := by
    rw [length_take, length_drop]
    omega
  unfold blobAt BaseBlob.ofBytes?
  rw [dif_pos hlength]
  exact ⟨_, rfl, rfl⟩

theorem blobAt_append {n o : Nat} {start rest : Bytes} (blob : BaseBlob n) (h : start.length = o) :
    blobAt n (start ++ (blob.data ++ rest)) o = .ok blob := by
  obtain ⟨found, hfound, hdata⟩ := @blobAt_of_le n o (start ++ (blob.data ++ rest)) (by
    rw [length_append, length_append, h, blob.length_data]
    omega)
  rw [drop_left' h, take_left' blob.length_data] at hdata
  rw [hfound, BaseBlob.ext hdata]

/-! ## What `load_backup` returns -/

theorem returns_loadPlain (net : UInt8) (p : Bytes) : LoadReturns (loadPlain crypto net p) := by
  unfold loadPlain
  split
  · exact .inr ⟨_, rfl⟩
  · next h =>
    obtain ⟨esk, hesk, _⟩ := @blobAt_of_le 32 0 p (by omega)
    obtain ⟨epk, hepk, _⟩ := @blobAt_of_le 33 32 p (by omega)
    obtain ⟨msk, hmsk, _⟩ := @blobAt_of_le 2560 65 p (by omega)
    obtain ⟨mpk, hmpk, _⟩ := @blobAt_of_le 1312 2625 p (by omega)
    rw [hesk, hepk, hmsk, hmpk]
    exact .inl ⟨_, rfl⟩

theorem returns_loadBody {pass file : Bytes} (h : 38 ≤ file.length) :
    LoadReturns (loadBody crypto aead pbkdf2 pass file) ↔ 54 ≤ file.length := by
  obtain ⟨net, hnet⟩ := @byteAt_of_lt file 5 (by omega)
  obtain ⟨i₀, h₀⟩ := @byteAt_of_lt file 6 (by omega)
  obtain ⟨i₁, h₁⟩ := @byteAt_of_lt file 7 (by omega)
  obtain ⟨i₂, h₂⟩ := @byteAt_of_lt file 8 (by omega)
  obtain ⟨i₃, h₃⟩ := @byteAt_of_lt file 9 (by omega)
  obtain ⟨salt, hsalt, _⟩ := @blobAt_of_le 16 10 file (by omega)
  obtain ⟨nonce, hnonce, _⟩ := @blobAt_of_le 12 26 file (by omega)
  obtain ⟨hdr, hhdr, _⟩ := @blobAt_of_le 38 0 file (by omega)
  unfold loadBody
  simp only [hnet, h₀, h₁, h₂, h₃, hsalt, hnonce, hhdr, ok_bind, sizeDifference, expansion,
    length_drop]
  split
  · refine iff_of_false ?_ (by omega)
    rintro (⟨k, hk⟩ | ⟨message, hmessage⟩)
    · cases hk
    · cases hmessage
  · refine iff_of_true ?_ (by omega)
    split
    · exact .inr ⟨_, rfl⟩
    · exact returns_loadPlain net _

/-! ## Round trip -/

theorem length_backupHeader (net : UInt8) (salt : BaseBlob 16) (nonce : BaseBlob 12) :
    (backupHeader net salt nonce).length = 38 := by
  simp [backupHeader, magic, BaseBlob.length_data]

theorem length_plain (k : BackupKeys crypto) : k.plain.length = 3937 := by
  simp [BackupKeys.plain, BaseBlob.length_data]

theorem loadPlain_plain (k : BackupKeys crypto) : loadPlain crypto k.net k.plain = .ok k := by
  have hesk : blobAt 32 k.plain 0 = .ok k.esk := @blobAt_append 32 0 [] _ k.esk rfl
  have hepk : blobAt 33 k.plain 32 = .ok k.epk := blobAt_append k.epk k.esk.length_data
  have hmsk : blobAt 2560 k.plain 65 = .ok k.msk := by
    rw [BackupKeys.plain, ← append_assoc]
    exact blobAt_append k.msk (by rw [length_append, k.esk.length_data, k.epk.length_data])
  have hmpk : blobAt 1312 k.plain 2625 = .ok k.mpk := by
    have hplain : k.plain = (k.esk.data ++ (k.epk.data ++ k.msk.data)) ++ (k.mpk.data ++ []) := by
      simp [BackupKeys.plain]
    rw [hplain]
    refine blobAt_append k.mpk ?_
    rw [length_append, length_append, k.esk.length_data, k.epk.length_data, k.msk.length_data]
  unfold loadPlain
  rw [if_neg (not_not.mpr (length_plain k)), hesk, hepk, hmsk, hmpk]
  obtain ⟨⟨esk, epk, msk, mpk, program, hprogram⟩, net⟩ := k
  subst hprogram
  rfl

theorem loadBody_saveBackup {pass : Bytes} {k : BackupKeys crypto} {salt : BaseBlob 16}
    {nonce : BaseBlob 12} :
    loadBody crypto aead pbkdf2 pass (saveBackup aead pbkdf2 pass k salt nonce) = .ok k := by
  obtain ⟨ct, hct⟩ :
      ∃ ct, aead.encrypt (pbkdf2 pass salt.data (BitVec.ofNat 32 iters)) (mkNonce nonce)
      (backupHeader k.net salt nonce)
    k.plain = ct := ⟨_, rfl⟩
  have hfile : saveBackup aead pbkdf2 pass k salt nonce =
    backupHeader k.net salt nonce ++ ct := by rw [← hct]; rfl
  have hheader := length_backupHeader k.net salt nonce
  have hlength : ct.length = 3953 := by rw [← hct, aead.length_encrypt, length_plain]
  have hsplit : backupHeader k.net salt nonce ++ ct =
      (magic ++ [1, k.net, UInt8.ofNat (iters >>> 24), UInt8.ofNat (iters >>> 16),
      UInt8.ofNat (iters >>> 8), UInt8.ofNat iters]) ++ (salt.data ++ (nonce.data ++ ct)) := by
    simp [backupHeader]
  have hsalt : blobAt 16 (backupHeader k.net salt nonce ++ ct) 10 = .ok salt := by
    rw [hsplit]
    exact blobAt_append salt rfl
  have hnonce : blobAt 12 (backupHeader k.net salt nonce ++ ct) 26 = .ok nonce := by
    rw [hsplit, ← append_assoc]
    exact blobAt_append nonce (by rw [length_append, salt.length_data]; rfl)
  have hhdr : blobAt 38 (backupHeader k.net salt nonce ++ ct) 0 =
    .ok ⟨backupHeader k.net salt nonce, hheader⟩ :=
    @blobAt_append 38 0 [] ct ⟨backupHeader k.net salt nonce, hheader⟩ rfl
  rw [hfile]
  unfold loadBody
  rw [hsalt, hnonce, hhdr]
  have hdrop : (backupHeader k.net salt nonce ++ ct).drop 38 = ct := drop_left' hheader
  have hdecrypt : aead.decrypt (pbkdf2 pass salt.data (BitVec.ofNat 32 iters)) (mkNonce nonce)
      (backupHeader k.net salt nonce) ct = some k.plain := by
    rw [← hct, aead.decrypt_encrypt]
  have hsize : sizeDifference ct.length expansion = .ok (ct.length - expansion) :=
    if_neg (by rw [hlength]; decide)
  -- the first ten bytes of the header are read one by one
  show (sizeDifference ((backupHeader k.net salt nonce ++ ct).drop 38).length expansion >>= fun _ =>
    match aead.decrypt (pbkdf2 pass salt.data (BitVec.ofNat 32 iters)) (mkNonce nonce)
    (backupHeader k.net salt nonce) ((backupHeader k.net salt nonce ++ ct).drop 38) with
    | none => .error (.refused "passphrase errata o file corrotto")
    | some p => loadPlain crypto k.net p) = .ok k
  rw [hdrop, hsize, ok_bind, hdecrypt]
  exact loadPlain_plain k

end BackupLemmas

open BackupLemmas

/-- The backup codec. What is written is loaded again, and `load_backup` returns for every file that
does not end between its header and a tag. -/
theorem loadBackup_codec (crypto : Crypto) (aead : Aead)
    (pbkdf2 : Bytes → Bytes → BitVec 32 → BaseBlob 32) :
    (∀ pass (k : BackupKeys crypto) salt nonce,
      loadBackup crypto aead pbkdf2 pass (saveBackup aead pbkdf2 pass k salt nonce) = .ok k) ∧
    ∀ pass file, LoadReturns (loadBackup crypto aead pbkdf2 pass file) ↔
    ¬(38 ≤ file.length ∧ file.length < 54 ∧ file.take 4 = magic) := by
  constructor
  · intro pass k salt nonce
    obtain ⟨ct, hct⟩ : ∃ ct, saveBackup aead pbkdf2 pass k salt nonce =
      backupHeader k.net salt nonce ++ ct := ⟨_, rfl⟩
    have hlong : ¬(saveBackup aead pbkdf2 pass k salt nonce).length < 38 := by
      rw [hct, length_append, length_backupHeader]
      omega
    have hstart : blobAt 4 (saveBackup aead pbkdf2 pass k salt nonce) 0 = .ok ⟨magic, rfl⟩ :=
      hct ▸ @blobAt_append 4 0 [] _ ⟨magic, rfl⟩ rfl
    unfold loadBackup
    rw [if_neg hlong, hstart, ok_bind, if_neg (not_not.mpr rfl)]
    exact loadBody_saveBackup
  · intro pass file
    unfold loadBackup
    split
    · exact iff_of_true (.inr ⟨_, rfl⟩) (by omega)
    · next hlong =>
      obtain ⟨start, hstart, hdata⟩ := @blobAt_of_le 4 0 file (by omega)
      rw [hstart, ok_bind, hdata]
      split
      · next hmagic => exact iff_of_true (.inr ⟨_, rfl⟩) fun h => hmagic h.2.2
      · next hmagic =>
        rw [returns_loadBody (not_lt.mp hlong)]
        refine ⟨fun hlength h => absurd h.2.1 (not_lt.mpr hlength), fun h =>
          not_lt.mp fun hlt => ?_⟩
        exact h ⟨not_lt.mp hlong, hlt, not_not.mp hmagic⟩

def zeroTagAead : Aead where
  encrypt _ _ _ plain := plain ++ List.replicate 16 0
  decrypt _ _ _ cipher :=
    if cipher.drop (cipher.length - 16) = List.replicate 16 0 then
      some (cipher.take (cipher.length - 16))
    else none
  length_encrypt := fun _ _ _ plain => by rw [length_append, length_replicate]
  length_decrypt := by
    intro _ _ _ cipher plain h
    split at h
    · next htag =>
      have hlength := congrArg List.length htag
      rw [length_drop, length_replicate] at hlength
      cases h
      rw [length_take]
      omega
    · cases h
  decrypt_encrypt := by
    intro _ _ _ plain
    have hlength : (plain ++ List.replicate 16 (0 : UInt8)).length - 16 = plain.length := by
      rw [length_append, length_replicate, Nat.add_sub_cancel]
    rw [hlength, drop_left, if_pos rfl, take_left]

/-- A file that was cut off after its header. -/
theorem loadBackup_truncated :
    loadBackup acceptingCrypto zeroTagAead (fun _ _ _ => ⟨List.replicate 32 0, rfl⟩) []
    (magic ++ List.replicate 34 0) =
      .error .lengthError := by
  rfl

end Bitcoboost
