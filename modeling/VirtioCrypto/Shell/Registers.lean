import VirtioCrypto.Shell.Client

/-!
# Shell — the IV register over whole sessions

`decrypt_data` passes a zero IV with its operation, `encrypt_data` passes none:
an encryption starts from whatever the operation before it left in the session's
register. Here the two programs run as a whole, the client over any number of
commands and the server over any number of connections, and every operation is
logged with the register it found (`Proc.calls`).

A decryption leaves the last block of the string it was given, zero-filled, which
is zero exactly when the string ends before that block (`Short`).

* `lastBlock_eq_zero_iff` — what a decryption leaves;
* `clientRun_zeroIv_iff` — the client: the last reply read for each command but the
  last one is short;
* `serverRun_zeroIv_iff` — the server: every request it answers is short;
* `zeroIv_iff` — both;
* `long_request_leaves_iv` — a request whose ciphertext reaches into its last block.
-/

namespace VirtioCrypto.Shell

open Octets Cryptodev Chaining

-- ---------------------------------------------------------------------------
-- Whole runs
-- ---------------------------------------------------------------------------

/-- What the client meets in one turn of its loop: the array `fgets` filled, what
the reads of the reply return, and the memory around `out_buffer`. -/
structure Exchange where
  inData : Bytes
  reads : List Bytes
  stray : Nat → Int → UInt8
  /-- What `fgets` leaves. -/
  line : ∃ m, cstr inData = some m ∧ m.length < DATA_SIZE

/-- One command of the client: encrypt it, send it, read the reply. -/
def clientCommand (K : Kernel) (p : Proc) (x : Exchange) : Proc × Bool :=
  match encryptData K p x.inData (zeros ENC_SIZE) with
  | (p, none) => (p, false)
  | (p, some _) =>
    let r := receive K x.stray p 0 x.reads
    (r.proc, r.left ≠ .overrun)

/-- The client's loop over its commands. -/
def clientRun (K : Kernel) : Proc → List Exchange → Proc × Bool
  | p, [] => (p, true)
  | p, x :: xs =>
    match clientCommand K p x with
    | (p, false) => (p, false)
    | (p, true) => clientRun K p xs

/-- The server's loop over its connections, each given by its reads. -/
def serverRun (K : Kernel) (W : World) : Server → List (List Bytes) → Server × Bool
  | s, [] => (s, true)
  | s, reads :: conns =>
    match serverLoop K W s reads with
    | (s, false) => (s, false)
    | (s, true) => serverRun K W s conns

/-- Every encryption found the zero register. -/
def ZeroIv (calls : List CryptCall) : Prop :=
  ∀ call ∈ calls, call.dir = .encrypt → call.register = zeros BLOCK_SIZE

-- ---------------------------------------------------------------------------
-- What the two programs are given
-- ---------------------------------------------------------------------------

/-- The string in the buffer ends before the last block. -/
def Short (buf : Bytes) : Prop := ∀ t, cstr buf = some t → t.length ≤ ENC_SIZE - BLOCK_SIZE

/-- The buffers the receive loop has for `decrypt_data`: those before the first that
ends in the mark. -/
def passes (stray : Nat → Int → UInt8) : Nat → List Bytes → List Bytes
  | got, [] => if (isEot (stray got) (zeros ENC_SIZE) 0).2 then [] else [zeros ENC_SIZE]
  | got, chunk :: reads =>
    if (isEot (stray got) (padTo ENC_SIZE chunk) chunk.length).2 then []
    else padTo ENC_SIZE chunk :: passes stray (got + chunk.length) reads

/-- From the zero register the exchange gets back to it: the last buffer it decrypts
is short, or it decrypts none and the last ciphertext block of the command is zero. -/
def Exchange.Settles (P : Equiv.Perm (Blk BLOCK_SIZE)) (x : Exchange) : Prop :=
  (∀ buf, (passes x.stray 0 x.reads).getLast? = some buf → Short buf) ∧
    (passes x.stray 0 x.reads = [] → ∀ m, cstr x.inData = some m →
      lastBlock (Blk.zero BLOCK_SIZE) BLOCKS
        (cbcEnc P (Blk.zero BLOCK_SIZE) BLOCKS (padTo DATA_SIZE m)) = Blk.zero BLOCK_SIZE)

/-- Every exchange of the client that is followed by another one settles. -/
def ClientSettles (K : Kernel) (P : Equiv.Perm (Blk BLOCK_SIZE)) : Proc → List Exchange → Prop
  | _, [] => True
  | p, x :: xs => (clientCommand K p x).2 = true →
      (xs ≠ [] → x.Settles P) ∧ ClientSettles K P (clientCommand K p x).1 xs

/-- The server's turn on `chunk` gets as far as the encryption of a reply. -/
def Replies (K : Kernel) (W : World) (P : Equiv.Perm (Blk BLOCK_SIZE)) (s : Server)
    (chunk : Bytes) : Prop :=
  ∃ outData u s₁ out, clearString s.outData = some outData ∧
    decrypted P (padTo ENC_SIZE chunk) = some u ∧
    ¬ (u = [] ∨ (padTo ENC_SIZE chunk).head? = some 0) ∧
    runCommand W ⟨afterRead K s chunk, outData, s.log⟩ (padTo ENC_SIZE chunk) (padTo MSG_SIZE u) =
      (s₁, true) ∧
    cstr s₁.outData = some out ∧ out.length < DATA_SIZE

/-- Every read of a connection that the server replies to is short. -/
def LoopSettles (K : Kernel) (W : World) (P : Equiv.Perm (Blk BLOCK_SIZE)) :
    Server → List Bytes → Prop
  | _, [] => True
  | s, chunk :: reads => (Replies K W P s chunk → Short (padTo ENC_SIZE chunk)) ∧
      ((serverTurn K W s chunk).2 = some true → LoopSettles K W P (serverTurn K W s chunk).1 reads)

/-- The same of all its connections. -/
def RunSettles (K : Kernel) (W : World) (P : Equiv.Perm (Blk BLOCK_SIZE)) :
    Server → List (List Bytes) → Prop
  | _, [] => True
  | s, reads :: conns => LoopSettles K W P s reads ∧
      ((serverLoop K W s reads).2 = true → RunSettles K W P (serverLoop K W s reads).1 conns)

variable {K : Kernel} {W : World} {s : Server} {p : Proc}
  {perm : Bytes → Equiv.Perm (Blk BLOCK_SIZE)} {key : Bytes} {iv : Blk BLOCK_SIZE}

-- ---------------------------------------------------------------------------
-- What an operation leaves, and what it adds
-- ---------------------------------------------------------------------------

/-- The last block of a string in a buffer of zeros is zero exactly when the string
ends before it. -/
theorem lastBlock_eq_zero_iff {t : Bytes} (h0 : 0 ∉ t) (hLt : t.length < ENC_SIZE) :
    lastBlock (Blk.zero BLOCK_SIZE) BLOCKS (padTo ENC_SIZE t) = Blk.zero BLOCK_SIZE ↔
      t.length ≤ ENC_SIZE - BLOCK_SIZE := by
  have hDrop : ((padTo ENC_SIZE t).drop (ENC_SIZE - BLOCK_SIZE)).length = BLOCK_SIZE := by
    rw [List.length_drop, length_padTo (Nat.le_of_lt hLt)]
    rfl
  have hLast : (lastBlock (Blk.zero BLOCK_SIZE) BLOCKS (padTo ENC_SIZE t)).1 =
      (padTo ENC_SIZE t).drop (ENC_SIZE - BLOCK_SIZE) := by
    show (Blk.ofBytes BLOCK_SIZE ((padTo ENC_SIZE t).drop (ENC_SIZE - BLOCK_SIZE))).1 = _
    rw [Blk.ofBytes_val hDrop.ge, List.take_of_length_le hDrop.le]
  rw [← Subtype.coe_inj, hLast, show (Blk.zero BLOCK_SIZE).1 = zeros BLOCK_SIZE from rfl, padTo,
    List.drop_append]
  constructor
  · intro hZero
    by_contra hLong
    obtain ⟨b, rest, hHead⟩ := List.exists_cons_of_ne_nil
      (show t.drop (ENC_SIZE - BLOCK_SIZE) ≠ [] by rw [ne_eq, List.drop_eq_nil_iff]; exact hLong)
    have hMem : b ∈ zeros BLOCK_SIZE := by
      rw [← hZero, hHead]
      exact List.mem_cons_self
    refine h0 ?_
    rw [← List.eq_of_mem_replicate hMem]
    exact List.mem_of_mem_drop (hHead ▸ List.mem_cons_self)
  · intro hShort
    rw [List.drop_eq_nil_of_le hShort, List.nil_append, zeros, List.drop_replicate, zeros]
    congr 1
    simp only [ENC_SIZE, BLOCK_SIZE] at hShort ⊢
    omega

theorem zeroIv_append {calls new : List CryptCall} :
    ZeroIv (calls ++ new) ↔ ZeroIv calls ∧ ZeroIv new := by
  simp only [ZeroIv, List.mem_append, or_imp, forall_and]

/-- An encryption of a string that fits. -/
theorem encryptData_zeroIv (h : Session perm key iv p) {arr m : Bytes} (hArr : cstr arr = some m)
    (hm : m.length < DATA_SIZE) (enc : Bytes) :
    ZeroIv (encryptData K p arr enc).1.calls ↔ ZeroIv p.calls ∧ iv = Blk.zero BLOCK_SIZE := by
  obtain ⟨p', hEnc, -, hCalls⟩ := encryptData_spec (K := K) h hArr hm enc
  rw [hEnc, hCalls, zeroIv_append, ← Subtype.coe_inj]
  refine and_congr_right fun _ => ?_
  simp only [ZeroIv, List.mem_singleton, forall_eq, forall_const]
  rfl

/-- No operation is forgotten. -/
theorem encryptData_keeps (arr enc : Bytes) (h : ZeroIv (encryptData K p arr enc).1.calls) :
    ZeroIv p.calls := by
  unfold encryptData at h
  split at h
  · exact h
  rename_i input _
  have hOp : ∀ r, ioctlCrypt K p (Function.update zeroed .input input) .encrypt DATA_SIZE .input
      .encrypted none = r → ZeroIv r.1.calls → ZeroIv p.calls := by
    rintro r rfl hZero
    exact (zeroIv_append.mp hZero).1
  generalize ioctlCrypt K p (Function.update zeroed .input input) .encrypt DATA_SIZE .input
    .encrypted none = r at hOp h
  obtain ⟨p', data, _ | _⟩ := r
  · exact hOp _ rfl h
  · exact hOp _ rfl h

/-- A decryption is no encryption. -/
theorem decryptData_zeroIv (enc arr : Bytes) :
    ZeroIv (decryptData K p enc arr).1.calls ↔ ZeroIv p.calls := by
  unfold decryptData
  split
  · rfl
  rename_i encrypted _
  have hOp : ∀ r, ioctlCrypt K p (Function.update zeroed .encrypted encrypted) .decrypt ENC_SIZE
      .encrypted .decrypted (some .iv) = r → (ZeroIv r.1.calls ↔ ZeroIv p.calls) := by
    rintro r rfl
    show ZeroIv (p.calls ++ [_]) ↔ _
    rw [zeroIv_append, and_iff_left]
    simp [ZeroIv]
  generalize ioctlCrypt K p (Function.update zeroed .encrypted encrypted) .decrypt ENC_SIZE
    .encrypted .decrypted (some .iv) = r at hOp ⊢
  obtain ⟨p', data, _ | _⟩ := r
  · exact hOp _ rfl
  · exact hOp _ rfl

/-- A decryption that gets through found a string, and leaves its last block. -/
theorem decryptData_leaves (h : Session perm key iv p) {buf arr out : Bytes}
    (hOk : (decryptData K p buf arr).2 = some out) :
    ∃ t, cstr buf = some t ∧ t.length < ENC_SIZE ∧
      Session perm key (lastBlock (Blk.zero BLOCK_SIZE) BLOCKS (padTo ENC_SIZE t))
        (decryptData K p buf arr).1 := by
  cases hCopy : strcpy (zeroed .encrypted) buf with
  | none =>
    rw [decryptData, hCopy] at hOk
    exact absurd hOk (by simp)
  | some encrypted =>
    obtain ⟨t, ht, hLt, -⟩ := strcpy_zeros_eq_some_iff.mp hCopy
    obtain ⟨p', hDec, hSession, -⟩ := decryptData_spec (K := K) h ht hLt arr
    rw [hDec]
    exact ⟨t, ht, hLt, hSession⟩

/-- The register a decryption of the buffer leaves. -/
def leftBy (buf : Bytes) : Blk BLOCK_SIZE :=
  lastBlock (Blk.zero BLOCK_SIZE) BLOCKS (padTo ENC_SIZE ((cstr buf).getD []))

theorem leftBy_eq_zero_iff {buf t : Bytes} (ht : cstr buf = some t) (hLt : t.length < ENC_SIZE) :
    leftBy buf = Blk.zero BLOCK_SIZE ↔ Short buf := by
  rw [leftBy, ht, Option.getD_some, lastBlock_eq_zero_iff (cstr_eq_some_iff.mp ht).1 hLt]
  constructor
  · intro hShort t' ht'
    obtain rfl := Option.some.inj (ht.symm.trans ht')
    exact hShort
  · intro hShort
    exact hShort t ht

-- ---------------------------------------------------------------------------
-- The client
-- ---------------------------------------------------------------------------

theorem receive_zeroIv (stray : Nat → Int → UInt8) (reads : List Bytes) :
    ∀ (p : Proc) (got : Nat), ZeroIv (receive K stray p got reads).proc.calls ↔ ZeroIv p.calls := by
  induction reads with
  | nil =>
    intro p got
    have hDec := decryptData_zeroIv (K := K) (p := p) (zeros ENC_SIZE) (zeros MSG_SIZE)
    rw [receive]
    generalize decryptData K p (zeros ENC_SIZE) (zeros MSG_SIZE) = r at hDec ⊢
    generalize isEot (stray got) (zeros ENC_SIZE) 0 = test
    obtain ⟨seen, _ | _⟩ := test
    · obtain ⟨p', _ | _⟩ := r
      · exact hDec
      · exact hDec
    · rfl
  | cons chunk reads ih =>
    intro p got
    have hDec := decryptData_zeroIv (K := K) (p := p) (padTo ENC_SIZE chunk) (zeros MSG_SIZE)
    rw [receive]
    generalize decryptData K p (padTo ENC_SIZE chunk) (zeros MSG_SIZE) = r at hDec ⊢
    generalize isEot (stray got) (padTo ENC_SIZE chunk) chunk.length = test
    obtain ⟨seen, _ | _⟩ := test
    · obtain ⟨p', _ | _⟩ := r
      · exact hDec
      · exact (ih p' _).trans hDec
    · rfl

/-- The register after the reply has been read: the one the last decryption left. -/
theorem receive_leaves (stray : Nat → Int → UInt8) (reads : List Bytes) :
    ∀ {p : Proc} {iv : Blk BLOCK_SIZE} {got : Nat}, Session perm key iv p →
      (receive K stray p got reads).left ≠ .overrun →
      Session perm key (((passes stray got reads).getLast?.map leftBy).getD iv)
          (receive K stray p got reads).proc ∧
        ∀ buf ∈ passes stray got reads, ∃ t, cstr buf = some t ∧ t.length < ENC_SIZE := by
  induction reads with
  | nil =>
    intro p iv got h hNo
    have hDec := @decryptData_leaves K p perm key iv h (zeros ENC_SIZE) (zeros MSG_SIZE)
    rw [receive] at hNo ⊢
    rw [passes]
    generalize decryptData K p (zeros ENC_SIZE) (zeros MSG_SIZE) = r at hDec hNo ⊢
    generalize isEot (stray got) (zeros ENC_SIZE) 0 = test at hNo ⊢
    obtain ⟨seen, _ | _⟩ := test
    · obtain ⟨p', _ | out⟩ := r
      · exact absurd rfl hNo
      · obtain ⟨t, ht, hLt, hSession⟩ := hDec rfl
        refine ⟨?_, ?_⟩
        · simpa [leftBy, ht] using hSession
        · intro buf hBuf
          obtain rfl : buf = zeros ENC_SIZE := by simpa using hBuf
          exact ⟨t, ht, hLt⟩
    · exact ⟨h, by simp⟩
  | cons chunk reads ih =>
    intro p iv got h hNo
    have hDec := @decryptData_leaves K p perm key iv h (padTo ENC_SIZE chunk) (zeros MSG_SIZE)
    rw [receive] at hNo ⊢
    rw [passes]
    generalize decryptData K p (padTo ENC_SIZE chunk) (zeros MSG_SIZE) = r at hDec hNo ⊢
    generalize isEot (stray got) (padTo ENC_SIZE chunk) chunk.length = test at hNo ⊢
    obtain ⟨seen, _ | _⟩ := test
    · obtain ⟨p', _ | out⟩ := r
      · exact absurd rfl hNo
      · obtain ⟨t, ht, hLt, hSession⟩ := hDec rfl
        obtain ⟨hLast, hAll⟩ := ih hSession hNo
        refine ⟨?_, ?_⟩
        · rw [if_neg (by simp), List.getLast?_cons]
          cases hRest : (passes stray (got + chunk.length) reads).getLast? with
          | none => simpa [hRest, leftBy, ht] using hLast
          | some buf => simpa [hRest] using hLast
        · intro buf hBuf
          rw [if_neg (by simp)] at hBuf
          rcases List.mem_cons.mp hBuf with rfl | hBuf
          · exact ⟨t, ht, hLt⟩
          · exact hAll buf hBuf
    · exact ⟨h, by simp⟩

theorem clientCommand_zeroIv (h : Session perm key iv p) (x : Exchange) :
    ZeroIv (clientCommand K p x).1.calls ↔ ZeroIv p.calls ∧ iv = Blk.zero BLOCK_SIZE := by
  obtain ⟨m, hm, hLt⟩ := x.line
  rw [← encryptData_zeroIv (K := K) h hm hLt (zeros ENC_SIZE), clientCommand]
  generalize encryptData K p x.inData (zeros ENC_SIZE) = r
  obtain ⟨p', _ | _⟩ := r
  · rfl
  · exact receive_zeroIv x.stray x.reads p' 0

theorem clientCommand_keeps {x : Exchange} (h : ZeroIv (clientCommand K p x).1.calls) :
    ZeroIv p.calls := by
  refine encryptData_keeps (K := K) x.inData (zeros ENC_SIZE) ?_
  rw [clientCommand] at h
  generalize encryptData K p x.inData (zeros ENC_SIZE) = r at h ⊢
  obtain ⟨p', _ | _⟩ := r
  · exact h
  · exact (receive_zeroIv x.stray x.reads p' 0).mp h

theorem clientRun_keeps (xs : List Exchange) :
    ∀ {p : Proc}, ZeroIv (clientRun K p xs).1.calls → ZeroIv p.calls := by
  induction xs with
  | nil =>
    intro p h
    exact h
  | cons x xs ih =>
    intro p h
    refine clientCommand_keeps (K := K) (x := x) ?_
    rw [clientRun] at h
    generalize clientCommand K p x = r at h ⊢
    obtain ⟨p', _ | _⟩ := r
    · exact h
    · exact ih h

/-- An exchange that gets through leaves the zero register exactly when it settles. -/
theorem clientCommand_leaves (h : Session perm key (Blk.zero BLOCK_SIZE) p) {x : Exchange}
    (hOk : (clientCommand K p x).2 = true) :
    ∃ iv', Session perm key iv' (clientCommand K p x).1 ∧
      (iv' = Blk.zero BLOCK_SIZE ↔ x.Settles (perm key)) := by
  obtain ⟨m, hm, hLt⟩ := x.line
  obtain ⟨p', hEnc, hSession, -⟩ := encryptData_spec (K := K) h hm hLt (zeros ENC_SIZE)
  rw [clientCommand, hEnc] at hOk ⊢
  cases hCopy : strcpy (zeros ENC_SIZE)
      (cbcEnc (perm key) (Blk.zero BLOCK_SIZE) BLOCKS (padTo DATA_SIZE m)) with
  | none =>
    rw [hCopy] at hOk
    exact absurd hOk (by simp)
  | some enc =>
    simp only [hCopy, decide_eq_true_eq] at hOk ⊢
    obtain ⟨hLast, hAll⟩ := receive_leaves x.stray x.reads hSession hOk
    refine ⟨_, hLast, ?_⟩
    rw [Exchange.Settles, ← List.getLast?_eq_none_iff]
    cases hPasses : (passes x.stray 0 x.reads).getLast? with
    | none =>
      constructor
      · intro hZero
        refine ⟨by simp, fun _ m' hm' => ?_⟩
        obtain rfl := Option.some.inj (hm.symm.trans hm')
        exact hZero
      · intro hZero
        exact hZero.2 rfl m hm
    | some buf =>
      obtain ⟨t, ht, hLt'⟩ := hAll buf (List.mem_of_getLast? hPasses)
      simpa using leftBy_eq_zero_iff ht hLt'

/-- **The client.** All its encryptions start from the zero register exactly when
every exchange that another command follows settles. -/
theorem clientRun_zeroIv_iff (xs : List Exchange) :
    ∀ {p : Proc}, Session perm key (Blk.zero BLOCK_SIZE) p →
      (ZeroIv (clientRun K p xs).1.calls ↔ ZeroIv p.calls ∧ ClientSettles K (perm key) p xs) := by
  induction xs with
  | nil =>
    intro p _
    exact (and_iff_left trivial).symm
  | cons x xs ih =>
    intro p h
    have hCommand := clientCommand_zeroIv (K := K) h x
    rw [and_iff_left rfl] at hCommand
    rw [ClientSettles, ← hCommand]
    have hLeaves := @clientCommand_leaves K p perm key h x
    rw [clientRun]
    generalize clientCommand K p x = r at hLeaves ⊢
    obtain ⟨p', _ | _⟩ := r
    · simp
    · obtain ⟨iv', hSession, hZero⟩ := hLeaves rfl
      simp only [forall_const]
      by_cases hSettles : x.Settles (perm key)
      · rw [hZero.mpr hSettles] at hSession
        rw [ih hSession]
        simp [hSettles]
      · -- the register is not zero, and the next command would find it
        cases xs with
        | nil => simp [clientRun, ClientSettles]
        | cons y ys =>
          have hNext : ¬ ZeroIv (clientRun K p' (y :: ys)).1.calls := by
            intro hRun
            rw [clientRun] at hRun
            refine hSettles (hZero.mp ((clientCommand_zeroIv (K := K) hSession y).mp ?_).2)
            generalize clientCommand K p' y = r at hRun ⊢
            obtain ⟨p'', _ | _⟩ := r
            · exact hRun
            · exact clientRun_keeps ys hRun
          simp [hNext, hSettles]

-- ---------------------------------------------------------------------------
-- The server
-- ---------------------------------------------------------------------------

theorem runCommand_proc (inBuffer inData : Bytes) :
    (runCommand W s inBuffer inData).1.proc = s.proc := by
  unfold runCommand
  split
  · split <;> rfl
  · simp only
    split <;> rfl

/-- The reply is encrypted from the register the server is in, if it gets that far. -/
theorem sendReply_zeroIv (h : Session perm key iv s.proc) (inData : Bytes) :
    ZeroIv (sendReply K W s inData).1.proc.calls ↔
      ZeroIv s.proc.calls ∧
        ((∃ out, cstr s.outData = some out ∧ out.length < DATA_SIZE) → iv = Blk.zero BLOCK_SIZE) := by
  have hSend : ZeroIv (sendReply K W s inData).1.proc.calls ↔
      ZeroIv (encryptData K s.proc s.outData (zeros ENC_SIZE)).1.calls := by
    unfold sendReply
    generalize encryptData K s.proc s.outData (zeros ENC_SIZE) = r
    obtain ⟨p', _ | outBuffer⟩ := r
    · rfl
    · exact decryptData_zeroIv outBuffer inData
  rw [hSend]
  by_cases hFits : ∃ out, cstr s.outData = some out ∧ out.length < DATA_SIZE
  · obtain ⟨out, hOut, hLt⟩ := hFits
    rw [encryptData_zeroIv h hOut hLt]
    exact and_congr_right fun _ => ⟨fun hZero _ => hZero, fun hZero => hZero ⟨out, hOut, hLt⟩⟩
  · have hCopy : strcpy (zeros DATA_SIZE) s.outData = none := by
      cases hStr : strcpy (zeros DATA_SIZE) s.outData with
      | none => rfl
      | some input =>
        obtain ⟨out, hOut, hLt, -⟩ := strcpy_zeros_eq_some_iff.mp hStr
        exact absurd ⟨out, hOut, hLt⟩ hFits
    rw [encryptData_none hCopy]
    exact (and_iff_left fun hYes => absurd hYes hFits).symm

/-- **One turn.** It adds an encryption from another register than zero exactly when
it replies to a read that is not short. -/
theorem serverTurn_zeroIv (h : Session perm key iv s.proc) {chunk : Bytes}
    (hChunk : chunk.length ≤ ENC_SIZE) :
    ZeroIv (serverTurn K W s chunk).1.proc.calls ↔
      ZeroIv s.proc.calls ∧
        (Replies K W (perm key) s chunk → Short (padTo ENC_SIZE chunk)) := by
  obtain ⟨iv', hSession, hIv, hTurn⟩ := serverTurn_eq (K := K) (W := W) h hChunk
  have hRead : ZeroIv (afterRead K s chunk).calls ↔ ZeroIv s.proc.calls := decryptData_zeroIv _ _
  rw [hTurn]
  cases hClear : clearString s.outData with
  | none =>
    refine (and_iff_left ?_).symm
    rintro ⟨_, _, _, _, hSome, _⟩
    exact absurd (hClear.symm.trans hSome) (by simp)
  | some outData =>
  cases hu : decrypted (perm key) (padTo ENC_SIZE chunk) with
  | none =>
    refine hRead.trans (and_iff_left ?_).symm
    rintro ⟨_, _, _, _, _, hSome, _⟩
    exact absurd (hu.symm.trans hSome) (by simp)
  | some u =>
  by_cases hStop : u = [] ∨ (padTo ENC_SIZE chunk).head? = some 0
  · simp only [if_pos hStop]
    refine hRead.trans (and_iff_left ?_).symm
    rintro ⟨_, u', _, _, _, hSome, hGo, _⟩
    obtain rfl := Option.some.inj (hu.symm.trans hSome)
    exact absurd hStop hGo
  simp only [if_neg hStop]
  have hReplies : Replies K W (perm key) s chunk ↔
      ∃ s₁ out, runCommand W ⟨afterRead K s chunk, outData, s.log⟩ (padTo ENC_SIZE chunk)
        (padTo MSG_SIZE u) = (s₁, true) ∧ cstr s₁.outData = some out ∧ out.length < DATA_SIZE := by
    constructor
    · rintro ⟨outData', u', s₁, out, hSome, hSome', _, hRest⟩
      obtain rfl := Option.some.inj (hClear.symm.trans hSome)
      obtain rfl := Option.some.inj (hu.symm.trans hSome')
      exact ⟨s₁, out, hRest⟩
    · rintro ⟨s₁, out, hRest⟩
      exact ⟨outData, u, s₁, out, hClear, hu, hStop, hRest⟩
  have hProc := runCommand_proc (W := W) (s := ⟨afterRead K s chunk, outData, s.log⟩)
    (padTo ENC_SIZE chunk) (padTo MSG_SIZE u)
  rw [hReplies, ← hRead]
  generalize runCommand W ⟨afterRead K s chunk, outData, s.log⟩ (padTo ENC_SIZE chunk)
    (padTo MSG_SIZE u) = r at hProc ⊢
  obtain ⟨s₁, _ | _⟩ := r
  · rw [show s₁.proc = afterRead K s chunk from hProc]
    simp
  · -- the register is the last block of the request
    obtain ⟨t, ht, -⟩ := Option.bind_eq_some_iff.mp hu
    have hLt : t.length < ENC_SIZE := length_lt_of_cstr_buffer (length_padTo hChunk) ht
    have hZero : iv' = Blk.zero BLOCK_SIZE ↔ Short (padTo ENC_SIZE chunk) := by
      rw [hIv t ht, ← leftBy_eq_zero_iff ht hLt, leftBy, ht, Option.getD_some]
    have hProc₁ : s₁.proc = afterRead K s chunk := hProc
    have hSend := sendReply_zeroIv (K := K) (W := W) (s := s₁) (hProc₁ ▸ hSession) (padTo MSG_SIZE u)
    rw [hZero, hProc₁] at hSend
    have hRest : (∃ s₂ out, (s₁, true) = (s₂, true) ∧ cstr s₂.outData = some out ∧
        out.length < DATA_SIZE) ↔ ∃ out, cstr s₁.outData = some out ∧ out.length < DATA_SIZE := by
      simp
    rw [hRest, ← hSend]
    dsimp only
    generalize sendReply K W s₁ (padTo MSG_SIZE u) = r
    obtain ⟨s₂, _ | _⟩ := r
    · rfl
    · rfl

/-- A property of the session that the two calls keep, the server's loop keeps. -/
structure Kept (K : Kernel) (I : Proc → Prop) : Prop where
  encrypt : ∀ {p}, I p → ∀ arr enc, I (encryptData K p arr enc).1
  decrypt : ∀ {p}, I p → ∀ enc arr, I (decryptData K p enc arr).1

theorem serverTurn_keeps {I : Proc → Prop} (hI : Kept K I) (h : I s.proc) (chunk : Bytes) :
    I (serverTurn K W s chunk).1.proc := by
  have hDec := hI.decrypt h (padTo ENC_SIZE chunk) (zeros MSG_SIZE)
  unfold serverTurn
  split
  · exact h
  rename_i outData _
  simp only
  generalize decryptData K s.proc (padTo ENC_SIZE chunk) (zeros MSG_SIZE) = r at hDec ⊢
  obtain ⟨p, _ | inData⟩ := r
  · exact hDec
  simp only
  split
  · exact hDec
  have hRun : I (runCommand W ⟨p, outData, s.log⟩ (padTo ENC_SIZE chunk) inData).1.proc := by
    rw [runCommand_proc]
    exact hDec
  generalize runCommand W ⟨p, outData, s.log⟩ (padTo ENC_SIZE chunk) inData = r at hRun ⊢
  obtain ⟨s₁, _ | _⟩ := r
  · exact hRun
  have hSend : I (sendReply K W s₁ inData).1.proc := by
    have hEnc := hI.encrypt hRun s₁.outData (zeros ENC_SIZE)
    unfold sendReply
    generalize encryptData K s₁.proc s₁.outData (zeros ENC_SIZE) = r at hEnc ⊢
    obtain ⟨p', _ | outBuffer⟩ := r
    · exact hEnc
    · exact hI.decrypt hEnc outBuffer inData
  simp only
  generalize sendReply K W s₁ inData = r at hSend ⊢
  obtain ⟨s₂, _ | _⟩ := r
  · exact hSend
  · exact hSend

/-- The session stays a session. -/
theorem kept_session (K : Kernel) (perm : Bytes → Equiv.Perm (Blk BLOCK_SIZE)) (key : Bytes) :
    Kept K fun p => ∃ iv, Session perm key iv p := by
  refine ⟨?_, ?_⟩
  · rintro p ⟨iv, h⟩ arr enc
    cases hCopy : strcpy (zeros DATA_SIZE) arr with
    | none =>
      rw [encryptData_none hCopy]
      exact ⟨iv, h⟩
    | some input =>
      obtain ⟨m, hm, hLt, -⟩ := strcpy_zeros_eq_some_iff.mp hCopy
      obtain ⟨p', hEnc, hSession, -⟩ := encryptData_spec (K := K) h hm hLt enc
      rw [hEnc]
      exact ⟨_, hSession⟩
  · rintro p ⟨iv, h⟩ enc arr
    cases hCopy : strcpy (zeroed .encrypted) enc with
    | none =>
      rw [decryptData, hCopy]
      exact ⟨iv, h⟩
    | some encrypted =>
      obtain ⟨t, ht, hLt, -⟩ := strcpy_zeros_eq_some_iff.mp hCopy
      obtain ⟨p', hDec, hSession, -⟩ := decryptData_spec (K := K) h ht hLt arr
      rw [hDec]
      exact ⟨_, hSession⟩

/-- Nothing is answered at the end of the stream. -/
theorem not_replies_nil (P : Equiv.Perm (Blk BLOCK_SIZE)) : ¬ Replies K W P s [] := by
  rintro ⟨_, _, _, _, _, _, hGo, _⟩
  exact hGo (.inr ((head?_padTo (by simp) (by decide)).mpr rfl))

theorem serverLoop_zeroIv_iff (reads : List Bytes) (hReads : ∀ f ∈ reads, f.length ≤ ENC_SIZE) :
    ∀ {s : Server}, (∃ iv, Session perm key iv s.proc) →
      (∃ iv, Session perm key iv (serverLoop K W s reads).1.proc) ∧
        (ZeroIv (serverLoop K W s reads).1.proc.calls ↔
          ZeroIv s.proc.calls ∧ LoopSettles K W (perm key) s reads) := by
  induction reads with
  | nil =>
    rintro s ⟨iv, h⟩
    have hNil : ([] : Bytes).length ≤ ENC_SIZE := Nat.zero_le _
    have hTurn := serverTurn_zeroIv (K := K) (W := W) h hNil
    have hKeeps := serverTurn_keeps (W := W) (kept_session K perm key) ⟨iv, h⟩ []
    rw [and_iff_left fun hReplies => absurd hReplies (not_replies_nil (perm key))] at hTurn
    rw [serverLoop, LoopSettles, and_true]
    generalize serverTurn K W s [] = r at hTurn hKeeps ⊢
    exact ⟨hKeeps, hTurn⟩
  | cons chunk reads ih =>
    rintro s ⟨iv, h⟩
    have hTurn := serverTurn_zeroIv (K := K) (W := W) h (hReads chunk (by simp))
    have hKeeps := serverTurn_keeps (W := W) (kept_session K perm key) ⟨iv, h⟩ chunk
    rw [serverLoop, LoopSettles, ← and_assoc, ← hTurn]
    generalize serverTurn K W s chunk = r at hKeeps ⊢
    obtain ⟨s₁, _ | _ | _⟩ := r
    · exact ⟨hKeeps, by simp⟩
    · exact ⟨hKeeps, by simp⟩
    · simpa using ih (fun f hf => hReads f (by simp [hf])) hKeeps

/-- **The server.** All its encryptions start from the zero register exactly when
every read it replies to is short. -/
theorem serverRun_zeroIv_iff (conns : List (List Bytes))
    (hConns : ∀ reads ∈ conns, ∀ f ∈ reads, f.length ≤ ENC_SIZE) :
    ∀ {s : Server}, (∃ iv, Session perm key iv s.proc) →
      (ZeroIv (serverRun K W s conns).1.proc.calls ↔
        ZeroIv s.proc.calls ∧ RunSettles K W (perm key) s conns) := by
  induction conns with
  | nil =>
    intro s _
    exact (and_iff_left trivial).symm
  | cons reads conns ih =>
    intro s h
    obtain ⟨hKeeps, hLoop⟩ := serverLoop_zeroIv_iff (K := K) (W := W) reads
      (hConns reads (by simp)) h
    rw [serverRun, RunSettles, ← and_assoc, ← hLoop]
    generalize serverLoop K W s reads = r at hKeeps ⊢
    obtain ⟨s₁, _ | _⟩ := r
    · simp
    · simpa using ih (fun rs hrs => hConns rs (by simp [hrs])) hKeeps

-- ---------------------------------------------------------------------------
-- Both programs
-- ---------------------------------------------------------------------------

/-- In every run of the two programs from new sessions of one key, all encryptions
start from the zero register exactly when the last reply the client reads for a
command is short, for every command but the last, and every request the server
replies to is short. -/
theorem zeroIv_iff {K' : Kernel} {p : Proc} {s : Server}
    (hp : Session perm key (Blk.zero BLOCK_SIZE) p) (hpCalls : p.calls = [])
    (hs : Session perm key (Blk.zero BLOCK_SIZE) s.proc) (hsCalls : s.proc.calls = [])
    (xs : List Exchange) {conns : List (List Bytes)}
    (hConns : ∀ reads ∈ conns, ∀ f ∈ reads, f.length ≤ ENC_SIZE) :
    ZeroIv (clientRun K p xs).1.calls ∧ ZeroIv (serverRun K' W s conns).1.proc.calls ↔
      ClientSettles K (perm key) p xs ∧ RunSettles K' W (perm key) s conns := by
  rw [clientRun_zeroIv_iff xs hp, serverRun_zeroIv_iff conns hConns ⟨_, hs⟩, hpCalls, hsCalls]
  have hNil : ZeroIv [] := by simp [ZeroIv]
  simp only [hNil, true_and]

/-- It is enough that every exchange settles. -/
theorem clientSettles_of_forall {P : Equiv.Perm (Blk BLOCK_SIZE)} {xs : List Exchange}
    (h : ∀ x ∈ xs, x.Settles P) : ∀ {p : Proc}, ClientSettles K P p xs := by
  induction xs with
  | nil =>
    intro p
    trivial
  | cons x xs ih =>
    intro p _
    exact ⟨fun _ => h x (by simp), ih fun y hy => h y (by simp [hy])⟩

/-- It is enough that every read is short. -/
theorem loopSettles_of_forall {P : Equiv.Perm (Blk BLOCK_SIZE)} {reads : List Bytes}
    (h : ∀ f ∈ reads, Short (padTo ENC_SIZE f)) : ∀ {s : Server}, LoopSettles K W P s reads := by
  induction reads with
  | nil =>
    intro s
    trivial
  | cons f reads ih =>
    intro s
    exact ⟨fun _ => h f (by simp), fun _ => ih fun g hg => h g (by simp [hg])⟩

theorem runSettles_of_forall {P : Equiv.Perm (Blk BLOCK_SIZE)} {conns : List (List Bytes)}
    (h : ∀ reads ∈ conns, ∀ f ∈ reads, Short (padTo ENC_SIZE f)) :
    ∀ {s : Server}, RunSettles K W P s conns := by
  induction conns with
  | nil =>
    intro s
    trivial
  | cons reads conns ih =>
    intro s
    exact ⟨loopSettles_of_forall (h reads (by simp)), fun _ => ih fun rs hrs => h rs (by simp [hrs])⟩

theorem short_letterCipher : Short (padTo ENC_SIZE letterCipher) := by
  intro t ht
  obtain rfl := Option.some.inj (cstr_letterCipher.symm.trans ht)
  decide

theorem padTo_letterCipher :
    padTo ENC_SIZE (padTo ENC_SIZE letterCipher) = padTo ENC_SIZE letterCipher := by
  rw [padTo, length_padTo (by decide : letterCipher.length ≤ ENC_SIZE), Nat.sub_self]
  exact List.append_nil _

theorem letter_line : ∃ m, cstr (padTo MSG_SIZE [97]) = some m ∧ m.length < DATA_SIZE :=
  ⟨[97], cstr_padTo (by decide) (by decide), by decide⟩

/-- The command `a`, answered with the ciphertext of a letter. -/
def letterExchange : Exchange :=
  ⟨padTo MSG_SIZE [97], [padTo ENC_SIZE letterCipher, EOT], quiet, letter_line⟩

theorem letterExchange_settles (P : Equiv.Perm (Blk BLOCK_SIZE)) : letterExchange.Settles P := by
  have hLen : (padTo ENC_SIZE letterCipher).length = ENC_SIZE := length_padTo (by decide)
  have hMiss := (isEot_hit (quiet 0)
    (show 5 ≤ (padTo ENC_SIZE letterCipher).length by rw [hLen]; decide) hLen.le).not.mpr letterCipher_not_eot
  have hHit := (isEot_hit (quiet (0 + (padTo ENC_SIZE letterCipher).length))
    (show 5 ≤ EOT.length by decide) (by decide)).mpr List.suffix_rfl
  have hPasses : passes quiet 0 [padTo ENC_SIZE letterCipher, EOT] =
      [padTo ENC_SIZE letterCipher] := by
    rw [passes, passes, if_neg hMiss, if_pos hHit, padTo_letterCipher]
  rw [Exchange.Settles, show passes letterExchange.stray 0 letterExchange.reads = _ from hPasses]
  refine ⟨fun buf hBuf => ?_, fun hNil => absurd hNil (by simp)⟩
  obtain rfl : padTo ENC_SIZE letterCipher = buf := by simpa using hBuf
  exact short_letterCipher

/-- The exchange gets through. -/
theorem letterExchange_ok (h : Session veiled key (Blk.zero BLOCK_SIZE) p) :
    (clientCommand K p letterExchange).2 = true := by
  obtain ⟨p', hEnc, hSession, -⟩ := encryptData_spec (K := K) h
    (show cstr letterExchange.inData = some [97] from cstr_padTo (by decide) (by decide)) (by decide)
    (zeros ENC_SIZE)
  have hDec : (decryptData K p' (padTo ENC_SIZE letterCipher) (zeros MSG_SIZE)).2.isSome = true := by
    rw [decryptData_isSome_iff, decryptCopies_inBounds_iff (length_padTo (by decide))
      (length_zeros _)]
    exact letterCipher_decrypts hSession
  have hRead : (receive K quiet p' 0 [padTo ENC_SIZE letterCipher, EOT]).left = .eot := by
    rw [receive_whole (length_padTo (by decide)) letterCipher_not_eot]
    simp only [if_pos hDec, receive_mark]
  rw [clientCommand, hEnc, strcpy_zeros (cstr_letter_ciphertext key) (by decide)]
  simp only [letterExchange, hRead]
  rfl

theorem letters_ok (n : Nat) : ∀ {p : Proc}, Session veiled key (Blk.zero BLOCK_SIZE) p →
    (clientRun K p (List.replicate n letterExchange)).2 = true := by
  induction n with
  | zero =>
    intro p _
    rfl
  | succ n ih =>
    intro p h
    have hOk := letterExchange_ok (K := K) h
    obtain ⟨iv', hSession, hZero⟩ := clientCommand_leaves h hOk
    have hIv := hZero.mpr (letterExchange_settles (veiled key))
    subst hIv
    rw [List.replicate_succ, clientRun]
    generalize clientCommand K p letterExchange = r at hOk hSession ⊢
    obtain ⟨p', ok⟩ := r
    obtain rfl : ok = true := hOk
    exact ih hSession

/-- What `encrypt_data` makes of the letter `b` under `veiled`, as a string. -/
def replyCipher : Bytes := 96 :: List.replicate 14 3

theorem letter_fits (key : Bytes) : ReplyFits (veiled key) (Blk.zero BLOCK_SIZE) [98, 0] := by
  refine ⟨[98], replyCipher, rfl, by decide, ?_, ?_⟩
  · refine cstr_eq_some_iff.mpr ⟨by decide, List.prefix_iff_eq_take.mpr ?_⟩
    show _ = (cbcEnc (veiled (zeros KEY_SIZE)) (Blk.zero BLOCK_SIZE) BLOCKS
      (padTo DATA_SIZE [98])).take 16
    decide +kernel
  · show (decrypted (veiled (zeros KEY_SIZE)) (padTo ENC_SIZE replyCipher)).isSome = true
    decide +kernel

/-- The server answers the request for `a`, and goes on. -/
theorem letter_answered (h : Session veiled key iv s.proc) (hOut : (cstr s.outData).isSome) :
    ∃ s₁ iv₁, serverTurn K oneLetter s (padTo ENC_SIZE letterCipher) = (s₁, some true) ∧
      Session veiled key iv₁ s₁.proc ∧ s₁.outData = [98, 0] := by
  have hLast : lastBlock (Blk.zero BLOCK_SIZE) BLOCKS (padTo ENC_SIZE letterCipher) =
      Blk.zero BLOCK_SIZE := (lastBlock_eq_zero_iff (by decide) (by decide)).mpr (by decide)
  have hAsks : Asks (veiled key) oneLetter s (padTo ENC_SIZE letterCipher) [97] [98, 0] := by
    refine ⟨hOut, ?_, ?_, rfl, ⟨letterCipher, ?_, ?_⟩, Nat.le_succ _,
      show 5 ≤ ENC_SIZE + 1 by decide⟩
    · rw [padTo_letterCipher]
      exact decrypted_letterCipher key
    · rw [padTo_letterCipher]
      decide
    · rw [padTo_letterCipher]
      exact cstr_letterCipher
    · rw [hLast]
      exact letter_fits key
  have hHead : (padTo ENC_SIZE (padTo ENC_SIZE letterCipher)).head? ≠ some 0 := by
    rw [padTo_letterCipher]
    decide
  obtain ⟨s₁, iv₁, hTurn, -, hArr, hSession⟩ := hAsks.turn (K := K) h
    (length_padTo (by decide)).le hHead (by decide)
  exact ⟨s₁, iv₁, hTurn, hSession, hArr⟩

theorem requests_ok (n : Nat) : ∀ {s : Server} {iv : Blk BLOCK_SIZE}, Session veiled key iv s.proc →
    (cstr s.outData).isSome →
    (serverLoop K oneLetter s (List.replicate n (padTo ENC_SIZE letterCipher))).2 = true := by
  induction n with
  | zero =>
    intro s iv h hOut
    have hStop : (serverTurn K oneLetter s []).2 = some false := by
      refine (turn_stops_iff h (Nat.zero_le _)).mpr ⟨hOut, 2 :: List.replicate 14 3, ?_, .inr ?_⟩
      · show decrypted (veiled (zeros KEY_SIZE)) (padTo ENC_SIZE []) = _
        decide +kernel
      · exact (head?_padTo (by simp) (by decide)).mpr rfl
    rw [List.replicate_zero, serverLoop]
    generalize serverTurn K oneLetter s [] = r at hStop ⊢
    obtain ⟨s₁, ok⟩ := r
    obtain rfl : ok = some false := hStop
    rfl
  | succ n ih =>
    intro s iv h hOut
    obtain ⟨s₁, iv₁, hTurn, hSession, hArr⟩ := letter_answered (K := K) h hOut
    rw [List.replicate_succ, serverLoop, hTurn]
    exact ih hSession (by rw [hArr]; rfl)

/-- Three commands of the client, and two requests to the server, all answered. -/
theorem letters_zeroIv :
    (clientRun (cbcKernel veiled) (freshProc veiled) (List.replicate 3 letterExchange)).2 = true ∧
      (serverRun (cbcKernel veiled) oneLetter ⟨freshProc veiled, [0], []⟩
        [List.replicate 2 (padTo ENC_SIZE letterCipher)]).2 = true ∧
      ZeroIv (clientRun (cbcKernel veiled) (freshProc veiled)
        (List.replicate 3 letterExchange)).1.calls ∧
      ZeroIv (serverRun (cbcKernel veiled) oneLetter ⟨freshProc veiled, [0], []⟩
        [List.replicate 2 (padTo ENC_SIZE letterCipher)]).1.proc.calls := by
  have hFresh := freshProc_session veiled
  refine ⟨letters_ok 3 hFresh.1, ?_, (zeroIv_iff hFresh.1 hFresh.2 hFresh.1 hFresh.2 _ ?_).mpr
    ⟨clientSettles_of_forall ?_, runSettles_of_forall ?_⟩⟩
  · have hLoop := requests_ok (K := cbcKernel veiled) 2 (s := ⟨freshProc veiled, [0], []⟩) hFresh.1 rfl
    rw [serverRun]
    generalize serverLoop (cbcKernel veiled) oneLetter ⟨freshProc veiled, [0], []⟩
      (List.replicate 2 (padTo ENC_SIZE letterCipher)) = r at hLoop ⊢
    obtain ⟨s₁, ok⟩ := r
    obtain rfl : ok = true := hLoop
    rfl
  · intro reads hReads f hf
    rw [List.mem_singleton.mp hReads] at hf
    rw [List.eq_of_mem_replicate hf, length_padTo (by decide)]
  · intro x hx
    rw [List.eq_of_mem_replicate hx]
    exact letterExchange_settles _
  · intro reads hReads f hf
    rw [List.mem_singleton.mp hReads] at hf
    rw [List.eq_of_mem_replicate hf, padTo_letterCipher]
    exact short_letterCipher

-- ---------------------------------------------------------------------------
-- A long request
-- ---------------------------------------------------------------------------

/-- Exclusive or with a block without a zero byte. -/
def mask : Blk BLOCK_SIZE := ⟨2 :: List.replicate 15 3, rfl⟩

def masked : Bytes → Equiv.Perm (Blk BLOCK_SIZE) := xorWith mask

def plainHead : List (Blk BLOCK_SIZE) :=
  [⟨6 :: List.replicate 15 7, rfl⟩, ⟨5 :: List.replicate 15 4, rfl⟩]

def threes : Blk BLOCK_SIZE := ⟨List.replicate 16 3, rfl⟩

def cipherHead : List (Blk BLOCK_SIZE) := [⟨List.replicate 16 4, rfl⟩, threes]

def cipherEnd : Blk BLOCK_SIZE := ⟨1 :: zeros 15, rfl⟩

/-- A command of 511 blocks. -/
def longRequest : Bytes := bytesOf (plainHead ++ List.replicate 509 mask)

/-- Its ciphertext, with one byte in the last block. -/
def longCipher : Bytes := bytesOf (cipherHead ++ List.replicate 509 threes ++ [cipherEnd])

/-- The string `strcpy` finds in it. -/
def longText : Bytes := bytesOf (cipherHead ++ List.replicate 509 threes) ++ [1]

theorem length_longRequest : longRequest.length = 8176 := by
  rw [longRequest, length_bytesOf, List.length_append, List.length_replicate]
  rfl

theorem zero_notMem_longRequest : 0 ∉ longRequest := by
  have hHead : ∀ x ∈ plainHead, 0 ∉ x.1 := by decide
  refine notMem_bytesOf fun x hx => ?_
  rcases List.mem_append.mp hx with hx | hx
  · exact hHead x hx
  · rw [List.eq_of_mem_replicate hx]
    decide

theorem padTo_longRequest :
    padTo DATA_SIZE longRequest =
      bytesOf (plainHead ++ (List.replicate 509 mask ++ [Blk.zero BLOCK_SIZE])) := by
  rw [padTo, length_longRequest, ← List.append_assoc, bytesOf_append _ [_]]
  rfl

theorem cbcEnc_longRequest (key : Bytes) :
    cbcEnc (masked key) (Blk.zero BLOCK_SIZE) BLOCKS (padTo DATA_SIZE longRequest) =
      longCipher := by
  have hLen : (plainHead ++ (List.replicate 509 mask ++ [Blk.zero BLOCK_SIZE])).length =
      BLOCKS := by
    simp only [List.length_append, List.length_replicate]
    rfl
  have hBlocks := toBlocks_bytesOf
    (plainHead ++ (List.replicate 509 mask ++ [Blk.zero BLOCK_SIZE]))
  rw [hLen] at hBlocks
  -- the first two blocks are encrypted one at a time, the others leave the register alone
  have hHead : ∀ ps, encrypt Blk.xor (masked key) (Blk.zero BLOCK_SIZE) (plainHead ++ ps) =
      cipherHead ++ encrypt Blk.xor (masked key) threes ps := by
    intro ps
    rfl
  have hStep : masked key (Blk.xor mask threes) = threes := by
    apply Subtype.ext
    show (Blk.xor (Blk.xor mask threes) mask).1 = threes.1
    decide
  rw [padTo_longRequest, cbcEnc, hBlocks, hHead, encrypt_replicate hStep, longCipher,
    List.append_assoc]
  rfl

theorem longCipher_eq : longCipher = longText ++ zeros 15 := by
  rw [longCipher, bytesOf_append _ [_], longText, List.append_assoc]
  rfl

theorem length_longText : longText.length = 8177 := by
  rw [longText, List.length_append, length_bytesOf, List.length_append, List.length_replicate]
  rfl

theorem padTo_longText : padTo ENC_SIZE longText = longCipher := by
  rw [padTo, length_longText, longCipher_eq]
  rfl

theorem cstr_longCipher : cstr longCipher = some longText := by
  rw [← padTo_longText]
  refine cstr_padTo ?_ (by rw [length_longText]; decide)
  rw [longText, List.mem_append, not_or]
  have hHead : ∀ x ∈ cipherHead, 0 ∉ x.1 := by decide
  refine ⟨notMem_bytesOf fun x hx => ?_, by decide⟩
  rcases List.mem_append.mp hx with hx | hx
  · exact hHead x hx
  · rw [List.eq_of_mem_replicate hx]
    decide

theorem decrypted_longCipher (key : Bytes) :
    decrypted (masked key) longCipher = some longRequest := by
  rw [decrypted, cstr_longCipher, Option.bind_some, padTo_longText, ← cbcEnc_longRequest key,
    cbcDec_cbcEnc _ _ (by rw [length_padTo (by rw [length_longRequest]; decide)]; rfl)]
  exact cstr_padTo zero_notMem_longRequest (by rw [length_longRequest]; decide)

/-- The client sends `longRequest`, and the server encrypts its reply to it from a
register that is not zero. -/
theorem long_request_leaves_iv :
    (encryptData (cbcKernel masked) (freshProc masked) (padTo MSG_SIZE longRequest)
        (zeros ENC_SIZE)).2 = some longCipher ∧
      ¬ ZeroIv (serverRun (cbcKernel masked) oneLetter ⟨freshProc masked, [0], []⟩
        [[longCipher]]).1.proc.calls := by
  have hFresh := (freshProc_session masked).1
  have hSize : longRequest.length < MSG_SIZE := by
    rw [length_longRequest]
    decide
  have hLen : longCipher.length = ENC_SIZE := by
    rw [← padTo_longText, length_padTo (by rw [length_longText]; decide)]
  have hWhole : padTo ENC_SIZE longCipher = longCipher := by
    rw [padTo, hLen]
    exact List.append_nil _
  constructor
  · obtain ⟨p', hEnc, -⟩ := encryptData_spec (K := cbcKernel masked) hFresh
      (cstr_padTo zero_notMem_longRequest hSize) hSize (zeros ENC_SIZE)
    rw [hEnc, cbcEnc_longRequest, strcpy_zeros cstr_longCipher (by rw [length_longText]; decide),
      padTo_longText]
  · intro hZero
    have hGo : ¬ (longRequest = [] ∨ longCipher.head? = some 0) := by
      rintro (hNil | hHead)
      · exact absurd (congrArg List.length hNil) (by rw [length_longRequest]; decide)
      · exact absurd hHead (by rw [show longCipher.head? = some 4 from rfl]; decide)
    have hNot : isNewline longCipher = false ∧ longRequest ≠ [10] := by
      refine ⟨rfl, fun hLine => ?_⟩
      exact absurd (congrArg List.length hLine) (by rw [length_longRequest]; decide)
    have hReplies : Replies (cbcKernel masked) oneLetter (masked (zeros KEY_SIZE))
        ⟨freshProc masked, [0], []⟩ longCipher := by
      refine ⟨[0], longRequest, ⟨afterRead (cbcKernel masked) ⟨freshProc masked, [0], []⟩ longCipher,
        [98, 0], [.popen longRequest]⟩, [98], rfl, ?_, ?_, ?_, rfl, by decide⟩
      · rw [hWhole]
        exact decrypted_longCipher _
      · rw [hWhole]
        exact hGo
      · rw [hWhole, runCommand_popen zero_notMem_longRequest hSize hNot]
        simp only [oneLetter, List.nil_append]
    have hShort := ((serverRun_zeroIv_iff [[longCipher]] (by simp [hLen]) ⟨_, hFresh⟩).mp
      hZero).2.1.1 hReplies
    rw [hWhole] at hShort
    have hLong := hShort longText cstr_longCipher
    rw [length_longText] at hLong
    exact absurd hLong (by decide)

end VirtioCrypto.Shell
