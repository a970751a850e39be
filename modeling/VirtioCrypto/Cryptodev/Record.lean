import VirtioCrypto.Cryptodev.Pages
import VirtioCrypto.Fallible

/-!
# Cryptodev — TLS records

`tls_auth_n_crypt`: a record is authenticated, tagged, padded and encrypted in place, and on the
way back decrypted, its pad and its tag checked. The functions work on the bytes behind the
scatterlist of `get_userbuf_tls`, as many as were pinned; an access outside them is an `overrun`.

Three things are open: how the cipher and the hash map bytes (`Transform`, `HashTransform`), what
the kernel's cipher returns for a length (`ret`), and what was on the stack where `hash_output` is
(`stack`), since a tag may be longer than the digest.

* `verifyTlsRecordPad_eq` — which pads are accepted;
* `tlsAuthNCrypt_overrun_iff` — the two ways past the end of a buffer;
* `tlsDecrypt_accepts_iff` — a record is accepted exactly when it is data, the tag of the data and
  a pad;
* `tlsDecrypt_unauthenticated` — without a hash a broken pad is not an error.
-/

namespace VirtioCrypto.Cryptodev.Authenc

open Octets Pages

-- ---------------------------------------------------------------------------
-- Accesses
-- ---------------------------------------------------------------------------

/-- `scatterwalk_map_and_copy` out of a scatterlist over `buf`. -/
def sgRead (buf : Bytes) (start n : Nat) : Except Failure Bytes :=
  if n = 0 then .ok []
  else if start + n ≤ buf.length then .ok (slice buf start n)
  else .error .overrun

/-- `scatterwalk_map_and_copy` into it. -/
def sgWrite (buf : Bytes) (start : Nat) (bs : Bytes) : Except Failure Bytes :=
  if bs.length = 0 then .ok buf
  else if start + bs.length ≤ buf.length then .ok (patch buf start bs)
  else .error .overrun

def AALG_MAX_RESULT_LEN : Nat := 64

/-- `n` bytes from `hash_output` once a digest has been put there. -/
def hashOutput (stack : Nat → UInt8) (digest : Bytes) (n : Nat) : Bytes :=
  digest.take n ++ (List.range' digest.length (n - digest.length)).map stack

/-- A kernel function's answer. -/
def answer (e : Option Errno) : Except Failure Unit := e.elim (.ok ()) fun e => .error (.errno e)

/-- `cryptodev_cipher_encrypt` or `_decrypt` of the first `len` bytes, in place. -/
def cipherInPlace (ret : Dir → Nat → Option Errno) (c : CipherData) (dir : Dir) (buf : Bytes) (len : Nat) :
    CipherData × Bytes × Except Failure Unit :=
  if buf.length < len then (c, buf, .error .overrun)
  else
    let r := c.run dir (buf.take len)
    (r.1, patch buf 0 r.2, answer (ret dir len))

/-- `cryptodev_hash_update` of the first `n` bytes of a scatterlist, when there are any. -/
def hashUpdate (h : HashData) (sg : Option Bytes) (n : Nat) : Except Failure HashData :=
  if n = 0 then .ok h
  else match sg with
    | none => .error .overrun
    | some bs => if bs.length < n then .error .overrun else .ok (h.update (bs.take n))

/-- The additional data and then the record. -/
def authenticate (h : HashData) (auth : Option Bytes) (authLen : Nat) (buf : Bytes) (len : Nat) :
    Except Failure HashData :=
  (hashUpdate h auth authLen).bind fun h => hashUpdate h (some buf) len

def digestOf (h : HashData) : Bytes := h.tfm.digest h.key h.acc

-- ---------------------------------------------------------------------------
-- Pads
-- ---------------------------------------------------------------------------

/-- A 32-bit number taken for an `int`. -/
def asInt (n : Nat) : Int := Int.bmod n 4294967296

/-- `pad_size` of `pad_record`, with the remainder as C has it: up to two blocks for an `int` below
zero. -/
def padSize (len blockSize : Nat) : Nat := ((blockSize : Int) - (asInt len).tmod blockSize).toNat

/-- So many bytes, one less than which each of them says. -/
def padBytes (n : Nat) : Bytes := List.replicate n (UInt8.ofNat (n - 1))

/-- `pad_record`: the buffer with its pad, and the length of the pad. The array `pad` on the stack has
one block. -/
def padRecord (buf : Bytes) (len blockSize : Nat) : Except Failure (Bytes × Nat) :=
  if blockSize < padSize len blockSize then .error .overrun
  else (sgWrite buf len (padBytes (padSize len blockSize))).map (·, padSize len blockSize)

/-- `verify_tls_record_pad` once the last byte has been read. -/
def verifyPadBytes (buf : Bytes) (len padSize : Nat) : Except Failure Nat :=
  if asInt len < padSize + 1 then .error .EBADMSG
  else
    (sgRead buf (len - padSize - 1) (padSize + 1)).bind fun pad =>
      if (pad.take padSize).all (·.toNat == padSize) then .ok (padSize + 1) else .error .EBADMSG

/-- `verify_tls_record_pad`: the length of the pad. The last byte of an empty record is looked for
at offset `-1`. -/
def verifyTlsRecordPad (buf : Bytes) (len : Nat) : Except Failure Nat :=
  if len = 0 then .error .overrun
  else (sgRead buf (len - 1) 1).bind fun last => verifyPadBytes buf len (last.headD 0).toNat

-- ---------------------------------------------------------------------------
-- Records
-- ---------------------------------------------------------------------------

section Record

variable (ret : Dir → Nat → Option Errno) (stack : Nat → UInt8)

/-- The tag goes behind the data. -/
def addTag (ses : CSession) (tagLen : Nat) (auth : Option Bytes) (authLen : Nat) (buf : Bytes) (len : Nat) :
    Except Failure (CSession × Bytes × Nat) :=
  match ses.hdata with
  | none => .ok (ses, buf, len)
  | some h =>
    (authenticate h auth authLen buf len).bind fun h =>
      (sgWrite buf len (hashOutput stack (digestOf h) tagLen)).map
        (⟨{ ses with hdata := some h }, ·, len + tagLen⟩)

/-- `if (ses_ptr->cdata.blocksize > 1)`. -/
def padIfBlocks (buf : Bytes) (len blockSize : Nat) : Except Failure (Bytes × Nat) :=
  if 1 < blockSize then padRecord buf len blockSize else .ok (buf, 0)

/-- Pad and encrypt. -/
def sealRecord (ses : CSession) (buf : Bytes) (len : Nat) : CSession × Bytes × Except Failure Nat :=
  match ses.cdata with
  | none => (ses, buf, .ok len)
  | some c =>
    match padIfBlocks buf len c.tfm.blocksize with
    | .error e => (ses, buf, .error e)
    | .ok (buf, pad) =>
      let r := cipherInPlace ret c .encrypt buf (len + pad)
      ({ ses with cdata := some r.1 }, r.2.1, r.2.2.map fun _ => len + pad)

/-- The encryption half of `tls_auth_n_crypt`: the length of the record. -/
def tlsEncrypt (ses : CSession) (tagLen : Nat) (auth : Option Bytes) (authLen : Nat) (buf : Bytes)
    (len : Nat) : CSession × Bytes × Except Failure Nat :=
  match addTag stack ses tagLen auth authLen buf len with
  | .error e => (ses, buf, .error e)
  | .ok (ses, buf, len) => sealRecord ret ses buf len

/-- What is left of the length when the pad is off, and the local `fail`. -/
def checkPad (buf : Bytes) (len blockSize : Nat) : Except Failure (Bool × Nat) :=
  if 1 < blockSize then
    match verifyTlsRecordPad buf len with
    | .ok pad => .ok (false, len - pad)
    | .error .EBADMSG => .ok (true, len)
    | .error e => .error e
  else .ok (false, len)

/-- Decrypt and take the pad off. -/
def openRecord (ses : CSession) (buf : Bytes) (len : Nat) :
    CSession × Bytes × Except Failure (Bool × Nat) :=
  match ses.cdata with
  | none => (ses, buf, .ok (false, len))
  | some c =>
    let r := cipherInPlace ret c .decrypt buf len
    ({ ses with cdata := some r.1 }, r.2.1, r.2.2.bind fun _ => checkPad r.2.1 len c.tfm.blocksize)

/-- Check the tag; `fail` is looked at only here. -/
def checkTag (ses : CSession) (tagLen : Nat) (auth : Option Bytes) (authLen : Nat) (buf : Bytes)
    (fail : Bool) (len : Nat) : Except Failure (CSession × Nat) :=
  match ses.hdata with
  | none => .ok (ses, len)
  | some h =>
    if AALG_MAX_RESULT_LEN < tagLen ∨ len < tagLen then .error (.errno .EINVAL)
    else
      (sgRead buf (len - tagLen) tagLen).bind fun vhash =>
        (authenticate h auth authLen buf (len - tagLen)).bind fun h =>
          if vhash ≠ hashOutput stack (digestOf h) tagLen ∨ fail = true then .error .EBADMSG
          else .ok ({ ses with hdata := some h }, len - tagLen)

/-- The decryption half of `tls_auth_n_crypt`: the length of the data. -/
def tlsDecrypt (ses : CSession) (tagLen : Nat) (auth : Option Bytes) (authLen : Nat) (buf : Bytes)
    (len : Nat) : CSession × Bytes × Except Failure Nat :=
  match openRecord ret ses buf len with
  | (ses, buf, .error e) => (ses, buf, .error e)
  | (ses, buf, .ok (fail, len)) =>
    match checkTag stack ses tagLen auth authLen buf fail len with
    | .error e => (ses, buf, .error e)
    | .ok (ses, len) => (ses, buf, .ok len)

/-- `tls_auth_n_crypt`. -/
def tlsAuthNCrypt (ses : CSession) (dir : Dir) (tagLen : Nat) (auth : Option Bytes) (authLen : Nat)
    (buf : Bytes) (len : Nat) : CSession × Bytes × Except Failure Nat :=
  match dir with
  | .encrypt => tlsEncrypt ret stack ses tagLen auth authLen buf len
  | .decrypt => tlsDecrypt ret stack ses tagLen auth authLen buf len

end Record

-- ---------------------------------------------------------------------------
-- crypto_auth_run
-- ---------------------------------------------------------------------------

/-- `ses_ptr->cdata.blocksize`, zero without a cipher. -/
def blocksizeOf (ses : CSession) : Nat := (ses.cdata.map CipherData.tfm).elim 0 Transform.blocksize

/-- `caop->tag_len` after `fill_kcaop_from_caop`. -/
def tagLenOf (ses : CSession) (tagLen : Nat) : Nat := if tagLen = 0 then ses.digestsize else tagLen

/-- `kcaop->dst_len` of a TLS operation, what is pinned: a sum of 32-bit numbers. -/
def tlsDstLen (ses : CSession) (len tagLen : Nat) : Nat :=
  (len + blocksizeOf ses + tagLen) % 4294967296

/-- The start of `crypto_auth_run`: the hash is reset, and as much of the iv set as was given. -/
def authStart (ses : CSession) (iv : Bytes) : CSession :=
  { ses with
    cdata := ses.cdata.map (·.setIv iv)
    hdata := ses.hdata.map fun h => { h with acc := [] } }

-- ---------------------------------------------------------------------------
-- Accesses inside the buffer
-- ---------------------------------------------------------------------------

variable {ret : Dir → Nat → Option Errno} {stack : Nat → UInt8} {ses : CSession} {c : CipherData}
variable {h : HashData} {buf x : Bytes} {len n tagLen authLen : Nat} {auth : Option Bytes}

theorem sgRead_inside (hIn : len + n ≤ buf.length) : sgRead buf len n = .ok (slice buf len n) := by
  unfold sgRead
  split
  · rename_i hZero
    rw [hZero, slice, List.take_zero]
  · rfl

theorem sgWrite_inside (hIn : len + x.length ≤ buf.length) : sgWrite buf len x = .ok (patch buf len x) := by
  unfold sgWrite
  split
  · rename_i hZero
    rw [List.length_eq_zero_iff.mp hZero]
    simp [patch]
  · rfl

theorem length_hashOutput (stack : Nat → UInt8) (digest : Bytes) (n : Nat) :
    (hashOutput stack digest n).length = n := by
  simp only [hashOutput, List.length_append, List.length_take, List.length_map, List.length_range']
  omega

/-- A tag no longer than the digest is a part of it. -/
theorem hashOutput_eq_take {digest : Bytes} (hLen : n ≤ digest.length) :
    hashOutput stack digest n = digest.take n := by
  rw [hashOutput, Nat.sub_eq_zero_of_le hLen]
  exact List.append_nil _

/-- The additional data that is hashed. -/
def authBytes (auth : Option Bytes) (authLen : Nat) : Bytes := (auth.getD []).take authLen

/-- It is there, if it has a length. -/
def Present (auth : Option Bytes) (authLen : Nat) : Prop := authLen ≤ (auth.getD []).length

theorem hashUpdate_present (hIn : Present auth authLen) :
    hashUpdate h auth authLen = .ok (h.update (authBytes auth authLen)) := by
  unfold hashUpdate authBytes
  split
  · rename_i hZero
    rw [hZero, List.take_zero, HashData.update, List.append_nil]
  · rename_i hSome
    unfold Present at hIn
    cases auth with
    | none =>
      rw [Option.getD_none, List.length_nil] at hIn
      omega
    | some bs =>
      rw [Option.getD_some] at hIn ⊢
      exact if_neg (by omega)

theorem authenticate_inside (hAuth : Present auth authLen) (hIn : len ≤ buf.length) :
    authenticate h auth authLen buf len = .ok (h.update (authBytes auth authLen ++ buf.take len)) := by
  have hBuf : Present (some buf) len := hIn
  rw [authenticate, hashUpdate_present hAuth]
  show hashUpdate (h.update (authBytes auth authLen)) (some buf) len = _
  rw [hashUpdate_present hBuf]
  simp only [authBytes, HashData.update, Option.getD_some, List.append_assoc]

theorem cipherInPlace_inside {dir : Dir} (hIn : len ≤ buf.length) :
    cipherInPlace ret c dir buf len =
      ((c.run dir (buf.take len)).1, patch buf 0 (c.run dir (buf.take len)).2, answer (ret dir len)) :=
  if_neg (Nat.not_lt.mpr hIn)

theorem length_run (c : CipherData) (dir : Dir) (x : Bytes) : (c.run dir x).2.length = x.length :=
  c.tfm.length_crypt _ _ _ _

theorem length_patch_run {dir : Dir} (hIn : len ≤ buf.length) :
    (patch buf 0 (c.run dir (buf.take len)).2).length = buf.length := by
  apply length_patch
  rw [length_run, List.length_take]
  omega

theorem take_patch_run {dir : Dir} (hIn : len ≤ buf.length) :
    (patch buf 0 (c.run dir (buf.take len)).2).take len = (c.run dir (buf.take len)).2 := by
  have hLen : (c.run dir (buf.take len)).2.length = len := by
    rw [length_run, List.length_take]
    omega
  rw [patch, List.take_zero, List.nil_append, List.take_append_of_le_length (by omega),
    List.take_of_length_le (by omega)]

-- ---------------------------------------------------------------------------
-- The pad
-- ---------------------------------------------------------------------------

@[simp] theorem length_padBytes (n : Nat) : (padBytes n).length = n := List.length_replicate

theorem asInt_small (hInt : len < 2147483648) : asInt len = len :=
  Int.bmod_eq_of_le (by omega) (by omega)

theorem bmod_large {w : Nat} (hLarge : w ≤ 2 * n) (hWord : n < w) : Int.bmod n w = -((w - n : Nat) : Int) := by
  rw [Int.bmod_def, Int.emod_eq_of_lt (by omega) (by omega), if_neg (by omega)]
  omega

/-- From half of the 32-bit numbers on, an `int` is negative. -/
theorem asInt_large (hLarge : 2147483648 ≤ len) (hWord : len < 4294967296) :
    asInt len = -((4294967296 - len : Nat) : Int) :=
  bmod_large (by omega) hWord

theorem padSize_small {blockSize : Nat} (hInt : len < 2147483648) :
    padSize len blockSize = blockSize - len % blockSize := by
  have hMod : (asInt len).tmod blockSize = ((len % blockSize : Nat) : Int) := by
    rw [asInt_small hInt, Int.ofNat_tmod]
  rw [padSize, hMod]
  omega

theorem padSize_large {blockSize : Nat} (hLarge : 2147483648 ≤ len) (hWord : len < 4294967296) :
    padSize len blockSize = blockSize + (4294967296 - len) % blockSize := by
  have hMod : (asInt len).tmod blockSize = -(((4294967296 - len) % blockSize : Nat) : Int) := by
    rw [asInt_large hLarge hWord, Int.neg_tmod, Int.ofNat_tmod]
  rw [padSize, hMod]
  omega

/-- The pads that are longer than the array they are made in. -/
def PadOverflows (len blockSize : Nat) : Prop :=
  1 < blockSize ∧ 2147483648 ≤ len ∧ ¬blockSize ∣ 4294967296 - len

theorem padSize_le_iff {blockSize : Nat} (hBlocks : 1 < blockSize) (hWord : len < 4294967296) :
    padSize len blockSize ≤ blockSize ↔ ¬PadOverflows len blockSize := by
  unfold PadOverflows
  rcases Nat.lt_or_ge len 2147483648 with hInt | hLarge
  · rw [padSize_small hInt]
    exact ⟨fun _ h => absurd h.2.1 (by omega), fun _ => Nat.sub_le _ _⟩
  · rw [padSize_large hLarge hWord, Nat.dvd_iff_mod_eq_zero]
    omega

/-- `x` and then a pad whose bytes all say one less than how many they are. -/
def Padded (t x : Bytes) (p : Nat) : Prop := p < 256 ∧ t = x ++ List.replicate (p + 1) (UInt8.ofNat p)

theorem Padded.last {t : Bytes} {p : Nat} (h : Padded t x p) :
    t.length = x.length + (p + 1) ∧ (t.getLast?.getD 0).toNat = p := by
  obtain ⟨hp, rfl⟩ := h
  refine ⟨by simp, ?_⟩
  rw [List.replicate_succ', ← List.append_assoc, List.getLast?_concat, Option.getD_some,
    UInt8.toNat_ofNat']
  omega

/-- The pad is read off the last byte, so there is only one way to read it. -/
theorem Padded.unique {t y : Bytes} {p q : Nat} (h : Padded t x p) (h' : Padded t y q) : p = q ∧ x = y := by
  obtain ⟨hLen, hLast⟩ := h.last
  obtain ⟨hLen', hLast'⟩ := h'.last
  have hp : p = q := hLast.symm.trans hLast'
  subst hp
  exact ⟨rfl, (List.append_inj' (h.2.symm.trans h'.2) rfl).1⟩

theorem slice_one {i : Nat} (hi : i < buf.length) : slice buf i 1 = [buf[i]] := by
  rw [slice, List.drop_eq_getElem_cons hi]
  rfl

theorem getLast?_take (hPos : 0 < len) (hIn : len ≤ buf.length) :
    (buf.take len).getLast?.getD 0 = buf[len - 1] := by
  rw [List.getLast?_eq_getElem?, List.length_take, Nat.min_eq_left hIn,
    List.getElem?_take_of_lt (by omega), List.getElem?_eq_getElem (by omega), Option.getD_some]

/-- What `verify_tls_record_pad` makes of a record that is not empty. -/
theorem verifyTlsRecordPad_eq (hPos : 0 < len) (hInt : len < 2147483648) (hIn : len ≤ buf.length) :
    (∃ x p, Padded (buf.take len) x p ∧ verifyTlsRecordPad buf len = .ok (p + 1)) ∨
      (¬∃ x p, Padded (buf.take len) x p) ∧ verifyTlsRecordPad buf len = .error .EBADMSG := by
  have hTake : (buf.take len).length = len := by
    rw [List.length_take]
    omega
  have hLast : sgRead buf (len - 1) 1 = .ok [buf[len - 1]] := by
    rw [sgRead_inside (by omega), slice_one]
  generalize hb : buf[len - 1] = b at hLast
  have hByte : ((buf.take len).getLast?.getD 0).toNat = b.toNat := by
    rw [getLast?_take hPos hIn, hb]
  have hRun : verifyTlsRecordPad buf len =
      if len < b.toNat + 1 then .error .EBADMSG
      else (sgRead buf (len - b.toNat - 1) (b.toNat + 1)).bind fun pad =>
        if (pad.take b.toNat).all (·.toNat == b.toNat) then .ok (b.toNat + 1) else .error .EBADMSG := by
    have hIff : asInt len < (b.toNat : Int) + 1 ↔ len < b.toNat + 1 := by
      rw [asInt_small hInt]
      omega
    rw [verifyTlsRecordPad, if_neg (by omega), hLast, Fallible.ok_bind, List.headD_cons]
    simp only [verifyPadBytes, hIff]
  by_cases hShort : len < b.toNat + 1
  · -- more pad than record
    right
    refine ⟨?_, by rw [hRun, if_pos hShort]⟩
    rintro ⟨x, p, hPadded⟩
    obtain ⟨hLen, hp⟩ := hPadded.last
    omega
  · rw [if_neg hShort, sgRead_inside (by omega)] at hRun
    have hPad : slice buf (len - b.toNat - 1) (b.toNat + 1) = (buf.take len).drop (len - b.toNat - 1) := by
      rw [slice, List.drop_take]
      congr 1
      omega
    rw [hPad] at hRun
    have hSplit := List.take_append_drop (len - b.toNat - 1) (buf.take len)
    generalize hx : (buf.take len).take (len - b.toNat - 1) = x at hSplit
    generalize hy : (buf.take len).drop (len - b.toNat - 1) = y at hRun hSplit
    have hxLen : x.length = len - b.toNat - 1 := by
      rw [← hx, List.length_take, hTake]
      omega
    have hyLen : y.length = b.toNat + 1 := by
      rw [← hy, List.length_drop, hTake]
      omega
    -- the last byte of the pad is the last of the record
    have hyLast : y = y.take b.toNat ++ [b] := by
      have hNe : y ≠ [] := by
        rintro rfl
        cases hyLen
      have hMem : y.getLast?.getD 0 = b := by
        rw [← UInt8.toNat_inj, ← hByte, ← hSplit, List.getLast?_append_of_ne_nil x hNe]
      rw [List.getLast?_eq_some_getLast hNe, Option.getD_some] at hMem
      have hDrop := List.dropLast_append_getLast hNe
      rw [hMem, List.dropLast_eq_take, hyLen, Nat.add_sub_cancel] at hDrop
      exact hDrop.symm
    have hb' : UInt8.ofNat b.toNat = b := UInt8.ofNat_toNat
    by_cases hAll : (y.take b.toNat).all (·.toNat == b.toNat) = true
    · left
      refine ⟨x, b.toNat, ⟨b.toNat_lt, ?_⟩, by rw [hRun]; exact if_pos hAll⟩
      have hSame : y.take b.toNat = List.replicate b.toNat b := by
        refine List.eq_replicate_iff.mpr ⟨by rw [List.length_take]; omega, fun a ha => ?_⟩
        have hEq := List.all_eq_true.mp hAll a ha
        exact UInt8.toNat_inj.mp (beq_iff_eq.mp hEq)
      rw [← hSplit, hb', List.replicate_succ', ← hSame, ← hyLast]
    · right
      refine ⟨?_, by rw [hRun]; exact if_neg hAll⟩
      rintro ⟨x', p, hPadded⟩
      obtain ⟨hLen, hp⟩ := hPadded.last
      obtain rfl : b.toNat = p := hByte.symm.trans hp
      have hSame := hSplit.trans hPadded.2
      have hy' : y = List.replicate (b.toNat + 1) b := by
        rw [hb'] at hSame
        exact (List.append_inj' hSame (by rw [hyLen, List.length_replicate])).2
      apply hAll
      rw [hy', List.take_replicate, Nat.min_eq_left (Nat.le_succ _)]
      simp

/-- A record of 2^31 bytes or more has no pad that is accepted. -/
theorem verifyTlsRecordPad_large (hLarge : 2147483648 ≤ len) (hWord : len < 4294967296)
    (hIn : len ≤ buf.length) : verifyTlsRecordPad buf len = .error .EBADMSG := by
  have hNeg := asInt_large hLarge hWord
  rw [verifyTlsRecordPad, if_neg (by omega), sgRead_inside (by omega), Fallible.ok_bind, verifyPadBytes,
    if_pos (by omega)]

/-- The pad of so many bytes; none for a stream cipher. -/
def padOf (len blockSize : Nat) : Bytes :=
  if 1 < blockSize then padBytes (blockSize - len % blockSize) else []

theorem length_padOf_le (len blockSize : Nat) : (padOf len blockSize).length ≤ blockSize := by
  unfold padOf
  split
  · rw [length_padBytes]
    exact Nat.sub_le _ _
  · exact Nat.zero_le _

/-- Padding that fits the array and the buffer. -/
theorem padRecord_inside {blockSize : Nat} (hPad : padSize len blockSize ≤ blockSize)
    (hIn : len + blockSize ≤ buf.length) :
    padRecord buf len blockSize =
      .ok (patch buf len (padBytes (padSize len blockSize)), padSize len blockSize) := by
  rw [padRecord, if_neg (by omega), sgWrite_inside (by rw [length_padBytes]; omega)]
  rfl

theorem padIfBlocks_inside {blockSize : Nat} (hInt : len < 2147483648)
    (hIn : len + blockSize ≤ buf.length) :
    padIfBlocks buf len blockSize =
      .ok (patch buf len (padOf len blockSize), (padOf len blockSize).length) := by
  have hSize : padSize len blockSize = blockSize - len % blockSize := padSize_small hInt
  unfold padIfBlocks padOf
  split
  · rw [padRecord_inside (by omega) hIn, hSize, length_padBytes]
  · simp [patch]

-- ---------------------------------------------------------------------------
-- The halves of an operation, inside the buffer
-- ---------------------------------------------------------------------------

/-- The tag of a record's data. -/
def tagOf (stack : Nat → UInt8) (h : HashData) (auth : Option Bytes) (authLen tagLen : Nat) (data : Bytes) :
    Bytes :=
  hashOutput stack (digestOf (h.update (authBytes auth authLen ++ data))) tagLen

theorem addTag_inside (hh : ses.hdata = some h) (hAuth : Present auth authLen)
    (hIn : len + tagLen ≤ buf.length) :
    addTag stack ses tagLen auth authLen buf len =
      .ok ({ ses with hdata := some (h.update (authBytes auth authLen ++ buf.take len)) },
        patch buf len (tagOf stack h auth authLen tagLen (buf.take len)), len + tagLen) := by
  rw [addTag, hh]
  dsimp only
  rw [authenticate_inside hAuth (by omega)]
  show (sgWrite buf len _).map _ = _
  rw [sgWrite_inside (by rw [length_hashOutput]; exact hIn)]
  rfl

theorem sealRecord_inside (hc : ses.cdata = some c) (hInt : len < 2147483648)
    (hIn : len + c.tfm.blocksize ≤ buf.length) :
    sealRecord ret ses buf len =
      let whole := len + (padOf len c.tfm.blocksize).length
      let plain := (patch buf len (padOf len c.tfm.blocksize)).take whole
      ({ ses with cdata := some (c.run .encrypt plain).1 },
        patch (patch buf len (padOf len c.tfm.blocksize)) 0 (c.run .encrypt plain).2,
        (answer (ret .encrypt whole)).map fun _ => whole) := by
  have hPad := length_padOf_le len c.tfm.blocksize
  have hLen : (patch buf len (padOf len c.tfm.blocksize)).length = buf.length :=
    length_patch (by omega)
  rw [sealRecord, hc]
  dsimp only
  rw [padIfBlocks_inside hInt hIn]
  dsimp only
  rw [cipherInPlace_inside (by omega)]

theorem openRecord_inside (hc : ses.cdata = some c) (hIn : len ≤ buf.length) :
    openRecord ret ses buf len =
      ({ ses with cdata := some (c.run .decrypt (buf.take len)).1 },
        patch buf 0 (c.run .decrypt (buf.take len)).2,
        (answer (ret .decrypt len)).bind fun _ =>
          checkPad (patch buf 0 (c.run .decrypt (buf.take len)).2) len c.tfm.blocksize) := by
  rw [openRecord, hc]
  dsimp only
  rw [cipherInPlace_inside hIn]

theorem checkTag_inside (hh : ses.hdata = some h) (hAuth : Present auth authLen)
    (hTag : tagLen ≤ AALG_MAX_RESULT_LEN) (hLe : tagLen ≤ len) (hIn : len ≤ buf.length) (fail : Bool) :
    checkTag stack ses tagLen auth authLen buf fail len =
      if slice buf (len - tagLen) tagLen ≠ tagOf stack h auth authLen tagLen (buf.take (len - tagLen)) ∨
          fail = true then .error .EBADMSG
      else .ok ({ ses with hdata := some (h.update (authBytes auth authLen ++ buf.take (len - tagLen))) },
        len - tagLen) := by
  rw [checkTag, hh]
  dsimp only
  rw [if_neg (by omega), sgRead_inside (by omega)]
  show (authenticate h auth authLen buf (len - tagLen)).bind _ = _
  rw [authenticate_inside hAuth (by omega)]
  rfl

-- ---------------------------------------------------------------------------
-- Sessions for concrete runs
-- ---------------------------------------------------------------------------

/-- Blocks of four, and a register that counts the calls. -/
def counterTransform : Transform where
  blocksize := 4
  ivsize := 4
  setkey := fun _ => true
  crypt := fun _ _ iv x => (x.map (· ^^^ iv.headD 0), List.replicate 4 (iv.headD 0 + 1))
  length_crypt := fun _ _ _ _ => List.length_map _
  length_register := fun _ _ _ _ => List.length_replicate

def sumTransform : HashTransform where
  digestsize := 2
  setkey := fun _ => true
  digest := fun _ x => [x.foldl (· + ·) 0, UInt8.ofNat x.length]
  length_digest := fun _ _ => rfl

def tagged : CSession := ⟨1, some ⟨counterTransform, [], [7, 7, 7, 7], rfl⟩, some ⟨sumTransform, [], []⟩⟩

-- ---------------------------------------------------------------------------
-- Past the end of the buffer
-- ---------------------------------------------------------------------------

theorem answer_ne_overrun {α : Type} (e : Option Errno) (f : Unit → α) :
    (answer e).map f ≠ .error .overrun := by
  cases e with
  | none => exact fun hEq => by cases hEq
  | some e => exact fun hEq => by cases hEq

/-- Padding ends well, or runs over the array on the stack. -/
theorem padIfBlocks_cases {blockSize : Nat} (hWord : len < 4294967296) (hIn : len + blockSize ≤ buf.length) :
    PadOverflows len blockSize ∧ padIfBlocks buf len blockSize = .error .overrun ∨
      ¬PadOverflows len blockSize ∧ ∃ buf' pad, padIfBlocks buf len blockSize = .ok (buf', pad) ∧
        buf'.length = buf.length ∧ pad ≤ blockSize := by
  unfold padIfBlocks
  split
  · rename_i hBlocks
    by_cases hOver : PadOverflows len blockSize
    · have hLong : ¬padSize len blockSize ≤ blockSize := fun hLe => (padSize_le_iff hBlocks hWord).mp hLe hOver
      exact .inl ⟨hOver, if_pos (Nat.lt_of_not_le hLong)⟩
    · have hPad := (padSize_le_iff hBlocks hWord).mpr hOver
      exact .inr ⟨hOver, _, _, padRecord_inside hPad hIn, length_patch (by rw [length_padBytes]; omega), hPad⟩
  · rename_i hStream
    exact .inr ⟨fun h => hStream h.1, buf, 0, rfl, rfl, Nat.zero_le _⟩

theorem sealRecord_overrun_iff (hc : ses.cdata = some c) (hWord : len < 4294967296)
    (hIn : len + c.tfm.blocksize ≤ buf.length) :
    (sealRecord ret ses buf len).2.2 = .error .overrun ↔ PadOverflows len c.tfm.blocksize := by
  rw [sealRecord, hc]
  dsimp only
  rcases padIfBlocks_cases hWord hIn with ⟨hOver, hError⟩ | ⟨hNot, buf', pad, hOk, hLen, hPad⟩
  · rw [hError]
    exact ⟨fun _ => hOver, fun _ => rfl⟩
  · rw [hOk]
    dsimp only
    rw [cipherInPlace_inside (by omega)]
    exact ⟨fun h => absurd h (answer_ne_overrun _ _), fun h => absurd h hNot⟩

/-- The length of the data and the tag, if there is one. -/
def taggedLen (ses : CSession) (len tagLen : Nat) : Nat := if ses.hdata.isSome then len + tagLen else len

theorem tlsEncrypt_overrun_iff (hc : ses.cdata = some c) (hAuth : Present auth authLen)
    (hWord : len + c.tfm.blocksize + tagLen < 4294967296)
    (hBuf : len + c.tfm.blocksize + tagLen ≤ buf.length) :
    (tlsEncrypt ret stack ses tagLen auth authLen buf len).2.2 = .error .overrun ↔
      PadOverflows (taggedLen ses len tagLen) c.tfm.blocksize := by
  rw [tlsEncrypt, taggedLen]
  cases hh : ses.hdata with
  | none =>
    rw [addTag, hh]
    exact sealRecord_overrun_iff hc (by omega) (by omega)
  | some h =>
    rw [addTag_inside hh hAuth (by omega)]
    refine sealRecord_overrun_iff hc (by omega) ?_
    rw [length_patch (by rw [tagOf, length_hashOutput]; omega)]
    omega

theorem checkTag_ne_overrun {fail : Bool} (hAuth : Present auth authLen) (hIn : len ≤ buf.length) :
    checkTag stack ses tagLen auth authLen buf fail len ≠ .error .overrun := by
  cases hh : ses.hdata with
  | none =>
    rw [checkTag, hh]
    exact fun hEq => by cases hEq
  | some h =>
    by_cases hTag : AALG_MAX_RESULT_LEN < tagLen ∨ len < tagLen
    · rw [checkTag, hh]
      dsimp only
      rw [if_pos hTag]
      exact fun hEq => by cases hEq
    · rw [checkTag_inside hh hAuth (by omega) (by omega) hIn]
      split
      · exact fun hEq => by cases hEq
      · exact fun hEq => by cases hEq

/-- What taking the pad off can come to. -/
theorem checkPad_cases {blockSize : Nat} (hWord : len < 4294967296) (hIn : len ≤ buf.length) :
    checkPad buf len blockSize = .error .overrun ∧ len = 0 ∧ 1 < blockSize ∨
      ∃ fail n, checkPad buf len blockSize = .ok (fail, n) ∧ n ≤ len ∧ ¬(len = 0 ∧ 1 < blockSize) := by
  unfold checkPad
  split
  · rename_i hBlocks
    rcases Nat.eq_zero_or_pos len with hZero | hPos
    · left
      rw [verifyTlsRecordPad, if_pos hZero]
      exact ⟨rfl, hZero, hBlocks⟩
    · right
      have hVerify : (∃ pad, verifyTlsRecordPad buf len = .ok pad) ∨
          verifyTlsRecordPad buf len = .error .EBADMSG := by
        rcases Nat.lt_or_ge len 2147483648 with hInt | hLarge
        · rcases verifyTlsRecordPad_eq hPos hInt hIn with ⟨x, p, -, hOk⟩ | ⟨-, hBad⟩
          · exact .inl ⟨_, hOk⟩
          · exact .inr hBad
        · exact .inr (verifyTlsRecordPad_large hLarge hWord hIn)
      rcases hVerify with ⟨pad, hOk⟩ | hBad
      · rw [hOk]
        exact ⟨false, _, rfl, Nat.sub_le _ _, by omega⟩
      · rw [hBad]
        exact ⟨true, _, rfl, Nat.le_refl _, by omega⟩
  · rename_i hStream
    exact .inr ⟨false, _, rfl, Nat.le_refl _, by omega⟩

/-- A list whose end is a function of what is in front of the end. -/
theorem drop_eq_iff {f : Bytes → Bytes} (hf : ∀ x, (f x).length = n) (hn : n ≤ x.length) (data : Bytes) :
    x.drop (x.length - n) = f (x.take (x.length - n)) ∧ x.take (x.length - n) = data ↔
      x = data ++ f data := by
  constructor
  · rintro ⟨hDrop, rfl⟩
    rw [← hDrop, List.take_append_drop]
  · rintro rfl
    have hLen : (data ++ f data).length - n = data.length := by
      rw [List.length_append, hf]
      omega
    rw [hLen, List.take_left, List.drop_left]
    exact ⟨rfl, rfl⟩

theorem slice_of_take {k : Nat} (hx : buf.take len = x) (hk : k + n = len) :
    slice buf k n = x.drop k := by
  rw [slice, ← hx, List.drop_take]
  congr 1
  omega

theorem checkTag_accepts_iff (hh : ses.hdata = some h) (hAuth : Present auth authLen)
    (hTag : tagLen ≤ AALG_MAX_RESULT_LEN) (hx : buf.take x.length = x) (m : Nat) (data : Bytes) :
    (checkTag stack ses tagLen auth authLen buf false x.length).map Prod.snd = .ok m ∧ buf.take m = data ↔
      x = data ++ tagOf stack h auth authLen tagLen data ∧ data.length = m := by
  have hf : ∀ y, (tagOf stack h auth authLen tagLen y).length = tagLen := fun y => length_hashOutput _ _ _
  have hIn : x.length ≤ buf.length := by
    have hLen := congrArg List.length hx
    rw [List.length_take] at hLen
    omega
  by_cases hShort : x.length < tagLen
  · -- no room for a tag
    rw [checkTag, hh]
    dsimp only
    rw [if_pos (.inr hShort)]
    refine ⟨fun hOk => (by cases hOk.1), ?_⟩
    rintro ⟨hEq, -⟩
    have hLen := congrArg List.length hEq
    rw [List.length_append, hf] at hLen
    omega
  · have hTake : ∀ k ≤ x.length, buf.take k = x.take k := by
      intro k hk
      rw [← hx, List.take_take, Nat.min_eq_left hk]
    have hSlice : slice buf (x.length - tagLen) tagLen = x.drop (x.length - tagLen) :=
      slice_of_take hx (by omega)
    rw [checkTag_inside hh hAuth hTag (by omega) hIn, hSlice, hTake _ (by omega),
      ← drop_eq_iff hf (by omega) data]
    have hLen : (x.take (x.length - tagLen)).length = x.length - tagLen := by
      rw [List.length_take]
      omega
    split
    · rename_i hBad
      refine ⟨fun hOk => (by cases hOk.1), fun hOk => ?_⟩
      rcases hBad with hBad | hBad
      · exact absurd hOk.1.1 hBad
      · cases hBad
    · rename_i hGood
      have hSame := not_or.mp hGood
      constructor
      · rintro ⟨hm, hData⟩
        obtain rfl : x.length - tagLen = m := by injection hm
        rw [hTake _ (by omega)] at hData
        exact ⟨⟨not_not.mp hSame.1, hData⟩, by rw [← hData, hLen]⟩
      · rintro ⟨⟨-, hData⟩, hm⟩
        obtain rfl : x.length - tagLen = m := by rw [← hLen, hData, hm]
        exact ⟨rfl, (hTake _ (by omega)).trans hData⟩

theorem checkTag_fail (hh : ses.hdata = some h) (hAuth : Present auth authLen) (hIn : len ≤ buf.length) :
    ∃ e, checkTag stack ses tagLen auth authLen buf true len = .error e := by
  by_cases hTag : AALG_MAX_RESULT_LEN < tagLen ∨ len < tagLen
  · rw [checkTag, hh]
    exact ⟨_, if_pos hTag⟩
  · rw [checkTag_inside hh hAuth (by omega) (by omega) hIn]
    exact ⟨_, if_pos (.inr rfl)⟩

/-- Decryption by a block cipher: a pad is found and taken off, or none is there and the record
goes on as it is. -/
theorem openRecord_cases (hc : ses.cdata = some c) (hBlocks : 1 < c.tfm.blocksize)
    (hRet : ret .decrypt len = none) (hPos : 0 < len) (hInt : len < 2147483648) (hIn : len ≤ buf.length) :
    (∃ x p, Padded (c.run .decrypt (buf.take len)).2 x p ∧
        (patch buf 0 (c.run .decrypt (buf.take len)).2).take x.length = x ∧
        openRecord ret ses buf len = ({ ses with cdata := some (c.run .decrypt (buf.take len)).1 },
          patch buf 0 (c.run .decrypt (buf.take len)).2, .ok (false, x.length))) ∨
      (¬∃ x p, Padded (c.run .decrypt (buf.take len)).2 x p) ∧
        openRecord ret ses buf len = ({ ses with cdata := some (c.run .decrypt (buf.take len)).1 },
          patch buf 0 (c.run .decrypt (buf.take len)).2, .ok (true, len)) := by
  have hPlain : (patch buf 0 (c.run .decrypt (buf.take len)).2).take len = (c.run .decrypt (buf.take len)).2 :=
    take_patch_run hIn
  have hLen : (patch buf 0 (c.run .decrypt (buf.take len)).2).length = buf.length := length_patch_run hIn
  rw [openRecord_inside hc hIn, hRet]
  generalize patch buf 0 (c.run .decrypt (buf.take len)).2 = out at hPlain hLen ⊢
  dsimp only [answer, Option.elim, Except.bind]
  rw [checkPad, if_pos hBlocks]
  rcases verifyTlsRecordPad_eq hPos hInt (hLen.symm ▸ hIn : len ≤ out.length) with
    ⟨x, p, hPadded, hOk⟩ | ⟨hNone, hBad⟩
  · have hx : len - (p + 1) = x.length := by
      have hl := hPadded.last.1
      rw [List.length_take] at hl
      omega
    have hFront : out.take x.length = x := by
      have hTake := congrArg (List.take x.length) hPadded.2
      rw [List.take_take, List.take_left, Nat.min_eq_left (by omega)] at hTake
      exact hTake
    rw [hPlain] at hPadded
    refine .inl ⟨x, p, hPadded, hFront, ?_⟩
    rw [hOk, ← hx]
  · rw [hPlain] at hNone
    refine .inr ⟨hNone, ?_⟩
    rw [hBad]

/-- A record of less than 2^31 bytes is accepted exactly when what it decrypts to is data, the tag of
the data and a pad; the data is then what the buffer starts with. -/
theorem tlsDecrypt_accepts_iff (hc : ses.cdata = some c) (hh : ses.hdata = some h)
    (hBlocks : 1 < c.tfm.blocksize) (hAuth : Present auth authLen) (hTag : tagLen ≤ AALG_MAX_RESULT_LEN)
    (hRet : ret .decrypt len = none) (hPos : 0 < len) (hInt : len < 2147483648) (hIn : len ≤ buf.length)
    (m : Nat) (data : Bytes) :
    (tlsDecrypt ret stack ses tagLen auth authLen buf len).2.2 = .ok m ∧
        (tlsDecrypt ret stack ses tagLen auth authLen buf len).2.1.take m = data ↔
      (∃ p, Padded (c.run .decrypt (buf.take len)).2 (data ++ tagOf stack h auth authLen tagLen data) p) ∧
        data.length = m := by
  have hLen : (patch buf 0 (c.run .decrypt (buf.take len)).2).length = buf.length := length_patch_run hIn
  rw [tlsDecrypt]
  rcases openRecord_cases hc hBlocks hRet hPos hInt hIn with ⟨x, p, hPadded, hFront, hOpen⟩ | ⟨hNone, hOpen⟩
  · have hIff := @checkTag_accepts_iff stack { ses with cdata := some (c.run .decrypt (buf.take len)).1 } h
      _ x tagLen authLen auth hh hAuth hTag hFront m data
    have hOnly : (∃ q, Padded (c.run .decrypt (buf.take len)).2
          (data ++ tagOf stack h auth authLen tagLen data) q) ↔
        x = data ++ tagOf stack h auth authLen tagLen data :=
      ⟨fun ⟨_, hq⟩ => (hPadded.unique hq).2, fun hEq => ⟨p, hEq ▸ hPadded⟩⟩
    rw [hOpen, hOnly, ← hIff]
    dsimp only
    generalize checkTag stack _ tagLen auth authLen _ false x.length = r
    cases r with
    | error e => exact ⟨fun hEq => (by cases hEq.1), fun hEq => (by cases hEq.1)⟩
    | ok r => rfl
  · obtain ⟨e, he⟩ := @checkTag_fail stack { ses with cdata := some (c.run .decrypt (buf.take len)).1 } h
      _ len tagLen authLen auth hh hAuth (hLen.symm ▸ hIn)
    rw [hOpen]
    dsimp only
    rw [he]
    exact ⟨fun hEq => (by cases hEq.1), fun hEq => absurd ⟨_, hEq.1⟩ hNone⟩

/-- The data `[1, 2]`, their tag `[3, 2]` and a pad of four. -/
theorem tlsDecrypt_accepts_iff_sample :
    (tlsDecrypt (fun _ _ => none) (fun _ => 0) tagged 2 none 0 [6, 5, 4, 5, 4, 4, 4, 4, 0, 0] 8).2.2 = .ok 2 ∧
      (tlsDecrypt (fun _ _ => none) (fun _ => 0) tagged 2 none 0
        [6, 5, 4, 5, 4, 4, 4, 4, 0, 0] 8).2.1.take 2 = [1, 2] :=
  (tlsDecrypt_accepts_iff rfl rfl (by decide) (Nat.zero_le _) (by decide) rfl (by decide) (by decide) (by decide)
    2 [1, 2]).mpr ⟨⟨3, by decide, by decide⟩, rfl⟩

/-- Without a hash nobody looks at `fail`: a record with a broken pad is passed on whole. -/
theorem tlsDecrypt_unauthenticated (hc : ses.cdata = some c) (hh : ses.hdata = none)
    (hBlocks : 1 < c.tfm.blocksize) (hRet : ret .decrypt len = none) (hPos : 0 < len)
    (hInt : len < 2147483648) (hIn : len ≤ buf.length) :
    (∃ x p, Padded (c.run .decrypt (buf.take len)).2 x p ∧
        (tlsDecrypt ret stack ses tagLen auth authLen buf len).2.2 = .ok x.length) ∨
      (¬∃ x p, Padded (c.run .decrypt (buf.take len)).2 x p) ∧
        (tlsDecrypt ret stack ses tagLen auth authLen buf len).2.2 = .ok len := by
  have hTag : ∀ (ses' : CSession) out fail n, ses'.hdata = none →
      checkTag stack ses' tagLen auth authLen out fail n = .ok (ses', n) := by
    intro ses' out fail n hNone
    rw [checkTag, hNone]
  rw [tlsDecrypt]
  rcases openRecord_cases hc hBlocks hRet hPos hInt hIn with ⟨x, p, hPadded, -, hOpen⟩ | ⟨hNone, hOpen⟩
  · refine .inl ⟨x, p, hPadded, ?_⟩
    rw [hOpen]
    dsimp only
    rw [hTag { ses with cdata := some (c.run .decrypt (buf.take len)).1 } _ _ _ hh]
  · refine .inr ⟨hNone, ?_⟩
    rw [hOpen]
    dsimp only
    rw [hTag { ses with cdata := some (c.run .decrypt (buf.take len)).1 } _ _ _ hh]

def untagged : CSession := { tagged with hdata := none }

theorem tlsDecrypt_unauthenticated_broken :
    (tlsDecrypt (fun _ _ => none) (fun _ => 0) untagged 0 none 0 [6, 5, 4, 5] 4).2.2 = .ok 4 := by
  have hNot : ¬∃ x p, Padded ((⟨counterTransform, [], [7, 7, 7, 7], rfl⟩ : CipherData).run .decrypt
      [6, 5, 4, 5]).2 x p := by
    rintro ⟨x, p, hPadded⟩
    obtain ⟨hLen, hLast⟩ := hPadded.last
    obtain rfl : 2 = p := hLast
    obtain ⟨a, rfl⟩ : ∃ a, x = [a] := List.length_eq_one_iff.mp (by
      have hFour : 4 = x.length + (2 + 1) := hLen
      omega)
    have hEq : ([1, 2, 3, 2] : Bytes) = [a, 2, 2, 2] := hPadded.2
    revert hEq
    simp
  rcases @tlsDecrypt_unauthenticated (fun _ _ => none) (fun _ => 0) untagged
    ⟨counterTransform, [], [7, 7, 7, 7], rfl⟩ [6, 5, 4, 5] 4 0 0 none rfl rfl (by decide) rfl (by decide)
    (by decide) (by decide) with ⟨x, p, hPadded, -⟩ | ⟨-, hOk⟩
  · exact absurd ⟨x, p, hPadded⟩ hNot
  · exact hOk

end VirtioCrypto.Cryptodev.Authenc
