import VirtioCrypto.Cryptodev.Effect
import VirtioCrypto.Chaining

/-!
# Shell — the calls of `crypto.c`

`init_crypto_session`, `encrypt_data` and `decrypt_data` of the remote shell, on
the `/dev/crypto` of the other modules. The objects a call hands to the device
are the arrays of its local `struct data`; the device reads and writes those and
nothing else (`objectSpace`).

The kernel's AES-CBC is a parameter: a permutation of 16-byte blocks for each
key, chained, with the last ciphertext block left in the session's register
(`cbcTransform`). The messages are moved with `strcpy`, whose result is `none`
when it would leave an array.

A process keeps, beside its descriptor and its session, the list of operations
it has asked for, each with the register it found.

* `initCryptoSession_fresh` — a new session has a zero register;
* `encryptData_spec`, `decryptData_spec` — what the two calls compute and what
  they leave in the register.
-/

namespace VirtioCrypto.Shell

open Octets Cryptodev Chaining

-- crypto.h
def DATA_SIZE : Nat := 8192
def BLOCK_SIZE : Nat := 16
def KEY_SIZE : Nat := 32
def ENC_SIZE : Nat := 8192
def MSG_SIZE : Nat := 8192

/-- The blocks of a message. -/
def BLOCKS : Nat := 512

-- ---------------------------------------------------------------------------
-- The device
-- ---------------------------------------------------------------------------

/-- A process whose addressable objects are the arrays named by `ι`. -/
def objectSpace (ι : Type) [DecidableEq ι] : UserSpace (Option (ι × Nat)) (ι → Bytes) where
  null p := p.isNone
  add p n := p.map fun q => (q.1, q.2 + n)
  copyFromUser m p n :=
    match p with
    | none => (none, m)
    | some (o, off) =>
      (if off + n ≤ (m o).length then some (slice (m o) off n) else none, m)
  copyToUser m p bs :=
    match p with
    | none => (false, m)
    | some (o, off) =>
      if off + bs.length ≤ (m o).length then (true, Function.update m o (patch (m o) off bs))
      else (false, m)
  add_zero p := by cases p <;> rfl
  add_add p i j := by cases p <;> simp [Nat.add_assoc]
  length_copyFromUser {m p n bs} h := by
    cases p with
    | none => simp at h
    | some q =>
      simp only at h
      split at h
      · obtain rfl := Option.some.inj h
        exact length_slice ‹_›
      · exact absurd h (by simp)

/-- The register CBC leaves: the last of the `n` ciphertext blocks. -/
def lastBlock (iv : Blk BLOCK_SIZE) (n : Nat) (c : Bytes) : Blk BLOCK_SIZE :=
  if n = 0 then iv else blockAt BLOCK_SIZE c (n - 1)

/-- `cbc(aes)` of the kernel, over a permutation of blocks for each key. -/
def cbcTransform (perm : Bytes → Equiv.Perm (Blk BLOCK_SIZE)) : Transform where
  blocksize := BLOCK_SIZE
  ivsize := BLOCK_SIZE
  setkey := fun _ => true
  crypt dir key iv x :=
    let n := x.length / BLOCK_SIZE
    match dir with
    | .encrypt =>
      (cbcEnc (perm key) (Blk.ofBytes BLOCK_SIZE iv) n x ++ x.drop (n * BLOCK_SIZE),
        (lastBlock (Blk.ofBytes BLOCK_SIZE iv) n
          (cbcEnc (perm key) (Blk.ofBytes BLOCK_SIZE iv) n x)).1)
    | .decrypt =>
      (cbcDec (perm key) (Blk.ofBytes BLOCK_SIZE iv) n x ++ x.drop (n * BLOCK_SIZE),
        (lastBlock (Blk.ofBytes BLOCK_SIZE iv) n x).1)
  length_crypt d k iv x := by
    have hLe : x.length / BLOCK_SIZE * BLOCK_SIZE ≤ x.length := Nat.div_mul_le_self _ _
    cases d
    · simp only [List.length_append, length_cbcEnc, List.length_drop]
      exact Nat.add_sub_of_le hLe
    · simp only [List.length_append, length_cbcDec, List.length_drop]
      exact Nat.add_sub_of_le hLe
  length_register d k iv x := by
    cases d <;> exact (lastBlock _ _ _).2

/-- What CBC makes of a message of `n` whole blocks: the result and the
ciphertext. -/
def cbc (P : Equiv.Perm (Blk BLOCK_SIZE)) (iv : Blk BLOCK_SIZE) (n : Nat) (x : Bytes) :
    Dir → Bytes × Bytes
  | .encrypt => (cbcEnc P iv n x, cbcEnc P iv n x)
  | .decrypt => (cbcDec P iv n x, x)

theorem cbcTransform_crypt (perm : Bytes → Equiv.Perm (Blk BLOCK_SIZE)) (dir : Dir) (key : Bytes)
    (iv : Blk BLOCK_SIZE) {n : Nat} {x : Bytes} (hx : x.length = n * BLOCK_SIZE) :
    (cbcTransform perm).crypt dir key iv.1 x =
      ((cbc (perm key) iv n x dir).1, (lastBlock iv n (cbc (perm key) iv n x dir).2).1) := by
  have hDiv : x.length / BLOCK_SIZE = n := by
    rw [hx]
    exact Nat.mul_div_cancel n (by decide)
  have hDrop : x.drop (n * BLOCK_SIZE) = [] := List.drop_eq_nil_of_le (Nat.le_of_eq hx)
  cases dir <;>
    simp only [cbcTransform, hDiv, hDrop, List.append_nil, Blk.ofBytes_val_self, cbc]

-- ---------------------------------------------------------------------------
-- crypto.c
-- ---------------------------------------------------------------------------

/-- The members of the local `struct data`. -/
inductive Member
  | input
  | encrypted
  | decrypted
  | iv
  | key
deriving DecidableEq, Repr

/-- `memset(&data, 0, sizeof(data))`. -/
def zeroed : Member → Bytes
  | .input => zeros DATA_SIZE
  | .encrypted => zeros ENC_SIZE
  | .decrypted => zeros DATA_SIZE
  | .iv => zeros BLOCK_SIZE
  | .key => zeros KEY_SIZE

/-- An operation that was asked for: the register it found and its ciphertext. -/
structure CryptCall where
  dir : Dir
  register : Bytes
  cipher : Bytes

/-- A process with `/dev/crypto` open: `(*sess).ses`, and its operations so far. -/
structure Proc where
  fcr : Fcrypt
  ses : Nat
  calls : List CryptCall

/-- The register of the process's session. -/
def Proc.register (p : Proc) : Bytes :=
  ((p.fcr.getSessionBySid p.ses).bind CSession.cdata).elim [] CipherData.iv

/-- `struct session_op` as `init_crypto_session` fills it in; `my_key` is the one
object it points to. -/
def sessionOp : SessionOp (Option (Unit × Nat)) where
  -- CRYPTO_AES_CBC
  raw := toLE 4 11 ++ zeros 4 ++ toLE 4 KEY_SIZE ++ zeros 36
  key := some ((), 0)
  mackey := none

/-- `init_crypto_session`; on an error `ses` stays 0. -/
def initCryptoSession (K : Kernel) (fcr : Fcrypt) (myKey : Bytes) : Proc :=
  match cryptoCreateSession K (objectSpace Unit) fcr (fun _ => myKey) sessionOp with
  | (fcr, _, .error _) => ⟨fcr.tick, 0, []⟩
  | (fcr, _, .ok sop) => ⟨fcr.tick, sop.ses, []⟩

/-- `struct crypt_op` as the two functions fill it in. -/
def cryptOp (ses : Nat) (dir : Dir) (len : Nat) (src dst : Member) (iv : Option Member) :
    CryptOp (Option (Member × Nat)) where
  raw := toLE 4 ses ++ toLE 2 (match dir with | .encrypt => 0 | .decrypt => 1) ++ zeros 2 ++
    toLE 4 len ++ zeros 36
  src := some (src, 0)
  dst := some (dst, 0)
  mac := none
  iv := iv.map fun o => (o, 0)

/-- `ioctl(cfd, CIOCCRYPT, &cryp)`. -/
def ioctlCrypt (K : Kernel) (p : Proc) (data : Member → Bytes) (dir : Dir) (len : Nat)
    (src dst : Member) (iv : Option Member) : Proc × (Member → Bytes) × Except Errno Unit :=
  let r := cryptoCrypt K (objectSpace Member) p.fcr data (cryptOp p.ses dir len src dst iv)
  let cipher := match dir with
    | .encrypt => r.2.1 dst
    | .decrypt => data src
  (⟨r.1.tick, p.ses, p.calls ++ [⟨dir, p.register, cipher⟩]⟩, r.2.1, r.2.2)

/-- `encrypt_data`: the buffer `enc` afterwards, `none` when a copy left an
array. -/
def encryptData (K : Kernel) (p : Proc) (arr enc : Bytes) : Proc × Option Bytes :=
  match strcpy (zeroed .input) arr with
  | none => (p, none)
  | some input =>
    match ioctlCrypt K p (Function.update zeroed .input input) .encrypt DATA_SIZE .input .encrypted
        none with
    | (p, _, .error _) => (p, some enc)
    | (p, data, .ok ()) => (p, strcpy enc (data .encrypted))

/-- `decrypt_data`: the buffer `arr` afterwards. -/
def decryptData (K : Kernel) (p : Proc) (enc arr : Bytes) : Proc × Option Bytes :=
  match strcpy (zeroed .encrypted) enc with
  | none => (p, none)
  | some encrypted =>
    match ioctlCrypt K p (Function.update zeroed .encrypted encrypted) .decrypt ENC_SIZE .encrypted
        .decrypted (some .iv) with
    | (p, _, .error _) => (p, some arr)
    | (p, data, .ok ()) => (p, strcpy arr (data .decrypted))

-- ---------------------------------------------------------------------------
-- What the calls compute
-- ---------------------------------------------------------------------------

variable {K : Kernel} {perm : Bytes → Equiv.Perm (Blk BLOCK_SIZE)} {key : Bytes}
  {iv : Blk BLOCK_SIZE} {p : Proc}

/-- The process has a session of the kernel's CBC with this key, whose register
is `iv`. -/
structure Session (perm : Bytes → Equiv.Perm (Blk BLOCK_SIZE)) (key : Bytes) (iv : Blk BLOCK_SIZE)
    (p : Proc) : Prop where
  small : p.ses < 256 ^ 4
  found : ∃ ses c, p.fcr.getSessionBySid p.ses = some ses ∧ ses.hdata = none ∧
    ses.cdata = some c ∧ c.tfm = cbcTransform perm ∧ c.key = key ∧ c.iv = iv.1

theorem Session.register_eq (h : Session perm key iv p) : p.register = iv.1 := by
  obtain ⟨ses, c, hSes, -, hCipher, -, -, hIv⟩ := h.found
  rw [Proc.register, hSes, Option.bind_some, hCipher]
  exact hIv

section Op

variable (ses : Nat) (dir : Dir) (len : Nat) (src dst : Member) (o : Option Member)

theorem cryptOp_ses (h : ses < 256 ^ 4) : (cryptOp ses dir len src dst o).ses = ses :=
  ofLE_toLE h

theorem cryptOp_len (h : len < 256 ^ 4) : (cryptOp ses dir len src dst o).len = len :=
  ofLE_toLE h

theorem cryptOp_flags : (cryptOp ses dir len src dst o).flags = 0 := rfl

theorem cryptOp_dir : Dir.ofOp (cryptOp ses dir len src dst o).op = some dir := by
  cases dir <;> rfl

end Op

/-- The session that was put back is the one found next. -/
theorem getSessionBySid_putSession {fcr : Fcrypt} {ses ses' : CSession} {sid : Nat}
    (h : fcr.getSessionBySid sid = some ses) (hSid : ses'.sid = ses.sid) :
    (fcr.putSession ses').getSessionBySid sid = some ses' := by
  have hEq : ses.sid = sid := by simpa using List.find?_some h
  have hFind : ∀ l : List CSession, l.find? (·.sid == sid) = some ses →
      (replaceSession ses' l).find? (·.sid == sid) = some ses' := by
    intro l
    induction l with
    | nil =>
      intro hNone
      exact absurd hNone (by simp)
    | cons s rest ih =>
      intro hFound
      by_cases hs : s.sid = sid
      · simp [replaceSession, hs, hSid, hEq]
      · simp only [List.find?_cons, beq_eq_false_iff_ne.mpr hs] at hFound
        simp [replaceSession, hs, hSid, hEq, ih hFound]
  exact hFind fcr.list h

/-- An operation on whole blocks of a CBC session, from the register `iv'` that
`cryptodev_cipher_set_iv` leaves. -/
theorem cryptEffect_cbc {Q : Type} (clock : Nat) {ses : CSession} {c : CipherData}
    (hHash : ses.hdata = none) (hCipher : ses.cdata = some c) (hTfm : c.tfm = cbcTransform perm)
    {cop : CryptOp Q} {dir : Dir} (hDir : Dir.ofOp cop.op = some dir) {n : Nat} (hn : 0 < n)
    (hLen : cop.len = n * BLOCK_SIZE) {ivBytes : Bytes} {iv' : Blk BLOCK_SIZE}
    (hIv : patch c.iv 0 (ivBytes.take BLOCK_SIZE) = iv'.1) {src : Bytes}
    (hSrc : src.length = n * BLOCK_SIZE) (dst : Bytes) :
    ∃ ses' c', cryptEffect K clock ses cop ivBytes src dst =
        (ses', .ok (cbc (perm c.key) iv' n src dir).1) ∧
      ses'.sid = ses.sid ∧ ses'.hdata = none ∧ ses'.cdata = some c' ∧ c'.tfm = c.tfm ∧
      c'.key = c.key ∧ c'.iv = (lastBlock iv' n (cbc (perm c.key) iv' n src dir).2).1 := by
  have hPos : cop.len ≠ 0 := by
    rw [hLen, BLOCK_SIZE]
    omega
  have hBlocks : ¬ cop.len % c.tfm.blocksize ≠ 0 := by
    rw [hTfm, hLen]
    exact not_not.mpr (Nat.mul_mod_left n BLOCK_SIZE)
  have hSet : setIv ses cop ivBytes = some { ses with cdata := some (c.setIv ivBytes) } := by
    rw [setIv, hCipher]
    simp only [if_neg hBlocks]
  have hRegister : (c.setIv ivBytes).iv = iv'.1 := by
    show patch c.iv 0 (ivBytes.take c.tfm.ivsize) = iv'.1
    rw [hTfm]
    exact hIv
  have hCrypt : c.tfm.crypt dir c.key (c.setIv ivBytes).iv src =
      ((cbc (perm c.key) iv' n src dir).1,
        (lastBlock iv' n (cbc (perm c.key) iv' n src dir).2).1) := by
    rw [hRegister, hTfm]
    exact cbcTransform_crypt perm dir c.key iv' hSrc
  refine ⟨(hashNCrypt { ses with cdata := some (c.setIv ivBytes) } dir src dst).1,
    ((c.setIv ivBytes).run dir src).1, ?_, rfl, ?_, rfl, rfl, rfl, congrArg Prod.snd hCrypt⟩
  · rw [cryptEffect, hDir]
    simp only [hSet, if_neg hPos]
    have hOut := congrArg Prod.fst hCrypt
    exact Prod.ext rfl (congrArg Except.ok hOut)
  · show Option.map _ ses.hdata = none
    rw [hHash, Option.map_none]

theorem copyFromUser_whole {ι : Type} [DecidableEq ι] {m : ι → Bytes} {x : ι} {n : Nat}
    (h : (m x).length = n) :
    (objectSpace ι).copyFromUser m (some (x, 0)) n = (some (m x), m) := by
  show (if 0 + n ≤ (m x).length then some (slice (m x) 0 n) else none, m) = _
  rw [if_pos (by omega), ← h, slice_zero_length]

theorem copyToUser_whole {ι : Type} [DecidableEq ι] {m : ι → Bytes} {x : ι} {bs : Bytes}
    (h : (m x).length = bs.length) :
    (objectSpace ι).copyToUser m (some (x, 0)) bs = (true, Function.update m x bs) := by
  have hPatch : patch (m x) 0 bs = bs := patch_whole h
  show (if 0 + bs.length ≤ (m x).length then (true, Function.update m x (patch (m x) 0 bs))
    else (false, m)) = _
  rw [if_pos (by omega), hPatch]

/-- `CIOCCRYPT` as `crypto.c` issues it, for a register `iv'` set by the IV of
the operation, or left by the operation before. -/
theorem ioctlCrypt_spec (h : Session perm key iv p) (data : Member → Bytes) (dir : Dir)
    (src dst : Member) (hSrc : (data src).length = DATA_SIZE) (hDst : (data dst).length = DATA_SIZE)
    {o : Option Member} {iv' : Blk BLOCK_SIZE}
    (hIv : o = none ∧ iv' = iv ∨ ∃ x, o = some x ∧ data x = iv'.1) :
    ∃ p', ioctlCrypt K p data dir DATA_SIZE src dst o =
        (p', Function.update data dst (cbc (perm key) iv' BLOCKS (data src) dir).1, .ok ()) ∧
      Session perm key (lastBlock iv' BLOCKS (cbc (perm key) iv' BLOCKS (data src) dir).2) p' ∧
      p'.calls = p.calls ++ [⟨dir, iv.1, (cbc (perm key) iv' BLOCKS (data src) dir).2⟩] := by
  have hRegister := h.register_eq
  obtain ⟨ses, c, hSes, hHash, hCipher, hTfm, rfl, hOld⟩ := h.found
  have hIvSize : ses.ivsize = BLOCK_SIZE := by
    rw [CSession.ivsize, hCipher, Option.map_some, hTfm]
    rfl
  have hLen : (cryptOp p.ses dir DATA_SIZE src dst o).len = BLOCKS * BLOCK_SIZE :=
    cryptOp_len p.ses dir DATA_SIZE src dst o (by decide)
  obtain ⟨ivBytes, hRead, hPatch⟩ : ∃ ivBytes,
      (if (objectSpace Member).null (cryptOp p.ses dir DATA_SIZE src dst o).iv then (some [], data)
        else (objectSpace Member).copyFromUser data (cryptOp p.ses dir DATA_SIZE src dst o).iv
          ses.ivsize) = (some ivBytes, data) ∧
      patch c.iv 0 (ivBytes.take BLOCK_SIZE) = iv'.1 := by
    rcases hIv with ⟨rfl, rfl⟩ | ⟨x, rfl, hx⟩
    · refine ⟨[], rfl, ?_⟩
      rw [← hOld]
      simp [patch]
    · refine ⟨iv'.1, ?_, ?_⟩
      · rw [hIvSize, ← hx]
        exact copyFromUser_whole (by rw [hx, iv'.2])
      · rw [List.take_of_length_le (Nat.le_of_eq iv'.2)]
        exact patch_whole (by rw [hOld, iv.2, iv'.2])
  obtain ⟨ses', c', hEffect, hSid, hHash', hCipher', hTfm', hKey', hIv'⟩ :=
    cryptEffect_cbc (K := K) p.fcr.clock hHash hCipher hTfm
      (cryptOp_dir p.ses dir DATA_SIZE src dst o) (by decide) hLen hPatch hSrc (data dst)
  have hSes' : p.fcr.getSessionBySid (cryptOp p.ses dir DATA_SIZE src dst o).ses = some ses := by
    rw [cryptOp_ses _ _ _ _ _ _ h.small]
    exact hSes
  have hOut : (cbc (perm c.key) iv' BLOCKS (data src) dir).1.length = DATA_SIZE := by
    cases dir
    · exact length_cbcEnc _ _ _ _
    · exact length_cbcDec _ _ _ _
  have hCrypt := cryptoCrypt_eq (K := K) hSes' hHash (cryptOp_flags p.ses dir DATA_SIZE src dst o)
    hRead (fun _ => copyFromUser_whole (hSrc.trans hLen.symm))
    (fun _ => copyFromUser_whole (hDst.trans hLen.symm))
  have hPos : 0 < (cryptOp p.ses dir DATA_SIZE src dst o).len := by
    rw [hLen]
    decide
  have hWrite := copyToUser_whole (m := data) (hDst.trans hOut.symm)
  rw [hEffect] at hCrypt
  simp only [if_pos hPos] at hCrypt
  rw [show (cryptOp p.ses dir DATA_SIZE src dst o).dst = some (dst, 0) from rfl, hWrite] at hCrypt
  refine ⟨⟨(p.fcr.putSession ses').tick, p.ses,
    p.calls ++ [⟨dir, iv.1, (cbc (perm c.key) iv' BLOCKS (data src) dir).2⟩]⟩, ?_, ?_, rfl⟩
  · simp only [ioctlCrypt, hCrypt, hRegister]
    cases dir
    · simp only [Function.update_self, cbc]
    · simp only [cbc]
  · refine ⟨h.small, ses', c', ?_, hHash', hCipher', hTfm'.trans hTfm, hKey', hIv'⟩
    exact getSessionBySid_putSession hSes hSid

/-- A session that was asked for and granted: nothing is in its register. -/
theorem initCryptoSession_fresh {fcr : Fcrypt} {myKey : Bytes}
    (hCbc : K.cipher .cbcAes = some (cbcTransform perm)) (hKey : myKey.length = KEY_SIZE)
    (hAlloc : K.kzalloc fcr.clock = true) (hPages : K.kzallocPages fcr.clock = true)
    (hSid : K.freshSid fcr.clock (fcr.list.map CSession.sid) < 256 ^ 4) :
    Session perm myKey (Blk.zero BLOCK_SIZE) (initCryptoSession K fcr myKey) ∧
      (initCryptoSession K fcr myKey).calls = [] := by
  let c : CipherData :=
    ⟨cbcTransform perm, myKey, List.replicate BLOCK_SIZE 0, List.length_replicate⟩
  let sid := K.freshSid fcr.clock (fcr.list.map CSession.sid)
  have hSetup : setupCipher K (objectSpace Unit) (fun _ => myKey) sessionOp (some .cbcAes) =
      (fun _ => myKey, .ok (some c)) := by
    rw [setupCipher, if_neg (show ¬ CRYPTO_CIPHER_MAX_KEY_LEN < sessionOp.keylen by decide),
      show sessionOp.keylen = KEY_SIZE from rfl, show sessionOp.key = some ((), 0) from rfl,
      copyFromUser_whole hKey]
    simp only [hCbc]
    rfl
  have hCreate : cryptoCreateSession K (objectSpace Unit) fcr (fun _ => myKey) sessionOp =
      ({ fcr with list := ⟨sid, some c, none⟩ :: fcr.list }, fun _ => myKey,
        .ok { sessionOp with raw := patch sessionOp.raw SES_OFF (toLE 4 sid) }) := by
    rw [cryptoCreateSession_noMac (by decide), if_neg (show ¬ sessionOp.cipher = 0 by decide),
      show algName sessionOp.cipher = some (some .cbcAes) from rfl]
    simp only [hAlloc, Bool.not_true, Bool.false_eq_true, if_false, hSetup, hPages]
    rfl
  have hSes : u32 (patch sessionOp.raw SES_OFF (toLE 4 sid)) SES_OFF = sid := ofLE_toLE hSid
  have hInit : initCryptoSession K fcr myKey =
      ⟨{ list := ⟨sid, some c, none⟩ :: fcr.list, clock := fcr.clock + 1 }, sid, []⟩ := by
    unfold initCryptoSession
    rw [hCreate]
    simp only [SessionOp.ses, hSes]
    rfl
  rw [hInit]
  refine ⟨⟨hSid, ⟨sid, some c, none⟩, c, ?_, rfl, rfl, rfl, rfl, rfl⟩, rfl⟩
  simp [Fcrypt.getSessionBySid]

/-- A kernel whose only algorithm is CBC over a permutation. -/
def cbcKernel (perm : Bytes → Equiv.Perm (Blk BLOCK_SIZE)) : Kernel :=
  { nullKernel with cipher := fun alg => if alg = .cbcAes then some (cbcTransform perm) else none }

/-- A process that has just got its session. -/
def freshProc (perm : Bytes → Equiv.Perm (Blk BLOCK_SIZE)) : Proc :=
  initCryptoSession (cbcKernel perm) ⟨[], 0⟩ (zeros KEY_SIZE)

theorem freshProc_session (perm : Bytes → Equiv.Perm (Blk BLOCK_SIZE)) :
    Session perm (zeros KEY_SIZE) (Blk.zero BLOCK_SIZE) (freshProc perm) ∧
      (freshProc perm).calls = [] :=
  initCryptoSession_fresh rfl (length_zeros _) rfl rfl (show 1 < 256 ^ 4 by decide)

/-- The permutation that leaves every block as it is, for every key. -/
def identity : Bytes → Equiv.Perm (Blk BLOCK_SIZE) := fun _ => Equiv.refl _

/-- Exclusive or with one block, for every key. -/
def xorWith (x : Blk BLOCK_SIZE) : Bytes → Equiv.Perm (Blk BLOCK_SIZE) := fun _ =>
  ⟨fun b => b.xor x, fun b => b.xor x, fun b => b.xor_cancel x, fun b => b.xor_cancel x⟩

/-- `encrypt_data` of a string that fits: the ciphertext of all of `data.in`, and
what `strcpy` makes of it. -/
theorem encryptData_spec (h : Session perm key iv p) {arr m : Bytes} (hArr : cstr arr = some m)
    (hm : m.length < DATA_SIZE) (enc : Bytes) :
    ∃ p', encryptData K p arr enc =
        (p', strcpy enc (cbcEnc (perm key) iv BLOCKS (padTo DATA_SIZE m))) ∧
      Session perm key (lastBlock iv BLOCKS (cbcEnc (perm key) iv BLOCKS (padTo DATA_SIZE m))) p' ∧
      p'.calls = p.calls ++
        [⟨.encrypt, iv.1, cbcEnc (perm key) iv BLOCKS (padTo DATA_SIZE m)⟩] := by
  have hCopy : strcpy (zeroed .input) arr = some (padTo DATA_SIZE m) := strcpy_zeros hArr hm
  obtain ⟨p', hCall, hSession, hCalls⟩ := ioctlCrypt_spec (K := K) h
    (Function.update zeroed .input (padTo DATA_SIZE m)) .encrypt .input .encrypted
    (by rw [Function.update_self]; exact length_padTo (Nat.le_of_lt hm))
    (by rw [Function.update_of_ne (by decide)]; exact length_zeros _) (.inl ⟨rfl, rfl⟩)
  rw [Function.update_self] at hCall hSession hCalls
  refine ⟨p', ?_, hSession, hCalls⟩
  rw [encryptData, hCopy]
  simp only [hCall, Function.update_self, cbc]

/-- `encrypt_data` when the first copy leaves an array. -/
theorem encryptData_none {arr : Bytes} (h : strcpy (zeros DATA_SIZE) arr = none) (enc : Bytes) :
    encryptData K p arr enc = (p, none) := by
  rw [encryptData, show strcpy (zeroed .input) arr = none from h]

/-- `decrypt_data` of the string in `enc`: the array it decrypts is the string,
zero-filled, and the IV is zero. -/
theorem decryptData_spec (h : Session perm key iv p) {enc t : Bytes} (hEnc : cstr enc = some t)
    (ht : t.length < ENC_SIZE) (arr : Bytes) :
    ∃ p', decryptData K p enc arr =
        (p', strcpy arr (cbcDec (perm key) (Blk.zero BLOCK_SIZE) BLOCKS (padTo ENC_SIZE t))) ∧
      Session perm key (lastBlock (Blk.zero BLOCK_SIZE) BLOCKS (padTo ENC_SIZE t)) p' ∧
      p'.calls = p.calls ++ [⟨.decrypt, iv.1, padTo ENC_SIZE t⟩] := by
  have hCopy : strcpy (zeroed .encrypted) enc = some (padTo ENC_SIZE t) := strcpy_zeros hEnc ht
  have hIv : Function.update zeroed .encrypted (padTo ENC_SIZE t) .iv =
      (Blk.zero BLOCK_SIZE).1 := by
    rw [Function.update_of_ne (by decide)]
    rfl
  obtain ⟨p', hCall, hSession, hCalls⟩ := ioctlCrypt_spec (K := K) h
    (Function.update zeroed .encrypted (padTo ENC_SIZE t)) .decrypt .encrypted .decrypted
    (by rw [Function.update_self]; exact length_padTo (Nat.le_of_lt ht))
    (by rw [Function.update_of_ne (by decide)]; exact length_zeros _)
    (.inr ⟨.iv, rfl, hIv⟩)
  rw [Function.update_self] at hCall hSession hCalls
  refine ⟨p', ?_, hSession, hCalls⟩
  rw [decryptData, hCopy]
  show (match ioctlCrypt K p (Function.update zeroed .encrypted (padTo ENC_SIZE t)) .decrypt
    DATA_SIZE .encrypted .decrypted (some .iv) with
    | (p, _, .error _) => (p, some arr)
    | (p, data, .ok ()) => (p, strcpy arr (data .decrypted))) = _
  simp only [hCall, Function.update_self, cbc]

/-- The string `decrypt_data` finds in a buffer, if there is one. -/
def decrypted (P : Equiv.Perm (Blk BLOCK_SIZE)) (enc : Bytes) : Option Bytes :=
  (cstr enc).bind fun t => cstr (cbcDec P (Blk.zero BLOCK_SIZE) BLOCKS (padTo ENC_SIZE t))

/-- `decrypt_data` of a buffer without a terminator. -/
theorem decryptData_none {enc : Bytes} (hEnc : cstr enc = none) (arr : Bytes) :
    decryptData K p enc arr = (p, none) := by
  rw [decryptData, strcpy, hEnc]
  rfl

theorem length_lt_of_cstr_buffer {enc t : Bytes} (hLen : enc.length = ENC_SIZE)
    (ht : cstr enc = some t) : t.length < ENC_SIZE := hLen ▸ length_lt_of_cstr ht

/-- A copy between arrays of one size goes wrong only without a terminator. -/
theorem strcpy_sameSize {dst src : Bytes} (h : dst.length = src.length) :
    strcpy dst src = (cstr src).map fun t => patch dst 0 (t ++ [0]) := by
  cases ht : cstr src with
  | none => rw [strcpy, ht]; rfl
  | some t =>
    rw [strcpy, ht, Option.bind_some, if_pos (h ▸ length_lt_of_cstr ht)]
    rfl

/-- `decrypt_data` on a buffer of the protocol's size, into one of that size. -/
theorem decryptData_buffer (h : Session perm key iv p) {enc arr : Bytes}
    (hEnc : enc.length = ENC_SIZE) (hArr : arr.length = MSG_SIZE) :
    ∃ p' iv', decryptData K p enc arr =
        (p', (decrypted (perm key) enc).map fun u => patch arr 0 (u ++ [0])) ∧
      Session perm key iv' p' ∧
      ∀ t, cstr enc = some t →
        iv' = lastBlock (Blk.zero BLOCK_SIZE) BLOCKS (padTo ENC_SIZE t) := by
  cases ht : cstr enc with
  | none =>
    refine ⟨p, iv, ?_, h, by simp⟩
    rw [decryptData_none ht, decrypted, ht]
    rfl
  | some t =>
    obtain ⟨p', hCall, hSession, -⟩ :=
      decryptData_spec (K := K) h ht (length_lt_of_cstr_buffer hEnc ht) arr
    have hSize : arr.length = (cbcDec (perm key) (Blk.zero BLOCK_SIZE) BLOCKS
        (padTo ENC_SIZE t)).length := by
      rw [hArr, length_cbcDec]
      rfl
    refine ⟨p', _, ?_, hSession, by simp⟩
    rw [hCall, strcpy_sameSize hSize, decrypted, ht, Option.bind_some]

theorem decrypted_string {P : Equiv.Perm (Blk BLOCK_SIZE)} {enc u : Bytes}
    (h : decrypted P enc = some u) : 0 ∉ u ∧ u.length < MSG_SIZE := by
  obtain ⟨t, -, hu⟩ := Option.bind_eq_some_iff.mp h
  have hLt := length_lt_of_cstr hu
  rw [length_cbcDec] at hLt
  exact ⟨(cstr_eq_some_iff.mp hu).1, hLt⟩

/-- `decrypt_data` into a zeroed array. -/
theorem decryptData_zeros (h : Session perm key iv p) {enc : Bytes} (hEnc : enc.length = ENC_SIZE) :
    ∃ p' iv', decryptData K p enc (zeros MSG_SIZE) =
        (p', (decrypted (perm key) enc).map (padTo MSG_SIZE)) ∧
      Session perm key iv' p' ∧
      ∀ t, cstr enc = some t →
        iv' = lastBlock (Blk.zero BLOCK_SIZE) BLOCKS (padTo ENC_SIZE t) := by
  obtain ⟨p', iv', hCall, hRest⟩ := decryptData_buffer (K := K) h hEnc (length_zeros MSG_SIZE)
  refine ⟨p', iv', ?_, hRest⟩
  rw [hCall]
  cases hu : decrypted (perm key) enc with
  | none => rfl
  | some u =>
    rw [Option.map_some, Option.map_some, patch_zeros (decrypted_string hu).2]

end VirtioCrypto.Shell
