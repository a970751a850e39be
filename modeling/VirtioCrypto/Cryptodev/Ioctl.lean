import VirtioCrypto.Cryptodev.Session

/-!
# Cryptodev — the three ioctls

`crypto_create_session`, `crypto_run` with both of its data paths, and
`crypto_finish_session`, over an abstract user address space: a pointer type
`P`, a memory type `M` and the two copy functions (`UserSpace`). The same code
then runs over a process's memory, over QEMU's memory with an access log, and
over a C struct whose members are the only addresses.

The argument structs are kept as the bytes the caller passed, with the pointer
members beside them, so that what is copied back is what was copied in except
where the module assigns a member.
-/

namespace VirtioCrypto.Cryptodev

open Octets

-- ---------------------------------------------------------------------------
-- User memory and argument structs
-- ---------------------------------------------------------------------------

/-- The address space a call runs over. -/
structure UserSpace (P M : Type) where
  null : P → Bool
  add : P → Nat → P
  copyFromUser : M → P → Nat → Option Bytes × M
  copyToUser : M → P → Bytes → Bool × M
  add_zero : ∀ p, add p 0 = p
  add_add : ∀ p i j, add (add p i) j = add p (i + j)
  length_copyFromUser : ∀ {m p n bs}, (copyFromUser m p n).1 = some bs → bs.length = n

/-- `sizeof(struct session_op)` and `sizeof(struct crypt_op)`. -/
def OP_SIZE : Nat := 48

-- offset of ses in struct session_op
def SES_OFF : Nat := 40

/-- `struct session_op`: its bytes, and its pointers. -/
structure SessionOp (P : Type) where
  raw : Bytes
  key : P
  mackey : P

namespace SessionOp

variable {P : Type}

def cipher (sop : SessionOp P) : Nat := u32 sop.raw 0
def mac (sop : SessionOp P) : Nat := u32 sop.raw 4
def keylen (sop : SessionOp P) : Nat := u32 sop.raw 8
def mackeylen (sop : SessionOp P) : Nat := u32 sop.raw 24
def ses (sop : SessionOp P) : Nat := u32 sop.raw SES_OFF

end SessionOp

/-- `struct crypt_op`: its bytes, and its pointers. -/
structure CryptOp (P : Type) where
  raw : Bytes
  src : P
  dst : P
  mac : P
  iv : P

namespace CryptOp

variable {P : Type}

def ses (cop : CryptOp P) : Nat := u32 cop.raw 0
def op (cop : CryptOp P) : Nat := u16 cop.raw 4
def flags (cop : CryptOp P) : Nat := u16 cop.raw 6
def len (cop : CryptOp P) : Nat := u32 cop.raw 8

-- COP_FLAG_UPDATE, _FINAL, _WRITE_IV, _NO_ZC and _RESET
def update (cop : CryptOp P) : Bool := cop.flags.testBit 0
def final (cop : CryptOp P) : Bool := cop.flags.testBit 1
def writeIv (cop : CryptOp P) : Bool := cop.flags.testBit 2
def noZc (cop : CryptOp P) : Bool := cop.flags.testBit 3
def reset (cop : CryptOp P) : Bool := cop.flags.testBit 6

end CryptOp

variable {P M : Type}

-- ---------------------------------------------------------------------------
-- CIOCGSESSION
-- ---------------------------------------------------------------------------

/-- The cipher half of `crypto_create_session`. -/
def setupCipher (K : Kernel) (U : UserSpace P M) (m : M) (sop : SessionOp P) :
    Option CipherAlg → M × Except Errno (Option CipherData)
  | none => (m, .ok none)
  | some alg =>
    if CRYPTO_CIPHER_MAX_KEY_LEN < sop.keylen then (m, .error .EINVAL) else
    match U.copyFromUser m sop.key sop.keylen with
    | (none, m) => (m, .error .EFAULT)
    | (some key, m) =>
      -- cryptodev_cipher_init: every failure of it is reported as EINVAL
      match K.cipher alg with
      | none => (m, .error .EINVAL)
      | some tfm =>
        if tfm.setkey key then
          (m, .ok (some ⟨tfm, key, List.replicate tfm.ivsize 0, List.length_replicate⟩))
        else (m, .error .EINVAL)

/-- The hash half of `crypto_create_session`, skipped for an AEAD cipher. -/
def setupHash (K : Kernel) (U : UserSpace P M) (clock : Nat) (m : M) (sop : SessionOp P) :
    Option HashAlg → M × Except Errno (Option HashData)
  | none => (m, .ok none)
  | some alg =>
    if CRYPTO_HMAC_MAX_KEY_LEN < sop.mackeylen then (m, .error .EINVAL) else
    -- a NULL mackey leaves the local buffer as it was
    match (if U.null sop.mackey then (some (K.uninitKey clock), m)
           else U.copyFromUser m sop.mackey sop.mackeylen) with
    | (none, m) => (m, .error .EFAULT)
    | (some key, m) =>
      match K.hash alg with
      | none => (m, .error .EINVAL)
      | some tfm =>
        if alg.hmacMode && !tfm.setkey key then (m, .error .EINVAL)
        else (m, .ok (some ⟨tfm, key, []⟩))

/-- The hash algorithm that is set up beside a cipher. -/
def hashBeside (alg : Option CipherAlg) (hash : Option HashAlg) : Option HashAlg :=
  if alg.any CipherAlg.aead then none else hash

/-- `crypto_create_session`. -/
def cryptoCreateSession (K : Kernel) (U : UserSpace P M) (fcr : Fcrypt) (m : M)
    (sop : SessionOp P) : Fcrypt × M × Except Errno (SessionOp P) :=
  if sop.cipher = 0 ∧ sop.mac = 0 then (fcr, m, .error .EINVAL) else
  match algName sop.cipher, hashName sop.mac with
  | some alg, some hash =>
    if !K.kzalloc fcr.clock then (fcr, m, .error .ENOMEM) else
    match setupCipher K U m sop alg with
    | (m, .error e) => (fcr, m, .error e)
    | (m, .ok cdata) =>
      match setupHash K U fcr.clock m sop (hashBeside alg hash) with
      | (m, .error e) => (fcr, m, .error e)
      | (m, .ok hdata) =>
        if !K.kzallocPages fcr.clock then (fcr, m, .error .ENOMEM) else
        let sid := K.freshSid fcr.clock (fcr.list.map CSession.sid)
        ({ fcr with list := ⟨sid, cdata, hdata⟩ :: fcr.list }, m,
          .ok { sop with raw := patch sop.raw SES_OFF (toLE 4 sid) })
  | _, _ => (fcr, m, .error .EINVAL)

-- ---------------------------------------------------------------------------
-- CIOCCRYPT
-- ---------------------------------------------------------------------------

def HashData.update (h : HashData) (data : Bytes) : HashData := { h with acc := h.acc ++ data }

/-- `hash_n_crypt` on the bytes of the source and of the destination; the result
is what the destination holds afterwards. -/
def hashNCrypt (ses : CSession) (dir : Dir) (src dst : Bytes) : CSession × Bytes :=
  let r : Option CipherData × Bytes :=
    match ses.cdata with
    | some c => (some (c.run dir src).1, (c.run dir src).2)
    | none => (none, dst)
  -- hashed before encryption and after decryption
  let hashed := match dir with
    | .encrypt => src
    | .decrypt => r.2
  ({ ses with cdata := r.1, hdata := ses.hdata.map (·.update hashed) }, r.2)

/-- One turn of the loop of `__crypto_run_std`: `cur` bytes through the bounce
buffer. A session without a cipher writes nothing back. -/
def runChunk (U : UserSpace P M) (dir : Dir) (ses : CSession) (m : M) (src dst : P) (cur : Nat) :
    CSession × M × Except Errno Unit :=
  match U.copyFromUser m src cur with
  | (none, m) => (ses, m, .error .EFAULT)
  | (some data, m) =>
    let r := hashNCrypt ses dir data data
    if r.1.cdata.isNone then (r.1, m, .ok ()) else
    match U.copyToUser m dst r.2 with
    | (false, m) => (r.1, m, .error .EFAULT)
    | (true, m) => (r.1, m, .ok ())

/-- The loop of `__crypto_run_std`. The recursion is on the number of bytes left. -/
def cryptoRunStd (U : UserSpace P M) (dir : Dir) (bufsize : Nat) :
    Nat → CSession → M → P → P → Nat → CSession × M × Except Errno Unit
  | 0, ses, m, _, _, _ => (ses, m, .ok ())
  | fuel + 1, ses, m, src, dst, nbytes =>
    if nbytes = 0 then (ses, m, .ok ()) else
    match runChunk U dir ses m src dst (min bufsize nbytes) with
    | (ses, m, .error e) => (ses, m, .error e)
    | (ses, m, .ok ()) =>
      cryptoRunStd U dir bufsize fuel ses m (U.add src (min bufsize nbytes))
        (U.add dst (min bufsize nbytes)) (nbytes - min bufsize nbytes)

/-- `__crypto_run_std` on a whole request. -/
def runStd (K : Kernel) (U : UserSpace P M) (clock : Nat) (ses : CSession) (m : M) (dir : Dir)
    (cop : CryptOp P) : CSession × M × Except Errno Unit :=
  if !K.getFreePage clock then (ses, m, .error .ENOMEM) else
  cryptoRunStd U dir (min PAGE_SIZE cop.len) cop.len ses m cop.src cop.dst cop.len

/-- `__crypto_run_zc`: pin the source and the destination and work on them in
place; when they cannot be pinned, fall back on the bounce buffer. -/
def runZc (K : Kernel) (U : UserSpace P M) (clock : Nat) (ses : CSession) (m : M) (dir : Dir)
    (cop : CryptOp P) : CSession × M × Except Errno Unit :=
  match U.copyFromUser m cop.src cop.len with
  | (none, m) => runStd K U clock ses m dir cop
  | (some src, m) =>
    match U.copyFromUser m cop.dst cop.len with
    | (none, m) => runStd K U clock ses m dir cop
    | (some dst, m) =>
      let r := hashNCrypt ses dir src dst
      (r.1, (U.copyToUser m cop.dst r.2).2, .ok ())

/-- `cryptodev_hash_reset` at the start of `crypto_run`. -/
def hashReset (ses : CSession) (cop : CryptOp P) : CSession :=
  if cop.flags = 0 ∨ cop.reset then
    { ses with hdata := ses.hdata.map fun h => { h with acc := [] } }
  else ses

/-- The length check and `cryptodev_cipher_set_iv` of `crypto_run`: `none` when
the length is not a multiple of the block size. -/
def setIv (ses : CSession) (cop : CryptOp P) (iv : Bytes) : Option CSession :=
  match ses.cdata with
  | none => some ses
  | some c =>
    if cop.len % c.tfm.blocksize ≠ 0 then none
    else some { ses with cdata := some (c.setIv iv) }

/-- The data part of `crypto_run`. With no data and no hash its result is a local
nobody initialised; with a hash, `cryptodev_hash_final` sets it. -/
def runData (K : Kernel) (U : UserSpace P M) (clock : Nat) (ses : CSession) (m : M) (dir : Dir)
    (cop : CryptOp P) : CSession × M × Except Errno Unit :=
  if cop.len = 0 then
    if ses.hdata.isSome then (ses, m, .ok ())
    else match K.uninitRet clock with
      | none => (ses, m, .ok ())
      | some e => (ses, m, .error e)
  else if cop.noZc then runStd K U clock ses m dir cop
  else runZc K U clock ses m dir cop

/-- `crypto_run`: the digest, if one is due. -/
def cryptoRun (K : Kernel) (U : UserSpace P M) (clock : Nat) (ses : CSession) (m : M)
    (cop : CryptOp P) (iv : Bytes) : CSession × M × Except Errno (Option Bytes) :=
  match Dir.ofOp cop.op with
  | none => (ses, m, .error .EINVAL)
  | some dir =>
    match setIv (hashReset ses cop) cop iv with
    | none => (hashReset ses cop, m, .error .EINVAL)
    | some ses =>
      match runData K U clock ses m dir cop with
      | (ses, m, .error e) => (ses, m, .error e)
      | (ses, m, .ok ()) =>
        if cop.final || !cop.update || cop.len = 0 then
          (ses, m, .ok (ses.hdata.map fun h => h.tfm.digest h.key h.acc))
        else (ses, m, .ok none)

/-- `fill_cop_from_kcop`: the digest and, on request, the register go back to the
caller. -/
def fillCopFromKcop (U : UserSpace P M) (m : M) (cop : CryptOp P) (ses : CSession) (ivlen : Nat)
    (digest : Option Bytes) : M × Except Errno Unit :=
  let macDone := match digest with
    | some d => if d.length = 0 then (true, m) else U.copyToUser m cop.mac d
    | none => (true, m)
  match macDone with
  | (false, m) => (m, .error .EFAULT)
  | (true, m) =>
    if ivlen ≠ 0 ∧ cop.writeIv then
      match U.copyToUser m cop.iv ((ses.cdata.map CipherData.iv).getD []) with
      | (false, m) => (m, .error .EFAULT)
      | (true, m) => (m, .ok ())
    else (m, .ok ())

/-- `CIOCCRYPT` between the copy of the struct in and out: `fill_kcop_from_cop`,
`crypto_run`, `fill_cop_from_kcop`. -/
def cryptoCrypt (K : Kernel) (U : UserSpace P M) (fcr : Fcrypt) (m : M) (cop : CryptOp P) :
    Fcrypt × M × Except Errno Unit :=
  match fcr.getSessionBySid cop.ses with
  | none => (fcr, m, .error .EINVAL)
  | some ses =>
    -- ivlen = cop->iv ? ses_ptr->cdata.ivsize : 0
    match (if U.null cop.iv then (some [], m) else U.copyFromUser m cop.iv ses.ivsize) with
    | (none, m) => (fcr, m, .error .EFAULT)
    | (some iv, m) =>
      match cryptoRun K U fcr.clock ses m cop iv with
      | (ses, m, .error e) => (fcr.putSession ses, m, .error e)
      | (ses, m, .ok digest) =>
        let r := fillCopFromKcop U m cop ses iv.length digest
        (fcr.putSession ses, r.1, r.2)

-- ---------------------------------------------------------------------------
-- CIOCFSESSION
-- ---------------------------------------------------------------------------

/-- The list without its first session of number `sid`. -/
def removeSession (sid : Nat) : List CSession → List CSession
  | [] => []
  | s :: rest => if s.sid == sid then rest else s :: removeSession sid rest

/-- `crypto_finish_session`. The loop's cursor is never NULL after the loop, so
an unknown number is reported as success too. -/
def cryptoFinishSession (fcr : Fcrypt) (sid : Nat) : Fcrypt :=
  { fcr with list := removeSession sid fcr.list }

/-- One more call has been made on the descriptor. -/
def Fcrypt.tick (fcr : Fcrypt) : Fcrypt := { fcr with clock := fcr.clock + 1 }

end VirtioCrypto.Cryptodev
