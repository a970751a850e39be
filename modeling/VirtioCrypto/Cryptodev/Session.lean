import VirtioCrypto.Octets.Space

/-!
# Cryptodev — algorithms, sessions and the kernel underneath

The data of `/dev/crypto` as `cryptodev-linux` keeps it: the algorithm tables of
`crypto_create_session`, the session (`struct csession`) with its cipher and
hash state, and the per-descriptor list of sessions (`struct fcrypt`).

The kernel's crypto API, its allocator and its random numbers are not part of
the module; they are the parameter `Kernel`. A cipher is a `Transform`: how it
maps data is open, but the output is as long as the input. The `iv` of a cipher
session is the register `cdata->async.iv`, zero after the session is created,
overwritten by `cryptodev_cipher_set_iv` and left by the transform as it finds
fit after each operation.
-/

namespace VirtioCrypto.Cryptodev

open Octets

/-- The error codes the modelled calls return. -/
inductive Errno
  | EINVAL
  | ENOMEM
  | EFAULT
  | EBADF
deriving DecidableEq, Repr

/-- `COP_ENCRYPT` and `COP_DECRYPT`. -/
inductive Dir
  | encrypt
  | decrypt
deriving DecidableEq, Repr

/-- The direction an `op` field selects. -/
def Dir.ofOp : Nat → Option Dir
  | 0 => some .encrypt
  | 1 => some .decrypt
  | _ => none

-- ---------------------------------------------------------------------------
-- Algorithm tables
-- ---------------------------------------------------------------------------

/-- The cipher algorithms `crypto_create_session` knows by name. -/
inductive CipherAlg
  | cbcDes | cbcDes3Ede | cbcBlowfish | cbcAes | ecbAes | cbcCamellia
  | ctrAes | gcmAes | ecbCipherNull
deriving DecidableEq, Repr

/-- The `switch (sop->cipher)`: `none` is a bad cipher number, `some none` no
cipher. -/
def algName : Nat → Option (Option CipherAlg)
  | 0 => some none
  | 1 => some (some .cbcDes)
  | 2 => some (some .cbcDes3Ede)
  | 3 => some (some .cbcBlowfish)
  | 11 => some (some .cbcAes)
  | 23 => some (some .ecbAes)
  | 101 => some (some .cbcCamellia)
  | 21 => some (some .ctrAes)
  | 50 => some (some .gcmAes)
  | 16 => some (some .ecbCipherNull)
  | _ => none

/-- The local `aead` of `crypto_create_session`. -/
def CipherAlg.aead : CipherAlg → Bool
  | .gcmAes => true
  | _ => false

/-- The hash algorithms `crypto_create_session` knows by name. -/
inductive HashAlg
  | hmacMd5 | hmacRmd160 | hmacSha1 | hmacSha256 | hmacSha384 | hmacSha512
  | md5 | rmd160 | sha1 | sha256 | sha384 | sha512
deriving DecidableEq, Repr

/-- The `switch (sop->mac)`. -/
def hashName : Nat → Option (Option HashAlg)
  | 0 => some none
  | 6 => some (some .hmacMd5)
  | 8 => some (some .hmacRmd160)
  | 7 => some (some .hmacSha1)
  | 18 => some (some .hmacSha256)
  | 19 => some (some .hmacSha384)
  | 20 => some (some .hmacSha512)
  | 13 => some (some .md5)
  | 102 => some (some .rmd160)
  | 14 => some (some .sha1)
  | 103 => some (some .sha256)
  | 104 => some (some .sha384)
  | 105 => some (some .sha512)
  | _ => none

/-- The local `hmac_mode` of `crypto_create_session`. -/
def HashAlg.hmacMode : HashAlg → Bool
  | .md5 | .rmd160 | .sha1 | .sha256 | .sha384 | .sha512 => false
  | _ => true

def CRYPTO_CIPHER_MAX_KEY_LEN : Nat := 64

def CRYPTO_HMAC_MAX_KEY_LEN : Nat := 512

def PAGE_SIZE : Nat := 4096

-- ---------------------------------------------------------------------------
-- The kernel underneath
-- ---------------------------------------------------------------------------

/-- A cipher of the kernel's crypto API. `crypt dir key iv data` is the result
and the register it leaves. -/
structure Transform where
  blocksize : Nat
  ivsize : Nat
  setkey : Bytes → Bool
  crypt : Dir → Bytes → Bytes → Bytes → Bytes × Bytes
  length_crypt : ∀ d k iv x, (crypt d k iv x).1.length = x.length
  length_register : ∀ d k iv x, (crypt d k iv x).2.length = ivsize

/-- A hash of the kernel's crypto API. -/
structure HashTransform where
  digestsize : Nat
  setkey : Bytes → Bool
  digest : Bytes → Bytes → Bytes
  length_digest : ∀ k x, (digest k x).length = digestsize

/-- What `cryptodev` calls: crypto API, allocator, random session numbers, and
the contents of locals nobody initialised. The `Nat` is the number of calls made
so far. -/
structure Kernel where
  cipher : CipherAlg → Option Transform
  hash : HashAlg → Option HashTransform
  kzalloc : Nat → Bool
  kzallocPages : Nat → Bool
  getFreePage : Nat → Bool
  /-- The number the `restart` loop ends with: random, and in no live session. -/
  freshSid : Nat → List Nat → Nat
  uninitKey : Nat → Bytes
  uninitRet : Nat → Option Errno

-- `ecb(cipher_null)`: the data is left as it is
def nullTransform : Transform where
  blocksize := 1
  ivsize := 0
  setkey := fun _ => true
  crypt := fun _ _ _ x => (x, [])
  length_crypt := fun _ _ _ _ => rfl
  length_register := fun _ _ _ _ => rfl

/-- A kernel whose only algorithm is the null cipher, for concrete runs. -/
def nullKernel : Kernel where
  cipher alg := if alg = .ecbCipherNull then some nullTransform else none
  hash _ := none
  kzalloc _ := true
  kzallocPages _ := true
  getFreePage _ := true
  freshSid _ sids := sids.foldl max 0 + 1
  uninitKey _ := []
  uninitRet _ := none

-- ---------------------------------------------------------------------------
-- Sessions
-- ---------------------------------------------------------------------------

/-- `struct cipher_data` of an initialised cipher. -/
structure CipherData where
  tfm : Transform
  key : Bytes
  iv : Bytes
  length_iv : iv.length = tfm.ivsize

/-- `cryptodev_cipher_set_iv` of at most `ivsize` bytes. -/
def CipherData.setIv (c : CipherData) (iv : Bytes) : CipherData where
  tfm := c.tfm
  key := c.key
  iv := patch c.iv 0 (iv.take c.tfm.ivsize)
  length_iv := by
    rw [length_patch, c.length_iv]
    rw [Nat.zero_add, c.length_iv]
    exact List.length_take_le _ _

/-- `cryptodev_cipher_encrypt` / `cryptodev_cipher_decrypt`. -/
def CipherData.run (c : CipherData) (dir : Dir) (data : Bytes) : CipherData × Bytes :=
  let r := c.tfm.crypt dir c.key c.iv data
  (⟨c.tfm, c.key, r.2, c.tfm.length_register _ _ _ _⟩, r.1)

/-- `struct hash_data` of an initialised hash: `acc` is what has been hashed
since the last reset. -/
structure HashData where
  tfm : HashTransform
  key : Bytes
  acc : Bytes

/-- `struct csession`. -/
structure CSession where
  sid : Nat
  cdata : Option CipherData
  hdata : Option HashData

/-- `struct fcrypt`, the sessions of one open file, and the number of calls made
on it. -/
structure Fcrypt where
  list : List CSession
  clock : Nat

/-- `crypto_get_session_by_sid`. -/
def Fcrypt.getSessionBySid (fcr : Fcrypt) (sid : Nat) : Option CSession :=
  fcr.list.find? (·.sid == sid)

/-- The list with the first session of number `ses.sid` replaced by `ses`. -/
def replaceSession (ses : CSession) : List CSession → List CSession
  | [] => []
  | s :: rest => if s.sid == ses.sid then ses :: rest else s :: replaceSession ses rest

/-- `crypto_put_session`: the changed session is the one in the list. -/
def Fcrypt.putSession (fcr : Fcrypt) (ses : CSession) : Fcrypt :=
  { fcr with list := replaceSession ses fcr.list }

/-- `ses_ptr->cdata.ivsize`, zero without a cipher. -/
def CSession.ivsize (ses : CSession) : Nat :=
  (ses.cdata.map CipherData.tfm).elim 0 Transform.ivsize

/-- `ses_ptr->hdata.digestsize`, zero without a hash. -/
def CSession.digestsize (ses : CSession) : Nat :=
  (ses.hdata.map HashData.tfm).elim 0 HashTransform.digestsize

end VirtioCrypto.Cryptodev
