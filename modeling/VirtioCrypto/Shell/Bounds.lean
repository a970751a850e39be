import VirtioCrypto.Shell.Crypto
import VirtioCrypto.Cryptodev.Footprint

/-!
# Shell — the string copies around the cipher

`encrypt_data` and `decrypt_data` each copy a string into their local `struct data` and, when
the operation succeeds, a string out of it. None of the four copies is limited. What is copied
out is what the cipher wrote, read as a string: 8192 bytes that need not have a zero among
them.

* `encryptData_isSome_iff`, `decryptData_isSome_iff` — a call gets through exactly when its
  copies stay in their arrays;
* `copies_inBounds_iff` — when that is, for every string, every received buffer and every
  result of the cipher.
-/

namespace VirtioCrypto.Shell

open Octets Cryptodev Chaining

-- ---------------------------------------------------------------------------
-- The copies of the two functions
-- ---------------------------------------------------------------------------

/-- A call of `strcpy`. -/
structure Copy where
  dst : Bytes
  src : Bytes

/-- The copy reads inside its source and writes inside its destination: the source has a
terminator, and with it the string fits. -/
def Copy.InBounds (c : Copy) : Prop := ∃ s, cstr c.src = some s ∧ s.length < c.dst.length

theorem strcpy_isSome_iff {dst src : Bytes} :
    (strcpy dst src).isSome = true ↔ (Copy.mk dst src).InBounds := by
  unfold strcpy Copy.InBounds
  cases cstr src with
  | none => simp
  | some s =>
    by_cases hFit : s.length < dst.length
    · simp [hFit]
    · simp [hFit]

/-- The copies of a call: `src` into an array of `n` zeros and, if the operation on that array
succeeds, its result into `dst`. A copy that leaves an array is the last. -/
def callCopies (n : Nat) (src : Bytes) (op : Bytes → Option Bytes) (dst : Bytes) : List Copy :=
  ⟨zeros n, src⟩ ::
    match strcpy (zeros n) src with
    | none => []
    | some arr => (op arr).toList.map (Copy.mk dst)

variable (K : Kernel) (p : Proc)

/-- What `COP_ENCRYPT` writes to `data.encrypted` for the array `input` in `data.in`; nothing
if the operation fails. -/
def encryptOp (input : Bytes) : Option Bytes :=
  match ioctlCrypt K p (Function.update zeroed .input input) .encrypt DATA_SIZE .input .encrypted
      none with
  | (_, _, .error _) => none
  | (_, data, .ok ()) => some (data .encrypted)

/-- What `COP_DECRYPT` writes to `data.decrypted`. -/
def decryptOp (encrypted : Bytes) : Option Bytes :=
  match ioctlCrypt K p (Function.update zeroed .encrypted encrypted) .decrypt ENC_SIZE .encrypted
      .decrypted (some .iv) with
  | (_, _, .error _) => none
  | (_, data, .ok ()) => some (data .decrypted)

/-- The copies of `encrypt_data(cfd, arr, sess, enc)`. -/
def encryptCopies (arr enc : Bytes) : List Copy := callCopies DATA_SIZE arr (encryptOp K p) enc

/-- The copies of `decrypt_data(cfd, enc, sess, arr)`. -/
def decryptCopies (enc arr : Bytes) : List Copy := callCopies ENC_SIZE enc (decryptOp K p) arr

variable {K p}

-- ---------------------------------------------------------------------------
-- A call and its copies
-- ---------------------------------------------------------------------------

/-- What a call leaves, as far as its copies decide it. -/
theorem callCopies_iff {n : Nat} {src dst : Bytes} {op : Bytes → Option Bytes} :
    (∀ c ∈ callCopies n src op dst, c.InBounds) ↔
      ∃ arr, strcpy (zeros n) src = some arr ∧
        ∀ out, op arr = some out → (strcpy dst out).isSome = true := by
  unfold callCopies
  cases hFirst : strcpy (zeros n) src with
  | none =>
    have hOut : ¬ (Copy.mk (zeros n) src).InBounds := by
      rw [← strcpy_isSome_iff, hFirst]
      decide
    simp [hOut]
  | some arr =>
    have hIn : (Copy.mk (zeros n) src).InBounds := by
      rw [← strcpy_isSome_iff, hFirst]
      rfl
    simp [hIn, strcpy_isSome_iff]

/-- `encrypt_data` gets through exactly when its copies stay in their arrays. -/
theorem encryptData_isSome_iff (arr enc : Bytes) :
    (encryptData K p arr enc).2.isSome = true ↔ ∀ c ∈ encryptCopies K p arr enc, c.InBounds := by
  rw [encryptCopies, callCopies_iff]
  unfold encryptData encryptOp
  show _ ↔ ∃ input, strcpy (zeroed .input) arr = some input ∧ _
  cases strcpy (zeroed .input) arr with
  | none => simp
  | some input =>
    simp only [Option.some.injEq, exists_eq_left']
    rcases ioctlCrypt K p (Function.update zeroed .input input) .encrypt DATA_SIZE .input .encrypted
      none with ⟨p', data, _ | _⟩ <;> simp

theorem decryptData_isSome_iff (enc arr : Bytes) :
    (decryptData K p enc arr).2.isSome = true ↔ ∀ c ∈ decryptCopies K p enc arr, c.InBounds := by
  rw [decryptCopies, callCopies_iff]
  unfold decryptData decryptOp
  show _ ↔ ∃ encrypted, strcpy (zeroed .encrypted) enc = some encrypted ∧ _
  cases strcpy (zeroed .encrypted) enc with
  | none => simp
  | some encrypted =>
    simp only [Option.some.injEq, exists_eq_left']
    rcases ioctlCrypt K p (Function.update zeroed .encrypted encrypted) .decrypt ENC_SIZE .encrypted
      .decrypted (some .iv) with ⟨p', data, _ | _⟩ <;> simp

-- ---------------------------------------------------------------------------
-- What the cipher writes
-- ---------------------------------------------------------------------------

/-- No access of the device changes the size of an array. -/
theorem objectSpace_keeps_sizes {ι : Type} [DecidableEq ι] (size : ι → Nat) :
    Keeps (objectSpace ι) (fun m => ∀ x, (m x).length = size x) fun _ _ => True where
  read m q n _ hSize := by
    cases q <;> exact hSize
  write m q bs _ hSize := by
    cases q with
    | none => exact hSize
    | some q =>
      show ∀ x, ((if q.2 + bs.length ≤ (m q.1).length then
        (true, Function.update m q.1 (patch (m q.1) q.2 bs)) else (false, m)).2 x).length = size x
      split
      next hFit =>
        intro x
        show (Function.update m q.1 (patch (m q.1) q.2 bs) x).length = size x
        by_cases hx : x = q.1
        · subst hx
          rw [Function.update_self, length_patch hFit]
          exact hSize q.1
        · rw [Function.update_of_ne hx]
          exact hSize x
      · exact hSize

/-- The members of `struct data` after an operation have the sizes they had. -/
theorem ioctlCrypt_sizes {data : Member → Bytes} (hData : ∀ x, (data x).length = (zeroed x).length)
    (dir : Dir) (len : Nat) (src dst : Member) (o : Option Member) (x : Member) :
    ((ioctlCrypt K p data dir len src dst o).2.1 x).length = (zeroed x).length :=
  cryptoCrypt_keeps (objectSpace_keeps_sizes fun x => (zeroed x).length) (fun _ _ _ => trivial)
    (fun _ _ _ _ _ _ _ => ⟨trivial, trivial⟩) (fun _ _ _ _ => trivial) hData x

/-- An operation on a member filled in leaves every member its size. -/
theorem length_written {src : Member} {arr : Bytes} (h : arr.length = (zeroed src).length)
    {dir : Dir} {len : Nat} {dst : Member} {o : Option Member} {p' : Proc} {data : Member → Bytes}
    {r : Except Errno Unit}
    (hRun : ioctlCrypt K p (Function.update zeroed src arr) dir len src dst o = (p', data, r))
    (x : Member) : (data x).length = (zeroed x).length := by
  have hFilled : ∀ y, (Function.update zeroed src arr y).length = (zeroed y).length := by
    intro y
    by_cases hy : y = src
    · subst hy
      rw [Function.update_self, h]
    · rw [Function.update_of_ne hy]
  have hSizes := ioctlCrypt_sizes (K := K) (p := p) hFilled dir len src dst o x
  rwa [hRun] at hSizes

theorem length_encryptOp {input out : Bytes} (hInput : input.length = DATA_SIZE)
    (h : encryptOp K p input = some out) : out.length = ENC_SIZE := by
  have hSame : input.length = (zeroed .input).length := hInput.trans (length_zeros DATA_SIZE).symm
  unfold encryptOp at h
  rcases hRun : ioctlCrypt K p (Function.update zeroed .input input) .encrypt DATA_SIZE .input
    .encrypted none with ⟨p', data, _ | _⟩
  · simp [hRun] at h
  · rw [hRun] at h
    obtain rfl := Option.some.inj h
    exact (length_written hSame hRun .encrypted).trans (length_zeros ENC_SIZE)

theorem length_decryptOp {encrypted out : Bytes} (hEncrypted : encrypted.length = ENC_SIZE)
    (h : decryptOp K p encrypted = some out) : out.length = DATA_SIZE := by
  have hSame : encrypted.length = (zeroed .encrypted).length :=
    hEncrypted.trans (length_zeros ENC_SIZE).symm
  unfold decryptOp at h
  rcases hRun : ioctlCrypt K p (Function.update zeroed .encrypted encrypted) .decrypt ENC_SIZE
    .encrypted .decrypted (some .iv) with ⟨p', data, _ | _⟩
  · simp [hRun] at h
  · rw [hRun] at h
    obtain rfl := Option.some.inj h
    exact (length_written hSame hRun .decrypted).trans (length_zeros DATA_SIZE)

-- ---------------------------------------------------------------------------
-- In bounds
-- ---------------------------------------------------------------------------

/-- A copy between arrays of one size needs a terminator and nothing more. -/
theorem strcpy_sameSize_iff {dst src : Bytes} (h : src.length = dst.length) :
    (strcpy dst src).isSome = true ↔ 0 ∈ src := by
  rw [strcpy_isSome_iff, ← exists_cstr_iff]
  refine exists_congr fun s => and_iff_left_of_imp fun hStr => ?_
  rw [← h]
  exact length_lt_of_cstr hStr

/-- The copies of a call whose operation writes as many bytes as `dst` has. -/
theorem callCopies_inBounds_iff {n : Nat} {src dst : Bytes} {op : Bytes → Option Bytes}
    (hOp : ∀ arr out, arr.length = n → op arr = some out → out.length = dst.length) :
    (∀ c ∈ callCopies n src op dst, c.InBounds) ↔
      ∃ s, cstr src = some s ∧ s.length < n ∧ ∀ out, op (padTo n s) = some out → 0 ∈ out := by
  rw [callCopies_iff]
  constructor
  · rintro ⟨arr, hFirst, hSecond⟩
    obtain ⟨s, hStr, hFit, rfl⟩ := strcpy_zeros_eq_some_iff.mp hFirst
    refine ⟨s, hStr, hFit, fun out hOut => ?_⟩
    exact (strcpy_sameSize_iff (hOp _ out (length_padTo (Nat.le_of_lt hFit)) hOut)).mp (hSecond out hOut)
  · rintro ⟨s, hStr, hFit, hZero⟩
    refine ⟨padTo n s, strcpy_zeros hStr hFit, fun out hOut => ?_⟩
    exact (strcpy_sameSize_iff (hOp _ out (length_padTo (Nat.le_of_lt hFit)) hOut)).mpr (hZero out hOut)

/-- The copies of `decrypt_data` on a received buffer: it has a zero byte, and what it decrypts
to, if the operation succeeds, has one. -/
theorem decryptCopies_inBounds_iff {received out : Bytes} (hReceived : received.length = ENC_SIZE)
    (hOut : out.length = MSG_SIZE) :
    (∀ c ∈ decryptCopies K p received out, c.InBounds) ↔
      0 ∈ received ∧
        ∀ t c, cstr received = some t → decryptOp K p (padTo ENC_SIZE t) = some c → 0 ∈ c := by
  have hSizes : ∀ x c, x.length = ENC_SIZE → decryptOp K p x = some c → c.length = out.length :=
    fun x c hx hc => (length_decryptOp hx hc).trans hOut.symm
  rw [decryptCopies, callCopies_inBounds_iff hSizes]
  constructor
  · rintro ⟨t, ht, _, hZero⟩
    refine ⟨exists_cstr_iff.mp ⟨t, ht⟩, fun t' c ht' hc => ?_⟩
    obtain rfl := Option.some.inj (ht.symm.trans ht')
    exact hZero c hc
  · rintro ⟨hMem, hZero⟩
    obtain ⟨t, ht⟩ := exists_cstr_iff.mpr hMem
    exact ⟨t, ht, hReceived ▸ length_lt_of_cstr ht, fun c => hZero t c ht⟩

/-- **The four copies.** For a string `s` of any length, any received buffer, any kernel and any
session: the copies of `encrypt_data` stay in bounds exactly when `s` is shorter than `data.in`
and the ciphertext, if there is one, has a zero byte; those of `decrypt_data` exactly when the
received buffer has a zero byte, and the decrypted one too. -/
theorem copies_inBounds_iff (K : Kernel) (p : Proc) {arr s enc received out : Bytes}
    (hArr : cstr arr = some s) (hEnc : enc.length = ENC_SIZE) (hReceived : received.length = ENC_SIZE)
    (hOut : out.length = MSG_SIZE) :
    ((∀ c ∈ encryptCopies K p arr enc, c.InBounds) ↔
      s.length < DATA_SIZE ∧ ∀ c, encryptOp K p (padTo DATA_SIZE s) = some c → 0 ∈ c) ∧
    ((∀ c ∈ decryptCopies K p received out, c.InBounds) ↔
      0 ∈ received ∧
        ∀ t c, cstr received = some t → decryptOp K p (padTo ENC_SIZE t) = some c → 0 ∈ c) := by
  refine ⟨?_, decryptCopies_inBounds_iff hReceived hOut⟩
  have hSizes : ∀ x c, x.length = DATA_SIZE → encryptOp K p x = some c → c.length = enc.length :=
    fun x c hx hc => (length_encryptOp hx hc).trans hEnc.symm
  rw [encryptCopies, callCopies_inBounds_iff hSizes]
  constructor
  · rintro ⟨t, ht, hFit, hZero⟩
    obtain rfl := Option.some.inj (hArr.symm.trans ht)
    exact ⟨hFit, hZero⟩
  · rintro ⟨hFit, hZero⟩
    exact ⟨s, hArr, hFit, hZero⟩

-- ---------------------------------------------------------------------------
-- The operations of a session
-- ---------------------------------------------------------------------------

variable {perm : Bytes → Equiv.Perm (Blk BLOCK_SIZE)} {key : Bytes} {iv : Blk BLOCK_SIZE}

theorem encryptOp_eq (h : Session perm key iv p) {input : Bytes} (hInput : input.length = DATA_SIZE) :
    encryptOp K p input = some (cbcEnc (perm key) iv BLOCKS input) := by
  obtain ⟨p', hOp, _⟩ := ioctlCrypt_spec (K := K) h (Function.update zeroed .input input) .encrypt
    .input .encrypted (by rw [Function.update_self, hInput]) (length_zeros ENC_SIZE)
    (.inl ⟨rfl, rfl⟩)
  rw [Function.update_self] at hOp
  unfold encryptOp
  rw [hOp]
  simp only [Function.update_self, cbc]

theorem decryptOp_eq (h : Session perm key iv p) {encrypted : Bytes}
    (hEncrypted : encrypted.length = ENC_SIZE) :
    decryptOp K p encrypted = some (cbcDec (perm key) (Blk.zero BLOCK_SIZE) BLOCKS encrypted) := by
  have hIv : Function.update zeroed .encrypted encrypted .iv = (Blk.zero BLOCK_SIZE).1 := rfl
  obtain ⟨p', hOp, _⟩ := ioctlCrypt_spec (K := K) h (Function.update zeroed .encrypted encrypted)
    .decrypt .encrypted .decrypted (by rw [Function.update_self, hEncrypted]; rfl)
    (length_zeros DATA_SIZE) (.inr ⟨.iv, rfl, hIv⟩)
  rw [Function.update_self] at hOp
  unfold decryptOp
  rw [show ENC_SIZE = DATA_SIZE from rfl, hOp]
  simp only [Function.update_self, cbc]

/-- Exclusive or with a block that ends in a zero byte. -/
def veiled : Bytes → Equiv.Perm (Blk BLOCK_SIZE) := xorWith ⟨2 :: List.replicate 14 3 ++ [0], rfl⟩

/-- What `encrypt_data` makes of the letter `a` under `veiled`, as a string. -/
def letterCipher : Bytes := 99 :: List.replicate 14 3

theorem cstr_letterCipher : cstr (padTo ENC_SIZE letterCipher) = some letterCipher :=
  cstr_padTo (by decide) (by decide)

theorem cstr_letter_ciphertext (key : Bytes) :
    cstr (cbcEnc (veiled key) (Blk.zero BLOCK_SIZE) BLOCKS (padTo DATA_SIZE [97])) =
      some letterCipher := by
  refine cstr_eq_some_iff.mpr ⟨by decide, List.prefix_iff_eq_take.mpr ?_⟩
  show _ = (cbcEnc (veiled (zeros KEY_SIZE)) (Blk.zero BLOCK_SIZE) BLOCKS
    (padTo DATA_SIZE [97])).take 16
  decide +kernel

theorem decrypted_letterCipher (key : Bytes) :
    decrypted (veiled key) (padTo ENC_SIZE letterCipher) = some [97] := by
  rw [decrypted, cstr_letterCipher, Option.bind_some]
  refine cstr_eq_some_iff.mpr ⟨by decide, List.prefix_iff_eq_take.mpr ?_⟩
  show _ = (cbcDec (veiled (zeros KEY_SIZE)) (Blk.zero BLOCK_SIZE) BLOCKS
    (padTo ENC_SIZE letterCipher)).take 2
  decide +kernel

/-- It has a zero byte, and decrypts to one that has. -/
theorem letterCipher_decrypts (h : Session veiled key iv p) :
    0 ∈ padTo ENC_SIZE letterCipher ∧ ∀ t c, cstr (padTo ENC_SIZE letterCipher) = some t →
      decryptOp K p (padTo ENC_SIZE t) = some c → 0 ∈ c := by
  refine ⟨exists_cstr_iff.mp ⟨_, cstr_letterCipher⟩, fun t c ht hc => ?_⟩
  obtain rfl := Option.some.inj (cstr_letterCipher.symm.trans ht)
  rw [decryptOp_eq h (length_padTo (by decide))] at hc
  obtain rfl := Option.some.inj hc
  have hPlain := decrypted_letterCipher key
  rw [decrypted, cstr_letterCipher, Option.bind_some] at hPlain
  exact exists_cstr_iff.mp ⟨_, hPlain⟩

/-- One letter on its way out, and on its way back. -/
theorem copies_inBounds_letter :
    (∀ c ∈ encryptCopies (cbcKernel veiled) (freshProc veiled) [97, 0] (zeros ENC_SIZE),
        c.InBounds) ∧
      ∀ c ∈ decryptCopies (cbcKernel veiled) (freshProc veiled) (padTo ENC_SIZE letterCipher)
        (zeros MSG_SIZE), c.InBounds := by
  obtain ⟨hOut, hBack⟩ := copies_inBounds_iff (cbcKernel veiled) (freshProc veiled)
    (show cstr [97, 0] = some [97] from rfl) (length_zeros ENC_SIZE)
    (length_padTo (s := letterCipher) (by decide)) (length_zeros MSG_SIZE)
  have hSession := (freshProc_session veiled).1
  refine ⟨hOut.mpr ⟨by decide, fun c hc => ?_⟩, hBack.mpr (letterCipher_decrypts hSession)⟩
  rw [encryptOp_eq hSession (length_padTo (by decide))] at hc
  obtain rfl := Option.some.inj hc
  exact exists_cstr_iff.mp ⟨_, cstr_letter_ciphertext _⟩

/-- A line of output of 8192 characters leaves `data.in`, and a received buffer without a zero
byte is read beyond its end. -/
theorem copies_outOfBounds :
    (∃ s, cstr (List.replicate DATA_SIZE 97 ++ [0]) = some s ∧ s.length = DATA_SIZE) ∧
      (¬ ∀ c ∈ encryptCopies (cbcKernel identity) (freshProc identity)
        (List.replicate DATA_SIZE 97 ++ [0]) (zeros ENC_SIZE), c.InBounds) ∧
      ¬ ∀ c ∈ decryptCopies (cbcKernel identity) (freshProc identity) (List.replicate ENC_SIZE 1)
        (zeros MSG_SIZE), c.InBounds := by
  have hStr : cstr (List.replicate DATA_SIZE 97 ++ [0]) = some (List.replicate DATA_SIZE 97) := by
    refine cstr_eq_some_iff.mpr ⟨fun hMem => ?_, List.prefix_refl _⟩
    exact absurd (List.eq_of_mem_replicate hMem) (by decide)
  refine ⟨⟨_, hStr, List.length_replicate⟩, fun h => ?_, fun h => ?_⟩
  · obtain ⟨s, hs, hFit⟩ := h _ List.mem_cons_self
    obtain rfl := Option.some.inj (hStr.symm.trans hs)
    rw [List.length_replicate, length_zeros] at hFit
    exact Nat.lt_irrefl _ hFit
  · obtain ⟨s, hs, _⟩ := h _ List.mem_cons_self
    have hMem : (0 : UInt8) ∈ List.replicate ENC_SIZE (1 : UInt8) := exists_cstr_iff.mp ⟨s, hs⟩
    exact absurd (List.eq_of_mem_replicate hMem) (by decide)

end VirtioCrypto.Shell
