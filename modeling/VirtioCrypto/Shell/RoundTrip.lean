import VirtioCrypto.Shell.Crypto

/-!
# Shell — what comes back of a message

`encrypt_data` on one side, `decrypt_data` on the other, each on a session whose
register is zero. The ciphertext is moved with `strcpy` twice, so what is
decrypted is the ciphertext up to its first zero byte, followed by zeros.

CBC decryption is local (`cbcDec_take_eq_iff`), which settles what that does to
a message `m` of `q * 16 + r` bytes: it comes back exactly when the first `q`
ciphertext blocks survived and the next one, whatever became of it, still
decrypts to the same first `r + 1` bytes.

* `cstr_eq_iff_take` — a string in two arrays, as a prefix;
* `roundTrips_iff` — for every key, permutation and message;
* `repeated_letter_lost` — seventeen times the same letter, under the identity.
-/

namespace VirtioCrypto.Shell

open Octets Cryptodev Chaining

/-- The ciphertext of a message under a zero register. -/
def ciphertext (P : Equiv.Perm (Blk BLOCK_SIZE)) (m : Bytes) : Bytes :=
  cbcEnc P (Blk.zero BLOCK_SIZE) BLOCKS (padTo DATA_SIZE m)

theorem length_ciphertext (P : Equiv.Perm (Blk BLOCK_SIZE)) (m : Bytes) :
    (ciphertext P m).length = BLOCKS * BLOCK_SIZE := length_cbcEnc _ _ _ _

theorem length_lt_of_cstr_ciphertext {P : Equiv.Perm (Blk BLOCK_SIZE)} {m t : Bytes}
    (h : cstr (ciphertext P m) = some t) : t.length < ENC_SIZE := by
  have hLt := length_lt_of_cstr h
  rw [length_ciphertext] at hLt
  exact hLt

/-- `encrypt_data` into a zeroed buffer, and `decrypt_data` of that buffer by the
peer, which stores the message and nothing else in its zeroed output. -/
def RoundTrips (K : Kernel) (p q : Proc) (arr m : Bytes) : Prop :=
  ∃ p' enc q', encryptData K p arr (zeros ENC_SIZE) = (p', some enc) ∧
    decryptData K q enc (zeros MSG_SIZE) = (q', some (padTo MSG_SIZE m))

/-- A copy into a zeroed array leaves `m` exactly when `m` is the string. -/
theorem strcpy_zeros_eq_padTo_iff {n : Nat} {src m : Bytes} (h0 : 0 ∉ m) (hm : m.length < n) :
    strcpy (zeros n) src = some (padTo n m) ↔ cstr src = some m := by
  rw [strcpy_zeros_eq_some_iff]
  constructor
  · rintro ⟨s, hs, hn, hPad⟩
    have h0' := (cstr_eq_some_iff.mp hs).1
    have hSame := cstr_padTo h0 hm
    rw [hPad, cstr_padTo h0' hn] at hSame
    rw [hs, hSame]
  · intro hs
    exact ⟨m, hs, hm, rfl⟩

/-- If `y` holds the string `m`, then so does `x` exactly when the two agree up to
and including the terminator. -/
theorem cstr_eq_iff_take {x y m : Bytes} (hy : cstr y = some m) :
    cstr x = some m ↔ x.take (m.length + 1) = y.take (m.length + 1) := by
  obtain ⟨h0, hPrefix⟩ := cstr_eq_some_iff.mp hy
  have hTake : y.take (m.length + 1) = m ++ [0] := by
    have := List.prefix_iff_eq_take.mp hPrefix
    rw [List.length_append, List.length_singleton] at this
    exact this.symm
  rw [cstr_eq_some_iff, List.prefix_iff_eq_take, List.length_append, List.length_singleton, hTake]
  constructor
  · rintro ⟨-, h⟩
    exact h.symm
  · intro h
    exact ⟨h0, h.symm⟩

variable {K : Kernel} {perm : Bytes → Equiv.Perm (Blk BLOCK_SIZE)} {key : Bytes} {p q : Proc}
  {arr m : Bytes}

/-- The ciphertext moved by `strcpy` is its string, so what counts is that string
and what it decrypts to. -/
theorem roundTrips_iff_cstr {iv : Blk BLOCK_SIZE}
    (hp : Session perm key (Blk.zero BLOCK_SIZE) p) (hq : Session perm key iv q)
    (hArr : cstr arr = some m) (hm : m.length < DATA_SIZE) :
    RoundTrips K p q arr m ↔ ∃ t, cstr (ciphertext (perm key) m) = some t ∧
      cstr (cbcDec (perm key) (Blk.zero BLOCK_SIZE) BLOCKS (padTo ENC_SIZE t)) = some m := by
  have h0 : 0 ∉ m := (cstr_eq_some_iff.mp hArr).1
  obtain ⟨p', hEnc, -⟩ := encryptData_spec (K := K) hp hArr hm (zeros ENC_SIZE)
  have hDec : ∀ t, cstr (ciphertext (perm key) m) = some t →
      ((∃ q', decryptData K q (padTo ENC_SIZE t) (zeros MSG_SIZE) =
          (q', some (padTo MSG_SIZE m))) ↔
        cstr (cbcDec (perm key) (Blk.zero BLOCK_SIZE) BLOCKS (padTo ENC_SIZE t)) = some m) := by
    intro t ht
    have ht0 := (cstr_eq_some_iff.mp ht).1
    have hLt := length_lt_of_cstr_ciphertext ht
    obtain ⟨q', hCall, -⟩ := decryptData_spec (K := K) hq (cstr_padTo ht0 hLt) hLt (zeros MSG_SIZE)
    rw [hCall, ← strcpy_zeros_eq_padTo_iff (n := MSG_SIZE) h0 hm]
    constructor
    · rintro ⟨q'', hEq⟩
      exact (Prod.ext_iff.mp hEq).2
    · intro hEq
      exact ⟨q', by rw [hEq]⟩
  constructor
  · rintro ⟨p'', enc, q', hE, hD⟩
    rw [hEnc] at hE
    obtain ⟨t, ht, -, rfl⟩ := strcpy_zeros_eq_some_iff.mp (Prod.ext_iff.mp hE).2
    exact ⟨t, ht, (hDec t ht).mp ⟨q', hD⟩⟩
  · rintro ⟨t, ht, hBack⟩
    obtain ⟨q', hD⟩ := (hDec t ht).mpr hBack
    have hCopy := strcpy_zeros (n := ENC_SIZE) ht (length_lt_of_cstr_ciphertext ht)
    refine ⟨p', padTo ENC_SIZE t, q', ?_, hD⟩
    rw [hEnc]
    exact Prod.ext rfl hCopy

/-- **Encrypt/decrypt round trip.** Between two fresh sessions of one key a
message comes back exactly when its ciphertext has a zero byte, cutting the
ciphertext there leaves the whole blocks before the message's last one as they
are, and leaves the block with the terminator one that decrypts to the same
bytes up to the terminator. -/
theorem roundTrips_iff (hp : Session perm key (Blk.zero BLOCK_SIZE) p)
    (hq : Session perm key (Blk.zero BLOCK_SIZE) q) (hArr : cstr arr = some m)
    (hm : m.length < DATA_SIZE) :
    RoundTrips K p q arr m ↔ ∃ t, cstr (ciphertext (perm key) m) = some t ∧
      (padTo ENC_SIZE t).take (m.length / BLOCK_SIZE * BLOCK_SIZE) =
        (ciphertext (perm key) m).take (m.length / BLOCK_SIZE * BLOCK_SIZE) ∧
      ((perm key).symm (blockAt BLOCK_SIZE (padTo ENC_SIZE t) (m.length / BLOCK_SIZE))).1.take
          (m.length % BLOCK_SIZE + 1) =
        ((perm key).symm (blockAt BLOCK_SIZE (ciphertext (perm key) m)
          (m.length / BLOCK_SIZE))).1.take (m.length % BLOCK_SIZE + 1) := by
  rw [roundTrips_iff_cstr hp hq hArr hm]
  have h0 : 0 ∉ m := (cstr_eq_some_iff.mp hArr).1
  have hPlain : cbcDec (perm key) (Blk.zero BLOCK_SIZE) BLOCKS (ciphertext (perm key) m) =
      padTo DATA_SIZE m :=
    cbcDec_cbcEnc (perm key) _ (length_padTo (Nat.le_of_lt hm))
  have hWhole : cstr (cbcDec (perm key) (Blk.zero BLOCK_SIZE) BLOCKS
      (ciphertext (perm key) m)) = some m := by
    rw [hPlain]
    exact cstr_padTo h0 hm
  -- the terminator is byte r of block q
  have hSplit : m.length + 1 =
      m.length / BLOCK_SIZE * BLOCK_SIZE + (m.length % BLOCK_SIZE + 1) := by
    have := Nat.div_add_mod' m.length BLOCK_SIZE
    omega
  have hBlock : m.length / BLOCK_SIZE < BLOCKS := by
    rw [Nat.div_lt_iff_lt_mul (by decide)]
    exact hm
  have hLast : m.length % BLOCK_SIZE + 1 ≤ BLOCK_SIZE := Nat.mod_lt _ (by decide)
  refine exists_congr fun t => and_congr_right fun ht => ?_
  have hCut : (padTo ENC_SIZE t).length = BLOCKS * BLOCK_SIZE :=
    length_padTo (Nat.le_of_lt (length_lt_of_cstr_ciphertext ht))
  rw [cstr_eq_iff_take hWhole, hSplit]
  exact cbcDec_take_eq_iff (perm key) _ hCut (length_ciphertext _ _) hBlock hLast

-- ---------------------------------------------------------------------------
-- Under the identity
-- ---------------------------------------------------------------------------

/-- A message of one letter comes back. -/
theorem one_letter_roundTrips :
    RoundTrips (cbcKernel identity) (freshProc identity) (freshProc identity) [97, 0] [97] := by
  refine (roundTrips_iff (freshProc_session identity).1 (freshProc_session identity).1 rfl
    (by decide)).mpr ⟨[97], ?_, rfl, ?_⟩
  · refine cstr_eq_some_iff.mpr ⟨by decide, List.prefix_iff_eq_take.mpr ?_⟩
    decide +kernel
  · decide +kernel

/-- Seventeen times the letter `a`: the second block of the ciphertext starts with
a zero byte, and thirty-two letters come back. -/
theorem repeated_letter_lost :
    (List.replicate 17 97 : Bytes).length < DATA_SIZE ∧
      cstr (List.replicate 17 97 ++ [0]) = some (List.replicate 17 97) ∧
      ¬ RoundTrips (cbcKernel identity) (freshProc identity) (freshProc identity)
        (List.replicate 17 97 ++ [0]) (List.replicate 17 97) := by
  refine ⟨by decide, by decide, ?_⟩
  rw [roundTrips_iff_cstr (freshProc_session identity).1 (freshProc_session identity).1 (by decide)
    (by decide)]
  rintro ⟨t, ht, hBack⟩
  -- sixteen letters of the ciphertext, and a zero byte
  have hCut : cstr (ciphertext (Equiv.refl _) (List.replicate 17 97)) =
      some (List.replicate 16 97) := by
    refine cstr_eq_some_iff.mpr ⟨by decide, List.prefix_iff_eq_take.mpr ?_⟩
    decide +kernel
  obtain rfl := Option.some.inj (hCut.symm.trans ht)
  have hPrefix := List.prefix_iff_eq_take.mp (cstr_eq_some_iff.mp hBack).2
  have hLetters : (cbcDec (Equiv.refl _) (Blk.zero BLOCK_SIZE) BLOCKS
      (padTo ENC_SIZE (List.replicate 16 97))).take 18 = List.replicate 18 97 := by decide +kernel
  exact absurd (hPrefix.trans hLetters) (by decide)

end VirtioCrypto.Shell
