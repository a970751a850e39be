import VirtioCrypto.Octets.CString
import Mathlib.Logic.Equiv.Basic

/-!
# Chaining — cipher block chaining over a permutation of blocks

The mode itself needs very little of a block: a mixing operation that undoes
itself and a permutation. `encrypt` and `decrypt` are the two directions over
such a type, `decrypt_encrypt` the round trip. Below that, blocks of `w` bytes
mixed by exclusive or, and the two directions on byte strings of `n * w` bytes.

What the clients of this module rest on, beside the round trip, is *how local*
decryption is. `cbcDec_take_eq_iff` settles when two ciphertexts decrypt to
plaintexts with the same first `q * w + r + 1` bytes: exactly when their first
`q` blocks are equal and the inverse permutation sends the two next blocks to
blocks with the same first `r + 1` bytes.
-/

namespace Chaining

open Octets

-- ---------------------------------------------------------------------------
-- The mode
-- ---------------------------------------------------------------------------

section Mode

variable {X : Type} (mix : X → X → X)

/-- Chained encryption from the chaining value `iv`. -/
def encrypt (E : X → X) (iv : X) : List X → List X
  | [] => []
  | p :: ps => E (mix p iv) :: encrypt E (E (mix p iv)) ps

/-- Chained decryption from the chaining value `iv`. -/
def decrypt (D : X → X) (iv : X) : List X → List X
  | [] => []
  | c :: cs => mix (D c) iv :: decrypt D c cs

@[simp] theorem length_encrypt (E : X → X) (iv : X) (ps : List X) :
    (encrypt mix E iv ps).length = ps.length := by
  induction ps generalizing iv with
  | nil => rfl
  | cons p ps ih => simp [encrypt, ih]

@[simp] theorem length_decrypt (D : X → X) (iv : X) (cs : List X) :
    (decrypt mix D iv cs).length = cs.length := by
  induction cs generalizing iv with
  | nil => rfl
  | cons c cs ih => simp [decrypt, ih]

variable {mix}

/-- Blocks that the mode sends to the chaining value leave it as it is. -/
theorem encrypt_replicate {E : X → X} {p c : X} (h : E (mix p c) = c) (n : Nat) (ps : List X) :
    encrypt mix E c (List.replicate n p ++ ps) = List.replicate n c ++ encrypt mix E c ps := by
  induction n with
  | zero => rfl
  | succ n ih => rw [List.replicate_succ, List.cons_append, encrypt, h, ih]; rfl

/-- Decryption undoes encryption from the same chaining value. -/
theorem decrypt_encrypt (hMix : ∀ a b, mix (mix a b) b = a) {E D : X → X}
    (hD : ∀ x, D (E x) = x) (iv : X) (ps : List X) :
    decrypt mix D iv (encrypt mix E iv ps) = ps := by
  induction ps generalizing iv with
  | nil => rfl
  | cons p ps ih => rw [encrypt, decrypt, ih, hD, hMix]

end Mode

-- ---------------------------------------------------------------------------
-- Blocks of bytes
-- ---------------------------------------------------------------------------

/-- A block of `w` bytes. -/
abbrev Blk (w : Nat) := { b : Bytes // b.length = w }

namespace Blk

variable {w : Nat}

/-- The first `w` bytes of `bs`, zero-filled if there are fewer. -/
def ofBytes (w : Nat) (bs : Bytes) : Blk w :=
  ⟨(bs ++ zeros w).take w, by simp⟩

/-- The block of `w` zero bytes. -/
def zero (w : Nat) : Blk w := ⟨zeros w, length_zeros w⟩

/-- Bytewise exclusive or. -/
def xor (a b : Blk w) : Blk w :=
  ⟨List.zipWith (· ^^^ ·) a.1 b.1, by simp [a.2, b.2]⟩

theorem ofBytes_val {bs : Bytes} (h : w ≤ bs.length) : (ofBytes w bs).1 = bs.take w :=
  List.take_append_of_le_length h

theorem ofBytes_val_self (b : Blk w) : ofBytes w b.1 = b := by
  apply Subtype.ext
  rw [ofBytes_val (le_of_eq b.2.symm), List.take_of_length_le (le_of_eq b.2)]

/-- Mixing the same bytes in twice cancels. -/
private theorem zipWith_xor_cancel :
    ∀ {a b : Bytes}, a.length ≤ b.length →
      List.zipWith (· ^^^ ·) (List.zipWith (· ^^^ ·) a b) b = a
  | [], _, _ => by simp
  | x :: a, [], h => by simp at h
  | x :: a, y :: b, h => by
    have hTail : a.length ≤ b.length := by simpa using h
    rw [List.zipWith_cons_cons, List.zipWith_cons_cons, zipWith_xor_cancel hTail,
      UInt8.xor_assoc, UInt8.xor_self, UInt8.xor_zero]

theorem xor_cancel (a b : Blk w) : xor (xor a b) b = a :=
  Subtype.ext (zipWith_xor_cancel (by rw [a.2, b.2]))

/-- Mixing in one block loses nothing, on any prefix. -/
theorem take_xor_eq_iff {a b iv : Blk w} (k : Nat) :
    (xor a iv).1.take k = (xor b iv).1.take k ↔ a.1.take k = b.1.take k := by
  have hTake : ∀ c : Blk w, (xor c iv).1.take k =
      List.zipWith (· ^^^ ·) (c.1.take k) (iv.1.take k) := fun c => List.take_zipWith
  have hLen : ∀ c : Blk w, (c.1.take k).length ≤ (iv.1.take k).length := by
    intro c
    simp [c.2, iv.2]
  rw [hTake, hTake]
  constructor
  · intro h
    rw [← zipWith_xor_cancel (hLen a), ← zipWith_xor_cancel (hLen b), h]
  · intro h
    rw [h]

end Blk

/-- The first `n` blocks of a byte string. -/
def toBlocks (w : Nat) : Nat → Bytes → List (Blk w)
  | 0, _ => []
  | n + 1, bs => Blk.ofBytes w bs :: toBlocks w n (bs.drop w)

/-- The bytes of a list of blocks. -/
def bytesOf {w : Nat} : List (Blk w) → Bytes
  | [] => []
  | b :: bs => b.1 ++ bytesOf bs

variable {w : Nat}

@[simp] theorem length_toBlocks (n : Nat) (bs : Bytes) : (toBlocks w n bs).length = n := by
  induction n generalizing bs with
  | zero => rfl
  | succ n ih => simp [toBlocks, ih]

theorem length_bytesOf (bs : List (Blk w)) : (bytesOf bs).length = bs.length * w := by
  induction bs with
  | nil => simp [bytesOf]
  | cons b bs ih =>
    rw [bytesOf, List.length_append, b.2, ih, List.length_cons]
    ring

theorem bytesOf_append (as bs : List (Blk w)) : bytesOf (as ++ bs) = bytesOf as ++ bytesOf bs := by
  induction as with
  | nil => rfl
  | cons a as ih => rw [List.cons_append, bytesOf, bytesOf, ih, List.append_assoc]

theorem notMem_bytesOf {b : UInt8} {bs : List (Blk w)} (h : ∀ x ∈ bs, b ∉ x.1) :
    b ∉ bytesOf bs := by
  induction bs with
  | nil => exact List.not_mem_nil
  | cons x bs ih =>
    rw [bytesOf, List.mem_append, not_or]
    exact ⟨h x (by simp), ih fun y hy => h y (by simp [hy])⟩

theorem bytesOf_toBlocks {n : Nat} {bs : Bytes} (h : bs.length = n * w) :
    bytesOf (toBlocks w n bs) = bs := by
  induction n generalizing bs with
  | zero =>
    rw [Nat.zero_mul, List.length_eq_zero_iff] at h
    simp [h, toBlocks, bytesOf]
  | succ n ih =>
    have hw : w ≤ bs.length := by
      rw [h, Nat.succ_mul]
      omega
    have hDrop : (bs.drop w).length = n * w := by
      rw [List.length_drop, h, Nat.succ_mul]
      omega
    rw [toBlocks, bytesOf, Blk.ofBytes_val hw, ih hDrop, List.take_append_drop]

theorem toBlocks_bytesOf (bs : List (Blk w)) : toBlocks w bs.length (bytesOf bs) = bs := by
  induction bs with
  | nil => rfl
  | cons b bs ih =>
    have hHead : Blk.ofBytes w (b.1 ++ bytesOf bs) = b := by
      apply Subtype.ext
      rw [Blk.ofBytes_val (by simp [b.2]), List.take_append_of_le_length (le_of_eq b.2.symm),
        List.take_of_length_le (le_of_eq b.2)]
    have hTail : (b.1 ++ bytesOf bs).drop w = bytesOf bs := by
      rw [List.drop_append_of_le_length (le_of_eq b.2.symm),
        List.drop_of_length_le (le_of_eq b.2), List.nil_append]
    rw [bytesOf, List.length_cons, toBlocks, hHead, hTail, ih]

-- ---------------------------------------------------------------------------
-- The mode on byte strings
-- ---------------------------------------------------------------------------

/-- CBC encryption of the first `n` blocks of `bs`. -/
def cbcEnc (P : Equiv.Perm (Blk w)) (iv : Blk w) (n : Nat) (bs : Bytes) : Bytes :=
  bytesOf (encrypt Blk.xor P iv (toBlocks w n bs))

/-- CBC decryption of the first `n` blocks of `bs`. -/
def cbcDec (P : Equiv.Perm (Blk w)) (iv : Blk w) (n : Nat) (bs : Bytes) : Bytes :=
  bytesOf (decrypt Blk.xor P.symm iv (toBlocks w n bs))

variable (P : Equiv.Perm (Blk w)) (iv : Blk w)

@[simp] theorem length_cbcEnc (n : Nat) (bs : Bytes) : (cbcEnc P iv n bs).length = n * w := by
  rw [cbcEnc, length_bytesOf, length_encrypt, length_toBlocks]

@[simp] theorem length_cbcDec (n : Nat) (bs : Bytes) : (cbcDec P iv n bs).length = n * w := by
  rw [cbcDec, length_bytesOf, length_decrypt, length_toBlocks]

/-- The round trip on byte strings. -/
theorem cbcDec_cbcEnc {n : Nat} {bs : Bytes} (h : bs.length = n * w) :
    cbcDec P iv n (cbcEnc P iv n bs) = bs := by
  have hLen : (encrypt Blk.xor P iv (toBlocks w n bs)).length = n := by simp
  have hBlocks := toBlocks_bytesOf (encrypt Blk.xor P iv (toBlocks w n bs))
  rw [hLen] at hBlocks
  rw [cbcDec, cbcEnc, hBlocks,
    decrypt_encrypt Blk.xor_cancel P.symm_apply_apply, bytesOf_toBlocks h]

/-- Two block lists decrypt to the same first `q * w + k` bytes, `0 < k ≤ w`,
exactly when their first `q` blocks agree and the inverse permutation agrees on
the first `k` bytes of the next one. -/
private theorem decrypt_take_eq_iff {q k : Nat} (hk : k ≤ w) :
    ∀ {iv : Blk w} {xs cs : List (Blk w)} (_ : q < xs.length) (_ : q < cs.length),
      (bytesOf (decrypt Blk.xor P.symm iv xs)).take (q * w + k) =
          (bytesOf (decrypt Blk.xor P.symm iv cs)).take (q * w + k) ↔
        xs.take q = cs.take q ∧
          ((xs[q]?).map fun x => (P.symm x).1.take k) = (cs[q]?).map fun x => (P.symm x).1.take k := by
  -- induction on the number of whole blocks; equal first blocks hand the same
  -- chaining value on
  induction q with
  | zero =>
    intro iv xs cs hx hc
    obtain _ | ⟨x, xs⟩ := xs
    · simp at hx
    obtain _ | ⟨c, cs⟩ := cs
    · simp at hc
    have hTake : ∀ (y : Blk w) (ys : List (Blk w)),
        (bytesOf (decrypt Blk.xor P.symm iv (y :: ys))).take (0 * w + k) =
          (Blk.xor (P.symm y) iv).1.take k := by
      intro y ys
      rw [decrypt, bytesOf, Nat.zero_mul, Nat.zero_add,
        List.take_append_of_le_length (by rw [(Blk.xor (P.symm y) iv).2]; exact hk)]
    rw [hTake, hTake, Blk.take_xor_eq_iff]
    simp
  | succ q ih =>
    intro iv xs cs hx hc
    obtain _ | ⟨x, xs⟩ := xs
    · simp at hx
    obtain _ | ⟨c, cs⟩ := cs
    · simp at hc
    have hTake : ∀ (y : Blk w) (ys : List (Blk w)),
        (bytesOf (decrypt Blk.xor P.symm iv (y :: ys))).take ((q + 1) * w + k) =
          (Blk.xor (P.symm y) iv).1 ++
            (bytesOf (decrypt Blk.xor P.symm y ys)).take (q * w + k) := by
      intro y ys
      have hLen := (Blk.xor (P.symm y) iv).2
      rw [decrypt, bytesOf, List.take_append, hLen, List.take_of_length_le (by rw [hLen, Nat.succ_mul]; omega)]
      congr 2
      rw [Nat.succ_mul]
      omega
    have hLens : (Blk.xor (P.symm x) iv).1.length = (Blk.xor (P.symm c) iv).1.length := by
      rw [(Blk.xor (P.symm x) iv).2, (Blk.xor (P.symm c) iv).2]
    rw [hTake, hTake]
    have hHead : (Blk.xor (P.symm x) iv).1 = (Blk.xor (P.symm c) iv).1 ↔ x = c := by
      constructor
      · intro h
        have hXor : Blk.xor (P.symm x) iv = Blk.xor (P.symm c) iv := Subtype.ext h
        have := congrArg (Blk.xor · iv) hXor
        simp only [Blk.xor_cancel] at this
        exact P.symm.injective this
      · intro h
        rw [h]
    simp only [List.take_succ_cons, List.cons.injEq, List.getElem?_cons_succ]
    constructor
    · intro h
      obtain ⟨hFst, hRest⟩ := List.append_inj h hLens
      obtain rfl := hHead.mp hFst
      obtain ⟨h1, h2⟩ := (ih (by simpa using hx) (by simpa using hc)).mp hRest
      exact ⟨⟨rfl, h1⟩, h2⟩
    · rintro ⟨⟨rfl, h1⟩, h2⟩
      rw [(ih (by simpa using hx) (by simpa using hc)).mpr ⟨h1, h2⟩]

/-- The `q`-th block of a byte string. -/
def blockAt (w : Nat) (bs : Bytes) (q : Nat) : Blk w := Blk.ofBytes w (bs.drop (q * w))

theorem toBlocks_getElem? {n q : Nat} (hq : q < n) (bs : Bytes) :
    (toBlocks w n bs)[q]? = some (blockAt w bs q) := by
  induction n generalizing q bs with
  | zero => omega
  | succ n ih =>
    cases q with
    | zero => simp [toBlocks, blockAt]
    | succ q =>
      rw [toBlocks, List.getElem?_cons_succ, ih (by omega), blockAt, blockAt, List.drop_drop,
        Nat.succ_mul, Nat.add_comm]

theorem take_toBlocks {n q : Nat} (hq : q ≤ n) (bs : Bytes) :
    (toBlocks w n bs).take q = toBlocks w q bs := by
  induction n generalizing q bs with
  | zero =>
    obtain rfl : q = 0 := by omega
    rfl
  | succ n ih =>
    cases q with
    | zero => rfl
    | succ q => rw [toBlocks, List.take_succ_cons, ih (by omega), toBlocks]

/-- Equal prefixes of whole blocks are equal lists of blocks. -/
theorem toBlocks_eq_iff {q : Nat} {x c : Bytes} (hx : q * w ≤ x.length) (hc : q * w ≤ c.length) :
    toBlocks w q x = toBlocks w q c ↔ x.take (q * w) = c.take (q * w) := by
  have hTake : ∀ {y : Bytes}, q * w ≤ y.length →
      toBlocks w q y = toBlocks w q (y.take (q * w)) := by
    intro y hy
    clear hx hc
    induction q generalizing y with
    | zero => rfl
    | succ q ih =>
      have hw : w ≤ (y.take ((q + 1) * w)).length := by
        rw [List.length_take, Nat.succ_mul] at *
        omega
      have hFst : Blk.ofBytes w y = Blk.ofBytes w (y.take ((q + 1) * w)) := by
        apply Subtype.ext
        rw [Blk.ofBytes_val hw, Blk.ofBytes_val (by rw [List.length_take] at hw; omega),
          List.take_take, Nat.succ_mul, Nat.min_eq_left (by omega)]
      have hRest : (y.take ((q + 1) * w)).drop w = (y.drop w).take (q * w) := by
        rw [List.drop_take, Nat.succ_mul, Nat.add_sub_cancel]
      rw [toBlocks, toBlocks, hFst, hRest, ih (by rw [List.length_drop, Nat.succ_mul] at *; omega)]
  constructor
  · intro h
    have := congrArg bytesOf h
    rw [hTake hx, hTake hc, bytesOf_toBlocks (by rw [List.length_take]; omega),
      bytesOf_toBlocks (by rw [List.length_take]; omega)] at this
    exact this
  · intro h
    rw [hTake hx, hTake hc, h]

/-- **Locality of CBC decryption.** Two ciphertexts of `n` blocks decrypt to the
same first `q * w + k` bytes exactly when they share their first `q` blocks and
the inverse permutation sends their next blocks to blocks with the same first
`k` bytes. -/
theorem cbcDec_take_eq_iff {n q k : Nat} {x c : Bytes} (hx : x.length = n * w)
    (hc : c.length = n * w) (hq : q < n) (hk : k ≤ w) :
    (cbcDec P iv n x).take (q * w + k) = (cbcDec P iv n c).take (q * w + k) ↔
      x.take (q * w) = c.take (q * w) ∧
        (P.symm (blockAt w x q)).1.take k = (P.symm (blockAt w c q)).1.take k := by
  have hqw : q * w ≤ n * w := Nat.mul_le_mul_right w (by omega)
  rw [cbcDec, cbcDec, decrypt_take_eq_iff P hk (by simpa using hq) (by simpa using hq),
    take_toBlocks (by omega), take_toBlocks (by omega),
    toBlocks_eq_iff (by omega) (by omega), toBlocks_getElem? hq, toBlocks_getElem? hq]
  simp

end Chaining
