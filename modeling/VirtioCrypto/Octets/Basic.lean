import Mathlib.Data.List.Basic
import Mathlib.Tactic.Ring

/-!
# Octets — byte strings with fields at fixed offsets

A C object is a list of bytes of fixed length; a member of it is the slice at
the member's offset, and an assignment to the member patches that slice. This
module has the two operations and the facts a client needs to move between
them: a patch keeps the length, reads back what was written, and leaves every
disjoint slice alone. Little-endian words sit on top.

Everything is stated for an arbitrary element type where the element does not
matter, so that the same transport code can carry plain or annotated bytes.
-/

namespace Octets

/-- A byte string. -/
abbrev Bytes := List UInt8

variable {α : Type}

-- ---------------------------------------------------------------------------
-- Slices and patches
-- ---------------------------------------------------------------------------

/-- The `n` elements from offset `off`. -/
def slice (xs : List α) (off n : Nat) : List α := (xs.drop off).take n

/-- `xs` with the elements from offset `off` on replaced by `ys` (`memcpy`). -/
def patch (xs : List α) (off : Nat) (ys : List α) : List α :=
  xs.take off ++ ys ++ xs.drop (off + ys.length)

theorem length_slice {xs : List α} {off n : Nat} (h : off + n ≤ xs.length) :
    (slice xs off n).length = n := by
  simp only [slice, List.length_take, List.length_drop]
  omega

theorem length_patch {xs ys : List α} {off : Nat} (h : off + ys.length ≤ xs.length) :
    (patch xs off ys).length = xs.length := by
  simp only [patch, List.length_append, List.length_take, List.length_drop]
  omega

/-- Pointwise reading of a slice. -/
theorem getElem?_slice (xs : List α) (off n i : Nat) :
    (slice xs off n)[i]? = if i < n then xs[off + i]? else none := by
  rw [slice, List.getElem?_take]
  split
  · rw [List.getElem?_drop]
  · rfl

/-- Pointwise reading of a patch that fits. -/
theorem getElem?_patch {xs ys : List α} {off : Nat} (h : off + ys.length ≤ xs.length)
    (i : Nat) :
    (patch xs off ys)[i]? =
      if off ≤ i ∧ i < off + ys.length then ys[i - off]? else xs[i]? := by
  have hTake : (xs.take off).length = off := by
    rw [List.length_take]
    omega
  rw [patch, List.append_assoc]
  by_cases hLo : i < off
  · rw [List.getElem?_append_left (by omega), List.getElem?_take_of_lt hLo,
      if_neg (by omega)]
  · rw [List.getElem?_append_right (by omega), hTake]
    by_cases hHi : i < off + ys.length
    · rw [List.getElem?_append_left (by omega), if_pos (by omega)]
    · rw [List.getElem?_append_right (by omega), List.getElem?_drop,
        if_neg (by omega)]
      congr 1
      omega

/-- What was written reads back. -/
theorem slice_patch_self {xs ys : List α} {off : Nat}
    (h : off + ys.length ≤ xs.length) :
    slice (patch xs off ys) off ys.length = ys := by
  apply List.ext_getElem?
  intro i
  rw [getElem?_slice, getElem?_patch h]
  by_cases hi : i < ys.length
  · rw [if_pos hi, if_pos (by omega)]
    congr 1
    omega
  · rw [if_neg hi]
    exact (List.getElem?_eq_none (by omega)).symm

/-- A patch leaves a disjoint slice alone. -/
theorem slice_patch_disjoint {xs ys : List α} {off o n : Nat}
    (h : off + ys.length ≤ xs.length)
    (hd : o + n ≤ off ∨ off + ys.length ≤ o) :
    slice (patch xs off ys) o n = slice xs o n := by
  apply List.ext_getElem?
  intro i
  rw [getElem?_slice, getElem?_slice]
  by_cases hi : i < n
  · rw [if_pos hi, if_pos hi, getElem?_patch h, if_neg (by omega)]
  · rw [if_neg hi, if_neg hi]

/-- A patch of a region inside a slice patches the slice. -/
theorem slice_patch_inside {xs ys : List α} {off o n : Nat}
    (h : off + ys.length ≤ xs.length) (ho : o ≤ off)
    (hn : off + ys.length ≤ o + n) (hx : o + n ≤ xs.length) :
    slice (patch xs off ys) o n = patch (slice xs o n) (off - o) ys := by
  have hLen : off - o + ys.length ≤ (slice xs o n).length := by
    rw [length_slice hx]
    omega
  apply List.ext_getElem?
  intro i
  rw [getElem?_slice, getElem?_patch h, getElem?_patch hLen, getElem?_slice]
  by_cases hi : i < n
  · rw [if_pos hi]
    by_cases hIn : off ≤ o + i ∧ o + i < off + ys.length
    · rw [if_pos hIn, if_pos (by omega)]
      congr 1
      omega
    · rw [if_neg hIn, if_neg (by omega), if_pos hi]
  · rw [if_neg hi, if_neg (by omega), if_neg hi]

/-- Slicing a slice adds the offsets. -/
theorem slice_slice {xs : List α} {o n o' n' : Nat} (h : o' + n' ≤ n) :
    slice (slice xs o n) o' n' = slice xs (o + o') n' := by
  apply List.ext_getElem?
  intro i
  rw [getElem?_slice, getElem?_slice, getElem?_slice]
  by_cases hi : i < n'
  · rw [if_pos hi, if_pos (by omega), if_pos hi]
    congr 1
    omega
  · rw [if_neg hi, if_neg hi]

@[simp] theorem slice_zero_length (xs : List α) : slice xs 0 xs.length = xs := by
  simp [slice]

/-- A patch as long as the list replaces it. -/
theorem patch_whole {xs ys : List α} (h : xs.length = ys.length) : patch xs 0 ys = ys := by
  simp [patch, ← h]

-- ---------------------------------------------------------------------------
-- Little-endian words
-- ---------------------------------------------------------------------------

/-- The number a little-endian byte string denotes. -/
def ofLE : Bytes → Nat
  | [] => 0
  | b :: bs => b.toNat + 256 * ofLE bs

/-- The low `w` bytes of `n`, least significant first. -/
def toLE : Nat → Nat → Bytes
  | 0, _ => []
  | w + 1, n => UInt8.ofNat n :: toLE w (n / 256)

@[simp] theorem length_toLE (w n : Nat) : (toLE w n).length = w := by
  induction w generalizing n with
  | zero => rfl
  | succ w ih => simp [toLE, ih]

/-- A number that fits in `w` bytes survives the encoding. -/
theorem ofLE_toLE {w n : Nat} (h : n < 256 ^ w) : ofLE (toLE w n) = n := by
  induction w generalizing n with
  | zero =>
    simp only [Nat.pow_zero] at h
    simp only [toLE, ofLE]
    omega
  | succ w ih =>
    have hDiv : n / 256 < 256 ^ w := by
      apply Nat.div_lt_of_lt_mul
      rw [Nat.pow_succ] at h
      omega
    simp only [toLE, ofLE, ih hDiv, UInt8.toNat_ofNat']
    omega

theorem toLE_ofLE (bs : Bytes) : toLE bs.length (ofLE bs) = bs := by
  induction bs with
  | nil => rfl
  | cons b bs ih =>
    have hb := b.toNat_lt
    have hHead : UInt8.ofNat (b.toNat + 256 * ofLE bs) = b := by
      apply UInt8.toNat_inj.mp
      rw [UInt8.toNat_ofNat']
      omega
    have hTail : (b.toNat + 256 * ofLE bs) / 256 = ofLE bs := by omega
    rw [List.length_cons, toLE, ofLE, hHead, hTail, ih]

/-- The 32-bit word at offset `off`. -/
def u32 (xs : Bytes) (off : Nat) : Nat := ofLE (slice xs off 4)

/-- The 64-bit word at offset `off`. -/
def u64 (xs : Bytes) (off : Nat) : Nat := ofLE (slice xs off 8)

/-- The 16-bit word at offset `off`. -/
def u16 (xs : Bytes) (off : Nat) : Nat := ofLE (slice xs off 2)

end Octets
