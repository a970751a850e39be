import VirtioCrypto.Octets.Basic

/-!
# Octets — C strings in fixed-size arrays

A C string lives in an array of bytes and ends at the first zero byte. An array
without a zero byte holds no string, and a copy that needs more room than the
destination has is out of bounds; both make `strcpy` return `none`.

* `cstr_eq_some_iff` — what the string of an array is, as a prefix of it;
* `strcpy_zeros` — a copy into a zeroed array leaves the string, zero-filled;
* `cstr_padTo` — a zero-filled string reads back.
-/

namespace Octets

/-- `n` zero bytes (`bzero`, `memset 0`). -/
def zeros (n : Nat) : Bytes := List.replicate n 0

@[simp] theorem length_zeros (n : Nat) : (zeros n).length = n := by
  simp [zeros]

/-- `s` in a zeroed array of `n` bytes. -/
def padTo (n : Nat) (s : Bytes) : Bytes := s ++ zeros (n - s.length)

theorem length_padTo {n : Nat} {s : Bytes} (h : s.length ≤ n) : (padTo n s).length = n := by
  rw [padTo, List.length_append, length_zeros]
  omega

/-- The string an array holds: the bytes before its first zero byte. -/
def cstr : Bytes → Option Bytes
  | [] => none
  | b :: bs => if b = 0 then some [] else (cstr bs).map (b :: ·)

/-- The string of `bs` is `s` exactly when `s` has no zero byte and `bs` starts
with `s` and a terminator. -/
theorem cstr_eq_some_iff {bs s : Bytes} :
    cstr bs = some s ↔ 0 ∉ s ∧ s ++ [0] <+: bs := by
  induction bs generalizing s with
  | nil => simp [cstr]
  | cons b bs ih =>
    by_cases hb : b = 0
    · subst hb
      cases s with
      | nil => simp [cstr]
      | cons c s =>
        simp only [cstr, if_true, Option.some.injEq, List.mem_cons, not_or, List.cons_append,
          List.cons_prefix_cons]
        constructor
        · intro h
          exact absurd h (by simp)
        · rintro ⟨⟨hc, -⟩, rfl, -⟩
          exact absurd rfl hc
    · cases s with
      | nil =>
        have hb' : ¬ 0 = b := fun h => hb h.symm
        simp [cstr, hb, hb']
      | cons c s =>
        simp only [cstr, if_neg hb, Option.map_eq_some_iff, List.cons.injEq, List.mem_cons,
          not_or, List.cons_append, List.cons_prefix_cons]
        constructor
        · rintro ⟨s', hs', rfl, rfl⟩
          obtain ⟨h0, hp⟩ := ih.mp hs'
          exact ⟨⟨fun h => hb h.symm, h0⟩, rfl, hp⟩
        · rintro ⟨⟨-, h0⟩, rfl, hp⟩
          exact ⟨s, ih.mpr ⟨h0, hp⟩, rfl, rfl⟩

/-- An array holds a string exactly when it has a zero byte. -/
theorem exists_cstr_iff {bs : Bytes} : (∃ s, cstr bs = some s) ↔ 0 ∈ bs := by
  induction bs with
  | nil => simp [cstr]
  | cons b bs ih =>
    by_cases hb : b = 0
    · simp [cstr, hb]
    · have hb' : ¬ 0 = b := fun h => hb h.symm
      simp [cstr, hb, hb', ← ih]

theorem length_lt_of_cstr {bs s : Bytes} (h : cstr bs = some s) : s.length < bs.length := by
  have := (cstr_eq_some_iff.mp h).2.length_le
  simp only [List.length_append, List.length_singleton] at this
  omega

/-- A string with room for its terminator reads back from a zeroed array. -/
theorem cstr_padTo {n : Nat} {s : Bytes} (h0 : 0 ∉ s) (hn : s.length < n) :
    cstr (padTo n s) = some s := by
  refine cstr_eq_some_iff.mpr ⟨h0, ?_⟩
  obtain ⟨k, hk⟩ : ∃ k, n - s.length = k + 1 := ⟨n - s.length - 1, by omega⟩
  rw [padTo, hk, zeros, List.replicate_succ]
  exact ⟨zeros k, by simp [zeros]⟩

/-- `strcpy(dst, src)`: `none` when `src` holds no string or the string and its
terminator do not fit into `dst`. -/
def strcpy (dst src : Bytes) : Option Bytes :=
  (cstr src).bind fun s => if s.length < dst.length then some (patch dst 0 (s ++ [0])) else none

/-- A copy leaves the destination its size. -/
theorem length_strcpy {dst src out : Bytes} (h : strcpy dst src = some out) :
    out.length = dst.length := by
  obtain ⟨s, -, hs⟩ := Option.bind_eq_some_iff.mp h
  split at hs
  · rename_i hFit
    obtain rfl := Option.some.inj hs
    refine length_patch ?_
    rw [List.length_append, List.length_singleton]
    omega
  · exact absurd hs (by simp)

/-- A string and its terminator written to a zeroed array. -/
theorem patch_zeros {n : Nat} {s : Bytes} (hn : s.length < n) :
    patch (zeros n) 0 (s ++ [0]) = padTo n s := by
  obtain ⟨k, rfl⟩ : ∃ k, n = s.length + 1 + k := ⟨n - (s.length + 1), by omega⟩
  have h1 : s.length + 1 + k - (0 + (s.length + 1)) = k := by omega
  have h2 : s.length + 1 + k - s.length = k + 1 := by omega
  rw [patch, padTo]
  simp only [List.take_zero, List.nil_append, zeros, List.drop_replicate, List.append_assoc,
    List.length_append, List.length_singleton, List.append_cancel_left_eq]
  rw [h1, h2, List.replicate_succ]
  rfl

/-- A copy into a zeroed array. -/
theorem strcpy_zeros {n : Nat} {src s : Bytes} (hs : cstr src = some s) (hn : s.length < n) :
    strcpy (zeros n) src = some (padTo n s) := by
  rw [strcpy, hs, Option.bind_some, if_pos (by simpa using hn), patch_zeros hn]

/-- When a copy into a zeroed array stays in bounds, and what it leaves. -/
theorem strcpy_zeros_eq_some_iff {n : Nat} {src out : Bytes} :
    strcpy (zeros n) src = some out ↔
      ∃ s, cstr src = some s ∧ s.length < n ∧ out = padTo n s := by
  constructor
  · intro h
    cases hs : cstr src with
    | none => simp [strcpy, hs] at h
    | some s =>
      by_cases hn : s.length < n
      · rw [strcpy_zeros hs hn, Option.some.injEq] at h
        exact ⟨s, rfl, hn, h.symm⟩
      · simp [strcpy, hs, hn] at h
  · rintro ⟨s, hs, hn, rfl⟩
    exact strcpy_zeros hs hn

end Octets
