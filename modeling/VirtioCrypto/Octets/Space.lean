import VirtioCrypto.Octets.Basic

/-!
# Octets — address spaces

A partial map from addresses to bytes: `none` is an address the process may not
touch. `load` and `store` fail as a whole when any byte of the range is out of
reach, `put` writes (and maps) a range unconditionally.

`load_eq_some_iff` says pointwise what a successful load means, and every other
fact is read off it: loads of sub-ranges, loads after writes, writes that
change nothing, writes that commute.
-/

namespace Octets

/-- A byte-addressed address space. -/
def Space := Nat → Option UInt8

namespace Space

/-- The `n` bytes from address `a`, when all of them are mapped. -/
def load (m : Space) (a : Nat) : Nat → Option Bytes
  | 0 => some []
  | n + 1 => (m a).bind fun b => (load m (a + 1) n).map (b :: ·)

/-- `m` with the bytes `bs` at address `a`. -/
def put (m : Space) (a : Nat) (bs : Bytes) : Space := fun x =>
  if a ≤ x ∧ x < a + bs.length then bs[x - a]? else m x

/-- `put` into a range that is mapped. -/
def store (m : Space) (a : Nat) (bs : Bytes) : Option Space :=
  (m.load a bs.length).map fun _ => m.put a bs

/-- Two ranges share no address. -/
def Disjoint (a n b k : Nat) : Prop := a + n ≤ b ∨ b + k ≤ a

variable {m : Space} {a n : Nat} {bs : Bytes}

-- ---------------------------------------------------------------------------
-- Loads
-- ---------------------------------------------------------------------------

/-- A load succeeds with exactly the bytes that are there. -/
theorem load_eq_some_iff :
    m.load a n = some bs ↔ bs.length = n ∧ ∀ i < n, m (a + i) = bs[i]? := by
  induction n generalizing a bs with
  | zero =>
    simp only [load, Option.some.injEq, Nat.not_lt_zero, false_implies, implies_true, and_true]
    exact ⟨fun h => by simp [← h], fun h => (List.length_eq_zero_iff.mp h).symm⟩
  | succ n ih =>
    simp only [load, Option.bind_eq_some_iff, Option.map_eq_some_iff]
    constructor
    · rintro ⟨b, hb, rest, hRest, rfl⟩
      obtain ⟨hLen, hAt⟩ := ih.mp hRest
      refine ⟨by simp [hLen], fun i hi => ?_⟩
      cases i with
      | zero => simpa using hb
      | succ i =>
        have := hAt i (by omega)
        rw [List.getElem?_cons_succ, ← this]
        congr 1
        omega
    · rintro ⟨hLen, hAt⟩
      obtain _ | ⟨b, rest⟩ := bs
      · simp at hLen
      · refine ⟨b, by simpa using hAt 0 (by omega), rest, ih.mpr ⟨by simpa using hLen, ?_⟩, rfl⟩
        intro i hi
        have := hAt (i + 1) (by omega)
        rw [List.getElem?_cons_succ] at this
        rw [← this]
        congr 1
        omega

theorem length_of_load (h : m.load a n = some bs) : bs.length = n :=
  (load_eq_some_iff.mp h).1

/-- Part of a loaded range is the corresponding slice. -/
theorem load_slice (h : m.load a n = some bs) {o k : Nat} (hk : o + k ≤ n) :
    m.load (a + o) k = some (slice bs o k) := by
  obtain ⟨hLen, hAt⟩ := load_eq_some_iff.mp h
  refine load_eq_some_iff.mpr ⟨length_slice (by omega), fun i hi => ?_⟩
  rw [getElem?_slice, if_pos hi, ← hAt (o + i) (by omega)]
  congr 1
  omega

/-- A prefix of a loaded range. -/
theorem load_prefix (h : m.load a n = some bs) {k : Nat} (hk : k ≤ n) :
    m.load a k = some (slice bs 0 k) := by
  have := load_slice h (o := 0) (k := k) (by omega)
  simpa using this

-- ---------------------------------------------------------------------------
-- Loads after writes
-- ---------------------------------------------------------------------------

theorem put_apply_of_disjoint {x : Nat} (h : x < a ∨ a + bs.length ≤ x) :
    m.put a bs x = m x := by
  rw [put, if_neg (by omega)]

theorem put_apply_inside {i : Nat} (h : i < bs.length) : m.put a bs (a + i) = bs[i]? := by
  rw [put, if_pos (by omega), Nat.add_sub_cancel_left]

/-- What was written loads back. -/
theorem load_put_self : (m.put a bs).load a bs.length = some bs :=
  load_eq_some_iff.mpr ⟨rfl, fun _ hi => put_apply_inside hi⟩

/-- A load depends on its range only. -/
theorem load_congr {m' : Space} (h : ∀ i < n, m (a + i) = m' (a + i)) : m.load a n = m'.load a n := by
  apply Option.ext
  intro ys
  rw [load_eq_some_iff, load_eq_some_iff]
  constructor
  · rintro ⟨hLen, hAt⟩
    exact ⟨hLen, fun i hi => by rw [← h i hi, hAt i hi]⟩
  · rintro ⟨hLen, hAt⟩
    exact ⟨hLen, fun i hi => by rw [h i hi, hAt i hi]⟩

/-- A write leaves the loads of a disjoint range alone. -/
theorem load_put_disjoint {b k : Nat} (h : Disjoint a bs.length b k) :
    (m.put a bs).load b k = m.load b k := by
  refine load_congr fun i hi => put_apply_of_disjoint ?_
  rcases h with h | h <;> omega

/-- A write inside a loaded range patches what the load returns. -/
theorem load_put_inside (h : m.load a n = some bs) {o : Nat} {ys : Bytes}
    (ho : o + ys.length ≤ n) :
    (m.put (a + o) ys).load a n = some (patch bs o ys) := by
  obtain ⟨hLen, hAt⟩ := load_eq_some_iff.mp h
  have hFit : o + ys.length ≤ bs.length := by omega
  refine load_eq_some_iff.mpr ⟨by rw [length_patch hFit, hLen], fun i hi => ?_⟩
  rw [getElem?_patch hFit, put]
  by_cases hIn : o ≤ i ∧ i < o + ys.length
  · rw [if_pos (by omega), if_pos hIn]
    congr 1
    omega
  · rw [if_neg (by omega), if_neg hIn, hAt i hi]

/-- A write unmaps nothing. -/
theorem load_put_isSome {b k : Nat} (h : (m.load b k).isSome) : ((m.put a bs).load b k).isSome := by
  induction k generalizing b with
  | zero => rfl
  | succ k ih =>
    rw [load] at h ⊢
    rcases hb : m b with _ | v
    · simp [hb] at h
    rcases hr : m.load (b + 1) k with _ | rest
    · simp [hb, hr] at h
    have hTail := ih (b := b + 1) (by rw [hr]; rfl)
    have hHead : (m.put a bs b).isSome := by
      unfold put
      split
      · next hIn =>
        rw [List.getElem?_eq_getElem (by omega)]
        rfl
      · rw [hb]
        rfl
    obtain ⟨v', hv'⟩ := Option.isSome_iff_exists.mp hHead
    obtain ⟨rest', hr'⟩ := Option.isSome_iff_exists.mp hTail
    rw [hv', hr']
    rfl

/-- Writing back what is there changes nothing. -/
theorem put_of_load (h : m.load a n = some bs) : m.put a bs = m := by
  obtain ⟨hLen, hAt⟩ := load_eq_some_iff.mp h
  funext x
  by_cases hx : a ≤ x ∧ x < a + bs.length
  · have := hAt (x - a) (by omega)
    rw [put, if_pos hx, ← this]
    congr 1
    omega
  · rw [put, if_neg hx]

/-- Writing back a range with a part of it changed is a write of that part. -/
theorem put_patch (h : m.load a n = some bs) {o : Nat} {ys : Bytes} (ho : o + ys.length ≤ n) :
    m.put a (patch bs o ys) = m.put (a + o) ys := by
  obtain ⟨hLen, hAt⟩ := load_eq_some_iff.mp h
  have hFit : o + ys.length ≤ bs.length := by omega
  funext x
  rw [put, put, length_patch hFit, hLen]
  by_cases hx : a ≤ x ∧ x < a + n
  · rw [if_pos hx, getElem?_patch hFit]
    by_cases hIn : a + o ≤ x ∧ x < a + o + ys.length
    · rw [if_pos (by omega), if_pos hIn]
      congr 1
      omega
    · rw [if_neg (by omega), if_neg hIn, ← hAt (x - a) (by omega)]
      congr 1
      omega
  · rw [if_neg hx, if_neg (by omega)]

theorem put_nil (m : Space) (a : Nat) : m.put a [] = m := by
  funext x
  rw [put, if_neg (by simp)]

/-- A store succeeds exactly on a mapped range. -/
theorem store_of_load {ys : Bytes} (h : m.load a n = some bs) (hn : ys.length = n) :
    m.store a ys = some (m.put a ys) := by
  rw [store, hn, h]
  rfl

end Space

end Octets
