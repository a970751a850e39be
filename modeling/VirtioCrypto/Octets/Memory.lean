import VirtioCrypto.Octets.Basic

/-!
# Octets — physical memory

A total byte-addressed memory, as a device sees that of its guest: no access fails. Words
are little-endian. `load_store_self` and `load_store_disjoint` say all there is about a
store; the word operations inherit both.
-/

namespace Octets

/-- Every address holds a byte. -/
def Memory := Nat → UInt8

namespace Memory

/-- The `n` bytes from address `a`. -/
def load (m : Memory) (a : Nat) : Nat → Bytes
  | 0 => []
  | n + 1 => m a :: load m (a + 1) n

/-- `m` with the bytes `bs` at address `a`. -/
def store (m : Memory) (a : Nat) (bs : Bytes) : Memory := fun x =>
  if a ≤ x ∧ x < a + bs.length then bs.getD (x - a) 0 else m x

-- lduw, ldl and ldq of a little-endian target
def lduw (m : Memory) (a : Nat) : Nat := ofLE (m.load a 2)
def ldl (m : Memory) (a : Nat) : Nat := ofLE (m.load a 4)
def ldq (m : Memory) (a : Nat) : Nat := ofLE (m.load a 8)

-- stw and stl
def stw (m : Memory) (a v : Nat) : Memory := m.store a (toLE 2 v)
def stl (m : Memory) (a v : Nat) : Memory := m.store a (toLE 4 v)

variable {m m' : Memory} {a b n k v : Nat} {bs : Bytes}

@[simp] theorem length_load (m : Memory) (a n : Nat) : (m.load a n).length = n := by
  induction n generalizing a with
  | zero => rfl
  | succ n ih => rw [load, List.length_cons, ih]

theorem getElem?_load {i : Nat} (hi : i < n) : (m.load a n)[i]? = some (m (a + i)) := by
  induction n generalizing a i with
  | zero => exact absurd hi (Nat.not_lt_zero i)
  | succ n ih =>
    cases i with
    | zero => rfl
    | succ i =>
      rw [load, List.getElem?_cons_succ, ih (by omega)]
      congr 2
      omega

/-- A load depends on its range only. -/
theorem load_congr (h : ∀ x, a ≤ x → x < a + n → m x = m' x) : m.load a n = m'.load a n := by
  apply List.ext_getElem?
  intro i
  by_cases hi : i < n
  · rw [getElem?_load hi, getElem?_load hi, h _ (by omega) (by omega)]
  · rw [List.getElem?_eq_none (by rw [length_load]; omega),
      List.getElem?_eq_none (by rw [length_load]; omega)]

/-- What was stored loads back. -/
theorem load_store_self : (m.store a bs).load a bs.length = bs := by
  apply List.ext_getElem?
  intro i
  by_cases hi : i < bs.length
  · rw [getElem?_load hi, store, if_pos (by omega), Nat.add_sub_cancel_left,
      List.getD_eq_getElem?_getD, List.getElem?_eq_getElem hi, Option.getD_some]
  · rw [List.getElem?_eq_none (by rw [length_load]; omega), List.getElem?_eq_none (by omega)]

/-- A store leaves a disjoint range alone. -/
theorem load_store_disjoint (h : b + k ≤ a ∨ a + bs.length ≤ b) :
    (m.store a bs).load b k = m.load b k := by
  apply load_congr
  intro x hLo hHi
  rw [store, if_neg (by omega)]

theorem store_byte_self {b : UInt8} : m.store a [b] a = b := by
  rw [store, if_pos ⟨Nat.le_refl a, Nat.lt_succ_self a⟩, Nat.sub_self]
  rfl

theorem store_byte_of_ne {b : UInt8} {x : Nat} (h : x ≠ a) : m.store a [b] x = m x := by
  rw [store, List.length_singleton, if_neg (by omega)]

-- ---------------------------------------------------------------------------
-- Words
-- ---------------------------------------------------------------------------

theorem ofLE_lt (bs : Bytes) : ofLE bs < 256 ^ bs.length := by
  induction bs with
  | nil => exact Nat.one_pos
  | cons b bs ih =>
    have hb := b.toNat_lt
    rw [ofLE, List.length_cons, Nat.pow_succ]
    omega

theorem lduw_lt (m : Memory) (a : Nat) : m.lduw a < 65536 := by
  have hLt := ofLE_lt (m.load a 2)
  rw [length_load] at hLt
  exact hLt

theorem lduw_stw_self (h : v < 65536) : (m.stw a v).lduw a = v := by
  have hLoad := @load_store_self m a (toLE 2 v)
  rw [length_toLE] at hLoad
  rw [lduw, stw, hLoad]
  exact ofLE_toLE h

theorem ldl_stl_self (h : v < 4294967296) : (m.stl a v).ldl a = v := by
  have hLoad := @load_store_self m a (toLE 4 v)
  rw [length_toLE] at hLoad
  rw [ldl, stl, hLoad]
  exact ofLE_toLE h

theorem lduw_store (h : b + 2 ≤ a ∨ a + bs.length ≤ b) : (m.store a bs).lduw b = m.lduw b := by
  rw [lduw, lduw, load_store_disjoint h]

theorem ldl_store (h : b + 4 ≤ a ∨ a + bs.length ≤ b) : (m.store a bs).ldl b = m.ldl b := by
  rw [ldl, ldl, load_store_disjoint h]

theorem lduw_stw (h : b + 2 ≤ a ∨ a + 2 ≤ b) : (m.stw a v).lduw b = m.lduw b :=
  lduw_store (by rwa [length_toLE])

theorem ldl_stw (h : b + 4 ≤ a ∨ a + 2 ≤ b) : (m.stw a v).ldl b = m.ldl b :=
  ldl_store (by rwa [length_toLE])

theorem ldl_stl (h : b + 4 ≤ a ∨ a + 4 ≤ b) : (m.stl a v).ldl b = m.ldl b :=
  ldl_store (by rwa [length_toLE])

-- ---------------------------------------------------------------------------
-- Memories that differ in one range only
-- ---------------------------------------------------------------------------

/-- `m'` differs from `m` at most from address `lo` up to `hi`. -/
def Within (m m' : Memory) (lo hi : Nat) : Prop := ∀ x, x < lo ∨ hi ≤ x → m' x = m x

theorem within_refl (m : Memory) (lo hi : Nat) : Within m m lo hi := fun _ _ => rfl

variable {lo hi : Nat}

theorem Within.store (h : Within m m' lo hi) (hLo : lo ≤ a) (hHi : a + bs.length ≤ hi) :
    Within m (m'.store a bs) lo hi := by
  intro x hx
  rw [Memory.store, if_neg (by omega), h x hx]

theorem Within.stw (h : Within m m' lo hi) (hLo : lo ≤ a) (hHi : a + 2 ≤ hi) :
    Within m (m'.stw a v) lo hi :=
  h.store hLo (by rwa [length_toLE])

theorem Within.stl (h : Within m m' lo hi) (hLo : lo ≤ a) (hHi : a + 4 ≤ hi) :
    Within m (m'.stl a v) lo hi :=
  h.store hLo (by rwa [length_toLE])

theorem Within.mono {lo' hi' : Nat} (h : Within m m' lo hi) (hLo : lo' ≤ lo) (hHi : hi ≤ hi') :
    Within m m' lo' hi' :=
  fun x hx => h x (by omega)

/-- A load outside the range sees no difference. -/
theorem Within.load (h : Within m m' lo hi) (hOut : b + k ≤ lo ∨ hi ≤ b) :
    m'.load b k = m.load b k :=
  load_congr fun x hLo hHi => h x (by omega)

theorem Within.lduw (h : Within m m' lo hi) (hOut : b + 2 ≤ lo ∨ hi ≤ b) : m'.lduw b = m.lduw b :=
  congrArg ofLE (h.load hOut)

theorem Within.ldl (h : Within m m' lo hi) (hOut : b + 4 ≤ lo ∨ hi ≤ b) : m'.ldl b = m.ldl b :=
  congrArg ofLE (h.load hOut)

end Memory

end Octets
