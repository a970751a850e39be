import Mathlib.Data.List.Basic

/-!
# Ring buffers with free-running indices

A ring of `n` slots shared by a producer and a consumer. Each has an index that is only ever
incremented, modulo `m`, and the slot of an index is its residue modulo `n`. `n` divides `m`,
so the wrap of an index does not disturb the slots.

`Holds n m slots head tail xs` says that the entries between the two indices are the list
`xs`. The producer appends to that list and the consumer takes its first element; nothing
else about the ring is needed by its clients.

* `Holds.distance` — the difference of the indices is the number of entries;
* `Holds.first`, `Holds.take` — what the consumer finds and leaves;
* `Holds.append` — what the producer leaves;
* `Holds.congr` — only the slots matter.
-/

namespace Ring

variable {α : Type} {n m : Nat} {slots slots' : Nat → α} {head tail : Nat} {x : α} {xs : List α}

/-- The entries of a ring, oldest first. `c` is the number of entries ever consumed. -/
def Holds (n m : Nat) (slots : Nat → α) (head tail : Nat) (xs : List α) : Prop :=
  ∃ c, head = c % m ∧ tail = (c + xs.length) % m ∧ xs.length ≤ n ∧
    ∀ i < xs.length, xs[i]? = some (slots ((c + i) % n))

/-- The sizes that go together. -/
structure Sizes (n m : Nat) : Prop where
  pos : 0 < n
  dvd : n ∣ m
  lt : n < m

theorem Sizes.mod_mod (h : Sizes n m) (c : Nat) : c % m % n = c % n :=
  Nat.mod_mod_of_dvd c h.dvd

theorem holds_nil (slots : Nat → α) (c : Nat) : Holds n m slots (c % m) (c % m) [] :=
  ⟨c, rfl, rfl, Nat.zero_le n, fun _ hi => absurd hi (Nat.not_lt_zero _)⟩

/-- The distance of two indices modulo `m`, when the true one is below `m`. -/
theorem distance_eq {c d : Nat} (hPos : 0 < m) (hd : d < m) :
    ((c + d) % m + (m - c % m)) % m = d := by
  have hc : c % m < m := Nat.mod_lt _ hPos
  rw [Nat.mod_add_mod]
  have hSplit : c + d + (m - c % m) = d + m * (c / m + 1) := by
    have := Nat.div_add_mod c m
    rw [Nat.mul_add]
    omega
  rw [hSplit, Nat.add_mul_mod_self_left, Nat.mod_eq_of_lt hd]

/-- The indices tell how many entries there are. -/
theorem Holds.distance (hSizes : Sizes n m) (h : Holds n m slots head tail xs) :
    (tail + (m - head)) % m = xs.length := by
  obtain ⟨c, rfl, rfl, hLen, -⟩ := h
  have hLt := hSizes.lt
  exact distance_eq (by omega) (by omega)

/-- The indices are equal exactly when there is no entry. -/
theorem Holds.eq_iff_nil (hSizes : Sizes n m) (h : Holds n m slots head tail xs) :
    tail = head ↔ xs = [] := by
  constructor
  · rintro rfl
    have hDist := h.distance hSizes
    obtain ⟨c, hc, -, -⟩ := h
    have hPos : 0 < m := Nat.lt_of_lt_of_le hSizes.pos (Nat.le_of_lt hSizes.lt)
    have hLt : tail < m := hc ▸ Nat.mod_lt _ hPos
    rw [Nat.add_sub_of_le (Nat.le_of_lt hLt), Nat.mod_self] at hDist
    exact List.length_eq_zero_iff.mp hDist.symm
  · rintro rfl
    obtain ⟨c, rfl, rfl, -⟩ := h
    rfl

/-- The entry the consumer finds. -/
theorem Holds.first (hSizes : Sizes n m) (h : Holds n m slots head tail (x :: xs)) :
    slots (head % n) = x := by
  obtain ⟨c, rfl, -, -, hAt⟩ := h
  have hZero := hAt 0 (by simp)
  rw [hSizes.mod_mod]
  simpa using hZero.symm

/-- The consumer has taken the first entry. -/
theorem Holds.take (h : Holds n m slots head tail (x :: xs)) :
    Holds n m slots ((head + 1) % m) tail xs := by
  obtain ⟨c, rfl, rfl, hLen, hAt⟩ := h
  refine ⟨c + 1, by rw [Nat.mod_add_mod], ?_, ?_, ?_⟩
  · rw [List.length_cons]
    congr 1
    omega
  · rw [List.length_cons] at hLen
    omega
  · intro i hi
    have hNext := hAt (i + 1) (by simpa using hi)
    rw [List.getElem?_cons_succ] at hNext
    rw [hNext, Nat.add_right_comm, Nat.add_assoc]

/-- Entries within `n` of each other have different slots. -/
theorem slot_ne {c i j : Nat} (hi : i < j) (hj : j < i + n) : (c + i) % n ≠ (c + j) % n := by
  intro hEq
  have hDvd : n ∣ (c + j) - (c + i) :=
    Nat.dvd_of_mod_eq_zero (Nat.sub_mod_eq_zero_of_mod_eq hEq.symm)
  have := Nat.le_of_dvd (by omega) hDvd
  omega

/-- The producer has written an entry at its slot and moved on. -/
theorem Holds.append (hSizes : Sizes n m) (h : Holds n m slots head tail xs)
    (hRoom : xs.length < n) (hNew : slots' (tail % n) = x)
    (hOld : ∀ i < n, i ≠ tail % n → slots' i = slots i) :
    Holds n m slots' head ((tail + 1) % m) (xs ++ [x]) := by
  obtain ⟨c, rfl, rfl, -, hAt⟩ := h
  rw [hSizes.mod_mod] at hNew hOld
  refine ⟨c, rfl, ?_, ?_, ?_⟩
  · rw [Nat.mod_add_mod, List.length_append, Nat.add_assoc]
    rfl
  · rw [List.length_append]
    exact hRoom
  · intro i hi
    rw [List.length_append, List.length_singleton] at hi
    by_cases hLast : i = xs.length
    · subst hLast
      rw [List.getElem?_concat_length, hNew]
    · have hBefore : i < xs.length := by omega
      rw [List.getElem?_append_left hBefore, hAt i hBefore,
        hOld _ (Nat.mod_lt _ hSizes.pos) (slot_ne hBefore (by omega))]

/-- The same ring over slots that read the same. -/
theorem Holds.congr (hSizes : Sizes n m) (h : Holds n m slots head tail xs)
    (hSame : ∀ i < n, slots' i = slots i) : Holds n m slots' head tail xs := by
  obtain ⟨c, hHead, hTail, hLen, hAt⟩ := h
  refine ⟨c, hHead, hTail, hLen, fun i hi => ?_⟩
  rw [hAt i hi, hSame _ (Nat.mod_lt _ hSizes.pos)]

theorem Holds.head_lt (hSizes : Sizes n m) (h : Holds n m slots head tail xs) : head < m := by
  obtain ⟨c, rfl, -, -, -⟩ := h
  exact Nat.mod_lt _ (Nat.lt_of_lt_of_le hSizes.pos (Nat.le_of_lt hSizes.lt))

end Ring
