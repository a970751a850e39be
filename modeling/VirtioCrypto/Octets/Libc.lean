import VirtioCrypto.Octets.CString

/-!
# Libc — what a C program sees of its library

Blocks from `malloc` and `realloc`, strings behind pointers, `vsnprintf` in its two
historical conventions, and the strings successive calls of `fgets` read. What the library
does not promise stays open: whether a request for memory is granted and what a new block
holds (`Heap`).

An `int` that leaves its range, a pointer that does not point to a string and a loop that has
not ended are errors of their own (`Ub`), never results.

* `printed_expansion` — what `vsnprintf` leaves in a block large enough;
* `fgets_flatten` — the strings read are the stream, cut.
-/

namespace Libc

open Octets

/-- The largest `int`. -/
def INT_MAX : Nat := 2 ^ 31 - 1

/-- What is not a result. -/
inductive Ub
  | overflow
  | badPointer
  | looping
deriving DecidableEq, Repr

-- ---------------------------------------------------------------------------
-- Memory
-- ---------------------------------------------------------------------------

/-- The allocator: whether a request is granted, and what is in the new bytes. The first
argument counts the requests. -/
structure Heap where
  grant : Nat → Nat → Bool
  fill : Nat → Nat → UInt8

namespace Heap

def fresh (h : Heap) (clock n : Nat) : Bytes := (List.range n).map (h.fill clock)

def malloc (h : Heap) (clock size : Nat) : Option Bytes :=
  if h.grant clock size then some (h.fresh clock size) else none

/-- The old bytes are kept as far as there is room for them. -/
def realloc (h : Heap) (clock size : Nat) (p : Bytes) : Option Bytes :=
  if h.grant clock size then some (p.take size ++ h.fresh clock (size - p.length)) else none

/-- Every request an `int` can ask for is granted. -/
def Grants (h : Heap) : Prop := ∀ clock size, size ≤ INT_MAX → h.grant clock size = true

@[simp] theorem length_fresh (h : Heap) (clock n : Nat) : (h.fresh clock n).length = n := by
  simp [fresh]

theorem Grants.malloc {h : Heap} (hGrants : h.Grants) (clock : Nat) {size : Nat}
    (hSize : size ≤ INT_MAX) : ∃ p, h.malloc clock size = some p ∧ p.length = size :=
  ⟨h.fresh clock size, by simp [Heap.malloc, hGrants clock size hSize], by simp⟩

theorem Grants.realloc {h : Heap} (hGrants : h.Grants) (clock : Nat) {size : Nat}
    (hSize : size ≤ INT_MAX) {p : Bytes} (hp : p.length ≤ size) :
    ∃ p', h.realloc clock size p = some p' ∧ p'.length = size := by
  refine ⟨p.take size ++ h.fresh clock (size - p.length), ?_, ?_⟩
  · simp [Heap.realloc, hGrants clock size hSize]
  · rw [List.length_append, List.length_take, length_fresh]
    omega

end Heap

/-- A `char *`: NULL, an address nothing is known about, or the bytes from it to the end of
its object. -/
inductive Ptr
  | null
  | wild
  | block (bytes : Bytes)
deriving DecidableEq, Repr

namespace Ptr

/-- What `%s` prints: the library has a text for NULL. -/
def str : Ptr → Except Ub Bytes
  | .null => .ok [40, 110, 117, 108, 108, 41]
  | .wild => .error .badPointer
  | .block bytes =>
    match cstr bytes with
    | none => .error .badPointer
    | some s => .ok s

/-- The pointer is to the string `s`. -/
def Holds (p : Ptr) (s : Bytes) : Prop := ∃ bytes, p = .block bytes ∧ cstr bytes = some s

theorem Holds.str {p : Ptr} {s : Bytes} (h : p.Holds s) : p.str = .ok s := by
  obtain ⟨bytes, rfl, hStr⟩ := h
  simp [Ptr.str, hStr]

theorem Holds.unique {p : Ptr} {s t : Bytes} (hs : p.Holds s) (ht : p.Holds t) : s = t := by
  have hEq := hs.str.symm.trans ht.str
  exact Except.ok.inj hEq

end Ptr

-- ---------------------------------------------------------------------------
-- vsnprintf
-- ---------------------------------------------------------------------------

/-- What `vsnprintf` returns for an expansion that does not fit: the length it would have
had, or -1. -/
inductive Convention
  | c99
  | glibc20
deriving DecidableEq, Repr

/-- The result of `vsnprintf` for an expansion of `len` bytes. A length that is no `int`
is an error in either convention. -/
def vsnprintf (size len : Nat) : Convention → Int
  | .c99 => if len ≤ INT_MAX then len else -1
  | .glibc20 => if len < size then len else -1

/-- What `vsnprintf` leaves in a block of `size` bytes: as much of the expansion as fits,
terminated. -/
def printed (p : Bytes) (size : Nat) (e : Bytes) : Bytes := patch p 0 (e.take (size - 1) ++ [0])

theorem vsnprintf_fits {size len : Nat} (conv : Convention) (hFit : len < size)
    (hInt : len ≤ INT_MAX) : vsnprintf size len conv = len := by
  cases conv with
  | c99 => exact if_pos hInt
  | glibc20 => exact if_pos hFit

/-- With room for the expansion and its terminator, the block starts with both. -/
theorem printed_expansion {p e : Bytes} (hFit : e.length < p.length) :
    e ++ [0] <+: printed p p.length e := by
  have hTake : e.take (p.length - 1) = e := List.take_of_length_le (by omega)
  rw [printed, hTake, patch]
  simp

theorem length_printed {p e : Bytes} (hPos : 0 < p.length) :
    (printed p p.length e).length = p.length := by
  refine length_patch ?_
  simp only [List.length_append, List.length_take, List.length_singleton]
  omega

-- ---------------------------------------------------------------------------
-- fgets
-- ---------------------------------------------------------------------------

/-- The strings read by successive calls of `fgets` that each take up to `n` characters;
`left` is what the current one may still take. A newline ends a string. -/
def fgets (n : Nat) : Nat → Bytes → List Bytes
  | _, [] => []
  | left, a :: rest =>
    if a = 10 ∨ left ≤ 1 then [a] :: fgets n n rest
    else
      match fgets n (left - 1) rest with
      | [] => [[a]]
      | s :: more => (a :: s) :: more

theorem fgets_flatten (n : Nat) (o : Bytes) (left : Nat) : (fgets n left o).flatten = o := by
  induction o generalizing left with
  | nil => rfl
  | cons a rest ih =>
    rw [fgets]
    split
    · rw [List.flatten_cons, ih, List.singleton_append]
    · have hRest := ih (left - 1)
      cases hRead : fgets n (left - 1) rest with
      | nil =>
        rw [hRead] at hRest
        simpa using hRest.symm
      | cons s more =>
        rw [hRead] at hRest
        rw [← hRest]
        rfl

/-- There is something to read exactly when the stream is not empty. -/
theorem fgets_eq_nil_iff {n left : Nat} {o : Bytes} : fgets n left o = [] ↔ o = [] := by
  constructor
  · intro h
    rw [← fgets_flatten n o left, h, List.flatten_nil]
  · rintro rfl
    rfl

end Libc
