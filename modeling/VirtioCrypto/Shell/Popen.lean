import VirtioCrypto.Octets.Libc
import Mathlib.Data.List.TakeWhile

/-!
# Shell — the output of a command as a string

`run-popen.c`: `make_message` prints into a block that it makes larger until the text fits,
and `run_popen` collects what a command prints, two characters at a time, by printing what it
has and the next characters into a new block. The local `buffer` it starts from is never
set: its first value is what the stack holds.

* `makeMessage_ends`     — the text, its terminator and its length, in either convention of
  `vsnprintf`, without an overflow of `size`;
* `makeMessage_overflow` — from where on `size` does overflow;
* `runPopen_output_iff`  — the output comes back exactly when the stale `buffer` happens to
  be the empty string.
-/

namespace VirtioCrypto.Shell

open Octets Libc

-- ---------------------------------------------------------------------------
-- make_message
-- ---------------------------------------------------------------------------

/-- What `make_message` returns, NULL as `none`, with `*msgsize` and the number of
allocations so far. -/
structure Made where
  buffer : Option Bytes
  msgsize : Int
  clock : Nat
deriving DecidableEq

/-- The loop of `make_message` on the expansion `e`, with `p` of `size` bytes. -/
def retry (conv : Convention) (heap : Heap) (e : Bytes) : Nat → Nat → Nat → Bytes → Except Ub Made
  | 0, _, _, _ => .error .looping
  | fuel + 1, clock, size, p =>
    let n := vsnprintf size e.length conv
    let p := printed p size e
    if -1 < n ∧ n < size then .ok ⟨some p, n, clock⟩
    else
      -- glibc 2.1: precisely what is needed; glibc 2.0: twice the old size
      let next := if -1 < n then n.toNat + 1 else size * 2
      if INT_MAX < next then .error .overflow
      else
        match heap.realloc clock next p with
        | none => .ok ⟨none, n, clock + 1⟩
        | some np => retry conv heap e fuel (clock + 1) next np

/-- `make_message` with a format that expands to `e`; `msgsize` is what `*msgsize` was. -/
def makeMessage (conv : Convention) (heap : Heap) (fuel clock : Nat) (msgsize : Int) (e : Bytes) :
    Except Ub Made :=
  match heap.malloc clock 1 with
  | none => .ok ⟨none, msgsize, clock + 1⟩
  | some p => retry conv heap e fuel (clock + 1) 1 p

/-- The result is the text `e` with its terminator and its length. -/
def Made.Exact (m : Made) (e : Bytes) : Prop :=
  (∃ buf, m.buffer = some buf ∧ e ++ [0] <+: buf) ∧ m.msgsize = e.length

/-- The lengths `make_message` can deal with are those below: in one convention `size` has to
reach the length and one more, in the other the next power of two. -/
def longest : Convention → Nat
  | .c99 => INT_MAX
  | .glibc20 => 2 ^ 30

variable {conv : Convention} {heap : Heap} {e : Bytes}

/-- A turn with room enough is the last. -/
theorem retry_fits {size : Nat} {p : Bytes} (hFit : e.length < size)
    (hInt : e.length ≤ INT_MAX) (fuel clock : Nat) :
    retry conv heap e (fuel + 1) clock size p = .ok ⟨some (printed p size e), e.length, clock⟩ := by
  have hDone : -1 < (e.length : Int) ∧ (e.length : Int) < size := by omega
  rw [retry]
  simp only [vsnprintf_fits conv hFit hInt]
  exact if_pos hDone

/-- A turn that is told the length goes on with one byte more than that. -/
theorem retry_told {size : Nat} {p : Bytes} (hTold : vsnprintf size e.length conv = e.length)
    (hShort : size ≤ e.length) (fuel clock : Nat) :
    retry conv heap e (fuel + 1) clock size p =
      if INT_MAX < e.length + 1 then .error .overflow
      else
        match heap.realloc clock (e.length + 1) (printed p size e) with
        | none => .ok ⟨none, e.length, clock + 1⟩
        | some np => retry conv heap e fuel (clock + 1) (e.length + 1) np := by
  have hMore : ¬ (-1 < (e.length : Int) ∧ (e.length : Int) < size) := by omega
  have hNext : (if -1 < (e.length : Int) then (e.length : Int).toNat + 1 else size * 2) =
      e.length + 1 := by
    rw [if_pos (by omega), Int.toNat_natCast]
  rw [retry]
  simp only [hTold]
  rw [if_neg hMore, hNext]

/-- A turn that is told nothing goes on with twice the size. -/
theorem retry_untold {size : Nat} {p : Bytes} (hUntold : vsnprintf size e.length conv = -1)
    (fuel clock : Nat) :
    retry conv heap e (fuel + 1) clock size p =
      if INT_MAX < size * 2 then .error .overflow
      else
        match heap.realloc clock (size * 2) (printed p size e) with
        | none => .ok ⟨none, -1, clock + 1⟩
        | some np => retry conv heap e fuel (clock + 1) (size * 2) np := by
  have hMore : ¬ ((-1 : Int) < -1 ∧ (-1 : Int) < size) := by omega
  rw [retry]
  simp only [hUntold]
  rw [if_neg hMore]
  rfl

theorem exact_of_fits {p : Bytes} (hFit : e.length < p.length) (clock : Nat) :
    Made.Exact ⟨some (printed p p.length e), e.length, clock⟩ e :=
  ⟨⟨_, rfl, printed_expansion hFit⟩, rfl⟩

/-- Told the length, two turns do. -/
theorem retry_c99 (hGrants : heap.Grants) (hLen : e.length < INT_MAX) {fuel : Nat} (hFuel : 2 ≤ fuel)
    (clock : Nat) {p : Bytes} (hp : p.length = 1) :
    ∃ m, retry .c99 heap e fuel clock 1 p = .ok m ∧ m.Exact e := by
  obtain ⟨fuel, rfl⟩ : ∃ k, fuel = k + 2 := ⟨fuel - 2, by omega⟩
  by_cases hFit : e.length < 1
  · refine ⟨_, retry_fits hFit (Nat.le_of_lt hLen) (fuel + 1) clock, ?_⟩
    rw [← hp]
    exact exact_of_fits (by omega) clock
  · have hTold : vsnprintf 1 e.length .c99 = e.length := if_pos (Nat.le_of_lt hLen)
    have hPrinted : (printed p 1 e).length ≤ e.length + 1 := by
      have := length_printed (p := p) (e := e) (by omega)
      rw [hp] at this
      omega
    have hInt : e.length + 1 ≤ INT_MAX := hLen
    obtain ⟨np, hRealloc, hSize⟩ := hGrants.realloc clock hInt hPrinted
    rw [retry_told hTold (by omega), if_neg (by omega), hRealloc]
    refine ⟨_, retry_fits (Nat.lt_add_one _) (Nat.le_of_lt hLen) fuel (clock + 1), ?_⟩
    rw [← hSize]
    exact exact_of_fits (by omega) (clock + 1)

/-- Told nothing below the largest power of two, the next size is the next power. -/
theorem retry_doubles (hGrants : heap.Grants) {j : Nat} (hj : j < 30)
    (hUntold : vsnprintf (2 ^ j) e.length conv = -1) (fuel clock : Nat) {p : Bytes}
    (hp : p.length = 2 ^ j) :
    ∃ np : Bytes, np.length = 2 ^ (j + 1) ∧
      retry conv heap e (fuel + 1) clock (2 ^ j) p =
        retry conv heap e fuel (clock + 1) (2 ^ (j + 1)) np := by
  have hSmall : 2 ^ (j + 1) ≤ INT_MAX :=
    (Nat.pow_le_pow_right (by decide) hj).trans (by decide : 2 ^ 30 ≤ INT_MAX)
  have hPrinted : (printed p (2 ^ j) e).length ≤ 2 ^ (j + 1) := by
    have hSame := length_printed (p := p) (e := e) (hp ▸ Nat.two_pow_pos j)
    rw [hp] at hSame
    rw [hSame, Nat.pow_succ]
    omega
  obtain ⟨np, hRealloc, hSize⟩ := hGrants.realloc clock hSmall hPrinted
  refine ⟨np, hSize, ?_⟩
  rw [retry_untold hUntold, ← Nat.pow_succ, if_neg (Nat.not_lt.mpr hSmall), hRealloc]

/-- Told nothing, the sizes are the powers of two, up to the first above the length. -/
theorem retry_glibc20 (hGrants : heap.Grants) (hLen : e.length < 2 ^ 30) {fuel j : Nat} (hj : j ≤ 30)
    (hFuel : 31 ≤ fuel + j) (clock : Nat) {p : Bytes} (hp : p.length = 2 ^ j) :
    ∃ m, retry .glibc20 heap e fuel clock (2 ^ j) p = .ok m ∧ m.Exact e := by
  induction fuel generalizing j clock p with
  | zero => omega
  | succ fuel ih =>
    by_cases hFit : e.length < 2 ^ j
    · have hInt : e.length ≤ INT_MAX := by
        unfold INT_MAX
        omega
      refine ⟨_, retry_fits hFit hInt fuel clock, ?_⟩
      rw [← hp]
      exact exact_of_fits (hp ▸ hFit) clock
    · -- too short, so this is not the last power yet
      have hLt : j < 30 := by
        refine Nat.lt_of_le_of_ne hj ?_
        rintro rfl
        exact hFit hLen
      have hUntold : vsnprintf (2 ^ j) e.length .glibc20 = -1 := if_neg hFit
      obtain ⟨np, hSize, hTurn⟩ := retry_doubles hGrants hLt hUntold fuel clock hp
      rw [hTurn]
      exact ih hLt (by omega) (clock + 1) hSize

/-- Never told a length that fits, `size` doubles until it overflows. -/
theorem retry_overflow (hGrants : heap.Grants)
    (hUntold : ∀ i ≤ 30, vsnprintf (2 ^ i) e.length conv = -1) {fuel j : Nat} (hj : j ≤ 30)
    (hFuel : 31 ≤ fuel + j) (clock : Nat) {p : Bytes} (hp : p.length = 2 ^ j) :
    retry conv heap e fuel clock (2 ^ j) p = .error .overflow := by
  induction fuel generalizing j clock p with
  | zero => omega
  | succ fuel ih =>
    rcases Nat.lt_or_ge j 30 with hLt | hGe
    · obtain ⟨np, hSize, hTurn⟩ := retry_doubles hGrants hLt (hUntold j hj) fuel clock hp
      rw [hTurn]
      exact ih hLt (by omega) (clock + 1) hSize
    · obtain rfl : j = 30 := Nat.le_antisymm hj hGe
      rw [retry_untold (hUntold 30 hj)]
      exact if_pos (by decide)

/-- Below the longest text of its convention, `make_message` succeeds. -/
theorem makeMessage_exact (hGrants : heap.Grants) (hLen : e.length < longest conv) {fuel : Nat}
    (hFuel : 31 ≤ fuel) (clock : Nat) (msgsize : Int) :
    ∃ m, makeMessage conv heap fuel clock msgsize e = .ok m ∧ m.Exact e := by
  obtain ⟨p, hMalloc, hp⟩ := hGrants.malloc clock (by decide : 1 ≤ INT_MAX)
  rw [makeMessage, hMalloc]
  cases conv with
  | c99 => exact retry_c99 hGrants hLen (by omega) (clock + 1) hp
  | glibc20 => exact retry_glibc20 (j := 0) hGrants hLen (by decide) hFuel (clock + 1) hp

/-- **Beyond.** From that length on, `size` overflows. -/
theorem makeMessage_overflow (hGrants : heap.Grants) (hLen : longest conv ≤ e.length) {fuel : Nat}
    (hFuel : 31 ≤ fuel) (clock : Nat) (msgsize : Int) :
    makeMessage conv heap fuel clock msgsize e = .error .overflow := by
  obtain ⟨p, hMalloc, hp⟩ := hGrants.malloc clock (by decide : 1 ≤ INT_MAX)
  rw [makeMessage, hMalloc]
  have hDouble : (∀ i ≤ 30, vsnprintf (2 ^ i) e.length conv = -1) →
      retry conv heap e fuel (clock + 1) 1 p = .error .overflow := fun hUntold =>
    retry_overflow (j := 0) hGrants hUntold (by decide) hFuel (clock + 1) hp
  cases conv with
  | c99 =>
    by_cases hInt : e.length ≤ INT_MAX
    · -- the length is told, and one more is too much
      obtain ⟨fuel, rfl⟩ : ∃ k, fuel = k + 1 := ⟨fuel - 1, by omega⟩
      have hEq : e.length = INT_MAX := Nat.le_antisymm hInt hLen
      have hTold : vsnprintf 1 e.length .c99 = e.length := if_pos hInt
      have hShort : 1 ≤ e.length := by
        rw [hEq]
        decide
      exact (retry_told hTold hShort fuel (clock + 1)).trans (if_pos (by omega))
    · exact hDouble fun _ _ => if_neg hInt
  | glibc20 =>
    refine hDouble fun i hi => if_neg (Nat.not_lt.mpr ?_)
    exact (Nat.pow_le_pow_right (by decide) hi).trans hLen

/-- **`make_message`.** For an expansion of fewer than 2^30 bytes and an allocator that grants
its requests, in either convention the loop ends after at most 31 turns, without an overflow;
the block starts with the text and its terminator, and `*msgsize` is the text's length. -/
theorem makeMessage_ends (conv : Convention) {heap : Heap} (hGrants : heap.Grants) {e : Bytes}
    (hLen : e.length < 2 ^ 30) {fuel : Nat} (hFuel : 31 ≤ fuel) (clock : Nat) (msgsize : Int) :
    ∃ m buf, makeMessage conv heap fuel clock msgsize e = .ok m ∧ m.buffer = some buf ∧
      e ++ [0] <+: buf ∧ m.msgsize = e.length := by
  have hLongest : 2 ^ 30 ≤ longest conv := by cases conv <;> decide
  obtain ⟨m, hMade, ⟨buf, hBuf, hPrefix⟩, hSize⟩ :=
    makeMessage_exact hGrants (Nat.lt_of_lt_of_le hLen hLongest) hFuel clock msgsize
  exact ⟨m, buf, hMade, hBuf, hPrefix, hSize⟩

/-- An allocator that grants everything, with old bytes in its blocks. -/
def generous : Heap := ⟨fun _ _ => true, fun _ _ => 255⟩

theorem generous_grants : generous.Grants := fun _ _ _ => rfl

theorem makeMessage_ends_hello :
    makeMessage .glibc20 generous 31 0 7 [104, 101, 108, 108, 111] =
        .ok ⟨some [104, 101, 108, 108, 111, 0, 255, 255], 5, 4⟩ ∧
      ∃ m buf, makeMessage .c99 generous 31 0 7 [104, 101, 108, 108, 111] = .ok m ∧
        m.buffer = some buf ∧ [104, 101, 108, 108, 111] ++ [0] <+: buf ∧ m.msgsize = 5 :=
  ⟨by decide, makeMessage_ends .c99 generous_grants (by decide) (Nat.le_refl 31) 0 7⟩

-- ---------------------------------------------------------------------------
-- run_popen
-- ---------------------------------------------------------------------------

/-- `MSG_SIZE` of `run-popen.c`, the size of `path`. -/
def PATH_SIZE : Nat := 4

/-- `buffer`, `*msgsize`, and the number of allocations so far. -/
structure Popen where
  buffer : Ptr
  msgsize : Int
  clock : Nat
deriving DecidableEq

/-- What `make_message` returns, as a pointer. -/
def Made.ptr (m : Made) : Ptr :=
  match m.buffer with
  | none => .null
  | some p => .block p

/-- `buffer = make_message(msgsize, "%s%s", buffer, path)`, with `piece` in `path`. -/
def appendPiece (conv : Convention) (heap : Heap) (fuel : Nat) (st : Popen) (piece : Bytes) :
    Except Ub Popen :=
  match st.buffer.str, (Ptr.block (piece ++ [0])).str with
  | .error u, _ => .error u
  | _, .error u => .error u
  | .ok s, .ok path =>
    match makeMessage conv heap fuel st.clock st.msgsize (s ++ path) with
    | .error u => .error u
    | .ok m => .ok ⟨m.ptr, m.msgsize, m.clock⟩

/-- The loop of `run_popen` over what `fgets` reads. -/
def readAll (conv : Convention) (heap : Heap) (fuel : Nat) : Popen → List Bytes → Except Ub Popen
  | st, [] => .ok st
  | st, piece :: pieces =>
    match appendPiece conv heap fuel st piece with
    | .error u => .error u
    | .ok st => readAll conv heap fuel st pieces

/-- `run_popen`. `buffer` is what the stack holds in its place; `popen` is the output of the
command, `none` when it cannot be started. `fgets` gets one byte less than `path` has, and
needs one for the terminator. -/
def runPopen (conv : Convention) (heap : Heap) (fuel : Nat) (st : Popen) (popen : Option Bytes) :
    Except Ub Popen :=
  match popen with
  | none => .ok { st with buffer := .null }
  | some o => readAll conv heap fuel st (fgets (PATH_SIZE - 2) (PATH_SIZE - 2) o)

/-- What `%s` makes of the characters of a piece: those before a NUL. -/
def pathStr (piece : Bytes) : Bytes := piece.takeWhile (· ≠ 0)

theorem str_path (piece : Bytes) : (Ptr.block (piece ++ [0])).str = .ok (pathStr piece) := by
  have hStr : cstr (piece ++ [0]) = some (pathStr piece) := by
    induction piece with
    | nil => rfl
    | cons a piece ih =>
      rw [List.cons_append, cstr]
      by_cases ha : a = 0
      · simp [pathStr, ha]
      · rw [if_neg ha, ih]
        simp [pathStr, ha]
  simp [Ptr.str, hStr]

theorem pathStr_eq {piece : Bytes} (h : 0 ∉ piece) : pathStr piece = piece := by
  refine List.takeWhile_eq_self_iff.mpr fun a ha => ?_
  have hNe : a ≠ 0 := fun hEq => h (hEq ▸ ha)
  simpa using hNe

theorem zero_notMem_pathStr (piece : Bytes) : 0 ∉ pathStr piece := by
  intro hMem
  simpa using List.mem_takeWhile_imp hMem

/-- A string printed by `%s` has no NUL. -/
theorem zero_notMem_str {p : Ptr} {s : Bytes} (h : p.str = .ok s) : 0 ∉ s := by
  cases p with
  | null =>
    obtain rfl := Except.ok.inj h
    decide
  | wild => exact absurd h (by simp [Ptr.str])
  | block bytes =>
    cases hStr : cstr bytes with
    | none => simp [Ptr.str, hStr] at h
    | some t =>
      obtain rfl : t = s := by simpa [Ptr.str, hStr] using h
      exact (cstr_eq_some_iff.mp hStr).1

/-- A piece is appended, if the text is not too long. -/
theorem appendPiece_ok {fuel : Nat} (hGrants : heap.Grants) (hFuel : 31 ≤ fuel) {st : Popen}
    {s : Bytes} (hStr : st.buffer.str = .ok s) (piece : Bytes)
    (hLen : (s ++ pathStr piece).length < longest conv) :
    ∃ st', appendPiece conv heap fuel st piece = .ok st' ∧
      st'.buffer.Holds (s ++ pathStr piece) ∧ st'.msgsize = (s ++ pathStr piece).length := by
  obtain ⟨m, hMade, ⟨buf, hBuf, hPrefix⟩, hSize⟩ :=
    makeMessage_exact hGrants hLen hFuel st.clock st.msgsize
  refine ⟨⟨m.ptr, m.msgsize, m.clock⟩, ?_, ⟨buf, by simp [Made.ptr, hBuf], ?_⟩, hSize⟩
  · simp only [appendPiece, hStr, str_path, hMade]
  · refine cstr_eq_some_iff.mpr ⟨?_, hPrefix⟩
    rw [List.mem_append, not_or]
    exact ⟨zero_notMem_str hStr, zero_notMem_pathStr piece⟩

/-- What an append that returns has found. -/
theorem appendPiece_inv {fuel : Nat} (hGrants : heap.Grants) (hFuel : 31 ≤ fuel) {st st' : Popen}
    {piece : Bytes} (h : appendPiece conv heap fuel st piece = .ok st') :
    ∃ s, st.buffer.str = .ok s ∧ (s ++ pathStr piece).length < longest conv ∧
      st'.buffer.Holds (s ++ pathStr piece) ∧ st'.msgsize = (s ++ pathStr piece).length := by
  cases hStr : st.buffer.str with
  | error u => simp [appendPiece, hStr] at h
  | ok s =>
    rcases Nat.lt_or_ge (s ++ pathStr piece).length (longest conv) with hLen | hLen
    · obtain ⟨t, hOk, hHolds, hSize⟩ := appendPiece_ok hGrants hFuel hStr piece hLen
      obtain rfl := Except.ok.inj (hOk.symm.trans h)
      exact ⟨s, rfl, hLen, hHolds, hSize⟩
    · have hOver := makeMessage_overflow hGrants hLen hFuel st.clock st.msgsize
      simp [appendPiece, hStr, str_path, hOver] at h

/-- What `%s` makes of a number of pieces. -/
def text (pieces : List Bytes) : Bytes := (pieces.map pathStr).flatten

/-- Every piece is appended, if the text they add up to is not too long. -/
theorem readAll_ok {fuel : Nat} (hGrants : heap.Grants) (hFuel : 31 ≤ fuel) {pieces : List Bytes}
    (hSome : pieces ≠ []) {st : Popen} {s : Bytes} (hStr : st.buffer.str = .ok s)
    (hLen : (s ++ text pieces).length < longest conv) :
    ∃ st', readAll conv heap fuel st pieces = .ok st' ∧ st'.buffer.Holds (s ++ text pieces) ∧
      st'.msgsize = (s ++ text pieces).length := by
  induction pieces generalizing st s with
  | nil => exact absurd rfl hSome
  | cons piece pieces ih =>
    have hText : s ++ text (piece :: pieces) = (s ++ pathStr piece) ++ text pieces := by
      simp [text]
    rw [hText] at hLen ⊢
    have hFirst : (s ++ pathStr piece).length < longest conv := by
      rw [List.length_append] at hLen
      omega
    obtain ⟨st₁, hOk, hHolds, hSize⟩ := appendPiece_ok hGrants hFuel hStr piece hFirst
    simp only [readAll, hOk]
    cases pieces with
    | nil => exact ⟨st₁, rfl, by simpa [text] using hHolds, by simpa [text] using hSize⟩
    | cons next more => exact ih (by simp) hHolds.str hLen

/-- What a loop that returns has found. -/
theorem readAll_inv {fuel : Nat} (hGrants : heap.Grants) (hFuel : 31 ≤ fuel) {pieces : List Bytes}
    (hSome : pieces ≠ []) {st st' : Popen} (h : readAll conv heap fuel st pieces = .ok st') :
    ∃ s, st.buffer.str = .ok s ∧ (s ++ text pieces).length < longest conv ∧
      st'.buffer.Holds (s ++ text pieces) ∧ st'.msgsize = (s ++ text pieces).length := by
  induction pieces generalizing st with
  | nil => exact absurd rfl hSome
  | cons piece pieces ih =>
    simp only [readAll] at h
    cases hOne : appendPiece conv heap fuel st piece with
    | error u => simp [hOne] at h
    | ok st₁ =>
      simp only [hOne] at h
      obtain ⟨s, hStr, hLen, hHolds, hSize⟩ := appendPiece_inv hGrants hFuel hOne
      have hText : s ++ text (piece :: pieces) = (s ++ pathStr piece) ++ text pieces := by
        simp [text]
      refine ⟨s, hStr, ?_⟩
      rw [hText]
      cases pieces with
      | nil =>
        obtain rfl := Except.ok.inj h
        exact ⟨by simpa [text] using hLen, by simpa [text] using hHolds, by simpa [text] using hSize⟩
      | cons next more =>
        obtain ⟨t, hStr₁, hRest⟩ := ih (by simp) h
        obtain rfl : s ++ pathStr piece = t := Except.ok.inj (hHolds.str.symm.trans hStr₁)
        exact hRest

/-- Without a NUL in the output, nothing of it is lost to `%s`. -/
theorem text_fgets {n left : Nat} {o : Bytes} (h : 0 ∉ o) : text (fgets n left o) = o := by
  have hEach : ∀ piece ∈ fgets n left o, pathStr piece = id piece := by
    intro piece hPiece
    refine pathStr_eq fun hZero => h ?_
    rw [← fgets_flatten n o left]
    exact List.mem_flatten.mpr ⟨piece, hPiece, hZero⟩
  rw [text, List.map_congr_left hEach, List.map_id, fgets_flatten]

-- ---------------------------------------------------------------------------
-- The output and the stale pointer
-- ---------------------------------------------------------------------------

/-- `run_popen` returns the string `o` and its length. -/
def Returns (o : Bytes) (r : Except Ub Popen) : Prop :=
  ∃ st, r = .ok st ∧ st.buffer.Holds o ∧ st.msgsize = o.length

/-- **`run_popen`.** A command that prints `o` gets `o` and its length back exactly when the
stale `buffer` points to an empty string, the output is not too long for `make_message`, and,
if there is no output to set it, `*msgsize` was 0 already. -/
theorem runPopen_output_iff (conv : Convention) {heap : Heap} (hGrants : heap.Grants) {fuel : Nat}
    (hFuel : 31 ≤ fuel) (stale : Popen) {o : Bytes} (hNul : 0 ∉ o) :
    Returns o (runPopen conv heap fuel stale (some o)) ↔
      stale.buffer.Holds [] ∧ o.length < longest conv ∧ (o = [] → stale.msgsize = 0) := by
  unfold runPopen Returns
  by_cases hEmpty : o = []
  · subst hEmpty
    have hLongest : 0 < longest conv := by cases conv <;> decide
    constructor
    · rintro ⟨st, hOk, hHolds, hSize⟩
      obtain rfl := Except.ok.inj hOk
      exact ⟨hHolds, hLongest, fun _ => hSize⟩
    · rintro ⟨hHolds, _, hSize⟩
      exact ⟨stale, rfl, hHolds, hSize rfl⟩
  · have hSome : fgets (PATH_SIZE - 2) (PATH_SIZE - 2) o ≠ [] := fun h => hEmpty (fgets_eq_nil_iff.mp h)
    have hText : text (fgets (PATH_SIZE - 2) (PATH_SIZE - 2) o) = o := text_fgets hNul
    constructor
    · rintro ⟨st, hOk, hHolds, hSize⟩
      obtain ⟨s, hStr, hLen, hAll, _⟩ := readAll_inv hGrants hFuel hSome hOk
      rw [hText] at hAll hLen
      -- the string came back without anything in front of it
      obtain rfl : s = [] := by
        have hEq := hAll.unique hHolds
        simpa using hEq
      refine ⟨?_, hLen, fun h => absurd h hEmpty⟩
      cases hBuffer : stale.buffer with
      | null => simp [Ptr.str, hBuffer] at hStr
      | wild => simp [Ptr.str, hBuffer] at hStr
      | block bytes =>
        refine ⟨bytes, rfl, ?_⟩
        cases hCstr : cstr bytes with
        | none => simp [Ptr.str, hBuffer, hCstr] at hStr
        | some s => simpa [Ptr.str, hBuffer, hCstr] using hStr
    · rintro ⟨hHolds, hLen, _⟩
      have hFit : ([] ++ text (fgets (PATH_SIZE - 2) (PATH_SIZE - 2) o)).length < longest conv := by
        rw [hText]
        exact hLen
      obtain ⟨st, hOk, hAll, hSize⟩ := readAll_ok hGrants hFuel hSome hHolds.str hFit
      rw [List.nil_append, hText] at hAll hSize
      exact ⟨st, hOk, hAll, hSize⟩

/-- An empty string in place of `buffer`: `"hi\n!"` in three pieces. -/
theorem runPopen_output_hi :
    fgets 2 2 [104, 105, 10, 33] = [[104, 105], [10], [33]] ∧
      Returns [104, 105, 10, 33]
        (runPopen .c99 generous 31 ⟨.block [0], 9, 0⟩ (some [104, 105, 10, 33])) :=
  ⟨by decide,
    (runPopen_output_iff .c99 generous_grants (Nat.le_refl 31) ⟨.block [0], 9, 0⟩ (by decide)).mpr
      ⟨⟨[0], rfl, rfl⟩, by decide, by decide⟩⟩

/-- The string of an earlier call in place of `buffer` comes back in front of the output; with
an empty string there, the same command gives another result. -/
theorem runPopen_stale_string :
    (runPopen .c99 generous 31 ⟨.block [120, 0], 9, 0⟩ (some [104, 105])) =
        .ok ⟨.block [120, 104, 105, 0], 3, 2⟩ ∧
      (runPopen .c99 generous 31 ⟨.block [0], 9, 0⟩ (some [104, 105])) =
        .ok ⟨.block [104, 105, 0], 2, 2⟩ ∧
      ¬ Returns [104, 105] (runPopen .c99 generous 31 ⟨.block [120, 0], 9, 0⟩ (some [104, 105])) := by
  have hRun : runPopen .c99 generous 31 ⟨.block [120, 0], 9, 0⟩ (some [104, 105]) =
      .ok ⟨.block [120, 104, 105, 0], 3, 2⟩ := by
    decide
  refine ⟨hRun, by decide, ?_⟩
  rintro ⟨st, hOk, _, hSize⟩
  obtain rfl := Except.ok.inj (hRun.symm.trans hOk)
  exact absurd hSize (by decide)

end VirtioCrypto.Shell
