import VirtioCrypto.Shell.Server
import VirtioCrypto.Shell.Bounds

/-!
# Shell — the client's receive loop

The loop of `main.c` that reads a reply: read up to `ENC_SIZE` bytes, leave if the
last five of them are the end mark, pass the buffer to `decrypt_data` if they are
not, clear it, and go on while the read returned something. The stream is given by
what the successive reads return; after them `read` returns 0.

The end mark is looked for at `out_buffer[n - 5]` and after, whatever `n` is, and
every read that does not end in it is taken for a whole reply. A copy of
`decrypt_data` that leaves its array ends the run.

* `receive_eot` — a loop that stays inside `out_buffer` leaves at a read of five
  bytes or more that ends in the mark, and has passed on every read before it;
* `replyFramed_iff` — the replies that come through: those read as the ciphertext
  and the mark, of a ciphertext that does not itself end in the mark and that
  `decrypt_data` can handle;
* `torn_reply_misread` — the last byte of the ciphertext arrives with the mark.
-/

namespace VirtioCrypto.Shell

open Octets Cryptodev

/-- `out_buffer[i]`; outside of the array, what happens to lie there. -/
def readAt (stray : Int → UInt8) (buf : Bytes) (i : Int) : UInt8 :=
  if 0 ≤ i ∧ i < buf.length then buf.getD i.toNat 0 else stray i

/-- Compare the buffer from index `i` on with `bs`, up to the first byte that
differs: the indices looked at, and whether all were equal. -/
def matchAt (stray : Int → UInt8) (buf : Bytes) : Int → Bytes → List Int × Bool
  | _, [] => ([], true)
  | i, b :: bs =>
    if readAt stray buf i = b then
      (i :: (matchAt stray buf (i + 1) bs).1, (matchAt stray buf (i + 1) bs).2)
    else ([i], false)

/-- The test for the end mark after a read of `n` bytes. -/
def isEot (stray : Int → UInt8) (buf : Bytes) (n : Nat) : List Int × Bool :=
  matchAt stray buf (n - 5) EOT

/-- How the loop is left: at the end mark, after a read of nothing, or in the middle
of `decrypt_data`, at a copy that leaves its array. -/
inductive Left
  | eot
  | endOfStream
  | overrun
deriving DecidableEq

/-- A run of the loop: the indices of `out_buffer` it looked at, the buffers it
passed to `decrypt_data` with the number of bytes received by then, how it was
left, the reads it did not make, and the process afterwards. -/
structure Received where
  indices : List Int
  passed : List (Nat × Bytes)
  left : Left
  unread : List Bytes
  proc : Proc

/-- The loop after `got` bytes; `stray got` is the memory around `out_buffer`. -/
def receive (K : Kernel) (stray : Nat → Int → UInt8) : Proc → Nat → List Bytes → Received
  | p, got, [] =>
    match isEot (stray got) (zeros ENC_SIZE) 0 with
    | (seen, true) => ⟨seen, [], .eot, [], p⟩
    | (seen, false) =>
      match decryptData K p (zeros ENC_SIZE) (zeros MSG_SIZE) with
      | (p, none) => ⟨seen, [(got, zeros ENC_SIZE)], .overrun, [], p⟩
      | (p, some _) => ⟨seen, [(got, zeros ENC_SIZE)], .endOfStream, [], p⟩
  | p, got, chunk :: reads =>
    match isEot (stray got) (padTo ENC_SIZE chunk) chunk.length with
    | (seen, true) => ⟨seen, [], .eot, reads, p⟩
    | (seen, false) =>
      let here := (got + chunk.length, padTo ENC_SIZE chunk)
      match decryptData K p (padTo ENC_SIZE chunk) (zeros MSG_SIZE) with
      | (p, none) => ⟨seen, [here], .overrun, reads, p⟩
      | (p, some _) =>
        let rest := receive K stray p (got + chunk.length) reads
        ⟨seen ++ rest.indices, here :: rest.passed, rest.left, rest.unread, rest.proc⟩

/-- The loop read the reply `c` as it should: every index is inside the array, `c`
and nothing else is passed on, once it is all there, and the loop is left at the
end mark, or when the stream has ended before it. -/
structure ReplyFramed (K : Kernel) (p : Proc) (stray : Nat → Int → UInt8) (c : Bytes)
    (reads : List Bytes) : Prop where
  inBounds : ∀ i ∈ (receive K stray p 0 reads).indices, 0 ≤ i ∧ i < ENC_SIZE
  passed : (receive K stray p 0 reads).passed.map Prod.snd =
    if ENC_SIZE ≤ reads.flatten.length then [c] else []
  arrived : ∀ d ∈ (receive K stray p 0 reads).passed, ENC_SIZE ≤ d.1
  left : (receive K stray p 0 reads).left =
    if reads.flatten = c ++ EOT then .eot else .endOfStream
  unread : (receive K stray p 0 reads).unread = []

-- ---------------------------------------------------------------------------
-- The test for the end mark
-- ---------------------------------------------------------------------------

theorem mem_matchAt {stray : Int → UInt8} {buf bs : Bytes} {i j : Int}
    (h : j ∈ (matchAt stray buf i bs).1) : i ≤ j ∧ j < i + bs.length := by
  induction bs generalizing i with
  | nil => exact absurd h (by simp [matchAt])
  | cons b bs ih =>
    rw [matchAt] at h
    simp only [List.length_cons]
    split at h
    · rcases List.mem_cons.mp h with rfl | hRest
      · omega
      · have := ih hRest
        omega
    · obtain rfl := List.mem_singleton.mp h
      omega

theorem first_mem_matchAt {stray : Int → UInt8} {buf bs : Bytes} {i : Int} {b : UInt8} :
    i ∈ (matchAt stray buf i (b :: bs)).1 := by
  rw [matchAt]
  split <;> simp

/-- Inside the array the comparison is with the bytes of the buffer. -/
theorem matchAt_hit {stray : Int → UInt8} {buf bs : Bytes} {i : Nat}
    (h : i + bs.length ≤ buf.length) :
    (matchAt stray buf i bs).2 = true ↔ slice buf i bs.length = bs := by
  induction bs generalizing i with
  | nil => simp [matchAt, slice]
  | cons b bs ih =>
    simp only [List.length_cons] at h
    have hIn : i < buf.length := by omega
    have hRead : readAt stray buf i = buf[i] := by
      rw [readAt, if_pos (by omega), Int.toNat_natCast, List.getD_eq_getElem?_getD,
        List.getElem?_eq_getElem hIn, Option.getD_some]
    have hSlice : slice buf i (b :: bs).length = buf[i] :: slice buf (i + 1) bs.length := by
      rw [slice, List.drop_eq_getElem_cons hIn]
      rfl
    rw [matchAt, hRead, hSlice]
    by_cases hb : buf[i] = b
    · rw [if_pos hb, List.cons.injEq]
      simp only [hb, true_and]
      exact_mod_cast ih (i := i + 1) (by omega)
    · rw [if_neg hb]
      simp [hb]

theorem isEot_hit (stray : Int → UInt8) {chunk : Bytes} (h5 : 5 ≤ chunk.length)
    (hMax : chunk.length ≤ ENC_SIZE) :
    (isEot stray (padTo ENC_SIZE chunk) chunk.length).2 = true ↔ EOT <:+ chunk := by
  have hStart : ((chunk.length : Int) - 5) = ((chunk.length - 5 : Nat) : Int) := by omega
  have hLen : EOT.length = 5 := rfl
  rw [isEot, hStart, matchAt_hit (by rw [length_padTo hMax, hLen]; omega),
    List.suffix_iff_eq_drop, hLen, slice, padTo, List.drop_append_of_le_length (by omega),
    List.take_append_of_le_length (by rw [List.length_drop]; omega),
    List.take_of_length_le (by rw [List.length_drop]; omega)]
  exact eq_comm

/-- The test looks at `out_buffer[n - 5]` first. -/
theorem isEot_first (stray : Int → UInt8) (buf : Bytes) (n : Nat) :
    (n : Int) - 5 ∈ (isEot stray buf n).1 := first_mem_matchAt

-- ---------------------------------------------------------------------------
-- Runs that stay inside the array
-- ---------------------------------------------------------------------------

/-- What the loop passes on for reads that do not end in the mark. -/
def handed : Nat → List Bytes → List (Nat × Bytes)
  | _, [] => []
  | got, chunk :: reads =>
    (got + chunk.length, padTo ENC_SIZE chunk) :: handed (got + chunk.length) reads

theorem handed_snd (reads : List Bytes) :
    ∀ got, (handed got reads).map Prod.snd = reads.map (padTo ENC_SIZE) := by
  induction reads with
  | nil =>
    intro got
    rfl
  | cons chunk reads ih =>
    intro got
    rw [handed, List.map_cons, List.map_cons, ih]

variable {K : Kernel} {p : Proc} {stray : Nat → Int → UInt8}

/-- One turn on a read that is not empty. -/
theorem receive_cons (stray : Nat → Int → UInt8) (p : Proc) {got : Nat} {chunk : Bytes}
    {reads : List Bytes} (h5 : 5 ≤ chunk.length) (hMax : chunk.length ≤ ENC_SIZE) :
    receive K stray p got (chunk :: reads) =
      let seen := (isEot (stray got) (padTo ENC_SIZE chunk) chunk.length).1
      let here := (got + chunk.length, padTo ENC_SIZE chunk)
      let after := decryptData K p (padTo ENC_SIZE chunk) (zeros MSG_SIZE)
      let rest := receive K stray after.1 (got + chunk.length) reads
      if EOT <:+ chunk then ⟨seen, [], .eot, reads, p⟩
      else if after.2.isSome then
        ⟨seen ++ rest.indices, here :: rest.passed, rest.left, rest.unread, rest.proc⟩
      else ⟨seen, [here], .overrun, reads, after.1⟩ := by
  have hHit := isEot_hit (stray got) h5 hMax
  rw [receive]
  cases hEot : isEot (stray got) (padTo ENC_SIZE chunk) chunk.length with
  | mk seen hit =>
    rw [hEot] at hHit
    cases hit with
    | true => simp [hHit.mp rfl]
    | false =>
      have hMiss : ¬ EOT <:+ chunk := fun hEnd => absurd (hHit.mpr hEnd) (by simp)
      simp only [if_neg hMiss]
      generalize decryptData K p (padTo ENC_SIZE chunk) (zeros MSG_SIZE) = r
      obtain ⟨p', _ | out⟩ := r
      · simp
      · simp

/-- A loop that looks at no negative index, and whose decryptions stay in their
arrays, leaves at a read that ends in the mark, and passes on the ones before it,
which do not. -/
theorem receive_eot {reads : List Bytes} (hMax : ∀ f ∈ reads, f.length ≤ ENC_SIZE) :
    ∀ {p : Proc} {got : Nat}, (∀ i ∈ (receive K stray p got reads).indices, 0 ≤ i) →
      (receive K stray p got reads).left ≠ .overrun →
      ∃ before last, reads = before ++ last :: (receive K stray p got reads).unread ∧
        (receive K stray p got reads).passed = handed got before ∧
        (receive K stray p got reads).left = .eot ∧ (∀ f ∈ before, ¬ EOT <:+ f) := by
  induction reads with
  | nil =>
    intro p got hIn _
    -- `read` returned 0: the first index is -5
    have hFirst := isEot_first (stray got) (zeros ENC_SIZE) 0
    refine absurd (hIn (0 - 5) ?_) (by omega)
    rw [receive]
    generalize decryptData K p (zeros ENC_SIZE) (zeros MSG_SIZE) = r
    generalize isEot (stray got) (zeros ENC_SIZE) 0 = test at hFirst ⊢
    obtain ⟨seen, _ | _⟩ := test
    · obtain ⟨p', _ | out⟩ := r
      · exact hFirst
      · exact hFirst
    · exact hFirst
  | cons chunk reads ih =>
    intro p got hIn hNo
    have h5 : 5 ≤ chunk.length := by
      have hFirst := isEot_first (stray got) (padTo ENC_SIZE chunk) chunk.length
      have : 0 ≤ (chunk.length : Int) - 5 := by
        refine hIn _ ?_
        rw [receive]
        generalize decryptData K p (padTo ENC_SIZE chunk) (zeros MSG_SIZE) = r
        generalize isEot (stray got) (padTo ENC_SIZE chunk) chunk.length = test at hFirst ⊢
        obtain ⟨seen, _ | _⟩ := test
        · obtain ⟨p', _ | out⟩ := r
          · exact hFirst
          · exact List.mem_append_left _ hFirst
        · exact hFirst
      omega
    rw [receive_cons stray p h5 (hMax chunk (by simp))] at hIn hNo ⊢
    simp only at hIn hNo ⊢
    by_cases hEnd : EOT <:+ chunk
    · simp only [if_pos hEnd]
      exact ⟨[], chunk, rfl, rfl, trivial, by simp⟩
    · simp only [if_neg hEnd] at hIn hNo ⊢
      by_cases hDec : (decryptData K p (padTo ENC_SIZE chunk) (zeros MSG_SIZE)).2.isSome
      · simp only [if_pos hDec, List.mem_append] at hIn hNo ⊢
        obtain ⟨before, last, hReads, hPassed, hLeft, hBefore⟩ :=
          ih (fun f hf => hMax f (by simp [hf])) (fun i hi => hIn i (.inr hi)) hNo
        refine ⟨chunk :: before, last, ?_, ?_, hLeft, ?_⟩
        · exact congrArg (chunk :: ·) hReads
        · exact congrArg ((got + chunk.length, padTo ENC_SIZE chunk) :: ·) hPassed
        · intro f hf
          rcases List.mem_cons.mp hf with rfl | hf
          · exact hEnd
          · exact hBefore f hf
      · rw [if_neg hDec] at hNo
        exact absurd rfl hNo

theorem isEot_inBounds (stray : Int → UInt8) (buf : Bytes) {n : Nat} (h5 : 5 ≤ n)
    (hMax : n ≤ ENC_SIZE) : ∀ i ∈ (isEot stray buf n).1, 0 ≤ i ∧ i < ENC_SIZE := by
  intro i hi
  have hRange := mem_matchAt hi
  rw [show EOT.length = 5 from rfl] at hRange
  omega

-- ---------------------------------------------------------------------------
-- One reply
-- ---------------------------------------------------------------------------

/-- The loop passes `c` on when it is what the first read returned and does not end
in the mark; it goes on from there if `decrypt_data` can handle it. -/
theorem receive_whole {c : Bytes} {rest : List Bytes} (hc : c.length = ENC_SIZE)
    (hEnd : ¬ EOT <:+ c) :
    receive K stray p 0 (c :: rest) =
      let after := decryptData K p c (zeros MSG_SIZE)
      let next := receive K stray after.1 ENC_SIZE rest
      if after.2.isSome then
        ⟨(isEot (stray 0) c ENC_SIZE).1 ++ next.indices, (ENC_SIZE, c) :: next.passed, next.left,
          next.unread, next.proc⟩
      else ⟨(isEot (stray 0) c ENC_SIZE).1, [(ENC_SIZE, c)], .overrun, rest, after.1⟩ := by
  have hPad : padTo ENC_SIZE c = c := by
    rw [padTo, hc]
    simp [zeros]
  rw [receive_cons stray p (by rw [hc]; decide) hc.le]
  simp only [if_neg hEnd, hPad, hc, Nat.zero_add]

/-- The loop leaves at a read of the mark alone. -/
theorem receive_mark {got : Nat} :
    receive K stray p got [EOT] =
      ⟨(isEot (stray got) (padTo ENC_SIZE EOT) 5).1, [], .eot, [], p⟩ := by
  rw [receive_cons stray p (by decide) (by decide)]
  simp only [if_pos List.suffix_rfl]
  rfl

/-- A reply comes through exactly when one read returns the ciphertext and the next
one the mark, the ciphertext does not end in the mark, it has a zero byte, and so has
what its string decrypts to, if the operation succeeds. -/
theorem replyFramed_iff (K : Kernel) (p : Proc) (stray : Nat → Int → UInt8) {c : Bytes}
    {reads : List Bytes} (hc : c.length = ENC_SIZE) (hStream : reads.flatten <+: c ++ EOT)
    (hSizes : ∀ f ∈ reads, 1 ≤ f.length ∧ f.length ≤ ENC_SIZE) :
    ReplyFramed K p stray c reads ↔
      (reads = [c, EOT] ∧ ¬ EOT <:+ c) ∧ 0 ∈ c ∧
        ∀ t out, cstr c = some t → decryptOp K p (padTo ENC_SIZE t) = some out → 0 ∈ out := by
  rw [← decryptCopies_inBounds_iff hc (length_zeros MSG_SIZE), ← decryptData_isSome_iff]
  constructor
  · intro h
    have hNo : (receive K stray p 0 reads).left ≠ .overrun := by
      rw [h.left]
      split <;> decide
    obtain ⟨before, last, hReads, hPassed, hLeft, hBefore⟩ :=
      receive_eot (fun f hf => (hSizes f hf).2) (fun i hi => (h.inBounds i hi).1) hNo
    rw [h.unread] at hReads
    -- the loop left at a mark, so the stream is complete
    have hWhole : reads.flatten = c ++ EOT := by
      have := hLeft.symm.trans h.left
      by_contra hShort
      rw [if_neg hShort] at this
      exact absurd this (by decide)
    have hOne := h.passed
    rw [hPassed, handed_snd, if_pos (by rw [hWhole, List.length_append, hc]; omega)] at hOne
    obtain ⟨f, rfl, hf⟩ := List.map_eq_singleton_iff.mp hOne
    have hFull : f.length = ENC_SIZE := by
      have hArrived := h.arrived
      rw [hPassed] at hArrived
      have hLe := (hSizes f (by simp [hReads])).2
      have hGe := hArrived (0 + f.length, padTo ENC_SIZE f) (by simp [handed])
      simp only at hGe
      omega
    have hfc : f = c := by
      rw [← hf, padTo, hFull]
      simp [zeros]
    subst hfc
    obtain rfl : last = EOT := by
      rw [hReads] at hWhole
      simpa using hWhole
    have hEnd := hBefore f (by simp)
    refine ⟨⟨hReads, hEnd⟩, ?_⟩
    by_contra hOver
    rw [hReads, List.singleton_append, receive_whole hc hEnd] at hNo
    simp only [if_neg hOver] at hNo
    exact absurd rfl hNo
  · rintro ⟨⟨rfl, hEnd⟩, hDec⟩
    have hRun := @receive_whole K p stray c [EOT] hc hEnd
    simp only [if_pos hDec, receive_mark] at hRun
    refine ⟨?_, ?_, ?_, ?_, ?_⟩
    · rw [hRun]
      intro i hi
      rcases List.mem_append.mp hi with hi | hi
      · exact isEot_inBounds _ _ (by decide) le_rfl i hi
      · exact isEot_inBounds _ _ (by decide) (by decide) i hi
    · rw [hRun, if_pos (by simp [hc])]
      rfl
    · rw [hRun]
      simp
    · rw [hRun, if_pos (by simp)]
    · rw [hRun]

/-- Memory of zeros around the buffer. -/
def quiet : Nat → Int → UInt8 := fun _ _ => 0

theorem letterCipher_not_eot : ¬ EOT <:+ padTo ENC_SIZE letterCipher := by
  intro hEnd
  have hDot := hEnd.subset (show (46 : UInt8) ∈ EOT by decide)
  rcases List.mem_append.mp hDot with hMem | hMem
  · exact absurd hMem (by decide)
  · exact absurd (List.eq_of_mem_replicate hMem) (by decide)

/-- The ciphertext of a letter, read on its own. -/
theorem reply_in_two_reads :
    ReplyFramed (cbcKernel veiled) (freshProc veiled) quiet (padTo ENC_SIZE letterCipher)
      [padTo ENC_SIZE letterCipher, EOT] := by
  have hc : (padTo ENC_SIZE letterCipher).length = ENC_SIZE := length_padTo (by decide)
  refine (replyFramed_iff _ _ quiet hc (by simp) ?_).mpr
    ⟨⟨rfl, letterCipher_not_eot⟩, letterCipher_decrypts (freshProc_session veiled).1⟩
  intro f hf
  simp only [List.mem_cons, List.not_mem_nil, or_false] at hf
  rcases hf with rfl | rfl
  · rw [hc]
    decide
  · decide

/-- Five bytes of the ciphertext of `abcdef` come first, the others with the mark:
`decrypt_data` gets the five. -/
theorem torn_reply_misread :
    [[97, 98, 99, 100, 101], 102 :: zeros 8186 ++ EOT].flatten =
        padTo ENC_SIZE [97, 98, 99, 100, 101, 102] ++ EOT ∧
      ¬ ReplyFramed (cbcKernel identity) (freshProc identity) quiet
        (padTo ENC_SIZE [97, 98, 99, 100, 101, 102])
        [[97, 98, 99, 100, 101], 102 :: zeros 8186 ++ EOT] := by
  refine ⟨by simp [padTo, ENC_SIZE], fun h => ?_⟩
  have hArrived := h.arrived
  rw [receive_cons quiet _ (by decide) (by decide)] at hArrived
  simp only [if_neg (by decide : ¬ EOT <:+ [97, 98, 99, 100, 101])] at hArrived
  have hFirst : ENC_SIZE ≤ 5 := by
    split at hArrived
    · exact hArrived _ (List.mem_cons_self ..)
    · exact hArrived _ (List.mem_cons_self ..)
  exact absurd hFirst (by decide)

end VirtioCrypto.Shell
