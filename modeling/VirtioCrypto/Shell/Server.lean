import Mathlib.Data.List.TakeDrop
import VirtioCrypto.Shell.Crypto

/-!
# Shell — the server's loop over one connection

The inner `while` of `dummy-server.c`: clear the buffers, read, decrypt, run the
command, encrypt its output, send it with the end mark, and decrypt it again as
a check. What the network, `run_popen` and `write` do is open (`World`); a string
copy that leaves its array ends the run (`none`).

Every read is taken for a whole request: the buffers are cleared before it, and
the loop ends only at a read whose first byte, or whose first decrypted byte, is
zero.

* `sendLoop_marked_iff` — when the send loop sends the buffer and the end mark;
* `turn_stops_iff`, `Asks.turn`, `asks_of_turn` — the two ways a turn can go well;
* `framed_iff_turns` — a request is served once exactly when the first read asks
  for it and the second one stops the loop;
* `requestFramed_iff` — the same in terms of what was received;
* `split_request_unanswered` — a request in two reads.
-/

namespace VirtioCrypto.Shell

open Octets Cryptodev Chaining

/-- `eot` of both programs: NUL, three dots, NUL. -/
def EOT : Bytes := [0, 46, 46, 46, 0]

/-- `"No Command!\n"`. -/
def NO_COMMAND : Bytes := [78, 111, 32, 67, 111, 109, 109, 97, 110, 100, 33, 10]

/-- What the server does that others see. -/
inductive Action
  | popen (cmd : Bytes)
  | reply (sent : Bytes)
deriving DecidableEq

/-- What the server does not decide, from what it has done so far: the array
`run_popen` returns (`none` for NULL), and how many bytes beyond the first each
`write` takes. -/
structure World where
  runPopen : List Action → Bytes → Option Bytes
  accepts : List Action → Nat → Nat

/-- The server: its session, the array `out_data` points to, and what it has done
on this connection. -/
structure Server where
  proc : Proc
  outData : Bytes
  log : List Action

/-- The buffer is `"\n"`. -/
def isNewline (buf : Bytes) : Bool := buf.take 2 = [10, 0]

/-- `bzero(out_data, strlen(out_data))`. -/
def clearString (arr : Bytes) : Option Bytes :=
  (cstr arr).map fun t => patch arr 0 (zeros t.length)

/-- The bytes the send loop writes, from offset `i` and write number `j`. Every
write takes at least a byte, so one turn more than there are bytes is enough. The
end mark is written once, and what that write does not take of it is not sent. -/
def sendLoop (accepts : Nat → Nat) (outBuffer : Bytes) : Nat → Nat → Nat → Bytes
  | 0, _, _ => []
  | fuel + 1, j, i =>
    let n := min (ENC_SIZE - i) (accepts j + 1)
    if ENC_SIZE + i ≤ n then slice outBuffer i n ++ EOT.take (accepts (j + 1) + 1)
    else if n = 0 then []
    else slice outBuffer i n ++ sendLoop accepts outBuffer fuel (j + 1) (i + n)

variable (K : Kernel) (W : World)

/-- Run the command and set `out_data`; `false` when there is no string in it, or
no room for the message. -/
def runCommand (s : Server) (inBuffer inData : Bytes) : Server × Bool :=
  if isNewline inBuffer || isNewline inData then
    if NO_COMMAND.length < s.outData.length then
      ({ s with outData := patch s.outData 0 (NO_COMMAND ++ [0]) }, true)
    else (s, false)
  else
    let cmd := (cstr inData).getD []
    let log := s.log ++ [.popen cmd]
    match W.runPopen s.log cmd with
    | none => ({ s with log := log }, false)
    | some arr => ({ s with outData := arr, log := log }, true)

/-- Encrypt `out_data`, send it, and decrypt it again into `in_data`. -/
def sendReply (s : Server) (inData : Bytes) : Server × Bool :=
  match encryptData K s.proc s.outData (zeros ENC_SIZE) with
  | (p, none) => ({ s with proc := p }, false)
  | (p, some outBuffer) =>
    let sent := sendLoop (W.accepts s.log) outBuffer (ENC_SIZE + 1) 0 0
    match decryptData K p outBuffer inData with
    | (p, check) => (⟨p, s.outData, s.log ++ [.reply sent]⟩, check.isSome)

/-- One turn of the loop on what `read` returned, nothing at the end of the
stream: whether there is another one. -/
def serverTurn (s : Server) (chunk : Bytes) : Server × Option Bool :=
  match clearString s.outData with
  | none => (s, none)
  | some outData =>
    let inBuffer := padTo ENC_SIZE chunk
    match decryptData K s.proc inBuffer (zeros MSG_SIZE) with
    | (p, none) => (⟨p, outData, s.log⟩, none)
    | (p, some inData) =>
      if inData.head? = some 0 ∨ inBuffer.head? = some 0 then (⟨p, outData, s.log⟩, some false)
      else
        match runCommand W ⟨p, outData, s.log⟩ inBuffer inData with
        | (s, false) => (s, none)
        | (s, true) =>
          match sendReply K W s inData with
          | (s, false) => (s, none)
          | (s, true) => (s, some true)

/-- The loop over the reads of a connection; `false` when it was not left in an
orderly way. -/
def serverLoop : Server → List Bytes → Server × Bool
  | s, [] =>
    match serverTurn K W s [] with
    | (s, r) => (s, r.isSome)
  | s, chunk :: reads =>
    match serverTurn K W s chunk with
    | (s, none) => (s, false)
    | (s, some false) => (s, true)
    | (s, some true) => serverLoop s reads

/-- The session once `in_buffer` has been decrypted. -/
def afterRead (s : Server) (chunk : Bytes) : Proc :=
  (decryptData K s.proc (padTo ENC_SIZE chunk) (zeros MSG_SIZE)).1

/-- The bytes of a reply with `arr` as `out_data`: what `encrypt_data` makes of it in a
cleared `out_buffer`, and the end mark. -/
def replyBytes (p : Proc) (arr : Bytes) : Option Bytes :=
  (encryptData K p arr (zeros ENC_SIZE)).2.map (· ++ EOT)

/-- Since `s` the command `cmd` was run and its output sent as a reply. -/
def Served (s : Server) (chunk cmd : Bytes) (log : List Action) : Prop :=
  ∃ arr sent, W.runPopen s.log cmd = some arr ∧ replyBytes K (afterRead K s chunk) arr = some sent ∧
    log = s.log ++ [.popen cmd, .reply sent]

/-- The server ran the one command `cmd` and sent one reply, all of it. -/
def RequestFramed (s : Server) (reads : List Bytes) (cmd : Bytes) : Prop :=
  (serverLoop K W s reads).2 = true ∧
    Served K W s (reads.headD []) cmd (serverLoop K W s reads).1.log

variable {K W} {perm : Bytes → Equiv.Perm (Blk BLOCK_SIZE)} {key : Bytes} {iv : Blk BLOCK_SIZE}
  {s s' : Server} {chunk : Bytes}

-- ---------------------------------------------------------------------------
-- The send loop
-- ---------------------------------------------------------------------------

/-- After a first write that did not take everything the rest is sent, without the
end mark: no write can return more than `ENC_SIZE + i` bytes then. -/
theorem sendLoop_rest (accepts : Nat → Nat) {buf : Bytes} (hBuf : buf.length = ENC_SIZE)
    (fuel : Nat) :
    ∀ {j i : Nat}, 0 < i → i ≤ ENC_SIZE → ENC_SIZE - i < fuel →
      sendLoop accepts buf fuel j i = buf.drop i := by
  induction fuel with
  | zero =>
    intro j i _ _ hFuel
    exact absurd hFuel (Nat.not_lt_zero _)
  | succ fuel ih =>
    intro j i hPos hLe hFuel
    have hNoMark : ¬ ENC_SIZE + i ≤ min (ENC_SIZE - i) (accepts j + 1) := by omega
    rw [sendLoop]
    simp only [if_neg hNoMark]
    split
    · rename_i hDone
      rw [List.drop_of_length_le (by omega)]
    · rename_i hMore
      rw [ih (by omega) (by omega) (by omega), slice]
      rw [← List.drop_drop, List.take_append_drop]

/-- What the loop sends, whatever the writes take: all of the buffer, and of the end
mark what the second write takes if the first took the whole buffer. -/
theorem sendLoop_eq (accepts : Nat → Nat) {buf : Bytes} (hBuf : buf.length = ENC_SIZE) {fuel : Nat}
    (hFuel : ENC_SIZE < fuel) :
    sendLoop accepts buf fuel 0 0 =
      if ENC_SIZE ≤ accepts 0 + 1 then buf ++ EOT.take (accepts 1 + 1) else buf := by
  obtain ⟨fuel, rfl⟩ : ∃ k, fuel = k + 1 := ⟨fuel - 1, by omega⟩
  have hSize : 0 < ENC_SIZE := by decide
  rw [sendLoop]
  by_cases hAll : ENC_SIZE ≤ accepts 0 + 1
  · have hMin : min (ENC_SIZE - 0) (accepts 0 + 1) = ENC_SIZE := by omega
    have hSlice : slice buf 0 ENC_SIZE = buf := by rw [← hBuf, slice_zero_length]
    simp only [hMin, if_pos hAll, Nat.add_zero, le_refl, if_true, hSlice]
  · have hMin : min (ENC_SIZE - 0) (accepts 0 + 1) = accepts 0 + 1 := by omega
    have hNoMark : ¬ ENC_SIZE + 0 ≤ accepts 0 + 1 := by omega
    simp only [hMin, if_neg hAll, if_neg hNoMark, if_neg (Nat.succ_ne_zero _), Nat.zero_add]
    rw [sendLoop_rest accepts hBuf fuel (by omega) (by omega) (by omega), slice, List.drop_zero,
      List.take_append_drop]

/-- The mark is whole when a write was made for it and took all five bytes. -/
theorem mark_whole_iff (buf : Bytes) (m n : Nat) :
    (if ENC_SIZE ≤ m + 1 then buf ++ EOT.take (n + 1) else buf) = buf ++ EOT ↔
      ENC_SIZE ≤ m + 1 ∧ 5 ≤ n + 1 := by
  by_cases hAll : ENC_SIZE ≤ m + 1
  · rw [if_pos hAll, List.append_cancel_left_eq, List.take_eq_self_iff]
    exact (and_iff_right hAll).symm
  · simp [hAll, EOT]

/-- The loop sends the buffer and one end mark exactly when the first write takes
the whole buffer and the second one the whole mark. -/
theorem sendLoop_marked_iff (accepts : Nat → Nat) {buf : Bytes} (hBuf : buf.length = ENC_SIZE)
    {fuel : Nat} (hFuel : ENC_SIZE < fuel) :
    sendLoop accepts buf fuel 0 0 = buf ++ EOT ↔ ENC_SIZE ≤ accepts 0 + 1 ∧ 5 ≤ accepts 1 + 1 := by
  rw [sendLoop_eq accepts hBuf hFuel]
  exact mark_whole_iff buf _ _

theorem whole_write_marked :
    sendLoop (fun _ => ENC_SIZE) (zeros ENC_SIZE) (ENC_SIZE + 1) 0 0 = zeros ENC_SIZE ++ EOT :=
  (sendLoop_marked_iff (fun _ => ENC_SIZE) (length_zeros _) (Nat.lt_succ_self _)).mpr
    ⟨Nat.le_succ _, by decide⟩

/-- Two writes of half the buffer each: no end mark. -/
theorem two_writes_unmarked :
    sendLoop (fun _ => 4095) (zeros ENC_SIZE) (ENC_SIZE + 1) 0 0 ≠ zeros ENC_SIZE ++ EOT := by
  rw [sendLoop_eq _ (length_zeros _) (Nat.lt_succ_self _), if_neg (by decide)]
  simp [EOT]

-- ---------------------------------------------------------------------------
-- The log
-- ---------------------------------------------------------------------------

theorem runCommand_log {inBuffer inData : Bytes} {ok : Bool}
    (h : runCommand W s inBuffer inData = (s', ok)) : ∃ pre, s'.log = s.log ++ pre := by
  unfold runCommand at h
  split at h
  · split at h
    · obtain ⟨rfl, -⟩ := Prod.ext_iff.mp h
      exact ⟨[], (List.append_nil _).symm⟩
    · obtain ⟨rfl, -⟩ := Prod.ext_iff.mp h
      exact ⟨[], (List.append_nil _).symm⟩
  · simp only at h
    split at h
    · obtain ⟨rfl, -⟩ := Prod.ext_iff.mp h
      exact ⟨_, rfl⟩
    · obtain ⟨rfl, -⟩ := Prod.ext_iff.mp h
      exact ⟨_, rfl⟩

/-- A reply that is sent is what the send loop makes of `encrypt_data`'s buffer. -/
theorem sendReply_log {inData : Bytes} {ok : Bool} (h : sendReply K W s inData = (s', ok)) :
    s'.log = s.log ∧ ok = false ∨
      ∃ outBuffer, (encryptData K s.proc s.outData (zeros ENC_SIZE)).2 = some outBuffer ∧
        s'.log = s.log ++
          [.reply (sendLoop (W.accepts s.log) outBuffer (ENC_SIZE + 1) 0 0)] := by
  unfold sendReply at h
  generalize encryptData K s.proc s.outData (zeros ENC_SIZE) = r at h
  obtain ⟨p, _ | outBuffer⟩ := r
  · obtain ⟨rfl, rfl⟩ := Prod.ext_iff.mp h
    exact .inl ⟨rfl, rfl⟩
  · simp only at h
    obtain ⟨rfl, -⟩ := Prod.ext_iff.mp h
    exact .inr ⟨outBuffer, rfl, rfl⟩

/-- What a turn adds: nothing if it stops the loop, and a reply at the end if the
loop goes on. -/
theorem serverTurn_log {r : Option Bool} (h : serverTurn K W s chunk = (s', r)) :
    ∃ new, s'.log = s.log ++ new ∧ (r = some false → new = []) ∧
      (r = some true → ∃ pre sent, new = pre ++ [.reply sent]) := by
  unfold serverTurn at h
  split at h
  · obtain ⟨rfl, rfl⟩ := Prod.ext_iff.mp h
    exact ⟨[], (List.append_nil _).symm, by simp, by simp⟩
  · rename_i outData _
    simp only at h
    generalize decryptData K s.proc (padTo ENC_SIZE chunk) (zeros MSG_SIZE) = d at h
    obtain ⟨p, _ | inData⟩ := d
    · obtain ⟨rfl, rfl⟩ := Prod.ext_iff.mp h
      exact ⟨[], (List.append_nil _).symm, by simp, by simp⟩
    simp only at h
    split at h
    · obtain ⟨rfl, rfl⟩ := Prod.ext_iff.mp h
      exact ⟨[], (List.append_nil _).symm, by simp, by simp⟩
    cases hRun : runCommand W ⟨p, outData, s.log⟩ (padTo ENC_SIZE chunk) inData with
    | mk s₁ ok =>
      obtain ⟨pre, hPre⟩ := runCommand_log hRun
      rw [hRun] at h
      cases ok with
      | false =>
        obtain ⟨rfl, rfl⟩ := Prod.ext_iff.mp h
        exact ⟨pre, hPre, by simp, by simp⟩
      | true =>
        simp only at h
        cases hSend : sendReply K W s₁ inData with
        | mk s₂ sentOk =>
          rw [hSend] at h
          rcases sendReply_log hSend with ⟨hSame, rfl⟩ | ⟨outBuffer, -, hSent⟩
          · obtain ⟨rfl, rfl⟩ := Prod.ext_iff.mp h
            exact ⟨pre, hSame.trans hPre, by simp, by simp⟩
          · rw [hPre, List.append_assoc] at hSent
            cases sentOk with
            | false =>
              obtain ⟨rfl, rfl⟩ := Prod.ext_iff.mp h
              exact ⟨_, hSent, by simp, by simp⟩
            | true =>
              obtain ⟨rfl, rfl⟩ := Prod.ext_iff.mp h
              exact ⟨_, hSent, by simp, fun _ => ⟨pre, _, rfl⟩⟩

theorem serverLoop_log (reads : List Bytes) :
    ∀ s : Server, ∃ new, (serverLoop K W s reads).1.log = s.log ++ new := by
  induction reads with
  | nil =>
    intro s
    cases hTurn : serverTurn K W s [] with
    | mk s₁ r =>
      obtain ⟨new, hNew, -⟩ := serverTurn_log hTurn
      rw [serverLoop, hTurn]
      exact ⟨new, hNew⟩
  | cons chunk reads ih =>
    intro s
    cases hTurn : serverTurn K W s chunk with
    | mk s₁ r =>
      obtain ⟨new, hNew, -⟩ := serverTurn_log hTurn
      rw [serverLoop, hTurn]
      match r with
      | none => exact ⟨new, hNew⟩
      | some false => exact ⟨new, hNew⟩
      | some true =>
        obtain ⟨more, hMore⟩ := ih s₁
        exact ⟨new ++ more, by rw [hMore, hNew, List.append_assoc]⟩

-- ---------------------------------------------------------------------------
-- One turn
-- ---------------------------------------------------------------------------

theorem head?_padTo {n : Nat} {u : Bytes} (h0 : 0 ∉ u) (hn : 0 < n) :
    (padTo n u).head? = some 0 ↔ u = [] := by
  cases u with
  | nil =>
    obtain ⟨k, rfl⟩ : ∃ k, n = k + 1 := ⟨n - 1, by omega⟩
    simp [padTo, zeros, List.replicate_succ]
  | cons b u =>
    have hb : b ≠ 0 := fun h => h0 (by simp [h])
    simp [padTo, hb]

theorem isNewline_padTo {n : Nat} {u : Bytes} (h0 : 0 ∉ u) (hn : 2 ≤ n) :
    isNewline (padTo n u) = true ↔ u = [10] := by
  obtain ⟨k, rfl⟩ : ∃ k, n = k + 2 := ⟨n - 2, by omega⟩
  match u with
  | [] => simp [isNewline, padTo, zeros, List.replicate_succ]
  | [a] => simp [isNewline, padTo, zeros, List.replicate_succ]
  | a :: b :: u =>
    have hb : b ≠ 0 := fun h => h0 (by simp [h])
    simp [isNewline, padTo, hb]

/-- Every copy on the way from the output of the command to the reply, and to the
check of it, stays in its array; `r` is the register. -/
def ReplyFits (P : Equiv.Perm (Blk BLOCK_SIZE)) (r : Blk BLOCK_SIZE) (arr : Bytes) : Prop :=
  ∃ out t, cstr arr = some out ∧ out.length < DATA_SIZE ∧
    cstr (cbcEnc P r BLOCKS (padTo DATA_SIZE out)) = some t ∧
    (decrypted P (padTo ENC_SIZE t)).isSome

theorem sendReply_iff (h : Session perm key iv s.proc) {inData : Bytes}
    (hIn : inData.length = MSG_SIZE) :
    (sendReply K W s inData).2 = true ↔ ReplyFits (perm key) iv s.outData := by
  cases hCopy : strcpy (zeros DATA_SIZE) s.outData with
  | none =>
    rw [sendReply, encryptData_none hCopy]
    constructor
    · intro hFalse
      exact absurd hFalse (by simp)
    · rintro ⟨out, t, hOut, hLt, -⟩
      exact absurd (hCopy.symm.trans (strcpy_zeros hOut hLt)) (by simp)
  | some input =>
    obtain ⟨out, hOut, hLt, -⟩ := strcpy_zeros_eq_some_iff.mp hCopy
    obtain ⟨p₁, hEnc, hSession, -⟩ := encryptData_spec (K := K) h hOut hLt (zeros ENC_SIZE)
    rw [sendReply, hEnc, strcpy_sameSize (by rw [length_zeros, length_cbcEnc]; rfl)]
    cases ht : cstr (cbcEnc (perm key) iv BLOCKS (padTo DATA_SIZE out)) with
    | none =>
      constructor
      · intro hFalse
        exact absurd hFalse (by simp)
      · rintro ⟨out', t, hOut', -, ht', -⟩
        obtain rfl := Option.some.inj (hOut.symm.trans hOut')
        exact absurd (ht.symm.trans ht') (by simp)
    | some t =>
      have htLt : t.length < ENC_SIZE := by
        have := length_lt_of_cstr ht
        rwa [length_cbcEnc] at this
      have hSize : (padTo ENC_SIZE t).length = ENC_SIZE := length_padTo (Nat.le_of_lt htLt)
      obtain ⟨p₂, iv₂, hDec, -⟩ := decryptData_buffer (K := K) hSession hSize hIn
      simp only [Option.map_some, patch_zeros htLt, hDec, Option.isSome_map]
      constructor
      · intro hCheck
        exact ⟨out, t, hOut, hLt, ht, hCheck⟩
      · rintro ⟨out', t', hOut', -, ht', hCheck⟩
        obtain rfl := Option.some.inj (hOut.symm.trans hOut')
        obtain rfl := Option.some.inj (ht.symm.trans ht')
        exact hCheck

theorem sendReply_keeps (h : Session perm key iv s.proc) {inData : Bytes}
    (hIn : inData.length = MSG_SIZE) :
    (sendReply K W s inData).1.outData = s.outData ∧
      ∃ iv', Session perm key iv' (sendReply K W s inData).1.proc := by
  cases hCopy : strcpy (zeros DATA_SIZE) s.outData with
  | none =>
    rw [sendReply, encryptData_none hCopy]
    exact ⟨rfl, iv, h⟩
  | some input =>
    obtain ⟨out, hOut, hLt, -⟩ := strcpy_zeros_eq_some_iff.mp hCopy
    obtain ⟨p₁, hEnc, hSession, -⟩ := encryptData_spec (K := K) h hOut hLt (zeros ENC_SIZE)
    rw [sendReply, hEnc, strcpy_sameSize (by rw [length_zeros, length_cbcEnc]; rfl)]
    cases ht : cstr (cbcEnc (perm key) iv BLOCKS (padTo DATA_SIZE out)) with
    | none => exact ⟨rfl, _, hSession⟩
    | some t =>
      have htLt : t.length < ENC_SIZE := by
        have := length_lt_of_cstr ht
        rwa [length_cbcEnc] at this
      have hSize : (padTo ENC_SIZE t).length = ENC_SIZE := length_padTo (Nat.le_of_lt htLt)
      obtain ⟨p₂, iv₂, hDec, hSession₂, -⟩ := decryptData_buffer (K := K) hSession hSize hIn
      simp only [Option.map_some, patch_zeros htLt, hDec]
      exact ⟨trivial, iv₂, hSession₂⟩

/-- A turn, from what the buffer decrypts to. -/
theorem serverTurn_eq (h : Session perm key iv s.proc) (hChunk : chunk.length ≤ ENC_SIZE) :
    ∃ iv', Session perm key iv' (afterRead K s chunk) ∧
      (∀ t, cstr (padTo ENC_SIZE chunk) = some t →
        iv' = lastBlock (Blk.zero BLOCK_SIZE) BLOCKS (padTo ENC_SIZE t)) ∧
      serverTurn K W s chunk =
        match clearString s.outData with
        | none => (s, none)
        | some outData =>
          match decrypted (perm key) (padTo ENC_SIZE chunk) with
          | none => (⟨afterRead K s chunk, outData, s.log⟩, none)
          | some u =>
            if u = [] ∨ (padTo ENC_SIZE chunk).head? = some 0 then
              (⟨afterRead K s chunk, outData, s.log⟩, some false)
            else
              match runCommand W ⟨afterRead K s chunk, outData, s.log⟩ (padTo ENC_SIZE chunk)
                  (padTo MSG_SIZE u) with
              | (s, false) => (s, none)
              | (s, true) =>
                match sendReply K W s (padTo MSG_SIZE u) with
                | (s, false) => (s, none)
                | (s, true) => (s, some true) := by
  have hSize : (padTo ENC_SIZE chunk).length = ENC_SIZE := length_padTo hChunk
  obtain ⟨p, iv', hDec, hSession, hIv⟩ := decryptData_zeros (K := K) h hSize
  obtain rfl : afterRead K s chunk = p := by rw [afterRead, hDec]
  refine ⟨iv', hSession, hIv, ?_⟩
  rw [serverTurn]
  cases clearString s.outData with
  | none => rfl
  | some outData =>
    simp only [hDec]
    cases hu : decrypted (perm key) (padTo ENC_SIZE chunk) with
    | none => rfl
    | some u =>
      simp only [Option.map_some, head?_padTo (decrypted_string hu).1 (by decide : 0 < MSG_SIZE)]

/-- The next turn on `chunk` stops the loop: `out_data` holds a string, and the
buffer decrypts, to nothing unless it starts with a zero byte. -/
def Stops (P : Equiv.Perm (Blk BLOCK_SIZE)) (outData chunk : Bytes) : Prop :=
  (cstr outData).isSome ∧ ∃ u, decrypted P (padTo ENC_SIZE chunk) = some u ∧
    (u = [] ∨ (padTo ENC_SIZE chunk).head? = some 0)

theorem clearString_isSome {arr : Bytes} : (clearString arr).isSome = (cstr arr).isSome := by
  rw [clearString, Option.isSome_map]

theorem turn_stops_iff (h : Session perm key iv s.proc) (hChunk : chunk.length ≤ ENC_SIZE) :
    (serverTurn K W s chunk).2 = some false ↔ Stops (perm key) s.outData chunk := by
  obtain ⟨iv', -, -, hTurn⟩ := serverTurn_eq (K := K) (W := W) h hChunk
  rw [hTurn, Stops, ← clearString_isSome]
  cases clearString s.outData with
  | none => simp
  | some outData =>
    cases decrypted (perm key) (padTo ENC_SIZE chunk) with
    | none => simp
    | some u =>
      by_cases hStop : u = [] ∨ (padTo ENC_SIZE chunk).head? = some 0
      · simp [hStop]
      · constructor
        · intro hFalse
          simp only [if_neg hStop] at hFalse
          split at hFalse
          · exact absurd hFalse (by simp)
          · split at hFalse <;> exact absurd hFalse (by simp)
        · rintro ⟨-, u', hu, hStop'⟩
          obtain rfl := Option.some.inj hu
          exact absurd hStop' hStop

/-- `write` takes a buffer whole, and the end mark after it. -/
def World.TakesReply (W : World) (log : List Action) : Prop :=
  ENC_SIZE ≤ W.accepts log 0 + 1 ∧ 5 ≤ W.accepts log 1 + 1

/-- The next turn on `chunk` runs `cmd` and sends its output. -/
structure Asks (P : Equiv.Perm (Blk BLOCK_SIZE)) (W : World) (s : Server) (chunk cmd arr : Bytes) :
    Prop where
  outData : (cstr s.outData).isSome
  command : decrypted P (padTo ENC_SIZE chunk) = some cmd
  notNewline : isNewline (padTo ENC_SIZE chunk) = false ∧ cmd ≠ [10]
  output : W.runPopen s.log cmd = some arr
  fits : ∃ t, cstr (padTo ENC_SIZE chunk) = some t ∧
    ReplyFits P (lastBlock (Blk.zero BLOCK_SIZE) BLOCKS (padTo ENC_SIZE t)) arr
  taken : W.TakesReply (s.log ++ [.popen cmd])

theorem length_encryptData {p : Proc} {arr enc out : Bytes}
    (h : (encryptData K p arr enc).2 = some out) : out.length = enc.length := by
  unfold encryptData at h
  split at h
  · exact absurd h (by simp)
  split at h
  · obtain rfl := Option.some.inj h
    rfl
  · exact length_strcpy h

/-- A reply is all there, with its end mark, exactly when it is taken whole. -/
theorem sent_iff_takesReply {p : Proc} {arr outBuffer : Bytes} {log : List Action}
    (h : (encryptData K p arr (zeros ENC_SIZE)).2 = some outBuffer) :
    replyBytes K p arr = some (sendLoop (W.accepts log) outBuffer (ENC_SIZE + 1) 0 0) ↔
      W.TakesReply log := by
  have hLen : outBuffer.length = ENC_SIZE := (length_encryptData h).trans (length_zeros _)
  rw [replyBytes, h, Option.map_some, Option.some.injEq, eq_comm,
    sendLoop_eq _ hLen (Nat.lt_succ_self _)]
  exact mark_whole_iff outBuffer _ _

theorem runCommand_popen {inBuffer u : Bytes} (h0 : 0 ∉ u) (hu : u.length < MSG_SIZE)
    (hNot : isNewline inBuffer = false ∧ u ≠ [10]) :
    runCommand W s inBuffer (padTo MSG_SIZE u) =
      match W.runPopen s.log u with
      | none => ({ s with log := s.log ++ [.popen u] }, false)
      | some arr => ({ s with outData := arr, log := s.log ++ [.popen u] }, true) := by
  have hLine : ¬ isNewline (padTo MSG_SIZE u) = true := by
    rw [isNewline_padTo h0 (by decide)]
    exact hNot.2
  rw [runCommand, hNot.1, Bool.false_or, if_neg hLine, cstr_padTo h0 hu]
  rfl

/-- A turn that asks for a command serves it and goes on with its output in `out_data`. -/
theorem Asks.turn (h : Session perm key iv s.proc) (hChunk : chunk.length ≤ ENC_SIZE)
    (hHead : (padTo ENC_SIZE chunk).head? ≠ some 0) {cmd arr : Bytes} (hCmd : cmd ≠ [])
    (hAsks : Asks (perm key) W s chunk cmd arr) :
    ∃ s₁ iv₁, serverTurn K W s chunk = (s₁, some true) ∧ Served K W s chunk cmd s₁.log ∧
      s₁.outData = arr ∧ Session perm key iv₁ s₁.proc := by
  obtain ⟨iv', hSession, hIv, hTurn⟩ := serverTurn_eq (K := K) (W := W) h hChunk
  obtain ⟨h0, hLt⟩ := decrypted_string hAsks.command
  obtain ⟨outData, hClear⟩ : ∃ outData, clearString s.outData = some outData := by
    rw [← Option.isSome_iff_exists, clearString_isSome]
    exact hAsks.outData
  obtain ⟨t, ht, hFits⟩ := hAsks.fits
  rw [hIv t ht] at hSession
  have hIn : (padTo MSG_SIZE cmd).length = MSG_SIZE := length_padTo (Nat.le_of_lt hLt)
  let s₁ : Server := ⟨afterRead K s chunk, arr, s.log ++ [.popen cmd]⟩
  have hRun : runCommand W ⟨afterRead K s chunk, outData, s.log⟩ (padTo ENC_SIZE chunk)
      (padTo MSG_SIZE cmd) = (s₁, true) := by
    rw [runCommand_popen h0 hLt hAsks.notNewline]
    simp only [hAsks.output]
    rfl
  have hSend : sendReply K W s₁ (padTo MSG_SIZE cmd) =
      ((sendReply K W s₁ (padTo MSG_SIZE cmd)).1, true) :=
    Prod.ext rfl ((sendReply_iff (s := s₁) hSession hIn).mpr hFits)
  obtain ⟨hArr, iv₂, hSession₂⟩ := sendReply_keeps (K := K) (W := W) (s := s₁) hSession hIn
  obtain ⟨outBuffer, hEnc, hLog⟩ := (sendReply_log hSend).resolve_left (by simp)
  have hGo : ¬ (cmd = [] ∨ (padTo ENC_SIZE chunk).head? = some 0) := not_or.mpr ⟨hCmd, hHead⟩
  refine ⟨(sendReply K W s₁ (padTo MSG_SIZE cmd)).1, iv₂, ?_, ?_, hArr, hSession₂⟩
  · rw [hTurn, hClear]
    simp only [hAsks.command, if_neg hGo, hRun]
    rw [hSend]
  · refine ⟨arr, _, hAsks.output, (sent_iff_takesReply hEnc).mpr hAsks.taken, ?_⟩
    rw [hLog]
    simp [s₁]

/-- What a turn went through if the loop goes on after it. -/
theorem turn_goes_on (h : Session perm key iv s.proc) (hChunk : chunk.length ≤ ENC_SIZE)
    (hTurn : serverTurn K W s chunk = (s', some true)) :
    ∃ iv' outData u s₁, Session perm key iv' (afterRead K s chunk) ∧
      (∀ t, cstr (padTo ENC_SIZE chunk) = some t →
        iv' = lastBlock (Blk.zero BLOCK_SIZE) BLOCKS (padTo ENC_SIZE t)) ∧
      clearString s.outData = some outData ∧
      decrypted (perm key) (padTo ENC_SIZE chunk) = some u ∧
      runCommand W ⟨afterRead K s chunk, outData, s.log⟩ (padTo ENC_SIZE chunk)
        (padTo MSG_SIZE u) = (s₁, true) ∧
      sendReply K W s₁ (padTo MSG_SIZE u) = (s', true) := by
  obtain ⟨iv', hSession, hIv, hEq⟩ := serverTurn_eq (K := K) (W := W) h hChunk
  rw [hEq] at hTurn
  cases hClear : clearString s.outData with
  | none => rw [hClear] at hTurn; exact absurd hTurn (by simp)
  | some outData =>
    cases hu : decrypted (perm key) (padTo ENC_SIZE chunk) with
    | none => rw [hClear, hu] at hTurn; exact absurd hTurn (by simp)
    | some u =>
      simp only [hClear, hu] at hTurn
      split at hTurn
      · exact absurd hTurn (by simp)
      split at hTurn
      · exact absurd hTurn (by simp)
      rename_i s₁ hRun
      split at hTurn
      · exact absurd hTurn (by simp)
      rename_i s₂ hSend
      obtain ⟨rfl, -⟩ := Prod.ext_iff.mp hTurn
      exact ⟨iv', outData, u, s₁, hSession, hIv, rfl, rfl, hRun, hSend⟩

/-- A turn that served `cmd` asked for it. -/
theorem asks_of_turn (h : Session perm key iv s.proc) (hChunk : chunk.length ≤ ENC_SIZE)
    {cmd : Bytes} (hTurn : serverTurn K W s chunk = (s', some true))
    (hServed : Served K W s chunk cmd s'.log) :
    Asks (perm key) W s chunk cmd s'.outData ∧ ∃ iv', Session perm key iv' s'.proc := by
  obtain ⟨iv₁, outData, u, s₁, hSession, hIv, hClear, hu, hRun, hSend⟩ :=
    turn_goes_on h hChunk hTurn
  obtain ⟨h0, hLt⟩ := decrypted_string hu
  have hIn : (padTo MSG_SIZE u).length = MSG_SIZE := length_padTo (Nat.le_of_lt hLt)
  obtain ⟨outBuffer, hEnc, hSent⟩ := (sendReply_log hSend).resolve_left (by simp)
  obtain ⟨arr', sent, hOut', hReply, hLog⟩ := hServed
  by_cases hLine : isNewline (padTo ENC_SIZE chunk) = true ∨ u = [10]
  · -- no command was run: the log has the reply only
    have hSame : s₁.log = s.log := by
      have hOr : (isNewline (padTo ENC_SIZE chunk) || isNewline (padTo MSG_SIZE u)) = true := by
        rw [Bool.or_eq_true, isNewline_padTo h0 (by decide)]
        exact hLine
      rw [runCommand, if_pos hOr] at hRun
      split at hRun <;> obtain ⟨rfl, -⟩ := Prod.ext_iff.mp hRun <;> rfl
    rw [hSent, hSame] at hLog
    exact absurd (List.append_cancel_left hLog) (by simp)
  · have hNot : isNewline (padTo ENC_SIZE chunk) = false ∧ u ≠ [10] := by
      simpa only [not_or, Bool.not_eq_true] using hLine
    rw [runCommand_popen h0 hLt hNot] at hRun
    cases hOut : W.runPopen s.log u with
    | none => simp only [hOut] at hRun; exact absurd hRun (by simp)
    | some arr =>
      simp only [hOut] at hRun
      obtain ⟨rfl, -⟩ := Prod.ext_iff.mp hRun
      obtain ⟨t, ht, -⟩ := Option.bind_eq_some_iff.mp hu
      have hKeeps := sendReply_keeps (K := K) (W := W)
        (s := ⟨afterRead K s chunk, arr, s.log ++ [.popen u]⟩) hSession hIn
      have hFits := (sendReply_iff (K := K) (W := W)
        (s := ⟨afterRead K s chunk, arr, s.log ++ [.popen u]⟩) hSession hIn).mp (by rw [hSend])
      rw [hSend] at hKeeps
      rw [hSent, List.append_assoc] at hLog
      obtain ⟨rfl, rfl⟩ : u = cmd ∧
          sendLoop (W.accepts (s.log ++ [.popen u])) outBuffer (ENC_SIZE + 1) 0 0 = sent := by
        simpa using List.append_cancel_left hLog
      obtain rfl := Option.some.inj (hOut.symm.trans hOut')
      rw [hKeeps.1]
      refine ⟨⟨?_, hu, hNot, hOut, ⟨t, ht, ?_⟩, (sent_iff_takesReply hEnc).mp hReply⟩, hKeeps.2⟩
      · rw [← clearString_isSome, hClear]
        rfl
      · rw [← hIv t ht]
        exact hFits

-- ---------------------------------------------------------------------------
-- One request
-- ---------------------------------------------------------------------------

/-- The buffer is all zeros at the end of the stream, so the loop does not go on. -/
theorem turn_nil_stops : (serverTurn K W s []).2 ≠ some true := by
  have hHead : (padTo ENC_SIZE []).head? = some 0 := (head?_padTo (by simp) (by decide)).mpr rfl
  unfold serverTurn
  split
  · simp
  · simp only
    split
    · simp
    · rw [if_pos (.inr hHead)]
      simp

/-- The loop takes its next turn on the next read, or on nothing. -/
theorem serverLoop_eq (s : Server) (reads : List Bytes) :
    serverLoop K W s reads =
      match serverTurn K W s (reads.headD []) with
      | (s, none) => (s, false)
      | (s, some false) => (s, true)
      | (s, some true) => serverLoop K W s reads.tail := by
  cases reads with
  | cons chunk reads => rfl
  | nil =>
    rw [serverLoop]
    cases hTurn : serverTurn K W s [] with
    | mk s₁ r =>
      match r with
      | none => simp [hTurn]
      | some false => simp [hTurn]
      | some true => exact absurd (congrArg Prod.snd hTurn) turn_nil_stops

/-- A request is served once exactly when the first turn serves it and the second
one stops the loop. -/
theorem framed_iff_turns {reads : List Bytes} {cmd : Bytes} :
    RequestFramed K W s reads cmd ↔
      ∃ s₁, serverTurn K W s (reads.headD []) = (s₁, some true) ∧
        Served K W s (reads.headD []) cmd s₁.log ∧
        (serverTurn K W s₁ (reads.tail.headD [])).2 = some false := by
  rw [RequestFramed, serverLoop_eq s]
  generalize reads.headD [] = first
  cases hTurn : serverTurn K W s first with
  | mk s₁ r =>
    obtain ⟨new, hNew, hStop, hGo⟩ := serverTurn_log hTurn
    match r with
    | none => simp
    | some false =>
      rw [hStop rfl, List.append_nil] at hNew
      simp [hNew, Served]
    | some true =>
      obtain ⟨pre, sent, rfl⟩ := hGo rfl
      simp only
      rw [serverLoop_eq s₁]
      generalize reads.tail.headD [] = second
      cases hTurn₂ : serverTurn K W s₁ second with
      | mk s₂ r₂ =>
        obtain ⟨new₂, hNew₂, hStop₂, hGo₂⟩ := serverTurn_log hTurn₂
        match r₂ with
        | none => simp [hTurn₂]
        | some false =>
          rw [hStop₂ rfl, List.append_nil] at hNew₂
          simp [hTurn₂, hNew₂]
        | some true =>
          -- a second reply in the log
          obtain ⟨pre₂, sent₂, rfl⟩ := hGo₂ rfl
          obtain ⟨more, hMore⟩ := serverLoop_log (K := K) (W := W) reads.tail.tail s₂
          constructor
          · rintro ⟨-, arr, sent', -, -, hLog⟩
            simp only at hLog
            rw [hMore, hNew₂, hNew] at hLog
            simp only [List.append_assoc] at hLog
            have hLen := congrArg List.length (List.append_cancel_left hLog)
            simp only [List.length_append, List.length_cons, List.length_nil] at hLen
            obtain rfl : pre = [] := List.length_eq_zero_iff.mp (by omega)
            exact absurd (List.append_cancel_left hLog) (by simp)
          · rintro ⟨s', hEq, -, hFalse⟩
            obtain ⟨rfl, -⟩ := Prod.ext_iff.mp hEq
            rw [hTurn₂] at hFalse
            exact absurd hFalse (by simp)

/-- A fragment of the request is not longer than it, and the first one starts with
its first byte. -/
theorem fragments {c : Bytes} {reads : List Bytes} (hReads : reads.flatten = c)
    (hAll : ∀ f ∈ reads, f ≠ []) :
    (reads.headD []).length ≤ c.length ∧ (reads.tail.headD []).length ≤ c.length ∧
      (reads.headD []).head? = c.head? := by
  match reads with
  | [] => simp [← hReads]
  | [f] => simp [← hReads]
  | [] :: g :: reads => exact absurd rfl (hAll [] (by simp))
  | (b :: f) :: g :: reads =>
    subst hReads
    simp only [List.headD_cons, List.tail_cons, List.flatten_cons, List.length_append,
      List.length_cons, List.cons_append, List.head?_cons, and_true]
    constructor <;> omega

/-- A request is served once, whatever the network makes of it, exactly when its
first fragment alone, with zeros after it, decrypts to the same command, the
command is not an empty line, its output makes it through the copies of the reply,
the reply and its end mark are taken whole, and the second fragment stops the
loop. -/
theorem requestFramed_iff (h : Session perm key iv s.proc) {c cmd : Bytes} {reads : List Bytes}
    (hLen : c.length = ENC_SIZE) (hHead : c.head? ≠ some 0)
    (hCmd : decrypted (perm key) c = some cmd) (hNe : cmd ≠ [])
    (hReads : reads.flatten = c) (hAll : ∀ f ∈ reads, f ≠ []) :
    RequestFramed K W s reads cmd ↔
      decrypted (perm key) (padTo ENC_SIZE (reads.headD [])) = decrypted (perm key) c ∧
        ∃ arr, Asks (perm key) W s (reads.headD []) cmd arr ∧
          Stops (perm key) arr (reads.tail.headD []) := by
  obtain ⟨hFirst, hSecond, hSame⟩ := fragments hReads hAll
  rw [hLen] at hFirst hSecond
  have hStart : (padTo ENC_SIZE (reads.headD [])).head? ≠ some 0 := by
    rw [padTo, List.head?_append, hSame]
    cases hc : c.head? with
    | none =>
      rw [List.head?_eq_none_iff.mp hc] at hLen
      exact absurd hLen (by decide)
    | some b =>
      rw [hc] at hHead
      exact hHead
  rw [framed_iff_turns]
  constructor
  · rintro ⟨s₁, hTurn, hServed, hStop⟩
    obtain ⟨hAsks, iv₁, hSession⟩ := asks_of_turn h hFirst hTurn hServed
    exact ⟨hAsks.command.trans hCmd.symm, _, hAsks, (turn_stops_iff hSession hSecond).mp hStop⟩
  · rintro ⟨-, arr, hAsks, hStop⟩
    obtain ⟨s₁, iv₁, hTurn, hServed, rfl, hSession⟩ := hAsks.turn (K := K) h hFirst hStart hNe
    exact ⟨s₁, hTurn, hServed, (turn_stops_iff hSession hSecond).mpr hStop⟩

/-- A shell whose every command prints one letter, on a network that takes whole
buffers. -/
def oneLetter : World := ⟨fun _ _ => some [98, 0], fun _ _ => ENC_SIZE⟩

/-- A server that has done nothing yet. -/
def freshServer : Server := ⟨freshProc identity, [0], []⟩

/-- A request for `a` in one read. -/
theorem whole_request_framed :
    RequestFramed (cbcKernel identity) oneLetter freshServer [97 :: zeros 8191] [97] := by
  have hCmd : decrypted (identity (zeros KEY_SIZE)) (97 :: zeros 8191) = some [97] := by
    decide +kernel
  have hTerm : cstr (padTo ENC_SIZE (97 :: zeros 8191)) = some [97] := by
    decide +kernel
  have hAsks : Asks (identity (zeros KEY_SIZE)) oneLetter freshServer (97 :: zeros 8191) [97]
      [98, 0] := by
    refine ⟨rfl, by decide +kernel, by decide +kernel, rfl,
      ⟨[97], hTerm, [98], [98], rfl, by decide, ?_, by decide +kernel⟩, by decide, by decide⟩
    refine cstr_eq_some_iff.mpr ⟨by decide, List.prefix_iff_eq_take.mpr ?_⟩
    decide +kernel
  refine (requestFramed_iff (c := 97 :: zeros 8191) (freshProc_session identity).1
    (by decide +kernel) (by decide) hCmd (by decide) (by simp) (by simp)).mpr
      ⟨by decide +kernel, _, hAsks, rfl, [], ?_, .inl rfl⟩
  decide +kernel

/-- A request for `ab` that arrives as `a` and the rest: `a` is run. -/
theorem split_request_unanswered :
    (97 :: 98 :: zeros 8190).length = ENC_SIZE ∧
      [[97], 98 :: zeros 8190].flatten = 97 :: 98 :: zeros 8190 ∧
      decrypted (identity (zeros KEY_SIZE)) (97 :: 98 :: zeros 8190) = some [97, 98] ∧
      ¬ RequestFramed (cbcKernel identity) oneLetter freshServer [[97], 98 :: zeros 8190]
        [97, 98] := by
  refine ⟨by decide +kernel, by simp, by decide +kernel, ?_⟩
  intro hFramed
  obtain ⟨s₁, hTurn, hServed, -⟩ := framed_iff_turns.mp hFramed
  obtain ⟨hAsks, -⟩ := asks_of_turn (freshProc_session identity).1 (by decide) hTurn hServed
  have hShort : decrypted (identity (zeros KEY_SIZE)) (padTo ENC_SIZE [97]) = some [97] := by
    decide +kernel
  exact absurd (hShort.symm.trans hAsks.command) (by decide)

end VirtioCrypto.Shell
