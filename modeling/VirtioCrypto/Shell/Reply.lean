import VirtioCrypto.Shell.Popen
import VirtioCrypto.Shell.Server
import VirtioCrypto.Transition

/-!
# Shell — the reply buffer over many requests

`out_data` of `dummy-server.c` starts as a block from `malloc`, is replaced by whatever
`run_popen` returns, and is kept from one request and one connection to the next. The loop
takes the length of its string (`bzero`), prints `"No Command!\n"` into it (`sprintf`) and
encrypts it. Here a run is the sequence of requests, over all connections, and `uses` records
each of these three uses with the pointer as it was then. A use that is not possible, or a
`run_popen` that does not return, ends the run.

* `runPopen_usable_iff` — when `run_popen` returns a string;
* `turn_sound_iff`      — what one request needs for all its uses to be possible;
* `reply_usable_iff`    — the same for every sequence of requests;
* `answer_runCommand`   — with a string in `out_data`, this is the server's own step.
-/

namespace VirtioCrypto.Shell

open Octets Libc

-- ---------------------------------------------------------------------------
-- Uses of out_data
-- ---------------------------------------------------------------------------

/-- Where the loop uses the string in `out_data`. -/
inductive Use
  | bzero
  | sprintf
  | encrypt
deriving DecidableEq, Repr

/-- The pointer is to a block with a terminator in it, and for `sprintf` the block has room
for the message. -/
def Usable (u : Use) (p : Ptr) : Prop :=
  ∃ bytes, p = .block bytes ∧ (cstr bytes).isSome = true ∧ (u = .sprintf → 13 ≤ bytes.length)

instance (u : Use) (p : Ptr) : Decidable (Usable u p) :=
  match p with
  | .null => isFalse (by simp [Usable])
  | .wild => isFalse (by simp [Usable])
  | .block bytes =>
    decidable_of_iff ((cstr bytes).isSome = true ∧ (u = .sprintf → 13 ≤ bytes.length))
      (by simp [Usable])

/-- What a turn of the loop depends on: the two buffers after `decrypt_data`, what the command
prints if it can be started, `*msgsize`, and the stack slot `run_popen` takes for its
`buffer`. -/
structure Request where
  inBuffer : Bytes
  inData : Bytes
  popen : Option Bytes
  msgsize : Int
  stale : Ptr

/-- The turn ends the connection. -/
def Request.Stops (r : Request) : Prop := r.inData.head? = some 0 ∨ r.inBuffer.head? = some 0

/-- The request is an empty line. -/
def Request.newline (r : Request) : Bool := isNewline r.inBuffer || isNewline r.inData

instance (r : Request) : Decidable r.Stops := inferInstanceAs (Decidable (_ ∨ _))

/-- `out_data`, the number of allocations so far, the uses so far, and whether the server is
still running. -/
structure Reply where
  out : Ptr
  clock : Nat
  uses : List (Use × Ptr)
  alive : Bool
deriving DecidableEq

def Reply.use (s : Reply) (u : Use) : Reply := { s with uses := s.uses ++ [(u, s.out)] }

/-- `bzero(out_data, strlen(out_data))`. -/
def cleared : Ptr → Ptr
  | .block bytes => .block ((clearString bytes).getD bytes)
  | p => p

/-- `sprintf(out_data, "No Command!\n")`. -/
def noCommand : Ptr → Ptr
  | .block bytes => .block (patch bytes 0 (NO_COMMAND ++ [0]))
  | p => p

variable (conv : Convention) (heap : Heap) (fuel : Nat)

/-- Run the command, or note that there is none: whether the loop goes on. -/
def answer (s : Reply) (r : Request) : Reply × Bool :=
  if r.newline then
    if Usable .sprintf s.out then ({ s.use .sprintf with out := noCommand s.out }, true)
    else (s.use .sprintf, false)
  else
    match runPopen conv heap fuel ⟨r.stale, r.msgsize, s.clock⟩ r.popen with
    | .error _ => (s, false)
    | .ok st => ({ s with out := st.buffer, clock := st.clock }, true)

/-- One turn of the loop. -/
def turn (s : Reply) (r : Request) : Reply :=
  if Usable .bzero s.out then
    let s₁ := { s.use .bzero with out := cleared s.out }
    if r.Stops then s₁
    else
      match answer conv heap fuel s₁ r with
      | (s₂, false) => { s₂ with alive := false }
      | (s₂, true) => { s₂.use .encrypt with alive := decide (Usable .encrypt s₂.out) }
  else { s.use .bzero with alive := false }

/-- A request, while the server is running. -/
def replyStep (s : Reply) (r : Request) : Option Reply :=
  if s.alive then some (turn conv heap fuel s r) else none

/-- The server before its first connection; `bytes` is the block of `malloc(MSG_SIZE)`. -/
def started (bytes : Bytes) : Reply := ⟨.block bytes, 0, [], true⟩

/-- Every use so far was possible, the server is running, and the next `bzero` is possible. -/
structure Sound (s : Reply) : Prop where
  alive : s.alive = true
  uses : ∀ v ∈ s.uses, Usable v.1 v.2
  next : Usable .bzero s.out

/-- The command was started, and either printed nothing, with a string at the stale pointer,
or printed something, after a stale pointer that `%s` can print, and the two are not too long
for `make_message`. -/
def Prints (stale : Ptr) (popen : Option Bytes) : Prop :=
  ∃ o, popen = some o ∧ (o = [] → ∃ t, stale.Holds t) ∧
    (o ≠ [] → ∃ t, stale.str = .ok t ∧
      (t ++ text (fgets (PATH_SIZE - 2) (PATH_SIZE - 2) o)).length < longest conv)

/-- What a request needs: nothing if it ends the connection, room for the message if it is an
empty line, and a command that prints otherwise. -/
def Safe (s : Reply) (r : Request) : Prop :=
  ¬ r.Stops →
    (r.newline = true → ∃ bytes, s.out = .block bytes ∧ 13 ≤ bytes.length) ∧
      (r.newline = false → Prints conv r.stale r.popen)

variable {conv heap fuel}

-- ---------------------------------------------------------------------------
-- Strings
-- ---------------------------------------------------------------------------

theorem usable_of_holds {u : Use} (hu : u ≠ .sprintf) {p : Ptr} {t : Bytes} (h : p.Holds t) :
    Usable u p := by
  obtain ⟨bytes, rfl, hStr⟩ := h
  exact ⟨bytes, rfl, by simp [hStr], fun hEq => absurd hEq hu⟩

theorem holds_of_usable {u : Use} {p : Ptr} (h : Usable u p) : ∃ t, p.Holds t := by
  obtain ⟨bytes, rfl, hStr, _⟩ := h
  obtain ⟨t, ht⟩ := Option.isSome_iff_exists.mp hStr
  exact ⟨t, bytes, rfl, ht⟩

/-- A cleared block is an empty string of the same size. -/
theorem clearString_cstr {bytes t : Bytes} (h : cstr bytes = some t) :
    ∃ bytes', clearString bytes = some bytes' ∧ cstr bytes' = some [] ∧
      bytes'.length = bytes.length := by
  have hLt := length_lt_of_cstr h
  refine ⟨patch bytes 0 (zeros t.length), by simp [clearString, h], ?_, ?_⟩
  · -- the first byte is a zero, written now or there before
    obtain ⟨_, rest, rfl⟩ := cstr_eq_some_iff.mp h
    cases t with
    | nil => rfl
    | cons a t => rfl
  · refine length_patch ?_
    rw [length_zeros]
    omega

theorem cstr_noCommand (bytes : Bytes) :
    cstr (patch bytes 0 (NO_COMMAND ++ [0])) = some NO_COMMAND := by
  refine cstr_eq_some_iff.mpr ⟨by decide, ?_⟩
  rw [patch]
  simp

/-- **`run_popen` and the reply.** What it returns can be encrypted exactly when the command
was started and either printed nothing over a stale string, or printed something that fits,
over a stale pointer that can be printed. -/
theorem runPopen_usable_iff (hGrants : heap.Grants) (hFuel : 31 ≤ fuel) (stale : Popen)
    (popen : Option Bytes) :
    (∃ st, runPopen conv heap fuel stale popen = .ok st ∧ Usable .encrypt st.buffer) ↔
      Prints conv stale.buffer popen := by
  unfold Prints
  cases popen with
  | none =>
    constructor
    · rintro ⟨st, hOk, hUse⟩
      obtain rfl := Except.ok.inj hOk
      exact absurd hUse (by simp [Usable])
    · rintro ⟨o, hNone, _⟩
      exact absurd hNone (by simp)
  | some o =>
    have hGoal : (∃ st, runPopen conv heap fuel stale (some o) = .ok st ∧ Usable .encrypt st.buffer) ↔
        (o = [] → ∃ t, stale.buffer.Holds t) ∧
          (o ≠ [] → ∃ t, stale.buffer.str = .ok t ∧
            (t ++ text (fgets (PATH_SIZE - 2) (PATH_SIZE - 2) o)).length < longest conv) := by
      by_cases hEmpty : o = []
      · subst hEmpty
        constructor
        · rintro ⟨st, hOk, hUse⟩
          obtain rfl := Except.ok.inj hOk
          exact ⟨fun _ => holds_of_usable hUse, fun h => absurd rfl h⟩
        · rintro ⟨hStale, _⟩
          obtain ⟨t, ht⟩ := hStale rfl
          exact ⟨stale, rfl, usable_of_holds (by decide) ht⟩
      · have hSome : fgets (PATH_SIZE - 2) (PATH_SIZE - 2) o ≠ [] := fun h =>
          hEmpty (fgets_eq_nil_iff.mp h)
        constructor
        · rintro ⟨st, hOk, _⟩
          obtain ⟨t, hStr, hLen, _⟩ := readAll_inv hGrants hFuel hSome hOk
          exact ⟨fun h => absurd h hEmpty, fun _ => ⟨t, hStr, hLen⟩⟩
        · rintro ⟨_, hStale⟩
          obtain ⟨t, hStr, hLen⟩ := hStale hEmpty
          obtain ⟨st, hOk, hHolds, _⟩ := readAll_ok hGrants hFuel hSome hStr hLen
          exact ⟨st, hOk, usable_of_holds (by decide) hHolds⟩
    rw [hGoal]
    simp

-- ---------------------------------------------------------------------------
-- One request
-- ---------------------------------------------------------------------------

/-- The answer to a request, with an empty string in `out_data`. -/
theorem answer_usable_iff (hGrants : heap.Grants) (hFuel : 31 ≤ fuel) {s : Reply} (r : Request)
    {empty : Bytes} (hOut : s.out = .block empty) (hEmpty : cstr empty = some []) :
    ((answer conv heap fuel s r).2 = true ∧ Usable .encrypt (answer conv heap fuel s r).1.out) ↔
      (r.newline = true → 13 ≤ empty.length) ∧
        (r.newline = false → Prints conv r.stale r.popen) := by
  unfold answer
  cases hLine : r.newline with
  | true =>
    rw [if_pos rfl]
    by_cases hRoom : 13 ≤ empty.length
    · have hUse : Usable .sprintf s.out := ⟨empty, hOut, by simp [hEmpty], fun _ => hRoom⟩
      rw [if_pos hUse]
      refine ⟨fun _ => ⟨fun _ => hRoom, fun h => absurd h (by decide)⟩, fun _ => ⟨rfl, ?_⟩⟩
      rw [hOut]
      exact usable_of_holds (by decide) ⟨_, rfl, cstr_noCommand empty⟩
    · have hNot : ¬ Usable .sprintf s.out := by
        rintro ⟨bytes, hEq, _, hLen⟩
        obtain rfl : empty = bytes := Ptr.block.inj (hOut.symm.trans hEq)
        exact hRoom (hLen rfl)
      rw [if_neg hNot]
      exact ⟨fun h => absurd h.1 (by simp), fun h => absurd (h.1 rfl) hRoom⟩
  | false =>
    rw [if_neg (by decide)]
    have hPopen : _ ↔ Prints conv r.stale r.popen :=
      runPopen_usable_iff hGrants hFuel ⟨r.stale, r.msgsize, s.clock⟩ r.popen
    refine Iff.trans ?_ (hPopen.trans ⟨fun h => ⟨fun h' => absurd h' (by decide), fun _ => h⟩,
      fun h => h.2 rfl⟩)
    cases runPopen conv heap fuel ⟨r.stale, r.msgsize, s.clock⟩ r.popen with
    | error u => simp
    | ok st => simp

/-- An answer that goes on has used nothing that cannot be used. -/
theorem answer_uses {s : Reply} {r : Request} (h : (answer conv heap fuel s r).2 = true) :
    (∀ v ∈ (answer conv heap fuel s r).1.uses, Usable v.1 v.2) ↔ ∀ v ∈ s.uses, Usable v.1 v.2 := by
  unfold answer at h ⊢
  cases hLine : r.newline with
  | true =>
    by_cases hUse : Usable .sprintf s.out
    · simp [hUse, Reply.use, or_imp, forall_and]
    · simp [hLine, hUse] at h
  | false =>
    cases hRun : runPopen conv heap fuel ⟨r.stale, r.msgsize, s.clock⟩ r.popen with
    | error u => simp [hLine, hRun] at h
    | ok st => simp

theorem usable_bzero_iff {p : Ptr} : Usable .bzero p ↔ Usable .encrypt p := by
  simp [Usable]

/-- **One request.** All uses up to the end of a turn are possible, and the next one too,
exactly when this was so before the turn and the turn is safe. -/
theorem turn_sound_iff (hGrants : heap.Grants) (hFuel : 31 ≤ fuel) {s s' : Reply} {r : Request}
    (hStep : replyStep conv heap fuel s r = some s') : Sound s' ↔ Sound s ∧ Safe conv s r := by
  unfold replyStep at hStep
  split at hStep
  swap
  · exact absurd hStep (by simp)
  next hAlive =>
  obtain rfl := Option.some.inj hStep
  unfold turn
  by_cases hBzero : Usable .bzero s.out
  swap
  · rw [if_neg hBzero]
    exact ⟨fun h => absurd h.alive (by simp), fun h => absurd h.1.next hBzero⟩
  rw [if_pos hBzero]
  obtain ⟨bytes, hOut, hStr, _⟩ := id hBzero
  obtain ⟨t, ht⟩ := Option.isSome_iff_exists.mp hStr
  obtain ⟨empty, hClear, hEmpty, hLength⟩ := clearString_cstr ht
  have hCleared : cleared s.out = .block empty := by simp [hOut, cleared, hClear]
  have hSound : Sound s ↔ ∀ v ∈ s.uses, Usable v.1 v.2 :=
    ⟨fun h => h.uses, fun h => ⟨hAlive, h, hBzero⟩⟩
  have hUses : (∀ v ∈ (s.use .bzero).uses, Usable v.1 v.2) ↔ ∀ v ∈ s.uses, Usable v.1 v.2 := by
    simp [Reply.use, or_imp, forall_and, hBzero]
  by_cases hStops : r.Stops
  · -- the connection ends with an empty string in `out_data`
    have hSafe : Safe conv s r := fun h => absurd hStops h
    rw [if_pos hStops, hSound, ← hUses]
    refine ⟨fun h => ⟨h.uses, hSafe⟩, fun h => ⟨hAlive, h.1, ?_⟩⟩
    rw [hCleared]
    exact usable_of_holds (by decide) ⟨empty, rfl, hEmpty⟩
  · rw [if_neg hStops, hSound, ← hUses]
    generalize hCont : ({ s.use .bzero with out := cleared s.out } : Reply) = s₁
    have hOut₁ : s₁.out = .block empty := by rw [← hCont, hCleared]
    have hUses₁ : s₁.uses = (s.use .bzero).uses := by rw [← hCont]
    have hSafe : Safe conv s r ↔
        (answer conv heap fuel s₁ r).2 = true ∧ Usable .encrypt (answer conv heap fuel s₁ r).1.out := by
      rw [answer_usable_iff hGrants hFuel r hOut₁ hEmpty]
      unfold Safe
      rw [hOut]
      simp [hStops, hLength]
    rw [hSafe, ← hUses₁]
    have hKeep : (answer conv heap fuel s₁ r).2 = true →
        ((∀ v ∈ (answer conv heap fuel s₁ r).1.uses, Usable v.1 v.2) ↔
          ∀ v ∈ s₁.uses, Usable v.1 v.2) := answer_uses
    generalize answer conv heap fuel s₁ r = result at hKeep ⊢
    obtain ⟨s₂, _ | _⟩ := result
    · exact ⟨fun h => absurd h.alive (by simp), fun h => absurd h.2.1 (by simp)⟩
    · rw [← hKeep rfl]
      constructor
      · intro h
        have hEncrypt : Usable .encrypt s₂.out := by simpa using h.alive
        exact ⟨fun v hv => h.uses v (List.mem_append_left _ hv), rfl, hEncrypt⟩
      · rintro ⟨hOld, _, hEncrypt⟩
        refine ⟨by simpa using hEncrypt, ?_, usable_bzero_iff.mpr hEncrypt⟩
        intro v hv
        rcases List.mem_append.mp hv with hv | hv
        · exact hOld v hv
        · obtain rfl := List.mem_singleton.mp hv
          exact hEncrypt

/-- **The server's own step.** With a string in `out_data`, and `run_popen` as in the server's
world, the answer puts into `out_data` what the server puts there. -/
theorem answer_runCommand {W : World} {sv : Server} {s : Reply} {r : Request}
    (hOut : s.out = .block sv.outData) (hStr : (cstr sv.outData).isSome = true)
    (hWorld : ∀ arr, W.runPopen sv.log ((cstr r.inData).getD []) = some arr ↔
      ∃ st, runPopen conv heap fuel ⟨r.stale, r.msgsize, s.clock⟩ r.popen = .ok st ∧
        st.buffer = .block arr)
    (h : (runCommand W sv r.inBuffer r.inData).2 = true) :
    (answer conv heap fuel s r).2 = true ∧
      (answer conv heap fuel s r).1.out = .block (runCommand W sv r.inBuffer r.inData).1.outData := by
  have hNewline : r.newline = (isNewline r.inBuffer || isNewline r.inData) := rfl
  unfold runCommand at h ⊢
  unfold answer
  rw [← hNewline] at h ⊢
  generalize r.newline = line at h ⊢
  cases line with
  | true =>
    simp only [if_true] at h ⊢
    by_cases hRoom : NO_COMMAND.length < sv.outData.length
    · have hUse : Usable .sprintf s.out := ⟨sv.outData, hOut, hStr, fun _ => hRoom⟩
      rw [if_pos hUse, if_pos hRoom, hOut]
      exact ⟨rfl, rfl⟩
    · rw [if_neg hRoom] at h
      exact absurd h (by simp)
  | false =>
    simp only [Bool.false_eq_true, if_false] at h ⊢
    cases hRun : W.runPopen sv.log ((cstr r.inData).getD []) with
    | none =>
      rw [hRun] at h
      exact absurd h (by simp)
    | some arr =>
      obtain ⟨st, hOk, hBlock⟩ := (hWorld arr).mp hRun
      rw [hOk]
      exact ⟨rfl, hBlock⟩

-- ---------------------------------------------------------------------------
-- Every sequence of requests
-- ---------------------------------------------------------------------------

instance (s : Reply) : Decidable (Sound s) :=
  decidable_of_iff (s.alive = true ∧ (∀ v ∈ s.uses, Usable v.1 v.2) ∧ Usable .bzero s.out)
    ⟨fun h => ⟨h.1, h.2.1, h.2.2⟩, fun h => ⟨h.alive, h.uses, h.next⟩⟩

/-- **The reply buffer.** Over any sequence of requests, on any number of connections, every
use of `out_data` finds a block with a terminator, large enough for the message when it is
printed there, exactly when the block of the first `malloc` had one and every request was
safe when it came. -/
theorem reply_usable_iff (conv : Convention) {heap : Heap} (hGrants : heap.Grants) {fuel : Nat}
    (hFuel : 31 ≤ fuel) (bytes : Bytes) {es : List Request} {s : Reply}
    (hRun : Transition.run (replyStep conv heap fuel) (started bytes) es = some s) :
    Sound s ↔ (cstr bytes).isSome = true ∧
      Transition.Along (replyStep conv heap fuel) (Safe conv) (started bytes) es := by
  have hStart : Sound (started bytes) ↔ (cstr bytes).isSome = true := by
    constructor
    · intro h
      obtain ⟨_, hEq, hStr, _⟩ := h.next
      rwa [← Ptr.block.inj hEq] at hStr
    · intro h
      exact ⟨rfl, by simp [started], bytes, rfl, h, by simp⟩
  rw [← hStart]
  exact Transition.run_iff_along (fun _ _ _ => turn_sound_iff hGrants hFuel) hRun

/-- An empty line. -/
def emptyLine : Request := ⟨[10, 0], [10, 0], none, 0, .wild⟩

/-- A command, what it prints, and what is in the slot of `buffer` by then. -/
def command (popen : Option Bytes) (stale : Ptr) : Request := ⟨[1, 0], [108, 115, 0], popen, 0, stale⟩

/-- The server on a block of zeros. -/
def served (es : List Request) : Option Reply :=
  Transition.run (replyStep .c99 generous 31) (started (zeros MSG_SIZE)) es

/-- What a run on concrete requests is checked for. -/
theorem exists_of_any {r : Option Reply} {P : Reply → Prop} [DecidablePred P]
    (h : r.any (fun s => decide (P s)) = true) : ∃ s, r = some s ∧ P s := by
  cases r with
  | none => exact absurd h (by simp)
  | some s => exact ⟨s, rfl, by simpa using h⟩

/-- An empty line, then a command over an empty string. -/
theorem reply_usable_two :
    ∃ s, served [emptyLine, command (some [104, 105]) (.block [0])] = some s ∧ Sound s ∧
      Transition.Along (replyStep .c99 generous 31) (Safe .c99) (started (zeros MSG_SIZE))
        [emptyLine, command (some [104, 105]) (.block [0])] := by
  obtain ⟨s, hRun, hSound⟩ := exists_of_any (P := Sound)
    (r := served [emptyLine, command (some [104, 105]) (.block [0])]) (by decide +kernel)
  exact ⟨s, hRun, hSound,
    ((reply_usable_iff .c99 generous_grants (Nat.le_refl 31) (zeros MSG_SIZE) hRun).mp hSound).2⟩

/-- A command that cannot be started leaves NULL to be encrypted; and after a command that
prints two characters, an empty line has three bytes for its message. -/
theorem reply_unusable :
    (∃ s, served [command none (.block [0])] = some s ∧
      (Use.encrypt, Ptr.null) ∈ s.uses ∧ ¬ Usable .encrypt .null) ∧
    (∃ s, served [command (some [104, 105]) (.block [0]), emptyLine] = some s ∧
      (Use.sprintf, Ptr.block [0, 0, 0]) ∈ s.uses ∧ ¬ Usable .sprintf (.block [0, 0, 0])) := by
  constructor
  · obtain ⟨s, hRun, hUse⟩ := exists_of_any (P := fun s => (Use.encrypt, Ptr.null) ∈ s.uses)
      (r := served [command none (.block [0])]) (by decide +kernel)
    exact ⟨s, hRun, hUse, by decide⟩
  · obtain ⟨s, hRun, hUse⟩ := exists_of_any (P := fun s => (Use.sprintf, Ptr.block [0, 0, 0]) ∈ s.uses)
      (r := served [command (some [104, 105]) (.block [0]), emptyLine]) (by decide +kernel)
    exact ⟨s, hRun, hUse, by decide⟩

end VirtioCrypto.Shell
