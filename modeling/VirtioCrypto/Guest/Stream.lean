import VirtioCrypto.Guest.Port
import VirtioCrypto.Transition

/-!
# Guest — the in queue as a byte stream

The host's `write_to_port` and the guest's reading side on one open port. The
host writes at any time and gets back how much of the data the posted buffers
took. The guest side is `in_intr`, `port_has_data` and `fill_readbuf`; the last
takes `inbuf_lock` twice and copies in between, so it is two steps here and the
interrupt, a poll or the host can come between them (`fillReadbuf_eq` is the call
without that). One reader at a time: `reader` is the `fill_readbuf` that has found
data and is about to copy.

`accepted` and `handed` keep what has happened: the bytes `write_to_port` took
(the first `r` of each call, `r` its return value) and the bytes `fill_readbuf`
gave to its caller.

* `writeToPort_accepted` — a write appends what it accepts to the stream;
* `fillReadbuf_unread` — a read hands out the front of the unread bytes and
  leaves the rest;
* `step_conserved` — no step loses, repeats or reorders a byte.
-/

namespace VirtioCrypto.Guest.Stream

open Octets Transition

variable {β : Type}

/-- The bytes on the guest's side of the channel: the unread part of `inbuf`, then
the used buffers. A used buffer is read from its start (`get_inbuf`). -/
def unread (port : Port β) (vq : InVq β) : List β :=
  (port.inbuf.map fun buf => buf.data.drop buf.offset).getD [] ++ vq.stream

structure State (β : Type) where
  port : Port β
  vq : InVq β
  reader : Option Nat
  accepted : List β
  handed : List β

inductive Event (β : Type)
  | write (data : List β)
  | intr
  | poll
  | fill (outCount : Nat)
  | copy

/-- The second half of `fill_readbuf`, with `buf` in `inbuf`. -/
def copyOut (port : Port β) (vq : InVq β) (buf : PortBuffer β) (outCount : Nat) :
    List β × Port β × InVq β :=
  let n := min outCount (buf.data.length - buf.offset)
  (slice buf.data buf.offset n, finishInbuf port vq { buf with offset := buf.offset + n })

def step (s : State β) : Event β → Option (State β)
  | .write data =>
    let r := writeToPort s.vq data
    some { s with vq := r.1, accepted := s.accepted ++ data.take r.2 }
  | .intr =>
    let r := inIntr s.port s.vq
    some { s with port := r.1, vq := r.2 }
  | .poll =>
    let r := portHasData s.port s.vq
    some { s with port := r.2.1, vq := r.2.2 }
  | .fill outCount =>
    match s.reader with
    | some _ => none
    | none =>
      -- if (!out_count || !port_has_data(port)) return 0
      if outCount = 0 then some s
      else
        let r := portHasData s.port s.vq
        some { s with port := r.2.1, vq := r.2.2, reader := if r.1 then some outCount else none }
  | .copy =>
    match s.reader, s.port.inbuf with
    | some outCount, some buf =>
      let r := copyOut s.port s.vq buf outCount
      some { s with port := r.2.1, vq := r.2.2, reader := none, handed := s.handed ++ r.1 }
    | _, _ => none

/-- A port as a run finds it. What the host has written before counts as accepted. -/
def start (port : Port β) (vq : InVq β) : State β := ⟨port, vq, none, unread port vq, []⟩

-- ---------------------------------------------------------------------------
-- What the operations do to the unread bytes
-- ---------------------------------------------------------------------------

theorem unread_none {port : Port β} {vq : InVq β} (h : port.inbuf = none) :
    unread port vq = vq.stream := by
  simp [unread, h]

theorem unread_some {port : Port β} {vq : InVq β} {buf : PortBuffer β}
    (h : port.inbuf = some buf) : unread port vq = buf.data.drop buf.offset ++ vq.stream := by
  simp [unread, h]

/-- The first `r` bytes of a write are on their way, `r` its return value. -/
theorem writeToPort_accepted (vq : InVq β) (data : List β) :
    (writeToPort vq data).1.stream = vq.stream ++ data.take (writeToPort vq data).2 := by
  unfold writeToPort
  split
  · -- the accepted bytes are the data without what the loop left over
    have hAll := fillAvail_data vq.avail data
    generalize fillAvail vq.avail data = r at hAll ⊢
    obtain ⟨filled, avail, rest⟩ := r
    have hTake : data.take (data.length - rest.length) = (filled.map PortBuffer.data).flatten := by
      rw [← hAll, List.length_append, Nat.add_sub_cancel, List.take_left]
    simp only [hTake, InVq.stream, List.map_append, List.flatten_append]
  · simp

theorem portHasData_unread (port : Port β) (vq : InVq β) :
    unread (portHasData port vq).2.1 (portHasData port vq).2.2 = unread port vq := by
  rcases hb : port.inbuf with _ | buf
  · rcases hu : vq.used with _ | ⟨buf, rest⟩
    · rw [portHasData_nil hb hu]
    · rw [portHasData_cons hb hu, unread_none hb]
      simp [unread, InVq.stream, hu]
  · rw [portHasData_some hb]

/-- A look that finds data leaves it in `inbuf`; a look never empties it. -/
theorem portHasData_inbuf (port : Port β) (vq : InVq β) :
    (portHasData port vq).2.1.inbuf.isSome = (portHasData port vq).1 ∧
      ∀ buf, port.inbuf = some buf → (portHasData port vq).2.1.inbuf = some buf := by
  refine ⟨rfl, fun buf hb => ?_⟩
  rw [portHasData_some hb, hb]

/-- Posting the buffer that was read does not touch the bytes still to read. -/
theorem finishInbuf_unread (port : Port β) (vq : InVq β) (buf : PortBuffer β) :
    unread (finishInbuf port vq buf).1 (finishInbuf port vq buf).2 =
        buf.data.drop buf.offset ++ vq.stream ∧
      (finishInbuf port vq buf).1.guestConnected = port.guestConnected := by
  unfold finishInbuf
  split
  next hEnd =>
    rw [hEnd, List.drop_length, List.nil_append]
    unfold addInbuf
    split <;> exact ⟨unread_none rfl, rfl⟩
  · exact ⟨unread_some rfl, rfl⟩

/-- The copy hands out the front of the unread bytes. -/
theorem copyOut_unread {port : Port β} {buf : PortBuffer β} (h : port.inbuf = some buf)
    (vq : InVq β) (outCount : Nat) :
    (copyOut port vq buf outCount).1 ++
        unread (copyOut port vq buf outCount).2.1 (copyOut port vq buf outCount).2.2 =
      unread port vq := by
  simp only [copyOut, (finishInbuf_unread _ _ _).1]
  generalize min outCount (buf.data.length - buf.offset) = n
  rw [unread_some h, ← List.append_assoc, slice, ← List.drop_drop,
    List.take_append_drop]

-- ---------------------------------------------------------------------------
-- fill_readbuf as one call
-- ---------------------------------------------------------------------------

/-- `fill_readbuf` is the look and then the copy. -/
theorem fillReadbuf_eq (port : Port β) (vq : InVq β) {outCount : Nat} (hn : outCount ≠ 0) :
    fillReadbuf port vq outCount =
      match (portHasData port vq).2.1.inbuf with
      | none => ([], (portHasData port vq).2)
      | some buf => copyOut (portHasData port vq).2.1 (portHasData port vq).2.2 buf outCount := by
  unfold fillReadbuf copyOut
  refine (if_neg hn).trans ?_
  generalize portHasData port vq = r
  obtain ⟨found, port', vq'⟩ := r
  cases hb : port'.inbuf with
  | none => simp only [hb]
  | some buf => simp only [hb]

/-- A read hands out the front of the unread bytes and leaves the rest. -/
theorem fillReadbuf_unread (port : Port β) (vq : InVq β) (outCount : Nat) :
    (fillReadbuf port vq outCount).1 ++
        unread (fillReadbuf port vq outCount).2.1 (fillReadbuf port vq outCount).2.2 =
      unread port vq := by
  by_cases hn : outCount = 0
  · simp [fillReadbuf, hn]
  · rw [fillReadbuf_eq port vq hn, ← portHasData_unread port vq]
    generalize portHasData port vq = r
    split
    · rfl
    next buf hb => exact copyOut_unread hb r.2.2 outCount

-- ---------------------------------------------------------------------------
-- Runs
-- ---------------------------------------------------------------------------

/-- What the state of the channel says about the past. -/
structure Conserved (s : State β) : Prop where
  isOpen : s.port.guestConnected = true
  holds : s.reader.isSome → s.port.inbuf.isSome
  bytes : s.accepted = s.handed ++ unread s.port s.vq

/-- A look for data keeps all of it, whatever becomes of the reader. -/
theorem Conserved.look {s : State β} (h : Conserved s) {reader : Option Nat}
    (hReader : reader.isSome → s.reader.isSome ∨ (portHasData s.port s.vq).1 = true) :
    Conserved { s with port := (portHasData s.port s.vq).2.1, vq := (portHasData s.port s.vq).2.2,
                       reader := reader } := by
  refine ⟨(portHasData_flags _ _).1.trans h.isOpen, fun hr => ?_, ?_⟩
  · rcases hReader hr with hOld | hData
    · obtain ⟨buf, hb⟩ := Option.isSome_iff_exists.mp (h.holds hOld)
      simp [(portHasData_inbuf s.port s.vq).2 buf hb]
    · exact (portHasData_inbuf s.port s.vq).1.trans hData
  · rw [portHasData_unread]
    exact h.bytes

theorem step_conserved (s : State β) (ev : Event β) (s' : State β) (h : Conserved s)
    (hStep : step s ev = some s') : Conserved s' := by
  cases ev with
  | write data =>
    obtain rfl := Option.some.inj hStep
    refine ⟨h.isOpen, h.holds, ?_⟩
    rw [h.bytes, List.append_assoc]
    simp only [unread, writeToPort_accepted, List.append_assoc]
  | intr =>
    obtain rfl := Option.some.inj hStep
    rw [inIntr_open h.isOpen]
    exact h.look .inl
  | poll =>
    obtain rfl := Option.some.inj hStep
    exact h.look .inl
  | fill outCount =>
    simp only [step] at hStep
    split at hStep
    · exact absurd hStep (by simp)
    · split at hStep
      · obtain rfl := Option.some.inj hStep
        exact h
      · obtain rfl := Option.some.inj hStep
        refine h.look fun hr => .inr ?_
        by_contra hNone
        simp [hNone] at hr
  | copy =>
    simp only [step] at hStep
    split at hStep
    next outCount buf _ hb =>
      obtain rfl := Option.some.inj hStep
      refine ⟨(finishInbuf_unread _ _ _).2.trans h.isOpen, nofun, ?_⟩
      rw [List.append_assoc, copyOut_unread hb]
      exact h.bytes
    · exact absurd hStep (by simp)

/-- On a port that stays open the bytes handed out are always a prefix of the
bytes accepted. What is missing is the unread part of `inbuf` and then the used
buffers, in this order. -/
theorem run_fifo (port : Port β) (vq : InVq β) (hOpen : port.guestConnected = true)
    (evs : List (Event β)) (s : State β) (hRun : run step (start port vq) evs = some s) :
    s.handed <+: s.accepted ∧
      s.accepted = s.handed ++
        ((s.port.inbuf.map fun buf => buf.data.drop buf.offset).getD [] ++
          (s.vq.used.map PortBuffer.data).flatten) := by
  have hEnd : Conserved s :=
    run_keeps step_conserved (s := start port vq) ⟨hOpen, nofun, rfl⟩ hRun
  exact ⟨⟨_, hEnd.bytes.symm⟩, hEnd.bytes⟩

/-- An open port with two posted buffers of two bytes. -/
def twoBuffers : Port Nat × InVq Nat := (⟨none, false, true, true, 0, 1⟩, ⟨true, [2, 2], []⟩)

/-- The second write finds no buffer, and the interrupt comes inside the first read. -/
def fullQueue : List (Event Nat) :=
  [.write [1, 2, 3], .fill 1, .intr, .copy, .write [4], .fill 8, .copy]

theorem full_queue_fifo :
    ∃ s, run step (start twoBuffers.1 twoBuffers.2) fullQueue = some s ∧
      s.handed = [1, 2] ∧ s.accepted = [1, 2, 3] ∧ s.handed <+: s.accepted ∧
      s.accepted = s.handed ++
        ((s.port.inbuf.map fun buf => buf.data.drop buf.offset).getD [] ++
          (s.vq.used.map PortBuffer.data).flatten) :=
  ⟨_, rfl, rfl, rfl, run_fifo twoBuffers.1 twoBuffers.2 rfl fullQueue _ rfl⟩

end VirtioCrypto.Guest.Stream
