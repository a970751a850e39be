import VirtioCrypto.Guest.Port
import VirtioCrypto.Transition

/-!
# Guest — the out queue and its full flag

`outvq_full` is set by `send_buf` when the request took the last descriptor and cleared by
`reclaim_consumed_buffers`, one used buffer at a time. The spin of a blocking `send_buf`
takes a used buffer as well, its own or another caller's, and leaves the flag alone. Whoever
holds `outvq_lock` is between two turns of one of these loops while the host goes on
consuming, so a step here is one turn of the holder or one buffer of the host.

* `turns_reclaim`, `turns_send` — turns without the host between them are the calls of
  `Guest.Port`;
* `step_counted` — with the flag set at most one descriptor is free, and none while the
  spin waits;
* `run_full_outstanding` — a full queue is never reported with nothing outstanding.
-/

namespace VirtioCrypto.Guest.Capacity

open Octets Transition

variable {β : Type}

-- ---------------------------------------------------------------------------
-- The lock and its holders
-- ---------------------------------------------------------------------------

/-- What `reclaim_consumed_buffers` is called from: `send_buf`, or a caller that only
looks (`will_write_block`, `open`, `release`). -/
inductive Task
  | send (e : Elem) (nonblock : Bool)
  | look
deriving DecidableEq, Repr

/-- Where the holder of `outvq_lock` is. -/
inductive Holder
  | free
  | reclaiming (task : Task)
  | adding (e : Elem) (nonblock : Bool)
  | spinning
deriving DecidableEq, Repr

structure State (β : Type) where
  port : Port β
  ovq : OutVq
  holder : Holder

inductive Event
  | enter (task : Task)
  | turn
  | host
  | connected (guest host : Bool)

/-- One turn of the holder: an iteration of the reclaim loop, `virtqueue_add_buf` with what
follows it, or an iteration of the spin. -/
def turn (s : State β) : Option (State β) :=
  match s.holder with
  | .free => none
  | .reclaiming task =>
    match s.ovq.used with
    | _ :: rest =>
      some { s with
        port := { s.port with outvqFull := false, outFree := s.port.outFree + 1 }
        ovq := { s.ovq with used := rest } }
    | [] =>
      match task with
      | .send e nonblock => some { s with holder := .adding e nonblock }
      | .look => some { s with holder := .free }
  | .adding e nonblock =>
    if s.port.outFree = 0 then some { s with holder := .free }
    else
      some
        { port := { s.port with
            outFree := s.port.outFree - 1
            outvqFull := s.port.outvqFull || s.port.outFree - 1 == 0 }
          ovq := { s.ovq with avail := s.ovq.avail ++ [e] }
          holder := if nonblock then .free else .spinning }
  | .spinning =>
    match spin s.port s.ovq with
    | none => some s
    | some r => some ⟨r.1, r.2, .free⟩

def step (s : State β) : Event → Option (State β)
  | .enter task => if s.holder = .free then some { s with holder := .reclaiming task } else none
  | .turn => turn s
  | .host =>
    match s.ovq.avail with
    | [] => none
    | e :: avail => some { s with ovq := { s.ovq with avail := avail, used := s.ovq.used ++ [e] } }
  | .connected guest host =>
    some { s with port := { s.port with guestConnected := guest, hostConnected := host } }

/-- A port as `add_port` leaves it, with an out queue of `n` descriptors. -/
def plugged (port : Port β) (n : Nat) : State β where
  port := { port with outvqFull := false, outFree := n }
  ovq := ⟨true, [], []⟩
  holder := .free

/-- The buffers of the out queue that have not been reclaimed. -/
def State.outstanding (s : State β) : Nat := s.ovq.avail.length + s.ovq.used.length

-- ---------------------------------------------------------------------------
-- The calls, without the host between their turns
-- ---------------------------------------------------------------------------

/-- The reclaim loop to its end. -/
theorem turns_reclaim (port : Port β) (ovq : OutVq) (task : Task) :
    run step ⟨port, ovq, .reclaiming task⟩ (List.replicate ovq.used.length .turn) =
      some ⟨(reclaimConsumedBuffers port ovq).1, (reclaimConsumedBuffers port ovq).2,
        .reclaiming task⟩ := by
  obtain ⟨ready, avail, used⟩ := ovq
  induction used generalizing port with
  | nil => simp [run, reclaimConsumedBuffers]
  | cons b used ih =>
    have hOne : step ⟨port, ⟨ready, avail, b :: used⟩, .reclaiming task⟩ .turn =
        some ⟨{ port with outvqFull := false, outFree := port.outFree + 1 }, ⟨ready, avail, used⟩,
          .reclaiming task⟩ := rfl
    rw [List.length_cons, List.replicate_succ, run, hOne, Option.bind_some, ih]
    simp [reclaimConsumedBuffers, Nat.add_assoc, Nat.add_comm 1]

/-- `send_buf` from the lock to `virtqueue_add_buf`. -/
theorem turns_send (port : Port β) (ovq : OutVq) (e : Elem) (nonblock : Bool) :
    run step ⟨port, ovq, .reclaiming (.send e nonblock)⟩
        (List.replicate ovq.used.length .turn ++ [.turn, .turn]) =
      some ⟨(sendBuf port ovq e).2.1, (sendBuf port ovq e).2.2,
        if (sendBuf port ovq e).1 && !nonblock then .spinning else .free⟩ := by
  rw [run_append, turns_reclaim, Option.bind_some]
  have hDone : (reclaimConsumedBuffers port ovq).2.used = [] := rfl
  unfold sendBuf
  generalize reclaimConsumedBuffers port ovq = r at hDone
  obtain ⟨port', ready, avail, used⟩ := r
  obtain rfl : used = [] := hDone
  by_cases hFull : port'.outFree = 0
  · simp [run, step, turn, hFull]
  · cases nonblock <;> simp [run, step, turn, hFull]

-- ---------------------------------------------------------------------------
-- Counting descriptors
-- ---------------------------------------------------------------------------

/-- Every descriptor is free or holds an outstanding buffer; with the flag set at most one
is free, and none before a spin has taken its buffer. -/
structure Counted (n : Nat) (s : State β) : Prop where
  descriptors : s.port.outFree + s.outstanding = n
  full : s.port.outvqFull = true → s.port.outFree ≤ 1
  spinning : s.port.outvqFull = true → s.holder = .spinning → s.port.outFree = 0

theorem plugged_counted (port : Port β) (n : Nat) : Counted n (plugged port n) where
  descriptors := rfl
  full := fun h => absurd h (by simp [plugged])
  spinning := fun h => absurd h (by simp [plugged])

theorem turn_counted {n : Nat} {s s' : State β} (h : Counted n s) (hTurn : turn s = some s') :
    Counted n s' := by
  obtain ⟨port, ⟨ready, avail, used⟩, holder⟩ := s
  obtain ⟨hDesc, hFull, hSpin⟩ := h
  simp only [State.outstanding] at hDesc hFull hSpin
  cases holder with
  | free => exact absurd hTurn (by simp [turn])
  | reclaiming task =>
    cases used with
    | cons b rest =>
      obtain rfl := Option.some.inj hTurn
      refine ⟨?_, fun h => absurd h (by simp), fun h => absurd h (by simp)⟩
      simp only [State.outstanding, List.length_cons] at hDesc ⊢
      omega
    | nil =>
      cases task <;>
      · obtain rfl := Option.some.inj hTurn
        exact ⟨hDesc, hFull, fun _ h => absurd h (by simp)⟩
  | adding e nonblock =>
    simp only [turn] at hTurn
    split at hTurn
    · obtain rfl := Option.some.inj hTurn
      exact ⟨hDesc, hFull, fun _ h => absurd h (by simp)⟩
    next hRoom =>
    -- the flag is set now if this took the last descriptor, or if it was set before, and
    -- then there was one descriptor left
    obtain rfl := Option.some.inj hTurn
    have hLast : (port.outvqFull || port.outFree - 1 == 0) = true → port.outFree - 1 = 0 := by
      intro hSet
      rcases Bool.or_eq_true_iff.mp hSet with hBefore | hNow
      · have := hFull hBefore
        omega
      · simpa using hNow
    refine ⟨?_, fun hSet => Nat.le_of_eq (hLast hSet) |>.trans (Nat.zero_le 1), fun hSet _ => hLast hSet⟩
    simp only [State.outstanding, List.length_append, List.length_singleton]
    omega
  | spinning =>
    cases used with
    | nil =>
      obtain rfl := Option.some.inj hTurn
      exact ⟨hDesc, hFull, hSpin⟩
    | cons b rest =>
      obtain rfl := Option.some.inj hTurn
      refine ⟨?_, fun hSet => ?_, fun _ h => absurd h (by simp)⟩
      · simp only [State.outstanding, List.length_cons] at hDesc ⊢
        omega
      · have := hSpin hSet rfl
        simp only at this ⊢
        omega

theorem step_counted {n : Nat} {s : State β} {e : Event} {s' : State β} (h : Counted n s)
    (hStep : step s e = some s') : Counted n s' := by
  cases e with
  | enter task =>
    simp only [step] at hStep
    split at hStep
    · obtain rfl := Option.some.inj hStep
      exact ⟨h.descriptors, h.full, fun _ hHolder => absurd hHolder (by simp)⟩
    · exact absurd hStep (by simp)
  | turn => exact turn_counted h hStep
  | host =>
    obtain ⟨port, ⟨ready, avail, used⟩, holder⟩ := s
    cases avail with
    | nil => exact absurd hStep (by simp [step])
    | cons b avail =>
      obtain rfl := Option.some.inj hStep
      refine ⟨?_, h.full, h.spinning⟩
      rw [← h.descriptors]
      simp only [State.outstanding, List.length_cons, List.length_append, List.length_nil]
      omega
  | connected guest host =>
    obtain rfl := Option.some.inj hStep
    exact ⟨h.descriptors, h.full, h.spinning⟩

-- ---------------------------------------------------------------------------
-- A full queue is not an empty one
-- ---------------------------------------------------------------------------

/-- When the host has consumed everything, a flag that is set has a used buffer to clear
it. -/
theorem Counted.willWriteBlock_false {n : Nat} (hn : 2 ≤ n) {s : State β} (h : Counted n s)
    (hHost : s.port.hostConnected = true) (hAvail : s.ovq.avail = []) :
    (willWriteBlock s.port s.ovq).1 = false := by
  unfold willWriteBlock
  split
  · rfl
  rw [hHost, if_neg (by decide)]
  by_cases hFull : s.port.outvqFull = true
  · have hFew := h.full hFull
    have hDesc := h.descriptors
    simp only [State.outstanding, hAvail, List.length_nil] at hDesc
    have hUsed : s.ovq.used ≠ [] := by
      intro hNil
      rw [hNil, List.length_nil] at hDesc
      omega
    simp [reclaimConsumedBuffers, hUsed]
  · simp [reclaimConsumedBuffers, hFull]

/-- **The full flag.** On an out queue of two descriptors or more, however senders, the host
and reclaiming callers interleave: with `outvq_full` set, all buffers but at most one are
outstanding; and `will_write_block` does not report a full queue once the host has consumed
what was sent. -/
theorem run_full_outstanding (port : Port β) {n : Nat} (hn : 2 ≤ n) {es : List Event} {s : State β}
    (hRun : run step (plugged port n) es = some s) :
    (s.port.outvqFull = true → n - 1 ≤ s.outstanding ∧ 1 ≤ s.outstanding) ∧
      (s.port.hostConnected = true → s.ovq.avail = [] → (willWriteBlock s.port s.ovq).1 = false) := by
  have hCounted : Counted n s :=
    run_keeps (fun _ _ _ => step_counted) (plugged_counted port n) hRun
  refine ⟨fun hFull => ?_, fun hHost hAvail => hCounted.willWriteBlock_false hn hHost hAvail⟩
  have hDesc := hCounted.descriptors
  have hFew := hCounted.full hFull
  omega

/-- Two descriptors: a request that is not waited for, and one whose spin takes the first's
buffer. The flag is set, and the second request is still with the host. -/
theorem run_full_outstanding_two :
    (run step (plugged (β := UInt8) ⟨none, false, true, true, 0, 0⟩ 2)
        [.enter (.send ⟨1, []⟩ true), .turn, .turn, .enter (.send ⟨2, []⟩ false), .turn, .turn,
          .host, .turn]).map (fun s => (s.port.outvqFull, s.outstanding)) = some (true, 1) ∧
      ∀ s, run step (plugged (β := UInt8) ⟨none, false, true, true, 0, 0⟩ 2)
        [.enter (.send ⟨1, []⟩ true), .turn, .turn, .enter (.send ⟨2, []⟩ false), .turn, .turn,
          .host, .turn] = some s →
        s.port.outvqFull = true → 2 - 1 ≤ s.outstanding ∧ 1 ≤ s.outstanding :=
  ⟨by decide, fun _ hRun => (run_full_outstanding _ (by decide) hRun).1⟩

/-- With a single descriptor the flag outlives its buffer. -/
example :
    (run step (plugged (β := UInt8) ⟨none, false, true, true, 0, 0⟩ 1)
      [.enter (.send ⟨1, []⟩ false), .turn, .turn, .host, .turn]).map
        (fun s => (s.port.outvqFull, s.outstanding)) = some (true, 0) := by
  decide

end VirtioCrypto.Guest.Capacity
