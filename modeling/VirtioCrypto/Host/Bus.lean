import VirtioCrypto.Host.Port

/-!
# Host — the flush loop of the bus

`do_flush_queued_data` of `virtio-serial-bus.c`, generic in the port's
`have_data` callback: the callback's state `S` is whatever the callback works
on, and `throttled` reads the flag from it. The loop keeps the element it is
working on with the segment and offset it got to, so that a later call can
resume; an error code other than `-EAGAIN` is an `abort()`.

`handle_output` is what a notification runs: discard when the host side is
closed, flush otherwise (the throttled case flushes too, and the loop then does
nothing).
-/

namespace VirtioCrypto.Host

open Octets Cryptodev

variable {S σ : Type}

/-- The part of a port the flush loop works on: the callback's state, the out
queue, and the element left off mid-way (`outNum = 0` when there is none). -/
structure Flush (S : Type) where
  st : S
  ovq : OutVq
  elem : Elem
  outNum : Nat
  iovIdx : Nat
  iovOffset : Nat

/-- A `have_data` callback on `len` bytes at `base`. -/
abbrev HaveData (S : Type) := S → Nat → Nat → S × Except Fault Int

/-- The inner `for` over the segments from index `i`, the first one from offset
`off`: `none` when all of them were consumed, else where the loop broke off. -/
def flushSegs (haveData : HaveData S) :
    List (Nat × Nat) → Nat → Nat → S → S × Except Fault (Option (Nat × Nat))
  | [], _, _, st => (st, .ok none)
  | (base, len) :: segs, i, off, st =>
    match haveData st (base + off) (len - off) with
    | (st, .error f) => (st, .error f)
    | (st, .ok r) =>
      if r < 0 ∧ r ≠ -EAGAIN then (st, .error .abort)
      else if r = -EAGAIN ∨ (0 ≤ r ∧ r < (len - off : Nat)) then
        (st, .ok (some (i, if 0 < r then off + r.toNat else off)))
      else flushSegs haveData segs (i + 1) 0 st

/-- Pop an element unless one was left off mid-way. -/
def Flush.pop (p : Flush S) : Option (Flush S) :=
  if p.outNum ≠ 0 then some p else
  match p.ovq.avail with
  | [] => none
  | e :: rest =>
    some { p with ovq := { p.ovq with avail := rest }, elem := e, outNum := e.outSg.length,
                  iovIdx := 0, iovOffset := 0 }

/-- `virtqueue_push` of the current element. -/
def Flush.push (p : Flush S) : Flush S :=
  { p with ovq := { p.ovq with used := p.ovq.used ++ [p.elem] }, outNum := 0 }

/-- The segments of the current element still to be handed over. -/
def Flush.segs (p : Flush S) : List (Nat × Nat) :=
  (p.elem.outSg.take p.outNum).drop p.iovIdx

/-- The `while` loop of `do_flush_queued_data`. Every turn pushes an element or ends the loop:
one turn for each queued element, one for an element left off half-way, and one to find the
queue empty are enough. -/
def flushLoop (haveData : HaveData S) (throttled : S → Bool) :
    Nat → Flush S → Flush S × Option Fault
  | 0, p => (p, none)
  | fuel + 1, p =>
    if throttled p.st then (p, none) else
    match p.pop with
    | none => (p, none)
    | some p =>
      match flushSegs haveData p.segs p.iovIdx p.iovOffset p.st with
      | (st, .error f) => ({ p with st := st }, some f)
      | (st, .ok r) =>
        let p := match r with
          | some (i, off) => { p with st := st, iovIdx := i, iovOffset := off }
          | none => { p with st := st, iovOffset := 0 }
        if throttled p.st then (p, none)
        else flushLoop haveData throttled fuel p.push

/-- `do_flush_queued_data`. -/
def doFlushQueuedData (haveData : HaveData S) (throttled : S → Bool) (p : Flush S) :
    Flush S × Option Fault :=
  flushLoop haveData throttled (p.ovq.avail.length + 2) p

/-- `discard_vq_data`. -/
def discardVqData (q : OutVq) : OutVq :=
  if q.ready then { q with avail := [], used := q.used ++ q.avail } else q

theorem discardVqData_empties {q : OutVq} (h : q.ready = true) :
    (discardVqData q).ready = true ∧ (discardVqData q).avail = [] := by
  unfold discardVqData
  rw [if_pos h]
  exact ⟨h, rfl⟩

/-- The flush loop of a port whose callback is `flush_buf`. -/
def flushPort (dev : DevCrypto σ) (L : Layout) (p : Flush (Port σ)) :
    Flush (Port σ) × Option Fault :=
  doFlushQueuedData (flushBuf dev L) Port.throttled p

/-- `handle_output`. -/
def handleOutput (dev : DevCrypto σ) (L : Layout) (p : Flush (Port σ)) :
    Flush (Port σ) × Option Fault :=
  if p.st.hostConnected then flushPort dev L p
  else ({ p with ovq := discardVqData p.ovq }, none)

/-- What a guest can do to a port between two steps of the host: change its
memory, post an in-buffer, take the used in-buffers, queue a buffer. -/
inductive GuestEvent
  | poke (space : Space)
  | post (size : Nat)
  | drain
  | queue (e : Elem)

def GuestEvent.apply (p : Flush (Port σ)) : GuestEvent → Flush (Port σ)
  | .poke space => { p with st := { p.st with mem := { p.st.mem with space := space } } }
  | .post size =>
    { p with st := { p.st with ivq := { p.st.ivq with avail := p.st.ivq.avail ++ [size] } } }
  | .drain => { p with st := { p.st with ivq := { p.st.ivq with used := [] } } }
  | .queue e => { p with ovq := { p.ovq with avail := p.ovq.avail ++ [e] } }

theorem pop_eq_none {p : Flush S} (hIdle : p.outNum = 0) (hAvail : p.ovq.avail = []) :
    p.pop = none := by
  simp [Flush.pop, hIdle, hAvail]

/-- A throttled port is not flushed. -/
theorem flushLoop_throttled {haveData : HaveData S} {throttled : S → Bool} {p : Flush S}
    (hThr : throttled p.st = true) (fuel : Nat) :
    flushLoop haveData throttled fuel p = (p, none) := by
  cases fuel with
  | zero => rfl
  | succ => rw [flushLoop, if_pos hThr]

/-- With nothing to pop the loop does nothing. -/
theorem flushLoop_drained {haveData : HaveData S} {throttled : S → Bool} {p : Flush S}
    (hPop : p.pop = none) (fuel : Nat) : flushLoop haveData throttled fuel p = (p, none) := by
  cases fuel with
  | zero => rfl
  | succ =>
    rw [flushLoop, hPop]
    split <;> rfl

/-- The loop takes a turn and goes on from there, unless the turn faulted. -/
theorem flushLoop_succ (haveData : HaveData S) (throttled : S → Bool) (fuel : Nat) (p : Flush S) :
    flushLoop haveData throttled (fuel + 1) p =
      match flushLoop haveData throttled 1 p with
      | (q, some f) => (q, some f)
      | (q, none) => flushLoop haveData throttled fuel q := by
  by_cases hThr : throttled p.st = true
  · simp only [flushLoop_throttled hThr]
  rcases hPop : p.pop with _ | q
  · simp only [flushLoop_drained hPop]
  rw [← Nat.zero_add 1, flushLoop, flushLoop, if_neg hThr, if_neg hThr, hPop]
  simp only
  rcases flushSegs haveData q.segs q.iovIdx q.iovOffset q.st with ⟨st, f | r⟩
  · rfl
  · simp only
    generalize (match r with
      | some (i, off) => { q with st := st, iovIdx := i, iovOffset := off }
      | none => { q with st := st, iovOffset := 0 } : Flush S) = q'
    by_cases hThr' : throttled q'.st = true
    · rw [if_pos hThr', if_pos hThr']
      exact (flushLoop_throttled hThr' fuel).symm
    · rw [if_neg hThr', if_neg hThr']
      simp only [flushLoop]

/-- The port after a pass over the segments that ended in `st`. -/
def Flush.resume (p : Flush S) (st : S) : Option (Nat × Nat) → Flush S
  | some (i, off) => { p with st := st, iovIdx := i, iovOffset := off }
  | none => { p with st := st, iovOffset := 0 }

theorem resume_ovq (p : Flush S) (st : S) (r : Option (Nat × Nat)) :
    (p.resume st r).st = st ∧ (p.resume st r).ovq = p.ovq ∧ (p.resume st r).elem = p.elem := by
  cases r <;> exact ⟨rfl, rfl, rfl⟩

section Turn

variable {haveData : HaveData S} {throttled : S → Bool} {p q : Flush S}

/-- A turn on an element the callback faults on. -/
theorem flushLoop_one_fault (hThr : throttled p.st = false) (hPop : p.pop = some q) {st : S} {f : Fault}
    (hSegs : flushSegs haveData q.segs q.iovIdx q.iovOffset q.st = (st, .error f)) :
    flushLoop haveData throttled 1 p = ({ q with st := st }, some f) := by
  rw [flushLoop, hThr, hPop]
  simp only [Bool.false_eq_true, if_false, hSegs]

/-- A turn on an element whose segments were gone through: it is pushed unless the port is
throttled then. -/
theorem flushLoop_one (hThr : throttled p.st = false) (hPop : p.pop = some q) {st : S}
    {r : Option (Nat × Nat)}
    (hSegs : flushSegs haveData q.segs q.iovIdx q.iovOffset q.st = (st, .ok r)) :
    flushLoop haveData throttled 1 p =
      (if throttled st then q.resume st r else (q.resume st r).push, none) := by
  rw [flushLoop, hThr, hPop]
  simp only [Bool.false_eq_true, if_false, hSegs]
  rcases r with _ | ⟨i, off⟩
  · simp only [flushLoop]
    split <;> rfl
  · simp only [flushLoop]
    split <;> rfl

end Turn

end VirtioCrypto.Host
