import VirtioCrypto.Host.Handle
import VirtioCrypto.Host.Local

/-!
# Host — every element comes back

A driver that has queued a buffer waits for it with interrupts off, so an element
that is popped has to be pushed. Elements are popped in two loops, by
`do_flush_queued_data` and by `discard_vq_data`, and the first one has a place to
keep an element between two calls, `port->elem`. It is used for an element whose
turn ends with the port throttled; `flush_buf` never throttles, so a turn pushes
its element or ends QEMU.

`fault` is how QEMU ended; nothing happens after that. `handle` events stand for
`guest_open` and `guest_close`, with any outcome.

* `flushLoop_idle` — with a callback that does not throttle, a flush that returns
  leaves no element mid-way;
* `flushBuf_answerable` — on a known command `flush_buf` returns if the port has a
  crypto handle, and faults if it has none;
* `run_returned_iff` — elements come back in order exactly as long as no request is
  handed over on a port without a handle.
-/

namespace VirtioCrypto.Host

open Octets Cryptodev

variable {S σ : Type}

-- ---------------------------------------------------------------------------
-- Elements that are popped and pushed
-- ---------------------------------------------------------------------------

/-- No element is left off mid-way, and those the guest has offered are returned or
still queued, in order. -/
structure Idle (offered : List Elem) (p : Flush S) : Prop where
  outNum : p.outNum = 0
  elements : p.ovq.used ++ p.ovq.avail = offered

section Loop

variable {haveData : HaveData S} {throttled : S → Bool} {offered : List Elem}

theorem pop_idle {p q : Flush S} (h : Idle offered p) (hPop : p.pop = some q) :
    q.st = p.st ∧ q.ovq.used ++ q.elem :: q.ovq.avail = offered := by
  rw [Flush.pop, if_neg (not_not.mpr h.outNum)] at hPop
  have hAll := h.elements
  cases hAvail : p.ovq.avail with
  | nil => simp [hAvail] at hPop
  | cons e rest =>
    rw [hAvail] at hPop hAll
    obtain rfl := Option.some.inj hPop
    exact ⟨rfl, hAll⟩

theorem turn_idle
    (hKeep : CallbackKeeps haveData (fun st => throttled st = false) fun _ => True)
    {p : Flush S} (h : Idle offered p)
    (hReturn : (flushLoop haveData throttled 1 p).2 = none) :
    Idle offered (flushLoop haveData throttled 1 p).1 := by
  cases hThr : throttled p.st with
  | true =>
    rw [flushLoop_throttled hThr]
    exact h
  | false =>
    cases hPop : p.pop with
    | none =>
      rw [flushLoop_drained hPop]
      exact h
    | some q =>
      obtain ⟨hSt, hAll⟩ := pop_idle h hPop
      have hAfter := (flushSegs_inv hKeep q.segs q.iovIdx q.iovOffset (hSt ▸ hThr)).1
      rcases hSegs : flushSegs haveData q.segs q.iovIdx q.iovOffset q.st with ⟨st, f | r⟩
      · rw [flushLoop_one_fault hThr hPop hSegs] at hReturn
        exact absurd hReturn (by simp)
      · -- not throttled, so the element is pushed wherever the segments broke off
        rw [hSegs] at hAfter
        have hNot' : ¬ throttled st = true := by simp [hAfter]
        obtain ⟨-, hOvq, hElem⟩ := resume_ovq q st r
        rw [flushLoop_one hThr hPop hSegs, if_neg hNot']
        refine ⟨rfl, ?_⟩
        simp only [Flush.push, hOvq, hElem, List.append_assoc, List.singleton_append]
        exact hAll

/-- **A flush that returns leaves no element mid-way**, and has pushed those it
popped. -/
theorem flushLoop_idle
    (hKeep : CallbackKeeps haveData (fun st => throttled st = false) fun _ => True)
    (fuel : Nat) {p : Flush S} (h : Idle offered p)
    (hReturn : (flushLoop haveData throttled fuel p).2 = none) :
    Idle offered (flushLoop haveData throttled fuel p).1 := by
  induction fuel generalizing p with
  | zero => exact h
  | succ fuel ih =>
    have hTurn := turn_idle hKeep h
    rw [flushLoop_succ] at hReturn ⊢
    generalize flushLoop haveData throttled 1 p = r at hReturn hTurn ⊢
    rcases r with ⟨q, _ | f⟩
    · exact ih (hTurn rfl) hReturn
    · exact absurd hReturn (by simp)

theorem discardVqData_idle {p : Flush S} (h : Idle offered p) :
    Idle offered { p with ovq := discardVqData p.ovq } := by
  refine ⟨h.outNum, ?_⟩
  show (discardVqData p.ovq).used ++ (discardVqData p.ovq).avail = offered
  unfold discardVqData
  split
  · rw [← h.elements, List.append_nil]
  · exact h.elements

end Loop

-- ---------------------------------------------------------------------------
-- The calls of a flush
-- ---------------------------------------------------------------------------

section Calls

variable (haveData : HaveData S) (throttled : S → Bool) (P : S → Nat → Prop)

/-- `P` holds of every call of the callback in a pass over the segments: of the state
it is made in and the address it is given. -/
def SegCalls : List (Nat × Nat) → Nat → S → Prop
  | [], _, _ => True
  | (base, len) :: segs, off, st =>
    P st (base + off) ∧
      match haveData st (base + off) (len - off) with
      | (_, .error _) => True
      | (st', .ok r) => ¬ r < (len - off : Nat) → SegCalls segs 0 st'

/-- Of every call in one turn. -/
def TurnCalls (p : Flush S) : Prop :=
  throttled p.st = false → ∀ q, p.pop = some q → SegCalls haveData P q.segs q.iovOffset q.st

/-- Of every call in the turns of a flush. -/
def LoopCalls : Nat → Flush S → Prop
  | 0, _ => True
  | fuel + 1, p =>
    TurnCalls haveData throttled P p ∧
      match flushLoop haveData throttled 1 p with
      | (_, some _) => True
      | (q, none) => LoopCalls fuel q

variable [∀ st b, Decidable (P st b)]

instance decidableSegCalls :
    (segs : List (Nat × Nat)) → (off : Nat) → (st : S) → Decidable (SegCalls haveData P segs off st)
  | [], _, _ => isTrue trivial
  | (base, len) :: segs, off, st =>
    match hCall : haveData st (base + off) (len - off) with
    | (_, .error _) => decidable_of_iff (P st (base + off)) (by rw [SegCalls, hCall]; simp)
    | (st', .ok r) =>
      have := decidableSegCalls segs 0 st'
      decidable_of_iff
        (P st (base + off) ∧ (¬ r < (len - off : Nat) → SegCalls haveData P segs 0 st'))
        (by rw [SegCalls, hCall])

instance (p : Flush S) : Decidable (TurnCalls haveData throttled P p) :=
  match hPop : p.pop with
  | none => isTrue fun _ q hq => absurd (hPop.symm.trans hq) (by simp)
  | some q =>
    decidable_of_iff (throttled p.st = false → SegCalls haveData P q.segs q.iovOffset q.st)
      ⟨fun h hThr _ hq => Option.some.inj (hPop.symm.trans hq) ▸ h hThr, fun h hThr => h hThr q hPop⟩

instance decidableLoopCalls :
    (fuel : Nat) → (p : Flush S) → Decidable (LoopCalls haveData throttled P fuel p)
  | 0, _ => isTrue trivial
  | fuel + 1, p =>
    match hTurn : flushLoop haveData throttled 1 p with
    | (_, some _) =>
      decidable_of_iff (TurnCalls haveData throttled P p) (by rw [LoopCalls, hTurn]; simp)
    | (q, none) =>
      have := decidableLoopCalls fuel q
      decidable_of_iff (TurnCalls haveData throttled P p ∧ LoopCalls haveData throttled P fuel q)
        (by rw [LoopCalls, hTurn])

end Calls

/-- Among the calls with `D`, the callback returns a count from those with `C`, and
faults on the others. -/
structure Answerable (haveData : HaveData S) (D C : S → Nat → Prop) : Prop where
  returns : ∀ st b n, D st b → C st b → ∃ st' r, haveData st b n = (st', .ok r) ∧ 0 ≤ r
  faults : ∀ st b n, D st b → ¬ C st b → ∃ st' f, haveData st b n = (st', .error f)

section Loop

variable {haveData : HaveData S} {throttled : S → Bool} {D C : S → Nat → Prop}

theorem flushSegs_returns_iff (h : Answerable haveData D C) {segs : List (Nat × Nat)} {off : Nat}
    {st : S} (hD : SegCalls haveData D segs off st) (i : Nat) :
    (∃ st' r, flushSegs haveData segs i off st = (st', .ok r)) ↔ SegCalls haveData C segs off st := by
  induction segs generalizing i off st with
  | nil => exact ⟨fun _ => trivial, fun _ => ⟨st, none, rfl⟩⟩
  | cons seg segs ih =>
    obtain ⟨base, len⟩ := seg
    rw [SegCalls] at hD ⊢
    rw [flushSegs]
    by_cases hC : C st (base + off)
    · obtain ⟨st', r, hCall, hPos⟩ := h.returns st (base + off) (len - off) hD.1 hC
      have hRest := hD.2
      rw [hCall] at hRest ⊢
      simp only at hRest ⊢
      have hNoAbort : ¬ (r < 0 ∧ r ≠ -EAGAIN) := fun hNeg => absurd hNeg.1 (by omega)
      rw [if_neg hNoAbort, and_iff_right hC]
      have hEagain : (0 : Int) < EAGAIN := by decide
      by_cases hPart : r < (len - off : Nat)
      · rw [if_pos (Or.inr ⟨hPos, hPart⟩)]
        exact ⟨fun _ hFull => absurd hPart hFull, fun _ => ⟨_, _, rfl⟩⟩
      · have hGo : ¬ (r = -EAGAIN ∨ 0 ≤ r ∧ r < (len - off : Nat)) := by omega
        rw [if_neg hGo, ih (hRest hPart) (i + 1)]
        exact ⟨fun hSegs _ => hSegs, fun hSegs => hSegs hPart⟩
    · obtain ⟨st', f, hCall⟩ := h.faults st (base + off) (len - off) hD.1 hC
      rw [hCall]
      constructor
      · rintro ⟨_, _, hEq⟩
        simp at hEq
      · intro hSegs
        exact absurd hSegs.1 hC

theorem turn_returns_iff (h : Answerable haveData D C) {p : Flush S}
    (hD : TurnCalls haveData throttled D p) :
    (flushLoop haveData throttled 1 p).2 = none ↔ TurnCalls haveData throttled C p := by
  unfold TurnCalls at hD ⊢
  cases hThr : throttled p.st with
  | true =>
    rw [flushLoop_throttled hThr]
    exact ⟨fun _ hNot => absurd hNot (by simp), fun _ => rfl⟩
  | false =>
    cases hPop : p.pop with
    | none =>
      rw [flushLoop_drained hPop]
      exact ⟨fun _ _ q hq => by simp at hq, fun _ => rfl⟩
    | some q =>
      have hOne : (false = false → ∀ q', some q = some q' →
          SegCalls haveData C q'.segs q'.iovOffset q'.st) ↔
            SegCalls haveData C q.segs q.iovOffset q.st :=
        ⟨fun hC => hC rfl q rfl, fun hC _ _ hq => Option.some.inj hq ▸ hC⟩
      rw [hOne, ← flushSegs_returns_iff h (hD hThr q hPop) q.iovIdx]
      rcases hSegs : flushSegs haveData q.segs q.iovIdx q.iovOffset q.st with ⟨st, f | r⟩
      · rw [flushLoop_one_fault hThr hPop hSegs]
        constructor
        · intro hf
          simp at hf
        · rintro ⟨_, _, hEq⟩
          simp at hEq
      · rw [flushLoop_one hThr hPop hSegs]
        exact ⟨fun _ => ⟨st, r, rfl⟩, fun _ => rfl⟩

/-- A flush returns exactly if all its calls have `C`. -/
theorem flushLoop_returns_iff (h : Answerable haveData D C) (fuel : Nat) {p : Flush S}
    (hD : LoopCalls haveData throttled D fuel p) :
    (flushLoop haveData throttled fuel p).2 = none ↔ LoopCalls haveData throttled C fuel p := by
  induction fuel generalizing p with
  | zero => exact ⟨fun _ => trivial, fun _ => rfl⟩
  | succ fuel ih =>
    rw [LoopCalls] at hD ⊢
    have hTurn := turn_returns_iff h hD.1
    have hRest := hD.2
    rw [flushLoop_succ, ← hTurn]
    generalize flushLoop haveData throttled 1 p = r at hRest ⊢
    rcases r with ⟨q, _ | f⟩
    · simpa using ih hRest
    · simp

end Loop

-- ---------------------------------------------------------------------------
-- flush_buf as the callback
-- ---------------------------------------------------------------------------

section FlushBuf

variable {K : Kernel} {L : Layout}

theorem CaseEnds.throttled {port : Port σ} {buf w : Nat} {r : Port σ × Except Fault Int}
    (h : CaseEnds L port buf w r) : r.1.throttled = port.throttled := by
  obtain ⟨q, hSide, rfl | rfl | rfl⟩ := h
  · exact hSide.throttled
  · exact hSide.throttled
  · obtain ⟨mem, ivq, calls, hLeaves⟩ := respond_leaves L q buf w
    rw [hLeaves]
    exact hSide.throttled

/-- `flush_buf` never throttles its port. -/
theorem flushBuf_throttled (dev : DevCrypto σ) (port : Port σ) (buf len : Nat) :
    (flushBuf dev L port buf len).1.throttled = port.throttled := by
  unfold flushBuf
  split
  · rfl
  rcases port.mem.read buf (.buf L.cmdOff) 4 with ⟨_ | word, mem⟩
  · rfl
  simp only
  rcases Cmd.ofWord (ofLE word) with _ | c
  · rfl
  cases c with
  | CIOCGSESSION => exact (flushGsession_ends dev L { port with mem := mem } buf _).throttled
  | CIOCCRYPT => exact (flushCrypt_ends dev L { port with mem := mem } buf _).throttled
  | CIOCFSESSION => exact (flushFsession_ends dev L { port with mem := mem } buf _).throttled

theorem flushBuf_keeps_unthrottled (dev : DevCrypto σ) :
    CallbackKeeps (flushBuf dev L) (fun st => st.throttled = false) fun _ => True := by
  intro st buf len hThr
  refine ⟨(flushBuf_throttled dev st buf len).trans hThr, ?_, fun _ _ _ => trivial⟩
  cases hChr : st.chr with
  | true => exact (flushBuf_cases dev L hChr buf len).fault
  | false => simp [flushBuf, hChr]

/-- What is handed over is a message for one of the three commands. -/
def Sends (L : Layout) (st : Port σ) (buf : Nat) : Prop :=
  st.chr = true → IsMessage L st.mem.space buf

instance (L : Layout) (st : Port σ) (buf : Nat) : Decidable (Sends L st buf) :=
  inferInstanceAs (Decidable (_ → _))

/-- A port with a chardev has a crypto handle. -/
def HasHandle (st : Port σ) (_ : Nat) : Prop :=
  st.chr = true → st.crInfo.allocated = true

instance (st : Port σ) (buf : Nat) : Decidable (HasHandle st buf) :=
  inferInstanceAs (Decidable (_ → _))

theorem respond_returns {q : Port σ} {buf : Nat} (w : Nat)
    (hMapped : (q.mem.space.load buf L.sizeof).isSome) : (respond L q buf w).2 = .ok 0 := by
  obtain ⟨data, hLoad⟩ := Option.isSome_iff_exists.mp hMapped
  by_cases hConn : q.hostConnected = true ∧ q.guestConnected = true
  · obtain ⟨log, hRet⟩ := respond_connected (w := w) hConn.1 hConn.2 hLoad
    rw [hRet]
    rfl
  · have hShut : ¬ (q.hostConnected && q.guestConnected) = true := by
      rw [Bool.and_eq_true]
      exact hConn
    unfold respond virtioSerialWrite
    rw [if_neg hShut]
    rfl

/-- **One call on a known command.** With a handle `flush_buf` returns 0 or 1, also
when nobody is connected; without one it faults. -/
theorem flushBuf_answerable :
    Answerable (flushBuf (cryptodev K) L) (Sends L) HasHandle where
  returns := by
    intro st buf n hSends hHandle
    cases hChr : st.chr with
    | false => exact ⟨st, n, by simp [flushBuf, hChr], by omega⟩
    | true =>
      obtain ⟨data, c, hLoad, hCmd⟩ := hSends hChr
      rw [flushBuf_eq_flushCase (cryptodev K) L hChr n hLoad L.cmdOff_bounds.2 hCmd]
      have hMapped : ((cmdRead L st buf).mem.space.load buf L.sizeof).isSome :=
        Option.isSome_iff_exists.mpr ⟨data, hLoad⟩
      have hLive : ∃ cfd, (cmdRead L st buf).crInfo = .live cfd :=
        (CrInfo.allocated_iff st.crInfo).mp (hHandle hChr)
      have hSome : (outcome (cryptodev K) L (cmdRead L st buf) buf c).isSome :=
        outcome_isSome hLive hMapped c
      obtain ⟨out, hOut⟩ := Option.isSome_iff_exists.mp hSome
      cases out with
      | error e =>
        obtain ⟨q, -, hCase⟩ := flushCase_error (w := u32 data L.cmdOff) hOut
        exact ⟨_, 1, hCase, by decide⟩
      | ok _ =>
        obtain ⟨q, -, hMapped', hCase⟩ :=
          flushCase_responds (w := u32 data L.cmdOff) (cryptodev_keepsMapped K) hMapped hOut
        rw [hCase]
        exact ⟨_, 0, Prod.ext rfl (respond_returns _ hMapped'), le_refl 0⟩
  faults := by
    intro st buf n hSends hNone
    obtain ⟨hChr, hInfo⟩ := Classical.not_imp.mp hNone
    obtain ⟨data, c, hLoad, hCmd⟩ := hSends hChr
    rw [flushBuf_eq_flushCase (cryptodev K) L hChr n hLoad L.cmdOff_bounds.2 hCmd]
    have hOut := outcome_none (cryptodev K) L (cmdRead L st buf) (Bool.eq_false_iff.mpr hInfo) buf c
    exact ⟨_, .segv, Prod.ext rfl (flushCase_segv (cryptodev K) L hOut)⟩

end FlushBuf

-- ---------------------------------------------------------------------------
-- The port over a run
-- ---------------------------------------------------------------------------

namespace Returned

/-- A port, the elements the guest has queued so far, and how QEMU ended. -/
structure State (σ : Type) where
  port : Flush (Port σ)
  offered : List Elem
  fault : Option Fault

inductive Event (σ : Type)
  | guest (g : GuestEvent)
  | notify
  | chrEvent (opened : Bool)
  | throttle (on : Bool)
  | bh
  | handle (guestConnected : Bool) (crInfo : CrInfo σ)

/-- The elements an event of the guest queues. -/
def queued : GuestEvent → List Elem
  | .queue e => [e]
  | _ => []

variable (dev : DevCrypto σ) (L : Layout)

/-- `flush_queued_data`, from the bottom half. -/
def flushQueuedData (p : Flush (Port σ)) : Flush (Port σ) × Option Fault :=
  if p.ovq.ready then flushPort dev L p else (p, none)

/-- `virtio_serial_open` and `virtio_serial_close`. -/
def chrEvent (p : Flush (Port σ)) : Bool → Flush (Port σ)
  | true => { p with st.hostConnected := true }
  | false =>
    { p with st.hostConnected := false, st.throttled := false, ovq := discardVqData p.ovq }

def apply (s : State σ) : Event σ → State σ
  | .guest g => { s with port := g.apply s.port, offered := s.offered ++ queued g }
  | .notify =>
    { s with port := (handleOutput dev L s.port).1, fault := (handleOutput dev L s.port).2 }
  | .chrEvent opened => { s with port := chrEvent s.port opened }
  | .throttle on => { s with port.st.throttled := on }
  | .bh => { s with port := (flushQueuedData dev L s.port).1, fault := (flushQueuedData dev L s.port).2 }
  | .handle guestConnected crInfo =>
    { s with port.st.guestConnected := guestConnected, port.st.crInfo := crInfo }

def step (s : State σ) (ev : Event σ) : Option (State σ) :=
  if s.fault.isSome then none else some (apply dev L s ev)

/-- A port that has just been set up. -/
def initialised (st : Port σ) : State σ :=
  ⟨⟨st, ⟨true, [], []⟩, ⟨0, []⟩, 0, 0, 0⟩, [], none⟩

/-- QEMU runs, `port->elem.out_num` is 0, and the elements pushed are those popped,
once each and in order. -/
def Sound (s : State σ) : Prop := s.fault = none ∧ Idle s.offered s.port

/-- `P` holds of every call of `flush_buf` an event leads to. -/
def Calls (P : Port σ → Nat → Prop) (s : State σ) : Event σ → Prop
  | .notify => s.port.st.hostConnected = true →
      LoopCalls (flushBuf dev L) Port.throttled P (s.port.ovq.avail.length + 2) s.port
  | .bh => s.port.ovq.ready = true →
      LoopCalls (flushBuf dev L) Port.throttled P (s.port.ovq.avail.length + 2) s.port
  | _ => True

instance (P : Port σ → Nat → Prop) [∀ st b, Decidable (P st b)] (s : State σ) :
    (ev : Event σ) → Decidable (Calls dev L P s ev)
  | .notify | .bh => inferInstanceAs (Decidable (_ → _))
  | .guest _ | .chrEvent _ | .throttle _ | .handle _ _ => isTrue trivial

variable {dev L}

theorem flushPort_idle {offered : List Elem} {p : Flush (Port σ)} (h : Idle offered p)
    (hReturn : (flushPort dev L p).2 = none) : Idle offered (flushPort dev L p).1 :=
  flushLoop_idle (flushBuf_keeps_unthrottled dev) _ h hReturn

theorem guest_idle {offered : List Elem} {p : Flush (Port σ)} (h : Idle offered p)
    (g : GuestEvent) : Idle (offered ++ queued g) (g.apply p) := by
  cases g with
  | queue e =>
    refine ⟨h.outNum, ?_⟩
    rw [← h.elements, List.append_assoc]
    rfl
  | poke _ | post _ | drain => exact ⟨h.outNum, h.elements.trans (List.append_nil _).symm⟩

/-- **One event.** Whatever it is, if QEMU is still there no element is left off. -/
theorem apply_idle {s : State σ} (h : Idle s.offered s.port) (ev : Event σ)
    (hReturn : (apply dev L s ev).fault = none) :
    Idle (apply dev L s ev).offered (apply dev L s ev).port := by
  cases ev with
  | guest g => exact guest_idle h g
  | notify =>
    simp only [apply, handleOutput] at hReturn ⊢
    split at hReturn
    next hOpen =>
      rw [if_pos hOpen]
      exact flushPort_idle h hReturn
    next hClosed =>
      rw [if_neg hClosed]
      exact discardVqData_idle h
  | chrEvent opened =>
    cases opened with
    | true => exact ⟨h.outNum, h.elements⟩
    | false =>
      have hDiscard := discardVqData_idle h
      exact ⟨hDiscard.outNum, hDiscard.elements⟩
  | throttle _ | handle _ _ => exact ⟨h.outNum, h.elements⟩
  | bh =>
    simp only [apply, flushQueuedData] at hReturn ⊢
    split at hReturn
    next hReady =>
      rw [if_pos hReady]
      exact flushPort_idle h hReturn
    next hNot =>
      rw [if_neg hNot]
      exact h

variable {K : Kernel}

/-- QEMU survives an event exactly if every call it leads to finds a handle. -/
theorem apply_returns_iff {s : State Fcrypt} (hFault : s.fault = none) {ev : Event Fcrypt}
    (hSends : Calls (cryptodev K) L (Sends L) s ev) :
    (apply (cryptodev K) L s ev).fault = none ↔ Calls (cryptodev K) L HasHandle s ev := by
  cases ev with
  | guest _ | chrEvent _ | throttle _ | handle _ _ => exact ⟨fun _ => trivial, fun _ => hFault⟩
  | notify =>
    simp only [apply, handleOutput, Calls] at hSends ⊢
    split
    next hOpen =>
      rw [forall_prop_of_true hOpen]
      exact flushLoop_returns_iff flushBuf_answerable _ (hSends hOpen)
    next hClosed => exact ⟨fun _ hOpen => absurd hOpen hClosed, fun _ => rfl⟩
  | bh =>
    simp only [apply, flushQueuedData, Calls] at hSends ⊢
    split
    next hReady =>
      rw [forall_prop_of_true hReady]
      exact flushLoop_returns_iff flushBuf_answerable _ (hSends hReady)
    next hNot => exact ⟨fun _ hReady => absurd hReady hNot, fun _ => rfl⟩

theorem step_eq_some {s s' : State σ} {ev : Event σ} (hStep : step dev L s ev = some s') :
    s.fault = none ∧ s' = apply dev L s ev := by
  unfold step at hStep
  split at hStep
  · cases hStep
  next hNone => exact ⟨Option.not_isSome_iff_eq_none.mp hNone, (Option.some.inj hStep).symm⟩

/-- In every state a port gets to, no element is left off mid-way unless QEMU has
ended. -/
theorem run_idle {st : Port σ} {evs : List (Event σ)} {s : State σ}
    (hRun : Transition.run (step dev L) (initialised st) evs = some s) (hFault : s.fault = none) :
    Idle s.offered s.port := by
  have hStep : ∀ (s₁ : State σ) (ev : Event σ) (s₂ : State σ),
      (s₁.fault = none → Idle s₁.offered s₁.port) → step dev L s₁ ev = some s₂ →
        s₂.fault = none → Idle s₂.offered s₂.port := by
    intro s₁ ev s₂ hInv hOne hOk
    obtain ⟨hNone, rfl⟩ := step_eq_some hOne
    exact apply_idle (hInv hNone) ev hOk
  exact Transition.run_keeps hStep (fun _ => ⟨rfl, rfl⟩) hRun hFault

/-- **Every element is returned.** For a guest that sends only the three commands:
after any events QEMU runs, no element is left off mid-way and the elements pushed
are those popped, once each and in order, exactly if every request handed over to
`flush_buf` found a crypto handle. -/
theorem run_returned_iff (st : Port Fcrypt) (evs : List (Event Fcrypt)) (s : State Fcrypt)
    (hRun : Transition.run (step (cryptodev K) L) (initialised st) evs = some s)
    (hSends : Transition.Along (step (cryptodev K) L) (Calls (cryptodev K) L (Sends L))
      (initialised st) evs) :
    Sound s ↔ Transition.Along (step (cryptodev K) L) (Calls (cryptodev K) L HasHandle)
      (initialised st) evs := by
  have hStep : ∀ (s₁ : State Fcrypt) (ev : Event Fcrypt) (s₂ : State Fcrypt),
      Calls (cryptodev K) L (Sends L) s₁ ev → step (cryptodev K) L s₁ ev = some s₂ →
        (s₂.fault = none ↔ s₁.fault = none ∧ Calls (cryptodev K) L HasHandle s₁ ev) := by
    intro s₁ ev s₂ hCalls hOne
    obtain ⟨hNone, rfl⟩ := step_eq_some hOne
    rw [and_iff_right hNone]
    exact apply_returns_iff hNone hCalls
  have hFault := Transition.run_iff_along_of hStep hSends hRun
  constructor
  · intro h
    exact (hFault.mp h.1).2
  · intro h
    have hNone := hFault.mpr ⟨rfl, h⟩
    exact ⟨hNone, run_idle hRun hNone⟩

-- a port as `virtser_port_qdev_init` leaves it, over memory that is all zero
def newPort : Port Fcrypt where
  chr := true
  crInfo := .null
  guestConnected := false
  hostConnected := false
  throttled := false
  mem := ⟨fun _ => some 0, []⟩
  ivq := ⟨true, [], []⟩
  calls := []

-- the chardev opens, and the guest queues a request
def oneRequest : List (Event Fcrypt) :=
  [.chrEvent true, .guest (.poke (emptyRequest .CIOCFSESSION)), .guest (.queue ⟨7, [(0, 120)]⟩)]

-- the guest opens the port; a second request is held back by a throttled port
-- until the chardev closes
def twoRequests : List (Event Fcrypt) :=
  .handle true (.live (some ⟨[], 0⟩)) :: oneRequest ++
    [.notify, .throttle true, .guest (.queue ⟨8, [(0, 120)]⟩), .bh, .chrEvent false]

theorem run_returned_two :
    (Transition.run (step (cryptodev nullKernel) smallLayout) (initialised newPort) twoRequests).map
        (fun s => s.port.ovq.used) = some [⟨7, [(0, 120)]⟩, ⟨8, [(0, 120)]⟩] ∧
      ∀ s, Transition.run (step (cryptodev nullKernel) smallLayout) (initialised newPort)
        twoRequests = some s → Sound s :=
  ⟨by decide +kernel, fun s hRun =>
    (run_returned_iff newPort twoRequests s hRun (by decide +kernel)).mpr (by decide +kernel)⟩

/-- A request before the guest has opened the port: its element is popped, and QEMU
ends with `port->elem` in the middle of it. -/
theorem unopened_request_kept :
    Transition.Along (step (cryptodev nullKernel) smallLayout)
        (Calls (cryptodev nullKernel) smallLayout (Sends smallLayout))
        (initialised newPort) (oneRequest ++ [.notify]) ∧
      ∃ s, Transition.run (step (cryptodev nullKernel) smallLayout) (initialised newPort)
          (oneRequest ++ [.notify]) = some s ∧ s.fault = some .segv ∧ s.port.outNum = 1 ∧
        s.port.ovq.avail = [] ∧ s.port.ovq.used = [] ∧ ¬ Sound s := by
  refine ⟨by decide +kernel, ?_⟩
  have hEnd : (Transition.run (step (cryptodev nullKernel) smallLayout) (initialised newPort)
      (oneRequest ++ [.notify])).map
        (fun s => (s.fault, s.port.outNum, s.port.ovq.avail, s.port.ovq.used)) =
          some (some .segv, 1, [], []) := by
    decide +kernel
  obtain ⟨s, hRun, hs⟩ := Option.map_eq_some_iff.mp hEnd
  simp only [Prod.mk.injEq] at hs
  obtain ⟨hFault, hNum, hAvail, hUsed⟩ := hs
  refine ⟨s, hRun, hFault, hNum, hAvail, hUsed, fun h => ?_⟩
  exact absurd (hFault.symm.trans h.1) (by simp)

end Returned

end VirtioCrypto.Host
