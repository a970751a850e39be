import VirtioCrypto.Guest.Threads
import VirtioCrypto.Transition

/-!
# Guest — one thread and a host that comes and goes

`port_fops_ioctl` of a single thread on an open port, with the host side closed and
opened again at any point. The calls are cut where something else can happen between
two tests: after its request is sent a call looks for data and reads
`host_connected` up to three times, at separate moments (`Pc`), and neither the
result of `send_buf` nor that of `fill_readbuf` is looked at.

The host answers a request or drops it (a failed ioctl, or its side is closed);
`virtio_serial_close` drops all of them. What it tells the guest about its side
waits in `ctl` until the control work handles it.

A request is known by its ticket, and a byte on the in queue by the ticket of the
request it answers, as in `Threads`.

* `Effect.whole` — what is on the in queue are whole responses;
* `step_good` — a call that gets to `fill_readbuf` finds a response there, if the
  host is not back between a call's being woken without one and its last look;
* `step_tidied` (of `Residue`) — and it is its own, if no call gives up while its
  request is with the host or its response on the way.
-/

namespace VirtioCrypto.Guest.Solo

open Octets Cryptodev Transition
open Threads (Tagged tagged)

/-- Where the call is. From `send_buf` on it has a ticket, unless the request could
not be queued. -/
inductive Pc
  | idle
  | asleep
  | checked (nonblock : Bool)
  | prepared (nonblock : Bool)
  | spinning (t : Nat)
  | sent (t : Option Nat)
  /-- no data; about to read `host_connected` -/
  | noData (t : Option Nat)
  | waiting (t : Option Nat)
  /-- in `will_read_block`: no data, about to read `host_connected` -/
  | blocked (t : Option Nat)
  /-- past the wait, about to look again -/
  | woken (t : Option Nat)
  /-- again no data, about to read `host_connected` -/
  | rechecked (t : Option Nat)
  | ready (t : Option Nat)
  | filled (t : Option Nat) (got : List Tagged)
deriving DecidableEq

/-- A call that has returned, with what `fill_readbuf` gave it. -/
structure Return where
  ticket : Option Nat
  ret : Int
  got : List Tagged
deriving DecidableEq

structure State where
  port : Port Tagged
  ivq : InVq Tagged
  ovq : OutVq
  pc : Pc
  queued : Nat
  -- the host's port->host_connected, and the PORT_OPEN messages about it
  hostOpen : Bool
  ctl : List Bool
  responses : List (Nat × Bytes)
  returns : List Return
deriving DecidableEq

inductive Event
  | call (nonblock : Bool)
  | wake
  | signal
  | prepare
  | fail (err : Int)
  | send
  | spun
  /-- the next test of the call -/
  | look
  | fill
  | copy (ok : Bool)
  | answer (response : Bytes)
  | drop
  | close
  | reopen
  | deliver
  | reclaim
  | intr

namespace State

def goto (s : State) (pc : Pc) : State := { s with pc := pc }

/-- The call returns. -/
def leave (s : State) (r : Return) : State := { s with pc := .idle, returns := s.returns ++ [r] }

def setOut (s : State) (r : Port Tagged × OutVq) : State := { s with port := r.1, ovq := r.2 }

def setIn (s : State) (r : Port Tagged × InVq Tagged) : State := { s with port := r.1, ivq := r.2 }

/-- The host has answered the request `e`; without a posted page the response is lost. -/
def answered (s : State) (e : Elem) (rest : List Elem) (response : Bytes) : State :=
  { s with
    ovq := { s.ovq with avail := rest, used := s.ovq.used ++ [e] }
    ivq := (writeToPort s.ivq (tagged (e.index, response))).1
    responses := s.responses ++ [(e.index, response)] }

/-- The buffers on their way to a read: the cached one, then the used ones. -/
def pending (s : State) : List (PortBuffer Tagged) := s.port.inbuf.toList ++ s.ivq.used

end State

/-- The next test of a call that has sent its request. The port is not unplugged, so
the tests of `guest_connected` are left out. -/
def look (s : State) : Option State :=
  let r := portHasData s.port s.ivq
  match s.pc with
  | .sent t => some ((s.setIn r.2).goto (if r.1 then .woken t else .noData t))
  | .noData t =>
    some (if s.port.hostConnected then s.goto (.waiting t) else s.leave ⟨t, -ENOTTY, []⟩)
  | .waiting t => some ((s.setIn r.2).goto (if r.1 then .woken t else .blocked t))
  | .blocked t => some (s.goto (if s.port.hostConnected then .waiting t else .woken t))
  | .woken t => some ((s.setIn r.2).goto (if r.1 then .ready t else .rechecked t))
  | .rechecked t =>
    some (if s.port.hostConnected then s.goto (.ready t) else s.leave ⟨t, -ENOTTY, []⟩)
  | _ => none

variable (L : Layout)

/-- One step; `none` when the event is not possible here. -/
def step (s : State) : Event → Option State
  | .call nonblock =>
    match s.pc with
    | .idle =>
      let r := willWriteBlock s.port s.ovq
      let s := s.setOut r.2
      some (if !r.1 then s.goto (.checked nonblock)
        else if nonblock then s.leave ⟨none, -Host.EAGAIN, []⟩ else s.goto .asleep)
    | _ => none
  | .wake =>
    match s.pc with
    | .asleep =>
      let r := willWriteBlock s.port s.ovq
      some ((s.setOut r.2).goto (if r.1 then .asleep else .checked false))
    | _ => none
  | .signal =>
    match s.pc with
    | .asleep => some (s.leave ⟨none, -ERESTARTSYS, []⟩)
    | .waiting t => some (s.leave ⟨t, -ERESTARTSYS, []⟩)
    | _ => none
  | .prepare =>
    match s.pc with
    | .checked nonblock => some (s.goto (.prepared nonblock))
    | _ => none
  | .fail err =>
    match s.pc with
    | .checked _ =>
      if err ∈ [ENOMEM, EFAULT, Host.EINVAL] then some (s.leave ⟨none, -err, []⟩) else none
    | _ => none
  | .send =>
    match s.pc with
    | .prepared nonblock =>
      let r := sendBuf s.port s.ovq ⟨s.queued, []⟩
      let s' := s.setOut r.2
      some (if !r.1 then s'.goto (.sent none)
        else { s' with queued := s.queued + 1 }.goto
          (if nonblock then .sent (some s.queued) else .spinning s.queued))
    | _ => none
  | .spun =>
    match s.pc with
    | .spinning t => (spin s.port s.ovq).map fun r => (s.setOut r).goto (.sent (some t))
    | _ => none
  | .look => look s
  | .fill =>
    match s.pc with
    | .ready t =>
      let r := fillReadbuf s.port s.ivq L.sizeof
      some ((s.setIn r.2).goto (.filled t r.1))
    | _ => none
  | .copy ok =>
    match s.pc with
    | .filled t got => some (s.leave ⟨t, if ok then 0 else -EFAULT, got⟩)
    | _ => none
  | .answer response =>
    match s.hostOpen, s.ovq.avail with
    | true, e :: rest =>
      if response.length ≠ L.sizeof then none else some (s.answered e rest response)
    | _, _ => none
  | .drop =>
    match s.ovq.avail with
    | [] => none
    | e :: rest => some { s with ovq := { s.ovq with avail := rest, used := s.ovq.used ++ [e] } }
  | .close =>
    some { s with hostOpen := false, ovq := Host.discardVqData s.ovq, ctl := s.ctl ++ [false] }
  | .reopen =>
    some (if s.hostOpen then s else { s with hostOpen := true, ctl := s.ctl ++ [true] })
  | .deliver =>
    match s.ctl with
    | [] => none
    | v :: ctl => some { s with port.hostConnected := v, ctl := ctl }
  | .reclaim =>
    match s.pc with
    | .spinning _ => none
    | _ => some (s.setOut (reclaimConsumedBuffers s.port s.ovq))
  | .intr => some (s.setIn (inIntr s.port s.ivq))

/-- An open port at rest. -/
structure Opened (s : State) : Prop where
  guest : s.port.guestConnected = true
  posted : ∀ sz ∈ s.ivq.avail, L.sizeof ≤ sz
  pc : s.pc = .idle
  pending : s.pending = []
  sent : s.ovq.avail = []
  returns : s.returns = []

-- ---------------------------------------------------------------------------
-- Whole responses
-- ---------------------------------------------------------------------------

variable {L} {s s' : State}

/-- What is on its way to a read are whole responses, each in a page of its own. -/
structure Whole (L : Layout) (s : State) : Prop where
  guest : s.port.guestConnected = true
  posted : ∀ sz ∈ s.ivq.avail, L.sizeof ≤ sz
  fresh : ∀ buf ∈ s.pending, buf.offset = 0 ∧ L.sizeof ≤ buf.size ∧
    ∃ a ∈ s.responses, a.2.length = L.sizeof ∧ buf.data = tagged a

/-- Nothing on its way to a read differs. -/
structure Same (s s' : State) : Prop where
  guest : s'.port.guestConnected = s.port.guestConnected
  posted : s'.ivq.avail = s.ivq.avail
  pending : s'.pending = s.pending
  responses : s'.responses = s.responses

theorem Same.whole (hs : Same s s') (h : Whole L s) : Whole L s' := by
  refine ⟨hs.guest.trans h.guest, ?_, ?_⟩
  · rw [hs.posted]
    exact h.posted
  · rw [hs.pending, hs.responses]
    exact h.fresh

theorem Same.of_inbuf (hIn : s'.port.inbuf = s.port.inbuf)
    (hGuest : s'.port.guestConnected = s.port.guestConnected) (hIvq : s'.ivq = s.ivq)
    (hResponses : s'.responses = s.responses) : Same s s' :=
  ⟨hGuest, by rw [hIvq], by rw [State.pending, hIn, hIvq]; rfl, hResponses⟩

/-- A look for data finds what it found before. -/
theorem Whole.look (h : Whole L s) : Same s (s.setIn (portHasData s.port s.ivq).2) := by
  have hOff : ∀ buf ∈ s.ivq.used, buf.offset = 0 := fun buf hb =>
    (h.fresh buf (List.mem_append_right _ hb)).1
  obtain ⟨hPending, hGuest, -, hAvail, -⟩ := portHasData_frame s.port s.ivq hOff
  exact ⟨hGuest, hAvail, hPending, rfl⟩

theorem hasData_iff : (portHasData s.port s.ivq).1 = true ↔ s.pending ≠ [] := by
  rcases hb : s.port.inbuf with _ | buf
  · rcases hu : s.ivq.used with _ | ⟨buf, rest⟩
    · simp [portHasData_nil hb hu, State.pending, hb, hu]
    · simp [portHasData_cons hb hu, State.pending, hb, hu]
  · simp [portHasData_some hb, State.pending, hb]

/-- A read takes the first response, whole. -/
theorem Whole.fill (h : Whole L s) {buf : PortBuffer Tagged} {rest : List (PortBuffer Tagged)}
    (hp : s.pending = buf :: rest) :
    (fillReadbuf s.port s.ivq L.sizeof).1 = buf.data ∧
      (s.setIn (fillReadbuf s.port s.ivq L.sizeof).2).pending = rest ∧
      Whole L (s.setIn (fillReadbuf s.port s.ivq L.sizeof).2) := by
  have hSize : L.sizeof ≠ 0 := by have := L.cmdOff_bounds; omega
  obtain ⟨hOff, hPage, a, -, hLen, hData⟩ := h.fresh buf (by simp [hp])
  have hFit : buf.data.length ≤ L.sizeof := by simp [hData, tagged, hLen]
  obtain ⟨hCached, hUsed⟩ := portHasData_head hp hOff
  have hLook := h.look
  rw [← fillReadbuf_portHasData _ _ _ hSize]
  obtain ⟨hGot, hInbuf, hGuest, -, hUsed', hAvail⟩ :=
    fillReadbuf_cached (portHasData s.port s.ivq).2.2 hCached hOff hSize hFit
  have hRest : (s.setIn (fillReadbuf (portHasData s.port s.ivq).2.1 (portHasData s.port s.ivq).2.2
      L.sizeof).2).pending = rest := by
    rw [State.pending, State.setIn, hInbuf, hUsed', hUsed]
    rfl
  refine ⟨hGot, hRest, hGuest.trans (hLook.guest.trans h.guest), fun sz hSz => ?_, fun b hb => ?_⟩
  · rcases hAvail sz hSz with hOld | hNew
    · exact h.posted sz (hLook.posted ▸ hOld)
    · rw [hNew]
      exact hPage
  · exact h.fresh b (by rw [hp]; exact List.mem_cons_of_mem _ (hRest ▸ hb))

/-- A read that finds nothing does nothing. -/
theorem fill_nothing (hp : s.pending = []) :
    fillReadbuf s.port s.ivq L.sizeof = ([], s.port, s.ivq) := by
  have hSize : L.sizeof ≠ 0 := by have := L.cmdOff_bounds; omega
  obtain ⟨hNone, hUsed⟩ := List.append_eq_nil_iff.mp hp
  have hInbuf : s.port.inbuf = none := by simpa using hNone
  simp [fillReadbuf, hSize, portHasData_nil hInbuf hUsed, hInbuf]

/-- A response goes into one posted page, or is lost when there is none. -/
theorem Whole.write (h : Whole L s) {t : Nat} {response : Bytes} (hLen : response.length = L.sizeof) :
    (∃ sz ∈ s.ivq.avail, (writeToPort s.ivq (tagged (t, response))).1 =
        { s.ivq with avail := s.ivq.avail.tail, used := s.ivq.used ++ [⟨sz, tagged (t, response), 0⟩] }) ∨
      (writeToPort s.ivq (tagged (t, response))).1 = s.ivq := by
  have hTagLen : (tagged (t, response)).length = L.sizeof := by simp [tagged, hLen]
  have hNe : tagged (t, response) ≠ [] := by
    intro hNil
    have hBounds := L.cmdOff_bounds
    rw [hNil, List.length_nil] at hTagLen
    omega
  cases hReady : s.ivq.ready with
  | false =>
    right
    simp [writeToPort, hReady]
  | true =>
    cases hAvail : s.ivq.avail with
    | nil =>
      right
      generalize s.ivq = vq at hReady hAvail ⊢
      obtain ⟨ready, avail, used⟩ := vq
      simp only at hReady hAvail
      simp [writeToPort, hReady, hAvail, fillAvail]
    | cons sz avail =>
      left
      have hFit : (tagged (t, response)).length ≤ sz := by
        rw [hTagLen]
        exact h.posted sz (by simp [hAvail])
      exact ⟨sz, by simp, by rw [writeToPort_fits hReady hAvail hNe hFit, List.tail_cons]⟩

/-- The response to a request joins the others. -/
theorem Whole.answer (h : Whole L s) {e : Elem} {rest : List Elem} {response : Bytes}
    (hLen : response.length = L.sizeof) :
    Whole L (s.answered e rest response) ∧
      ((s.answered e rest response).pending = s.pending ∨
        ∃ sz, (s.answered e rest response).pending =
          s.pending ++ [⟨sz, tagged (e.index, response), 0⟩]) := by
  have hOld : ∀ buf ∈ s.pending, buf.offset = 0 ∧ L.sizeof ≤ buf.size ∧
      ∃ a ∈ s.responses ++ [(e.index, response)], a.2.length = L.sizeof ∧ buf.data = tagged a :=
    fun buf hb => by
      obtain ⟨hOff, hSize, a, ha, hRest⟩ := h.fresh buf hb
      exact ⟨hOff, hSize, a, List.mem_append_left _ ha, hRest⟩
  have hIvq : (s.answered e rest response).ivq = (writeToPort s.ivq (tagged (e.index, response))).1 :=
    rfl
  rcases h.write hLen with ⟨sz, hSz, hWrite⟩ | hLost
  · rw [hWrite] at hIvq
    have hPending : (s.answered e rest response).pending =
        s.pending ++ [⟨sz, tagged (e.index, response), 0⟩] := by
      rw [State.pending, hIvq, State.pending, List.append_assoc]
      rfl
    refine ⟨⟨h.guest, fun sz' hs => ?_, fun buf hb => ?_⟩, .inr ⟨sz, hPending⟩⟩
    · rw [hIvq] at hs
      exact h.posted sz' (List.mem_of_mem_tail hs)
    · rw [hPending] at hb
      rcases List.mem_append.mp hb with ho | hn
      · exact hOld buf ho
      · obtain rfl := List.mem_singleton.mp hn
        exact ⟨rfl, h.posted sz hSz, (e.index, response), by simp [State.answered], hLen, rfl⟩
  · rw [hLost] at hIvq
    have hPending : (s.answered e rest response).pending = s.pending := by
      rw [State.pending, hIvq]
      rfl
    exact ⟨⟨h.guest, hIvq ▸ h.posted, fun buf hb => hOld buf (hPending ▸ hb)⟩, .inl hPending⟩

-- ---------------------------------------------------------------------------
-- What a step can do
-- ---------------------------------------------------------------------------

/-- Before its request is sent. -/
def Pc.Early : Pc → Prop
  | .idle | .asleep | .checked _ | .prepared _ => True
  | _ => False

/-- Between `send_buf` and `fill_readbuf`. -/
def Pc.After (t : Option Nat) (p : Pc) : Prop :=
  p ∈ [.sent t, .noData t, .waiting t, .blocked t, .woken t, .rechecked t, .ready t]

/-- The call is at `p` now, and the calls `rs` have returned. -/
structure Moves (s s' : State) (p : Pc) (rs : List Return) : Prop extends Same s s' where
  host : s'.port.hostConnected = s.port.hostConnected
  sent : s'.ovq.avail = s.ovq.avail
  pc : s'.pc = p
  returns : s'.returns = s.returns ++ rs

/-- The host is done with some requests, and sends nothing. -/
structure Consumes (s s' : State) : Prop extends Same s s' where
  host : s'.port.hostConnected = s.port.hostConnected
  sent : s'.ovq.avail <:+ s.ovq.avail
  pc : s'.pc = s.pc
  returns : s'.returns = s.returns

inductive Effect (L : Layout) (s s' : State) : Event → Prop
  | early {ev : Event} {p : Pc} {rs : List Return} (hFrom : s.pc.Early) (hTo : p.Early)
      (hMoves : Moves s s' p rs) (hErr : ∀ r ∈ rs, r.ret ≠ 0) : Effect L s s' ev
  | unsent (hFrom : s.pc.Early) (hMoves : Moves s s' (.sent none) []) : Effect L s s' .send
  | queue (hFrom : s.pc.Early) (hTo : s'.pc = .sent (some s.queued) ∨ s'.pc = .spinning s.queued)
      (hSame : Same s s') (hSent : s'.ovq.avail = s.ovq.avail ++ [⟨s.queued, []⟩])
      (hReturns : s'.returns = s.returns) : Effect L s s' .send
  | spun {t : Nat} (hFrom : s.pc = .spinning t) (hMoves : Moves s s' (.sent (some t)) []) :
      Effect L s s' .spun
  | signal {t : Option Nat} (hFrom : s.pc = .waiting t)
      (hMoves : Moves s s' .idle [⟨t, -ERESTARTSYS, []⟩]) : Effect L s s' .signal
  | notty {t : Option Nat} (hFrom : s.pc = .noData t ∨ s.pc = .rechecked t)
      (hHost : s.port.hostConnected = false)
      (hMoves : Moves s s' .idle [⟨t, -ENOTTY, []⟩]) : Effect L s s' .look
  | on {t : Option Nat} {p : Pc} (hFrom : s.pc.After t) (hTo : p.After t)
      (hMoves : Moves s s' p [])
      (hWoken : p = .woken t → s.pending ≠ [] ∨ s.port.hostConnected = false)
      (hRechecked : p = .rechecked t → s.pc = .woken t)
      (hReady : p = .ready t → s.pending ≠ [] ∨
        s.pc = .rechecked t ∧ s.port.hostConnected = true) : Effect L s s' .look
  | fill {t : Option Nat} (hFrom : s.pc = .ready t)
      (hTo : s' = (s.setIn (fillReadbuf s.port s.ivq L.sizeof).2).goto
        (.filled t (fillReadbuf s.port s.ivq L.sizeof).1)) : Effect L s s' .fill
  | copy {t : Option Nat} {got : List Tagged} {ok : Bool} (hFrom : s.pc = .filled t got)
      (hMoves : Moves s s' .idle [⟨t, if ok then 0 else -EFAULT, got⟩]) : Effect L s s' (.copy ok)
  | answer {e : Elem} {rest : List Elem} {response : Bytes} (hAvail : s.ovq.avail = e :: rest)
      (hLen : response.length = L.sizeof)
      (hTo : s' = s.answered e rest response) : Effect L s s' (.answer response)
  | consume {ev : Event} (hConsumes : Consumes s s') : Effect L s s' ev
  | deliver {v : Bool} {ctl : List Bool} (hCtl : s.ctl = v :: ctl)
      (hTo : s' = { s with port.hostConnected := v, ctl := ctl }) : Effect L s s' .deliver
  | stay {ev : Event} (hMoves : Moves s s' s.pc []) : Effect L s s' ev

/-- What a look does to a call that goes on. -/
theorem Whole.lookTo (h : Whole L s) (p : Pc) :
    Moves s ((s.setIn (portHasData s.port s.ivq).2).goto p) p [] :=
  { toSame := ⟨h.look.guest, h.look.posted, h.look.pending, h.look.responses⟩
    host := (portHasData_flags s.port s.ivq).2
    sent := rfl
    pc := rfl
    returns := (List.append_nil _).symm }

theorem moves_goto (s : State) (p : Pc) : Moves s (s.goto p) p [] :=
  ⟨⟨rfl, rfl, rfl, rfl⟩, rfl, rfl, rfl, (List.append_nil _).symm⟩

theorem moves_leave (s : State) (r : Return) : Moves s (s.leave r) .idle [r] :=
  ⟨⟨rfl, rfl, rfl, rfl⟩, rfl, rfl, rfl, rfl⟩

/-- An operation on the out queue that gives the host nothing. -/
theorem Moves.of_out {r : Port Tagged × OutVq} {t : State} {p : Pc} {rs : List Return}
    (hIn : r.1.inbuf = s.port.inbuf) (hGuest : r.1.guestConnected = s.port.guestConnected)
    (hHost : r.1.hostConnected = s.port.hostConnected) (hSent : r.2.avail = s.ovq.avail)
    (h : Moves (s.setOut r) t p rs) : Moves s t p rs := by
  have hSame : Same s (s.setOut r) := .of_inbuf hIn hGuest rfl rfl
  exact ⟨⟨h.guest.trans hSame.guest, h.posted.trans hSame.posted, h.pending.trans hSame.pending,
    h.responses.trans hSame.responses⟩, h.host.trans hHost, h.sent.trans hSent, h.pc, h.returns⟩

theorem willWriteBlock_host (port : Port Tagged) (vq : OutVq) :
    (willWriteBlock port vq).2.1.hostConnected = port.hostConnected := by
  unfold willWriteBlock
  split
  · rfl
  · split <;> rfl

theorem sendBuf_host (port : Port Tagged) (vq : OutVq) (e : Elem) :
    (sendBuf port vq e).2.1.hostConnected = port.hostConnected := by
  simp only [sendBuf]
  split <;> rfl

theorem spin_host {port : Port Tagged} {vq : OutVq} {r : Port Tagged × OutVq}
    (h : spin port vq = some r) : r.1.hostConnected = port.hostConnected := by
  unfold spin at h
  split at h
  · exact absurd h (by simp)
  · obtain rfl := Option.some.inj h
    rfl

theorem Moves.of_willWriteBlock {t : State} {p : Pc} {rs : List Return}
    (h : Moves (s.setOut (willWriteBlock s.port s.ovq).2) t p rs) : Moves s t p rs :=
  have hFrame := willWriteBlock_frame s.port s.ovq
  .of_out hFrame.1 hFrame.2.1 (willWriteBlock_host _ _) hFrame.2.2 h

theorem look_effect (h : Whole L s) (hStep : look s = some s') : Effect L s s' .look := by
  unfold look at hStep
  cases hpc : s.pc with
  | sent t =>
    simp only [hpc, Option.some.injEq] at hStep
    subst hStep
    cases hData : (portHasData s.port s.ivq).1 with
    | true =>
      exact .on (t := t) (by simp [Pc.After, hpc]) (by simp [Pc.After]) (h.lookTo (.woken t))
        (fun _ => .inl (hasData_iff.mp hData)) (by simp) (by simp)
    | false =>
      exact .on (t := t) (by simp [Pc.After, hpc]) (by simp [Pc.After]) (h.lookTo (.noData t))
        (by simp) (by simp) (by simp)
  | noData t =>
    simp only [hpc, Option.some.injEq] at hStep
    subst hStep
    split
    · exact .on (t := t) (by simp [Pc.After, hpc]) (by simp [Pc.After]) (moves_goto s (.waiting t))
        (by simp) (by simp) (by simp)
    next hHost => exact .notty (.inl hpc) (by simpa using hHost) (moves_leave s _)
  | waiting t =>
    simp only [hpc, Option.some.injEq] at hStep
    subst hStep
    cases hData : (portHasData s.port s.ivq).1 with
    | true =>
      exact .on (t := t) (by simp [Pc.After, hpc]) (by simp [Pc.After]) (h.lookTo (.woken t))
        (fun _ => .inl (hasData_iff.mp hData)) (by simp) (by simp)
    | false =>
      exact .on (t := t) (by simp [Pc.After, hpc]) (by simp [Pc.After]) (h.lookTo (.blocked t))
        (by simp) (by simp) (by simp)
  | blocked t =>
    simp only [hpc, Option.some.injEq] at hStep
    subst hStep
    cases hHost : s.port.hostConnected with
    | true =>
      exact .on (t := t) (by simp [Pc.After, hpc]) (by simp [Pc.After]) (moves_goto s (.waiting t))
        (by simp) (by simp) (by simp)
    | false =>
      exact .on (t := t) (by simp [Pc.After, hpc]) (by simp [Pc.After]) (moves_goto s (.woken t))
        (fun _ => .inr hHost) (by simp) (by simp)
  | woken t =>
    simp only [hpc, Option.some.injEq] at hStep
    subst hStep
    cases hData : (portHasData s.port s.ivq).1 with
    | true =>
      exact .on (t := t) (by simp [Pc.After, hpc]) (by simp [Pc.After]) (h.lookTo (.ready t))
        (by simp) (by simp) (fun _ => .inl (hasData_iff.mp hData))
    | false =>
      exact .on (t := t) (by simp [Pc.After, hpc]) (by simp [Pc.After]) (h.lookTo (.rechecked t))
        (by simp) (fun _ => hpc) (by simp)
  | rechecked t =>
    simp only [hpc, Option.some.injEq] at hStep
    subst hStep
    split
    next hHost =>
      exact .on (t := t) (by simp [Pc.After, hpc]) (by simp [Pc.After]) (moves_goto s (.ready t))
        (by simp) (by simp) (fun _ => .inr ⟨hpc, hHost⟩)
    next hHost => exact .notty (.inr hpc) (by simpa using hHost) (moves_leave s _)
  | _ => simp [hpc] at hStep

/-- A request is queued, and waited for unless the descriptor is non-blocking, or the queue has
no room for it. -/
theorem send_effect (hStep : step L s .send = some s') : Effect L s s' .send := by
  simp only [step] at hStep
  split at hStep
  next nonblock hpc =>
    have hFrom : s.pc.Early := by rw [hpc]; trivial
    obtain ⟨hIn, hGuest, hSent⟩ := sendBuf_frame s.port s.ovq ⟨s.queued, []⟩
    have hHost := sendBuf_host s.port s.ovq ⟨s.queued, []⟩
    obtain rfl := Option.some.inj hStep
    cases hQueued : (sendBuf s.port s.ovq ⟨s.queued, []⟩).1 with
    | false =>
      rw [hQueued, if_neg (by simp), List.append_nil] at hSent
      exact .unsent hFrom (Moves.of_out hIn hGuest hHost hSent (moves_goto _ (.sent none)))
    | true =>
      rw [hQueued, if_pos rfl] at hSent
      refine .queue hFrom ?_ (.of_inbuf hIn hGuest rfl rfl) hSent rfl
      cases nonblock
      · exact .inr rfl
      · exact .inl rfl
  · exact absurd hStep (by simp)

theorem step_effect (h : Whole L s) {ev : Event} (hStep : step L s ev = some s') :
    Effect L s s' ev := by
  cases ev with
  | look => exact look_effect h hStep
  | call nonblock =>
    simp only [step] at hStep
    split at hStep
    next hpc =>
      have hFrom : s.pc.Early := by rw [hpc]; trivial
      obtain rfl := Option.some.inj hStep
      split
      · exact .early hFrom (by trivial) (moves_goto _ (.checked nonblock)).of_willWriteBlock nofun
      split
      · exact .early hFrom (by trivial) (moves_leave _ _).of_willWriteBlock (by simp [Host.EAGAIN])
      · exact .early hFrom (by trivial) (moves_goto _ .asleep).of_willWriteBlock nofun
    · exact absurd hStep (by simp)
  | wake =>
    simp only [step] at hStep
    split at hStep
    next hpc =>
      have hFrom : s.pc.Early := by rw [hpc]; trivial
      obtain rfl := Option.some.inj hStep
      split
      · exact .early hFrom (by trivial) (moves_goto _ .asleep).of_willWriteBlock nofun
      · exact .early hFrom (by trivial) (moves_goto _ (.checked false)).of_willWriteBlock nofun
    · exact absurd hStep (by simp)
  | signal =>
    simp only [step] at hStep
    split at hStep
    next hpc =>
      obtain rfl := Option.some.inj hStep
      exact .early (by rw [hpc]; trivial) (by trivial) (moves_leave s _) (by simp [ERESTARTSYS])
    next t hpc =>
      obtain rfl := Option.some.inj hStep
      exact .signal hpc (moves_leave s _)
    · exact absurd hStep (by simp)
  | prepare =>
    simp only [step] at hStep
    split at hStep
    next nonblock hpc =>
      obtain rfl := Option.some.inj hStep
      exact .early (by rw [hpc]; trivial) (by trivial) (moves_goto s (.prepared nonblock)) nofun
    · exact absurd hStep (by simp)
  | fail err =>
    simp only [step] at hStep
    split at hStep
    next nonblock hpc =>
      simp only [Option.ite_none_right_eq_some, Option.some.injEq] at hStep
      obtain ⟨hErr, rfl⟩ := hStep
      refine .early (by rw [hpc]; trivial) (by trivial) (moves_leave s _) ?_
      simp only [List.mem_cons, List.not_mem_nil, or_false, ENOMEM, EFAULT, Host.EINVAL] at hErr
      simp only [List.mem_singleton, forall_eq]
      omega
    · exact absurd hStep (by simp)
  | send => exact send_effect hStep
  | spun =>
    simp only [step] at hStep
    split at hStep
    next t hpc =>
      obtain ⟨r, hSpin, rfl⟩ := Option.map_eq_some_iff.mp hStep
      obtain ⟨hIn, hGuest, hSent⟩ := spin_frame hSpin
      exact .spun hpc (Moves.of_out hIn hGuest (spin_host hSpin) hSent (moves_goto _ (.sent (some t))))
    · exact absurd hStep (by simp)
  | fill =>
    simp only [step] at hStep
    split at hStep
    next t hpc =>
      obtain rfl := Option.some.inj hStep
      exact .fill hpc rfl
    · exact absurd hStep (by simp)
  | copy ok =>
    simp only [step] at hStep
    split at hStep
    next t got hpc =>
      obtain rfl := Option.some.inj hStep
      exact .copy hpc (moves_leave s _)
    · exact absurd hStep (by simp)
  | answer response =>
    simp only [step] at hStep
    split at hStep
    next e rest _ hAvail =>
      simp only [Option.ite_none_left_eq_some, not_not, Option.some.injEq] at hStep
      obtain ⟨hLen, rfl⟩ := hStep
      exact .answer hAvail hLen rfl
    · exact absurd hStep (by simp)
  | drop =>
    simp only [step] at hStep
    split at hStep
    · exact absurd hStep (by simp)
    next e rest hAvail =>
      obtain rfl := Option.some.inj hStep
      exact .consume ⟨⟨rfl, rfl, rfl, rfl⟩, rfl, by rw [hAvail]; exact List.suffix_cons e rest, rfl, rfl⟩
  | close =>
    obtain rfl := Option.some.inj hStep
    refine .consume ⟨⟨rfl, rfl, rfl, rfl⟩, rfl, ?_, rfl, rfl⟩
    unfold Host.discardVqData
    split
    · exact List.nil_suffix
    · exact List.suffix_refl _
  | reopen =>
    obtain rfl := Option.some.inj hStep
    split
    · exact .stay (moves_goto s s.pc)
    · exact .stay ⟨⟨rfl, rfl, rfl, rfl⟩, rfl, rfl, rfl, (List.append_nil _).symm⟩
  | deliver =>
    simp only [step] at hStep
    split at hStep
    · exact absurd hStep (by simp)
    next v ctl hCtl =>
      obtain rfl := Option.some.inj hStep
      exact .deliver hCtl rfl
  | reclaim =>
    simp only [step] at hStep
    split at hStep
    · exact absurd hStep (by simp)
    · obtain rfl := Option.some.inj hStep
      exact .stay ⟨⟨rfl, rfl, rfl, rfl⟩, rfl, rfl, rfl, (List.append_nil _).symm⟩
  | intr =>
    obtain rfl := Option.some.inj hStep
    rw [inIntr_open h.guest]
    exact .stay (h.lookTo s.pc)

/-- Whatever happens, responses stay whole. -/
theorem Effect.whole {ev : Event} (he : Effect L s s' ev) (h : Whole L s) : Whole L s' := by
  cases he with
  | early _ _ hMoves | unsent _ hMoves | spun _ hMoves | signal _ hMoves | notty _ _ hMoves
  | on _ _ hMoves | copy _ hMoves | stay hMoves => exact hMoves.whole h
  | queue _ _ hSame => exact hSame.whole h
  | consume hConsumes => exact hConsumes.whole h
  | deliver _ hTo =>
    subst hTo
    exact ⟨h.guest, h.posted, h.fresh⟩
  | answer _ hLen hTo => exact hTo ▸ (h.answer hLen).1
  | fill _ hTo =>
    subst hTo
    cases hp : s.pending with
    | nil =>
      rw [fill_nothing hp]
      exact ⟨h.guest, h.posted, h.fresh⟩
    | cons buf rest =>
      have hFill := (h.fill hp).2.2
      exact ⟨hFill.guest, hFill.posted, hFill.fresh⟩

-- ---------------------------------------------------------------------------
-- A response for every success
-- ---------------------------------------------------------------------------

/-- A call that returned 0 was given a whole response. -/
def Consumed (L : Layout) (s : State) : Prop :=
  ∀ r ∈ s.returns, r.ret = 0 → ∃ a ∈ s.responses, a.2.length = L.sizeof ∧ r.got = tagged a

/-- What a call can count on. It was woken by data or by the host's leaving, and the
host has not come back since. -/
def Served (L : Layout) (s : State) : Pc → Prop
  | .woken _ | .rechecked _ => s.pending ≠ [] ∨ s.port.hostConnected = false
  | .ready _ => s.pending ≠ []
  | .filled _ got => ∃ a ∈ s.responses, a.2.length = L.sizeof ∧ got = tagged a
  | _ => True

/-- Between the wait and the last look. -/
def Pc.looksAgain : Pc → Bool
  | .woken _ | .rechecked _ => true
  | _ => false

/-- The host does not come back between a call's being woken without data and its
last look at `host_connected`. -/
def NoReturn (s : State) : Event → Prop
  | .deliver => s.ctl.head? = some true → s.pc.looksAgain = true → s.pending ≠ []
  | _ => True

structure Good (L : Layout) (s : State) : Prop where
  whole : Whole L s
  served : Served L s s.pc
  consumed : Consumed L s

theorem Served.of_same {p : Pc} (h : Served L s p) (hSame : Same s s')
    (hHost : s'.port.hostConnected = s.port.hostConnected) : Served L s' p := by
  cases p with
  | woken | rechecked =>
    unfold Served at h ⊢
    rwa [hSame.pending, hHost]
  | ready =>
    unfold Served at h ⊢
    rwa [hSame.pending]
  | filled =>
    unfold Served at h ⊢
    rwa [hSame.responses]
  | _ => trivial

theorem Served.of_early {p : Pc} (h : p.Early) : Served L s p := by
  cases p <;> trivial

/-- A response more does no harm. -/
theorem Served.answered {p : Pc} (h : Served L s p) (hWhole : Whole L s) {e : Elem} {rest : List Elem}
    {response : Bytes} (hLen : response.length = L.sizeof) :
    Served L (s.answered e rest response) p := by
  have hData : s.pending ≠ [] → (s.answered e rest response).pending ≠ [] := by
    intro hNe
    rcases (hWhole.answer (e := e) hLen).2 with hp | ⟨sz, hp⟩
    · rwa [hp]
    · rw [hp]
      simp
  cases p with
  | woken | rechecked => exact h.imp_left hData
  | ready => exact hData h
  | filled =>
    obtain ⟨a, ha, hRest⟩ := h
    exact ⟨a, List.mem_append_left _ ha, hRest⟩
  | _ => trivial

theorem Consumed.returned {p : Pc} {rs : List Return} (h : Consumed L s) (hMoves : Moves s s' p rs)
    (hNew : ∀ r ∈ rs, r.ret = 0 → ∃ a ∈ s.responses, a.2.length = L.sizeof ∧ r.got = tagged a) :
    Consumed L s' := by
  intro r hr
  rw [hMoves.returns] at hr
  rw [hMoves.responses]
  exact (List.mem_append.mp hr).elim (h r) (hNew r)

theorem Consumed.of_more (h : Consumed L s) (hReturns : s'.returns = s.returns)
    (hMore : ∀ a ∈ s.responses, a ∈ s'.responses) : Consumed L s' := by
  intro r hr hRet
  obtain ⟨a, ha, hRest⟩ := h r (hReturns ▸ hr) hRet
  exact ⟨a, hMore a ha, hRest⟩

/-- Where the call is after a step. -/
theorem Good.served_step (h : Good L s) {ev : Event} (hEv : NoReturn s ev) (he : Effect L s s' ev) :
    Served L s' s'.pc := by
  have hGo : ∀ {p : Pc} {rs : List Return}, Moves s s' p rs → Served L s p → Served L s' s'.pc :=
    fun hMoves hp => hMoves.pc ▸ hp.of_same hMoves.toSame hMoves.host
  have hNow := h.served
  cases he with
  | early _ hTo hMoves => exact hGo hMoves (.of_early hTo)
  | unsent _ hMoves | spun _ hMoves | signal _ hMoves | notty _ _ hMoves | copy _ hMoves =>
    exact hGo hMoves trivial
  | queue _ hTo =>
    rcases hTo with hTo | hTo
    · rw [hTo]
      trivial
    · rw [hTo]
      trivial
  | on _ hTo hMoves hWoken hRechecked hReady =>
    refine hGo hMoves ?_
    simp only [Pc.After, List.mem_cons, List.not_mem_nil, or_false] at hTo
    rcases hTo with rfl | rfl | rfl | rfl | rfl | rfl | rfl
    · trivial
    · trivial
    · trivial
    · trivial
    · exact hWoken rfl
    · rw [hRechecked rfl] at hNow
      exact hNow
    · rcases hReady rfl with hData | ⟨hpc, hHost⟩
      · exact hData
      · rw [hpc] at hNow
        exact hNow.resolve_right (by simp [hHost])
  | fill hFrom hTo =>
    rw [hFrom] at hNow
    obtain ⟨buf, rest, hp⟩ := List.exists_cons_of_ne_nil hNow
    obtain ⟨-, -, a, ha, hLen, hData⟩ := h.whole.fresh buf (by simp [hp])
    subst hTo
    exact ⟨a, ha, hLen, (h.whole.fill hp).1.trans hData⟩
  | answer _ hLen hTo =>
    subst hTo
    exact hNow.answered h.whole hLen
  | consume hConsumes => exact hConsumes.pc ▸ hNow.of_same hConsumes.toSame hConsumes.host
  | stay hMoves => exact hGo hMoves hNow
  | @deliver v ctl hCtl hTo =>
    subst hTo
    cases v with
    | false => cases hpc : s.pc <;> simp_all [Served, State.pending]
    | true =>
      have hHead : s.ctl.head? = some true := by rw [hCtl]; rfl
      cases hpc : s.pc with
      | woken t => exact .inl (hEv hHead (by rw [hpc]; rfl))
      | rechecked t => exact .inl (hEv hHead (by rw [hpc]; rfl))
      | ready | filled => simpa [hpc, Served, State.pending] using hNow
      | _ => trivial

theorem step_good (s : State) (ev : Event) (s' : State) (h : Good L s) (hEv : NoReturn s ev)
    (hStep : step L s ev = some s') : Good L s' := by
  have he := step_effect h.whole hStep
  refine ⟨he.whole h.whole, h.served_step hEv he, ?_⟩
  cases he with
  | early _ _ hMoves hErr => exact h.consumed.returned hMoves fun r hr h0 => absurd h0 (hErr r hr)
  | unsent _ hMoves | spun _ hMoves | on _ _ hMoves | stay hMoves =>
    exact h.consumed.returned hMoves nofun
  | signal _ hMoves => exact h.consumed.returned hMoves (by simp [ERESTARTSYS])
  | notty _ _ hMoves => exact h.consumed.returned hMoves (by simp [ENOTTY])
  | copy hFrom hMoves =>
    have hs := h.served
    rw [hFrom] at hs
    exact h.consumed.returned hMoves fun r hr _ => (List.mem_singleton.mp hr) ▸ hs
  | queue _ _ hSame _ hReturns => exact h.consumed.of_more hReturns fun a ha => hSame.responses ▸ ha
  | consume hConsumes =>
    exact h.consumed.of_more hConsumes.returns fun a ha => hConsumes.responses ▸ ha
  | fill _ hTo | deliver _ hTo =>
    subst hTo
    exact h.consumed
  | answer _ _ hTo =>
    subst hTo
    exact h.consumed.of_more rfl fun a ha => List.mem_append_left _ ha

instance decidableNoReturn : (s : State) → (ev : Event) → Decidable (NoReturn s ev)
  | _, .deliver => inferInstanceAs (Decidable (_ → _ → _))
  | _, .call _ | _, .wake | _, .signal | _, .prepare | _, .fail _ | _, .send | _, .spun | _, .look
  | _, .fill | _, .copy _ | _, .answer _ | _, .drop | _, .close | _, .reopen | _, .reclaim
  | _, .intr => isTrue trivial

theorem Opened.good (h : Opened L s) : Good L s := by
  refine ⟨⟨h.guest, h.posted, ?_⟩, ?_, ?_⟩
  · simp [h.pending]
  · rw [h.pc]
    trivial
  · simp [Consumed, h.returns]

/-- A call that returns 0 was given a whole response, as long as the host does not
come back between a call's being woken without one and its last look. -/
theorem run_consumed (s₀ s : State) (evs : List Event) (hOpen : Opened L s₀)
    (hRun : run (step L) s₀ evs = some s) (hHost : Along (step L) NoReturn s₀ evs) :
    Consumed L s :=
  (run_invariant step_good hOpen.good hHost hRun).consumed

/-- A port with one page posted. -/
def onePage : State :=
  ⟨⟨none, false, true, true, 0, 2⟩, ⟨true, [PAGE_SIZE], []⟩, ⟨true, [], []⟩, .idle, 0, true, [], [], []⟩

/-- A response of the right size. -/
def reply (b : UInt8) : Bytes := List.replicate Host.smallLayout.sizeof b

theorem onePage_opened : Opened Host.smallLayout onePage := by
  exact ⟨rfl, by decide, rfl, rfl, rfl, rfl⟩

/-- The host goes and comes back while the call waits, and the next call is served. -/
def awayAndBack : List Event :=
  [.call false, .prepare, .send, .close, .spun, .look, .deliver, .look, .reopen, .deliver,
   .call false, .prepare, .send, .answer (reply 7), .spun, .look, .look, .fill, .copy true]

theorem away_and_back_consumed :
    ((run (step Host.smallLayout) onePage awayAndBack).map fun s => s.returns.map Return.ret) =
        some [-ENOTTY, 0] ∧
      ∀ s, run (step Host.smallLayout) onePage awayAndBack = some s → Consumed Host.smallLayout s :=
  ⟨by decide +kernel, fun s hRun =>
    run_consumed onePage s awayAndBack onePage_opened hRun (by decide +kernel)⟩

/-- The host goes while the call waits, and is back before the call looks again. -/
def backTooSoon : List Event :=
  [.call false, .prepare, .send, .close, .spun, .look, .look, .look, .deliver, .look, .reopen,
   .deliver, .look, .look, .fill, .copy true]

/-- The call returns 0 and has been given nothing. -/
theorem back_too_soon_unconsumed :
    ∃ s, run (step Host.smallLayout) onePage backTooSoon = some s ∧ s.returns = [⟨some 0, 0, []⟩] ∧
      s.responses = [] ∧ ¬ Consumed Host.smallLayout s := by
  have hNot : ∀ s : State, s.returns = [⟨some 0, 0, []⟩] → s.responses = [] →
      ¬ Consumed Host.smallLayout s := by
    intro s hReturns hResponses h
    obtain ⟨a, ha, -⟩ := h ⟨some 0, 0, []⟩ (by simp [hReturns]) rfl
    simp [hResponses] at ha
  exact ⟨_, rfl, rfl, rfl, hNot _ rfl rfl⟩

end VirtioCrypto.Guest.Solo
