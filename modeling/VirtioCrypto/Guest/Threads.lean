import VirtioCrypto.Guest.Ioctl
import VirtioCrypto.Transition

/-!
# Guest — calls of several threads on one open port

`port_fops_ioctl` cut into the steps between which another thread can run: the
check for room, the copy from the caller, `send_buf` (in two halves when the
descriptor is blocking: the spin holds `outvq_lock` while the host works), the
look for data, `fill_readbuf`, the copy to the caller. The host answers one
request at a time, and the interrupt may come at any point. The port stays open
at both ends.

A request is known by its ticket, the number of requests queued before it, and a
byte on the in queue by the ticket of the request it answers. Neither has an
influence on a step: the driver has no such numbers. `responses`, `reads` and
`returns` keep what has happened.

A `cr_data` is one object of guest RAM, known by its address: `ram a` are the
`sizeof(crypto_data)` bytes at `a`, and `live` are the addresses that were handed
out and not freed. `reclaim_consumed_buffers` frees what it takes off the out queue,
and a call that gets to its end frees its own. `kmalloc` hands out addresses that are
not live, unless an object has been freed twice: from then on it may hand out any.

* `host_of_turn` — the host's step here is a turn of the flush loop;
* `step_fifo` — whatever the threads do, the responses go through the in queue
  in order, and every one of them is in one place: read, or pending.
-/

namespace VirtioCrypto.Guest.Threads

open Octets Cryptodev Transition

/-- A byte of a response, with the ticket of the request. -/
abbrev Tagged := Nat × UInt8

/-- Where a thread is in `port_fops_ioctl`. From `send_buf` on it has a ticket,
unless the request could not be queued. -/
inductive Pc
  | idle
  | asleep
  | checked (nonblock : Bool)
  | prepared (nonblock : Bool) (base : Nat)
  | spinning (base ticket : Nat)
  | sent (base : Nat) (ticket : Option Nat)
  | ready (base : Nat) (ticket : Option Nat)
  | filled (base : Nat) (ticket : Option Nat)
deriving DecidableEq

/-- The address of the thread's `cr_data`. -/
def Pc.base : Pc → Option Nat
  | .idle | .asleep | .checked _ => none
  | .prepared _ base | .spinning base _ | .sent base _ | .ready base _ | .filled base _ => some base

/-- The thread's request. -/
def Pc.ticket : Pc → Option Nat
  | .idle | .asleep | .checked _ | .prepared .. => none
  | .spinning _ ticket => some ticket
  | .sent _ ticket | .ready _ ticket | .filled _ ticket => ticket

/-- A call that has returned: its request, its result, and the message it copied
to the caller from. -/
structure Return where
  ticket : Option Nat
  ret : Int
  copied : Bytes
deriving DecidableEq

structure State where
  port : Port Tagged
  ivq : InVq Tagged
  ovq : OutVq
  -- the thread that holds outvq_lock
  lock : Option Nat
  ram : Nat → Bytes
  live : List Nat
  -- an object was freed that was not live
  corrupt : Bool
  pc : Nat → Pc
  queued : Nat
  responses : List (Nat × Bytes)
  reads : List (List Tagged)
  returns : List Return

/-- What can happen next. `nonblock`, the address from `kmalloc`, the caller's
message, the response and the failures are not the driver's choice. -/
inductive Event
  | check (i : Nat) (nonblock : Bool)
  | wake (i : Nat)
  | signal (i : Nat)
  | prepare (i base : Nat) (msg : Bytes)
  | fail (i : Nat) (err : Int)
  | send (i : Nat)
  | spun (i : Nat)
  | host (response : Bytes)
  | intr
  | wait (i : Nat)
  | fill (i : Nat)
  | copy (i : Nat) (ok : Bool)

/-- The address an element of the out queue stands for. -/
def addr (e : Elem) : Nat := (e.outSg.headD (0, 0)).1

/-- A response as it goes over the in queue. -/
def tagged (r : Nat × Bytes) : List Tagged := r.2.map fun b => (r.1, b)

/-- `kfree` of one address after the other: what is still live, and whether one of
them was not. -/
def kfree (live : List Nat) : List Nat → List Nat × Bool
  | [] => (live, false)
  | a :: as =>
    if a ∈ live then kfree (live.filter (· ≠ a)) as else ((kfree live as).1, true)

namespace State

def goto (s : State) (i : Nat) (pc : Pc) : State := { s with pc := Function.update s.pc i pc }

/-- The call of thread `i` returns. -/
def leave (s : State) (i : Nat) (r : Return) : State :=
  { s.goto i .idle with returns := s.returns ++ [r] }

/-- What an operation that leaves the out queue as `r` has taken off it. -/
def taken (s : State) (r : Port Tagged × OutVq) : List Nat :=
  (s.ovq.used.filter (· ∉ r.2.used)).map addr

/-- The out queue after an operation that reclaims: what it took is freed. -/
def setOut (s : State) (r : Port Tagged × OutVq) : State :=
  { s with port := r.1, ovq := r.2, live := (kfree s.live (s.taken r)).1,
           corrupt := s.corrupt || (kfree s.live (s.taken r)).2 }

def setIn (s : State) (r : Port Tagged × InVq Tagged) : State := { s with port := r.1, ivq := r.2 }

/-- The buffers on their way to a read: the cached one, then the used ones. -/
def pending (s : State) : List (PortBuffer Tagged) := s.port.inbuf.toList ++ s.ivq.used

end State

-- ---------------------------------------------------------------------------
-- The steps
-- ---------------------------------------------------------------------------

variable (L : Layout)

/-- One step; `none` when the event is not possible here. -/
def step (s : State) : Event → Option State
  | .check i nonblock =>
    match s.pc i, s.lock with
    | .idle, none =>
      let r := willWriteBlock s.port s.ovq
      let s := s.setOut r.2
      if !r.1 then some (s.goto i (.checked nonblock))
      else if nonblock then some (s.leave i ⟨none, -Host.EAGAIN, []⟩)
      else some (s.goto i .asleep)
    | _, _ => none
  | .wake i =>
    match s.pc i, s.lock with
    | .asleep, none =>
      let r := willWriteBlock s.port s.ovq
      let s := s.setOut r.2
      some (if !r.1 then s.goto i (.checked false) else s)
    | _, _ => none
  | .signal i =>
    match s.pc i with
    | .asleep => some (s.leave i ⟨none, -ERESTARTSYS, []⟩)
    | .sent _ ticket =>
      -- the sleep for data; cr_data is not freed on this path
      let r := portHasData s.port s.ivq
      if r.1 then none else some ((s.setIn r.2).leave i ⟨ticket, -ERESTARTSYS, []⟩)
    | _ => none
  | .prepare i base msg =>
    match s.pc i with
    | .checked nonblock =>
      if (base ∈ s.live ∧ s.corrupt = false) ∨ msg.length ≠ L.sizeof then none
      else some ({ s with ram := Function.update s.ram base msg, live := base :: s.live }.goto i
        (.prepared nonblock base))
    | _ => none
  | .fail i err =>
    match s.pc i with
    | .checked _ =>
      if err ∈ [ENOMEM, EFAULT, Host.EINVAL] then some (s.leave i ⟨none, -err, []⟩) else none
    | _ => none
  | .send i =>
    match s.pc i, s.lock with
    | .prepared nonblock base, none =>
      let r := sendBuf s.port s.ovq ⟨s.queued, [(base, L.sizeof)]⟩
      let s' := s.setOut r.2
      if !r.1 then some (s'.goto i (.sent base none))
      else if nonblock then
        some ({ s' with queued := s.queued + 1 }.goto i (.sent base (some s.queued)))
      else
        some ({ s' with queued := s.queued + 1, lock := some i }.goto i (.spinning base s.queued))
    | _, _ => none
  | .spun i =>
    match s.pc i with
    | .spinning base ticket =>
      (spin s.port s.ovq).map fun r =>
        { s with port := r.1, ovq := r.2, lock := none }.goto i (.sent base (some ticket))
    | _ => none
  | .host response =>
    match s.ovq.avail with
    | [] => none
    | e :: rest =>
      -- the host edits the request where it is, and sends that
      if response.length ≠ L.sizeof ∨ s.ivq.avail = [] then none
      else some { s with
        ovq := { s.ovq with avail := rest, used := s.ovq.used ++ [e] }
        ivq := (writeToPort s.ivq (tagged (e.index, response))).1
        ram := Function.update s.ram (addr e) response
        responses := s.responses ++ [(e.index, response)] }
  | .intr => some (s.setIn (inIntr s.port s.ivq))
  | .wait i =>
    match s.pc i with
    | .sent base ticket =>
      let r := portHasData s.port s.ivq
      let s := s.setIn r.2
      some (if r.1 then s.goto i (.ready base ticket) else s)
    | _ => none
  | .fill i =>
    match s.pc i with
    | .ready base ticket =>
      let r := fillReadbuf s.port s.ivq L.sizeof
      some ({ s.setIn r.2 with
        ram := Function.update s.ram base
          (r.1.map Prod.snd ++ (s.ram base).drop r.1.length)
        reads := s.reads ++ [r.1] }.goto i (.filled base ticket))
    | _ => none
  | .copy i ok =>
    match s.pc i with
    | .filled base ticket =>
      let r := kfree s.live [base]
      some ({ s with live := r.1, corrupt := s.corrupt || r.2 }.leave i
        ⟨ticket, if ok then 0 else -EFAULT, if ok then s.ram base else []⟩)
    | _ => none

variable {L}

/-- Objects that are live, freed once each, stay out of trouble; the others stay
live. -/
theorem kfree_live {as : List Nat} : ∀ {live : List Nat}, (∀ a ∈ as, a ∈ live) → as.Nodup →
    (kfree live as).2 = false ∧ ∀ a ∈ live, a ∉ as → a ∈ (kfree live as).1 := by
  induction as with
  | nil =>
    intro live _ _
    exact ⟨rfl, fun a ha _ => ha⟩
  | cons b as ih =>
    intro live hLive hNodup
    obtain ⟨hb, hRest⟩ := List.nodup_cons.mp hNodup
    have hOthers : ∀ a ∈ as, a ∈ live.filter (· ≠ b) := by
      intro a ha
      refine List.mem_filter.mpr ⟨hLive a (by simp [ha]), decide_eq_true ?_⟩
      rintro rfl
      exact hb ha
    obtain ⟨hOk, hKept⟩ := ih hOthers hRest
    rw [kfree, if_pos (hLive b (by simp))]
    refine ⟨hOk, fun a ha hNot => hKept a (List.mem_filter.mpr ⟨ha, decide_eq_true ?_⟩) ?_⟩
    · rintro rfl
      exact hNot (by simp)
    · exact fun hMem => hNot (by simp [hMem])

-- ---------------------------------------------------------------------------
-- What a step can do
-- ---------------------------------------------------------------------------

variable {s s' : State} {i : Nat}

/-- Thread `i` is at `pc` now, and the calls `rs` have returned. -/
def State.move (s : State) (i : Nat) (pc : Pc) (rs : List Return) : State :=
  { s.goto i pc with returns := s.returns ++ rs }

theorem State.move_nil (s : State) (i : Nat) (pc : Pc) : s.move i pc [] = s.goto i pc := by
  simp [State.move, State.goto]

theorem State.goto_self {pc : Pc} (h : s.pc i = pc) : s.goto i pc = s := by
  simp [State.goto, ← h]

/-- A step of a thread before it has a `cr_data`: it gets no further than that,
and if it returns it is with an error. -/
def Early (s s' : State) (i : Nat) : Prop :=
  (s.pc i).base = none ∧ ∃ pc rs, s' = s.move i pc rs ∧ pc.base = none ∧
    ∀ r ∈ rs, r.ret ≠ 0

theorem step_check {nonblock : Bool} (h : step L s (.check i nonblock) = some s') :
    Early (s.setOut (willWriteBlock s.port s.ovq).2) s' i := by
  rw [step] at h
  split at h
  case h_2 => exact absurd h (by simp)
  rename_i hPc _
  have hBase : (s.pc i).base = none := by simp [hPc, Pc.base]
  refine ⟨hBase, ?_⟩
  simp only at h
  split at h
  · obtain rfl := Option.some.inj h
    exact ⟨.checked nonblock, [], (State.move_nil _ _ _).symm, rfl, by simp⟩
  · split at h
    · obtain rfl := Option.some.inj h
      exact ⟨.idle, _, rfl, rfl, by simp [Host.EAGAIN]⟩
    · obtain rfl := Option.some.inj h
      exact ⟨.asleep, [], (State.move_nil _ _ _).symm, rfl, by simp⟩

theorem step_wake (h : step L s (.wake i) = some s') :
    Early (s.setOut (willWriteBlock s.port s.ovq).2) s' i := by
  rw [step] at h
  split at h
  case h_2 => exact absurd h (by simp)
  rename_i hPc _
  have hBase : (s.pc i).base = none := by simp [hPc, Pc.base]
  refine ⟨hBase, ?_⟩
  obtain rfl := Option.some.inj h
  split
  · exact ⟨.checked false, [], (State.move_nil _ _ _).symm, rfl, by simp⟩
  · refine ⟨.asleep, [], ?_, rfl, by simp⟩
    rw [State.move_nil]
    exact (State.goto_self (s := s.setOut _) hPc).symm

theorem step_fail {err : Int} (h : step L s (.fail i err) = some s') : Early s s' i := by
  rw [step] at h
  split at h
  case h_2 => exact absurd h (by simp)
  rename_i hPc
  have hBase : (s.pc i).base = none := by simp [hPc, Pc.base]
  refine ⟨hBase, ?_⟩
  split at h
  case isFalse => exact absurd h (by simp)
  rename_i hErr
  obtain rfl := Option.some.inj h
  refine ⟨.idle, _, rfl, rfl, ?_⟩
  simp only [ENOMEM, EFAULT, Host.EINVAL, List.mem_cons, List.not_mem_nil, or_false] at hErr
  simp only [List.mem_singleton, forall_eq]
  omega

/-- A signal ends the first sleep, or the second one, whose call leaves its
`cr_data` behind. -/
theorem step_signal (h : step L s (.signal i) = some s') :
    Early s s' i ∨ ∃ base ticket, s.pc i = .sent base ticket ∧
      s' = (s.setIn (portHasData s.port s.ivq).2).leave i ⟨ticket, -ERESTARTSYS, []⟩ := by
  rw [step] at h
  split at h
  · rename_i hPc
    have hBase : (s.pc i).base = none := by simp [hPc, Pc.base]
    obtain rfl := Option.some.inj h
    exact .inl ⟨hBase, .idle, _, rfl, rfl, by simp [ERESTARTSYS]⟩
  · rename_i base ticket hPc
    simp only at h
    split at h
    · exact absurd h (by simp)
    · exact .inr ⟨base, ticket, hPc, (Option.some.inj h).symm⟩
  · exact absurd h (by simp)

theorem step_prepare {base : Nat} {msg : Bytes} (h : step L s (.prepare i base msg) = some s') :
    ∃ nonblock, s.pc i = .checked nonblock ∧ (s.corrupt = false → base ∉ s.live) ∧
      msg.length = L.sizeof ∧
      s' = { s with ram := Function.update s.ram base msg, live := base :: s.live }.goto i
        (.prepared nonblock base) := by
  rw [step] at h
  split at h
  case h_2 => exact absurd h (by simp)
  rename_i nonblock hPc
  split at h
  · exact absurd h (by simp)
  · rename_i hGuard
    obtain ⟨hFree, hLen⟩ := not_or.mp hGuard
    exact ⟨nonblock, hPc, fun hIntact hLive => hFree ⟨hLive, hIntact⟩, not_not.mp hLen,
      (Option.some.inj h).symm⟩

/-- `send_buf` queues the request, and the thread goes on with its ticket, or it
does not, and the thread goes on all the same. -/
theorem step_send (h : step L s (.send i) = some s') :
    ∃ nonblock base, s.pc i = .prepared nonblock base ∧
      (((sendBuf s.port s.ovq ⟨s.queued, [(base, L.sizeof)]⟩).1 = false ∧
          s' = (s.setOut (sendBuf s.port s.ovq ⟨s.queued, [(base, L.sizeof)]⟩).2).goto i
            (.sent base none)) ∨
        ((sendBuf s.port s.ovq ⟨s.queued, [(base, L.sizeof)]⟩).1 = true ∧
          ∃ lock pc, pc.base = some base ∧ pc.ticket = some s.queued ∧ (∀ b o, pc ≠ .filled b o) ∧
            s' = { s.setOut (sendBuf s.port s.ovq ⟨s.queued, [(base, L.sizeof)]⟩).2 with
              queued := s.queued + 1, lock := lock }.goto i pc)) := by
  rw [step] at h
  split at h
  case h_2 => exact absurd h (by simp)
  rename_i nonblock base hPc hLock
  refine ⟨nonblock, base, hPc, ?_⟩
  simp only at h
  split at h
  · rename_i hFull
    exact .inl ⟨by simpa using hFull, (Option.some.inj h).symm⟩
  · rename_i hQueued
    refine .inr ⟨by simpa using hQueued, ?_⟩
    split at h
    · refine ⟨s.lock, .sent base (some s.queued), rfl, rfl, by simp, ?_⟩
      exact (Option.some.inj h).symm
    · refine ⟨some i, .spinning base s.queued, rfl, rfl, by simp, ?_⟩
      exact (Option.some.inj h).symm

theorem step_spun (h : step L s (.spun i) = some s') :
    ∃ base ticket r, s.pc i = .spinning base ticket ∧ spin s.port s.ovq = some r ∧
      s' = { s with port := r.1, ovq := r.2, lock := none }.goto i (.sent base (some ticket)) := by
  rw [step] at h
  split at h
  case h_2 => exact absurd h (by simp)
  rename_i base ticket hPc
  obtain ⟨r, hSpin, hEq⟩ := Option.map_eq_some_iff.mp h
  exact ⟨base, ticket, r, hPc, hSpin, hEq.symm⟩

theorem step_host {response : Bytes} (h : step L s (.host response) = some s') :
    ∃ e rest sz avail, s.ovq.avail = e :: rest ∧ response.length = L.sizeof ∧
      s.ivq.avail = sz :: avail ∧
      s' = { s with
        ovq := { s.ovq with avail := rest, used := s.ovq.used ++ [e] }
        ivq := (writeToPort s.ivq (tagged (e.index, response))).1
        ram := Function.update s.ram (addr e) response
        responses := s.responses ++ [(e.index, response)] } := by
  rw [step] at h
  split at h
  · exact absurd h (by simp)
  · rename_i e rest hAvail
    split at h
    · exact absurd h (by simp)
    · rename_i hGuard
      obtain ⟨hLen, hRoom⟩ := not_or.mp hGuard
      obtain ⟨sz, avail, hPosted⟩ := List.exists_cons_of_ne_nil hRoom
      exact ⟨e, rest, sz, avail, hAvail, not_not.mp hLen, hPosted, (Option.some.inj h).symm⟩

theorem step_wait (h : step L s (.wait i) = some s') :
    ∃ base ticket, s.pc i = .sent base ticket ∧
      ∃ pc, pc.base = some base ∧ pc.ticket = ticket ∧ (∀ b o, pc ≠ .filled b o) ∧
        s' = (s.setIn (portHasData s.port s.ivq).2).goto i pc := by
  rw [step] at h
  split at h
  case h_2 => exact absurd h (by simp)
  rename_i base ticket hPc
  obtain rfl := Option.some.inj h
  refine ⟨base, ticket, hPc, ?_⟩
  split
  · exact ⟨.ready base ticket, rfl, rfl, by simp, rfl⟩
  · exact ⟨.sent base ticket, rfl, rfl, by simp, (State.goto_self (s := s.setIn _) hPc).symm⟩

theorem step_fill (h : step L s (.fill i) = some s') :
    ∃ base ticket, s.pc i = .ready base ticket ∧
      s' = { s.setIn (fillReadbuf s.port s.ivq L.sizeof).2 with
        ram := Function.update s.ram base
          ((fillReadbuf s.port s.ivq L.sizeof).1.map Prod.snd ++
            (s.ram base).drop (fillReadbuf s.port s.ivq L.sizeof).1.length)
        reads := s.reads ++ [(fillReadbuf s.port s.ivq L.sizeof).1] }.goto i
          (.filled base ticket) := by
  rw [step] at h
  split at h
  case h_2 => exact absurd h (by simp)
  rename_i base ticket hPc
  exact ⟨base, ticket, hPc, (Option.some.inj h).symm⟩

theorem step_copy {ok : Bool} (h : step L s (.copy i ok) = some s') :
    ∃ base ticket, s.pc i = .filled base ticket ∧
      s' = { s with live := (kfree s.live [base]).1,
                    corrupt := s.corrupt || (kfree s.live [base]).2 }.leave i
        ⟨ticket, if ok then 0 else -EFAULT, if ok then s.ram base else []⟩ := by
  rw [step] at h
  split at h
  case h_2 => exact absurd h (by simp)
  rename_i base ticket hPc
  exact ⟨base, ticket, hPc, (Option.some.inj h).symm⟩

-- ---------------------------------------------------------------------------
-- The device at the other end
-- ---------------------------------------------------------------------------

/-- The device has the same queues; it does not see the tickets of the bytes. -/
structure HostSees {σ : Type} (s : State) (p : Host.Flush (Host.Port σ)) : Prop where
  ovq : p.ovq = s.ovq
  ivq : p.st.ivq = s.ivq.map Prod.snd

/-- A turn of the flush loop of `virtio-serial-bus.c` on a request whose ioctl
succeeds is a step of the host here, with the message as the response. -/
theorem host_of_turn {σ : Type} {dev : Host.DevCrypto σ} (hDev : dev.KeepsMapped)
    {p : Host.Flush (Host.Port σ)} (hSees : HostSees s p) (hConn : Host.Connected p.st) {e : Elem}
    {base : Nat} {c : Cmd} (hReq : Host.NextRequest L p e base c)
    (hOk : Host.outcome dev L (Host.cmdRead L p.st base) base c = some (.ok ()))
    (hRoom : s.ivq.avail ≠ []) :
    ∃ response s', step L s (.host response) = some s' ∧ HostSees s' (Host.turn dev L p) ∧
      (Host.turn dev L p).st.mem.space.load base L.sizeof = some response ∧
      s'.ram base = response := by
  obtain ⟨rest, hAvail⟩ := hReq.head
  obtain ⟨data, hLoad, hCmd⟩ := hReq.message
  obtain ⟨st, bs, hCall, hSt, hLoad', hIvq⟩ := Host.flushBuf_answers hDev hConn hLoad hCmd hOk
  have hTurn : Host.turn dev L p = _ := congrArg Prod.fst (Host.flushLoop_request hReq.idle hAvail
    hReq.sg hConn.unthrottled hCall ⟨by decide, by decide⟩ hSt.unthrottled)
  have hLen : bs.length = L.sizeof := Space.length_of_load hLoad'
  have hAddr : addr e = base := by simp [addr, hReq.sg]
  have hUntag : (tagged (e.index, bs)).map Prod.snd = bs := by simp [tagged, Function.comp_def]
  have hStep : step L s (.host bs) = some { s with
      ovq := { s.ovq with avail := rest, used := s.ovq.used ++ [e] }
      ivq := (writeToPort s.ivq (tagged (e.index, bs))).1
      ram := Function.update s.ram (addr e) bs
      responses := s.responses ++ [(e.index, bs)] } := by
    rw [step, ← hSees.ovq, hAvail]
    simp only [hLen, hRoom, ne_eq, not_true, or_self, if_false]
  refine ⟨bs, _, hStep, ?_, ?_, ?_⟩
  · rw [hTurn]
    constructor
    · rw [hSees.ovq]
    · show st.ivq = _
      rw [hIvq, hSees.ivq, ← writeToPort_map, hUntag]
  · rw [hTurn]
    exact hLoad'
  · show Function.update s.ram (addr e) bs base = bs
    rw [hAddr, Function.update_self]

-- ---------------------------------------------------------------------------
-- The order of requests and responses
-- ---------------------------------------------------------------------------

/-- The two queues are in order. Requests are with the host in the order of their
tickets; the responses carry the tickets in order; and what was read, followed by
what is pending, is all the responses, each whole and in a page of its own. -/
structure Fifo (L : Layout) (s : State) : Prop where
  guest : s.port.guestConnected = true
  ready : s.ivq.ready = true
  posted : ∀ sz ∈ s.ivq.avail, sz = PAGE_SIZE
  fresh : ∀ buf ∈ s.pending, buf.offset = 0 ∧ buf.size = PAGE_SIZE
  tickets : s.ovq.avail.map Elem.index = List.range' s.responses.length s.ovq.avail.length
  queued : s.queued = s.responses.length + s.ovq.avail.length
  numbered : ∀ (t : Nat) (r : Nat × Bytes), s.responses[t]? = some r → r.1 = t
  whole : ∀ r ∈ s.responses, r.2.length = L.sizeof
  stream : s.reads.filter (· ≠ []) ++ s.pending.map PortBuffer.data = s.responses.map tagged

/-- Nothing the order depends on differs. -/
structure SameQueues (s s' : State) : Prop where
  inbuf : s'.port.inbuf = s.port.inbuf
  guest : s'.port.guestConnected = s.port.guestConnected
  ivq : s'.ivq = s.ivq
  avail : s'.ovq.avail = s.ovq.avail
  queued : s'.queued = s.queued
  responses : s'.responses = s.responses
  reads : s'.reads = s.reads

theorem Fifo.of_same (h : Fifo L s) (hs : SameQueues s s') : Fifo L s' := by
  have hPending : s'.pending = s.pending := by
    unfold State.pending
    rw [hs.inbuf, hs.ivq]
  constructor
  · rw [hs.guest]; exact h.guest
  · rw [hs.ivq]; exact h.ready
  · rw [hs.ivq]; exact h.posted
  · rw [hPending]; exact h.fresh
  · rw [hs.avail, hs.responses]; exact h.tickets
  · rw [hs.queued, hs.avail, hs.responses]; exact h.queued
  · rw [hs.responses]; exact h.numbered
  · rw [hs.responses]; exact h.whole
  · rw [hs.reads, hPending, hs.responses]; exact h.stream

/-- A look for data leaves the order as it is. -/
theorem Fifo.look (h : Fifo L s) : Fifo L (s.setIn (portHasData s.port s.ivq).2) := by
  have hOff : ∀ buf ∈ s.ivq.used, buf.offset = 0 := fun buf hb =>
    (h.fresh buf (List.mem_append_right _ hb)).1
  obtain ⟨hPending, hGuest, hReady, hAvail, -⟩ := portHasData_frame s.port s.ivq hOff
  have hPending' : (s.setIn (portHasData s.port s.ivq).2).pending = s.pending := hPending
  constructor
  · exact hGuest.trans h.guest
  · exact hReady.trans h.ready
  · intro sz hSz
    exact h.posted sz (hAvail ▸ hSz)
  · rw [hPending']; exact h.fresh
  · exact h.tickets
  · exact h.queued
  · exact h.numbered
  · exact h.whole
  · rw [hPending']; exact h.stream

/-- What is pending is part of the responses. -/
theorem Fifo.pending_whole (h : Fifo L s) {buf : PortBuffer Tagged} (hb : buf ∈ s.pending) :
    buf.data.length = L.sizeof := by
  have hMem : buf.data ∈ s.responses.map tagged := by
    rw [← h.stream]
    exact List.mem_append_right _ (List.mem_map_of_mem hb)
  obtain ⟨r, hr, hData⟩ := List.mem_map.mp hMem
  rw [← hData, tagged, List.length_map]
  exact h.whole r hr

theorem Fifo.pending_ne (h : Fifo L s) {buf : PortBuffer Tagged} (hb : buf ∈ s.pending) :
    buf.data ≠ [] := by
  intro hNil
  have hLen := h.pending_whole hb
  have hBounds := L.cmdOff_bounds
  rw [hNil, List.length_nil] at hLen
  omega

/-- A read takes the first pending buffer, whole. -/
theorem Fifo.fill (h : Fifo L s) :
    (fillReadbuf s.port s.ivq L.sizeof).1 = (s.pending.map PortBuffer.data).headD [] ∧
      (s.setIn (fillReadbuf s.port s.ivq L.sizeof).2).pending = s.pending.tail ∧
      (fillReadbuf s.port s.ivq L.sizeof).2.1.guestConnected = true ∧
      (fillReadbuf s.port s.ivq L.sizeof).2.2.ready = true ∧
      ∀ sz ∈ (fillReadbuf s.port s.ivq L.sizeof).2.2.avail, sz = PAGE_SIZE := by
  have hSize : L.sizeof ≠ 0 := by have := L.cmdOff_bounds; omega
  cases hp : s.pending with
  | nil =>
    obtain ⟨hNone, hUsed⟩ := List.append_eq_nil_iff.mp hp
    have hInbuf : s.port.inbuf = none := by simpa using hNone
    have hRead : fillReadbuf s.port s.ivq L.sizeof = ([], s.port, s.ivq) := by
      simp [fillReadbuf, hSize, portHasData_nil hInbuf hUsed, hInbuf]
    rw [hRead]
    exact ⟨rfl, hp, h.guest, h.ready, h.posted⟩
  | cons buf rest =>
    have hMem : buf ∈ s.pending := by simp [hp]
    obtain ⟨hOff, hPage⟩ := h.fresh buf hMem
    obtain ⟨hCached, hUsed⟩ := portHasData_head hp hOff
    have hLook := h.look
    rw [← fillReadbuf_portHasData _ _ _ hSize]
    obtain ⟨hData, hInbuf, hGuest, hReady, hUsed', hAvail⟩ :=
      fillReadbuf_cached (portHasData s.port s.ivq).2.2 hCached hOff hSize
        (Nat.le_of_eq (h.pending_whole hMem))
    refine ⟨hData, ?_, hGuest.trans hLook.guest, hReady.trans hLook.ready, ?_⟩
    · show Option.toList _ ++ _ = rest
      rw [State.setIn, hInbuf, hUsed', hUsed]
      rfl
    · intro sz hSz
      rcases hAvail sz hSz with hOld | hNew
      · exact hLook.posted sz hOld
      · rw [hNew, hPage]

/-- A request joins the queue. -/
theorem Fifo.queue (h : Fifo L s) {e : Elem} (hIndex : e.index = s.queued)
    (hIn : s'.port.inbuf = s.port.inbuf) (hGuest : s'.port.guestConnected = s.port.guestConnected)
    (hIvq : s'.ivq = s.ivq) (hAvail : s'.ovq.avail = s.ovq.avail ++ [e])
    (hQueued : s'.queued = s.queued + 1) (hResponses : s'.responses = s.responses)
    (hReads : s'.reads = s.reads) : Fifo L s' := by
  have hPending : s'.pending = s.pending := by
    unfold State.pending
    rw [hIn, hIvq]
  constructor
  · rw [hGuest]; exact h.guest
  · rw [hIvq]; exact h.ready
  · rw [hIvq]; exact h.posted
  · rw [hPending]; exact h.fresh
  · rw [hAvail, hResponses, List.map_append, h.tickets, List.length_append, List.length_singleton,
      List.range'_concat, Nat.one_mul, ← h.queued, List.map_singleton, hIndex]
  · rw [hQueued, hAvail, hResponses, h.queued, List.length_append, List.length_singleton]
    omega
  · rw [hResponses]; exact h.numbered
  · rw [hResponses]; exact h.whole
  · rw [hReads, hPending, hResponses]; exact h.stream

/-- The request the host takes is the one whose turn it is. -/
theorem Fifo.head_index (h : Fifo L s) {e : Elem} {rest : List Elem}
    (hAvail : s.ovq.avail = e :: rest) : e.index = s.responses.length := by
  have hTickets := h.tickets
  rw [hAvail, List.length_cons, List.range'_succ, List.map_cons] at hTickets
  exact (List.cons_eq_cons.mp hTickets).1

theorem step_host_fifo (hPage : L.sizeof ≤ PAGE_SIZE) (h : Fifo L s) {response : Bytes}
    (hStep : step L s (.host response) = some s') : Fifo L s' := by
  obtain ⟨e, rest, sz, avail, hAvail, hLen, hPosted, rfl⟩ := step_host hStep
  have hIndex := h.head_index hAvail
  have hTickets := h.tickets
  rw [hAvail, List.length_cons, List.range'_succ, List.map_cons] at hTickets
  have hRest := (List.cons_eq_cons.mp hTickets).2
  have hQueued := h.queued
  rw [hAvail, List.length_cons] at hQueued
  have hSz : sz = PAGE_SIZE := h.posted sz (by simp [hPosted])
  have hTagLen : (tagged (e.index, response)).length = L.sizeof := by simp [tagged, hLen]
  have hNe : tagged (e.index, response) ≠ [] := by
    intro hNil
    have hBounds := L.cmdOff_bounds
    rw [hNil, List.length_nil] at hTagLen
    omega
  have hWrite := writeToPort_fits h.ready hPosted hNe (by omega)
  have hPending : ({ s with ivq := (writeToPort s.ivq (tagged (e.index, response))).1 } :
      State).pending = s.pending ++ [⟨sz, tagged (e.index, response), 0⟩] := by
    simp only [State.pending, hWrite, List.append_assoc]
  constructor
  · exact h.guest
  · show (writeToPort s.ivq (tagged (e.index, response))).1.ready = true
    rw [hWrite]
    exact h.ready
  · intro sz' hSz'
    apply h.posted
    rw [hPosted]
    refine List.mem_cons_of_mem _ ?_
    rw [show (writeToPort s.ivq (tagged (e.index, response))).1 = _ from hWrite] at hSz'
    exact hSz'
  · intro buf hBuf
    have hBuf' : buf ∈ s.pending ++ [⟨sz, tagged (e.index, response), 0⟩] := hPending ▸ hBuf
    rcases List.mem_append.mp hBuf' with hOld | hNew
    · exact h.fresh buf hOld
    · obtain rfl := List.mem_singleton.mp hNew
      exact ⟨rfl, hSz⟩
  · simpa using hRest
  · simp only [List.length_append, List.length_singleton]
    omega
  · intro t r hr
    rcases Nat.lt_or_ge t s.responses.length with hlt | hge
    · rw [List.getElem?_append_left hlt] at hr
      exact h.numbered t r hr
    · rw [List.getElem?_append_right hge, List.getElem?_singleton] at hr
      split at hr
      · obtain rfl := Option.some.inj hr
        show e.index = t
        omega
      · exact absurd hr (by simp)
  · intro r hr
    rcases List.mem_append.mp hr with hOld | hNew
    · exact h.whole r hOld
    · obtain rfl := List.mem_singleton.mp hNew
      exact hLen
  · show s.reads.filter (· ≠ []) ++ ({ s with ivq := (writeToPort s.ivq
      (tagged (e.index, response))).1 } : State).pending.map PortBuffer.data = _
    rw [hPending, List.map_append, ← List.append_assoc, h.stream, List.map_append]
    rfl

theorem step_fill_fifo (h : Fifo L s) (hStep : step L s (.fill i) = some s') : Fifo L s' := by
  obtain ⟨base, ticket, -, rfl⟩ := step_fill hStep
  obtain ⟨hRead, hPending, hGuest, hReady, hPosted⟩ := h.fill
  constructor
  · exact hGuest
  · exact hReady
  · exact hPosted
  · intro buf hBuf
    have hBuf' : buf ∈ s.pending.tail := hPending ▸ hBuf
    exact h.fresh buf (List.mem_of_mem_tail hBuf')
  · exact h.tickets
  · exact h.queued
  · exact h.numbered
  · exact h.whole
  · show (s.reads ++ [(fillReadbuf s.port s.ivq L.sizeof).1]).filter (· ≠ []) ++
      (s.setIn (fillReadbuf s.port s.ivq L.sizeof).2).pending.map PortBuffer.data =
        s.responses.map tagged
    rw [hPending, hRead, List.filter_append, List.append_assoc, ← h.stream]
    cases hp : s.pending with
    | nil => rfl
    | cons buf rest =>
      have hNe : buf.data ≠ [] := h.pending_ne (by simp [hp])
      simp [hNe]

/-- Every step keeps the queues in order. -/
theorem step_fifo (hPage : L.sizeof ≤ PAGE_SIZE) (h : Fifo L s) {ev : Event}
    (hStep : step L s ev = some s') : Fifo L s' := by
  have hWill := willWriteBlock_frame s.port s.ovq
  have hOut : Fifo L (s.setOut (willWriteBlock s.port s.ovq).2) :=
    h.of_same ⟨hWill.1, hWill.2.1, rfl, hWill.2.2, rfl, rfl, rfl⟩
  have hEarly : ∀ {s s' : State} {i : Nat}, Early s s' i → Fifo L s → Fifo L s' := by
    rintro s s' i ⟨-, pc, rs, rfl, -, -⟩ h
    exact h.of_same ⟨rfl, rfl, rfl, rfl, rfl, rfl, rfl⟩
  cases ev with
  | check i nonblock => exact hEarly (step_check hStep) hOut
  | wake i => exact hEarly (step_wake hStep) hOut
  | signal i =>
    rcases step_signal hStep with hE | ⟨base, ticket, -, rfl⟩
    · exact hEarly hE h
    · exact h.look.of_same ⟨rfl, rfl, rfl, rfl, rfl, rfl, rfl⟩
  | prepare i base msg =>
    obtain ⟨nonblock, -, -, -, rfl⟩ := step_prepare hStep
    exact h.of_same ⟨rfl, rfl, rfl, rfl, rfl, rfl, rfl⟩
  | fail i err => exact hEarly (step_fail hStep) h
  | send i =>
    obtain ⟨nonblock, base, -, ⟨hFull, rfl⟩ | ⟨hQueued, lock, pc, -, -, -, rfl⟩⟩ := step_send hStep
    all_goals
      obtain ⟨hIn, hGuest, hAvail⟩ := sendBuf_frame s.port s.ovq ⟨s.queued, [(base, L.sizeof)]⟩
    · rw [hFull, if_neg (by simp), List.append_nil] at hAvail
      exact h.of_same ⟨hIn, hGuest, rfl, hAvail, rfl, rfl, rfl⟩
    · rw [hQueued, if_pos rfl] at hAvail
      exact h.queue rfl hIn hGuest rfl hAvail rfl rfl rfl
  | spun i =>
    obtain ⟨base, ticket, r, -, hSpin, rfl⟩ := step_spun hStep
    obtain ⟨hIn, hGuest, hAvail⟩ := spin_frame hSpin
    exact h.of_same ⟨hIn, hGuest, rfl, hAvail, rfl, rfl, rfl⟩
  | host response => exact step_host_fifo hPage h hStep
  | intr =>
    obtain rfl := Option.some.inj hStep
    rw [inIntr_open h.guest]
    exact h.look
  | wait i =>
    obtain ⟨base, ticket, -, pc, -, -, -, rfl⟩ := step_wait hStep
    exact h.look.of_same ⟨rfl, rfl, rfl, rfl, rfl, rfl, rfl⟩
  | fill i => exact step_fill_fifo h hStep
  | copy i ok =>
    obtain ⟨base, ticket, -, rfl⟩ := step_copy hStep
    exact h.of_same ⟨rfl, rfl, rfl, rfl, rfl, rfl, rfl⟩

/-- Every store to a message is of its size. -/
theorem step_sized (h : Fifo L s) (hSized : ∀ a, (s.ram a).length = L.sizeof) {ev : Event}
    (hStep : step L s ev = some s') : ∀ a, (s'.ram a).length = L.sizeof := by
  have hEarly : ∀ {t : State} {i : Nat}, Early t s' i → t.ram = s.ram →
      ∀ a, (s'.ram a).length = L.sizeof := by
    rintro t i ⟨-, pc, rs, rfl, -, -⟩ hRam a
    exact (congrArg List.length (congrFun hRam a)).trans (hSized a)
  have hUpdate : ∀ {b : Nat} {bytes : Bytes}, bytes.length = L.sizeof →
      ∀ a, (Function.update s.ram b bytes a).length = L.sizeof := by
    intro b bytes hLen a
    by_cases ha : a = b
    · rw [ha, Function.update_self, hLen]
    · rw [Function.update_of_ne ha, hSized]
  cases ev with
  | check i nonblock => exact hEarly (step_check hStep) rfl
  | wake i => exact hEarly (step_wake hStep) rfl
  | signal i =>
    rcases step_signal hStep with hE | ⟨base, ticket, -, rfl⟩
    · exact hEarly hE rfl
    · exact hSized
  | prepare i base msg =>
    obtain ⟨nonblock, -, -, hLen, rfl⟩ := step_prepare hStep
    exact hUpdate hLen
  | fail i err => exact hEarly (step_fail hStep) rfl
  | send i =>
    obtain ⟨nonblock, base, -, ⟨-, rfl⟩ | ⟨-, lock, pc, -, -, -, rfl⟩⟩ := step_send hStep
    all_goals exact hSized
  | spun i =>
    obtain ⟨base, ticket, r, -, -, rfl⟩ := step_spun hStep
    exact hSized
  | host response =>
    obtain ⟨e, rest, sz, avail, -, hLen, -, rfl⟩ := step_host hStep
    exact hUpdate hLen
  | intr =>
    obtain rfl := Option.some.inj hStep
    exact hSized
  | wait i =>
    obtain ⟨base, ticket, -, pc, -, -, -, rfl⟩ := step_wait hStep
    exact hSized
  | fill i =>
    obtain ⟨base, ticket, -, rfl⟩ := step_fill hStep
    have hShort : (fillReadbuf s.port s.ivq L.sizeof).1.length ≤ L.sizeof := by
      rw [h.fill.1]
      cases hp : s.pending with
      | nil => exact Nat.zero_le _
      | cons buf rest => exact Nat.le_of_eq (h.pending_whole (by simp [hp]))
    refine hUpdate ?_
    rw [List.length_append, List.length_map, List.length_drop, hSized]
    omega
  | copy i ok =>
    obtain ⟨base, ticket, -, rfl⟩ := step_copy hStep
    exact hSized

end VirtioCrypto.Guest.Threads
