import VirtioCrypto.Guest.Ioctl

/-!
# Proxy — one request through the port

The stages of `port_fops_ioctl` from a port at rest, with the host's answer in
between. A call that gets as far as sending leaves one element in the out queue
(`Sent`); the host's turn on it is one call of `flush_buf`; what the driver does
until it reads is a sequence of looks for data, and looking twice is looking
once.

* `prepare_cases` — a call returns before it has sent anything, or its message
  is in place;
* `kick_sent` — the host handles the one request;
* `exchange_sent` — the driver gets to the read, unless a signal ends its sleep;
* `deliver_look` — the read takes the first buffer of the response.
-/

namespace VirtioCrypto.Proxy

open Octets Cryptodev Guest

variable {σ : Type} {dev : Host.DevCrypto σ} {L : Layout} {s : Sys σ} {nbuf base : Nat}

/-- A port open on both ends with `nbuf` pages posted and nothing to read. -/
structure Quiet (nbuf : Nat) (s : Sys σ) : Prop where
  host : Host.Connected s.host.st
  guestConnected : s.guest.guestConnected = true
  hostConnected : s.guest.hostConnected = true
  inbuf : s.guest.inbuf = none
  avail : s.host.st.ivq.avail = List.replicate nbuf PAGE_SIZE
  used : s.host.st.ivq.used = []
  outNum : s.host.outNum = 0
  notFull : s.guest.outvqFull = false

/-- A port at rest: no request is with the host. -/
structure Idle (nbuf : Nat) (s : Sys σ) : Prop extends Quiet nbuf s where
  sent : s.host.ovq.avail = []
  free : 2 ≤ s.guest.outFree + s.host.ovq.used.length

/-- The request at `base`, one segment of the size of the message. -/
def request (L : Layout) (base : Nat) : Elem := ⟨base, [(base, L.sizeof)]⟩

/-- One request is with the host. -/
structure Sent (L : Layout) (nbuf base : Nat) (s : Sys σ) : Prop extends Quiet nbuf s where
  sent : s.host.ovq.avail = [request L base]
  used_nil : s.host.ovq.used = []
  free : 1 ≤ s.guest.outFree

-- ---------------------------------------------------------------------------
-- Up to the kick
-- ---------------------------------------------------------------------------

/-- `reclaim_consumed_buffers` on the whole port. -/
def reclaim (s : Sys σ) : Sys σ := s.setOut (reclaimConsumedBuffers s.guest s.host.ovq)

theorem Idle.reclaim (h : Idle nbuf s) : Idle nbuf (reclaim s) where
  toQuiet := ⟨h.host, h.guestConnected, h.hostConnected, h.inbuf, h.avail, h.used, h.outNum, by
    show (s.guest.outvqFull && s.host.ovq.used.isEmpty) = false
    rw [h.notFull, Bool.false_and]⟩
  sent := h.sent
  free := h.free

theorem Idle.setMem (h : Idle nbuf s) (mem : Space) : Idle nbuf (s.setMem mem) where
  toQuiet := ⟨⟨h.host.chr, h.host.host, h.host.guest, h.host.unthrottled, h.host.ready,
    h.host.crInfo⟩, h.guestConnected, h.hostConnected, h.inbuf, h.avail, h.used, h.outNum,
    h.notFull⟩
  sent := h.sent
  free := h.free

theorem Idle.withUser (h : Idle nbuf s) (user : Space) : Idle nbuf { s with user := user } where
  toQuiet := ⟨h.host, h.guestConnected, h.hostConnected, h.inbuf, h.avail, h.used, h.outNum,
    h.notFull⟩
  sent := h.sent
  free := h.free

/-- There is room in the out queue of a port at rest. -/
theorem waitWritable_idle (h : Idle nbuf s) (env : Env) :
    waitWritable dev L s env = (reclaim s, .ok ()) := by
  have hFull : (reclaimConsumedBuffers s.guest s.host.ovq).1.outvqFull = false := h.reclaim.notFull
  unfold waitWritable willWriteBlock
  simp only [h.guestConnected, h.hostConnected, Bool.not_true, Bool.false_eq_true, if_false, hFull,
    Bool.not_false, if_true]
  rfl

/-- A call whose copies succeed has its message in guest memory. -/
theorem prepare_of_copyIn (dev : Host.DevCrypto σ) (h : Idle nbuf s) {call : Call} {c : Cmd} {mem : Space}
    (hAlloc : call.env.kmalloc = some base) (hCmd : Cmd.ofWord call.cmd = some c)
    (hCopy : copyIn L s.user (allocate L s.mem base call.env.fresh call.cmd) base call.arg c =
      some mem) :
    prepare dev L s call = ((reclaim s).setMem mem, .ok (c, base)) := by
  unfold prepare
  rw [waitWritable_idle h]
  have hOpen : (!(reclaim s).guest.guestConnected) = false := by
    rw [h.reclaim.guestConnected]
    rfl
  rw [← show (reclaim s).user = s.user from rfl, ← show (reclaim s).mem = s.mem from rfl] at hCopy
  simp only [hOpen, Bool.false_eq_true, if_false, hAlloc, hCmd, hCopy]

/-- A call from a port at rest returns before it has sent anything, or has its
message in guest memory. -/
theorem prepare_cases (dev : Host.DevCrypto σ) (L : Layout) (h : Idle nbuf s) (call : Call) :
    (∃ r, prepare dev L s call = (reclaim s, .error (.returns r))) ∨
      ∃ base c mem, prepare dev L s call = ((reclaim s).setMem mem, .ok (c, base)) := by
  have hOpen : (!(reclaim s).guest.guestConnected) = false := by
    rw [h.reclaim.guestConnected]
    rfl
  cases hAlloc : call.env.kmalloc with
  | none =>
    refine Or.inl ⟨-ENOMEM, ?_⟩
    simp only [prepare, waitWritable_idle h, hOpen, Bool.false_eq_true, if_false, hAlloc]
  | some base =>
    cases hCmd : Cmd.ofWord call.cmd with
    | none =>
      refine Or.inl ⟨-Host.EINVAL, ?_⟩
      simp only [prepare, waitWritable_idle h, hOpen, Bool.false_eq_true, if_false, hAlloc, hCmd]
    | some c =>
      cases hCopy : copyIn L s.user (allocate L s.mem base call.env.fresh call.cmd) base
          call.arg c with
      | none =>
        refine Or.inl ⟨-EFAULT, ?_⟩
        rw [← show (reclaim s).user = s.user from rfl, ← show (reclaim s).mem = s.mem from rfl]
          at hCopy
        simp only [prepare, waitWritable_idle h, hOpen, Bool.false_eq_true, if_false, hAlloc, hCmd,
          hCopy]
      | some mem => exact Or.inr ⟨base, c, mem, prepare_of_copyIn dev h hAlloc hCmd hCopy⟩

/-- `send_buf` from a port at rest queues the request. -/
theorem queue_idle (h : Idle nbuf s) (base : Nat) :
    (queue L s base).1 = true ∧ Sent L nbuf base (queue L s base).2 := by
  have hFull : (reclaimConsumedBuffers s.guest s.host.ovq).1.outvqFull = false := h.reclaim.notFull
  have hFree := h.free
  have hRoom : ¬ (reclaimConsumedBuffers s.guest s.host.ovq).1.outFree = 0 := by
    show ¬ s.guest.outFree + s.host.ovq.used.length = 0
    omega
  have hSend : sendBuf s.guest s.host.ovq (request L base) =
      (true, { (reclaimConsumedBuffers s.guest s.host.ovq).1 with
          outFree := (reclaimConsumedBuffers s.guest s.host.ovq).1.outFree - 1,
          outvqFull := (reclaimConsumedBuffers s.guest s.host.ovq).1.outvqFull ||
            (reclaimConsumedBuffers s.guest s.host.ovq).1.outFree - 1 == 0 },
        { s.host.ovq with avail := s.host.ovq.avail ++ [request L base], used := [] }) := by
    unfold sendBuf
    simp only [hRoom, if_false]
    rfl
  unfold queue
  rw [show (⟨base, [(base, L.sizeof)]⟩ : Elem) = request L base from rfl, hSend]
  refine ⟨rfl, ⟨h.host, h.guestConnected, h.hostConnected, h.inbuf, h.avail, h.used, h.outNum, ?_⟩,
    ?_, rfl, ?_⟩
  · show ((reclaimConsumedBuffers s.guest s.host.ovq).1.outvqFull ||
      s.guest.outFree + s.host.ovq.used.length - 1 == 0) = false
    rw [hFull]
    simp
    omega
  · show s.host.ovq.avail ++ [request L base] = [request L base]
    rw [h.sent, List.nil_append]
  · show 1 ≤ s.guest.outFree + s.host.ovq.used.length - 1
    omega

-- ---------------------------------------------------------------------------
-- The host's turn
-- ---------------------------------------------------------------------------

/-- The port after the host's turn on the request at `base` left it in `st`. -/
def pushed (L : Layout) (base : Nat) (s : Sys σ) (st : Host.Port σ) : Sys σ :=
  { s with host := { st := st, ovq := { s.host.ovq with avail := [], used := [request L base] },
                     elem := request L base, outNum := 0, iovIdx := 0, iovOffset := 0 } }

/-- The host handles the request with one call of `flush_buf` and finds no other. -/
theorem kick_sent (h : Sent L nbuf base s) {st : Host.Port σ}
    (hCall : Host.flushBuf dev L s.host.st base L.sizeof = (st, .ok 0))
    (hSt : Host.Connected st) : kick dev L s = some (pushed L base s st) := by
  have hTurn := Host.flushLoop_request h.outNum h.sent rfl h.host.unthrottled hCall
    ⟨by decide, by decide⟩ hSt.unthrottled
  have hEmpty : ∀ fuel (p : Host.Flush (Host.Port σ)), p.outNum = 0 → p.ovq.avail = [] →
      Host.flushLoop (Host.flushBuf dev L) Host.Port.throttled fuel p = (p, none) := by
    intro fuel p hIdle hNone
    cases fuel with
    | zero => rfl
    | succ fuel =>
      rw [Host.flushLoop]
      simp only [Host.Flush.pop, hIdle, hNone, ne_eq, not_true, if_false]
      split <;> rfl
  have hLoop : Host.handleOutput dev L s.host = ((pushed L base s st).host, none) := by
    rw [Host.handleOutput, if_pos h.host.host, Host.flushPort, Host.doFlushQueuedData,
      Host.flushLoop_succ, hTurn]
    simp only
    rw [hEmpty _ _ rfl rfl]
    simp [pushed, h.used_nil]
  unfold kick
  rw [hLoop]
  rfl

-- ---------------------------------------------------------------------------
-- Up to the read
-- ---------------------------------------------------------------------------

/-- The port once the driver has looked for data. -/
def look (s : Sys σ) : Sys σ := s.setIn (portHasData s.guest s.host.st.ivq).2

theorem look_look (s : Sys σ) : look (look s) = look s := by
  show (look s).setIn (portHasData (portHasData s.guest s.host.st.ivq).2.1
    (portHasData s.guest s.host.st.ivq).2.2).2 = look s
  rw [portHasData_idem]
  rfl

/-- Looking for data where there is none changes nothing. -/
theorem look_quiet (h : Quiet nbuf s) : look s = s := by
  unfold look
  rw [portHasData_nil h.inbuf h.used]
  rfl

theorem interrupt_eq (hOpen : s.guest.guestConnected = true) (env : Env) :
    interrupt s env = s ∨ interrupt s env = look s := by
  unfold interrupt
  by_cases hIntr : env.intr = true
  · refine Or.inr ?_
    have hOpen' : (portHasData s.guest s.host.st.ivq).2.1.guestConnected = true := by
      unfold portHasData getInbuf
      cases s.guest.inbuf with
      | some buf => exact hOpen
      | none => cases s.host.st.ivq.used <;> exact hOpen
    rw [if_pos hIntr, inIntr]
    simp only [hOpen', if_true]
    rfl
  · exact Or.inl (if_neg hIntr)

/-- There is data: a buffer is cached, or one is used. -/
def HasData (s : Sys σ) : Prop := (portHasData s.guest s.host.st.ivq).1 = true

theorem HasData.look (h : HasData s) : HasData (look s) := by
  show (portHasData (portHasData s.guest s.host.st.ivq).2.1
    (portHasData s.guest s.host.st.ivq).2.2).1 = true
  rw [portHasData_idem]
  exact h

theorem look_interrupt (hOpen : s.guest.guestConnected = true) (env : Env) :
    look (interrupt s env) = look s := by
  rcases interrupt_eq hOpen env with h | h
  · rw [h]
  · rw [h, look_look]

theorem HasData.interrupt (h : HasData s) (hOpen : s.guest.guestConnected = true) (env : Env) :
    HasData (interrupt s env) := by
  rcases interrupt_eq hOpen env with h' | h'
  · rw [h']
    exact h
  · rw [h']
    exact h.look

/-- With data there is no sleep. -/
theorem waitReadable_data (h : HasData s) (env : Env) :
    waitReadable dev L s env = (look s, .ok ()) := by
  unfold waitReadable
  simp only [show (portHasData s.guest s.host.st.ivq).1 = true from h, if_true]
  rfl

/-- The port when the driver gets to the read: a blocking call has taken the
element back. -/
def handled (L : Layout) (base : Nat) (nonblock : Bool) (s : Sys σ) (st : Host.Port σ) : Sys σ :=
  if nonblock then pushed L base s st
  else (pushed L base s st).setOut ({ s.guest with outFree := s.guest.outFree + 1 },
    { s.host.ovq with avail := [], used := [] })

theorem handled_st (b : Bool) (st : Host.Port σ) : (handled L base b s st).host.st = st := by
  cases b <;> rfl

theorem handled_inbuf (b : Bool) (st : Host.Port σ) :
    (handled L base b s st).guest.inbuf = s.guest.inbuf := by
  cases b <;> rfl

theorem handled_user (b : Bool) (st : Host.Port σ) : (handled L base b s st).user = s.user := by
  cases b <;> rfl

theorem look_guestConnected (s : Sys σ) : (look s).guest.guestConnected = s.guest.guestConnected := by
  unfold look Sys.setIn portHasData getInbuf
  cases s.guest.inbuf with
  | some buf => rfl
  | none => cases s.host.st.ivq.used <;> rfl

/-- From a sleep that ends with data the driver goes on to the read. -/
theorem exchange_of_wait {x y : Sys σ} {queued : Bool} {env : Env}
    (hSpin : spinOut dev L s queued env = some x)
    (hWait : waitReadable dev L (interrupt x env) env = (look y, .ok ()))
    (hData : HasData y) (hOpen : y.guest.guestConnected = true) :
    exchange dev L s queued env = (look y, .ok ()) := by
  unfold exchange
  rw [hSpin]
  simp only
  rw [hWait]
  have hOpen' : (!(look y).guest.guestConnected) = false := by
    rw [look_guestConnected, hOpen]
    rfl
  have hAgain : (portHasData (look y).guest (look y).host.st.ivq).1 = true := hData.look
  simp only [hOpen', Bool.false_eq_true, if_false, hAgain, Bool.not_true, Bool.false_and]
  exact congrArg (·, Except.ok ()) (look_look y)

/-- A signal ends the sleep of a call that left the host to its own pace. -/
def Interrupted (env : Env) : Prop :=
  env.nonblock = true ∧ env.prompt = false ∧ env.signal = true

instance (env : Env) : Decidable (Interrupted env) :=
  inferInstanceAs (Decidable (_ ∧ _ ∧ _))

section Exchange

variable {st : Host.Port σ} {env : Env} (h : Sent L nbuf base s)

theorem interrupt_quiet (h : Quiet nbuf s) (env : Env) : interrupt s env = s := by
  rcases interrupt_eq h.guestConnected env with hInt | hInt
  · exact hInt
  · rw [hInt, look_quiet h]

include h

/-- The element the host pushed is there for the spin. -/
theorem spinOut_sent (hCall : Host.flushBuf dev L s.host.st base L.sizeof = (st, .ok 0))
    (hSt : Host.Connected st) (hNow : env.nonblock = false ∨ env.prompt = true) :
    spinOut dev L s true env = some (handled L base env.nonblock s st) := by
  have hKick := kick_sent h hCall hSt
  unfold spinOut handled
  cases hBlock : env.nonblock with
  | false =>
    simp only [Bool.not_false, Bool.true_and, if_true, hKick, Option.bind_some]
    rfl
  | true =>
    have hPrompt : env.prompt = true := by
      rcases hNow with hNow | hNow
      · rw [hBlock] at hNow
        exact absurd hNow (by decide)
      · exact hNow
    simp only [Bool.not_true, Bool.and_false, Bool.false_eq_true, if_false, hPrompt, if_true, hKick]

/-- The driver gets to the read of the response, unless a signal ends its sleep. -/
theorem exchange_sent (hCall : Host.flushBuf dev L s.host.st base L.sizeof = (st, .ok 0))
    (hSt : Host.Connected st) (hUsed : st.ivq.used ≠ []) :
    exchange dev L s true env =
      if Interrupted env then (s, .error (.returns (-ERESTARTSYS)))
      else (look (handled L base env.nonblock s st), .ok ()) := by
  have hData : HasData (handled L base env.nonblock s st) := by
    obtain ⟨buf, rest, hCons⟩ := List.exists_cons_of_ne_nil hUsed
    unfold HasData
    rw [portHasData_cons ((handled_inbuf _ _).trans h.inbuf) (by rw [handled_st, hCons])]
  have hOpen : (handled L base env.nonblock s st).guest.guestConnected = true := by
    unfold handled
    cases env.nonblock <;> exact h.guestConnected
  by_cases hNow : env.nonblock = false ∨ env.prompt = true
  · have hNot : ¬ Interrupted env := by
      rintro ⟨hBlock, hPrompt, -⟩
      rw [hBlock, hPrompt] at hNow
      simp at hNow
    rw [if_neg hNot]
    refine exchange_of_wait (spinOut_sent h hCall hSt hNow) ?_ hData hOpen
    rw [waitReadable_data (hData.interrupt hOpen env), look_interrupt hOpen]
  · -- the host has not come round to the request when the driver looks
    push Not at hNow
    have hBlock : env.nonblock = true := by simpa using hNow.1
    have hPrompt : env.prompt = false := by simpa using hNow.2
    have hSpin : spinOut dev L s true env = some s := by
      simp [spinOut, hBlock, hPrompt]
    have hNil : portHasData s.guest s.host.st.ivq = (false, s.guest, s.host.st.ivq) :=
      portHasData_nil h.inbuf h.used
    have hWait : waitReadable dev L s env =
        if env.signal then (s, .error (.returns (-ERESTARTSYS)))
        else (look (pushed L base s st), .ok ()) := by
      unfold waitReadable
      rw [hNil]
      simp only [Bool.false_eq_true, if_false, show s.setIn (s.guest, s.host.st.ivq) = s from rfl,
        h.hostConnected, Bool.not_true, kick_sent h hCall hSt]
      have hBlocks : willReadBlock (pushed L base s st).guest (pushed L base s st).host.st.ivq =
          (false, (portHasData (pushed L base s st).guest (pushed L base s st).host.st.ivq).2) := by
        rw [hBlock] at hData
        have hSome : (portHasData (pushed L base s st).guest
          (pushed L base s st).host.st.ivq).1 = true := hData
        unfold willReadBlock
        simp only [show (pushed L base s st).guest.guestConnected = true from h.guestConnected,
          Bool.not_true, Bool.false_eq_true, if_false, hSome, Bool.false_and]
      rw [hBlocks]
      rfl
    rw [show handled L base env.nonblock s st = pushed L base s st by rw [handled, hBlock]; rfl]
      at hData hOpen ⊢
    rcases hSig : env.signal with _ | _
    · rw [hSig] at hWait
      rw [if_neg (by simp [Interrupted, hSig])]
      refine exchange_of_wait hSpin ?_ hData hOpen
      rw [interrupt_quiet h.toQuiet]
      exact hWait
    · rw [hSig] at hWait
      rw [if_pos ⟨hBlock, hPrompt, hSig⟩]
      unfold exchange
      rw [hSpin]
      simp only
      rw [interrupt_quiet h.toQuiet, hWait]
      rfl

end Exchange

-- ---------------------------------------------------------------------------
-- The read
-- ---------------------------------------------------------------------------

/-- The one `fill_readbuf` of a call takes the first buffer of the response, and
posts it again. -/
theorem deliver_look {st : Host.Port σ} (base : Nat) (hFresh : s.guest.inbuf = none) (b : Bool)
    {buf : PortBuffer UInt8} {rest : List (PortBuffer UInt8)} (hUsed : st.ivq.used = buf :: rest)
    (hFit : buf.data.length ≤ L.sizeof) :
    received L (look (handled L base b s st)) = buf.data ∧
      deliver L (look (handled L base b s st)) base =
        ((handled L base b s st).setIn ((handled L base b s st).guest,
          { st.ivq with avail := st.ivq.avail ++ [buf.size], used := rest })).setMem
            (st.mem.space.put base buf.data) := by
  have hSize : L.sizeof ≠ 0 := by
    have := L.cmdOff_bounds
    omega
  have hRead : fillReadbuf (look (handled L base b s st)).guest
      (look (handled L base b s st)).host.st.ivq L.sizeof =
        (buf.data, (handled L base b s st).guest,
          { st.ivq with avail := st.ivq.avail ++ [buf.size], used := rest }) := by
    refine (fillReadbuf_portHasData _ _ _ hSize).trans ?_
    rw [handled_st]
    exact fillReadbuf_fresh ((handled_inbuf _ _).trans hFresh) hUsed hSize hFit
  refine ⟨by rw [received, hRead], ?_⟩
  unfold deliver received
  rw [hRead]
  cases b <;> rfl

theorem copyToUser_user (s : Sys σ) (a : Nat) (bs : Bytes) :
    ∃ user ok, copyToUser s a bs = ({ s with user := user }, ok) := by
  unfold copyToUser
  cases s.user.store a bs with
  | none => exact ⟨s.user, false, rfl⟩
  | some user => exact ⟨user, true, rfl⟩

/-- The copies to the caller change its memory and nothing else. -/
theorem copyOut_user (s : Sys σ) (base arg : Nat) (c : Cmd) :
    ∃ user, (copyOut L s base arg c).1 = { s with user := user } := by
  cases c with
  | CIOCGSESSION =>
    unfold copyOut
    cases s.mem.load base OP_SIZE with
    | none => exact ⟨s.user, rfl⟩
    | some op =>
      obtain ⟨user, ok, hCopy⟩ := copyToUser_user s arg op
      simp only [hCopy]
      cases ok <;> exact ⟨user, rfl⟩
  | CIOCCRYPT =>
    unfold copyOut
    cases s.mem.load base OP_SIZE with
    | none => exact ⟨s.user, rfl⟩
    | some op =>
      obtain ⟨user, ok, hCopy⟩ := copyToUser_user s arg op
      simp only [hCopy]
      cases ok with
      | false => exact ⟨user, rfl⟩
      | true =>
        simp only
        cases (Sys.mem { s with user := user }).load (base + L.dstpOff) (u32 op 8) with
        | none => exact ⟨user, rfl⟩
        | some dst =>
          obtain ⟨user', ok', hCopy'⟩ := copyToUser_user { s with user := user } (u64 op 24) dst
          simp only [hCopy']
          cases ok' <;> exact ⟨user', rfl⟩
  | CIOCFSESSION =>
    unfold copyOut
    cases s.mem.load base 4 with
    | none => exact ⟨s.user, rfl⟩
    | some sid =>
      obtain ⟨user, ok, hCopy⟩ := copyToUser_user s arg sid
      simp only [hCopy]
      cases ok <;> exact ⟨user, rfl⟩

theorem copyToUser_ok {a : Nat} {bs : Bytes} {user : Space} (h : s.user.store a bs = some user) :
    copyToUser s a bs = ({ s with user := user }, true) := by
  unfold copyToUser
  rw [h]

theorem copyOut_gsession {arg : Nat} {op : Bytes} {user : Space}
    (hOp : s.mem.load base OP_SIZE = some op) (hStore : s.user.store arg op = some user) :
    copyOut L s base arg .CIOCGSESSION = ({ s with user := user }, .returns 0) := by
  unfold copyOut
  rw [hOp]
  simp only [copyToUser_ok hStore]

theorem copyOut_crypt {arg : Nat} {op dst : Bytes} {user user' : Space}
    (hOp : s.mem.load base OP_SIZE = some op) (hStore : s.user.store arg op = some user)
    (hDst : s.mem.load (base + L.dstpOff) (u32 op 8) = some dst)
    (hStore' : user.store (u64 op 24) dst = some user') :
    copyOut L s base arg .CIOCCRYPT = ({ s with user := user' }, .returns 0) := by
  have hDst' : (Sys.mem { s with user := user }).load (base + L.dstpOff) (u32 op 8) = some dst := hDst
  have hCopy' : copyToUser { s with user := user } (u64 op 24) dst =
      ({ s with user := user' }, true) := copyToUser_ok hStore'
  unfold copyOut
  rw [hOp]
  simp only [copyToUser_ok hStore, hDst', hCopy']

theorem copyOut_fsession {arg : Nat} {sid : Bytes} {user : Space}
    (hSid : s.mem.load base 4 = some sid) (hStore : s.user.store arg sid = some user) :
    copyOut L s base arg .CIOCFSESSION = ({ s with user := user }, .returns 0) := by
  unfold copyOut
  rw [hSid]
  simp only [copyToUser_ok hStore]

-- ---------------------------------------------------------------------------
-- The whole call
-- ---------------------------------------------------------------------------

section Whole

variable {call : Call} {s₁ : Sys σ} {c : Cmd} {st : Host.Port σ}

/-- A call that has its message in place goes through the port once. -/
theorem portFopsIoctl_sent (h : Idle nbuf s₁)
    (hPrep : prepare dev L { s with user := call.prep s.user } call = (s₁, .ok (c, base)))
    (hCall : Host.flushBuf dev L s₁.host.st base L.sizeof = (st, .ok 0))
    (hSt : Host.Connected st) (hUsed : st.ivq.used ≠ []) :
    portFopsIoctl dev L s call =
      if Interrupted call.env then ((queue L s₁ base).2, .returns (-ERESTARTSYS))
      else copyOut L (deliver L (look (handled L base call.env.nonblock (queue L s₁ base).2 st)) base)
        base call.arg c := by
  obtain ⟨hQueued, hSent⟩ := queue_idle (L := L) h base
  unfold portFopsIoctl
  rw [hPrep]
  simp only
  rw [hQueued, exchange_sent hSent hCall hSt hUsed]
  by_cases hInt : Interrupted call.env
  · rw [if_pos hInt, if_pos hInt]
  · rw [if_neg hInt, if_neg hInt]

/-- A response that filled one buffer leaves the port at rest. -/
theorem idle_deliver (h : Sent L nbuf base s) (hSt : Host.Connected st) (b : Bool)
    {buf : PortBuffer UInt8} (hUsed : st.ivq.used = [buf]) (hFit : buf.data.length ≤ L.sizeof)
    (hAvail : st.ivq.avail ++ [buf.size] = List.replicate nbuf PAGE_SIZE) :
    Idle nbuf (deliver L (look (handled L base b s st)) base) := by
  have hFree := h.free
  rw [(deliver_look base h.inbuf b hUsed hFit).2]
  cases b with
  | false =>
    refine ⟨⟨⟨hSt.chr, hSt.host, hSt.guest, hSt.unthrottled, hSt.ready, hSt.crInfo⟩,
      h.guestConnected, h.hostConnected, h.inbuf, hAvail, rfl, rfl, h.notFull⟩, rfl, ?_⟩
    show 2 ≤ s.guest.outFree + 1 + 0
    omega
  | true =>
    refine ⟨⟨⟨hSt.chr, hSt.host, hSt.guest, hSt.unthrottled, hSt.ready, hSt.crInfo⟩,
      h.guestConnected, h.hostConnected, h.inbuf, hAvail, rfl, rfl, h.notFull⟩, rfl, ?_⟩
    show 2 ≤ s.guest.outFree + 1
    omega

end Whole

end VirtioCrypto.Proxy
