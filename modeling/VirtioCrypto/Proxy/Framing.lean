import VirtioCrypto.Proxy.Message

/-!
# Proxy — response framing

`write_to_port` spreads a response over as many posted pages as it needs, and an
ioctl reads one page (`fill_readbuf` is called once). The two agree when the
message fits a page, or when there is only one page to write to and the rest of
the message is dropped.

* `portFopsIoctl_framed_iff` — one call from a port at rest;
* `framed_iff` — a sequence of calls of any length: every call that returns has
  left nothing unread, and has read its own response, exactly when every call
  that sent a request fitted, and was not interrupted before the host had
  handled it.
-/

namespace VirtioCrypto.Proxy

open Octets Cryptodev Guest

variable {σ : Type} (dev : Host.DevCrypto σ) (L : Layout) (s : Sys σ) (call : Call)

-- ---------------------------------------------------------------------------
-- The property and its condition
-- ---------------------------------------------------------------------------

/-- The state a call starts from: the process has been at work on its memory. -/
def entered : Sys σ := { s with user := call.prep s.user }

def Returns : Prop := ∃ r, (portFopsIoctl dev L s call).2 = .returns r

/-- The call gets as far as queueing its request. -/
def Sends : Prop := ∃ s₁ c base, prepare dev L (entered s call) call = (s₁, .ok (c, base))

/-- The host operation of a call succeeds: the request it queues is one the host
knows, and the ioctl for it returns 0. -/
def HostOk : Prop :=
  ∀ s₁ c base, prepare dev L (entered s call) call = (s₁, .ok (c, base)) →
    (∃ e base' c', Host.NextRequest L (queue L s₁ base).2.host e base' c') ∧
      Host.Succeeds dev L (queue L s₁ base).2.host

/-- No byte is left unread and none is still to come: nothing is cached, no
buffer of the in queue is used, and no request is with the host. -/
def Drained : Prop :=
  s.guest.inbuf = none ∧ s.host.st.ivq.used = [] ∧ s.host.ovq.avail = []

/-- What the call reads starts the response to its own request, which is the
message as the host left it. -/
def ReadsOwn : Prop :=
  ∀ s₁ c base s₂, prepare dev L (entered s call) call = (s₁, .ok (c, base)) →
    exchange dev L (queue L s₁ base).2 (queue L s₁ base).1 call.env = (s₂, .ok ()) →
    ∃ data, s₂.mem.load base L.sizeof = some data ∧ received L s₂ ≠ [] ∧ received L s₂ <+: data

/-- When the call returns, its response has been read, and was its own. -/
def Framed : Prop :=
  Returns dev L s call → Drained (portFopsIoctl dev L s call).1 ∧ ReadsOwn dev L s call

/-- One page takes the response, and the call waits for it. -/
def OnePage (nbuf : Nat) : Prop :=
  Returns dev L s call → Sends dev L s call →
    (L.sizeof ≤ PAGE_SIZE ∨ nbuf = 1) ∧ ¬ Interrupted call.env

variable {dev L s call} {nbuf : Nat}

-- ---------------------------------------------------------------------------
-- One call
-- ---------------------------------------------------------------------------

theorem Idle.entered (h : Idle nbuf s) (call : Call) : Idle nbuf (entered s call) := h.withUser _

theorem Idle.drained (h : Idle nbuf s) : Drained s := ⟨h.inbuf, h.used, h.sent⟩

theorem drained_withUser (user : Space) : Drained { s with user := user } ↔ Drained s := Iff.rfl

/-- The host operation of a call succeeds when the ioctl for its message does. -/
theorem hostOk_of_outcome (h : Idle nbuf s) {s₁ : Sys σ} {c c' : Cmd} {base : Nat} {d : Bytes}
    (hPrep : prepare dev L (entered s call) call = (s₁, .ok (c, base)))
    (hLoad : s₁.mem.load base L.sizeof = some d) (hCmd : Cmd.ofWord (u32 d L.cmdOff) = some c')
    (hOut : Host.outcome dev L (Host.cmdRead L s₁.host.st base) base c' = some (.ok ())) :
    HostOk dev L s call := by
  have hRest : Idle nbuf s₁ := by
    rcases prepare_cases dev L (h.entered call) call with ⟨r, hErr⟩ | ⟨base, c, mem, hMem⟩
    · rw [hErr] at hPrep
      simp at hPrep
    · rw [hMem, Prod.mk.injEq] at hPrep
      rw [← hPrep.1]
      exact (h.entered call).reclaim.setMem mem
  intro s₁' c₁ base' hPrep'
  rw [hPrep] at hPrep'
  obtain ⟨rfl, rfl, rfl⟩ : s₁' = s₁ ∧ c₁ = c ∧ base' = base := by
    simpa [eq_comm] using hPrep'
  have hSent := (queue_idle (L := L) hRest base').2
  have hNext : Host.NextRequest L (queue L s₁' base').2.host (request L base') base' c' :=
    ⟨hSent.outNum, ⟨[], hSent.sent⟩, rfl, d, hLoad, hCmd⟩
  refine ⟨⟨_, _, _, hNext⟩, ?_⟩
  intro e base c hReq
  obtain ⟨-, rfl, rfl⟩ := hNext.unique hReq
  exact hOut

/-- The same, for a call that can be evaluated. -/
theorem hostOk_of_eval (h : Idle nbuf s) (c : Cmd) (base : Nat)
    (hEval : (prepare dev L (entered s call) call).2 = .ok (c, base) ∧
      ((prepare dev L (entered s call) call).1.mem.load base L.sizeof).map
        (fun d => Cmd.ofWord (u32 d L.cmdOff)) = some (some c) ∧
      Host.outcome dev L (Host.cmdRead L (prepare dev L (entered s call) call).1.host.st base)
        base c = some (.ok ())) : HostOk dev L s call := by
  obtain ⟨hPrep, hCmd, hOut⟩ := hEval
  obtain ⟨d, hLoad, hWord⟩ := Option.map_eq_some_iff.mp hCmd
  exact hostOk_of_outcome h (Prod.ext rfl hPrep) hLoad hWord hOut

/-- The host's answer to a request it knows: the message as it stands, spread
over the posted pages. -/
theorem answer_pages (hDev : dev.KeepsMapped) {base k : Nat} (h : Sent L (k + 1) base s)
    (hReq : ∃ e base' c', Host.NextRequest L s.host e base' c')
    (hOk : Host.Succeeds dev L s.host) :
    ∃ st bs, Host.flushBuf dev L s.host.st base L.sizeof = (st, .ok 0) ∧ Host.Connected st ∧
      st.mem.space.load base L.sizeof = some bs ∧
      st.ivq.avail = (fillAvail (List.replicate k PAGE_SIZE) (bs.drop PAGE_SIZE)).2.1 ∧
      st.ivq.used = ⟨PAGE_SIZE, bs.take PAGE_SIZE, 0⟩ ::
        (fillAvail (List.replicate k PAGE_SIZE) (bs.drop PAGE_SIZE)).1 := by
  obtain ⟨e, base', c, hNext⟩ := hReq
  obtain ⟨rest, hHead⟩ := hNext.head
  rw [h.sent, List.cons.injEq] at hHead
  have hBase : base' = base := by
    have hSg := hNext.sg
    rw [← hHead.1] at hSg
    simpa [request] using hSg.symm
  subst hBase
  obtain ⟨data, hLoad, hCmd⟩ := hNext.message
  obtain ⟨st, bs, hCall, hSt, hLoad', hIvq⟩ :=
    Host.flushBuf_answers hDev h.host hLoad hCmd (hOk e base' c hNext)
  have hNe : bs ≠ [] := by
    have hLen := Space.length_of_load hLoad'
    have hPos := L.cmdOff_bounds
    rintro rfl
    simp at hLen
    omega
  rw [writeToPort_cons h.host.ready h.avail hNe, h.used] at hIvq
  exact ⟨st, bs, hCall, hSt, hLoad', by rw [hIvq], by rw [hIvq]; rfl⟩

/-- All of a response is in its first page exactly when it fits, or there is no
other page. -/
theorem pages_eq_nil_iff {bs : Bytes} {n k : Nat} (hLen : bs.length = n) :
    (fillAvail (List.replicate k PAGE_SIZE) (bs.drop PAGE_SIZE)).1 = [] ↔
      n ≤ PAGE_SIZE ∨ k + 1 = 1 := by
  rw [fillAvail_eq_nil_iff, List.replicate_eq_nil_iff, List.drop_eq_nil_iff, hLen, or_comm]
  simp

/-- A call that sent nothing leaves the port at rest. -/
theorem portFopsIoctl_unsent (h : Idle nbuf s) {r : Int}
    (hPrep : prepare dev L (entered s call) call = (reclaim (entered s call), .error (.returns r))) :
    Idle nbuf (portFopsIoctl dev L s call).1 ∧ Framed dev L s call ∧ OnePage dev L s call nbuf := by
  have hCall : portFopsIoctl dev L s call = (reclaim (entered s call), .returns r) := by
    unfold portFopsIoctl
    rw [show ({ s with user := call.prep s.user } : Sys σ) = entered s call from rfl, hPrep]
  have hIdle : Idle nbuf (portFopsIoctl dev L s call).1 := by
    rw [hCall]
    exact (h.entered call).reclaim
  refine ⟨hIdle, ?_, ?_⟩
  · intro _
    refine ⟨hIdle.drained, ?_⟩
    intro s₁ c base s₂ hOk
    rw [hPrep] at hOk
    simp at hOk
  · rintro _ ⟨s₁, c, base, hOk⟩
    rw [hPrep] at hOk
    simp at hOk

section Sent

variable {s₁ : Sys σ} {c : Cmd} {base k : Nat} (h : Idle (k + 1) s₁)
  (hPrep : prepare dev L (entered s call) call = (s₁, .ok (c, base)))

include h hPrep

/-- A call whose sleep a signal ended leaves its request with the host. -/
theorem portFopsIoctl_interrupted {st : Host.Port σ}
    (hCall : Host.flushBuf dev L s₁.host.st base L.sizeof = (st, .ok 0)) (hSt : Host.Connected st)
    (hUsed : st.ivq.used ≠ []) (hInt : Interrupted call.env) :
    ¬ Framed dev L s call ∧ ¬ OnePage dev L s call (k + 1) := by
  have hIoctl := portFopsIoctl_sent h hPrep hCall hSt hUsed
  rw [if_pos hInt] at hIoctl
  have hRet : Returns dev L s call := ⟨_, by rw [hIoctl]⟩
  refine ⟨?_, ?_⟩
  · intro hFramed
    obtain ⟨⟨-, -, hNone⟩, -⟩ := hFramed hRet
    rw [hIoctl, (queue_idle (L := L) h base).2.sent] at hNone
    simp at hNone
  · intro hPage
    exact (hPage hRet ⟨_, _, _, hPrep⟩).2 hInt

/-- A call that waited for its response reads the first page of it. -/
theorem portFopsIoctl_waited {st : Host.Port σ} {bs : Bytes}
    (hCall : Host.flushBuf dev L s₁.host.st base L.sizeof = (st, .ok 0)) (hSt : Host.Connected st)
    (hLoad : st.mem.space.load base L.sizeof = some bs)
    (hAvail : st.ivq.avail = (fillAvail (List.replicate k PAGE_SIZE) (bs.drop PAGE_SIZE)).2.1)
    (hUsed : st.ivq.used = ⟨PAGE_SIZE, bs.take PAGE_SIZE, 0⟩ ::
      (fillAvail (List.replicate k PAGE_SIZE) (bs.drop PAGE_SIZE)).1)
    (hInt : ¬ Interrupted call.env) :
    ReadsOwn dev L s call ∧
      (Drained (portFopsIoctl dev L s call).1 ↔ L.sizeof ≤ PAGE_SIZE ∨ k + 1 = 1) ∧
      (L.sizeof ≤ PAGE_SIZE ∨ k + 1 = 1 → Idle (k + 1) (portFopsIoctl dev L s call).1) := by
  have hLen := Space.length_of_load hLoad
  have hFit : (bs.take PAGE_SIZE).length ≤ L.sizeof := by
    rw [List.length_take, hLen]
    exact Nat.min_le_right _ _
  have hUsed' : st.ivq.used ≠ [] := by
    rw [hUsed]
    exact List.cons_ne_nil _ _
  obtain ⟨hQueued, hSent⟩ := queue_idle (L := L) h base
  have hIoctl := portFopsIoctl_sent h hPrep hCall hSt hUsed'
  obtain ⟨user, hOut⟩ := copyOut_user (L := L)
    (deliver L (look (handled L base call.env.nonblock (queue L s₁ base).2 st)) base) base call.arg c
  rw [if_neg hInt] at hIoctl
  rw [hIoctl, hOut, drained_withUser]
  obtain ⟨hRead, hDeliver⟩ := deliver_look base hSent.inbuf call.env.nonblock hUsed hFit
  refine ⟨?_, ?_, ?_⟩
  · intro s₁' c' base' s₂ hPrep' hExch
    rw [hPrep] at hPrep'
    obtain ⟨rfl, rfl, rfl⟩ : s₁' = s₁ ∧ c' = c ∧ base' = base := by
      simpa [eq_comm] using hPrep'
    rw [hQueued, exchange_sent hSent hCall hSt hUsed', if_neg hInt, Prod.mk.injEq] at hExch
    rw [← hExch.1, hRead]
    refine ⟨bs, ?_, ?_, List.take_prefix _ _⟩
    · show (handled L base' call.env.nonblock (queue L s₁' base').2 st).host.st.mem.space.load base'
        L.sizeof = some bs
      rw [handled_st, hLoad]
    · intro hNil
      have hPos := L.cmdOff_bounds
      have hShort := congrArg List.length hNil
      rw [List.length_take, hLen] at hShort
      simp [PAGE_SIZE] at hShort
      omega
  · rw [← pages_eq_nil_iff hLen, hDeliver]
    refine ⟨fun hDrained => hDrained.2.1, fun hNil => ⟨?_, hNil, ?_⟩⟩
    · exact (handled_inbuf _ _).trans hSent.inbuf
    · show (handled L base call.env.nonblock (queue L s₁ base).2 st).host.ovq.avail = []
      cases call.env.nonblock <;> rfl
  · intro hOne
    rw [← pages_eq_nil_iff hLen] at hOne
    rw [hOne] at hUsed
    refine (idle_deliver hSent hSt call.env.nonblock hUsed hFit ?_).withUser user
    rw [hAvail, fillAvail_unused hOne, List.replicate_succ']

end Sent

/-- **One call.** From a port at rest, a call whose host operation succeeds is
framed exactly when one page takes its response; the port is then at rest again. -/
theorem portFopsIoctl_framed_iff (hDev : dev.KeepsMapped) {k : Nat} (h : Idle (k + 1) s)
    (hOk : HostOk dev L s call) :
    (Framed dev L s call ↔ OnePage dev L s call (k + 1)) ∧
      (Returns dev L s call → Framed dev L s call →
        Idle (k + 1) (portFopsIoctl dev L s call).1) := by
  have hEntered := h.entered call
  rcases prepare_cases dev L hEntered call with
    ⟨r, hPrep⟩ | ⟨base, c, mem, hPrep⟩
  · obtain ⟨hIdle, hFramed, hPage⟩ := portFopsIoctl_unsent h hPrep
    exact ⟨iff_of_true hFramed hPage, fun _ _ => hIdle⟩
  · have hRest : Idle (k + 1) ((reclaim (entered s call)).setMem mem) := hEntered.reclaim.setMem mem
    obtain ⟨hReq, hSucc⟩ := hOk _ _ _ hPrep
    obtain ⟨st, bs, hCall, hSt, hLoad, hAvail, hUsed⟩ :=
      answer_pages hDev (queue_idle (L := L) hRest base).2 hReq hSucc
    by_cases hInt : Interrupted call.env
    · have hUsed' : st.ivq.used ≠ [] := by
        rw [hUsed]
        exact List.cons_ne_nil _ _
      obtain ⟨hFramed, hPage⟩ := portFopsIoctl_interrupted hRest hPrep hCall hSt hUsed' hInt
      exact ⟨iff_of_false hFramed hPage, fun _ h => absurd h hFramed⟩
    · obtain ⟨hOwn, hDrained, hIdle⟩ :=
        portFopsIoctl_waited hRest hPrep hCall hSt hLoad hAvail hUsed hInt
      refine ⟨⟨fun hFramed hRet _ => ⟨hDrained.mp (hFramed hRet).1, hInt⟩,
        fun hPage hRet => ⟨hDrained.mpr (hPage hRet ⟨_, _, _, hPrep⟩).1, hOwn⟩⟩, ?_⟩
      intro hRet hFramed
      exact hIdle (hDrained.mp (hFramed hRet).1)

-- ---------------------------------------------------------------------------
-- Sequences of calls
-- ---------------------------------------------------------------------------

/-- **Response framing.** In every sequence of calls on a port at rest whose host
operations succeed, each call that returns has left nothing unread and has read
its own response exactly when each call that sent a request has a response that
one page takes, and waits for it. -/
theorem framed_iff (hDev : dev.KeepsMapped) (hPages : 0 < nbuf) (s : Sys σ) (calls : List Call)
    (h : Idle nbuf s) (hOk : AtCalls dev L (HostOk dev L) s calls) :
    AtCalls dev L (Framed dev L) s calls ↔
      AtCalls dev L (fun s call => OnePage dev L s call nbuf) s calls := by
  obtain ⟨k, rfl⟩ : ∃ k, nbuf = k + 1 := ⟨nbuf - 1, by omega⟩
  refine Transition.along_congr (fun s call h hOk => (portFopsIoctl_framed_iff hDev h hOk).1)
    (fun s call s' h hOk hFramed hStep => ?_) h hOk
  obtain ⟨hRet, rfl⟩ := callStep_eq_some_iff.mp hStep
  exact (portFopsIoctl_framed_iff hDev h hOk).2 hRet hFramed

-- ---------------------------------------------------------------------------
-- A small message and a long one
-- ---------------------------------------------------------------------------

/-- A port at rest with two pages posted and a process that has four bytes. -/
def restSys : Sys Fcrypt where
  host := { Host.consolePort with
    st := { Host.consolePort.st with ivq := ⟨true, List.replicate 2 PAGE_SIZE, []⟩ } }
  guest := ⟨none, false, true, true, 0, 128⟩
  user := Space.put (fun _ => none) 0 (zeros 4)

theorem restSys_idle : Idle 2 restSys where
  toQuiet := ⟨⟨rfl, rfl, rfl, rfl, rfl, ⟨_, rfl⟩⟩, rfl, rfl, rfl, rfl, rfl, rfl, rfl⟩
  sent := rfl
  free := by decide

/-- The end of session 0, on a blocking descriptor. -/
def finishCall : Call :=
  ⟨id, Cmd.CIOCFSESSION.word, 0, ⟨false, some 0, fun _ => 0, true, true, false⟩⟩

/-- `finishCall` sends, whatever the layout. -/
theorem finishCall_prepare (K : Kernel) (L : Layout) :
    ∃ mem data, prepare (Host.cryptodev K) L (entered restSys finishCall) finishCall =
        ((reclaim (entered restSys finishCall)).setMem mem, .ok (.CIOCFSESSION, 0)) ∧
      mem.load 0 L.sizeof = some data ∧
      Cmd.ofWord (u32 data L.cmdOff) = some .CIOCFSESSION := by
  have hUser : restSys.user.load 0 4 = some (zeros 4) := by decide
  have hBlank := load_allocate (L := L) restSys.mem 0 finishCall.env.fresh finishCall.cmd
  obtain ⟨mem, hCopy, hMem⟩ := copyIn_fsession hUser hBlank
  have hBounds := L.cmdOff_bounds
  rw [L.ivpOff_eq] at hBounds
  refine ⟨mem, _, prepare_of_copyIn _ (restSys_idle.entered finishCall) rfl (by decide) hCopy, hMem, ?_⟩
  rw [u32_cmdOff_patch (length_blank _ _ _) (by rw [L.ivpOff_eq]; simp; omega)]
  exact (congrArg Cmd.ofWord (u32_cmdOff_blank _ .CIOCFSESSION)).trans (Cmd.ofWord_word _)

/-- The host knows the request, and its ioctl succeeds. -/
theorem finishCall_hostOk (K : Kernel) (L : Layout) :
    HostOk (Host.cryptodev K) L restSys finishCall := by
  obtain ⟨mem, data, hPrep, hMem, hCmd⟩ := finishCall_prepare K L
  refine hostOk_of_outcome restSys_idle hPrep hMem hCmd ?_
  have hSid : mem.load 0 4 = some (slice data 0 4) := by
    refine Space.load_prefix hMem ?_
    have hBounds := L.cmdOff_bounds
    omega
  have hRead : (Host.cmdRead L ((reclaim (entered restSys finishCall)).setMem mem).host.st 0).mem.read
      0 (.buf 0) 4 = (some (slice data 0 4), _) := congrArg (·, _) hSid
  unfold Host.outcome Host.ioctlFsession
  rw [hRead]
  rfl

/-- Messages of one page or less are read whole, the second from its first byte. -/
theorem finishCall_framed :
    AtCalls (Host.cryptodev nullKernel) Host.smallLayout
      (Framed (Host.cryptodev nullKernel) Host.smallLayout) restSys [finishCall, finishCall] := by
  have hDev := Host.cryptodev_keepsMapped nullKernel
  have hOk := finishCall_hostOk nullKernel Host.smallLayout
  have hFits : ∀ s, OnePage (Host.cryptodev nullKernel) Host.smallLayout s finishCall 2 :=
    fun _ _ _ => ⟨Or.inl (by decide), by decide⟩
  refine (framed_iff hDev (by decide) restSys [finishCall, finishCall] restSys_idle
    (atCalls_cons hOk fun r hr => atCalls_cons ?_ fun _ _ => trivial)).mpr
    (atCalls_cons (hFits _) fun _ _ => atCalls_cons (hFits _) fun _ _ => trivial)
  obtain ⟨hStep, hIdle⟩ := portFopsIoctl_framed_iff hDev restSys_idle hOk
  exact hostOk_of_eval (hIdle ⟨r, hr⟩ (hStep.mpr (hFits _))) .CIOCFSESSION 0 (by decide +kernel)

/-- `finishCall` returns 0, and leaves nothing unread exactly when one page is
enough. -/
theorem finishCall_drained_iff (K : Kernel) (L : Layout) :
    (portFopsIoctl (Host.cryptodev K) L restSys finishCall).2 = .returns 0 ∧
      (Drained (portFopsIoctl (Host.cryptodev K) L restSys finishCall).1 ↔
        L.sizeof ≤ PAGE_SIZE) := by
  obtain ⟨mem, data, hPrep, -, -⟩ := finishCall_prepare K L
  have hRest := (restSys_idle.entered finishCall).reclaim.setMem mem
  obtain ⟨hReq, hSucc⟩ := finishCall_hostOk K L _ _ _ hPrep
  have hSent := (queue_idle (L := L) hRest 0).2
  obtain ⟨st, bs, hCall, hSt, hLoad, hAvail, hUsed⟩ :=
    answer_pages (Host.cryptodev_keepsMapped K) hSent hReq hSucc
  have hInt : ¬ Interrupted finishCall.env := by decide
  obtain ⟨-, hDrained, -⟩ := portFopsIoctl_waited hRest hPrep hCall hSt hLoad hAvail hUsed hInt
  refine ⟨?_, hDrained.trans (by simp)⟩
  rw [portFopsIoctl_sent hRest hPrep hCall hSt (by rw [hUsed]; exact List.cons_ne_nil _ _),
    if_neg hInt]
  have hFit : (bs.take PAGE_SIZE).length ≤ L.sizeof := by
    rw [List.length_take, Space.length_of_load hLoad]
    exact Nat.min_le_right _ _
  rw [(deliver_look 0 hSent.inbuf finishCall.env.nonblock hUsed hFit).2]
  -- what the driver copies to the caller is mapped, and so is where it copies it
  have hSid : ((st.mem.space.put 0 (bs.take PAGE_SIZE)).load 0 4).isSome := by
    refine Space.load_put_isSome ?_
    have hBounds := L.cmdOff_bounds
    rw [Space.load_prefix hLoad (k := 4) (by omega)]
    rfl
  obtain ⟨sid, hSid⟩ := Option.isSome_iff_exists.mp hSid
  have hUser : restSys.user.load 0 4 = some (zeros 4) := by decide
  have hStore := Space.store_of_load hUser (Space.length_of_load hSid)
  rw [copyOut_fsession]
  · exact hSid
  · exact hStore

/-- The sizes of the socket client, which submits operations of 8192 bytes. -/
def clientLayout : Layout := ⟨8192, 16, by decide, by decide⟩

/-- A message of more than a page: the call returns 0 with the rest of its
response unread. -/
theorem finishCall_leaves_response :
    Idle 2 restSys ∧ HostOk (Host.cryptodev nullKernel) clientLayout restSys finishCall ∧
      (portFopsIoctl (Host.cryptodev nullKernel) clientLayout restSys finishCall).2 = .returns 0 ∧
      ¬ Drained (portFopsIoctl (Host.cryptodev nullKernel) clientLayout restSys finishCall).1 := by
  obtain ⟨hRet, hDrained⟩ := finishCall_drained_iff nullKernel clientLayout
  refine ⟨restSys_idle, finishCall_hostOk _ _, hRet, ?_⟩
  rw [hDrained]
  decide

end VirtioCrypto.Proxy
