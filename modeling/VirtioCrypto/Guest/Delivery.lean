import VirtioCrypto.Guest.Threads

/-!
# Guest — whose response a thread reads

A response does not say which request it answers, and `fill_readbuf` takes
whatever is first in the in queue. The queues keep their order (`step_fifo`), so
a thread reads the response to its own request when the threads come to
`fill_readbuf` in the order in which they came through `send_buf`, each after
the host has answered it. Nothing in the driver makes them.

The message a call copies out must also still be its own: its `cr_data` must not
be freed under it, which is what `reclaim_consumed_buffers` of another thread
does to a call on a non-blocking descriptor. And no object may be freed twice, as
the same function does to one whose call has returned, since `kmalloc` may then give
it to two calls.

* `reads_apart` — no response is read twice, whatever the order;
* `step_owned`, `step_delivered` — what a step in turn preserves;
* `run_noCrossDelivery` — over whole runs;
* `overtaken_crossDelivery` — two blocking calls, and the second overtakes.
-/

namespace VirtioCrypto.Guest.Threads

open Octets Cryptodev Transition

/-- The bytes are the response the host produced for the request. -/
def OwnResponse (s : State) (ticket : Option Nat) (bytes : Bytes) : Prop :=
  ∃ t, ticket = some t ∧ s.responses[t]? = some (t, bytes)

/-- Every call that returned 0 has copied the response to its own request, and no
two reads got bytes of one response. -/
structure NoCrossDelivery (s : State) : Prop where
  own : ∀ r ∈ s.returns, r.ret = 0 → OwnResponse s r.ticket r.copied
  once : s.reads.Pairwise fun a b => ∀ x ∈ a, ∀ y ∈ b, x.1 ≠ y.1

/-- The address is that of a call under way or of a request with the host. -/
def State.InUse (s : State) (a : Nat) : Prop :=
  (∃ i, (s.pc i).base = some a) ∨ ∃ e ∈ s.ovq.avail, addr e = a

/-- What there is to reclaim may be freed: objects that are live and not in use, each
of them once. -/
structure MayReclaim (s : State) : Prop where
  live : ∀ e ∈ s.ovq.used, addr e ∈ s.live
  unused : ∀ e ∈ s.ovq.used, ¬ s.InUse (addr e)
  once : (s.ovq.used.map addr).Nodup

/-- A step in turn: a read is made by the thread whose request is the oldest one
not read yet, after the host has answered it; and a step that reclaims frees nothing
that is freed already, or that is in use. -/
def InTurn (s : State) : Event → Prop
  | .fill i => ∃ base, s.pc i = .ready base (some s.reads.length) ∧
      s.reads.length < s.responses.length
  | .check .. | .wake _ | .send _ => MayReclaim s
  | _ => True

/-- A port that has just been opened. -/
structure Opened (L : Layout) (s : State) : Prop where
  ram : ∀ a, (s.ram a).length = L.sizeof
  intact : s.corrupt = false
  guest : s.port.guestConnected = true
  inbuf : s.port.inbuf = none
  ready : s.ivq.ready = true
  posted : ∀ sz ∈ s.ivq.avail, sz = PAGE_SIZE
  used : s.ivq.used = []
  out : s.ovq.avail = [] ∧ s.ovq.used = []
  idle : ∀ i, s.pc i = .idle
  queued : s.queued = 0
  responses : s.responses = []
  reads : s.reads = []
  returns : s.returns = []

variable {L : Layout} {s s' : State} {i : Nat}

theorem Opened.fifo (h : Opened L s) : Fifo L s := by
  have hPending : s.pending = [] := by
    unfold State.pending
    rw [h.inbuf, h.used]
    rfl
  constructor
  · exact h.guest
  · exact h.ready
  · exact h.posted
  · simp [hPending]
  · simp [h.out.1]
  · simp [h.queued, h.responses, h.out.1]
  · simp [h.responses]
  · simp [h.responses]
  · simp [h.reads, hPending, h.responses]

-- ---------------------------------------------------------------------------
-- No response is read twice
-- ---------------------------------------------------------------------------

/-- The responses are numbered, so no two have a byte in common. -/
theorem Fifo.responses_apart (h : Fifo L s) :
    (s.responses.map tagged).Pairwise fun a b => ∀ x ∈ a, ∀ y ∈ b, x.1 ≠ y.1 := by
  rw [List.pairwise_map, List.pairwise_iff_getElem]
  intro j k hj hk hjk x hx y hy
  have hFst : ∀ {t : Nat} {r : Nat × Bytes} {z : Tagged}, s.responses[t]? = some r →
      z ∈ tagged r → z.1 = t := by
    intro t r z hr hz
    obtain ⟨b, -, rfl⟩ := List.mem_map.mp hz
    exact h.numbered t r hr
  rw [hFst (List.getElem?_eq_getElem hj) hx, hFst (List.getElem?_eq_getElem hk) hy]
  exact Nat.ne_of_lt hjk

theorem Fifo.reads_apart (h : Fifo L s) :
    s.reads.Pairwise fun a b => ∀ x ∈ a, ∀ y ∈ b, x.1 ≠ y.1 := by
  have hAll := h.responses_apart
  rw [← h.stream] at hAll
  refine (List.pairwise_filter.mp (List.pairwise_append.mp hAll).1).imp ?_
  -- a read that got nothing shares nothing
  intro a b hab x hx y hy
  have ha : a ≠ [] := List.ne_nil_of_mem hx
  have hb : b ≠ [] := List.ne_nil_of_mem hy
  exact hab (by simp [ha]) (by simp [hb]) x hx y hy

/-- When no read came up empty, the `k`-th one got the `k`-th response. -/
theorem Fifo.pending_head (h : Fifo L s) (hReads : ∀ bytes ∈ s.reads, bytes ≠ []) {r : Nat × Bytes}
    (hr : s.responses[s.reads.length]? = some r) :
    (s.pending.map PortBuffer.data).headD [] = tagged r := by
  have hStream := h.stream
  rw [List.filter_eq_self.mpr (by simpa using hReads)] at hStream
  have hGet : (s.responses.map tagged)[s.reads.length]? = some (tagged r) := by
    rw [List.getElem?_map, hr]
    rfl
  rw [← hStream, List.getElem?_append_right (Nat.le_refl _), Nat.sub_self,
    ← List.head?_eq_getElem?] at hGet
  rw [List.headD_eq_head?_getD, hGet]
  rfl

-- ---------------------------------------------------------------------------
-- Whose memory a message is in
-- ---------------------------------------------------------------------------

/-- The calls under way and the requests with the host are in memory of their
own. -/
structure Owned (s : State) : Prop where
  intact : s.corrupt = false
  live : ∀ i a, (s.pc i).base = some a → a ∈ s.live
  apart : ∀ i j a, (s.pc i).base = some a → (s.pc j).base = some a → i = j
  queuedLive : ∀ e ∈ s.ovq.avail, addr e ∈ s.live
  queuedOwner : ∀ e ∈ s.ovq.avail, ∀ i, (s.pc i).base = some (addr e) →
    (s.pc i).ticket = some e.index

/-- No call gets a `cr_data` or another ticket. -/
def NoneNew (s s' : State) : Prop :=
  ∀ j a, (s'.pc j).base = some a → (s.pc j).base = some a ∧ (s'.pc j).ticket = (s.pc j).ticket

theorem Owned.keep (h : Owned s) (hPc : NoneNew s s') (hAvail : s'.ovq.avail ⊆ s.ovq.avail)
    (hIntact : s'.corrupt = s.corrupt) (hLive : ∀ a ∈ s.live, s'.InUse a → a ∈ s'.live) :
    Owned s' := by
  constructor
  · rw [hIntact]
    exact h.intact
  · intro i a hBase
    exact hLive a (h.live i a (hPc i a hBase).1) (.inl ⟨i, hBase⟩)
  · intro i j a hi hj
    exact h.apart i j a (hPc i a hi).1 (hPc j a hj).1
  · intro e he
    exact hLive _ (h.queuedLive e (hAvail he)) (.inr ⟨e, he, rfl⟩)
  · intro e he i hBase
    obtain ⟨hOld, hTicket⟩ := hPc i _ hBase
    rw [hTicket]
    exact h.queuedOwner e (hAvail he) i hOld

theorem noneNew_goto {pc : Pc} (hPc : ∀ a, pc.base = some a →
      (s.pc i).base = some a ∧ pc.ticket = (s.pc i).ticket) : NoneNew s (s.goto i pc) := by
  intro j a hBase
  by_cases hj : j = i
  · subst hj
    simp only [State.goto, Function.update_self] at hBase ⊢
    exact hPc a hBase
  · simp only [State.goto, Function.update_of_ne hj] at hBase ⊢
    exact ⟨hBase, trivial⟩

/-- What may be reclaimed is freed without harm to what is in use. -/
theorem MayReclaim.setOut (h : MayReclaim s) (r : Port Tagged × OutVq) :
    (s.setOut r).corrupt = s.corrupt ∧
      ∀ a ∈ s.live, s.InUse a → a ∈ (s.setOut r).live := by
  have hTaken : s.taken r ⊆ s.ovq.used.map addr :=
    (List.filter_sublist.map addr).subset
  have hLive : ∀ a ∈ s.taken r, a ∈ s.live := by
    intro a ha
    obtain ⟨e, he, rfl⟩ := List.mem_map.mp (hTaken ha)
    exact h.live e he
  obtain ⟨hOk, hKept⟩ := kfree_live hLive (h.once.sublist (List.filter_sublist.map addr))
  refine ⟨?_, fun a ha hUse => hKept a ha fun hMem => ?_⟩
  · show (s.corrupt || (kfree s.live (s.taken r)).2) = s.corrupt
    rw [hOk, Bool.or_false]
  · obtain ⟨e, he, rfl⟩ := List.mem_map.mp (hTaken hMem)
    exact h.unused e he hUse

theorem Owned.setOut (h : Owned s) {r : Port Tagged × OutVq} (hAvail : r.2.avail = s.ovq.avail)
    (hFree : MayReclaim s) : Owned (s.setOut r) := by
  refine h.keep (fun j a hBase => ⟨hBase, rfl⟩) (fun e he => hAvail ▸ he) (hFree.setOut r).1 ?_
  intro a hLive hUse
  refine (hFree.setOut r).2 a hLive ?_
  rcases hUse with hCall | ⟨e, he, hAddr⟩
  · exact .inl hCall
  · exact .inr ⟨e, hAvail ▸ he, hAddr⟩

/-- A step before there is a `cr_data`. -/
theorem Owned.early (h : Owned s) (hEarly : Early s s' i) : Owned s' := by
  obtain ⟨-, pc, rs, rfl, hBase, -⟩ := hEarly
  refine h.keep ?_ (List.Subset.refl _) rfl (fun a hLive _ => hLive)
  exact noneNew_goto (fun a hSome => absurd (hBase.symm.trans hSome) (by simp))

/-- A new `cr_data` is in memory nobody has. -/
theorem Owned.prepare (h : Owned s) {base : Nat} {msg : Bytes} (hNew : base ∉ s.live) {nonblock : Bool} :
    Owned ({ s with ram := Function.update s.ram base msg, live := base :: s.live }.goto i
      (.prepared nonblock base)) := by
  have hOther : ∀ j a, (s.pc j).base = some a → a ≠ base := by
    intro j a hBase hEq
    exact hNew (hEq ▸ h.live j a hBase)
  constructor
  · exact h.intact
  · intro j a hBase
    by_cases hj : j = i
    · subst hj
      simp only [State.goto, Function.update_self, Pc.base, Option.some.injEq] at hBase
      exact hBase ▸ List.mem_cons_self
    · simp only [State.goto, Function.update_of_ne hj] at hBase
      exact List.mem_cons_of_mem _ (h.live j a hBase)
  · intro j k a hj hk
    by_cases hji : j = i <;> by_cases hki : k = i
    · rw [hji, hki]
    · subst hji
      simp only [State.goto, Function.update_self, Function.update_of_ne hki, Pc.base,
        Option.some.injEq] at hj hk
      exact absurd hj.symm (hOther k a hk)
    · subst hki
      simp only [State.goto, Function.update_self, Function.update_of_ne hji, Pc.base,
        Option.some.injEq] at hj hk
      exact absurd hk.symm (hOther j a hj)
    · simp only [State.goto, Function.update_of_ne hji, Function.update_of_ne hki] at hj hk
      exact h.apart j k a hj hk
  · intro e he
    exact List.mem_cons_of_mem _ (h.queuedLive e he)
  · intro e he j hBase
    by_cases hj : j = i
    · subst hj
      simp only [State.goto, Function.update_self, Pc.base, Option.some.injEq] at hBase
      exact absurd (hBase ▸ h.queuedLive e he) hNew
    · simp only [State.goto, Function.update_of_ne hj] at hBase ⊢
      exact h.queuedOwner e he j hBase

/-- A request in memory of its call joins the queue, and the call has its
ticket. -/
theorem Owned.queue (h : Owned s) {nonblock : Bool} {base : Nat}
    (hPc : s.pc i = .prepared nonblock base) {e : Elem} (hAddr : addr e = base) {pc : Pc}
    (hBase : pc.base = some base) (hTicket : pc.ticket = some e.index)
    (hAvail : s'.ovq.avail = s.ovq.avail ++ [e]) (hPc' : s'.pc = Function.update s.pc i pc)
    (hIntact : s'.corrupt = s.corrupt) (hLive : ∀ a ∈ s.live, s.InUse a → a ∈ s'.live) :
    Owned s' := by
  have hBaseOf : ∀ j, (s'.pc j).base = (s.pc j).base := by
    intro j
    rw [hPc']
    by_cases hj : j = i
    · subst hj
      rw [Function.update_self, hBase, hPc, Pc.base]
    · rw [Function.update_of_ne hj]
  have hBaseLive : base ∈ s'.live := by
    have hOld : (s.pc i).base = some base := by rw [hPc, Pc.base]
    exact hLive base (h.live i base hOld) (.inl ⟨i, hOld⟩)
  constructor
  · rw [hIntact]
    exact h.intact
  · intro j a hj
    rw [hBaseOf] at hj
    exact hLive a (h.live j a hj) (.inl ⟨j, hj⟩)
  · intro j k a hj hk
    rw [hBaseOf] at hj hk
    exact h.apart j k a hj hk
  · intro e' he'
    rw [hAvail] at he'
    rcases List.mem_append.mp he' with hOld | hNew
    · exact hLive _ (h.queuedLive e' hOld) (.inr ⟨e', hOld, rfl⟩)
    · rw [List.mem_singleton.mp hNew, hAddr]
      exact hBaseLive
  · intro e' he' j hj
    rw [hBaseOf] at hj
    rw [hAvail] at he'
    rcases List.mem_append.mp he' with hOld | hNew
    · have hTicketOld := h.queuedOwner e' hOld j hj
      -- the sender had no ticket yet, so this is another thread
      have hji : j ≠ i := by
        intro hEq
        rw [hEq, hPc] at hTicketOld
        exact absurd hTicketOld (by simp [Pc.ticket])
      rw [hPc', Function.update_of_ne hji]
      exact hTicketOld
    · obtain rfl := List.mem_singleton.mp hNew
      have hij : j = i := h.apart j i _ hj (by rw [hPc, hAddr, Pc.base])
      rw [hPc', hij, Function.update_self]
      exact hTicket

/-- A call that has read a response does not have its request with the host any
more. -/
theorem Owned.not_queued (h : Owned s) (hFifo : Fifo L s) {base t : Nat}
    (hBase : (s.pc i).base = some base) (hTicket : (s.pc i).ticket = some t)
    (hAnswered : t < s.responses.length) : ∀ e ∈ s.ovq.avail, addr e ≠ base := by
  intro e he hEq
  have hIndex : e.index ∈ s.ovq.avail.map Elem.index := List.mem_map_of_mem he
  rw [hFifo.tickets, List.mem_range'_1] at hIndex
  have hOwner := h.queuedOwner e he i (hEq ▸ hBase)
  rw [hTicket, Option.some.injEq] at hOwner
  omega

theorem OwnResponse.lt {t : Nat} {bytes : Bytes} (h : OwnResponse s (some t) bytes) :
    t < s.responses.length := by
  obtain ⟨t', hEq, hGet⟩ := h
  obtain rfl := Option.some.inj hEq
  exact (List.getElem?_eq_some_iff.mp hGet).1

-- ---------------------------------------------------------------------------
-- Whose response a call has
-- ---------------------------------------------------------------------------

/-- The calls that read a response have their own, and still do when they return
with it; no read came up empty. -/
structure Delivered (s : State) : Prop where
  own : ∀ r ∈ s.returns, r.ret = 0 → OwnResponse s r.ticket r.copied
  filled : ∀ i a o, s.pc i = .filled a o → OwnResponse s o (s.ram a)
  got : ∀ bytes ∈ s.reads, bytes ≠ []

theorem OwnResponse.mono {o : Option Nat} {bytes : Bytes} {more : List (Nat × Bytes)}
    (hResponses : s'.responses = s.responses ++ more) (h : OwnResponse s o bytes) :
    OwnResponse s' o bytes := by
  obtain ⟨t, hEq, hGet⟩ := h
  refine ⟨t, hEq, ?_⟩
  rw [hResponses, List.getElem?_append_left (List.getElem?_eq_some_iff.mp hGet).1]
  exact hGet

/-- A step in which no call reads, or returns 0. -/
theorem Delivered.keep (h : Delivered s) (more : List (Nat × Bytes)) (rs : List Return)
    (hResponses : s'.responses = s.responses ++ more) (hReturns : s'.returns = s.returns ++ rs)
    (hErr : ∀ r ∈ rs, r.ret ≠ 0) (hReads : s'.reads = s.reads)
    (hFilled : ∀ i a o, s'.pc i = .filled a o → s.pc i = .filled a o ∧ s'.ram a = s.ram a) :
    Delivered s' := by
  constructor
  · intro r hr hZero
    rw [hReturns] at hr
    rcases List.mem_append.mp hr with hOld | hNew
    · exact (h.own r hOld hZero).mono hResponses
    · exact absurd hZero (hErr r hNew)
  · intro i a o hPc
    obtain ⟨hOld, hRam⟩ := hFilled i a o hPc
    rw [hRam]
    exact (h.filled i a o hOld).mono hResponses
  · rw [hReads]
    exact h.got

/-- A thread that goes on to a place where it has not read changes nothing for
those that have. -/
theorem filled_of_goto {pc : Pc} (hPc : ∀ b o, pc ≠ .filled b o) {j a : Nat} {o : Option Nat}
    (h : (s.goto i pc).pc j = .filled a o) : s.pc j = .filled a o := by
  by_cases hj : j = i
  · subst hj
    simp only [State.goto, Function.update_self] at h
    exact absurd h (hPc a o)
  · simpa only [State.goto, Function.update_of_ne hj] using h

theorem Delivered.early (h : Delivered s) (hEarly : Early s s' i) : Delivered s' := by
  obtain ⟨-, pc, rs, rfl, hBase, hErr⟩ := hEarly
  refine h.keep [] rs (List.append_nil _).symm rfl hErr rfl ?_
  intro j a o hPc
  refine ⟨filled_of_goto (i := i) ?_ hPc, rfl⟩
  rintro b o rfl
  exact absurd hBase (by simp [Pc.base])

/-- What is known of a run in turn. -/
structure Paired (L : Layout) (s : State) : Prop where
  sized : ∀ a, (s.ram a).length = L.sizeof
  fifo : Fifo L s
  owned : Owned s
  delivered : Delivered s

theorem Paired.lt_of_filled (h : Paired L s) {a : Nat} {o : Option Nat}
    (hPc : s.pc i = .filled a o) : ∃ t, o = some t ∧ t < s.responses.length := by
  have hOwn := h.delivered.filled i a o hPc
  obtain ⟨t, rfl, -⟩ := id hOwn
  exact ⟨t, rfl, hOwn.lt⟩

theorem step_owned (h : Paired L s) {ev : Event} (hTurn : InTurn s ev)
    (hStep : step L s ev = some s') : Owned s' := by
  have hWill := willWriteBlock_frame s.port s.ovq
  cases ev with
  | check i nonblock => exact (h.owned.setOut hWill.2.2 hTurn).early (step_check hStep)
  | wake i => exact (h.owned.setOut hWill.2.2 hTurn).early (step_wake hStep)
  | signal i =>
    rcases step_signal hStep with hEarly | ⟨base, ticket, -, rfl⟩
    · exact h.owned.early hEarly
    · refine h.owned.keep ?_ (List.Subset.refl _) rfl (fun a hLive _ => hLive)
      exact noneNew_goto (s := s) (by simp [Pc.base])
  | prepare i base msg =>
    obtain ⟨nonblock, -, hNew, -, rfl⟩ := step_prepare hStep
    exact h.owned.prepare (hNew h.owned.intact)
  | fail i err => exact h.owned.early (step_fail hStep)
  | send i =>
    obtain ⟨nonblock, base, hPc, hSend⟩ := step_send hStep
    obtain ⟨-, -, hAvail⟩ := sendBuf_frame s.port s.ovq ⟨s.queued, [(base, L.sizeof)]⟩
    obtain ⟨hFull, rfl⟩ | ⟨hQueued, lock, pc, hBase, hTicket, -, rfl⟩ := hSend
    · rw [hFull, if_neg (by simp), List.append_nil] at hAvail
      refine (h.owned.setOut hAvail hTurn).keep ?_ (List.Subset.refl _) rfl (fun a hLive _ => hLive)
      refine noneNew_goto ?_
      intro a hBase
      show (s.pc i).base = some a ∧ none = (s.pc i).ticket
      rw [hPc]
      exact ⟨hBase, rfl⟩
    · rw [hQueued, if_pos rfl] at hAvail
      exact h.owned.queue hPc rfl hBase hTicket hAvail rfl (MayReclaim.setOut hTurn _).1
        (MayReclaim.setOut hTurn _).2
  | spun i =>
    obtain ⟨base, ticket, r, hPc, hSpin, rfl⟩ := step_spun hStep
    obtain ⟨-, -, hAvail⟩ := spin_frame hSpin
    refine h.owned.keep ?_ (fun e he => hAvail ▸ he) rfl (fun a hLive _ => hLive)
    exact noneNew_goto (s := s) (fun a hBase => by rw [hPc]; exact ⟨hBase, rfl⟩)
  | host response =>
    obtain ⟨e, rest, sz, avail, hAvail, -, -, rfl⟩ := step_host hStep
    refine h.owned.keep (fun j a hBase => ⟨hBase, rfl⟩) ?_ rfl (fun a hLive _ => hLive)
    intro e' he'
    rw [hAvail]
    exact List.mem_cons_of_mem _ he'
  | intr =>
    obtain rfl := Option.some.inj hStep
    exact h.owned.keep (fun j a hBase => ⟨hBase, rfl⟩) (List.Subset.refl _) rfl
      (fun a hLive _ => hLive)
  | wait i =>
    obtain ⟨base, ticket, hPc, pc, hBase, hTicket, -, rfl⟩ := step_wait hStep
    refine h.owned.keep ?_ (List.Subset.refl _) rfl (fun a hLive _ => hLive)
    refine noneNew_goto (s := s) ?_
    intro a hSome
    rw [hPc]
    exact ⟨hBase.symm.trans hSome, hTicket⟩
  | fill i =>
    obtain ⟨base, ticket, hPc, rfl⟩ := step_fill hStep
    refine h.owned.keep ?_ (List.Subset.refl _) rfl (fun a hLive _ => hLive)
    exact noneNew_goto (s := s) (fun a hBase => by rw [hPc]; exact ⟨hBase, rfl⟩)
  | copy i ok =>
    obtain ⟨base, ticket, hPc, rfl⟩ := step_copy hStep
    have hBase : (s.pc i).base = some base := by rw [hPc, Pc.base]
    obtain ⟨t, hTicket, hLt⟩ := h.lt_of_filled hPc
    have hNew : NoneNew s (s.goto i .idle) := noneNew_goto (by simp [Pc.base])
    obtain ⟨hOk, hKept⟩ := @kfree_live [base] s.live
      (by simpa using h.owned.live i base hBase) (by simp)
    refine h.owned.keep hNew (List.Subset.refl _) ?_ ?_
    · show (s.corrupt || (kfree s.live [base]).2) = s.corrupt
      rw [hOk, Bool.or_false]
    intro a hLive hUse
    refine hKept a hLive ?_
    -- the address freed is neither that of another call nor queued any more
    rw [List.mem_singleton]
    rintro rfl
    rcases hUse with ⟨j, hj⟩ | ⟨e, he, hAddr⟩
    · have hji : j = i := h.owned.apart j i _ (hNew j _ hj).1 hBase
      subst hji
      simp [State.leave, State.goto, Pc.base] at hj
    · refine h.owned.not_queued h.fifo hBase ?_ hLt e he hAddr
      rw [hPc, ← hTicket, Pc.ticket]

/-- A read in turn gets the response to the thread's own request. -/
theorem step_fill_delivered (h : Paired L s) (hTurn : InTurn s (.fill i))
    (hStep : step L s (.fill i) = some s') : Delivered s' := by
  obtain ⟨base, hPc, hLt⟩ := hTurn
  obtain ⟨base', ticket, hPc', rfl⟩ := step_fill hStep
  obtain ⟨rfl, rfl⟩ := Pc.ready.inj (hPc.symm.trans hPc')
  have hBase : (s.pc i).base = some base := by rw [hPc, Pc.base]
  obtain ⟨bytes, hGet⟩ : ∃ bytes, s.responses[s.reads.length]? = some (s.reads.length, bytes) := by
    refine ⟨(s.responses[s.reads.length]).2, ?_⟩
    have hGet := List.getElem?_eq_getElem hLt
    exact hGet.trans (congrArg some (Prod.ext (h.fifo.numbered _ _ hGet) rfl))
  have hLen : bytes.length = L.sizeof := h.fifo.whole _ (List.mem_of_getElem? hGet)
  obtain ⟨hRead, -⟩ := h.fifo.fill
  rw [h.fifo.pending_head h.delivered.got hGet] at hRead
  have hBytes : (tagged (s.reads.length, bytes)).map Prod.snd = bytes := by
    simp [tagged, Function.comp_def]
  have hTagLen : (tagged (s.reads.length, bytes)).length = L.sizeof := by
    rw [tagged, List.length_map, hLen]
  constructor
  · exact h.delivered.own
  · intro j a o hj
    by_cases hji : j = i
    · subst hji
      simp only [State.goto, Function.update_self, Pc.filled.injEq] at hj
      obtain ⟨rfl, rfl⟩ := hj
      refine ⟨s.reads.length, rfl, ?_⟩
      show s.responses[s.reads.length]? = some (s.reads.length, Function.update s.ram base _ base)
      rw [Function.update_self, hRead, hBytes, hGet,
        List.drop_eq_nil_of_le (by rw [h.sized, hTagLen]), List.append_nil]
    · have hOld : s.pc j = .filled a o := by
        simp only [State.goto, Function.update_of_ne hji] at hj
        exact hj
      have ha : a ≠ base := by
        intro hEq
        exact hji (h.owned.apart j i base (by rw [hOld, ← hEq, Pc.base]) hBase)
      show OwnResponse s o (Function.update s.ram base _ a)
      rw [Function.update_of_ne ha]
      exact h.delivered.filled j a o hOld
  · intro bs hBs
    rcases List.mem_append.mp hBs with hOld | hNew
    · exact h.delivered.got bs hOld
    · rw [List.mem_singleton.mp hNew, hRead]
      intro hNil
      have hBounds := L.cmdOff_bounds
      rw [hNil, List.length_nil] at hTagLen
      omega

theorem step_delivered (h : Paired L s) {ev : Event} (hTurn : InTurn s ev)
    (hStep : step L s ev = some s') : Delivered s' := by
  have hOut : ∀ r, Delivered (s.setOut r) := fun r =>
    ⟨h.delivered.own, h.delivered.filled, h.delivered.got⟩
  -- a thread that goes on to `pc` without a word to anybody
  have hGoto : ∀ {t : State} {i : Nat} {pc : Pc}, (∀ b o, pc ≠ .filled b o) → t.ram = s.ram →
      t.pc = s.pc → t.responses = s.responses → t.returns = s.returns → t.reads = s.reads →
      Delivered (t.goto i pc) := by
    intro t i pc hNot hRam hPcs hResponses hReturns hReads
    refine h.delivered.keep [] [] ?_ ?_ (by simp) hReads ?_
    · rw [List.append_nil]; exact hResponses
    · rw [List.append_nil]; exact hReturns
    · intro j a o hPc
      have hOld := filled_of_goto hNot hPc
      rw [hPcs] at hOld
      exact ⟨hOld, congrFun hRam a⟩
  cases ev with
  | check i nonblock => exact (hOut _).early (step_check hStep)
  | wake i => exact (hOut _).early (step_wake hStep)
  | signal i =>
    rcases step_signal hStep with hEarly | ⟨base, ticket, -, rfl⟩
    · exact h.delivered.early hEarly
    · refine h.delivered.keep [] _ (List.append_nil _).symm rfl (by simp [ERESTARTSYS]) rfl ?_
      intro j a o hPc
      exact ⟨filled_of_goto (s := s) (i := i) (by simp) hPc, rfl⟩
  | prepare i base msg =>
    obtain ⟨nonblock, -, hNew, -, rfl⟩ := step_prepare hStep
    refine h.delivered.keep [] [] (List.append_nil _).symm (List.append_nil _).symm (by simp) rfl ?_
    intro j a o hPc
    have hOld : s.pc j = .filled a o := filled_of_goto (s := s) (i := i) (by simp) hPc
    refine ⟨hOld, Function.update_of_ne ?_ _ _⟩
    rintro rfl
    exact hNew h.owned.intact (h.owned.live j _ (by rw [hOld, Pc.base]))
  | fail i err => exact h.delivered.early (step_fail hStep)
  | send i =>
    obtain ⟨nonblock, base, -, ⟨-, rfl⟩ | ⟨-, lock, pc, -, -, hNot, rfl⟩⟩ := step_send hStep
    · exact hGoto (by simp) rfl rfl rfl rfl rfl
    · exact hGoto hNot rfl rfl rfl rfl rfl
  | spun i =>
    obtain ⟨base, ticket, r, -, -, rfl⟩ := step_spun hStep
    exact hGoto (by simp) rfl rfl rfl rfl rfl
  | host response =>
    obtain ⟨e, rest, sz, avail, hAvail, -, -, rfl⟩ := step_host hStep
    refine h.delivered.keep _ [] rfl (List.append_nil _).symm (by simp) rfl ?_
    intro j a o hPc
    have hPc' : s.pc j = .filled a o := hPc
    refine ⟨hPc', Function.update_of_ne ?_ _ _⟩
    obtain ⟨t, rfl, hLt⟩ := h.lt_of_filled hPc'
    exact (h.owned.not_queued h.fifo (by rw [hPc', Pc.base]) (by rw [hPc', Pc.ticket]) hLt e
      (by simp [hAvail])).symm
  | intr =>
    obtain rfl := Option.some.inj hStep
    exact ⟨h.delivered.own, h.delivered.filled, h.delivered.got⟩
  | wait i =>
    obtain ⟨base, ticket, -, pc, -, -, hNot, rfl⟩ := step_wait hStep
    exact hGoto hNot rfl rfl rfl rfl rfl
  | fill i => exact step_fill_delivered h hTurn hStep
  | copy i ok =>
    obtain ⟨base, ticket, hPc, rfl⟩ := step_copy hStep
    constructor
    · intro r hr hZero
      rcases List.mem_append.mp hr with hOld | hNew
      · exact h.delivered.own r hOld hZero
      · obtain rfl := List.mem_singleton.mp hNew
        cases ok with
        | true => exact h.delivered.filled i base ticket hPc
        | false => simp [EFAULT] at hZero
    · intro j a o hj
      exact h.delivered.filled j a o (filled_of_goto (s := s) (i := i) (by simp) hj)
    · exact h.delivered.got

-- ---------------------------------------------------------------------------
-- Runs
-- ---------------------------------------------------------------------------

theorem Opened.paired (h : Opened L s) : Paired L s := by
  have hBase : ∀ i, (s.pc i).base = none := fun i => by rw [h.idle i, Pc.base]
  refine ⟨h.ram, h.fifo, ⟨h.intact, ?_, ?_, ?_, ?_⟩, ⟨?_, ?_, ?_⟩⟩
  · intro i a hSome
    exact absurd (hSome.symm.trans (hBase i)) (by simp)
  · intro i j a hSome
    exact absurd (hSome.symm.trans (hBase i)) (by simp)
  · simp [h.out.1]
  · simp [h.out.1]
  · simp [h.returns]
  · simp [h.idle]
  · simp [h.reads]

/-- **No cross-delivery, in turn.** Whatever the number of threads and however
their steps interleave, if the reads are in turn and nothing is freed twice or in use
then every call that returned 0 has the response to its own request, and no response
went to two calls. -/
theorem run_noCrossDelivery (hPage : L.sizeof ≤ PAGE_SIZE) (s₀ s : State) (evs : List Event)
    (hOpen : Opened L s₀) (hTurn : Along (step L) InTurn s₀ evs)
    (hRun : run (step L) s₀ evs = some s) :
    NoCrossDelivery s := by
  have hPaired : Paired L s := by
    refine run_invariant (R := InTurn) ?_ hOpen.paired hTurn hRun
    intro s ev s' h hTurn hStep
    exact ⟨step_sized h.fifo h.sized hStep, step_fifo hPage h.fifo hStep, step_owned h hTurn hStep,
      step_delivered h hTurn hStep⟩
  exact ⟨hPaired.delivered.own, hPaired.fifo.reads_apart⟩

-- ---------------------------------------------------------------------------
-- Two threads
-- ---------------------------------------------------------------------------

/-- A stronger condition that can be evaluated: there is nothing to reclaim. -/
def Settled (s : State) : Event → Prop
  | .fill i => ∃ base ∈ (s.pc i).base, s.pc i = .ready base (some s.reads.length) ∧
      s.reads.length < s.responses.length
  | .check .. | .wake _ | .send _ => s.ovq.used = []
  | _ => True

instance (s : State) : (ev : Event) → Decidable (Settled s ev)
  | .fill i => inferInstanceAs (Decidable (∃ base ∈ (s.pc i).base, _))
  | .check .. | .wake _ | .send _ => inferInstanceAs (Decidable (s.ovq.used = []))
  | .signal _ | .prepare .. | .fail .. | .spun _ | .host _ | .intr | .wait _ | .copy .. =>
    isTrue trivial

theorem Settled.inTurn {ev : Event} (h : Settled s ev) : InTurn s ev := by
  cases ev with
  | fill i =>
    obtain ⟨base, -, hPc, hLt⟩ := h
    exact ⟨base, hPc, hLt⟩
  | check i nonblock | wake i | send i =>
    have hNone : s.ovq.used = [] := h
    exact ⟨by simp [hNone], by simp [hNone], by simp [hNone]⟩
  | _ => trivial

/-- A port that has just been opened, with two pages posted. -/
def twoPages : State where
  port := ⟨none, false, true, true, 0, 2⟩
  ivq := ⟨true, [PAGE_SIZE, PAGE_SIZE], []⟩
  ovq := ⟨true, [], []⟩
  lock := none
  ram := fun _ => zeros Host.smallLayout.sizeof
  live := []
  corrupt := false
  pc := fun _ => .idle
  queued := 0
  responses := []
  reads := []
  returns := []

theorem twoPages_opened : Opened Host.smallLayout twoPages :=
  ⟨fun _ => rfl, rfl, rfl, rfl, rfl, by decide, rfl, ⟨rfl, rfl⟩, fun _ => rfl, rfl, rfl, rfl, rfl⟩

/-- A blocking call of thread `i` from the start to the end of `send_buf`; the
host answers with `size` times `b`. -/
def blockingSend (i base : Nat) (b : UInt8) : List Event :=
  [.check i false, .prepare i base (zeros Host.smallLayout.sizeof), .send i,
    .host (List.replicate Host.smallLayout.sizeof b), .spun i]

/-- The rest of a call: look, read, copy. -/
def receive (i : Nat) : List Event := [.wait i, .fill i, .copy i true]

/-- Thread 1 sends before thread 0 has read, and reads after it. -/
theorem inTurn_noCrossDelivery :
    ∃ s, run (step Host.smallLayout) twoPages
        (blockingSend 0 64 1 ++ blockingSend 1 256 2 ++ receive 0 ++ receive 1) = some s ∧
      NoCrossDelivery s := by
  obtain ⟨s, hRun⟩ := Option.isSome_iff_exists.mp (show (run (step Host.smallLayout) twoPages
    (blockingSend 0 64 1 ++ blockingSend 1 256 2 ++ receive 0 ++ receive 1)).isSome by
      decide +kernel)
  exact ⟨s, hRun, run_noCrossDelivery (by decide) twoPages s _ twoPages_opened
    (along_mono (P := Settled) (I := fun _ => True) (fun _ _ _ _ _ _ => trivial)
      (fun _ _ _ h => h.inTurn) trivial (by decide +kernel)) hRun⟩

/-- Thread 1 sends after thread 0 and reads first: it returns 0 with the response
to the other's request. -/
theorem overtaken_crossDelivery :
    ∃ s, run (step Host.smallLayout) twoPages
        (blockingSend 0 64 1 ++ blockingSend 1 256 2 ++ receive 1) = some s ∧
      s.returns = [⟨some 1, 0, List.replicate Host.smallLayout.sizeof 1⟩] ∧
      s.responses[1]? = some (1, List.replicate Host.smallLayout.sizeof 2) ∧
      ¬ NoCrossDelivery s := by
  have hRun : ((run (step Host.smallLayout) twoPages
      (blockingSend 0 64 1 ++ blockingSend 1 256 2 ++ receive 1)).map fun s =>
        (s.returns, s.responses[1]?)) =
      some ([⟨some 1, 0, List.replicate Host.smallLayout.sizeof 1⟩],
        some (1, List.replicate Host.smallLayout.sizeof 2)) := by
    decide +kernel
  obtain ⟨s, hSome, hEq⟩ := Option.map_eq_some_iff.mp hRun
  obtain ⟨hReturns, hResponse⟩ := Prod.ext_iff.mp hEq
  simp only at hReturns hResponse
  refine ⟨s, hSome, hReturns, hResponse, ?_⟩
  intro hNo
  obtain ⟨t, hTicket, hGet⟩ := hNo.own _ (by rw [hReturns]; exact List.mem_singleton_self _) rfl
  obtain rfl := Option.some.inj hTicket
  rw [hResponse] at hGet
  exact absurd hGet (by decide)

end VirtioCrypto.Guest.Threads
