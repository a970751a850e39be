import VirtioCrypto.Guest.Solo

/-!
# Guest — what a failed call leaves behind

A call that gives up after its request is sent, because of a signal or because the
host has gone, takes nothing back: the request may still be with the host, or its
response on the in queue. The next call takes the first response it finds for its
own. On the runs of `Solo`, with one thread:

* `step_tidied` — as long as no call gives up with its request or response still on
  the way, what a call finds on the queues is its own;
* `run_own` — then every call that returns 0 was given the response to its own
  request.
-/

namespace VirtioCrypto.Guest.Solo

open Octets Cryptodev Transition
open Threads (Tagged tagged)

variable {L : Layout} {s s' : State}

/-- No request is with the host, and no response is on the way. -/
def Clear (s : State) : Prop := s.ovq.avail = [] ∧ s.pending = []

instance : DecidablePred Clear := fun _ => inferInstanceAs (Decidable (_ ∧ _))

/-- The only request with the host is that of ticket `t`, or the only response on the
way is. -/
def Mine (s : State) (t : Option Nat) : Prop :=
  Clear s ∨ ∃ k, t = some k ∧
    (s.ovq.avail.map Elem.index = [k] ∧ s.pending = [] ∨
      s.ovq.avail = [] ∧ ∃ a ∈ s.responses, a.1 = k ∧ s.pending.map PortBuffer.data = [tagged a])

/-- The call was given the response to its own request. -/
def Own (s : State) (t : Option Nat) (got : List Tagged) : Prop :=
  ∃ a ∈ s.responses, t = some a.1 ∧ got = tagged a

/-- What is on the queues while the call is at `p`. -/
def Holds (s : State) : Pc → Prop
  | .idle | .asleep | .checked _ | .prepared _ => Clear s
  | .spinning t => Mine s (some t)
  | .sent t | .noData t | .waiting t | .blocked t | .woken t | .rechecked t | .ready t => Mine s t
  | .filled t got => Clear s ∧ Own s t got

/-- Every call that returned 0 was given the response to its own request. -/
def OwnResponses (s : State) : Prop := ∀ r ∈ s.returns, r.ret = 0 → Own s r.ticket r.got

/-- About to read `host_connected` and to give up when the host has gone. -/
def Pc.looksForHost : Pc → Bool
  | .noData _ | .rechecked _ => true
  | _ => false

/-- A call gives up only when nothing of it is left, and the host does not come back
while a call is about to look again. -/
def Tidy (s : State) : Event → Prop
  | .signal => s.pc ≠ .asleep → Clear s
  | .look => s.pc.looksForHost = true → s.port.hostConnected = false → Clear s
  | ev => NoReturn s ev

instance decidableTidy : (s : State) → (ev : Event) → Decidable (Tidy s ev)
  | _, .signal => inferInstanceAs (Decidable (_ → _))
  | _, .look | _, .deliver => inferInstanceAs (Decidable (_ → _ → _))
  | _, .call _ | _, .wake | _, .prepare | _, .fail _ | _, .send | _, .spun
  | _, .fill | _, .copy _ | _, .answer _ | _, .drop | _, .close | _, .reopen | _, .reclaim
  | _, .intr => isTrue trivial

theorem Tidy.noReturn {ev : Event} (h : Tidy s ev) : NoReturn s ev := by
  cases ev <;> first | exact h | trivial

structure Tidied (L : Layout) (s : State) : Prop where
  good : Good L s
  holds : Holds s s.pc
  own : OwnResponses s

-- ---------------------------------------------------------------------------
-- The queues over a step
-- ---------------------------------------------------------------------------

theorem Clear.of_same (h : Clear s) (hSame : Same s s') (hSent : s'.ovq.avail = s.ovq.avail) :
    Clear s' :=
  ⟨hSent.trans h.1, hSame.pending.trans h.2⟩

theorem Mine.of_same {t : Option Nat} (h : Mine s t) (hSame : Same s s')
    (hSent : s'.ovq.avail = s.ovq.avail) : Mine s' t := by
  unfold Mine Clear at h ⊢
  rwa [hSent, hSame.pending, hSame.responses]

theorem Holds.of_same {p : Pc} (h : Holds s p) (hSame : Same s s')
    (hSent : s'.ovq.avail = s.ovq.avail) : Holds s' p := by
  cases p with
  | idle | asleep | checked | prepared => exact Clear.of_same h hSame hSent
  | filled =>
    refine ⟨h.1.of_same hSame hSent, ?_⟩
    unfold Own
    rw [hSame.responses]
    exact h.2
  | _ => exact Mine.of_same h hSame hSent

theorem Holds.of_early {p : Pc} (hp : p.Early) : Holds s p ↔ Clear s := by
  cases p <;> first | exact Iff.rfl | exact hp.elim

theorem Holds.of_after {p : Pc} {t : Option Nat} (hp : p.After t) : Holds s p ↔ Mine s t := by
  simp only [Pc.After, List.mem_cons, List.not_mem_nil, or_false] at hp
  rcases hp with rfl | rfl | rfl | rfl | rfl | rfl | rfl <;> exact Iff.rfl

/-- A request that is with the host while the call is at `p` is the call's. -/
theorem Holds.avail {p : Pc} (h : Holds s p) {e : Elem} {rest : List Elem}
    (hAvail : s.ovq.avail = e :: rest) :
    rest = [] ∧ s.pending = [] ∧
      ∀ s' : State, Mine s' (some e.index) → Holds s' p := by
  have hNot : ¬ Clear s := fun hc => by simp [Clear, hAvail] at hc
  have hMine : ∀ {t : Option Nat}, Mine s t → t = some e.index ∧ rest = [] ∧ s.pending = [] := by
    rintro t (hc | ⟨k, rfl, ⟨hk, hp⟩ | ⟨hNil, -⟩⟩)
    · exact absurd hc hNot
    · rw [hAvail, List.map_cons, List.cons_eq_cons] at hk
      exact ⟨by rw [hk.1], List.map_eq_nil_iff.mp hk.2, hp⟩
    · exact absurd (hAvail.symm.trans hNil) (by simp)
  cases p with
  | idle | asleep | checked | prepared => exact absurd h hNot
  | filled => exact absurd h.1 hNot
  | spinning t =>
    obtain ⟨ht, hRest, hp⟩ := hMine h
    refine ⟨hRest, hp, fun s' hm => ?_⟩
    rw [Option.some.inj ht]
    exact hm
  | sent t | noData t | waiting t | blocked t | woken t | rechecked t | ready t =>
    obtain ⟨rfl, hRest, hp⟩ := hMine h
    exact ⟨hRest, hp, fun s' hm => hm⟩

/-- The call's request is answered: its response is on the way, or lost. -/
theorem Holds.answered {p : Pc} (h : Holds s p) (hWhole : Whole L s) {e : Elem} {rest : List Elem}
    {response : Bytes} (hLen : response.length = L.sizeof) (hAvail : s.ovq.avail = e :: rest) :
    Holds (s.answered e rest response) p := by
  obtain ⟨rfl, hNone, hBack⟩ := h.avail hAvail
  apply hBack
  rcases (hWhole.answer (e := e) (s := s) hLen).2 with hp | ⟨sz, hp⟩
  · exact .inl ⟨rfl, hp.trans hNone⟩
  · refine .inr ⟨e.index, rfl, .inr ⟨rfl, (e.index, response), ?_, rfl, ?_⟩⟩
    · simp [State.answered]
    · rw [hp, hNone]
      rfl

/-- The host is done with requests without an answer. -/
theorem Holds.consumed {p : Pc} (h : Holds s p) (hConsumes : Consumes s s') : Holds s' p := by
  cases hAvail : s.ovq.avail with
  | nil =>
    refine h.of_same hConsumes.toSame ?_
    rw [hAvail]
    exact List.suffix_nil.mp (hAvail ▸ hConsumes.sent)
  | cons e rest =>
    obtain ⟨rfl, hNone, hBack⟩ := h.avail hAvail
    have hSuffix : s'.ovq.avail <:+ [e] := hAvail ▸ hConsumes.sent
    rcases List.suffix_cons_iff.mp hSuffix with hEq | hNil
    · exact h.of_same hConsumes.toSame (hEq.trans hAvail.symm)
    · exact hBack s' (.inl ⟨List.suffix_nil.mp hNil, hConsumes.pending.trans hNone⟩)

/-- The read of a call that has found a response takes its own. -/
theorem Tidied.fill (h : Tidied L s) {t : Option Nat} (hFrom : s.pc = .ready t) :
    Own s t (fillReadbuf s.port s.ivq L.sizeof).1 ∧
      (s.setIn (fillReadbuf s.port s.ivq L.sizeof).2).pending = [] ∧ s.ovq.avail = [] := by
  have hData : s.pending ≠ [] := by
    have := h.good.served
    rwa [hFrom] at this
  have hMine : Mine s t := by
    have := h.holds
    rwa [hFrom] at this
  rcases hMine with hc | ⟨k, rfl, ⟨-, hNone⟩ | ⟨hSent, a, ha, rfl, hOne⟩⟩
  · exact absurd hc.2 hData
  · exact absurd hNone hData
  · obtain ⟨buf, rest, hp⟩ := List.exists_cons_of_ne_nil hData
    rw [hp, List.map_cons, List.cons_eq_cons, List.map_eq_nil_iff] at hOne
    obtain ⟨hBuf, rfl⟩ := hOne
    obtain ⟨hGot, hRest, -⟩ := h.good.whole.fill hp
    exact ⟨⟨a, ha, rfl, hGot.trans hBuf⟩, hRest, hSent⟩

theorem OwnResponses.returned {p : Pc} {rs : List Return} (h : OwnResponses s)
    (hMoves : Moves s s' p rs) (hNew : ∀ r ∈ rs, r.ret = 0 → Own s r.ticket r.got) :
    OwnResponses s' := by
  intro r hr hRet
  rw [hMoves.returns] at hr
  unfold Own
  rw [hMoves.responses]
  exact (List.mem_append.mp hr).elim (h r · hRet) (hNew r · hRet)

theorem OwnResponses.of_more (h : OwnResponses s) (hReturns : s'.returns = s.returns)
    (hMore : ∀ a ∈ s.responses, a ∈ s'.responses) : OwnResponses s' := by
  intro r hr hRet
  obtain ⟨a, ha, hRest⟩ := h r (hReturns ▸ hr) hRet
  exact ⟨a, hMore a ha, hRest⟩

/-- What is on the queues after a step. -/
theorem Tidied.holds_step (h : Tidied L s) {ev : Event} (hEv : Tidy s ev) (he : Effect L s s' ev) :
    Holds s' s'.pc := by
  have hGo : ∀ {p : Pc} {rs : List Return}, Moves s s' p rs → Holds s p → Holds s' s'.pc :=
    fun hMoves hp => hMoves.pc ▸ hp.of_same hMoves.toSame hMoves.sent
  have hNow := h.holds
  cases he with
  | early hFrom hTo hMoves =>
    exact hGo hMoves ((Holds.of_early hTo).mpr ((Holds.of_early hFrom).mp hNow))
  | unsent hFrom hMoves => exact hGo hMoves (.inl ((Holds.of_early hFrom).mp hNow))
  | queue hFrom hTo hSame hSent =>
    obtain ⟨hAvail, hPending⟩ := (Holds.of_early hFrom).mp hNow
    have hMine : Mine s' (some s.queued) := by
      refine .inr ⟨s.queued, rfl, .inl ⟨?_, hSame.pending.trans hPending⟩⟩
      rw [hSent, hAvail]
      rfl
    rcases hTo with hTo | hTo
    · rw [hTo]
      exact hMine
    · rw [hTo]
      exact hMine
  | spun hFrom hMoves =>
    rw [hFrom] at hNow
    exact hGo hMoves hNow
  | signal hFrom hMoves => exact hGo hMoves (hEv (by rw [hFrom]; nofun))
  | notty hFrom hHost hMoves =>
    refine hGo hMoves (hEv ?_ hHost)
    rcases hFrom with hpc | hpc
    · rw [hpc]
      rfl
    · rw [hpc]
      rfl
  | on hFrom hTo hMoves =>
    exact hGo hMoves ((Holds.of_after hTo).mpr ((Holds.of_after hFrom).mp hNow))
  | fill hFrom hTo =>
    obtain ⟨hOwn, hPending, hSent⟩ := h.fill hFrom
    subst hTo
    exact ⟨⟨hSent, hPending⟩, hOwn⟩
  | copy hFrom hMoves =>
    rw [hFrom] at hNow
    exact hGo hMoves hNow.1
  | answer hAvail hLen hTo =>
    subst hTo
    exact hNow.answered h.good.whole hLen hAvail
  | consume hConsumes => exact hConsumes.pc ▸ hNow.consumed hConsumes
  | deliver _ hTo =>
    subst hTo
    exact hNow.of_same ⟨rfl, rfl, rfl, rfl⟩ rfl
  | stay hMoves => exact hGo hMoves hNow

theorem step_tidied (s : State) (ev : Event) (s' : State) (h : Tidied L s) (hEv : Tidy s ev)
    (hStep : step L s ev = some s') : Tidied L s' := by
  have he := step_effect h.good.whole hStep
  refine ⟨step_good s ev s' h.good hEv.noReturn hStep, h.holds_step hEv he, ?_⟩
  cases he with
  | early _ _ hMoves hErr => exact h.own.returned hMoves fun r hr h0 => absurd h0 (hErr r hr)
  | unsent _ hMoves | spun _ hMoves | on _ _ hMoves | stay hMoves => exact h.own.returned hMoves nofun
  | signal _ hMoves => exact h.own.returned hMoves (by simp [ERESTARTSYS])
  | notty _ _ hMoves => exact h.own.returned hMoves (by simp [ENOTTY])
  | copy hFrom hMoves =>
    have hs := h.holds
    rw [hFrom] at hs
    exact h.own.returned hMoves fun r hr _ => (List.mem_singleton.mp hr) ▸ hs.2
  | queue _ _ hSame _ hReturns => exact h.own.of_more hReturns fun a ha => hSame.responses ▸ ha
  | consume hConsumes => exact h.own.of_more hConsumes.returns fun a ha => hConsumes.responses ▸ ha
  | fill _ hTo | deliver _ hTo =>
    subst hTo
    exact h.own
  | answer _ _ hTo =>
    subst hTo
    exact h.own.of_more rfl fun a ha => List.mem_append_left _ ha

/-- A call that returns 0 was given the response to its own request, whatever calls
failed before it, as long as those gave up with nothing of theirs on the way. -/
theorem run_own (s₀ s : State) (evs : List Event) (hOpen : Opened L s₀)
    (hRun : run (step L) s₀ evs = some s) (hTidy : Along (step L) Tidy s₀ evs) : OwnResponses s := by
  have hStart : Tidied L s₀ := by
    refine ⟨hOpen.good, ?_, ?_⟩
    · rw [hOpen.pc]
      exact ⟨hOpen.sent, hOpen.pending⟩
    · simp [OwnResponses, hOpen.returns]
  exact (run_invariant step_tidied hStart hTidy hRun).own

/-- The host drops a request and goes; the call gives up, and the next one is served. -/
theorem away_and_back_own :
    ((run (step Host.smallLayout) onePage awayAndBack).map fun s => s.returns.map Return.ret) =
        some [-ENOTTY, 0] ∧
      ∀ s, run (step Host.smallLayout) onePage awayAndBack = some s → OwnResponses s :=
  ⟨by decide +kernel, fun s hRun =>
    run_own onePage s awayAndBack onePage_opened hRun (by decide +kernel)⟩

/-- A signal ends the wait of a non-blocking call, whose response comes after that; the
next call finds it. -/
def lateResponse : List Event :=
  [.call true, .prepare, .send, .look, .look, .signal, .answer (reply 7),
   .call true, .prepare, .send, .look, .look, .fill, .copy true]

/-- The second call returns 0 with the response to the first. -/
theorem late_response_read :
    ((run (step Host.smallLayout) onePage lateResponse).map fun s => (s.returns, s.responses)) =
        some ([⟨some 0, -ERESTARTSYS, []⟩, ⟨some 1, 0, tagged (0, reply 7)⟩], [(0, reply 7)]) ∧
      ∀ s, run (step Host.smallLayout) onePage lateResponse = some s → ¬ OwnResponses s := by
  have hRun : ((run (step Host.smallLayout) onePage lateResponse).map fun s => (s.returns, s.responses)) =
      some ([⟨some 0, -ERESTARTSYS, []⟩, ⟨some 1, 0, tagged (0, reply 7)⟩], [(0, reply 7)]) := by
    decide +kernel
  refine ⟨hRun, fun s hs h => ?_⟩
  rw [hs, Option.map_some, Option.some.injEq, Prod.mk.injEq] at hRun
  obtain ⟨a, ha, ht, -⟩ := h ⟨some 1, 0, tagged (0, reply 7)⟩ (by simp [hRun.1]) rfl
  rw [hRun.2, List.mem_singleton] at ha
  simp [ha] at ht

end VirtioCrypto.Guest.Solo
