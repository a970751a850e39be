import VirtioCrypto.Guest.Port
import VirtioCrypto.Transition
import Mathlib.Data.List.Nodup

/-!
# Guest — who frees a request buffer

Every `port_fops_ioctl` that gets past its checks allocates one `crypto_data`; the
same pointer is the call's buffer and the cookie of the out queue. Two places free
it: the end of the call, and `reclaim_consumed_buffers`, which frees whatever it
takes off the out queue. A call that returns early frees nothing, and neither does
the spin in `send_buf`, which takes one element off the queue.

A buffer is a token, the number of buffers allocated before it, and stands for its
call as well. Calls on blocking and non-blocking descriptors may be under way in any
number. `lock` is the call that spins in `send_buf` with `outvq_lock` held; the
other users of the queue wait for it, except `unplug_port`, which does not take the
lock. `freed` are the calls of `kfree` in their order.

* `addBuf_reclaim` — the steps of a send are `send_buf` of the port;
* `step_blocking` — with blocking descriptors and no early return the out queue
  never holds more than the buffer of the call that spins.
-/

namespace VirtioCrypto.Guest.Ownership

open Transition

/-- How far the call of a token is. -/
inductive Phase
  | unborn
  | holding (nonblock : Bool)
  | spinning
  | sent
  | gone
deriving DecidableEq

structure State where
  port : Port Unit
  ovq : OutVq
  unplugged : Bool
  lock : Option Nat
  next : Nat
  phase : Nat → Phase
  freed : List Nat

inductive Event
  /-- `kmalloc` -/
  | alloc (nonblock : Bool)
  /-- `copy_from_user` fails -/
  | fault (t : Nat)
  /-- the command is none of the three -/
  | unknown (t : Nat)
  | send (t : Nat)
  /-- the host is done with a request, or drops it as its side is closed -/
  | complete
  | spun (t : Nat)
  /-- a signal, `-ENOTTY` or `-ENODEV` after the request was sent -/
  | early (t : Nat)
  /-- the end of the call, with or without a fault in `copy_to_user` -/
  | finish (t : Nat)
  /-- open, release, poll, a control message, `will_write_block` -/
  | reclaim
  | unplug
deriving DecidableEq

/-- The tokens in the out queue. -/
def queue (s : State) : List Nat := (s.ovq.avail ++ s.ovq.used).map Elem.index

def kfree (s : State) (t : Nat) : State := { s with freed := s.freed ++ [t] }

def goto (s : State) (t : Nat) (p : Phase) : State :=
  { s with phase := Function.update s.phase t p }

/-- `reclaim_consumed_buffers`; an unplugged port has no queues. -/
def reclaim (s : State) : State :=
  if s.unplugged then s
  else { s with port := (reclaimConsumedBuffers s.port s.ovq).1,
                ovq := (reclaimConsumedBuffers s.port s.ovq).2,
                freed := s.freed ++ s.ovq.used.map Elem.index }

/-- `virtqueue_add_buf`, with `outvq_full`. -/
def addBuf (s : State) (t : Nat) : Bool × State :=
  if s.port.outFree = 0 then (false, s)
  else (true, { s with
    port := { s.port with outFree := s.port.outFree - 1,
                          outvqFull := s.port.outvqFull || s.port.outFree - 1 == 0 }
    ovq := { s.ovq with avail := s.ovq.avail ++ [⟨t, []⟩] } })

/-- `send_buf` up to the spin. -/
def send (s : State) (t : Nat) (nonblock : Bool) : State :=
  match addBuf (reclaim s) t with
  | (false, s) => goto s t .sent
  | (true, s) => if nonblock then goto s t .sent else { goto s t .spinning with lock := some t }

def step (s : State) : Event → Option State
  | .alloc nonblock => some { goto s s.next (.holding nonblock) with next := s.next + 1 }
  | .fault t =>
    match s.phase t with
    | .holding _ => some (goto (kfree s t) t .gone)
    | _ => none
  | .unknown t =>
    match s.phase t with
    | .holding _ => some (goto s t .gone)
    | _ => none
  | .send t =>
    match s.phase t, s.lock with
    | .holding nonblock, none => some (send s t nonblock)
    | _, _ => none
  | .complete =>
    match s.ovq.avail with
    | [] => none
    | e :: rest => some { s with ovq := { s.ovq with avail := rest, used := s.ovq.used ++ [e] } }
  | .spun t =>
    if s.lock = some t then
      (spin s.port s.ovq).map fun r => { goto s t .sent with port := r.1, ovq := r.2, lock := none }
    else none
  | .early t => if s.phase t = .sent then some (goto s t .gone) else none
  | .finish t => if s.phase t = .sent then some (goto (kfree s t) t .gone) else none
  | .reclaim => if s.lock = none then some (reclaim s) else none
  | .unplug => if s.unplugged then none else some { reclaim s with unplugged := true }

/-- A port without calls. -/
def start (port : Port Unit) (ready : Bool) : State :=
  ⟨port, ⟨ready, [], []⟩, false, none, 0, fun _ => .unborn, []⟩

/-- On a port that is plugged the two are `send_buf` of the port. -/
theorem addBuf_reclaim (s : State) (t : Nat) (h : s.unplugged = false) :
    ((addBuf (reclaim s) t).1, (addBuf (reclaim s) t).2.port, (addBuf (reclaim s) t).2.ovq) =
      sendBuf s.port s.ovq ⟨t, []⟩ := by
  simp only [addBuf, reclaim, sendBuf, h, Bool.false_eq_true, if_false]
  split <;> rfl

-- ---------------------------------------------------------------------------
-- Owners
-- ---------------------------------------------------------------------------

inductive Owner
  | ioctl
  | outVq
  | freed
  | nobody
deriving DecidableEq

/-- Who is to free the token, or has. -/
def owner (s : State) (t : Nat) : Owner :=
  if t ∈ s.freed then .freed
  else if t ∈ queue s then .outVq
  else
    match s.phase t with
    | .unborn | .gone => .nobody
    | .holding _ | .spinning | .sent => .ioctl

/-- No buffer is freed twice, none is in the out queue once it is freed, and each
that is not freed has an owner. -/
structure Owned (s : State) : Prop where
  once : s.freed.Nodup
  apart : ∀ t ∈ s.freed, t ∉ queue s
  owner : ∀ t < s.next, owner s t ≠ .nobody

/-- Nothing is under way. -/
def AtRest (s : State) : Prop := queue s = [] ∧ ∀ t < s.next, s.phase t = .gone

/-- When nothing is under way each buffer has been freed exactly once. -/
theorem Owned.count_freed {s : State} (h : Owned s) (hRest : AtRest s) {t : Nat} (ht : t < s.next) :
    s.freed.count t = 1 := by
  refine List.count_eq_one_of_mem h.once ?_
  by_contra hNot
  refine h.owner t ht ?_
  rw [Ownership.owner, if_neg hNot, hRest.1, hRest.2 t ht]
  rfl

-- ---------------------------------------------------------------------------
-- Blocking calls that go to their end
-- ---------------------------------------------------------------------------

/-- The descriptors are blocking, the commands are known, and no call returns
between its send and its end. -/
def ToTheEnd : Event → Prop
  | .alloc nonblock => nonblock = false
  | .unknown _ | .early _ => False
  | _ => True

instance : DecidablePred ToTheEnd
  | .alloc _ => inferInstanceAs (Decidable (_ = _))
  | .unknown _ | .early _ => isFalse id
  | .fault _ | .send _ | .complete | .spun _ | .finish _ | .reclaim | .unplug => isTrue trivial

/-- What is known of a token in each phase. It is freed at the end of its call; only
`unplug_port` can come before, while the call spins. -/
def Token (s : State) (t : Nat) : Phase → Prop
  | .unborn => s.next ≤ t ∧ s.lock ≠ some t ∧ t ∉ s.freed
  | .holding nonblock => t < s.next ∧ s.lock ≠ some t ∧ t ∉ s.freed ∧ nonblock = false
  | .spinning => t < s.next ∧ s.lock = some t ∧ (t ∈ s.freed → t ∉ queue s)
  | .sent => t < s.next ∧ s.lock ≠ some t ∧ t ∉ s.freed
  | .gone => t < s.next ∧ s.lock ≠ some t ∧ t ∈ s.freed

/-- What such calls keep. -/
structure Blocking (s : State) : Prop where
  queued : ∀ t ∈ queue s, s.lock = some t
  single : (queue s).Nodup
  once : s.freed.Nodup
  token : ∀ t, Token s t (s.phase t)

/-- A step about another token. -/
theorem Token.of_same {s s' : State} {t : Nat} {p : Phase} (h : Token s t p)
    (hNext : s'.next ≤ t ↔ s.next ≤ t) (hLock : s'.lock = some t ↔ s.lock = some t)
    (hFreed : t ∈ s'.freed ↔ t ∈ s.freed) (hQueue : t ∈ queue s' → t ∈ queue s) : Token s' t p := by
  have hBound : t < s'.next ↔ t < s.next := by omega
  cases p <;> simp only [Token, ne_eq, hNext, hBound, hLock, hFreed] at h ⊢
  case spinning => exact ⟨h.1, h.2.1, fun hf hq => h.2.2 hf (hQueue hq)⟩
  all_goals exact h

/-- The call of one token goes on: the others are where they were. -/
theorem token_update {s s' : State} {t : Nat} {p : Phase} (h : ∀ u, Token s u (s.phase u))
    (hPhase : s'.phase = Function.update s.phase t p) (hSelf : Token s' t p)
    (hOther : ∀ u, u ≠ t → Token s u (s.phase u) → Token s' u (s.phase u)) (u : Nat) :
    Token s' u (s'.phase u) := by
  rw [hPhase, Function.update_apply]
  split
  next hEq => exact hEq ▸ hSelf
  next hNe => exact hOther u hNe (h u)

theorem Blocking.queue_nil {s : State} (h : Blocking s) (hLock : s.lock = none) : queue s = [] := by
  refine List.eq_nil_iff_forall_not_mem.mpr fun t ht => ?_
  exact absurd (hLock.symm.trans (h.queued t ht)) (by simp)

theorem Blocking.spinning {s : State} (h : Blocking s) {t : Nat} (hLock : s.lock = some t) :
    s.phase t = .spinning := by
  have hToken := h.token t
  cases hp : s.phase t with
  | spinning => rfl
  | unborn | holding | sent | gone =>
    rw [hp] at hToken
    exact absurd hLock hToken.2.1

/-- A token in the queue has not been freed. -/
theorem Blocking.not_freed {s : State} (h : Blocking s) {t : Nat} (ht : t ∈ queue s) :
    t ∉ s.freed := by
  have hToken := h.token t
  rw [h.spinning (h.queued t ht)] at hToken
  exact fun hFreed => hToken.2.2 hFreed ht

theorem Blocking.owned {s : State} (h : Blocking s) : Owned s := by
  refine ⟨h.once, fun t ht hq => h.not_freed hq ht, fun t ht => ?_⟩
  have hToken := h.token t
  unfold owner
  split
  · simp
  next hNot =>
    split
    · simp
    · cases hp : s.phase t <;> simp only [hp, Token] at hToken ⊢
      case unborn => exact absurd hToken.1 (by omega)
      case gone => exact absurd hToken.2.2 hNot
      all_goals simp

theorem Blocking.reclaim {s : State} (h : Blocking s) : Blocking (reclaim s) := by
  unfold Ownership.reclaim
  split
  · exact h
  have hSplit : queue s = s.ovq.avail.map Elem.index ++ s.ovq.used.map Elem.index := by
    simp [queue]
  have hLeft : queue { s with port := (reclaimConsumedBuffers s.port s.ovq).1,
                              ovq := (reclaimConsumedBuffers s.port s.ovq).2,
                              freed := s.freed ++ s.ovq.used.map Elem.index } =
      s.ovq.avail.map Elem.index := by
    simp [queue, reclaimConsumedBuffers]
  obtain ⟨hAvail, hUsed, hApart⟩ := List.nodup_append.mp (hSplit ▸ h.single)
  have hTaken : ∀ t ∈ s.ovq.used.map Elem.index, t ∈ queue s := fun t ht => by
    rw [hSplit]
    exact List.mem_append_right _ ht
  have hKept : ∀ t ∈ s.ovq.avail.map Elem.index, t ∈ queue s := fun t ht => by
    rw [hSplit]
    exact List.mem_append_left _ ht
  refine ⟨fun t ht => h.queued t (hKept t (hLeft ▸ ht)), hLeft ▸ hAvail,
    List.nodup_append.mpr ⟨h.once, hUsed, fun a ha b hb hab => h.not_freed (hTaken b hb) (hab ▸ ha)⟩,
    fun t => ?_⟩
  by_cases ht : t ∈ s.ovq.used.map Elem.index
  · -- the call of a token that is taken off the queue spins
    have hToken := h.token t
    have hLock := h.queued t (hTaken t ht)
    simp only [h.spinning hLock] at hToken ⊢
    exact ⟨hToken.1, hLock, fun _ hk => hApart t (hLeft ▸ hk) t ht rfl⟩
  · exact (h.token t).of_same Iff.rfl Iff.rfl (by simp [ht]) fun hk => hKept t (hLeft ▸ hk)

/-- A call that has its buffer to itself frees it and is over. -/
theorem Blocking.free {s : State} (h : Blocking s) {t : Nat} (hBorn : t < s.next)
    (hLock : s.lock ≠ some t) (hFreed : t ∉ s.freed) : Blocking (goto (kfree s t) t .gone) := by
  refine ⟨h.queued, h.single, ?_, token_update h.token rfl ?_ fun u hu hToken => ?_⟩
  · exact List.nodup_append.mpr ⟨h.once, by simp, fun a ha b hb hab => by simp_all⟩
  · exact ⟨hBorn, hLock, by simp [goto, kfree]⟩
  · exact hToken.of_same Iff.rfl Iff.rfl (by simp [goto, kfree, hu]) id

/-- A send finds the queue empty, as no other call spins. -/
theorem Blocking.send {s : State} (h : Blocking s) {t : Nat} (hPhase : s.phase t = .holding false)
    (hLock : s.lock = none) : Blocking (send s t false) := by
  have hr : Blocking (Ownership.reclaim s) := h.reclaim
  have hFrame : (Ownership.reclaim s).phase = s.phase ∧ (Ownership.reclaim s).lock = s.lock := by
    unfold Ownership.reclaim
    split <;> exact ⟨rfl, rfl⟩
  unfold Ownership.send
  generalize Ownership.reclaim s = r at hr hFrame ⊢
  have hFree : r.lock = none := hFrame.2.trans hLock
  have hNil : queue r = [] := hr.queue_nil hFree
  obtain ⟨hBorn, hNot, hFresh, -⟩ : Token r t (.holding false) := by
    have := hr.token t
    rwa [hFrame.1, hPhase] at this
  unfold addBuf
  by_cases hFull : r.port.outFree = 0
  · rw [if_pos hFull]
    refine ⟨hr.queued, hr.single, hr.once, token_update hr.token rfl ⟨hBorn, hNot, hFresh⟩ ?_⟩
    exact fun u _ hToken => hToken.of_same Iff.rfl Iff.rfl Iff.rfl id
  · rw [if_neg hFull]
    dsimp only
    rw [if_neg Bool.false_ne_true]
    obtain ⟨hAvail, hUsed⟩ : r.ovq.avail = [] ∧ r.ovq.used = [] := by simpa [queue] using hNil
    refine ⟨?_, ?_, hr.once, token_update hr.token rfl ⟨hBorn, rfl, fun hf => absurd hf hFresh⟩ ?_⟩
    · simp [queue, goto, hAvail, hUsed]
    · simp [queue, goto, hAvail, hUsed]
    · intro u hu hToken
      refine hToken.of_same Iff.rfl ?_ Iff.rfl ?_
      · simp [hFree, hu.symm]
      · simp [queue, goto, hAvail, hUsed, hu]

/-- Nobody has the new token yet. -/
theorem Blocking.alloc {s : State} (h : Blocking s) :
    Blocking { goto s s.next (.holding false) with next := s.next + 1 } := by
  obtain ⟨-, hLock, hFreed⟩ : Token s s.next .unborn := by
    have hToken := h.token s.next
    cases hp : s.phase s.next with
    | unborn => exact hp ▸ hToken
    | holding | spinning | sent | gone =>
      rw [hp] at hToken
      exact absurd hToken.1 (Nat.lt_irrefl _)
  refine ⟨h.queued, h.single, h.once, token_update h.token rfl ?_ fun u hu hToken => ?_⟩
  · exact ⟨Nat.lt_succ_self _, hLock, hFreed, rfl⟩
  · exact hToken.of_same (by simp only; omega) Iff.rfl Iff.rfl id

/-- The queue holds the token of the call that spins, and nothing else. -/
theorem Blocking.spun {s : State} (h : Blocking s) {t : Nat} (hLock : s.lock = some t)
    {r : Port Unit × OutVq} (hSpin : spin s.port s.ovq = some r) :
    Blocking { goto s t .sent with port := r.1, ovq := r.2, lock := none } := by
  unfold spin at hSpin
  split at hSpin
  · exact absurd hSpin (by simp)
  next e rest hUsed =>
    obtain rfl := Option.some.inj hSpin
    have hSelf : ∀ u ∈ queue s, u = t := fun u hu =>
      (Option.some.inj ((h.queued u hu).symm.trans hLock))
    have hNil : s.ovq.avail = [] ∧ rest = [] := by
      have hLen : (queue s).length ≤ 1 := by
        have hSingle := h.single
        rwa [List.eq_replicate_of_mem hSelf, List.nodup_replicate] at hSingle
      simp only [queue, hUsed, List.length_map, List.length_append, List.length_cons] at hLen
      exact ⟨List.length_eq_zero_iff.mp (by omega), List.length_eq_zero_iff.mp (by omega)⟩
    have hIn : t ∈ queue s := by
      have := hSelf e.index (by simp [queue, hUsed])
      simp [queue, hUsed, this]
    have hToken := h.token t
    rw [h.spinning hLock] at hToken
    refine ⟨?_, ?_, h.once, token_update h.token rfl ⟨hToken.1, by simp, h.not_freed hIn⟩ ?_⟩
    · simp [queue, hNil]
    · simp [queue, hNil]
    · intro u hu hOther
      refine hOther.of_same Iff.rfl ?_ Iff.rfl (by simp [queue, hNil])
      simp [hLock, hu.symm]

theorem step_blocking (s : State) (ev : Event) (s' : State) (h : Blocking s) (hEnd : ToTheEnd ev)
    (hStep : step s ev = some s') : Blocking s' := by
  cases ev with
  | alloc nonblock =>
    obtain rfl : nonblock = false := hEnd
    obtain rfl := Option.some.inj hStep
    exact h.alloc
  | fault t =>
    simp only [step] at hStep
    split at hStep
    next nonblock hp =>
      obtain rfl := Option.some.inj hStep
      have hToken := h.token t
      rw [hp] at hToken
      exact h.free hToken.1 hToken.2.1 hToken.2.2.1
    · exact absurd hStep (by simp)
  | unknown t => exact hEnd.elim
  | early t => exact hEnd.elim
  | send t =>
    simp only [step] at hStep
    split at hStep
    next nonblock hp hLock =>
      obtain rfl := Option.some.inj hStep
      have hToken := h.token t
      rw [hp] at hToken
      obtain rfl := hToken.2.2.2
      exact h.send hp hLock
    · exact absurd hStep (by simp)
  | complete =>
    simp only [step] at hStep
    split at hStep
    · exact absurd hStep (by simp)
    next e rest hq =>
      obtain rfl := Option.some.inj hStep
      have hPerm : (queue { s with ovq := { s.ovq with avail := rest, used := s.ovq.used ++ [e] } }).Perm
          (queue s) := by
        simp only [queue, hq, List.map_append, List.map_cons, List.map_nil, ← List.append_assoc]
        exact List.perm_append_singleton _ _
      refine ⟨fun t ht => h.queued t (hPerm.mem_iff.mp ht), hPerm.nodup_iff.mpr h.single, h.once,
        fun t => (h.token t).of_same Iff.rfl Iff.rfl Iff.rfl hPerm.mem_iff.mp⟩
  | spun t =>
    simp only [step, Option.ite_none_right_eq_some, Option.map_eq_some_iff] at hStep
    obtain ⟨hLock, r, hSpin, rfl⟩ := hStep
    exact h.spun hLock hSpin
  | finish t =>
    simp only [step, Option.ite_none_right_eq_some, Option.some.injEq] at hStep
    obtain ⟨hp, rfl⟩ := hStep
    have hToken := h.token t
    rw [hp] at hToken
    exact h.free hToken.1 hToken.2.1 hToken.2.2
  | reclaim =>
    simp only [step, Option.ite_none_right_eq_some, Option.some.injEq] at hStep
    obtain ⟨-, rfl⟩ := hStep
    exact h.reclaim
  | unplug =>
    simp only [step, Option.ite_none_left_eq_some, Option.some.injEq] at hStep
    obtain ⟨-, rfl⟩ := hStep
    obtain ⟨hQueued, hSingle, hOnce, hToken⟩ := h.reclaim
    exact ⟨hQueued, hSingle, hOnce, fun t => (hToken t).of_same Iff.rfl Iff.rfl Iff.rfl id⟩

/-- With blocking descriptors, known commands and no early return every buffer is
freed once, and not while it is in the out queue. -/
theorem run_owned (port : Port Unit) (ready : Bool) (evs : List Event) (s : State)
    (hRun : run step (start port ready) evs = some s) (hEnd : ∀ ev ∈ evs, ToTheEnd ev) :
    Owned s ∧ (AtRest s → ∀ t < s.next, s.freed.count t = 1) := by
  have hStart : Blocking (start port ready) := by
    refine ⟨?_, ?_, List.nodup_nil, fun t => ⟨Nat.zero_le t, nofun, nofun⟩⟩ <;> simp [queue, start]
  have hOwned : Owned s :=
    (run_invariant step_blocking hStart (along_of_forall hEnd) hRun).owned
  exact ⟨hOwned, fun hRest t ht => hOwned.count_freed hRest ht⟩

/-- A port with two descriptors in the out ring. -/
def twoFree : Port Unit := ⟨none, false, true, true, 0, 2⟩

/-- Two calls whose sends come one after the other, and a poll between the
two. -/
def twoCalls : List Event :=
  [.alloc false, .alloc false, .send 0, .complete, .spun 0, .reclaim, .send 1, .finish 0, .complete,
   .spun 1, .reclaim, .finish 1]

theorem two_calls_owned :
    ∃ s, run step (start twoFree true) twoCalls = some s ∧ s.freed = [0, 1] ∧
      Owned s ∧ (AtRest s → ∀ t < s.next, s.freed.count t = 1) :=
  ⟨_, rfl, rfl, run_owned twoFree true twoCalls _ rfl (by decide)⟩

/-- A call on a non-blocking descriptor whose response is there at once, and the next
look at the queue. -/
def nonblockCall : List Event := [.alloc true, .send 0, .complete, .finish 0, .reclaim]

/-- The end of the call frees the buffer while it is in the out queue, and
`reclaim_consumed_buffers` frees it again. -/
theorem nonblock_call_frees_twice :
    (∃ s, run step (start twoFree true) (nonblockCall.take 4) = some s ∧ s.freed = [0] ∧
        queue s = [0] ∧ ¬ Owned s) ∧
      ∃ s, run step (start twoFree true) nonblockCall = some s ∧ s.freed = [0, 0] ∧ ¬ Owned s := by
  refine ⟨⟨_, rfl, rfl, rfl, fun h => ?_⟩, ⟨_, rfl, rfl, fun h => ?_⟩⟩
  · exact h.apart 0 (by decide) (by decide)
  · exact absurd h.once (by decide)

end VirtioCrypto.Guest.Ownership
