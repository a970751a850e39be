import VirtioCrypto.Host.Bus
import VirtioCrypto.Transition

/-!
# Host — what the flush loop hands over and what it returns

`have_data` may take less than it is offered (`virtio-serial.h`: throttling is then enabled for
the port), and the flush loop has the state to go on where it left off. The line that throttles
the port is commented out in this tree, so after a short answer the loop leaves the segments of
the element and, finding the port not throttled, pushes the element all the same. What was not
taken is gone.

The loop is run here with a callback that also notes the addresses of the bytes it took
(`noted`). A byte is named by its address in the element's segments.

* `flushSegs_noted`     — what one pass over the segments takes, and where it stops;
* `turn_accounted`      — a turn of the loop accounts for every byte, if the callback settles
  it: everything taken and the port not throttled, or the port throttled;
* `notified_accounted`  — so does every run of notifications whose turns all settle;
* `partial_answer_lost` — a callback that takes one byte of two.
-/

namespace VirtioCrypto.Host

open Octets Cryptodev

variable {S : Type}

-- ---------------------------------------------------------------------------
-- Bytes taken and bytes left
-- ---------------------------------------------------------------------------

/-- The addresses of a segment. -/
def segBytes (seg : Nat × Nat) : List Nat := List.range' seg.1 seg.2

/-- The addresses of an element's out segments, in order. -/
def elemBytes (e : Elem) : List Nat := e.outSg.flatMap segBytes

/-- What is left of the segments, the first of them from an offset on. -/
def restBytes : List (Nat × Nat) → Nat → List Nat
  | [], _ => []
  | (base, len) :: segs, off => List.range' (base + off) (len - off) ++ segs.flatMap segBytes

theorem restBytes_zero (segs : List (Nat × Nat)) : restBytes segs 0 = segs.flatMap segBytes := by
  cases segs with
  | nil => rfl
  | cons seg segs => rfl

/-- A callback that notes what it took: the first `ret` bytes of what it was offered. -/
def noted (haveData : HaveData S) : HaveData (S × List Nat) := fun st base len =>
  match haveData st.1 base len with
  | (st', .error f) => ((st', st.2), .error f)
  | (st', .ok r) => ((st', st.2 ++ List.range' base r.toNat), .ok r)

/-- The contract of `have_data`: `-EAGAIN`, or how many of the bytes were consumed. -/
def Contract (haveData : HaveData S) : Prop :=
  ∀ st base len, ∃ st' r, haveData st base len = (st', .ok r) ∧ (r = -EAGAIN ∨ 0 ≤ r ∧ r ≤ len)

/-- How the callback settles the segments of an element: it takes all of them and leaves the
port as it is not throttled, or the first one it does not take in full leaves the port
throttled. -/
def Settles (haveData : HaveData S) (throttled : S → Bool) : List (Nat × Nat) → Nat → S → Prop
  | [], _, st => throttled st = false
  | (base, len) :: segs, off, st =>
    match haveData st (base + off) (len - off) with
    | (_, .error _) => False
    | (st', .ok r) =>
      if r = (len - off : Nat) then Settles haveData throttled segs 0 st' else throttled st' = true

instance decidableSettles (haveData : HaveData S) (throttled : S → Bool) :
    (segs : List (Nat × Nat)) → (off : Nat) → (st : S) →
      Decidable (Settles haveData throttled segs off st)
  | [], _, st => inferInstanceAs (Decidable (throttled st = false))
  | (base, len) :: segs, off, st =>
    match hCall : haveData st (base + off) (len - off) with
    | (_, .error _) => isFalse (by rw [Settles, hCall]; exact id)
    | (st', .ok r) =>
      have := decidableSettles haveData throttled segs 0 st'
      decidable_of_iff
        (if r = (len - off : Nat) then Settles haveData throttled segs 0 st' else throttled st' = true)
        (by rw [Settles, hCall])

/-- One pass over the segments: all of them taken, with the port not throttled, or broken off
in a segment with the port throttled; what was taken and what is left are the segments. -/
theorem flushSegs_noted {haveData : HaveData S} (hContract : Contract haveData) {throttled : S → Bool}
    {segs : List (Nat × Nat)} {off : Nat} {st : S} (hSettles : Settles haveData throttled segs off st)
    (i : Nat) (log : List Nat) :
    ∃ st' taken r, flushSegs (noted haveData) segs i off (st, log) = ((st', log ++ taken), .ok r) ∧
      ((r = none ∧ throttled st' = false ∧ taken = restBytes segs off) ∨
        ∃ k off', r = some (i + k, off') ∧ k < segs.length ∧ throttled st' = true ∧
          taken ++ restBytes (segs.drop k) off' = restBytes segs off) := by
  induction segs generalizing off st i log with
  | nil => exact ⟨st, [], none, by simp [flushSegs], .inl ⟨rfl, hSettles, rfl⟩⟩
  | cons seg segs ih =>
    obtain ⟨base, len⟩ := seg
    obtain ⟨st', r, hCall, hAnswer⟩ := hContract st (base + off) (len - off)
    rw [Settles, hCall] at hSettles
    rw [flushSegs, noted, hCall]
    simp only at hSettles ⊢
    have hEagain : (0 : Int) < EAGAIN := by decide
    have hNoAbort : ¬ (r < 0 ∧ r ≠ -EAGAIN) := by
      rintro ⟨hNeg, hNe⟩
      rcases hAnswer with rfl | ⟨hPos, _⟩
      · exact hNe rfl
      · omega
    rw [if_neg hNoAbort]
    by_cases hFull : r = (len - off : Nat)
    · -- the whole segment was taken
      rw [if_pos hFull] at hSettles
      have hGo : ¬ (r = -EAGAIN ∨ 0 ≤ r ∧ r < (len - off : Nat)) := by omega
      rw [if_neg hGo]
      obtain ⟨st'', taken, r', hRest, hEnd⟩ :=
        ih hSettles (i + 1) (log ++ List.range' (base + off) r.toNat)
      refine ⟨st'', List.range' (base + off) r.toNat ++ taken, r', ?_, ?_⟩
      · rw [hRest, List.append_assoc]
      have hSeg : List.range' (base + off) r.toNat = List.range' (base + off) (len - off) := by
        rw [hFull, Int.toNat_natCast]
      rcases hEnd with ⟨rfl, hThr, rfl⟩ | ⟨k, off', rfl, hk, hThr, hSplit⟩
      · refine .inl ⟨rfl, hThr, ?_⟩
        rw [restBytes_zero, hSeg]
        rfl
      · refine .inr ⟨k + 1, off', by rw [Nat.add_comm k 1, Nat.add_assoc], Nat.succ_lt_succ hk, hThr, ?_⟩
        rw [List.drop_succ_cons, List.append_assoc, hSplit, restBytes_zero, hSeg]
        rfl
    · -- the loop breaks off here
      rw [if_neg hFull] at hSettles
      have hStop : r = -EAGAIN ∨ 0 ≤ r ∧ r < (len - off : Nat) := by omega
      rw [if_pos hStop]
      refine ⟨st', List.range' (base + off) r.toNat, _, rfl,
        .inr ⟨0, off + r.toNat, ?_, Nat.succ_pos _, hSettles, ?_⟩⟩
      · congr 2
        split
        · rfl
        · omega
      · have hPart : r.toNat ≤ len - off := by omega
        rw [List.drop_zero]
        simp only [restBytes]
        rw [← List.append_assoc, ← Nat.add_assoc, Nat.sub_add_eq, List.range'_append_1]
        congr 2
        omega

-- ---------------------------------------------------------------------------
-- One turn of the loop
-- ---------------------------------------------------------------------------

/-- The element left off mid-way. -/
def Flush.current (p : Flush S) : List Elem := if p.outNum = 0 then [] else [p.elem]

/-- Every element that was offered is returned, left off mid-way or still queued, in this
order; the bytes taken so far are those of the returned elements, each once and in order, and a
part of the one left off mid-way whose other part is what the loop will go on with. -/
structure Accounted (offered : List Elem) (p : Flush (S × List Nat)) : Prop where
  shape : p.outNum = 0 ∨ p.outNum = p.elem.outSg.length
  elements : p.ovq.used ++ (p.current ++ p.ovq.avail) = offered
  bytes : ∃ taken, p.st.2 = p.ovq.used.flatMap elemBytes ++ taken ∧
    taken ++ restBytes p.segs p.iovOffset = p.current.flatMap elemBytes

/-- With nothing left off mid-way, what was taken is what was returned. -/
theorem Accounted.bytes_of_idle {offered : List Elem} {p : Flush (S × List Nat)}
    (h : Accounted offered p) (hIdle : p.outNum = 0) : p.st.2 = p.ovq.used.flatMap elemBytes := by
  obtain ⟨taken, hLog, hSplit⟩ := h.bytes
  have hNone : p.current = [] := if_pos hIdle
  rw [hNone, List.flatMap_nil, List.append_eq_nil_iff] at hSplit
  rw [hLog, hSplit.1, List.append_nil]

/-- The element a turn works on: the one left off, or the next one of the queue. -/
theorem pop_accounted {offered : List Elem} {p q : Flush (S × List Nat)} (h : Accounted offered p)
    (hPop : p.pop = some q) :
    q.st = p.st ∧ q.outNum = q.elem.outSg.length ∧ q.ovq.used ++ q.elem :: q.ovq.avail = offered ∧
      ∃ taken, q.st.2 = q.ovq.used.flatMap elemBytes ++ taken ∧
        taken ++ restBytes q.segs q.iovOffset = elemBytes q.elem := by
  unfold Flush.pop at hPop
  by_cases hMid : p.outNum = 0
  · rw [if_neg (not_not.mpr hMid)] at hPop
    cases hAvail : p.ovq.avail with
    | nil => simp [hAvail] at hPop
    | cons e rest =>
      rw [hAvail] at hPop
      obtain rfl := Option.some.inj hPop
      refine ⟨rfl, rfl, ?_, [], ?_, ?_⟩
      · have hNone : p.current = [] := if_pos hMid
        have hAll := h.elements
        rwa [hNone, hAvail, List.nil_append] at hAll
      · rw [List.append_nil]
        exact h.bytes_of_idle hMid
      · simp [Flush.segs, restBytes_zero, elemBytes]
  · rw [if_pos hMid] at hPop
    obtain rfl := Option.some.inj hPop
    have hOne : p.current = [p.elem] := if_neg hMid
    refine ⟨rfl, h.shape.resolve_left hMid, ?_, ?_⟩
    · have hAll := h.elements
      rwa [hOne] at hAll
    · obtain ⟨taken, hLog, hSplit⟩ := h.bytes
      rw [hOne, List.flatMap_singleton] at hSplit
      exact ⟨taken, hLog, hSplit⟩

/-- If a turn works on an element, the callback settles it. -/
def TurnSettles (haveData : HaveData S) (throttled : S → Bool) (p : Flush (S × List Nat)) : Prop :=
  throttled p.st.1 = false → ∀ q, p.pop = some q →
    Settles haveData throttled q.segs q.iovOffset q.st.1

instance (haveData : HaveData S) (throttled : S → Bool) (p : Flush (S × List Nat)) :
    Decidable (TurnSettles haveData throttled p) :=
  match hPop : p.pop with
  | none => isTrue fun _ q hq => absurd (hPop.symm.trans hq) (by simp)
  | some q =>
    decidable_of_iff (throttled p.st.1 = false → Settles haveData throttled q.segs q.iovOffset q.st.1)
      ⟨fun h hThr _ hq => Option.some.inj (hPop.symm.trans hq) ▸ h hThr, fun h hThr => h hThr q hPop⟩

/-- A turn that settles accounts for every byte. -/
theorem turn_accounted {haveData : HaveData S} (hContract : Contract haveData) {throttled : S → Bool}
    {offered : List Elem} {p : Flush (S × List Nat)} (h : Accounted offered p)
    (hSettles : TurnSettles haveData throttled p) :
    ∃ q, flushLoop (noted haveData) (fun st => throttled st.1) 1 p = (q, none) ∧
      Accounted offered q := by
  by_cases hThr : throttled p.st.1 = true
  · exact ⟨p, flushLoop_throttled hThr 1, h⟩
  have hOff : throttled p.st.1 = false := Bool.eq_false_iff.mpr hThr
  cases hPop : p.pop with
  | none => exact ⟨p, flushLoop_drained hPop 1, h⟩
  | some q =>
    obtain ⟨_, hNum, hAll, taken, hLog, hSplit⟩ := pop_accounted h hPop
    obtain ⟨st', more, r, hSegs, hEnd⟩ :=
      flushSegs_noted hContract (hSettles hOff q hPop) q.iovIdx q.st.2
    refine ⟨_, flushLoop_one hOff hPop hSegs, ?_⟩
    rcases hEnd with ⟨rfl, hIdle, rfl⟩ | ⟨k, off', rfl, hk, hOn, hRest⟩
    · -- everything was taken: the element is returned
      have hPush : ¬ throttled st' = true := by simp [hIdle]
      rw [if_neg hPush]
      refine ⟨.inl rfl, ?_, [], ?_, ?_⟩
      · simpa [Flush.push, Flush.resume, Flush.current] using hAll
      · simp [Flush.push, Flush.resume, hLog, hSplit]
      · simp [Flush.push, Flush.resume, Flush.current, Flush.segs, restBytes]
    · -- broken off: the element is kept, with the place to go on from
      have hSome : q.outNum ≠ 0 := by
        intro hZero
        simp [Flush.segs, hZero] at hk
      rw [if_pos hOn]
      refine ⟨.inr hNum, ?_, taken ++ more, ?_, ?_⟩
      · simpa [Flush.resume, Flush.current, hSome] using hAll
      · simp [Flush.resume, hLog]
      · have hDrop : (q.elem.outSg.take q.outNum).drop (q.iovIdx + k) = q.segs.drop k := by
          rw [Flush.segs, List.drop_drop]
        show (taken ++ more) ++ restBytes ((q.elem.outSg.take q.outNum).drop (q.iovIdx + k)) off' =
          (if q.outNum = 0 then [] else [q.elem]).flatMap elemBytes
        rw [hDrop, if_neg hSome, List.flatMap_singleton, List.append_assoc, hRest, hSplit]

-- ---------------------------------------------------------------------------
-- Notifications
-- ---------------------------------------------------------------------------

/-- Every turn of the loop settles, in the state it starts from. -/
def LoopSettles (haveData : HaveData S) (throttled : S → Bool) : Nat → Flush (S × List Nat) → Prop
  | 0, _ => True
  | fuel + 1, p =>
    TurnSettles haveData throttled p ∧
      LoopSettles haveData throttled fuel
        (flushLoop (noted haveData) (fun st => throttled st.1) 1 p).1

instance decidableLoopSettles (haveData : HaveData S) (throttled : S → Bool) :
    (fuel : Nat) → (p : Flush (S × List Nat)) → Decidable (LoopSettles haveData throttled fuel p)
  | 0, _ => isTrue trivial
  | fuel + 1, p =>
    have := decidableLoopSettles haveData throttled fuel
      (flushLoop (noted haveData) (fun st => throttled st.1) 1 p).1
    inferInstanceAs (Decidable (_ ∧ _))

theorem flushLoop_accounted {haveData : HaveData S} (hContract : Contract haveData)
    {throttled : S → Bool} {offered : List Elem} (fuel : Nat) {p : Flush (S × List Nat)}
    (h : Accounted offered p) (hSettles : LoopSettles haveData throttled fuel p) :
    ∃ q, flushLoop (noted haveData) (fun st => throttled st.1) fuel p = (q, none) ∧
      Accounted offered q := by
  induction fuel generalizing p with
  | zero => exact ⟨p, rfl, h⟩
  | succ fuel ih =>
    obtain ⟨q, hTurn, hNext⟩ := turn_accounted hContract h hSettles.1
    have hRest := hSettles.2
    rw [hTurn] at hRest
    rw [flushLoop_succ, hTurn]
    exact ih hNext hRest

/-- A port that is flushed, and the elements the guest has queued so far. -/
structure Notified (S : Type) where
  port : Flush (S × List Nat)
  offered : List Elem

/-- The guest queues an element, it notifies, or something else changes the callback's state
(a chardev that can be written again, a port that is throttled or not). -/
inductive FlushEvent (S : Type)
  | queue (e : Elem)
  | notify
  | change (st : S)

def notifiedStep (haveData : HaveData S) (throttled : S → Bool) (s : Notified S) :
    FlushEvent S → Option (Notified S)
  | .queue e =>
    some ⟨{ s.port with ovq := { s.port.ovq with avail := s.port.ovq.avail ++ [e] } },
      s.offered ++ [e]⟩
  | .notify =>
    match doFlushQueuedData (noted haveData) (fun st => throttled st.1) s.port with
    | (p, none) => some { s with port := p }
    | (_, some _) => none
  | .change st => some { s with port := { s.port with st := (st, s.port.st.2) } }

/-- The queue as it is before the first notification. -/
def unflushed (st : S) (avail : List Elem) : Notified S :=
  ⟨⟨(st, []), ⟨true, avail, []⟩, ⟨0, []⟩, 0, 0, 0⟩, avail⟩

/-- A notification settles if every turn of its flush does. -/
def NotifySettles (haveData : HaveData S) (throttled : S → Bool) (s : Notified S) :
    FlushEvent S → Prop
  | .notify => LoopSettles haveData throttled (s.port.ovq.avail.length + 2) s.port
  | _ => True

instance (haveData : HaveData S) (throttled : S → Bool) (s : Notified S) (e : FlushEvent S) :
    Decidable (NotifySettles haveData throttled s e) :=
  match e with
  | .queue _ => isTrue trivial
  | .notify => inferInstanceAs (Decidable (LoopSettles haveData throttled _ s.port))
  | .change _ => isTrue trivial

theorem notifiedStep_accounted {haveData : HaveData S} (hContract : Contract haveData)
    {throttled : S → Bool} {s s' : Notified S} {e : FlushEvent S} (h : Accounted s.offered s.port)
    (hSettles : NotifySettles haveData throttled s e)
    (hStep : notifiedStep haveData throttled s e = some s') : Accounted s'.offered s'.port := by
  cases e with
  | queue e =>
    obtain rfl := Option.some.inj hStep
    refine ⟨h.shape, ?_, h.bytes⟩
    show s.port.ovq.used ++ (s.port.current ++ (s.port.ovq.avail ++ [e])) = s.offered ++ [e]
    rw [← h.elements]
    simp
  | notify =>
    obtain ⟨q, hFlush, hNext⟩ := flushLoop_accounted hContract _ h hSettles
    simp only [notifiedStep, doFlushQueuedData, hFlush, Option.some.injEq] at hStep
    obtain rfl := hStep
    exact hNext
  | change st =>
    obtain rfl := Option.some.inj hStep
    exact ⟨h.shape, h.elements, h.bytes⟩

/-- **Nothing is dropped.** For a callback that keeps the contract, any contents of the out
queue and any sequence of notifications whose turns all settle: an element is returned only
after each of its bytes was taken, once and in order, and the bytes not taken yet are what the
loop will go on with. -/
theorem notified_accounted {haveData : HaveData S} (hContract : Contract haveData)
    (throttled : S → Bool) (st : S) (avail : List Elem) {es : List (FlushEvent S)} {s : Notified S}
    (hSettles : Transition.Along (notifiedStep haveData throttled) (NotifySettles haveData throttled)
      (unflushed st avail) es)
    (hRun : Transition.run (notifiedStep haveData throttled) (unflushed st avail) es = some s) :
    Accounted s.offered s.port := by
  have hStart : Accounted (unflushed st avail).offered (unflushed st avail).port :=
    ⟨.inl rfl, rfl, [], rfl, rfl⟩
  exact Transition.run_invariant (fun _ _ _ => notifiedStep_accounted hContract) hStart hSettles hRun

/-- A callback that takes one byte at a time; `throttles` is whether it then throttles the port
when there was more. Its state is the port's flag. -/
def oneByte (throttles : Bool) : HaveData Bool := fun _ _ len =>
  (throttles && decide (1 < len), .ok (min 1 len : Nat))

theorem oneByte_contract (throttles : Bool) : Contract (oneByte throttles) := by
  intro st base len
  refine ⟨_, _, rfl, .inr ⟨Int.natCast_nonneg _, ?_⟩⟩
  exact Int.ofNat_le.mpr (Nat.min_le_right 1 len)

/-- Two bytes in two notifications: the port is throttled after the first byte, and the element
is returned after the second. -/
theorem notified_accounted_two :
    (Transition.run (notifiedStep (oneByte true) id) (unflushed false [⟨7, [(10, 2)]⟩])
        [.notify, .change false, .notify]).map (fun s => (s.port.st.2, s.port.ovq.used)) =
      some ([10, 11], [⟨7, [(10, 2)]⟩]) ∧
      ∀ s, Transition.run (notifiedStep (oneByte true) id) (unflushed false [⟨7, [(10, 2)]⟩])
        [.notify, .change false, .notify] = some s → Accounted s.offered s.port :=
  ⟨by decide, fun _ hRun =>
    notified_accounted (oneByte_contract true) id false _ (by decide) hRun⟩

/-- The same callback, leaving it to the loop to throttle the port: the element is returned with
one of its two bytes taken. -/
theorem partial_answer_lost :
    Contract (oneByte false) ∧
      ∃ s, Transition.run (notifiedStep (oneByte false) id) (unflushed false [⟨7, [(10, 2)]⟩])
          [.notify] = some s ∧ s.port.ovq.used = [⟨7, [(10, 2)]⟩] ∧ s.port.st.2 = [10] ∧
        ¬ Accounted s.offered s.port := by
  refine ⟨oneByte_contract false, _, rfl, rfl, rfl, fun h => ?_⟩
  exact absurd (h.bytes_of_idle rfl) (by decide)

end VirtioCrypto.Host
