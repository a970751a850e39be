import VirtioCrypto.Host.RingQueue

/-!
# Host — interrupts for a queue

When QEMU tells the guest that it has used buffers (`vring_notify`). With
`VIRTIO_RING_F_EVENT_IDX` the guest publishes behind the available ring the used index it
wants to hear about, and QEMU compares it with the indices it has and had; otherwise a flag of
the available ring says whether the guest wants to hear anything.

The guest side waits in three steps, in the order the header prescribes: it asks for the
interrupt (`arm`), looks once more at the used index (`check`), and only sleeps if there is
nothing. While it is awake it may ask for quiet again (`disarm`). The host pushes and notifies
whenever it likes.

* `Waiting.ring` — the two indices of the used ring are the numbers of entries pushed and
  collected modulo `2^16`, and `signalled_used_valid` says that fewer than `2^15` entries have
  been pushed since the last notification;
* `Waiting.notify` — so the comparison of the indices decides rightly whether a guest that
  asked has something to hear;
* `run_no_lost_wakeup` — a guest that sleeps with no interrupt on its way has missed nothing the
  host has announced.
-/

namespace VirtioCrypto.Host.Notify

open Octets Transition Vring RingQueue

/-- `vring_need_event`. -/
def vringNeedEvent (event new old : Nat) : Bool := uint16 (new - event - 1) < uint16 (new - old)

/-- `vring_notify`: whether to raise an interrupt. -/
def vringNotify (features : Features) (m : Memory) (vq : VirtQueue) : Bool × VirtQueue :=
  if features.notifyOnEmpty && vq.inuse == 0 && vringAvailIdx m vq.vring == vq.lastAvailIdx then
    (true, vq)
  else if !features.eventIdx then (!(vringAvailFlags m vq.vring).testBit 0, vq)
  else
    (!vq.signalledUsedValid ||
        vringNeedEvent (vringUsedEvent m vq.vring) (vringUsedIdx m vq.vring) vq.signalledUsed,
      { vq with signalledUsedValid := true, signalledUsed := vringUsedIdx m vq.vring })

/-- The queue, an interrupt on its way, and the guest: `armed` once it has asked for the
interrupt since it last collected anything. `announced` is how much had been pushed when the
host last notified. -/
structure State where
  ring : System
  irq : Bool
  armed : Bool
  asleep : Bool
  announced : Nat

inductive Event
  | ring (e : RingQueue.Event)
  | notify
  | arm
  | disarm
  | check
  | interrupt

/-- The guest asks for an interrupt: with the index of the next entry it expects, or by
clearing the flag. -/
def arm (features : Features) (s : System) : Memory :=
  if features.eventIdx then
    s.mem.stw (s.vq.vring.avail + RING_OFF + 2 * s.vq.vring.num) s.lastUsed
  else s.mem.stw s.vq.vring.avail 0

/-- The guest asks for quiet: it sets `VRING_AVAIL_F_NO_INTERRUPT`. -/
def disarm (s : System) : Memory := s.mem.stw s.vq.vring.avail 1

/-- The guest's other stores leave the flags and `used_event` alone, and it collects nothing in
its sleep. -/
def Allowed (s : State) : RingQueue.Event → Prop
  | .store a bs => a + bs.length ≤ s.ring.vq.vring.avail ∨
      s.ring.vq.vring.avail + RING_OFF + 2 * s.ring.vq.vring.num + 2 ≤ a
  | .collect => s.asleep = false
  | _ => True

instance (s : State) : (e : RingQueue.Event) → Decidable (Allowed s e)
  | .store _ _ => inferInstanceAs (Decidable (_ ∨ _))
  | .collect => inferInstanceAs (Decidable (s.asleep = false))
  | .publish _ => .isTrue trivial
  | .pop => .isTrue trivial
  | .push _ _ => .isTrue trivial
  | .bounce _ => .isTrue trivial

/-- Whether the guest looks into the used ring. -/
def collects : RingQueue.Event → Bool
  | .collect => true
  | _ => false

variable (features : Features) (pm : PhysMap)

def step (s : State) : Event → Option State
  | .ring e =>
    if Allowed s e then
      (RingQueue.step features pm s.ring e).map fun ring =>
        { s with ring := ring, armed := s.armed && !collects e }
    else none
  | .notify =>
    let r := vringNotify features s.ring.mem s.ring.vq
    some { s with
      ring := { s.ring with vq := r.2 }
      irq := s.irq || r.1
      announced := s.ring.pushed.length }
  | .arm =>
    if s.asleep then none
    else some { s with ring := { s.ring with mem := arm features s.ring }, armed := true }
  | .disarm =>
    if s.asleep then none
    else some { s with ring := { s.ring with mem := disarm s.ring }, armed := false }
  | .check =>
    if s.armed then
      some { s with
        asleep := vringUsedIdx s.ring.mem s.ring.vq.vring == s.ring.lastUsed
        armed := vringUsedIdx s.ring.mem s.ring.vq.vring == s.ring.lastUsed }
    else none
  | .interrupt =>
    if s.irq then some { s with irq := false, armed := false, asleep := false } else none

/-- A queue just set up, nobody waiting. -/
def fresh (mem : Memory) (num pa : Nat) : State := ⟨RingQueue.fresh mem num pa, false, false, false, 0⟩

-- ---------------------------------------------------------------------------
-- The indices as counters
-- ---------------------------------------------------------------------------

variable {features pm} {r r' : System} {s s' : State}

theorem near_of_holding {av : List Nat} {us : List (Nat × Nat)} (h : Holding r av us) :
    r.collected.length ≤ r.pushed.length ∧ r.pushed.length < r.collected.length + 65536 := by
  have hLen := h.length_le
  have hLt := h.sizes.lt
  rw [← h.collected, List.length_append]
  omega

/-- What a step of the ring does to the used index and to what a notification looks at. -/
structure Effect (r r' : System) (pushes : Nat) : Prop where
  vring : r'.vq.vring = r.vq.vring
  signalled : r'.vq.signalledUsed = r.vq.signalledUsed
  pushed : r'.pushed.length = r.pushed.length + pushes
  used : vringUsedIdx r'.mem r.vq.vring = (vringUsedIdx r.mem r.vq.vring + pushes) % 65536
  flags : vringAvailFlags r'.mem r.vq.vring = vringAvailFlags r.mem r.vq.vring
  event : vringUsedEvent r'.mem r.vq.vring = vringUsedEvent r.mem r.vq.vring
  valid : r'.vq.signalledUsedValid = true → r.vq.signalledUsedValid = true ∧
    (pushes = 1 → 1 ≤ int16 (vringUsedIdx r'.mem r.vq.vring - r.vq.signalledUsed))
  few : pushes ≤ 1

/-- A step that writes neither the used index nor what a notification looks at. -/
theorem Effect.of_within {lo hi : Nat} (hWithin : r.mem.Within r'.mem lo hi)
    (hFlags : r.vq.vring.avail + 2 ≤ lo ∨ hi ≤ r.vq.vring.avail)
    (hEvent : r.vq.vring.avail + RING_OFF + 2 * r.vq.vring.num + 2 ≤ lo ∨
      hi ≤ r.vq.vring.avail + RING_OFF + 2 * r.vq.vring.num)
    (hUsed : r.vq.vring.used + 4 ≤ lo ∨ hi ≤ r.vq.vring.used + 2)
    (hVring : r'.vq.vring = r.vq.vring) (hSignalled : r'.vq.signalledUsed = r.vq.signalledUsed)
    (hPushed : r'.pushed = r.pushed)
    (hValid : r'.vq.signalledUsedValid = r.vq.signalledUsedValid) : Effect r r' 0 where
  vring := hVring
  signalled := hSignalled
  pushed := by rw [hPushed, Nat.add_zero]
  used := by
    have hLt := Memory.lduw_lt r.mem (r.vq.vring.used + 2)
    rw [Nat.add_zero, Nat.mod_eq_of_lt (show vringUsedIdx r.mem r.vq.vring < 65536 from hLt)]
    exact hWithin.lduw (by omega)
  flags := hWithin.lduw hFlags
  event := hWithin.lduw hEvent
  valid := by
    intro h
    exact ⟨hValid ▸ h, fun hOne => absurd hOne (by decide)⟩
  few := Nat.zero_le 1

/-- A step that writes nothing. -/
theorem Effect.of_eq (hMem : r'.mem = r.mem) (hVq : r'.vq = r.vq) (hPushed : r'.pushed = r.pushed) :
    Effect r r' 0 := by
  have hWithin : r.mem.Within r'.mem 0 0 := hMem ▸ Memory.within_refl _ 0 0
  exact .of_within hWithin (.inr (Nat.zero_le _)) (.inr (Nat.zero_le _)) (.inr (Nat.zero_le _))
    (hVq ▸ rfl) (hVq ▸ rfl) hPushed (hVq ▸ rfl)

theorem effect_push {av : List Nat} {us : List (Nat × Nat)} (hHold : Holding r av us) {k len : Nat}
    {elem : VirtQueueElement} (hElem : r.inflight[k]? = some elem) (hLen : len < 4294967296) :
    Effect r { r with
      mem := (virtqueuePush r.mem r.vq elem len).1
      vq := (virtqueuePush r.mem r.vq elem len).2
      bounced := virtqueueUnmap r.bounced elem
      inflight := r.inflight.eraseIdx k
      pushed := r.pushed ++ [(elem.index, len)] } 1 where
  vring := rfl
  signalled := rfl
  pushed := by rw [List.length_append, List.length_singleton]
  used := (used_push hHold.apart (hHold.index_lt hElem) hLen).2
  flags := by
    have hAvail := hHold.apart.availUsed
    unfold RING_OFF at hAvail
    exact (virtqueuePush_within hHold.apart.pos elem len).lduw (by omega)
  event := by
    have hAvail := hHold.apart.availUsed
    unfold RING_OFF at hAvail
    exact (virtqueuePush_within hHold.apart.pos elem len).lduw (by unfold RING_OFF; omega)
  valid := by
    intro hValid
    have hUsed := (used_push hHold.apart (hHold.index_lt hElem) hLen).2
    have hNew : uint16 (vringUsedIdx r.mem r.vq.vring + 1) =
        (vringUsedIdx r.mem r.vq.vring + 1) % 65536 := by
      unfold uint16
      omega
    have hStep : uint16 (((vringUsedIdx r.mem r.vq.vring + 1) % 65536 : Nat) -
        vringUsedIdx r.mem r.vq.vring) = 1 := by
      unfold uint16
      omega
    simp only [virtqueuePush, virtqueueFlush, usedIdx_virtqueueFill hHold.apart.pos,
      Nat.cast_one, hNew, hStep, Bool.and_eq_true, Bool.not_eq_true', decide_eq_false_iff_not,
      not_lt] at hValid
    refine ⟨hValid.1, fun _ => ?_⟩
    show 1 ≤ int16 (vringUsedIdx (virtqueuePush r.mem r.vq elem len).1 r.vq.vring - _)
    rw [hUsed]
    exact hValid.2
  few := Nat.le_refl 1

/-- Every step of the ring is one or the other. -/
theorem effect_of_step {e : RingQueue.Event} (hSound : Sound s.ring) (hAllowed : Allowed s e)
    (h : RingQueue.step features pm s.ring e = some r') : ∃ pushes, Effect s.ring r' pushes := by
  obtain ⟨av, us, hHold⟩ := hSound
  have hAvail := hHold.apart.availUsed
  cases e with
  | publish head =>
    obtain ⟨⟨hHead, hNew⟩, hNext⟩ := Option.ite_none_right_eq_some.mp h
    cases hNext
    have hWithin := publish_within hHold.apart s.ring.mem head
    unfold RING_OFF at hAvail hWithin
    exact ⟨0, .of_within hWithin (.inl (by omega)) (.inr (by unfold RING_OFF; omega))
      (.inr (by omega)) rfl rfl rfl rfl⟩
  | store a bs =>
    obtain ⟨⟨hElse, hElse'⟩, hNext⟩ := Option.ite_none_right_eq_some.mp h
    cases hNext
    have hWithin := (Memory.within_refl s.ring.mem a (a + bs.length)).store (Nat.le_refl a)
      (Nat.le_refl (a + bs.length))
    have hAllowed' : a + bs.length ≤ s.ring.vq.vring.avail ∨
      s.ring.vq.vring.avail + RING_OFF + 2 * s.ring.vq.vring.num + 2 ≤ a := hAllowed
    unfold RING_OFF at hAvail hElse hElse' hAllowed'
    exact ⟨0, .of_within hWithin (by omega) (by unfold RING_OFF; omega) (by omega) rfl rfl rfl rfl⟩
  | pop =>
    simp only [RingQueue.step] at h
    split at h
    · cases h
    · cases h
      exact ⟨0, .of_eq rfl rfl rfl⟩
    · rename_i elem mem vq bounced hPop
      cases h
      obtain ⟨-, -, rfl, rfl, -⟩ := virtqueuePop_ok hPop
      have hWithin := takeHead_within features s.ring.mem s.ring.vq
      unfold usedEntry RING_OFF at hWithin
      unfold RING_OFF at hAvail
      exact ⟨0, .of_within hWithin (.inl (by omega)) (.inl (by unfold RING_OFF; omega))
        (.inl (by omega)) rfl rfl rfl rfl⟩
  | push k len =>
    obtain ⟨hLen, hNext⟩ := Option.ite_none_right_eq_some.mp h
    obtain ⟨elem, hElem, rfl⟩ := Option.map_eq_some_iff.mp hNext
    exact ⟨1, effect_push hHold hElem hLen⟩
  | collect =>
    simp only [RingQueue.step] at h
    split at h
    · cases h
      exact ⟨0, .of_eq rfl rfl rfl⟩
    · cases h
      exact ⟨0, .of_eq rfl rfl rfl⟩
  | bounce taken =>
    obtain ⟨-, hNext⟩ := Option.ite_none_right_eq_some.mp h
    cases hNext
    exact ⟨0, .of_eq rfl rfl rfl⟩

/-- Only collecting moves the guest's index, by the number of entries it takes. -/
theorem collected_of_step {e : RingQueue.Event} (h : RingQueue.step features pm r e = some r') :
    ∃ taken, r'.collected.length = r.collected.length + taken ∧
      r'.lastUsed % 65536 = (r.lastUsed + taken) % 65536 ∧ (e ≠ .collect → taken = 0) := by
  cases e with
  | publish head =>
    obtain ⟨-, hNext⟩ := Option.ite_none_right_eq_some.mp h
    cases hNext
    exact ⟨0, rfl, rfl, fun _ => rfl⟩
  | store a bs =>
    obtain ⟨-, hNext⟩ := Option.ite_none_right_eq_some.mp h
    cases hNext
    exact ⟨0, rfl, rfl, fun _ => rfl⟩
  | pop =>
    simp only [RingQueue.step] at h
    split at h <;> cases h <;> exact ⟨0, rfl, rfl, fun _ => rfl⟩
  | push k len =>
    obtain ⟨-, hNext⟩ := Option.ite_none_right_eq_some.mp h
    obtain ⟨elem, -, rfl⟩ := Option.map_eq_some_iff.mp hNext
    exact ⟨0, rfl, rfl, fun _ => rfl⟩
  | collect =>
    simp only [RingQueue.step] at h
    split at h
    · cases h
      exact ⟨0, rfl, rfl, fun _ => rfl⟩
    · cases h
      refine ⟨1, by simp, ?_, fun hNe => absurd rfl hNe⟩
      show uint16 (r.lastUsed + 1) % 65536 = _
      unfold uint16
      omega
  | bounce taken =>
    obtain ⟨-, hNext⟩ := Option.ite_none_right_eq_some.mp h
    cases hNext
    exact ⟨0, rfl, rfl, fun _ => rfl⟩

-- ---------------------------------------------------------------------------
-- Nobody sleeps through an announcement
-- ---------------------------------------------------------------------------

/-- What the guest has asked for, where the host will look for it. -/
def Asked (features : Features) (r : System) : Prop :=
  if features.eventIdx then vringUsedEvent r.mem r.vq.vring = r.collected.length % 65536
  else (vringAvailFlags r.mem r.vq.vring).testBit 0 = false

/-- `p` is how much had been pushed when `signalled_used` was last set. While it is valid it is
exact, and a guest that sleeps with no interrupt on its way had collected all of that. -/
structure Waiting (features : Features) (p : Nat) (s : State) : Prop where
  sound : Sound s.ring
  used : vringUsedIdx s.ring.mem s.ring.vq.vring = s.ring.pushed.length % 65536
  last : s.ring.lastUsed % 65536 = s.ring.collected.length % 65536
  signalled : p ≤ s.ring.pushed.length
  valid : s.ring.vq.signalledUsedValid = true →
    s.ring.vq.signalledUsed = p % 65536 ∧ s.ring.pushed.length < p + 32768
  announced : s.announced ≤ s.ring.pushed.length
  asked : s.armed = true ∨ s.asleep = true → Asked features s.ring
  rested : s.asleep = true → s.irq = false →
    p ≤ s.ring.collected.length ∧ s.announced ≤ s.ring.collected.length

theorem Waiting.ring {p : Nat} {e : RingQueue.Event} (h : Waiting features p s)
    (hAllowed : Allowed s e) (hStep : RingQueue.step features pm s.ring e = some r') :
    Waiting features p { s with ring := r', armed := s.armed && !collects e } := by
  obtain ⟨pushes, hEff⟩ := effect_of_step h.sound hAllowed hStep
  obtain ⟨taken, hTaken, hLast, hNone⟩ := collected_of_step hStep
  have hUsed := h.used
  have hFew := hEff.few
  have hPushed := hEff.pushed
  refine ⟨h.sound.step hStep, ?_, ?_, ?_, ?_, ?_, ?_, ?_⟩
  · show vringUsedIdx r'.mem r'.vq.vring = _
    rw [hEff.vring, hEff.used, hUsed, hPushed]
    omega
  · have hOld := h.last
    show r'.lastUsed % 65536 = r'.collected.length % 65536
    omega
  · have hOld := h.signalled
    show p ≤ r'.pushed.length
    omega
  · intro hValid
    obtain ⟨hOldValid, hOne⟩ := hEff.valid hValid
    obtain ⟨hSig, hNear⟩ := h.valid hOldValid
    refine ⟨hEff.signalled.trans hSig, ?_⟩
    show r'.pushed.length < p + 32768
    rcases Nat.lt_or_ge 0 pushes with hSome | hZero
    · have hPos := hOne (by omega)
      rw [hEff.used, hUsed, hSig] at hPos
      unfold int16 at hPos
      have hOld := h.signalled
      split at hPos <;> omega
    · omega
  · have hOld := h.announced
    show s.announced ≤ r'.pushed.length
    omega
  · intro hWaits
    -- it has not collected since it asked
    have hNe : e ≠ .collect := by
      rintro rfl
      rcases hWaits with hArmed | hAsleep
      · simp [collects] at hArmed
      · exact Bool.false_ne_true (hAllowed.symm.trans hAsleep)
    have hAsked := h.asked (hWaits.imp_left fun hArmed => (Bool.and_eq_true _ _ ▸ hArmed).1)
    have hSame : r'.collected.length = s.ring.collected.length := by rw [hTaken, hNone hNe, Nat.add_zero]
    unfold Asked at hAsked ⊢
    simp only [hEff.vring, hEff.event, hEff.flags, hSame]
    exact hAsked
  · intro hAsleep hIrq
    have hRested := h.rested hAsleep hIrq
    show p ≤ r'.collected.length ∧ s.announced ≤ r'.collected.length
    omega

/-- One word the guest writes outside both rings. -/
structure Aside (r : System) (mem : Memory) : Prop where
  within : ∃ lo, r.mem.Within mem lo (lo + 2) ∧ Elsewhere r.vq.vring lo 2

theorem Aside.sound {mem : Memory} (h : Aside r mem) (hSound : Sound r) :
    Sound { r with mem := mem } ∧ vringUsedIdx mem r.vq.vring = vringUsedIdx r.mem r.vq.vring := by
  obtain ⟨av, us, hHold⟩ := hSound
  obtain ⟨lo, hWithin, hAvail, hUsed⟩ := h.within
  have hPos := hHold.apart.pos
  unfold RING_OFF at hAvail hUsed
  have hUsedIdx : vringUsedIdx mem r.vq.vring = vringUsedIdx r.mem r.vq.vring :=
    hWithin.lduw (by omega)
  refine ⟨⟨av, us, hHold.of_mem (fun i hi => ?_) ?_ (fun i hi => ?_) hUsedIdx⟩, hUsedIdx⟩
  · exact hWithin.lduw (by unfold RING_OFF; omega)
  · exact hWithin.lduw (by omega)
  · unfold usedSlot usedEntry RING_OFF
    rw [hWithin.ldl (by omega), hWithin.ldl (by omega)]

/-- Nobody sleeps while the guest writes, so only what it asks for may have changed. -/
theorem Waiting.aside {p : Nat} {mem : Memory} {armed : Bool} (h : Waiting features p s)
    (hAside : Aside s.ring mem) (hAwake : s.asleep = false)
    (hAsked : armed = true → Asked features { s.ring with mem := mem }) :
    Waiting features p { s with ring := { s.ring with mem := mem }, armed := armed } := by
  obtain ⟨hSound, hUsedIdx⟩ := hAside.sound h.sound
  refine ⟨hSound, hUsedIdx.trans h.used, h.last, h.signalled, h.valid, h.announced, ?_, ?_⟩
  · rintro (hArmed | hAsleep)
    · exact hAsked hArmed
    · exact absurd hAsleep (by simp [hAwake])
  · exact fun hAsleep => absurd hAsleep (by simp [hAwake])

theorem aside_arm (features : Features) (hApart : Apart r.vq.vring) : Aside r (arm features r) := by
  have hAvail := hApart.availUsed
  unfold RING_OFF at hAvail
  unfold arm
  split
  · refine ⟨_, (Memory.within_refl _ _ _).stw (Nat.le_refl _) (Nat.le_refl _), ?_⟩
    unfold Elsewhere RING_OFF
    omega
  · refine ⟨_, (Memory.within_refl _ _ _).stw (Nat.le_refl _) (Nat.le_refl _), ?_⟩
    unfold Elsewhere RING_OFF
    omega

theorem aside_disarm (hApart : Apart r.vq.vring) : Aside r (disarm r) := by
  have hAvail := hApart.availUsed
  unfold RING_OFF at hAvail
  refine ⟨_, (Memory.within_refl _ _ _).stw (Nat.le_refl _) (Nat.le_refl _), ?_⟩
  unfold Elsewhere RING_OFF
  omega

/-- After asking, the host finds what was asked for. -/
theorem Waiting.asked_arm {p : Nat} (h : Waiting features p s) :
    Asked features { s.ring with mem := arm features s.ring } := by
  have hLast : s.ring.lastUsed < 65536 := by
    obtain ⟨av, us, hHold⟩ := h.sound
    exact hHold.used.head_lt hHold.sizes
  unfold Asked Notify.arm
  by_cases hEvent : features.eventIdx = true
  · simp only [hEvent, if_true]
    have hRead : vringUsedEvent (s.ring.mem.stw (s.ring.vq.vring.avail + RING_OFF +
        2 * s.ring.vq.vring.num) s.ring.lastUsed) s.ring.vq.vring = s.ring.lastUsed :=
      Memory.lduw_stw_self hLast
    have hCount := h.last
    rw [hRead]
    omega
  · simp only [hEvent, Bool.false_eq_true, if_false]
    have hRead : vringAvailFlags (s.ring.mem.stw s.ring.vq.vring.avail 0) s.ring.vq.vring = 0 :=
      Memory.lduw_stw_self (by decide)
    rw [hRead, Nat.zero_testBit]

theorem Waiting.apart {p : Nat} (h : Waiting features p s) : Apart s.ring.vq.vring := by
  obtain ⟨av, us, hHold⟩ := h.sound
  exact hHold.apart

/-- With both counters close together and the other index no older than the last signal, the
comparison modulo `2^16` is the true one. -/
theorem vringNeedEvent_iff {event new old : Nat} (hOld : old ≤ event) (hEvent : event ≤ new)
    (hNear : new < old + 32768) :
    vringNeedEvent (event % 65536) (new % 65536) (old % 65536) = true ↔ event < new := by
  unfold vringNeedEvent uint16
  rw [decide_eq_true_iff]
  omega

theorem Waiting.notify {p : Nat} (h : Waiting features p s) :
    ∃ p', Waiting features p' { s with
      ring := { s.ring with vq := (vringNotify features s.ring.mem s.ring.vq).2 }
      irq := s.irq || (vringNotify features s.ring.mem s.ring.vq).1
      announced := s.ring.pushed.length } := by
  have hLe : s.ring.collected.length ≤ s.ring.pushed.length := by
    obtain ⟨av, us, hHold⟩ := h.sound
    exact (near_of_holding hHold).1
  unfold vringNotify
  split
  · -- nothing is outstanding and the guest wants to be told
    refine ⟨p, h.sound, h.used, h.last, h.signalled, h.valid, Nat.le_refl _, h.asked, ?_⟩
    intro _ hIrq
    simp at hIrq
  · split
    · rename_i hMode
      refine ⟨p, h.sound, h.used, h.last, h.signalled, h.valid, Nat.le_refl _, h.asked, ?_⟩
      intro hAsleep hIrq
      have hAsked := h.asked (.inr hAsleep)
      have hNoEvent : features.eventIdx = false := by simpa using hMode
      unfold Asked at hAsked
      rw [hNoEvent] at hAsked
      simp only [Bool.false_eq_true, if_false] at hAsked
      simp [hAsked] at hIrq
    · rename_i hMode
      have hEvent : features.eventIdx = true := by simpa using hMode
      refine ⟨s.ring.pushed.length, ?_, h.used, h.last, Nat.le_refl _,
        fun _ => ⟨h.used, Nat.lt_add_of_pos_right (by decide)⟩, Nat.le_refl _, h.asked, ?_⟩
      · obtain ⟨av, us, hHold⟩ := h.sound
        exact ⟨av, us, hHold.apart, hHold.sizes, hHold.avail, hHold.used, hHold.given, hHold.nodup,
          hHold.lt, hHold.popped, hHold.collected⟩
      · intro hAsleep hIrq
        simp only [Bool.or_eq_false_iff, Bool.not_eq_false'] at hIrq
        obtain ⟨hIrq, hValid, hQuiet⟩ := hIrq
        obtain ⟨hSig, hNear⟩ := h.valid hValid
        obtain ⟨hRested, -⟩ := h.rested hAsleep hIrq
        have hAsked := h.asked (.inr hAsleep)
        unfold Asked at hAsked
        rw [hEvent] at hAsked
        simp only [if_true] at hAsked
        rw [hAsked, h.used, hSig, ← Bool.not_eq_true, vringNeedEvent_iff hRested hLe hNear] at hQuiet
        show s.ring.pushed.length ≤ s.ring.collected.length ∧
          s.ring.pushed.length ≤ s.ring.collected.length
        omega

/-- The last look before the guest sleeps: equal indices mean that it has collected all there
is. -/
theorem Waiting.check {p : Nat} (h : Waiting features p s) (hArmed : s.armed = true) :
    Waiting features p { s with
      asleep := vringUsedIdx s.ring.mem s.ring.vq.vring == s.ring.lastUsed
      armed := vringUsedIdx s.ring.mem s.ring.vq.vring == s.ring.lastUsed } := by
  refine ⟨h.sound, h.used, h.last, h.signalled, h.valid, h.announced,
    fun _ => h.asked (.inl hArmed), ?_⟩
  intro hAsleep _
  have hEq : vringUsedIdx s.ring.mem s.ring.vq.vring = s.ring.lastUsed := beq_iff_eq.mp hAsleep
  obtain ⟨av, us, hHold⟩ := h.sound
  obtain ⟨hLe, hNear⟩ := near_of_holding hHold
  have hUsed := h.used
  have hLast := h.last
  have hSignalled := h.signalled
  have hAnnounced := h.announced
  show p ≤ s.ring.collected.length ∧ s.announced ≤ s.ring.collected.length
  omega

theorem Waiting.step {e : Event} (h : ∃ p, Waiting features p s)
    (hStep : step features pm s e = some s') : ∃ p, Waiting features p s' := by
  obtain ⟨p, h⟩ := h
  cases e with
  | ring e =>
    obtain ⟨hAllowed, hNext⟩ := Option.ite_none_right_eq_some.mp hStep
    obtain ⟨r', hRing, rfl⟩ := Option.map_eq_some_iff.mp hNext
    exact ⟨p, h.ring hAllowed hRing⟩
  | notify =>
    obtain rfl := Option.some.inj hStep
    exact h.notify
  | arm =>
    obtain ⟨hAwake, hNext⟩ := Option.ite_none_left_eq_some.mp hStep
    obtain rfl := Option.some.inj hNext
    exact ⟨p, h.aside (aside_arm features h.apart) (by simpa using hAwake) fun _ => h.asked_arm⟩
  | disarm =>
    obtain ⟨hAwake, hNext⟩ := Option.ite_none_left_eq_some.mp hStep
    obtain rfl := Option.some.inj hNext
    exact ⟨p, h.aside (aside_disarm h.apart) (by simpa using hAwake) nofun⟩
  | check =>
    obtain ⟨hArmed, hNext⟩ := Option.ite_none_right_eq_some.mp hStep
    obtain rfl := Option.some.inj hNext
    exact ⟨p, h.check hArmed⟩
  | interrupt =>
    obtain ⟨hIrq, hNext⟩ := Option.ite_none_right_eq_some.mp hStep
    obtain rfl := Option.some.inj hNext
    refine ⟨p, h.sound, h.used, h.last, h.signalled, h.valid, h.announced, ?_, ?_⟩
    · rintro (hArmed | hAsleep)
      · exact absurd hArmed Bool.false_ne_true
      · exact absurd hAsleep Bool.false_ne_true
    · exact fun hAsleep => absurd hAsleep Bool.false_ne_true

/-- Over every run, however long: a guest that sleeps on a queue with no interrupt on its way
has collected everything the host had pushed when it last notified. So once the host has
notified after its last push, a sleeping guest has it all or is about to be woken. -/
theorem run_no_lost_wakeup {mem : Memory} {num pa : Nat} (hSizes : Ring.Sizes num 65536)
    (hAvail : vringAvailIdx mem (virtqueueInit num pa) = 0)
    (hUsed : vringUsedIdx mem (virtqueueInit num pa) = 0) {es : List Event}
    (hRun : run (Notify.step features pm) (Notify.fresh mem num pa) es = some s)
    (hAsleep : s.asleep = true) (hIrq : s.irq = false) :
    s.announced ≤ s.ring.collected.length ∧
      (s.announced = s.ring.pushed.length → s.ring.collected = s.ring.pushed) := by
  have hFresh : ∃ p, Waiting features p (Notify.fresh mem num pa) := by
    refine ⟨0, Sound.fresh hSizes hAvail hUsed, hUsed, rfl, Nat.le_refl 0, ?_, Nat.le_refl 0, ?_, ?_⟩
    · exact fun hValid => absurd hValid Bool.false_ne_true
    · rintro (hArmed | hAsleep)
      · exact absurd hArmed Bool.false_ne_true
      · exact absurd hAsleep Bool.false_ne_true
    · exact fun hAsleep => absurd hAsleep Bool.false_ne_true
  have hKeeps : ∀ s e s', (∃ p, Waiting features p s) → Notify.step features pm s e = some s' →
      ∃ p, Waiting features p s' := fun s e s' h hStep => Waiting.step h hStep
  obtain ⟨p, h⟩ := run_keeps hKeeps hFresh hRun
  obtain ⟨-, hAll⟩ := h.rested hAsleep hIrq
  refine ⟨hAll, fun hEq => ?_⟩
  obtain ⟨av, us, hHold⟩ := h.sound
  have hLen := congrArg List.length hHold.collected
  rw [List.length_append] at hLen
  have hNil : us = [] := List.length_eq_zero_iff.mp (by omega)
  rw [← hHold.collected, hNil, List.append_nil]

/-- The guest wants quiet while the host uses a buffer. With `VIRTIO_RING_F_EVENT_IDX` the first
interrupt comes unasked all the same. It then collects, asks, finds nothing more and sleeps. -/
def sleepy (eventIdx : Bool) : List Event :=
  [.ring (.store 4104 [5]), .ring (.store 4120 [6]), .ring (.publish 1), .ring (.publish 0), .ring .pop,
    .ring .pop, .disarm, .ring (.push 0 7), .notify] ++
    (if eventIdx then [.interrupt] else []) ++ [.ring .collect, .arm, .check]

/-- How the run of `sleepy` ends. -/
def sleepyEnd (eventIdx : Bool) : Option State :=
  run (Notify.step ⟨eventIdx, false⟩ sixteenPages) (Notify.fresh (fun _ => 0) 2 4096) (sleepy eventIdx)

theorem run_no_lost_wakeup_sleepy :
    (sleepyEnd true).map (fun s => (s.asleep, s.irq, s.announced, s.ring.pushed)) =
        some (true, false, 1, [(1, 7)]) ∧
      (sleepyEnd false).map (fun s => (s.asleep, s.irq, s.announced, s.ring.pushed)) =
        some (true, false, 1, [(1, 7)]) ∧
      ∀ b s, sleepyEnd b = some s → s.ring.collected = s.ring.pushed := by
  have hEnd : ∀ b, (sleepyEnd b).map (fun s => (s.asleep, s.irq, s.announced, s.ring.pushed)) =
      some (true, false, 1, [(1, 7)]) := by
    intro b
    cases b <;> decide +kernel
  refine ⟨hEnd true, hEnd false, fun b s hRun => ?_⟩
  have hHere := hEnd b
  rw [hRun] at hHere
  obtain ⟨hAsleep, hIrq, hAnnounced, hPushed⟩ : s.asleep = true ∧ s.irq = false ∧
      s.announced = 1 ∧ s.ring.pushed = [(1, 7)] := by
    simpa using hHere
  exact (run_no_lost_wakeup ⟨by decide, by decide, by decide⟩ (by decide) (by decide) hRun hAsleep
    hIrq).2 (by rw [hAnnounced, hPushed]; rfl)

end VirtioCrypto.Host.Notify
