import Mathlib.Data.List.Perm.Subperm
import VirtioCrypto.Host.Vring
import VirtioCrypto.Ring
import VirtioCrypto.Transition

/-!
# Host — a ring is two queues

Guest and host take turns at one ring in any order: the guest publishes chains and collects
what comes back, the host pops and pushes, the last in any order. The guest side keeps to the
rules of the header: it publishes a descriptor it has not given away, and it leaves the rings
alone otherwise. Its other stores (descriptors, buffers, `used_event`) are arbitrary.

Both rings are instances of `Ring`; `Sound` says which lists they hold and where every
descriptor head is.

* `Sound.step` — every step keeps that;
* `run_ring_fifo` — chains are popped in the order they were published in and come back in the
  order they were pushed in, each once, however often the indices wrap.
-/

namespace VirtioCrypto.Host.RingQueue

open Octets Transition Vring

/-- A ring, and what the two sides keep beside it. `given` are the heads the guest has
published and not got back; `bounced` says whether some device of QEMU has the bounce buffer.
The last four fields record what has happened: the heads published
with the chains they started, the elements popped, the entries pushed and collected. -/
structure System where
  mem : Memory
  vq : VirtQueue
  bounced : Bool
  lastUsed : Nat
  inflight : List VirtQueueElement
  given : List Nat
  published : List (Nat × Except Exit Sg)
  popped : List VirtQueueElement
  pushed : List (Nat × Nat)
  collected : List (Nat × Nat)

inductive Event
  | publish (head : Nat)
  | store (a : Nat) (bs : Bytes)
  | pop
  | push (k len : Nat)
  | collect
  | bounce (taken : Bool)

/-- An entry of the used ring: `id` and `len`. -/
def usedSlot (m : Memory) (r : VRing) (i : Nat) : Nat × Nat :=
  (m.ldl (usedEntry r i), m.ldl (usedEntry r i + 4))

/-- The bytes the guest may store to at any time: neither the indices and entries of the
available ring nor those of the used ring. -/
def Elsewhere (r : VRing) (a len : Nat) : Prop :=
  (a + len ≤ r.avail + 2 ∨ r.avail + RING_OFF + 2 * r.num ≤ a) ∧
    (a + len ≤ r.used + 2 ∨ r.used + RING_OFF + 8 * r.num ≤ a)

instance (r : VRing) (a len : Nat) : Decidable (Elsewhere r a len) := by
  unfold Elsewhere
  infer_instance

variable (features : Features) (pm : PhysMap)

/-- The guest makes a chain available. -/
def publish (m : Memory) (r : VRing) (head : Nat) : Memory :=
  let idx := vringAvailIdx m r
  (m.stw (r.avail + RING_OFF + 2 * (idx % r.num)) head).stw (r.avail + 2) (uint16 (idx + 1))

def step (s : System) : Event → Option System
  | .publish head =>
    if head < s.vq.vring.num ∧ head ∉ s.given then
      some { s with
        mem := publish s.mem s.vq.vring head
        given := head :: s.given
        published := s.published ++ [(head, readChain s.mem s.vq.vring head)] }
    else none
  | .store a bs =>
    if Elsewhere s.vq.vring a bs.length then some { s with mem := s.mem.store a bs } else none
  | .pop =>
    match virtqueuePop features pm s.bounced s.mem s.vq with
    -- QEMU is gone
    | .error _ => none
    | .ok none => some s
    | .ok (some (elem, mem, vq, bounced)) =>
      some { s with mem := mem, vq := vq, bounced := bounced, inflight := s.inflight ++ [elem],
                    popped := s.popped ++ [elem] }
  | .push k len =>
    if len < 4294967296 then
      s.inflight[k]?.map fun elem =>
        { s with
          mem := (virtqueuePush s.mem s.vq elem len).1
          vq := (virtqueuePush s.mem s.vq elem len).2
          bounced := virtqueueUnmap s.bounced elem
          inflight := s.inflight.eraseIdx k
          pushed := s.pushed ++ [(elem.index, len)] }
    else none
  | .collect =>
    if vringUsedIdx s.mem s.vq.vring = s.lastUsed then some s
    else
      let entry := usedSlot s.mem s.vq.vring (s.lastUsed % s.vq.vring.num)
      some { s with
        lastUsed := uint16 (s.lastUsed + 1)
        given := s.given.erase entry.1
        collected := s.collected ++ [entry] }
  | .bounce taken =>
    -- another device maps or unmaps; it cannot give back what an element of this queue has
    if s.inflight.all fun elem => virtqueueUnmap true elem then some { s with bounced := taken }
    else none

/-- A queue the guest has just set up, its ring zeroed. -/
def fresh (mem : Memory) (num pa : Nat) : System where
  mem := mem
  vq := ⟨virtqueueInit num pa, 0, 0, false, true, 0⟩
  bounced := false
  lastUsed := 0
  inflight := []
  given := []
  published := []
  popped := []
  pushed := []
  collected := []

-- ---------------------------------------------------------------------------
-- Where every head is
-- ---------------------------------------------------------------------------

/-- The available ring holds `av` and the used ring holds `us`, and the heads the guest has
given away are in one of the two or with the host. -/
structure Holding (s : System) (av : List Nat) (us : List (Nat × Nat)) : Prop where
  apart : Apart s.vq.vring
  sizes : Ring.Sizes s.vq.vring.num 65536
  avail : Ring.Holds s.vq.vring.num 65536 (vringAvailRing s.mem s.vq.vring) s.vq.lastAvailIdx
    (vringAvailIdx s.mem s.vq.vring) av
  used : Ring.Holds s.vq.vring.num 65536 (usedSlot s.mem s.vq.vring) s.lastUsed
    (vringUsedIdx s.mem s.vq.vring) us
  given : s.given.Perm (av ++ s.inflight.map (·.index) ++ us.map (·.1))
  nodup : s.given.Nodup
  lt : ∀ head ∈ s.given, head < s.vq.vring.num
  popped : s.popped.map (·.index) ++ av = s.published.map (·.1)
  collected : s.collected ++ us = s.pushed

variable {features pm} {s s' : System} {av : List Nat} {us : List (Nat × Nat)}
  {r : VRing}

theorem length_le_of_lt {heads : List Nat} {num : Nat} (hNodup : heads.Nodup)
    (hLt : ∀ head ∈ heads, head < num) : heads.length ≤ num := by
  have hSub := (hNodup.subperm fun head h => List.mem_range.mpr (hLt head h)).length_le
  rwa [List.length_range] at hSub

/-- The heads fit in the ring, wherever they are. -/
theorem Holding.length_le (h : Holding s av us) :
    av.length + s.inflight.length + us.length ≤ s.vq.vring.num := by
  have hLen := length_le_of_lt h.nodup h.lt
  rw [h.given.length_eq] at hLen
  simp only [List.length_append, List.length_map] at hLen
  exact hLen

/-- Stores that leave both rings alone. -/
theorem Holding.of_mem {mem : Memory} (h : Holding s av us)
    (hAvail : ∀ i < s.vq.vring.num, vringAvailRing mem s.vq.vring i = vringAvailRing s.mem s.vq.vring i)
    (hAvailIdx : vringAvailIdx mem s.vq.vring = vringAvailIdx s.mem s.vq.vring)
    (hUsed : ∀ i < s.vq.vring.num, usedSlot mem s.vq.vring i = usedSlot s.mem s.vq.vring i)
    (hUsedIdx : vringUsedIdx mem s.vq.vring = vringUsedIdx s.mem s.vq.vring) :
    Holding { s with mem := mem } av us where
  apart := h.apart
  sizes := h.sizes
  avail := by
    rw [hAvailIdx]
    exact h.avail.congr h.sizes hAvail
  used := by
    rw [hUsedIdx]
    exact h.used.congr h.sizes hUsed
  given := h.given
  nodup := h.nodup
  lt := h.lt
  popped := h.popped
  collected := h.collected

theorem Holding.store (h : Holding s av us) {a : Nat} {bs : Bytes}
    (hElse : Elsewhere s.vq.vring a bs.length) : Holding { s with mem := s.mem.store a bs } av us := by
  obtain ⟨hAvail, hUsed⟩ := hElse
  unfold RING_OFF at hAvail hUsed
  refine h.of_mem (fun i hi => ?_) ?_ (fun i hi => ?_) ?_
  · exact Memory.lduw_store (by unfold RING_OFF; omega)
  · exact Memory.lduw_store (by omega)
  · unfold usedSlot usedEntry RING_OFF
    rw [Memory.ldl_store (by omega), Memory.ldl_store (by omega)]
  · exact Memory.lduw_store (by omega)

/-- The entry the guest writes lands in the ring and nowhere else. -/
theorem availRing_publish (hApart : Apart r) {m : Memory} {head i : Nat} (hHead : head < 65536)
    (hi : i < r.num) :
    vringAvailRing (publish m r head) r i =
      if i = vringAvailIdx m r % r.num then head else vringAvailRing m r i := by
  have hSlot := Nat.mod_lt (vringAvailIdx m r) hApart.pos
  unfold vringAvailRing publish
  dsimp only
  generalize vringAvailIdx m r % r.num = j at hSlot ⊢
  unfold RING_OFF
  rw [Memory.lduw_stw (by omega)]
  split
  · subst i
    exact Memory.lduw_stw_self hHead
  · exact Memory.lduw_stw (by omega)

/-- Publishing writes the available ring. -/
theorem publish_within (hApart : Apart r) (m : Memory) (head : Nat) :
    m.Within (publish m r head) (r.avail + 2) (r.avail + RING_OFF + 2 * r.num) := by
  have hSlot := Nat.mod_lt (vringAvailIdx m r) hApart.pos
  unfold publish
  dsimp only
  generalize vringAvailIdx m r % r.num = j at hSlot ⊢
  unfold RING_OFF
  exact ((Memory.within_refl m _ _).stw (by omega) (by omega)).stw (by omega) (by omega)

theorem availIdx_publish {m : Memory} {head : Nat} :
    vringAvailIdx (publish m r head) r = (vringAvailIdx m r + 1) % 65536 := by
  unfold publish
  dsimp only
  generalize vringAvailIdx m r = idx
  unfold vringAvailIdx
  have hWrap : uint16 (idx + 1) = (idx + 1) % 65536 := by
    unfold uint16
    omega
  rw [hWrap, Memory.lduw_stw_self (Nat.mod_lt _ (by decide))]

theorem used_publish (hApart : Apart r) {m : Memory} {head : Nat} :
    (∀ i < r.num, usedSlot (publish m r head) r i = usedSlot m r i) ∧
      vringUsedIdx (publish m r head) r = vringUsedIdx m r := by
  have hWithin := publish_within hApart m head
  have hAvail := hApart.availUsed
  unfold RING_OFF at hWithin hAvail
  refine ⟨fun i hi => ?_, hWithin.lduw (by omega)⟩
  unfold usedSlot usedEntry RING_OFF
  rw [hWithin.ldl (by omega), hWithin.ldl (by omega)]

theorem Holding.publish (h : Holding s av us) {head : Nat} (hHead : head < s.vq.vring.num)
    (hNew : head ∉ s.given) :
    Holding { s with
      mem := publish s.mem s.vq.vring head
      given := head :: s.given
      published := s.published ++ [(head, readChain s.mem s.vq.vring head)] } (av ++ [head]) us where
  apart := h.apart
  sizes := h.sizes
  avail := by
    have hLt : head < 65536 := hHead.trans h.sizes.lt
    have hRoom : av.length < s.vq.vring.num := by
      have hLen := length_le_of_lt (List.nodup_cons.mpr ⟨hNew, h.nodup⟩)
        (fun x hx => (List.mem_cons.mp hx).elim (fun hEq => hEq ▸ hHead) (h.lt x))
      have hPerm := h.given.length_eq
      simp only [List.length_cons, List.length_append, List.length_map] at hLen hPerm
      omega
    rw [availIdx_publish]
    refine h.avail.append h.sizes hRoom ?_ fun i hi hNe => ?_
    · rw [availRing_publish h.apart hLt (Nat.mod_lt _ h.sizes.pos), if_pos rfl]
    · rw [availRing_publish h.apart hLt hi, if_neg hNe]
  used := by
    obtain ⟨hUsed, hUsedIdx⟩ := used_publish h.apart
    rw [hUsedIdx]
    exact h.used.congr h.sizes hUsed
  given := by
    have hMove : (head :: (av ++ s.inflight.map (·.index) ++ us.map (·.1))).Perm
        (av ++ [head] ++ s.inflight.map (·.index) ++ us.map (·.1)) := by
      simp only [List.append_assoc, List.singleton_append]
      exact List.perm_middle.symm
    exact (h.given.cons head).trans hMove
  nodup := List.nodup_cons.mpr ⟨hNew, h.nodup⟩
  lt := fun x hx => (List.mem_cons.mp hx).elim (fun hEq => hEq ▸ hHead) (h.lt x)
  popped := by
    rw [← List.append_assoc, h.popped]
    simp
  collected := h.collected

/-- The number of heads QEMU sees is the number of chains in the ring. -/
theorem Holding.numHeads (h : Holding s av us) :
    virtqueueNumHeads s.mem s.vq.vring s.vq.lastAvailIdx = .ok av.length := by
  have hDist := h.avail.distance h.sizes
  have hHead := h.avail.head_lt h.sizes
  have hLen := h.length_le
  have hCount : uint16 (vringAvailIdx s.mem s.vq.vring - s.vq.lastAvailIdx) = av.length := by
    unfold uint16
    omega
  unfold virtqueueNumHeads
  dsimp only
  rw [hCount, if_neg (by omega)]

/-- The head QEMU takes is the oldest one. -/
theorem Holding.getHead {head : Nat} (h : Holding s (head :: av) us) :
    virtqueueGetHead s.mem s.vq.vring s.vq.lastAvailIdx = .ok head := by
  refine virtqueueGetHead_ok.mpr ⟨(h.avail.first h.sizes).symm, h.lt head ?_⟩
  exact h.given.mem_iff.mpr (by simp)

/-- Advancing the index leaves both rings alone; `avail_event` is behind them. -/
theorem takeHead_frame (hApart : Apart s.vq.vring) :
    (∀ i < s.vq.vring.num, vringAvailRing (takeHead features s.mem s.vq).1 s.vq.vring i =
        vringAvailRing s.mem s.vq.vring i) ∧
      vringAvailIdx (takeHead features s.mem s.vq).1 s.vq.vring = vringAvailIdx s.mem s.vq.vring ∧
      (∀ i < s.vq.vring.num, usedSlot (takeHead features s.mem s.vq).1 s.vq.vring i =
        usedSlot s.mem s.vq.vring i) ∧
      vringUsedIdx (takeHead features s.mem s.vq).1 s.vq.vring = vringUsedIdx s.mem s.vq.vring := by
  have hWithin := takeHead_within features s.mem s.vq
  have hAvail := hApart.availUsed
  unfold usedEntry RING_OFF at hWithin
  unfold RING_OFF at hAvail
  refine ⟨fun i hi => hWithin.lduw ?_, hWithin.lduw ?_, fun i hi => ?_, hWithin.lduw ?_⟩
  · unfold RING_OFF
    omega
  · omega
  · unfold usedSlot usedEntry RING_OFF
    rw [hWithin.ldl (by omega), hWithin.ldl (by omega)]
  · omega

theorem Holding.pop (h : Holding s av us) {elem : VirtQueueElement} {mem : Memory} {vq : VirtQueue}
    {bounced : Bool}
    (hPop : virtqueuePop features pm s.bounced s.mem s.vq = .ok (some (elem, mem, vq, bounced))) :
    ∃ av', av = elem.index :: av' ∧
      Holding { s with mem := mem, vq := vq, bounced := bounced, inflight := s.inflight ++ [elem],
                       popped := s.popped ++ [elem] } av' us := by
  obtain ⟨⟨n, hHeads, hSome⟩, hHead, hMem, hVq, -⟩ := virtqueuePop_ok hPop
  cases av with
  | nil =>
    rw [h.numHeads] at hHeads
    exact absurd (Except.ok.inj hHeads).symm hSome
  | cons head av =>
    obtain rfl : head = elem.index := Except.ok.inj (h.getHead.symm.trans hHead)
    obtain ⟨hAvail, hAvailIdx, hUsed, hUsedIdx⟩ := @takeHead_frame features s h.apart
    subst hMem hVq
    refine ⟨av, rfl, h.apart, h.sizes, ?_, ?_, ?_, h.nodup, h.lt, ?_, h.collected⟩
    · have hNext : uint16 (s.vq.lastAvailIdx + 1) = (s.vq.lastAvailIdx + 1) % 65536 := by
        unfold uint16
        omega
      show Ring.Holds _ _ _ (uint16 (s.vq.lastAvailIdx + 1)) _ _
      rw [hNext]
      exact hAvailIdx ▸ (h.avail.take.congr h.sizes hAvail)
    · exact hUsedIdx ▸ (h.used.congr h.sizes hUsed)
    · have hMove : (av ++ s.inflight.map (·.index) ++ elem.index :: us.map (·.1)).Perm
          (elem.index :: (av ++ s.inflight.map (·.index) ++ us.map (·.1))) := List.perm_middle
      refine h.given.trans ?_
      simpa using hMove.symm
    · show (s.popped ++ [elem]).map (·.index) ++ av = s.published.map (·.1)
      rw [← h.popped]
      simp

/-- The entry the host writes lands in the used ring and nowhere else. -/
theorem used_push (hApart : Apart s.vq.vring) {elem : VirtQueueElement} {len : Nat}
    (hIndex : elem.index < 4294967296) (hLen : len < 4294967296) :
    (∀ i < s.vq.vring.num, usedSlot (virtqueuePush s.mem s.vq elem len).1 s.vq.vring i =
        if i = vringUsedIdx s.mem s.vq.vring % s.vq.vring.num then (elem.index, len)
        else usedSlot s.mem s.vq.vring i) ∧
      vringUsedIdx (virtqueuePush s.mem s.vq elem len).1 s.vq.vring =
        (vringUsedIdx s.mem s.vq.vring + 1) % 65536 := by
  have hSlot := Nat.mod_lt (vringUsedIdx s.mem s.vq.vring) hApart.pos
  have hIdx := usedIdx_virtqueueFill hApart.pos (m := s.mem) elem len 0
  have hWrap : uint16 (vringUsedIdx s.mem s.vq.vring + 1) =
      (vringUsedIdx s.mem s.vq.vring + 1) % 65536 := by
    unfold uint16
    omega
  constructor
  · intro i hi
    unfold virtqueuePush virtqueueFlush virtqueueFill usedSlot usedEntry
    dsimp only
    rw [Nat.zero_add]
    generalize vringUsedIdx s.mem s.vq.vring % s.vq.vring.num = j at hSlot ⊢
    unfold RING_OFF
    rw [Memory.ldl_stw (by omega), Memory.ldl_stw (by omega)]
    split
    · subst i
      rw [Memory.ldl_stl (by omega), Memory.ldl_stl_self hIndex, Memory.ldl_stl_self hLen]
    · rw [Memory.ldl_stl (by omega), Memory.ldl_stl (by omega), Memory.ldl_stl (by omega),
        Memory.ldl_stl (by omega)]
  · unfold virtqueuePush virtqueueFlush
    dsimp only
    rw [hIdx]
    show Memory.lduw _ _ = _
    rw [Memory.lduw_stw_self]
    · exact hWrap
    · exact hWrap ▸ Nat.mod_lt _ (by decide)

theorem avail_push (hApart : Apart s.vq.vring) {elem : VirtQueueElement} {len : Nat} :
    (∀ i < s.vq.vring.num, vringAvailRing (virtqueuePush s.mem s.vq elem len).1 s.vq.vring i =
        vringAvailRing s.mem s.vq.vring i) ∧
      vringAvailIdx (virtqueuePush s.mem s.vq elem len).1 s.vq.vring =
        vringAvailIdx s.mem s.vq.vring := by
  have hWithin := virtqueuePush_within hApart.pos (m := s.mem) elem len
  have hAvail := hApart.availUsed
  refine ⟨fun i hi => hWithin.lduw ?_, hWithin.lduw ?_⟩
  · omega
  · unfold RING_OFF at hAvail
    omega

/-- An element with the host has a head the guest gave away. -/
theorem Holding.index_lt (h : Holding s av us) {k : Nat} {elem : VirtQueueElement}
    (hElem : s.inflight[k]? = some elem) : elem.index < 4294967296 := by
  have hLt := h.sizes.lt
  have hIndex : elem.index < s.vq.vring.num := by
    refine h.lt _ (h.given.mem_iff.mpr ?_)
    simp only [List.mem_append, List.mem_map]
    exact .inl (.inr ⟨elem, List.mem_of_getElem? hElem, rfl⟩)
  omega

theorem Holding.push (h : Holding s av us) {k len : Nat} {elem : VirtQueueElement}
    (hElem : s.inflight[k]? = some elem) (hLen : len < 4294967296) :
    Holding { s with
      mem := (virtqueuePush s.mem s.vq elem len).1
      vq := (virtqueuePush s.mem s.vq elem len).2
      bounced := virtqueueUnmap s.bounced elem
      inflight := s.inflight.eraseIdx k
      pushed := s.pushed ++ [(elem.index, len)] } av (us ++ [(elem.index, len)]) := by
  obtain ⟨hk, hAt⟩ := List.getElem?_eq_some_iff.mp hElem
  have hRest : s.inflight.Perm (elem :: s.inflight.eraseIdx k) :=
    hAt ▸ (List.getElem_cons_eraseIdx_perm hk).symm
  obtain ⟨hUsed, hUsedIdx⟩ := used_push h.apart (h.index_lt hElem) hLen
  obtain ⟨hAvail, hAvailIdx⟩ := @avail_push s h.apart elem len
  have hRoom : us.length < s.vq.vring.num := by
    have hTotal := h.length_le
    have hMany := hRest.length_eq
    rw [List.length_cons] at hMany
    omega
  refine ⟨h.apart, h.sizes, ?_, ?_, ?_, h.nodup, h.lt, h.popped, ?_⟩
  · exact hAvailIdx ▸ (h.avail.congr h.sizes hAvail)
  · have hAppend : Ring.Holds _ _ (usedSlot (virtqueuePush s.mem s.vq elem len).1 s.vq.vring) _ _
        (us ++ [(elem.index, len)]) :=
      h.used.append h.sizes hRoom ((hUsed _ (Nat.mod_lt _ h.sizes.pos)).trans (if_pos rfl))
        (fun i hi hNe => (hUsed i hi).trans (if_neg hNe))
    exact hUsedIdx ▸ hAppend
  · refine List.perm_iff_count.mpr fun head => ?_
    have hGiven := h.given.count_eq head
    have hHeads := (hRest.map (·.index)).count_eq head
    simp only [List.map_append, List.map_cons, List.map_nil, List.count_append, List.count_cons,
      List.count_nil] at hGiven hHeads ⊢
    omega
  · rw [← h.collected, List.append_assoc]

theorem Holding.collect (h : Holding s av us)
    (hNew : vringUsedIdx s.mem s.vq.vring ≠ s.lastUsed) :
    ∃ us', Holding { s with
      lastUsed := uint16 (s.lastUsed + 1)
      given := s.given.erase (usedSlot s.mem s.vq.vring (s.lastUsed % s.vq.vring.num)).1
      collected := s.collected ++ [usedSlot s.mem s.vq.vring (s.lastUsed % s.vq.vring.num)] }
      av us' := by
  cases us with
  | nil => exact absurd ((h.used.eq_iff_nil h.sizes).mpr rfl) hNew
  | cons entry us =>
    have hFirst := h.used.first h.sizes
    rw [hFirst]
    have hGiven : s.given.Perm (entry.1 :: (av ++ s.inflight.map (·.index) ++ us.map (·.1))) :=
      h.given.trans List.perm_middle
    refine ⟨us, h.apart, h.sizes, h.avail, ?_, ?_, h.nodup.erase _, ?_, h.popped, ?_⟩
    · have hNext : uint16 (s.lastUsed + 1) = (s.lastUsed + 1) % 65536 := by
        unfold uint16
        omega
      show Ring.Holds _ _ _ (uint16 (s.lastUsed + 1)) _ _
      rw [hNext]
      exact h.used.take
    · have hErase := hGiven.erase entry.1
      rwa [List.erase_cons_head] at hErase
    · exact fun head hMem => h.lt head (List.mem_of_mem_erase hMem)
    · rw [← h.collected]
      simp

theorem Holding.bounce (h : Holding s av us) (taken : Bool) :
    Holding { s with bounced := taken } av us :=
  ⟨h.apart, h.sizes, h.avail, h.used, h.given, h.nodup, h.lt, h.popped, h.collected⟩

-- ---------------------------------------------------------------------------
-- Whole runs
-- ---------------------------------------------------------------------------

def Sound (s : System) : Prop := ∃ av us, Holding s av us

theorem Sound.step {e : Event} (hSound : Sound s) (h : step features pm s e = some s') :
    Sound s' := by
  obtain ⟨av, us, hHold⟩ := hSound
  cases e with
  | publish head =>
    obtain ⟨⟨hHead, hNew⟩, hNext⟩ := Option.ite_none_right_eq_some.mp h
    cases hNext
    exact ⟨_, _, hHold.publish hHead hNew⟩
  | store a bs =>
    obtain ⟨hElse, hNext⟩ := Option.ite_none_right_eq_some.mp h
    cases hNext
    exact ⟨_, _, hHold.store hElse⟩
  | pop =>
    simp only [RingQueue.step] at h
    split at h
    · cases h
    · cases h
      exact ⟨av, us, hHold⟩
    · rename_i elem mem vq bounced hPop
      cases h
      obtain ⟨av', -, hHold'⟩ := hHold.pop hPop
      exact ⟨av', us, hHold'⟩
  | push k len =>
    obtain ⟨hLen, hNext⟩ := Option.ite_none_right_eq_some.mp h
    obtain ⟨elem, hElem, rfl⟩ := Option.map_eq_some_iff.mp hNext
    exact ⟨_, _, hHold.push hElem hLen⟩
  | collect =>
    simp only [RingQueue.step] at h
    split at h
    · cases h
      exact ⟨av, us, hHold⟩
    · rename_i hNew
      cases h
      obtain ⟨us', hHold'⟩ := hHold.collect hNew
      exact ⟨av, us', hHold'⟩
  | bounce taken =>
    obtain ⟨-, hNext⟩ := Option.ite_none_right_eq_some.mp h
    cases hNext
    exact ⟨av, us, hHold.bounce taken⟩

/-- The sizes of the queues of a virtio-serial device are powers of two. -/
theorem Sound.fresh {mem : Memory} {num pa : Nat} (hSizes : Ring.Sizes num 65536)
    (hAvail : vringAvailIdx mem (virtqueueInit num pa) = 0)
    (hUsed : vringUsedIdx mem (virtqueueInit num pa) = 0) : Sound (fresh mem num pa) := by
  refine ⟨[], [], virtqueueInit_apart hSizes.pos pa, hSizes, ?_, ?_, .refl _, List.nodup_nil, ?_, rfl, rfl⟩
  · show Ring.Holds _ _ _ 0 (vringAvailIdx mem (virtqueueInit num pa)) []
    rw [hAvail]
    exact Ring.holds_nil _ 0
  · show Ring.Holds _ _ _ 0 (vringUsedIdx mem (virtqueueInit num pa)) []
    rw [hUsed]
    exact Ring.holds_nil _ 0
  · exact fun head hMem => absurd hMem List.not_mem_nil

theorem run_holding {mem : Memory} {num pa : Nat} (hSizes : Ring.Sizes num 65536)
    (hAvail : vringAvailIdx mem (virtqueueInit num pa) = 0)
    (hUsed : vringUsedIdx mem (virtqueueInit num pa) = 0) {es : List Event}
    (hRun : run (RingQueue.step features pm) (RingQueue.fresh mem num pa) es = some s) : Sound s :=
  run_keeps (fun _ _ _ hSound h => hSound.step h) (Sound.fresh hSizes hAvail hUsed) hRun

/-- Over every run of guest and host, however long: chains are popped in the order they were
published in and come back in the order they were pushed in, none lost, skipped or seen twice;
each side sees an empty ring exactly when there is nothing for it; and QEMU never exits over an
index of the guest. -/
theorem run_ring_fifo {mem : Memory} {num pa : Nat} (hSizes : Ring.Sizes num 65536)
    (hAvail : vringAvailIdx mem (virtqueueInit num pa) = 0)
    (hUsed : vringUsedIdx mem (virtqueueInit num pa) = 0) {es : List Event}
    (hRun : run (RingQueue.step features pm) (RingQueue.fresh mem num pa) es = some s) :
    s.popped.map (·.index) <+: s.published.map (·.1) ∧ s.collected <+: s.pushed ∧
      (virtioQueueEmpty s.mem s.vq = true ↔ s.popped.map (·.index) = s.published.map (·.1)) ∧
      (vringUsedIdx s.mem s.vq.vring = s.lastUsed ↔ s.collected = s.pushed) ∧
      ∀ e, virtqueuePop features pm s.bounced s.mem s.vq = .error e → e.ofChain = true := by
  obtain ⟨av, us, hHold⟩ := run_holding hSizes hAvail hUsed hRun
  refine ⟨⟨av, hHold.popped⟩, ⟨us, hHold.collected⟩, ?_, ?_, ?_⟩
  · rw [virtioQueueEmpty, beq_iff_eq, hHold.avail.eq_iff_nil hHold.sizes, ← hHold.popped]
    simp
  · rw [hHold.used.eq_iff_nil hHold.sizes, ← hHold.collected]
    simp
  · intro e hExit
    refine virtqueuePop_error hExit hHold.numHeads fun hSome => ?_
    cases av with
    | nil => exact absurd rfl hSome
    | cons head av => exact ⟨head, hHold.getHead⟩

/-- Two chains of one descriptor each, handed back in the other order. -/
def twoChains : List Event :=
  [.store 4104 [5], .store 4120 [6], .publish 1, .publish 0, .pop, .pop, .push 1 7, .push 0 9, .collect]

theorem run_ring_fifo_two :
    (run (RingQueue.step ⟨true, false⟩ sixteenPages) (RingQueue.fresh (fun _ => 0) 2 4096)
        twoChains).map (fun s => (s.popped.map (·.index), s.pushed, s.collected)) =
      some ([1, 0], [(0, 7), (1, 9)], [(0, 7)]) ∧
    ∀ s, run (RingQueue.step ⟨true, false⟩ sixteenPages) (RingQueue.fresh (fun _ => 0) 2 4096)
        twoChains = some s →
      s.popped.map (·.index) <+: s.published.map (·.1) ∧ s.collected <+: s.pushed := by
  refine ⟨by decide +kernel, fun s hRun => ?_⟩
  have hFifo := run_ring_fifo ⟨by decide, by decide, by decide⟩ (by decide) (by decide) hRun
  exact ⟨hFifo.1, hFifo.2.1⟩

-- ---------------------------------------------------------------------------
-- Elements as they were published
-- ---------------------------------------------------------------------------

/-- A table of `n` descriptors at `a` is clear of both rings and what stands behind them. -/
def Clear (r : VRing) (a n : Nat) : Prop :=
  a + DESC_SIZE * n ≤ r.avail ∨ usedEntry r r.num + 2 ≤ a

instance (r : VRing) (a n : Nat) : Decidable (Clear r a n) := inferInstanceAs (Decidable (_ ∨ _))

/-- What the guest owes for its requests to arrive as it made them: no indirect table lies over
the rings, and chains are left alone until they come back. -/
def Untouched (s : System) : Event → Prop
  | .publish head => ∀ t ∈ indirectTable s.mem s.vq.vring head, Clear s.vq.vring t.1 t.2
  | .store a bs => ∀ head ∈ s.given,
      readChain (s.mem.store a bs) s.vq.vring head = readChain s.mem s.vq.vring head ∧
        indirectTable (s.mem.store a bs) s.vq.vring head = indirectTable s.mem s.vq.vring head
  | _ => True

instance (s : System) (e : Event) : Decidable (Untouched s e) := by
  cases e <;> unfold Untouched <;> infer_instance

/-- The elements popped, and the chains still in the ring, are what was published. -/
structure Faithful (s : System) (av : List Nat) : Prop where
  clear : ∀ head ∈ av, ∀ t ∈ indirectTable s.mem s.vq.vring head, Clear s.vq.vring t.1 t.2
  chains : s.popped.map (fun elem => (elem.index, Except.ok (elem.inSg, elem.outSg))) ++
    av.map (fun head => (head, readChain s.mem s.vq.vring head)) = s.published

/-- Writes to the rings and behind them leave a table that is clear of them alone. -/
theorem sameTable_of_within {m m' : Memory} {a n : Nat}
    (h : m.Within m' (r.avail + 2) (usedEntry r r.num + 2)) (hClear : Clear r a n) :
    SameTable m m' a n := by
  intro x hLo hHi
  unfold Clear at hClear
  exact (h x (by omega)).symm

/-- So they leave every chain alone whose indirect table, if any, is clear of the rings. -/
theorem readChain_of_within (hApart : Apart r) {m m' : Memory}
    (h : m.Within m' (r.avail + 2) (usedEntry r r.num + 2)) {head : Nat} (hHead : head < r.num)
    (hClear : ∀ t ∈ indirectTable m r head, Clear r t.1 t.2) :
    indirectTable m' r head = indirectTable m r head ∧ readChain m' r head = readChain m r head := by
  have hDesc : Clear r r.desc r.num := .inl hApart.descAvail
  exact readChain_congr (sameTable_of_within h hDesc) hHead
    fun t ht => sameTable_of_within h (hClear t ht)

theorem publish_behind (hApart : Apart r) (m : Memory) (head : Nat) :
    m.Within (publish m r head) (r.avail + 2) (usedEntry r r.num + 2) := by
  have hAvail := hApart.availUsed
  refine (publish_within hApart m head).mono (Nat.le_refl _) ?_
  unfold usedEntry RING_OFF at *
  omega

theorem takeHead_behind (hApart : Apart s.vq.vring) :
    s.mem.Within (takeHead features s.mem s.vq).1 (s.vq.vring.avail + 2)
      (usedEntry s.vq.vring s.vq.vring.num + 2) := by
  have hAvail := hApart.availUsed
  refine (takeHead_within features s.mem s.vq).mono ?_ (Nat.le_refl _)
  unfold usedEntry RING_OFF at *
  omega

theorem push_behind (hApart : Apart s.vq.vring) (elem : VirtQueueElement) (len : Nat) :
    s.mem.Within (virtqueuePush s.mem s.vq elem len).1 (s.vq.vring.avail + 2)
      (usedEntry s.vq.vring s.vq.vring.num + 2) := by
  have hAvail := hApart.availUsed
  refine (virtqueuePush_within hApart.pos elem len).mono ?_ (Nat.le_add_right _ _)
  omega

theorem Holding.lt_of_mem_avail (h : Holding s av us) : ∀ head ∈ av, head < s.vq.vring.num :=
  fun head hMem => h.lt head (h.given.mem_iff.mpr (by simp [hMem]))

/-- The chains in the ring read the same after such writes. -/
theorem Faithful.of_within (hFaith : Faithful s av) (hHold : Holding s av us) {mem : Memory}
    (h : s.mem.Within mem (s.vq.vring.avail + 2) (usedEntry s.vq.vring s.vq.vring.num + 2)) :
    Faithful { s with mem := mem } av := by
  have hSame := fun head hMem => readChain_of_within hHold.apart h (hHold.lt_of_mem_avail head hMem)
    (hFaith.clear head hMem)
  constructor
  · intro head hMem t ht
    exact hFaith.clear head hMem t ((hSame head hMem).1 ▸ ht)
  · rw [← hFaith.chains]
    congr 1
    refine List.map_congr_left fun head hMem => ?_
    rw [(hSame head hMem).2]

theorem Faithful.publish (hFaith : Faithful s av) (hHold : Holding s av us) {head : Nat}
    (hHead : head < s.vq.vring.num) (hLeft : Untouched s (.publish head)) :
    Faithful { s with
      mem := publish s.mem s.vq.vring head
      given := head :: s.given
      published := s.published ++ [(head, readChain s.mem s.vq.vring head)] } (av ++ [head]) := by
  have hWithin := publish_behind hHold.apart s.mem head
  have hOld := hFaith.of_within hHold hWithin
  obtain ⟨hNew, hRead⟩ := readChain_of_within hHold.apart hWithin hHead hLeft
  constructor
  · intro x hMem
    rcases List.mem_append.mp hMem with hOldMem | hLast
    · exact hOld.clear x hOldMem
    · rw [List.mem_singleton.mp hLast]
      intro t ht
      exact hLeft t (hNew ▸ ht)
  · show _ = s.published ++ _
    rw [← hOld.chains, List.map_append, ← List.append_assoc, List.map_singleton, hRead]

theorem Faithful.store (hFaith : Faithful s av) (hHold : Holding s av us) {a : Nat} {bs : Bytes}
    (hLeft : Untouched s (.store a bs)) : Faithful { s with mem := s.mem.store a bs } av := by
  have hGiven : ∀ head ∈ av, head ∈ s.given :=
    fun head hMem => hHold.given.mem_iff.mpr (by simp [hMem])
  constructor
  · intro head hMem t ht
    exact hFaith.clear head hMem t ((hLeft head (hGiven head hMem)).2 ▸ ht)
  · rw [← hFaith.chains]
    congr 1
    refine List.map_congr_left fun head hMem => ?_
    rw [(hLeft head (hGiven head hMem)).1]

theorem Faithful.pop {av' : List Nat} {elem : VirtQueueElement} {mem : Memory} {vq : VirtQueue}
    {bounced : Bool} (hFaith : Faithful s (elem.index :: av')) (hHold : Holding s (elem.index :: av') us)
    (hPop : virtqueuePop features pm s.bounced s.mem s.vq = .ok (some (elem, mem, vq, bounced))) :
    Faithful { s with mem := mem, vq := vq, bounced := bounced, inflight := s.inflight ++ [elem],
                      popped := s.popped ++ [elem] } av' := by
  obtain ⟨-, -, hMem, hVq, hChain, -⟩ := virtqueuePop_ok hPop
  have hWithin := @takeHead_behind features s hHold.apart
  subst hVq
  rw [← hMem] at hWithin
  have hOld := hFaith.of_within hHold hWithin
  refine ⟨fun head hRest => hOld.clear head (.tail _ hRest), ?_⟩
  have hChains := hOld.chains
  rw [List.map_cons, hChain] at hChains
  show (s.popped ++ [elem]).map _ ++ av'.map (fun head => (head, readChain mem s.vq.vring head)) =
    s.published
  rw [List.map_append, List.append_assoc]
  exact hChains

/-- The rings hold what they should, and the chains in them are those published. -/
def Exact (s : System) : Prop := ∃ av us, Holding s av us ∧ Faithful s av

theorem Exact.step {e : Event} (hExact : Exact s) (hLeft : Untouched s e)
    (h : step features pm s e = some s') : Exact s' := by
  obtain ⟨av, us, hHold, hFaith⟩ := hExact
  cases e with
  | publish head =>
    obtain ⟨⟨hHead, hNew⟩, hNext⟩ := Option.ite_none_right_eq_some.mp h
    cases hNext
    exact ⟨_, _, hHold.publish hHead hNew, hFaith.publish hHold hHead hLeft⟩
  | store a bs =>
    obtain ⟨hElse, hNext⟩ := Option.ite_none_right_eq_some.mp h
    cases hNext
    exact ⟨_, _, hHold.store hElse, hFaith.store hHold hLeft⟩
  | pop =>
    simp only [RingQueue.step] at h
    split at h
    · cases h
    · cases h
      exact ⟨av, us, hHold, hFaith⟩
    · rename_i elem mem vq bounced hPop
      cases h
      obtain ⟨av', rfl, hHold'⟩ := hHold.pop hPop
      exact ⟨av', us, hHold', hFaith.pop hHold hPop⟩
  | push k len =>
    obtain ⟨hLen, hNext⟩ := Option.ite_none_right_eq_some.mp h
    obtain ⟨elem, hElem, rfl⟩ := Option.map_eq_some_iff.mp hNext
    have hSame := hFaith.of_within hHold (push_behind hHold.apart elem len)
    exact ⟨_, _, hHold.push hElem hLen, hSame.clear, hSame.chains⟩
  | collect =>
    simp only [RingQueue.step] at h
    split at h
    · cases h
      exact ⟨av, us, hHold, hFaith⟩
    · rename_i hNew
      cases h
      obtain ⟨us', hHold'⟩ := hHold.collect hNew
      exact ⟨av, us', hHold', hFaith.clear, hFaith.chains⟩
  | bounce taken =>
    obtain ⟨-, hNext⟩ := Option.ite_none_right_eq_some.mp h
    cases hNext
    exact ⟨av, us, hHold.bounce taken, hFaith.clear, hFaith.chains⟩

/-- Requests arrive as they were made: the elements popped, with all their segments, are those
the guest published, in that order. -/
theorem run_ring_elements {mem : Memory} {num pa : Nat} (hSizes : Ring.Sizes num 65536)
    (hAvail : vringAvailIdx mem (virtqueueInit num pa) = 0)
    (hUsed : vringUsedIdx mem (virtqueueInit num pa) = 0) {es : List Event}
    (hLeft : Along (RingQueue.step features pm) Untouched (RingQueue.fresh mem num pa) es)
    (hRun : run (RingQueue.step features pm) (RingQueue.fresh mem num pa) es = some s) :
    s.popped.map (fun elem => (elem.index, Except.ok (elem.inSg, elem.outSg))) <+: s.published := by
  have hExact : Exact (RingQueue.fresh mem num pa) := by
    obtain ⟨av, us, hHold⟩ := Sound.fresh hSizes hAvail hUsed
    have hNil : av = [] := hHold.popped
    subst hNil
    exact ⟨[], us, hHold, fun _ hMem => absurd hMem List.not_mem_nil, rfl⟩
  obtain ⟨av, us, -, hFaith⟩ := run_invariant (fun _ _ _ hInv hLeft h => Exact.step hInv hLeft h)
    hExact hLeft hRun
  exact ⟨_, hFaith.chains⟩

/-- A chain of two descriptors in the ring, the second one for the device to write, and one in an
indirect table at 20480, both made, published and popped. -/
def bothKinds : List Event :=
  [.store 4096 ([0, 48, 0, 0, 0, 0, 0, 0] ++ [5, 0, 0, 0, 1, 0, 1, 0]),
    .store 4112 ([0, 64, 0, 0, 0, 0, 0, 0] ++ [6, 0, 0, 0, 2, 0, 0, 0]), .publish 0,
    .store 20480 ([0, 96, 0, 0, 0, 0, 0, 0] ++ [9, 0, 0, 0, 0, 0, 0, 0]),
    .store 4128 ([0, 80, 0, 0, 0, 0, 0, 0] ++ [16, 0, 0, 0, 4, 0, 0, 0]), .publish 2, .pop, .pop]

theorem run_ring_elements_bothKinds :
    (run (RingQueue.step ⟨true, false⟩ sixteenPages) (RingQueue.fresh (fun _ => 0) 4 4096)
        bothKinds).map (fun s => s.popped.map fun elem => (elem.index, elem.inSg, elem.outSg)) =
      some [(0, [(16384, 6)], [(12288, 5)]), (2, [], [(24576, 9)])] ∧
    ∀ s, run (RingQueue.step ⟨true, false⟩ sixteenPages) (RingQueue.fresh (fun _ => 0) 4 4096)
        bothKinds = some s →
      s.popped.map (fun elem => (elem.index, Except.ok (elem.inSg, elem.outSg))) <+: s.published :=
  ⟨by decide +kernel, fun _ hRun => run_ring_elements ⟨by decide, by decide, by decide⟩ (by decide)
    (by decide) (by decide +kernel) hRun⟩

end VirtioCrypto.Host.RingQueue
