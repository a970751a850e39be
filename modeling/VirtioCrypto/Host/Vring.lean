import Mathlib.Data.List.Forall2
import VirtioCrypto.Fallible
import VirtioCrypto.Host.PhysMap
import VirtioCrypto.Octets.Memory

/-!
# Host — the ring behind a virtqueue

`hw/virtio.c`: how QEMU takes requests from the ring a guest keeps in its memory and hands
them back. The ring is three tables at fixed places behind one address (`virtqueue_init`):
the descriptors, the available ring the guest fills, and the used ring the host fills. All
indices run freely modulo `2^16`.

Nothing in guest memory is trusted: `exit(1)` is an `Exit`, and what `virtqueue_pop` returns
is well formed whatever the memory holds.

* `virtqueuePop_wellFormed` — bounds on every element popped;
* `virtqueueInit_apart` — the three tables do not overlap;
* `virtqueueInit_eq_vringInit` — host and guest compute the same places.
-/

namespace VirtioCrypto.Host.Vring

open Fallible Octets

/-- `(uint16_t)`. -/
def uint16 (n : Int) : Nat := (n % 65536).toNat

/-- `(int16_t)`. -/
def int16 (n : Int) : Int := if n % 65536 < 32768 then n % 65536 else n % 65536 - 65536

def VIRTQUEUE_MAX_SIZE : Nat := 1024

def VIRTIO_PCI_VRING_ALIGN : Nat := 4096

-- sizeof(VRingDesc), and offsetof of the two rings
def DESC_SIZE : Nat := 16
def RING_OFF : Nat := 4

/-- `VRing`: the number of descriptors and the guest addresses of the tables. -/
structure VRing where
  num : Nat
  desc : Nat
  avail : Nat
  used : Nat
deriving DecidableEq, Repr

/-- `struct VirtQueue`, as far as the ring goes. -/
structure VirtQueue where
  vring : VRing
  lastAvailIdx : Nat
  signalledUsed : Nat
  signalledUsedValid : Bool
  notification : Bool
  inuse : Int
deriving DecidableEq, Repr

/-- The bits of `guest_features` the ring code looks at: `VIRTIO_RING_F_EVENT_IDX` and
`VIRTIO_F_NOTIFY_ON_EMPTY`. -/
structure Features where
  eventIdx : Bool
  notifyOnEmpty : Bool
deriving DecidableEq, Repr

/-- `VirtQueueElement`: the head of the chain and its segments, address (`in_addr`, `out_addr`)
and length (`iov_len`), and what they are mapped to (`iov_base`). -/
structure VirtQueueElement where
  index : Nat
  inSg : List (Nat × Nat)
  outSg : List (Nat × Nat)
  inBase : List HostBuf
  outBase : List HostBuf
deriving DecidableEq, Repr

/-- The segments of a chain the device writes to, and those it reads. -/
abbrev Sg := List (Nat × Nat) × List (Nat × Nat)

/-- The messages QEMU exits with. -/
inductive Exit
  | guestMoved
  | badHead
  | badIndirect
  | tooManyWrite
  | tooManyRead
  | looped
  | badNext
  | mmio
deriving DecidableEq, Repr

-- ---------------------------------------------------------------------------
-- The tables
-- ---------------------------------------------------------------------------

def vringAlign (addr align : Nat) : Nat := (addr + align - 1) / align * align

/-- `virtqueue_init`. -/
def virtqueueInit (num pa : Nat) : VRing where
  num := num
  desc := pa
  avail := pa + num * DESC_SIZE
  used := vringAlign (pa + num * DESC_SIZE + (RING_OFF + 2 * num)) VIRTIO_PCI_VRING_ALIGN

/-- `vring_init` of `linux/virtio_ring.h`, the guest's side of the same layout: it leaves room
for `used_event` behind the available ring. -/
def vringInit (num p align : Nat) : VRing where
  num := num
  desc := p
  avail := p + num * DESC_SIZE
  used := vringAlign (p + num * DESC_SIZE + (RING_OFF + 2 * num) + 2) align

def vringDescAddr (m : Memory) (descPa i : Nat) : Nat := m.ldq (descPa + DESC_SIZE * i)
def vringDescLen (m : Memory) (descPa i : Nat) : Nat := m.ldl (descPa + DESC_SIZE * i + 8)
def vringDescFlags (m : Memory) (descPa i : Nat) : Nat := m.lduw (descPa + DESC_SIZE * i + 12)
def vringDescNext (m : Memory) (descPa i : Nat) : Nat := m.lduw (descPa + DESC_SIZE * i + 14)

-- VRING_DESC_F_NEXT, _WRITE and _INDIRECT
def descNext (m : Memory) (descPa i : Nat) : Bool := (vringDescFlags m descPa i).testBit 0
def descWrite (m : Memory) (descPa i : Nat) : Bool := (vringDescFlags m descPa i).testBit 1
def descIndirect (m : Memory) (descPa i : Nat) : Bool := (vringDescFlags m descPa i).testBit 2

def vringAvailFlags (m : Memory) (r : VRing) : Nat := m.lduw r.avail
def vringAvailIdx (m : Memory) (r : VRing) : Nat := m.lduw (r.avail + 2)
def vringAvailRing (m : Memory) (r : VRing) (i : Nat) : Nat := m.lduw (r.avail + RING_OFF + 2 * i)
def vringUsedEvent (m : Memory) (r : VRing) : Nat := vringAvailRing m r r.num
def vringUsedIdx (m : Memory) (r : VRing) : Nat := m.lduw (r.used + 2)

-- an entry of the used ring: id and len
def usedEntry (r : VRing) (i : Nat) : Nat := r.used + RING_OFF + 8 * i

/-- `vring_avail_event`: the index behind the used ring, written while notification is on. -/
def vringAvailEvent (m : Memory) (vq : VirtQueue) (val : Nat) : Memory :=
  if vq.notification then m.stw (usedEntry vq.vring vq.vring.num) val else m

-- ---------------------------------------------------------------------------
-- virtqueue_push
-- ---------------------------------------------------------------------------

/-- `virtqueue_fill`, its two loops: unmapping a segment gives the bounce buffer back if the
segment had it. What it then writes to the page that is not RAM is not part of the model. -/
def virtqueueUnmap (bounced : Bool) (elem : VirtQueueElement) : Bool :=
  bounced && !(elem.inBase ++ elem.outBase).contains .bounce

/-- `virtqueue_fill`, the entry of the used ring. -/
def virtqueueFill (m : Memory) (vq : VirtQueue) (elem : VirtQueueElement) (len idx : Nat) :
    Memory :=
  let i := (idx + vringUsedIdx m vq.vring) % vq.vring.num
  (m.stl (usedEntry vq.vring i) elem.index).stl (usedEntry vq.vring i + 4) len

/-- `virtqueue_flush`. -/
def virtqueueFlush (m : Memory) (vq : VirtQueue) (count : Nat) : Memory × VirtQueue :=
  let old := vringUsedIdx m vq.vring
  let new := uint16 (old + count)
  (m.stw (vq.vring.used + 2) new,
    { vq with
      inuse := vq.inuse - count
      signalledUsedValid :=
        vq.signalledUsedValid && !(int16 (new - vq.signalledUsed) < uint16 (new - old)) })

def virtqueuePush (m : Memory) (vq : VirtQueue) (elem : VirtQueueElement) (len : Nat) :
    Memory × VirtQueue :=
  virtqueueFlush (virtqueueFill m vq elem len 0) vq 1

-- ---------------------------------------------------------------------------
-- virtqueue_pop
-- ---------------------------------------------------------------------------

def virtqueueNumHeads (m : Memory) (r : VRing) (idx : Nat) : Except Exit Nat :=
  let numHeads := uint16 (vringAvailIdx m r - idx)
  if r.num < numHeads then .error .guestMoved else .ok numHeads

def virtqueueGetHead (m : Memory) (r : VRing) (idx : Nat) : Except Exit Nat :=
  let head := vringAvailRing m r (idx % r.num)
  if r.num ≤ head then .error .badHead else .ok head

/-- The descriptor after `i`; `max` stands for none. -/
def virtqueueNextDesc (m : Memory) (descPa i max : Nat) : Except Exit Nat :=
  if descNext m descPa i then
    if max ≤ vringDescNext m descPa i then .error .badNext else .ok (vringDescNext m descPa i)
  else .ok max

/-- The body of the loop of `virtqueue_pop`: descriptor `i` is added to one of the lists. -/
def addSg (m : Memory) (descPa i : Nat) (sg : Sg) :
    Except Exit Sg :=
  let seg := (vringDescAddr m descPa i, vringDescLen m descPa i)
  if descWrite m descPa i then
    if VIRTQUEUE_MAX_SIZE ≤ sg.1.length then .error .tooManyWrite else .ok (sg.1 ++ [seg], sg.2)
  else
    if VIRTQUEUE_MAX_SIZE ≤ sg.2.length then .error .tooManyRead else .ok (sg.1, sg.2 ++ [seg])

/-- The loop of `virtqueue_pop`. It gives up once it has collected more than `max`
descriptors; `room` is how many it may still add. -/
def collectSg (m : Memory) (descPa max : Nat) :
    Nat → Nat → Sg →
      Except Exit Sg
  | 0, i, sg => (addSg m descPa i sg).bind fun _ => .error .looped
  | room + 1, i, sg =>
    (addSg m descPa i sg).bind fun sg =>
      (virtqueueNextDesc m descPa i max).bind fun next =>
        if next = max then .ok sg else collectSg m descPa max room next sg

/-- The chain that starts at descriptor `head`, in the table of the ring or in an indirect
one. -/
def readChain (m : Memory) (r : VRing) (head : Nat) :
    Except Exit Sg :=
  if descIndirect m r.desc head then
    if vringDescLen m r.desc head % DESC_SIZE ≠ 0 then .error .badIndirect
    else
      let max := vringDescLen m r.desc head / DESC_SIZE
      collectSg m (vringDescAddr m r.desc head) max max 0 ([], [])
  else collectSg m r.desc r.num r.num head ([], [])

/-- `virtqueue_map_sg`, one segment after the other; a segment that is not mapped as a whole ends
QEMU. -/
def virtqueueMapSg (pm : PhysMap) : Bool → List (Nat × Nat) → Except Exit (List HostBuf × Bool)
  | bounced, [] => .ok ([], bounced)
  | bounced, seg :: sg =>
    match cpuPhysicalMemoryMap pm bounced seg.1 seg.2 with
    | none => .error .mmio
    | some (base, len) =>
      if len ≠ seg.2 then .error .mmio
      else (virtqueueMapSg pm (bounced || base == .bounce) sg).bind fun r => .ok (base :: r.1, r.2)

/-- The index is advanced before anything of the request is read. -/
def takeHead (features : Features) (m : Memory) (vq : VirtQueue) : Memory × VirtQueue :=
  let vq' := { vq with lastAvailIdx := uint16 (vq.lastAvailIdx + 1) }
  (if features.eventIdx then vringAvailEvent m vq' (vringAvailIdx m vq.vring) else m, vq')

/-- `virtqueue_pop`; `.ok none` is the return value 0. -/
def virtqueuePop (features : Features) (pm : PhysMap) (bounced : Bool) (m : Memory)
    (vq : VirtQueue) : Except Exit (Option (VirtQueueElement × Memory × VirtQueue × Bool)) :=
  (virtqueueNumHeads m vq.vring vq.lastAvailIdx).bind fun numHeads =>
    if numHeads = 0 then .ok none
    else
      (virtqueueGetHead m vq.vring vq.lastAvailIdx).bind fun head =>
        let next := takeHead features m vq
        (readChain next.1 vq.vring head).bind fun sg =>
          (virtqueueMapSg pm bounced sg.1).bind fun ins =>
            (virtqueueMapSg pm ins.2 sg.2).bind fun outs =>
              .ok (some (⟨head, sg.1, sg.2, ins.1, outs.1⟩, next.1,
                { next.2 with inuse := next.2.inuse + 1 }, outs.2))

/-- `virtio_queue_empty`. -/
def virtioQueueEmpty (m : Memory) (vq : VirtQueue) : Bool :=
  vringAvailIdx m vq.vring == vq.lastAvailIdx

-- ---------------------------------------------------------------------------
-- Where the tables are
-- ---------------------------------------------------------------------------

theorem le_vringAlign {align : Nat} (hPos : 0 < align) (addr : Nat) : addr ≤ vringAlign addr align := by
  have hSplit := Nat.div_add_mod (addr + align - 1) align
  have hRest := Nat.mod_lt (addr + align - 1) hPos
  rw [Nat.mul_comm] at hSplit
  unfold vringAlign
  omega

/-- The tables do not overlap. -/
structure Apart (r : VRing) : Prop where
  pos : 0 < r.num
  descAvail : r.desc + DESC_SIZE * r.num ≤ r.avail
  availUsed : r.avail + RING_OFF + 2 * r.num ≤ r.used

theorem virtqueueInit_apart {num : Nat} (hPos : 0 < num) (pa : Nat) :
    Apart (virtqueueInit num pa) where
  pos := hPos
  descAvail := Nat.le_of_eq (congrArg (pa + ·) (Nat.mul_comm _ _))
  availUsed := by
    have hLe := le_vringAlign (show 0 < VIRTIO_PCI_VRING_ALIGN by decide)
      (pa + num * DESC_SIZE + (RING_OFF + 2 * num))
    simp only [virtqueueInit]
    omega

/-- `vring_size`. -/
def vringSize (num align : Nat) : Nat :=
  vringAlign (DESC_SIZE * num + 2 * (3 + num)) align + 2 * 3 + 8 * num

/-- Host and guest agree on the ring of a page-aligned queue whose size is a power of two,
although only the guest reserves room for `used_event`, and the ring with `avail_event` at its
end fits in what the guest allocates. -/
theorem virtqueueInit_eq_vringInit (k : Nat) {pa : Nat} (hPa : pa % VIRTIO_PCI_VRING_ALIGN = 0) :
    virtqueueInit (2 ^ k) pa = vringInit (2 ^ k) pa VIRTIO_PCI_VRING_ALIGN ∧
      usedEntry (virtqueueInit (2 ^ k) pa) (2 ^ k) + 2 =
        pa + vringSize (2 ^ k) VIRTIO_PCI_VRING_ALIGN := by
  -- the end of the available ring is never a multiple of the page size
  have hEnd : (18 * 2 ^ k + 4) % 4096 ≠ 0 := by
    match k with
    | 0 => decide
    | 1 => decide
    | k + 2 =>
      rw [Nat.pow_add]
      omega
  generalize 2 ^ k = num at hEnd ⊢
  -- so rounding it up, with or without room for two more bytes, ends at the same page
  have hPage : ∀ base gap, base % 4096 = 0 → gap ≤ 2 →
      vringAlign (base + (18 * num + 4) + gap) VIRTIO_PCI_VRING_ALIGN =
        (base / 4096 + (18 * num + 4) / 4096 + 1) * 4096 := by
    intro base gap hBase hGap
    show (base + (18 * num + 4) + gap + 4096 - 1) / 4096 * 4096 = _
    generalize hQ : (18 * num + 4) / 4096 = q
    congr 1
    omega
  have hSame : ∀ base, base + num * DESC_SIZE + (RING_OFF + 2 * num) = base + (18 * num + 4) := by
    intro base
    simp only [DESC_SIZE, RING_OFF]
    omega
  have hUsed : (virtqueueInit num pa).used = (pa / 4096 + (18 * num + 4) / 4096 + 1) * 4096 := by
    have hHost := hPage pa 0 hPa (by omega)
    simpa only [virtqueueInit, hSame, Nat.add_zero] using hHost
  constructor
  · have hGuest := hPage pa 2 hPa (by omega)
    have hUsed' : (vringInit num pa VIRTIO_PCI_VRING_ALIGN).used = (virtqueueInit num pa).used := by
      rw [hUsed, ← hGuest]
      simp only [vringInit, hSame]
    simp only [vringInit, virtqueueInit] at hUsed' ⊢
    rw [hUsed']
  · have hSize := hPage 0 2 rfl (by omega)
    have hLen : DESC_SIZE * num + 2 * (3 + num) = 0 + (18 * num + 4) + 2 := by
      simp only [DESC_SIZE]
      omega
    rw [usedEntry, hUsed, vringSize, hLen, hSize]
    simp only [RING_OFF, VIRTIO_PCI_VRING_ALIGN] at hPa ⊢
    omega

/-- The size `virtio_serial_init` gives the queues of a port. -/
theorem virtqueueInit_eq_vringInit_port :
    8192 % VIRTIO_PCI_VRING_ALIGN = 0 ∧
      virtqueueInit (2 ^ 7) 8192 = vringInit (2 ^ 7) 8192 VIRTIO_PCI_VRING_ALIGN :=
  ⟨by decide, (virtqueueInit_eq_vringInit 7 (by decide)).1⟩

-- ---------------------------------------------------------------------------
-- What the host writes
-- ---------------------------------------------------------------------------

theorem virtqueueFill_within {m : Memory} {vq : VirtQueue} (hPos : 0 < vq.vring.num)
    (elem : VirtQueueElement) (len idx : Nat) :
    m.Within (virtqueueFill m vq elem len idx) (usedEntry vq.vring 0)
      (usedEntry vq.vring vq.vring.num) := by
  have hSlot := Nat.mod_lt (idx + vringUsedIdx m vq.vring) hPos
  unfold virtqueueFill usedEntry
  dsimp only
  generalize (idx + vringUsedIdx m vq.vring) % vq.vring.num = i at hSlot ⊢
  exact ((Memory.within_refl m _ _).stl (by omega) (by omega)).stl (by omega) (by omega)

theorem usedIdx_virtqueueFill {m : Memory} {vq : VirtQueue} (hPos : 0 < vq.vring.num)
    (elem : VirtQueueElement) (len idx : Nat) :
    vringUsedIdx (virtqueueFill m vq elem len idx) vq.vring = vringUsedIdx m vq.vring :=
  (virtqueueFill_within hPos elem len idx).lduw (.inl (Nat.le_refl _))

/-- `virtqueue_push` writes the used ring. -/
theorem virtqueuePush_within {m : Memory} {vq : VirtQueue} (hPos : 0 < vq.vring.num)
    (elem : VirtQueueElement) (len : Nat) :
    m.Within (virtqueuePush m vq elem len).1 (vq.vring.used + 2)
      (usedEntry vq.vring vq.vring.num) := by
  have hFill := virtqueueFill_within hPos (m := m) elem len 0
  unfold virtqueuePush virtqueueFlush
  refine (hFill.mono ?_ (Nat.le_refl _)).stw (Nat.le_refl _) ?_
  · unfold usedEntry RING_OFF
    omega
  · unfold usedEntry RING_OFF
    omega

/-- `virtqueue_pop` writes the index behind the used ring at most. -/
theorem takeHead_within (features : Features) (m : Memory) (vq : VirtQueue) :
    m.Within (takeHead features m vq).1 (usedEntry vq.vring vq.vring.num)
      (usedEntry vq.vring vq.vring.num + 2) := by
  unfold takeHead vringAvailEvent
  dsimp only
  split
  · split
    · exact (Memory.within_refl m _ _).stw (Nat.le_refl _) (Nat.le_refl _)
    · exact Memory.within_refl m _ _
  · exact Memory.within_refl m _ _

-- ---------------------------------------------------------------------------
-- What an element looks like
-- ---------------------------------------------------------------------------

/-- The lists stay within their arrays, and one of them grows. -/
theorem addSg_ok {m : Memory} {descPa i : Nat} {sg sg' : Sg}
    (h : addSg m descPa i sg = .ok sg') (hIn : sg.1.length ≤ VIRTQUEUE_MAX_SIZE)
    (hOut : sg.2.length ≤ VIRTQUEUE_MAX_SIZE) :
    sg'.1.length ≤ VIRTQUEUE_MAX_SIZE ∧ sg'.2.length ≤ VIRTQUEUE_MAX_SIZE ∧
      sg'.1.length + sg'.2.length = sg.1.length + sg.2.length + 1 := by
  unfold addSg at h
  split at h <;> split at h
  · cases h
  · cases h
    simp only [List.length_append, List.length_singleton]
    omega
  · cases h
  · cases h
    simp only [List.length_append, List.length_singleton]
    omega

/-- A chain has at most as many descriptors as there was room for. -/
theorem collectSg_ok {m : Memory} {descPa max room : Nat} :
    ∀ {i : Nat} {sg sg' : Sg},
      collectSg m descPa max room i sg = .ok sg' → sg.1.length ≤ VIRTQUEUE_MAX_SIZE →
      sg.2.length ≤ VIRTQUEUE_MAX_SIZE →
      sg'.1.length ≤ VIRTQUEUE_MAX_SIZE ∧ sg'.2.length ≤ VIRTQUEUE_MAX_SIZE ∧
        sg.1.length + sg.2.length < sg'.1.length + sg'.2.length ∧
        sg'.1.length + sg'.2.length ≤ sg.1.length + sg.2.length + room := by
  induction room with
  | zero =>
    intro i sg sg' h _ _
    obtain ⟨_, -, hEnd⟩ := bind_eq_ok.mp h
    cases hEnd
  | succ room ih =>
    intro i sg sg' h hIn hOut
    obtain ⟨sg₁, hAdd, h⟩ := bind_eq_ok.mp h
    obtain ⟨next, -, h⟩ := bind_eq_ok.mp h
    obtain ⟨hIn₁, hOut₁, hSum⟩ := addSg_ok hAdd hIn hOut
    split at h
    · cases h
      exact ⟨hIn₁, hOut₁, by omega, by omega⟩
    · obtain ⟨hIn', hOut', hLo, hHi⟩ := ih h hIn₁ hOut₁
      exact ⟨hIn', hOut', by omega, by omega⟩

section Frame

variable {m m' : Memory} {descPa max : Nat}

/-- Two memories with the same table of `max` descriptors. -/
def SameTable (m m' : Memory) (descPa max : Nat) : Prop :=
  ∀ x, descPa ≤ x → x < descPa + DESC_SIZE * max → m x = m' x

theorem SameTable.load (h : SameTable m m' descPa max) {i off n : Nat} (hi : i < max)
    (hOff : off + n ≤ DESC_SIZE) :
    m.load (descPa + DESC_SIZE * i + off) n = m'.load (descPa + DESC_SIZE * i + off) n := by
  have hEnd : DESC_SIZE * i + DESC_SIZE ≤ DESC_SIZE * max := by
    rw [← Nat.mul_succ]
    exact Nat.mul_le_mul_left _ hi
  exact Memory.load_congr fun x hLo hHi => h x (by omega) (by omega)

theorem SameTable.desc (h : SameTable m m' descPa max) {i : Nat} (hi : i < max) :
    vringDescAddr m descPa i = vringDescAddr m' descPa i ∧
      vringDescLen m descPa i = vringDescLen m' descPa i ∧
      vringDescFlags m descPa i = vringDescFlags m' descPa i ∧
      vringDescNext m descPa i = vringDescNext m' descPa i := by
  refine ⟨congrArg ofLE ?_, congrArg ofLE ?_, congrArg ofLE ?_, congrArg ofLE ?_⟩
  · exact @SameTable.load m m' descPa max h i 0 8 hi (by decide)
  · exact h.load hi (by decide)
  · exact h.load hi (by decide)
  · exact h.load hi (by decide)

theorem SameTable.addSg (h : SameTable m m' descPa max) {i : Nat} (hi : i < max)
    (sg : Sg) : addSg m descPa i sg = addSg m' descPa i sg := by
  obtain ⟨hAddr, hLen, hFlags, -⟩ := h.desc hi
  rw [Vring.addSg, Vring.addSg, descWrite, descWrite, hAddr, hLen, hFlags]

theorem SameTable.nextDesc (h : SameTable m m' descPa max) {i : Nat} (hi : i < max) :
    virtqueueNextDesc m descPa i max = virtqueueNextDesc m' descPa i max := by
  obtain ⟨-, -, hFlags, hNext⟩ := h.desc hi
  rw [virtqueueNextDesc, virtqueueNextDesc, descNext, descNext, hFlags, hNext]

/-- A direct chain is read from the table alone. -/
theorem collectSg_congr (h : SameTable m m' descPa max) {room : Nat} :
    ∀ {i : Nat} {sg : Sg}, i < max →
      collectSg m descPa max room i sg = collectSg m' descPa max room i sg := by
  induction room with
  | zero =>
    intro i sg hi
    rw [collectSg, collectSg, h.addSg hi]
  | succ room ih =>
    intro i sg hi
    rw [collectSg, collectSg, h.addSg hi, h.nextDesc hi]
    congr 1
    funext sg'
    unfold virtqueueNextDesc
    split
    · split
      · rfl
      · rename_i hLt
        simp only [Except.bind]
        rw [ih (Nat.lt_of_not_le hLt)]
    · simp only [Except.bind, if_true]

/-- The table behind an indirect descriptor: its address and number of descriptors. -/
def indirectTable (m : Memory) (r : VRing) (head : Nat) : Option (Nat × Nat) :=
  if descIndirect m r.desc head then
    some (vringDescAddr m r.desc head, vringDescLen m r.desc head / DESC_SIZE)
  else none

/-- An empty table is left at its first descriptor, whatever stands there. -/
theorem collectSg_empty (m : Memory) (descPa : Nat) :
    collectSg m descPa 0 0 0 ([], []) = .error .looped := by
  unfold collectSg addSg VIRTQUEUE_MAX_SIZE
  split <;> rfl

/-- A chain is read from the descriptors of the ring and the indirect table it may have. -/
theorem readChain_congr {r : VRing} (h : SameTable m m' r.desc r.num) {head : Nat}
    (hHead : head < r.num)
    (hTable : ∀ t ∈ indirectTable m r head, SameTable m m' t.1 t.2) :
    indirectTable m' r head = indirectTable m r head ∧ readChain m' r head = readChain m r head := by
  obtain ⟨hAddr, hLen, hFlags, -⟩ := h.desc hHead
  have hKind : descIndirect m' r.desc head = descIndirect m r.desc head := by
    rw [descIndirect, descIndirect, hFlags]
  have hSame : indirectTable m' r head = indirectTable m r head := by
    rw [indirectTable, indirectTable, hKind, hAddr, hLen]
  refine ⟨hSame, ?_⟩
  rw [readChain, readChain, hKind, ← hLen, ← hAddr]
  by_cases hIndirect : descIndirect m r.desc head = true
  · rw [if_pos hIndirect, if_pos hIndirect]
    have hHere := hTable (vringDescAddr m r.desc head, vringDescLen m r.desc head / DESC_SIZE)
      (by rw [indirectTable, if_pos hIndirect]; rfl)
    split
    · rfl
    · rcases Nat.eq_zero_or_pos (vringDescLen m r.desc head / DESC_SIZE) with hZero | hPos
      · rw [hZero, collectSg_empty, collectSg_empty]
      · exact (collectSg_congr hHere hPos).symm
  · rw [if_neg hIndirect, if_neg hIndirect]
    exact (collectSg_congr h hHead).symm

end Frame

/-- What `virtqueue_pop` guarantees of an element of a ring of `num` descriptors, if the bounce
buffer was `bounced` before: every segment is not empty and is RAM throughout or a part of one
page that is not, and at most one segment has the bounce buffer. -/
structure VirtQueueElement.WellFormed (pm : PhysMap) (bounced : Bool) (num : Nat)
    (elem : VirtQueueElement) : Prop where
  index : elem.index < num
  inSg : elem.inSg.length ≤ VIRTQUEUE_MAX_SIZE
  outSg : elem.outSg.length ≤ VIRTQUEUE_MAX_SIZE
  some : 0 < elem.inSg.length + elem.outSg.length
  mapped : List.Forall₂ (fun seg base => 0 < seg.2 ∧ pm.Maps seg.1 seg.2 base)
    (elem.inSg ++ elem.outSg) (elem.inBase ++ elem.outBase)
  bounce : (elem.inBase ++ elem.outBase).count .bounce + bounced.toNat ≤ 1

theorem readChain_ok {m : Memory} {r : VRing} {head : Nat}
    {sg : Sg} (h : readChain m r head = .ok sg) :
    sg.1.length ≤ VIRTQUEUE_MAX_SIZE ∧ sg.2.length ≤ VIRTQUEUE_MAX_SIZE ∧
      0 < sg.1.length + sg.2.length := by
  have hNil : ([] : List (Nat × Nat)).length ≤ VIRTQUEUE_MAX_SIZE := Nat.zero_le _
  unfold readChain at h
  split at h
  · split at h
    · cases h
    · obtain ⟨hIn, hOut, hLo, -⟩ := collectSg_ok h hNil hNil
      exact ⟨hIn, hOut, hLo⟩
  · obtain ⟨hIn, hOut, hLo, -⟩ := collectSg_ok h hNil hNil
    exact ⟨hIn, hOut, hLo⟩

/-- Segments that could be mapped, and who has the bounce buffer then. -/
theorem virtqueueMapSg_ok {pm : PhysMap} {sg : List (Nat × Nat)} :
    ∀ {bounced bounced' : Bool} {bases : List HostBuf},
      virtqueueMapSg pm bounced sg = .ok (bases, bounced') →
      List.Forall₂ (fun seg base => 0 < seg.2 ∧ pm.Maps seg.1 seg.2 base) sg bases ∧
        bases.count .bounce + bounced.toNat = bounced'.toNat := by
  induction sg with
  | nil =>
    intro bounced bounced' bases h
    cases h
    exact ⟨.nil, Nat.zero_add _⟩
  | cons seg sg ih =>
    intro bounced bounced' bases h
    rw [virtqueueMapSg] at h
    split at h
    · cases h
    · rename_i base len hMap
      split at h
      · cases h
      · rename_i hLen
        rw [not_not] at hLen
        subst hLen
        obtain ⟨⟨rest, b⟩, hRest, hEq⟩ := bind_eq_ok.mp h
        cases hEq
        obtain ⟨hSome, hMaps, hFree⟩ := cpuPhysicalMemoryMap_maps hMap
        obtain ⟨hAll, hCount⟩ := ih hRest
        refine ⟨.cons ⟨hSome, hMaps⟩ hAll, ?_⟩
        rw [List.count_cons]
        cases base with
        | ram raddr =>
          have hOther : (HostBuf.ram raddr == HostBuf.bounce) = false := rfl
          simpa [hOther] using hCount
        | bounce =>
          rw [hFree rfl] at hCount ⊢
          simpa using hCount

/-- What a successful pop has done, step by step. -/
theorem virtqueuePop_ok {features : Features} {pm : PhysMap} {bounced bounced' : Bool}
    {m m' : Memory} {vq vq' : VirtQueue} {elem : VirtQueueElement}
    (h : virtqueuePop features pm bounced m vq = .ok (some (elem, m', vq', bounced'))) :
    (∃ n, virtqueueNumHeads m vq.vring vq.lastAvailIdx = .ok n ∧ n ≠ 0) ∧
      virtqueueGetHead m vq.vring vq.lastAvailIdx = .ok elem.index ∧
      m' = (takeHead features m vq).1 ∧
      vq' = { (takeHead features m vq).2 with inuse := vq.inuse + 1 } ∧
      readChain m' vq.vring elem.index = .ok (elem.inSg, elem.outSg) ∧
      ∃ b, virtqueueMapSg pm bounced elem.inSg = .ok (elem.inBase, b) ∧
        virtqueueMapSg pm b elem.outSg = .ok (elem.outBase, bounced') := by
  obtain ⟨n, hHeads, h⟩ := bind_eq_ok.mp h
  split at h
  · cases h
  · rename_i hSome
    obtain ⟨head, hHead, h⟩ := bind_eq_ok.mp h
    obtain ⟨sg, hChain, h⟩ := bind_eq_ok.mp h
    obtain ⟨ins, hIn, h⟩ := bind_eq_ok.mp h
    obtain ⟨outs, hOut, h⟩ := bind_eq_ok.mp h
    cases h
    exact ⟨⟨n, hHeads, hSome⟩, hHead, rfl, rfl, hChain, ins.2, hIn, hOut⟩

theorem virtqueueGetHead_ok {m : Memory} {r : VRing} {idx head : Nat} :
    virtqueueGetHead m r idx = .ok head ↔ head = vringAvailRing m r (idx % r.num) ∧ head < r.num := by
  unfold virtqueueGetHead
  dsimp only
  split
  · rename_i hBad
    simp only [reduceCtorEq, false_iff]
    rintro ⟨rfl, hLt⟩
    omega
  · rename_i hOk
    rw [Except.ok.injEq]
    constructor
    · rintro rfl
      exact ⟨rfl, Nat.lt_of_not_le hOk⟩
    · rintro ⟨rfl, -⟩
      rfl

/-- The messages about the contents of a chain. -/
def Exit.ofChain : Exit → Bool
  | .guestMoved | .badHead => false
  | _ => true

theorem addSg_error {m : Memory} {descPa i : Nat} {sg : Sg}
    {e : Exit} (h : addSg m descPa i sg = .error e) : e.ofChain = true := by
  unfold addSg at h
  split at h <;> split at h <;> cases h <;> rfl

theorem collectSg_error {m : Memory} {descPa max room : Nat} {e : Exit} :
    ∀ {i : Nat} {sg : Sg},
      collectSg m descPa max room i sg = .error e → e.ofChain = true := by
  induction room with
  | zero =>
    intro i sg h
    rcases bind_eq_error.mp h with hAdd | ⟨_, -, hEnd⟩
    · exact addSg_error hAdd
    · cases hEnd
      rfl
  | succ room ih =>
    intro i sg h
    rcases bind_eq_error.mp h with hAdd | ⟨_, -, h⟩
    · exact addSg_error hAdd
    · rcases bind_eq_error.mp h with hNext | ⟨_, -, h⟩
      · unfold virtqueueNextDesc at hNext
        split at hNext
        · split at hNext <;> cases hNext
          rfl
        · cases hNext
      · split at h
        · cases h
        · exact ih h

theorem readChain_error {m : Memory} {r : VRing} {head : Nat} {e : Exit}
    (h : readChain m r head = .error e) : e.ofChain = true := by
  unfold readChain at h
  split at h
  · split at h
    · cases h
      rfl
    · exact collectSg_error h
  · exact collectSg_error h

theorem virtqueueMapSg_error {pm : PhysMap} {sg : List (Nat × Nat)} {e : Exit} :
    ∀ {bounced : Bool}, virtqueueMapSg pm bounced sg = .error e → e.ofChain = true := by
  induction sg with
  | nil =>
    intro bounced h
    cases h
  | cons seg sg ih =>
    intro bounced h
    rw [virtqueueMapSg] at h
    split at h
    · cases h
      rfl
    · split at h
      · cases h
        rfl
      · rcases bind_eq_error.mp h with hRest | ⟨_, -, hEnd⟩
        · exact ih hRest
        · cases hEnd

/-- Once the two indices have passed their checks, only the chain itself can be at fault. -/
theorem virtqueuePop_error {features : Features} {pm : PhysMap} {bounced : Bool} {m : Memory}
    {vq : VirtQueue} {e : Exit} {n : Nat} (h : virtqueuePop features pm bounced m vq = .error e)
    (hHeads : virtqueueNumHeads m vq.vring vq.lastAvailIdx = .ok n)
    (hHead : n ≠ 0 → ∃ head, virtqueueGetHead m vq.vring vq.lastAvailIdx = .ok head) :
    e.ofChain = true := by
  unfold virtqueuePop at h
  rw [hHeads] at h
  simp only [Except.bind] at h
  split at h
  · cases h
  · rename_i hSome
    obtain ⟨head, hHead⟩ := hHead hSome
    rw [hHead] at h
    rcases bind_eq_error.mp h with hChain | ⟨sg, -, h⟩
    · exact readChain_error hChain
    · rcases bind_eq_error.mp h with hIn | ⟨_, -, h⟩
      · exact virtqueueMapSg_error hIn
      · rcases bind_eq_error.mp h with hOut | ⟨_, -, h⟩
        · exact virtqueueMapSg_error hOut
        · cases h

/-- Whatever a guest has put in its memory, an element that is popped is well formed: its head
is a descriptor of the ring, it has at least one segment and no more than the arrays of the
element hold, none of them empty, and all of them are RAM, but for one that may have the bounce
buffer. -/
theorem virtqueuePop_wellFormed {features : Features} {pm : PhysMap} {bounced bounced' : Bool}
    {m m' : Memory} {vq vq' : VirtQueue} {elem : VirtQueueElement}
    (h : virtqueuePop features pm bounced m vq = .ok (some (elem, m', vq', bounced'))) :
    elem.WellFormed pm bounced vq.vring.num := by
  obtain ⟨-, hHead, -, -, hChain, b, hIns, hOuts⟩ := virtqueuePop_ok h
  obtain ⟨hIn, hOut, hSome⟩ := readChain_ok hChain
  obtain ⟨hInMaps, hInCount⟩ := virtqueueMapSg_ok hIns
  obtain ⟨hOutMaps, hOutCount⟩ := virtqueueMapSg_ok hOuts
  refine ⟨(virtqueueGetHead_ok.mp hHead).2, hIn, hOut, hSome, List.rel_append hInMaps hOutMaps, ?_⟩
  have hOne := Bool.toNat_le bounced'
  rw [List.count_append]
  omega

/-- Sixteen pages of RAM at the bottom of the address space. -/
def sixteenPages : PhysMap := ⟨fun page => if page < 16 then some (page * 4096) else none, [(0, 65536)]⟩

/-- The pop from a ring of one descriptor that the guest has made available: sixteen bytes at
8192 for the host to write. -/
def popOneBuffer (pm : PhysMap) (bounced : Bool) :
    Except Exit (Option (VirtQueueElement × Memory × VirtQueue × Bool)) :=
  virtqueuePop ⟨false, false⟩ pm bounced
    (Memory.store (Memory.store (fun _ => 0) 1 [32]) 8 [16, 0, 0, 0, 2, 0, 0, 0, 0, 0, 1])
    ⟨virtqueueInit 1 0, 0, 0, false, false, 0⟩

/-- The buffer in RAM, and where there is none, with the bounce buffer free and taken. -/
theorem virtqueuePop_wellFormed_oneBuffer :
    (popOneBuffer sixteenPages false).map (Option.map (·.1)) =
        .ok (some ⟨0, [(8192, 16)], [], [.ram 8192], []⟩) ∧
      (popOneBuffer ⟨fun _ => none, []⟩ false).map (Option.map (·.1)) =
        .ok (some ⟨0, [(8192, 16)], [], [.bounce], []⟩) ∧
      (popOneBuffer ⟨fun _ => none, []⟩ true).map (Option.map (·.1)) = .error .mmio ∧
      ∀ pm bounced elem m vq bounced', popOneBuffer pm bounced = .ok (some (elem, m, vq, bounced')) →
        elem.WellFormed pm bounced 1 :=
  ⟨by decide +kernel, by decide +kernel, by decide +kernel,
    fun _ _ _ _ _ _ h => virtqueuePop_wellFormed h⟩

end VirtioCrypto.Host.Vring
