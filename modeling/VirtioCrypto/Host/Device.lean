import VirtioCrypto.Host.Bus
import Mathlib.Data.List.Nodup

/-!
# Host — the ports of a device

The bus side of `virtio-serial-bus.c`: how a port gets its number when it is plugged
(`virtser_port_qdev_init`), what goes when it is unplugged, and how a queue and a
control message find their port. A port is found by walking the list of ports, so
the first port with a number or a queue is the one that gets the message.

* `Wired` — live ports have numbers of their own, marked in `ports_map`, and the
  queues of these numbers;
* `setup_wired` — it holds however ports were plugged and unplugged;
* `findPortByVq_ovq` — under it, a queue finds the port of its number.
-/

namespace VirtioCrypto.Host

open Octets Cryptodev

-- ---------------------------------------------------------------------------
-- Ports and the device
-- ---------------------------------------------------------------------------

/-- The virtqueues `ivqs[i]` and `ovqs[i]` of a device. -/
inductive Vq
  | ivq (i : Nat)
  | ovq (i : Nat)
deriving DecidableEq, Repr

def VIRTIO_CONSOLE_BAD_ID : Nat := 2 ^ 32 - 1

/-- `VirtIOSerialPort`, with the `chr` of `VirtConsole`. `opens` is not in the code:
it counts the calls of `open` for `/dev/crypto`. -/
structure SerialPort where
  id : Nat
  isConsole : Bool
  ivq : Vq
  ovq : Vq
  chr : Bool
  crInfo : CrInfo Fcrypt
  guestConnected : Bool
  hostConnected : Bool
  throttled : Bool
  elem : Elem
  outNum : Nat
  iovIdx : Nat
  iovOffset : Nat
  opens : Nat

/-- `VirtIOSerial`, guest RAM, and what is in the queues. -/
structure Device where
  maxNrPorts : Nat
  portsMap : List (BitVec 32)
  ports : List SerialPort
  mem : Space
  ins : Nat → InVq UInt8
  outs : Nat → OutVq

namespace Device

def findPortById (d : Device) (id : Nat) : Option SerialPort :=
  if id = VIRTIO_CONSOLE_BAD_ID then none else d.ports.find? (·.id == id)

def findPortByVq (d : Device) (vq : Vq) : Option SerialPort :=
  d.ports.find? fun port => port.ivq == vq || port.ovq == vq

-- ---------------------------------------------------------------------------
-- Port numbers
-- ---------------------------------------------------------------------------

/-- `ffs`: one more than the index of the lowest bit that is set, 0 without one. -/
def ffs (w : BitVec 32) : Nat :=
  match (List.range 32).find? (w.getLsbD ·) with
  | some i => i + 1
  | none => 0

/-- The loop of `find_free_port_id`, from word `i` of the map on. -/
def freeBit : List (BitVec 32) → Nat → Nat
  | [], _ => VIRTIO_CONSOLE_BAD_ID
  | map :: words, i => if ffs (~~~ map) ≠ 0 then (ffs (~~~ map) - 1) + i * 32 else freeBit words (i + 1)

def findFreePortId (d : Device) : Nat := freeBit d.portsMap 0

def markPortAdded (map : List (BitVec 32)) (id : Nat) : List (BitVec 32) :=
  map.modify (id / 32) (· ||| 1#32 <<< (id % 32))

/-- The first line of `remove_port`. -/
def markPortRemoved (map : List (BitVec 32)) (id : Nat) : List (BitVec 32) :=
  map.modify (id / 32) (· &&& ~~~ (1#32 <<< (id % 32)))

/-- What a port is plugged with: `nr`, its class, and its chardev, which may be open
already. -/
structure PortConf where
  id : Nat
  isConsole : Bool
  chardev : Option Bool

/-- Why a port cannot be plugged. -/
inductive PlugError
  | portExists
  | limitReached
  | outOfRange
  | reserved
deriving DecidableEq, Repr

/-- The port as it is when it is put into the list. A chardev that is open makes
itself known in `qemu_chr_add_handlers`. -/
def newPort (c : PortConf) (id : Nat) : SerialPort where
  id := id
  isConsole := c.isConsole
  ivq := .ivq id
  ovq := .ovq id
  chr := c.chardev.isSome
  crInfo := .null
  guestConnected := false
  hostConnected := c.chardev.getD false
  throttled := false
  elem := ⟨0, []⟩
  outNum := 0
  iovIdx := 0
  iovOffset := 0
  opens := 0

/-- The number a port is to get: the one it asks for, or the first console at 0, or
the lowest that is free in the map. -/
def chooseId (d : Device) (c : PortConf) : Nat :=
  if c.id = VIRTIO_CONSOLE_BAD_ID then
    if c.isConsole && (d.findPortById 0).isNone then 0 else d.findFreePortId
  else c.id

/-- `virtser_port_qdev_init`, with `virtconsole_initfn` for the class's `init`. -/
def virtserPortQdevInit (d : Device) (c : PortConf) : Except PlugError Device :=
  if (d.findPortById c.id).isSome then .error .portExists
  else if d.chooseId c = VIRTIO_CONSOLE_BAD_ID then .error .limitReached
  else if d.maxNrPorts ≤ d.chooseId c then .error .outOfRange
  else if d.chooseId c = 0 ∧ !c.isConsole then .error .reserved
  else
    .ok { d with
      ports := d.ports ++ [newPort c (d.chooseId c)]
      portsMap := markPortAdded d.portsMap (d.chooseId c) }

/-- `virtser_port_qdev_exit` of the port with a number. -/
def virtserPortQdevExit (d : Device) (id : Nat) : Device :=
  match d.findPortById id with
  | none => d
  | some port =>
    { d with
      portsMap := markPortRemoved d.portsMap port.id
      outs := Function.update d.outs port.id (discardVqData (d.outs port.id))
      ports := d.ports.filter (·.id != port.id) }

/-- Plugging and unplugging. -/
inductive Setup
  | plug (c : PortConf)
  | unplug (id : Nat)

/-- A port that cannot be plugged leaves the device as it is. -/
def setup (d : Device) : Setup → Device
  | .plug c =>
    match d.virtserPortQdevInit c with
    | .error _ => d
    | .ok d' => d'
  | .unplug id => d.virtserPortQdevExit id

/-- `virtio_serial_init`: number 0 is reserved for a console. -/
def init (maxNrPorts : Nat) (mem : Space) (ins : Nat → InVq UInt8) : Device where
  maxNrPorts := maxNrPorts
  portsMap := markPortAdded (List.replicate ((maxNrPorts + 31) / 32) 0) 0
  ports := []
  mem := mem
  ins := ins
  outs := fun _ => ⟨true, [], []⟩

-- ---------------------------------------------------------------------------
-- The map
-- ---------------------------------------------------------------------------

/-- The bit of a number is set. -/
def marked (map : List (BitVec 32)) (id : Nat) : Bool := map[id / 32]?.any (·.getLsbD (id % 32))

theorem getLsbD_one_shiftLeft {i j : Nat} (hj : j < 32) :
    (1#32 <<< i).getLsbD j = decide (j = i) := by
  rw [BitVec.getLsbD_shiftLeft, BitVec.getLsbD_one]
  simp only [hj, decide_true, Bool.true_and]
  by_cases h : j < i
  · simp [h, Nat.ne_of_lt h]
  · have : j - i = 0 ↔ j = i := by omega
    simp [h, this]

theorem marked_added (map : List (BitVec 32)) (id j : Nat) :
    marked (markPortAdded map id) j = (marked map j || (decide (j = id) && (id / 32 < map.length))) := by
  unfold marked markPortAdded
  rw [List.getElem?_modify]
  rcases hj : map[j / 32]? with _ | w
  · have hOut : map.length ≤ j / 32 := List.getElem?_eq_none_iff.mp hj
    by_cases hEq : j = id
    · subst hEq
      simp [Nat.not_lt.mpr hOut]
    · simp [hEq]
  · have hIn : j / 32 < map.length := (List.getElem?_eq_some_iff.mp hj).1
    by_cases hWord : id / 32 = j / 32
    · have hEq : (j % 32 = id % 32) ↔ j = id := by omega
      simp [hWord, hIn, getLsbD_one_shiftLeft (Nat.mod_lt j (by decide : 0 < 32)), hEq]
    · have hNe : j ≠ id := by
        rintro rfl
        exact hWord rfl
      simp [hWord, hNe]

theorem marked_removed (map : List (BitVec 32)) {id j : Nat} (h : j ≠ id) :
    marked (markPortRemoved map id) j = marked map j := by
  unfold marked markPortRemoved
  rw [List.getElem?_modify]
  rcases map[j / 32]? with _ | w
  · rfl
  · by_cases hWord : id / 32 = j / 32
    · have hBit : j % 32 ≠ id % 32 := by omega
      have hLt : j % 32 < 32 := Nat.mod_lt j (by decide)
      have hKeep : (w &&& ~~~ (1#32 <<< (id % 32))).getLsbD (j % 32) = w.getLsbD (j % 32) := by
        rw [BitVec.getLsbD_and, BitVec.getLsbD_not, getLsbD_one_shiftLeft hLt]
        simp [hLt, hBit]
      simp only [hWord, if_true, Option.map_eq_map, Option.map_some, Option.any_some]
      exact hKeep
    · simp [hWord]

/-- A bit `ffs` finds is set. -/
theorem getLsbD_ffs {w : BitVec 32} (h : ffs w ≠ 0) : ffs w - 1 < 32 ∧ w.getLsbD (ffs w - 1) = true := by
  unfold ffs at h ⊢
  rcases hFind : (List.range 32).find? (w.getLsbD ·) with _ | i
  · simp [hFind] at h
  · simp only [Nat.add_sub_cancel]
    exact ⟨List.mem_range.mp (List.mem_of_find?_eq_some hFind), List.find?_some hFind⟩

/-- The number `find_free_port_id` comes up with is not marked. -/
theorem freeBit_unmarked (map : List (BitVec 32)) (i : Nat) (h : freeBit map i ≠ VIRTIO_CONSOLE_BAD_ID) :
    i * 32 ≤ freeBit map i ∧ marked map (freeBit map i - i * 32) = false := by
  induction map generalizing i with
  | nil => exact absurd rfl h
  | cons w words ih =>
    rw [freeBit] at h ⊢
    by_cases hFree : ffs (~~~ w) ≠ 0
    · rw [if_pos hFree]
      obtain ⟨hLt, hBit⟩ := getLsbD_ffs hFree
      refine ⟨Nat.le_add_left _ _, ?_⟩
      rw [Nat.add_sub_cancel, marked, Nat.div_eq_of_lt hLt, Nat.mod_eq_of_lt hLt]
      simpa [hLt] using hBit
    · rw [if_neg hFree] at h ⊢
      obtain ⟨hLe, hUnmarked⟩ := ih (i + 1) h
      refine ⟨by omega, ?_⟩
      -- one word further on
      have hShift : freeBit words (i + 1) - i * 32 = freeBit words (i + 1) - (i + 1) * 32 + 32 := by omega
      rw [hShift, marked, Nat.add_div_right _ (by decide), Nat.add_mod_right]
      exact hUnmarked

-- ---------------------------------------------------------------------------
-- Live ports have numbers and queues of their own
-- ---------------------------------------------------------------------------

/-- The list of ports and the map agree. -/
structure Wired (d : Device) : Prop where
  length : d.portsMap.length = (d.maxNrPorts + 31) / 32
  nodup : (d.ports.map SerialPort.id).Nodup
  marked : ∀ port ∈ d.ports, marked d.portsMap port.id = true
  range : ∀ port ∈ d.ports, port.id < d.maxNrPorts ∧ port.id ≠ VIRTIO_CONSOLE_BAD_ID
  vqs : ∀ port ∈ d.ports, port.ivq = .ivq port.id ∧ port.ovq = .ovq port.id

theorem mem_of_findPortById {d : Device} {id : Nat} {port : SerialPort}
    (h : d.findPortById id = some port) : port ∈ d.ports ∧ port.id = id := by
  unfold findPortById at h
  split at h
  · simp at h
  · exact ⟨List.mem_of_find?_eq_some h, by simpa using List.find?_some h⟩

/-- No port has a number that is not found. -/
theorem notMem_of_findPortById {d : Device} {id : Nat} (hId : id ≠ VIRTIO_CONSOLE_BAD_ID)
    (h : d.findPortById id = none) : id ∉ d.ports.map SerialPort.id := by
  unfold findPortById at h
  rw [if_neg hId, List.find?_eq_none] at h
  intro hMem
  obtain ⟨port, hPort, rfl⟩ := List.mem_map.mp hMem
  exact h port hPort (by simp)

/-- The number a port is about to get is no live port's. -/
theorem Wired.chooseId_fresh {d : Device} (h : d.Wired) {c : PortConf}
    (hNone : d.findPortById c.id = none) (hId : d.chooseId c ≠ VIRTIO_CONSOLE_BAD_ID) :
    d.chooseId c ∉ d.ports.map SerialPort.id := by
  unfold chooseId at hId ⊢
  by_cases hAuto : c.id = VIRTIO_CONSOLE_BAD_ID
  swap
  · rw [if_neg hAuto]
    exact notMem_of_findPortById hAuto hNone
  rw [if_pos hAuto] at hId ⊢
  by_cases hZero : (c.isConsole && (d.findPortById 0).isNone) = true
  · rw [if_pos hZero]
    exact notMem_of_findPortById (by decide) (by simpa using (Bool.and_eq_true_iff.mp hZero).2)
  · rw [if_neg hZero] at hId ⊢
    intro hMem
    obtain ⟨port, hPort, hEq⟩ := List.mem_map.mp hMem
    have hUnmarked := (freeBit_unmarked d.portsMap 0 hId).2
    rw [Nat.zero_mul, Nat.sub_zero] at hUnmarked
    have hMarked := h.marked port hPort
    rw [hEq, findFreePortId, hUnmarked] at hMarked
    exact absurd hMarked (by simp)

/-- A port that is plugged: its number was free and in range, and it is the last in the
list. -/
theorem virtserPortQdevInit_ok {d d' : Device} {c : PortConf}
    (hInit : d.virtserPortQdevInit c = .ok d') :
    d.findPortById c.id = none ∧ d.chooseId c ≠ VIRTIO_CONSOLE_BAD_ID ∧
      d.chooseId c < d.maxNrPorts ∧
      d' = { d with
        ports := d.ports ++ [newPort c (d.chooseId c)]
        portsMap := markPortAdded d.portsMap (d.chooseId c) } := by
  unfold virtserPortQdevInit at hInit
  split at hInit
  · simp at hInit
  next hNone =>
  split at hInit
  · simp at hInit
  next hId =>
  split at hInit
  · simp at hInit
  next hRange =>
  split at hInit
  · simp at hInit
  simp only [Except.ok.injEq] at hInit
  exact ⟨by simpa using hNone, hId, Nat.not_le.mp hRange, hInit.symm⟩

theorem virtserPortQdevInit_wired {d d' : Device} {c : PortConf} (h : d.Wired)
    (hInit : d.virtserPortQdevInit c = .ok d') : d'.Wired := by
  obtain ⟨hNone, hId, hRange, rfl⟩ := virtserPortQdevInit_ok hInit
  have hFresh := h.chooseId_fresh hNone hId
  generalize d.chooseId c = n at hFresh hId hRange
  have hWord : n / 32 < d.portsMap.length := by
    rw [h.length]
    omega
  refine ⟨?_, ?_, ?_, ?_, ?_⟩
  · simpa [markPortAdded] using h.length
  · rw [List.map_append, List.nodup_append]
    refine ⟨h.nodup, by simp, ?_⟩
    rintro a ha b hb rfl
    obtain rfl : a = n := by simpa [newPort] using hb
    exact hFresh ha
  · intro port hPort
    rw [marked_added]
    rcases List.mem_append.mp hPort with hOld | hNew
    · rw [h.marked port hOld, Bool.true_or]
    · rw [List.mem_singleton.mp hNew]
      simp [newPort, hWord]
  · intro port hPort
    rcases List.mem_append.mp hPort with hOld | hNew
    · exact h.range port hOld
    · rw [List.mem_singleton.mp hNew]
      exact ⟨hRange, hId⟩
  · intro port hPort
    rcases List.mem_append.mp hPort with hOld | hNew
    · exact h.vqs port hOld
    · rw [List.mem_singleton.mp hNew]
      exact ⟨rfl, rfl⟩

theorem virtserPortQdevExit_wired {d : Device} (h : d.Wired) (id : Nat) :
    (d.virtserPortQdevExit id).Wired := by
  unfold virtserPortQdevExit
  rcases hFind : d.findPortById id with _ | gone
  · exact h
  refine ⟨?_, ?_, ?_, ?_, ?_⟩
  · simpa [markPortRemoved] using h.length
  · exact h.nodup.sublist (List.filter_sublist.map _)
  · intro port hPort
    obtain ⟨hOld, hNe⟩ := List.mem_filter.mp hPort
    rw [marked_removed _ (by simpa using hNe)]
    exact h.marked port hOld
  · intro port hPort
    exact h.range port (List.mem_filter.mp hPort).1
  · intro port hPort
    exact h.vqs port (List.mem_filter.mp hPort).1

/-- However ports are plugged and unplugged, the live ones have numbers and queues of
their own. -/
theorem setup_wired {d : Device} (h : d.Wired) (steps : List Setup) :
    (steps.foldl setup d).Wired := by
  induction steps generalizing d with
  | nil => exact h
  | cons s steps ih =>
    refine ih ?_
    cases s with
    | plug c =>
      simp only [setup]
      rcases hInit : d.virtserPortQdevInit c with _ | d'
      · exact h
      · exact virtserPortQdevInit_wired h hInit
    | unplug id => exact virtserPortQdevExit_wired h id

theorem init_wired (maxNrPorts : Nat) (mem : Space) (ins : Nat → InVq UInt8) :
    (init maxNrPorts mem ins).Wired where
  length := by simp [init, markPortAdded]
  nodup := List.nodup_nil
  marked := fun _ hPort => absurd hPort (by simp [init])
  range := fun _ hPort => absurd hPort (by simp [init])
  vqs := fun _ hPort => absurd hPort (by simp [init])

/-- **Routing.** A queue finds the port of its number. -/
theorem Wired.findPortByVq_ovq {d : Device} (h : d.Wired) (id : Nat) :
    d.findPortByVq (.ovq id) = d.findPortById id := by
  have hSame : d.findPortByVq (.ovq id) = d.ports.find? (·.id == id) := by
    have hVqs := h.vqs
    unfold findPortByVq
    generalize d.ports = ports at hVqs ⊢
    induction ports with
    | nil => rfl
    | cons port ports ih =>
      obtain ⟨hIn, hOut⟩ := hVqs port List.mem_cons_self
      have hKey : (port.ivq == .ovq id || port.ovq == .ovq id) = (port.id == id) := by
        rw [Bool.eq_iff_iff]
        simp [hIn, hOut]
      rw [List.find?_cons, List.find?_cons, hKey, ih fun p hp => hVqs p (List.mem_cons_of_mem _ hp)]
  rw [hSame]
  unfold findPortById
  split
  · next hBad =>
    rw [List.find?_eq_none]
    intro port hPort
    have hNe := (h.range port hPort).2
    simpa [hBad] using hNe
  · rfl

end Device

end VirtioCrypto.Host
