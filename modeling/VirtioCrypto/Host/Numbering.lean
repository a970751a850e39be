import VirtioCrypto.Host.Device

/-!
# Host — numbers for ports that ask for none

A port plugged without `nr` gets the lowest number whose bit in `ports_map` is clear.
`virtio_serial_init` sets bit 0 by hand, so that the number 0 is left for a console, and
`virtconsole_initfn` refuses any other port there. The map is kept by `add_port` and
`remove_port` for every number alike: when a console at 0 goes, its bit goes with it, and
the reservation is gone too. From then on `find_free_port_id` comes up with 0 first, and a
generic port is refused however many numbers are free.

* `freeBit_le`           — the search finds the lowest clear bit;
* `setup_counted`        — from 1 on, a bit is set exactly for a live port;
* `marked_zero_of_kept`  — bit 0 stays set while no port 0 is unplugged;
* `generic_plug_iff`     — a generic port finds a free number exactly when bit 0 is set.
-/

namespace VirtioCrypto.Host.Device

open Octets Cryptodev

-- ---------------------------------------------------------------------------
-- The lowest clear bit
-- ---------------------------------------------------------------------------

/-- `ffs` goes no further than a bit that is set, and finds one if there is any. -/
theorem ffs_le {w : BitVec 32} {j : Nat} (hj : j < 32) (hBit : w.getLsbD j = true) :
    ffs w ≠ 0 ∧ ffs w - 1 ≤ j := by
  unfold ffs
  rcases hFind : (List.range 32).find? (w.getLsbD ·) with _ | i
  · have hNone := List.find?_eq_none.mp hFind j (List.mem_range.mpr hj)
    exact absurd hBit hNone
  · refine ⟨Nat.succ_ne_zero i, ?_⟩
    rw [List.find?_range_eq_some] at hFind
    show i ≤ j
    by_contra hLt
    have hClear := hFind.2.2 j (Nat.not_le.mp hLt)
    rw [hBit] at hClear
    exact absurd hClear (by decide)

/-- The search goes no further than a clear bit of the map. -/
theorem freeBit_le (map : List (BitVec 32)) {j : Nat} (hWord : j / 32 < map.length)
    (hClear : marked map j = false) (i : Nat) : freeBit map i ≤ j + i * 32 := by
  induction map generalizing i j with
  | nil => exact absurd hWord (Nat.not_lt_zero _)
  | cons w words ih =>
    rw [freeBit]
    by_cases hHere : j < 32
    · have hBit : (~~~ w).getLsbD j = true := by
        rw [marked, Nat.div_eq_of_lt hHere, Nat.mod_eq_of_lt hHere] at hClear
        simpa [hHere] using hClear
      obtain ⟨hNe, hLe⟩ := ffs_le hHere hBit
      rw [if_pos hNe]
      omega
    · by_cases hFree : ffs (~~~ w) ≠ 0
      · rw [if_pos hFree]
        have hLt := (getLsbD_ffs hFree).1
        omega
      · -- this word is full: one word further on
        rw [if_neg hFree]
        obtain ⟨k, rfl⟩ : ∃ k, j = k + 32 := ⟨j - 32, by omega⟩
        rw [marked, Nat.add_div_right _ (by decide), Nat.add_mod_right] at hClear
        rw [Nat.add_div_right _ (by decide), List.length_cons] at hWord
        have hRest := ih (by omega) hClear (i + 1)
        omega

theorem marked_removed_self (map : List (BitVec 32)) (id : Nat) :
    marked (markPortRemoved map id) id = false := by
  unfold marked markPortRemoved
  rw [List.getElem?_modify]
  have hLt : id % 32 < 32 := Nat.mod_lt id (by decide)
  rcases map[id / 32]? with _ | w
  · rfl
  · simp only [if_true, Option.map_eq_map, Option.map_some, Option.any_some]
    rw [BitVec.getLsbD_and, BitVec.getLsbD_not, getLsbD_one_shiftLeft hLt]
    simp

-- ---------------------------------------------------------------------------
-- The map and the live ports
-- ---------------------------------------------------------------------------

/-- From 1 on the map has the numbers of the live ports and no others. -/
structure Counted (d : Device) : Prop extends Wired d where
  live : ∀ id, 1 ≤ id → Device.marked d.portsMap id = true → id ∈ d.ports.map SerialPort.id

theorem virtserPortQdevInit_counted {d d' : Device} {c : PortConf} (h : d.Counted)
    (hInit : d.virtserPortQdevInit c = .ok d') : d'.Counted := by
  refine ⟨virtserPortQdevInit_wired h.toWired hInit, ?_⟩
  obtain ⟨_, _, _, rfl⟩ := virtserPortQdevInit_ok hInit
  intro id hPos hMarked
  rw [marked_added, Bool.or_eq_true, Bool.and_eq_true, decide_eq_true_eq] at hMarked
  rw [List.map_append, List.mem_append]
  rcases hMarked with hOld | ⟨rfl, _⟩
  · exact .inl (h.live id hPos hOld)
  · exact .inr (by simp [newPort])

theorem virtserPortQdevExit_counted {d : Device} (h : d.Counted) (id : Nat) :
    (d.virtserPortQdevExit id).Counted := by
  refine ⟨virtserPortQdevExit_wired h.toWired id, ?_⟩
  unfold virtserPortQdevExit
  rcases d.findPortById id with _ | gone
  · exact h.live
  intro j hPos hMarked
  have hNe : j ≠ gone.id := by
    rintro rfl
    rw [marked_removed_self] at hMarked
    exact absurd hMarked (by decide)
  rw [marked_removed _ hNe] at hMarked
  obtain ⟨port, hPort, rfl⟩ := List.mem_map.mp (h.live j hPos hMarked)
  exact List.mem_map_of_mem (List.mem_filter.mpr ⟨hPort, by simpa using hNe⟩)

/-- However ports are plugged and unplugged, the map and the list of ports agree. -/
theorem setup_counted {d : Device} (h : d.Counted) (steps : List Setup) :
    (steps.foldl setup d).Counted := by
  induction steps generalizing d with
  | nil => exact h
  | cons s steps ih =>
    refine ih ?_
    cases s with
    | plug c =>
      simp only [setup]
      rcases hInit : d.virtserPortQdevInit c with _ | d'
      · exact h
      · exact virtserPortQdevInit_counted h hInit
    | unplug id => exact virtserPortQdevExit_counted h id

theorem init_counted (maxNrPorts : Nat) (mem : Space) (ins : Nat → InVq UInt8) :
    (init maxNrPorts mem ins).Counted := by
  refine ⟨init_wired maxNrPorts mem ins, ?_⟩
  intro id hPos hMarked
  have hClear : marked (List.replicate ((maxNrPorts + 31) / 32) 0#32) id = false := by
    unfold marked
    rw [List.getElem?_replicate]
    split <;> simp
  have hZero : id ≠ 0 := by omega
  have hOnly : marked (init maxNrPorts mem ins).portsMap id = false := by
    simp [init, marked_added, hClear, hZero]
  rw [hOnly] at hMarked
  exact absurd hMarked (by decide)

theorem setup_maxNrPorts (d : Device) (steps : List Setup) :
    (steps.foldl setup d).maxNrPorts = d.maxNrPorts := by
  induction steps generalizing d with
  | nil => rfl
  | cons s steps ih =>
    rw [List.foldl_cons, ih]
    cases s with
    | plug c =>
      simp only [setup]
      rcases hInit : d.virtserPortQdevInit c with _ | d'
      · rfl
      · obtain ⟨_, _, _, rfl⟩ := virtserPortQdevInit_ok hInit
        rfl
    | unplug id =>
      simp only [setup, virtserPortQdevExit]
      rcases d.findPortById id with _ | port <;> rfl

/-- The reservation of 0 lasts while no port is unplugged from there. -/
theorem marked_zero_of_kept {d : Device} (h : marked d.portsMap 0 = true) {steps : List Setup}
    (hKept : ∀ s ∈ steps, s ≠ .unplug 0) : marked (steps.foldl setup d).portsMap 0 = true := by
  induction steps generalizing d with
  | nil => exact h
  | cons s steps ih =>
    refine ih ?_ fun t ht => hKept t (List.mem_cons_of_mem _ ht)
    cases s with
    | plug c =>
      simp only [setup]
      rcases hInit : d.virtserPortQdevInit c with _ | d'
      · exact h
      · obtain ⟨_, _, _, rfl⟩ := virtserPortQdevInit_ok hInit
        rw [marked_added, h, Bool.true_or]
    | unplug id =>
      have hNe : id ≠ 0 := fun hEq => hKept _ List.mem_cons_self (by rw [hEq])
      simp only [setup, virtserPortQdevExit]
      rcases hFind : d.findPortById id with _ | port
      · exact h
      · rw [marked_removed _ fun hEq => hNe ((mem_of_findPortById hFind).2.symm.trans hEq.symm)]
        exact h

-- ---------------------------------------------------------------------------
-- Plugging a generic port without a number
-- ---------------------------------------------------------------------------

/-- A number other than 0 that no live port has. -/
def FreeNumber (d : Device) (id : Nat) : Prop :=
  1 ≤ id ∧ id < d.maxNrPorts ∧ id ∉ d.ports.map SerialPort.id

instance (d : Device) (id : Nat) : Decidable (d.FreeNumber id) := by
  unfold FreeNumber
  infer_instance

/-- The plug succeeds: the port is put into the list, with a number that was free. -/
def PlugsFree (d : Device) (c : PortConf) : Prop :=
  ∃ d' port, d.virtserPortQdevInit c = .ok d' ∧ d'.ports = d.ports ++ [port] ∧ d.FreeNumber port.id

/-- What `chooseId` and the checks come to for a generic port without `nr`. -/
theorem virtserPortQdevInit_generic {d : Device} {c : PortConf}
    (hAuto : c.id = VIRTIO_CONSOLE_BAD_ID) (hGeneric : c.isConsole = false) :
    d.virtserPortQdevInit c =
      if d.findFreePortId = VIRTIO_CONSOLE_BAD_ID then .error .limitReached
      else if d.maxNrPorts ≤ d.findFreePortId then .error .outOfRange
      else if d.findFreePortId = 0 then .error .reserved
      else .ok { d with
        ports := d.ports ++ [newPort c d.findFreePortId]
        portsMap := markPortAdded d.portsMap d.findFreePortId } := by
  have hNone : d.findPortById c.id = none := by
    unfold findPortById
    exact if_pos hAuto
  have hChoose : d.chooseId c = d.findFreePortId := by
    simp [chooseId, hAuto, hGeneric]
  simp [virtserPortQdevInit, hNone, hChoose, hGeneric]

/-- With bit 0 clear, the search stops at once. -/
theorem findFreePortId_zero {d : Device} (h : d.Wired) (hPorts : 0 < d.maxNrPorts)
    (hClear : marked d.portsMap 0 = false) : d.findFreePortId = 0 := by
  have hWord : 0 / 32 < d.portsMap.length := by
    rw [h.length]
    omega
  exact Nat.le_zero.mp (freeBit_le d.portsMap hWord hClear 0)

/-- With bit 0 set, a free number bounds the search, and what it finds is free. -/
theorem Counted.findFreePortId_free {d : Device} (h : d.Counted) (hMax : d.maxNrPorts < 2 ^ 32)
    (hZero : marked d.portsMap 0 = true) {id : Nat} (hFree : d.FreeNumber id) :
    d.findFreePortId ≠ VIRTIO_CONSOLE_BAD_ID ∧ d.FreeNumber d.findFreePortId := by
  obtain ⟨hPos, hRange, hFresh⟩ := hFree
  have hClear : marked d.portsMap id = false := by
    by_contra hMarked
    exact hFresh (h.live id hPos (by simpa using hMarked))
  have hWord : id / 32 < d.portsMap.length := by
    rw [h.length]
    omega
  have hLe : d.findFreePortId ≤ id := freeBit_le d.portsMap hWord hClear 0
  have hBad : d.findFreePortId ≠ VIRTIO_CONSOLE_BAD_ID := by
    unfold VIRTIO_CONSOLE_BAD_ID
    omega
  have hUnmarked : marked d.portsMap d.findFreePortId = false := (freeBit_unmarked d.portsMap 0 hBad).2
  have hNe : d.findFreePortId ≠ 0 := by
    intro hEq
    rw [hEq, hZero] at hUnmarked
    exact absurd hUnmarked (by decide)
  refine ⟨hBad, by omega, by omega, ?_⟩
  intro hMem
  obtain ⟨port, hPort, hEq⟩ := List.mem_map.mp hMem
  have hMarked := h.marked port hPort
  rw [hEq, hUnmarked] at hMarked
  exact absurd hMarked (by decide)

/-- **Numbers for generic ports.** After any plugging and unplugging, as long as some number
is free, a generic port that asks for none gets a free one exactly when bit 0 of the map is
set. -/
theorem generic_plug_iff {maxNrPorts : Nat} (hMax : maxNrPorts < 2 ^ 32) (mem : Space)
    (ins : Nat → InVq UInt8) (steps : List Setup) {c : PortConf}
    (hAuto : c.id = VIRTIO_CONSOLE_BAD_ID) (hGeneric : c.isConsole = false) {id : Nat}
    (hFree : (steps.foldl setup (init maxNrPorts mem ins)).FreeNumber id) :
    (steps.foldl setup (init maxNrPorts mem ins)).PlugsFree c ↔
      marked (steps.foldl setup (init maxNrPorts mem ins)).portsMap 0 = true := by
  have hCounted := setup_counted (init_counted maxNrPorts mem ins) steps
  have hSame : (steps.foldl setup (init maxNrPorts mem ins)).maxNrPorts = maxNrPorts :=
    setup_maxNrPorts _ steps
  generalize steps.foldl setup (init maxNrPorts mem ins) = d at hFree hCounted hSame ⊢
  unfold PlugsFree
  rw [virtserPortQdevInit_generic hAuto hGeneric]
  constructor
  · rintro ⟨d', port, hInit, _⟩
    by_contra hClear
    have hStop : d.findFreePortId = 0 :=
      findFreePortId_zero hCounted.toWired (by have := hFree.2.1; omega) (by simpa using hClear)
    -- the search stops at 0, and 0 is for consoles
    have hPorts : ¬ d.maxNrPorts ≤ 0 := by
      have := hFree.2.1
      omega
    rw [hStop, if_neg (by decide), if_neg hPorts, if_pos rfl] at hInit
    exact absurd hInit (by simp)
  · intro hZero
    obtain ⟨hBad, hFound⟩ := hCounted.findFreePortId_free (hSame ▸ hMax) hZero hFree
    have hPos : d.findFreePortId ≠ 0 := Nat.ne_of_gt hFound.1
    rw [if_neg hBad, if_neg (Nat.not_le.mpr hFound.2.1), if_neg hPos]
    exact ⟨_, newPort c d.findFreePortId, rfl, rfl, hFound⟩

/-- A port with a chardev and without `nr`. -/
def autoPort (isConsole : Bool) : PortConf := ⟨VIRTIO_CONSOLE_BAD_ID, isConsole, some true⟩

/-- A device without buffers in its queues, after some plugging and unplugging. -/
def afterSteps (maxNrPorts : Nat) (steps : List Setup) : Device :=
  steps.foldl setup (init maxNrPorts (fun _ => none) fun _ => ⟨true, [], []⟩)

theorem generic_plug_second : (afterSteps 3 [.plug (autoPort true), .plug (autoPort false)]).PlugsFree
    (autoPort false) := by
  refine (generic_plug_iff (by decide) _ _ [.plug (autoPort true), .plug (autoPort false)] rfl rfl
    (?_ : FreeNumber _ 2)).mpr ?_
  · decide +kernel
  · decide +kernel

/-- A console comes and goes: its number is the one the next generic port is to get, and
it is refused, with number 1 free. -/
theorem generic_plug_reserved :
    (afterSteps 2 [.plug (autoPort true), .unplug 0]).FreeNumber 1 ∧
      ¬ (afterSteps 2 [.plug (autoPort true), .unplug 0]).PlugsFree (autoPort false) := by
  refine ⟨by decide +kernel, ?_⟩
  rintro ⟨d', port, hInit, _⟩
  have hRefused : ((afterSteps 2 [.plug (autoPort true), .unplug 0]).virtserPortQdevInit
      (autoPort false)).toOption.isNone = true := by
    decide +kernel
  rw [hInit] at hRefused
  exact Bool.false_ne_true hRefused

end VirtioCrypto.Host.Device
