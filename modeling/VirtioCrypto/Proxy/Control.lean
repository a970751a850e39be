import VirtioCrypto.Transition

/-!
# Proxy — who is connected

The two ends of a port keep two flags each: `host_connected`, which the host's
chardev decides, and `guest_connected`, which the guest's opens decide. Each end
tells the other with control messages, one queue in each direction, in order.
This is the exchange about one port of a multiport device, from the start of the
device on: the messages of `handle_control_message` on both sides, the chardev
events, and `port_fops_open` and `port_fops_release` by any number of processes.
No message is dropped for want of a buffer.

The host's handlers run to their end. A guest process can be stopped between the
flag and the message: `looked` processes are past the check for a console,
`opening` ones have set the flag and not yet sent, `releasing` ones have sent and
not yet cleared the flag. The control work handles one message after the other and
sends in the middle of two of them (`Work`).

* `moves_of_step` — what each event does, one case for each way it can go;
* `step_hostSaid` — once the messages under way are handled, and the `PORT_READY`
  that is due is answered, the guest knows the host's flag;
* `step_guestSaid` — the same for the guest's flag, as long as the port is not
  made a console in the middle of a release.
-/

namespace VirtioCrypto.Proxy.Control

open Transition

/-- Control messages of the host. -/
inductive HostMsg
  | portAdd
  | consolePort
  | portName
  | portOpen (value : Bool)
deriving DecidableEq

/-- Control messages of the guest. -/
inductive GuestMsg
  | deviceReady
  | portReady
  | portOpen (value : Bool)
deriving DecidableEq

/-- `VirtIOSerialPort`. -/
structure QemuPort where
  hostConnected : Bool
  guestConnected : Bool
  isConsole : Bool
  hasName : Bool
deriving DecidableEq

/-- `struct port`; `added` when it is on the list of the device. -/
structure DriverPort where
  added : Bool
  console : Bool
  hostConnected : Bool
  guestConnected : Bool
deriving DecidableEq

/-- Where the control work is: between two messages, about to send `PORT_READY` for
the port it has added, or `PORT_OPEN` for the console it has set up. -/
inductive Work
  | idle
  | ready
  | console
deriving DecidableEq

structure State where
  qemu : QemuPort
  driver : DriverPort
  toGuest : List HostMsg
  toHost : List GuestMsg
  work : Work
  looked : Nat
  opening : Nat
  opened : Nat
  releasing : Nat
deriving DecidableEq

inductive Event
  | chrOpened
  | chrClosed
  | plug
  | hostRecv
  | deviceReady
  | guestRecv (hvc : Bool)
  | workSend
  | openLook
  | openTake
  | openSend
  | release
  | releaseClear
deriving DecidableEq

-- ---------------------------------------------------------------------------
-- The host
-- ---------------------------------------------------------------------------

/-- `virtio_serial_open`. -/
def virtioSerialOpen (s : State) : State :=
  if s.qemu.hostConnected then s
  else { s with qemu.hostConnected := true, toGuest := s.toGuest ++ [.portOpen true] }

/-- `virtio_serial_close`. -/
def virtioSerialClose (s : State) : State :=
  { s with qemu.hostConnected := false, toGuest := s.toGuest ++ [.portOpen false] }

/-- What the host tells about a port the guest is ready for. -/
def readyAnswer (q : QemuPort) : List HostMsg :=
  (if q.isConsole then [.consolePort] else []) ++ (if q.hasName then [.portName] else []) ++
    if q.hostConnected then [.portOpen true] else []

/-- `handle_control_message` of the host. -/
def hostHandle (s : State) : GuestMsg → State
  | .deviceReady => { s with toGuest := s.toGuest ++ [.portAdd] }
  | .portReady => { s with toGuest := s.toGuest ++ readyAnswer s.qemu }
  | .portOpen value => { s with qemu.guestConnected := value }

-- ---------------------------------------------------------------------------
-- The guest
-- ---------------------------------------------------------------------------

/-- `handle_control_message` of the guest, up to the message it sends in the middle
of `add_port` and `init_port_console`. `hvc` tells whether `hvc_alloc` succeeds. -/
def guestHandle (hvc : Bool) (s : State) : HostMsg → State
  | .portAdd =>
    if s.driver.added then { s with toHost := s.toHost ++ [.portReady] }
    else { s with driver := ⟨true, false, false, false⟩, work := .ready }
  | .consolePort =>
    if s.driver.added && !s.driver.console && hvc then
      { s with driver.console := true, driver.guestConnected := true, work := .console }
    else s
  | .portName => s
  | .portOpen value => if s.driver.added then { s with driver.hostConnected := value } else s

/-- The second half of `add_port` and of `init_port_console`. -/
def workSend (s : State) : Option State :=
  match s.work with
  | .idle => none
  | .ready => some { s with work := .idle, toHost := s.toHost ++ [.portReady] }
  | .console => some { s with work := .idle, toHost := s.toHost ++ [.portOpen true] }

/-- The part of `port_fops_open` under `inbuf_lock`. -/
def openTake (s : State) : State :=
  if s.driver.guestConnected then { s with looked := s.looked - 1 }
  else { s with looked := s.looked - 1, driver.guestConnected := true, opening := s.opening + 1 }

def step (s : State) : Event → Option State
  | .chrOpened => some (virtioSerialOpen s)
  | .chrClosed => some (virtioSerialClose s)
  | .plug => some { s with toGuest := s.toGuest ++ [.portAdd] }
  | .hostRecv =>
    match s.toHost with
    | [] => none
    | m :: rest => some (hostHandle { s with toHost := rest } m)
  | .deviceReady => some { s with toHost := s.toHost ++ [.deviceReady] }
  | .guestRecv hvc =>
    match s.work, s.toGuest with
    | .idle, m :: rest => some (guestHandle hvc { s with toGuest := rest } m)
    | _, _ => none
  | .workSend => workSend s
  | .openLook =>
    if !s.driver.added then none
    else some (if s.driver.console then s else { s with looked := s.looked + 1 })
  | .openTake => if s.looked = 0 then none else some (openTake s)
  | .openSend =>
    if s.opening = 0 then none
    else some { s with opening := s.opening - 1, opened := s.opened + 1,
                       toHost := s.toHost ++ [.portOpen true] }
  | .release =>
    if s.opened = 0 then none
    else some { s with opened := s.opened - 1, releasing := s.releasing + 1,
                       toHost := s.toHost ++ [.portOpen false] }
  | .releaseClear =>
    if s.releasing = 0 then none
    else some { s with releasing := s.releasing - 1, driver.guestConnected := false }

/-- The device after a reset: the guest has no port, the chardev may be open. -/
def start (hostConnected isConsole hasName : Bool) : State :=
  ⟨⟨hostConnected, false, isConsole, hasName⟩, ⟨false, false, false, false⟩, [], [], .idle, 0, 0, 0, 0⟩

/-- What a step does, with one case for each way it can go. -/
inductive Moves (s : State) : Event → State → Prop
  | chrAgain : Moves s .chrOpened s
  | chrOpened :
    Moves s .chrOpened
      { s with qemu.hostConnected := true, toGuest := s.toGuest ++ [.portOpen true] }
  | chrClosed : Moves s .chrClosed (virtioSerialClose s)
  | plug : Moves s .plug { s with toGuest := s.toGuest ++ [.portAdd] }
  | hostRecv {m : GuestMsg} {rest : List GuestMsg} (hq : s.toHost = m :: rest) :
    Moves s .hostRecv (hostHandle { s with toHost := rest } m)
  | deviceReady : Moves s .deviceReady { s with toHost := s.toHost ++ [.deviceReady] }
  | guestRecv {hvc : Bool} {m : HostMsg} {rest : List HostMsg} (hWork : s.work = .idle)
      (hq : s.toGuest = m :: rest) :
    Moves s (.guestRecv hvc) (guestHandle hvc { s with toGuest := rest } m)
  | sendReady (hWork : s.work = .ready) :
    Moves s .workSend { s with work := .idle, toHost := s.toHost ++ [.portReady] }
  | sendConsole (hWork : s.work = .console) :
    Moves s .workSend { s with work := .idle, toHost := s.toHost ++ [.portOpen true] }
  | lookConsole : Moves s .openLook s
  | look (hAdded : s.driver.added = true) : Moves s .openLook { s with looked := s.looked + 1 }
  | takeBusy : Moves s .openTake { s with looked := s.looked - 1 }
  | take (hLooked : s.looked ≠ 0) (hOff : s.driver.guestConnected = false) :
    Moves s .openTake
      { s with looked := s.looked - 1, driver.guestConnected := true, opening := s.opening + 1 }
  | openSend (hOpening : s.opening ≠ 0) :
    Moves s .openSend
      { s with opening := s.opening - 1, opened := s.opened + 1,
               toHost := s.toHost ++ [.portOpen true] }
  | release (hOpened : s.opened ≠ 0) :
    Moves s .release
      { s with opened := s.opened - 1, releasing := s.releasing + 1,
               toHost := s.toHost ++ [.portOpen false] }
  | releaseClear (hReleasing : s.releasing ≠ 0) :
    Moves s .releaseClear
      { s with releasing := s.releasing - 1, driver.guestConnected := false }

theorem moves_of_step {s s' : State} {ev : Event} (hStep : step s ev = some s') : Moves s ev s' := by
  cases ev with
  | chrOpened =>
    obtain rfl := Option.some.inj hStep
    unfold virtioSerialOpen
    split
    · exact .chrAgain
    · exact .chrOpened
  | chrClosed =>
    obtain rfl := Option.some.inj hStep
    exact .chrClosed
  | plug =>
    obtain rfl := Option.some.inj hStep
    exact .plug
  | hostRecv =>
    simp only [step] at hStep
    split at hStep
    · exact absurd hStep (by simp)
    next hq =>
      obtain rfl := Option.some.inj hStep
      exact .hostRecv hq
  | deviceReady =>
    obtain rfl := Option.some.inj hStep
    exact .deviceReady
  | guestRecv hvc =>
    simp only [step] at hStep
    split at hStep
    next hWork hq =>
      obtain rfl := Option.some.inj hStep
      exact .guestRecv hWork hq
    · exact absurd hStep (by simp)
  | workSend =>
    simp only [step, workSend] at hStep
    split at hStep
    · exact absurd hStep (by simp)
    next hWork =>
      obtain rfl := Option.some.inj hStep
      exact .sendReady hWork
    next hWork =>
      obtain rfl := Option.some.inj hStep
      exact .sendConsole hWork
  | openLook =>
    simp only [step, Option.ite_none_left_eq_some, Option.some.injEq, Bool.not_eq_true',
      Bool.not_eq_false] at hStep
    obtain ⟨hAdded, rfl⟩ := hStep
    split
    · exact .lookConsole
    · exact .look hAdded
  | openTake =>
    simp only [step, Option.ite_none_left_eq_some, Option.some.injEq] at hStep
    obtain ⟨hLooked, rfl⟩ := hStep
    unfold openTake
    split
    · exact .takeBusy
    next hOff => exact .take hLooked (Bool.eq_false_iff.mpr hOff)
  | openSend =>
    simp only [step, Option.ite_none_left_eq_some, Option.some.injEq] at hStep
    obtain ⟨hOpening, rfl⟩ := hStep
    exact .openSend hOpening
  | release =>
    simp only [step, Option.ite_none_left_eq_some, Option.some.injEq] at hStep
    obtain ⟨hOpened, rfl⟩ := hStep
    exact .release hOpened
  | releaseClear =>
    simp only [step, Option.ite_none_left_eq_some, Option.some.injEq] at hStep
    obtain ⟨hReleasing, rfl⟩ := hStep
    exact .releaseClear hReleasing

-- ---------------------------------------------------------------------------
-- What the host has said
-- ---------------------------------------------------------------------------

/-- What a message makes of the guest's `host_connected`; without a port there is
none. -/
def HostMsg.settle (v : Option Bool) : HostMsg → Option Bool
  | .portAdd => some (v.getD false)
  | .portOpen value => v.map fun _ => value
  | .consolePort | .portName => v

/-- The guest's `host_connected`. -/
def view (d : DriverPort) : Option Bool := if d.added then some d.hostConnected else none

/-- The same once the messages under way are handled. -/
def hostSaid (s : State) : Option Bool := s.toGuest.foldl HostMsg.settle (view s.driver)

/-- A `PORT_READY` is on its way, or about to be sent. -/
def Due (s : State) : Prop := s.work = .ready ∨ GuestMsg.portReady ∈ s.toHost

theorem settle_isSome (msgs : List HostMsg) {v : Option Bool} (h : v.isSome) :
    (msgs.foldl HostMsg.settle v).isSome := by
  induction msgs generalizing v with
  | nil => exact h
  | cons m msgs ih =>
    obtain ⟨b, rfl⟩ := Option.isSome_iff_exists.mp h
    exact ih (by cases m <;> rfl)

theorem readyAnswer_settle (q : QemuPort) (v : Option Bool) :
    (readyAnswer q).foldl HostMsg.settle v = if q.hostConnected then v.map fun _ => true else v := by
  obtain ⟨host, guest, console, name⟩ := q
  cases host <;> cases console <;> cases name <;> rfl

/-- The guest's handler does to the flag what the message says. -/
theorem guestHandle_view (hvc : Bool) (s : State) (m : HostMsg) :
    view (guestHandle hvc s m).driver = m.settle (view s.driver) := by
  cases m with
  | portAdd => cases h : s.driver.added <;> simp [guestHandle, view, HostMsg.settle, h]
  | consolePort =>
    simp only [guestHandle, HostMsg.settle]
    split <;> rfl
  | portName => rfl
  | portOpen value => cases h : s.driver.added <;> simp [guestHandle, view, HostMsg.settle, h]

/-- The guest will have the host's flag: it is on its way, or a `PORT_READY` is,
which the host answers with it. -/
structure HostSaid (s : State) : Prop where
  down : s.qemu.hostConnected = false → hostSaid s ≠ some true
  up : s.qemu.hostConnected = true → s.driver.added = false ∨ Due s ∨ hostSaid s = some true

/-- A step that leaves alone what the host has said. -/
theorem HostSaid.of_same {s s' : State} (h : HostSaid s)
    (hFlag : s'.qemu.hostConnected = s.qemu.hostConnected) (hSaid : hostSaid s' = hostSaid s)
    (hAdded : s'.driver.added = s.driver.added ∨ Due s') (hDue : Due s → Due s') : HostSaid s' := by
  refine ⟨fun hDown => hSaid ▸ h.down (hFlag ▸ hDown), fun hUp => ?_⟩
  rcases hAdded with hAdded | hNew
  · rw [hAdded, hSaid]
    exact (h.up (hFlag ▸ hUp)).imp_right (Or.imp_left hDue)
  · exact .inr (.inl hNew)

/-- The host says that it is connected. -/
theorem HostSaid.of_up {s s' : State} (hFlag : s'.qemu.hostConnected = true)
    (hDriver : s'.driver = s.driver) (hSaid : hostSaid s' = (hostSaid s).map fun _ => true) :
    HostSaid s' := by
  refine ⟨fun hDown => absurd (hFlag.symm.trans hDown) (by decide), fun _ => ?_⟩
  rw [hDriver, hSaid]
  cases hAdded : s.driver.added with
  | false => exact .inl rfl
  | true =>
    have hSome : (hostSaid s).isSome := settle_isSome s.toGuest (by simp [view, hAdded])
    obtain ⟨b, hb⟩ := Option.isSome_iff_exists.mp hSome
    exact .inr (.inr (by rw [hb]; rfl))

/-- A `PORT_ADD` says nothing about the flag. -/
theorem HostSaid.portAdd {s s' : State} (h : HostSaid s) (hQemu : s'.qemu = s.qemu)
    (hDriver : s'.driver = s.driver) (hGuest : s'.toGuest = s.toGuest ++ [.portAdd])
    (hDue : Due s → Due s') : HostSaid s' := by
  have hSaid : hostSaid s' = some ((hostSaid s).getD false) := by
    simp [hostSaid, hGuest, hDriver, HostMsg.settle]
  refine ⟨fun hDown => ?_, fun hUp => ?_⟩
  · have := h.down (hQemu ▸ hDown)
    rw [hSaid]
    cases hb : hostSaid s with
    | none => simp
    | some b => simpa [hb] using this
  · rw [hDriver]
    refine (h.up (hQemu ▸ hUp)).imp_right (Or.imp hDue fun hTrue => ?_)
    rw [hSaid, hTrue]
    rfl

theorem hostHandle_hostSaid {s : State} {m : GuestMsg} {rest : List GuestMsg} (h : HostSaid s)
    (hq : s.toHost = m :: rest) : HostSaid (hostHandle { s with toHost := rest } m) := by
  -- taking any message but PORT_READY leaves the ones that are due
  have hKeep : m ≠ .portReady → ∀ s' : State, s'.work = s.work → s'.toHost = rest → Due s → Due s' := by
    intro hNe s' hWork hRest hDue
    rw [Due, hq] at hDue
    rw [Due, hWork, hRest]
    simpa [hNe.symm] using hDue
  cases m with
  | deviceReady =>
    exact h.portAdd rfl rfl rfl (hKeep (by decide) _ rfl rfl)
  | portReady =>
    have hSaid : hostSaid (hostHandle { s with toHost := rest } .portReady) =
        if s.qemu.hostConnected then (hostSaid s).map fun _ => true else hostSaid s := by
      simp [hostSaid, hostHandle, readyAnswer_settle]
    cases hFlag : s.qemu.hostConnected with
    | true =>
      rw [hFlag, if_pos rfl] at hSaid
      exact HostSaid.of_up (s := s) hFlag rfl hSaid
    | false =>
      rw [hFlag] at hSaid
      exact ⟨fun _ => hSaid ▸ h.down hFlag, fun hUp => absurd (hFlag.symm.trans hUp) (by decide)⟩
  | portOpen value =>
    exact h.of_same rfl rfl (.inl rfl) (hKeep (by simp) _ rfl rfl)

theorem guestHandle_hostSaid {s : State} {m : HostMsg} {rest : List HostMsg} (h : HostSaid s)
    (hWork : s.work = .idle) (hq : s.toGuest = m :: rest) (hvc : Bool) :
    HostSaid (guestHandle hvc { s with toGuest := rest } m) := by
  have hRest : (guestHandle hvc { s with toGuest := rest } m).toGuest = rest := by
    cases m <;> simp only [guestHandle] <;> split <;> rfl
  have hSaid : hostSaid (guestHandle hvc { s with toGuest := rest } m) = hostSaid s := by
    rw [hostSaid, hRest, guestHandle_view, hostSaid, hq, List.foldl_cons]
  have hDue : Due s → GuestMsg.portReady ∈ s.toHost := fun hd => hd.resolve_left (by simp [hWork])
  cases m with
  | portAdd =>
    simp only [guestHandle] at hSaid ⊢
    cases hAdded : s.driver.added with
    | true =>
      simp only [hAdded, if_true] at hSaid ⊢
      exact h.of_same rfl hSaid (.inl rfl) fun _ => .inr (by simp)
    | false =>
      simp only [hAdded, Bool.false_eq_true, if_false] at hSaid ⊢
      exact h.of_same rfl hSaid (.inr (.inl rfl)) fun _ => .inl rfl
  | consolePort =>
    simp only [guestHandle] at hSaid ⊢
    split at hSaid
    next hNew =>
      rw [if_pos hNew]
      exact h.of_same rfl hSaid (.inl rfl) fun hd => .inr (hDue hd)
    next hOld =>
      rw [if_neg hOld]
      exact h.of_same rfl hSaid (.inl rfl) id
  | portName => exact h.of_same rfl hSaid (.inl rfl) id
  | portOpen value =>
    simp only [guestHandle] at hSaid ⊢
    split at hSaid
    next hThere =>
      rw [if_pos hThere]
      exact h.of_same rfl hSaid (.inl rfl) id
    next hAbsent =>
      rw [if_neg hAbsent]
      exact h.of_same rfl hSaid (.inl rfl) id

theorem step_hostSaid (s : State) (ev : Event) (s' : State) (h : HostSaid s)
    (hStep : step s ev = some s') : HostSaid s' := by
  have hMore : ∀ m t, Due s → t = s.toHost ++ [m] → s.work = .ready ∨ GuestMsg.portReady ∈ t := by
    rintro m t (hWork | hMem) rfl
    · exact .inl hWork
    · exact .inr (by simp [hMem])
  cases moves_of_step hStep with
  | chrAgain | lookConsole => exact h
  | chrOpened => exact HostSaid.of_up (s := s) rfl rfl (by simp [hostSaid, HostMsg.settle])
  | chrClosed =>
    refine ⟨fun _ => ?_, nofun⟩
    simp [hostSaid, virtioSerialClose, HostMsg.settle]
  | plug => exact h.portAdd rfl rfl rfl id
  | hostRecv hq => exact hostHandle_hostSaid h hq
  | guestRecv hWork hq => exact guestHandle_hostSaid h hWork hq _
  | deviceReady | openSend | release => exact h.of_same rfl rfl (.inl rfl) (hMore _ _ · rfl)
  | sendReady => exact h.of_same rfl rfl (.inl rfl) fun _ => .inr (by simp)
  | sendConsole hWork =>
    refine h.of_same rfl rfl (.inl rfl) fun hDue => .inr ?_
    have : GuestMsg.portReady ∈ s.toHost := hDue.resolve_left (by simp [hWork])
    simp [this]
  | look | takeBusy | take | releaseClear => exact h.of_same rfl rfl (.inl rfl) id

-- ---------------------------------------------------------------------------
-- What the guest has said
-- ---------------------------------------------------------------------------

/-- What a message makes of the host's `guest_connected`. -/
def GuestMsg.settle (v : Bool) : GuestMsg → Bool
  | .portOpen value => value
  | .deviceReady | .portReady => v

/-- The host's `guest_connected` once the messages under way are handled. -/
def guestSaid (s : State) : Bool := s.toHost.foldl GuestMsg.settle s.qemu.guestConnected

/-- The open files of the port, those half-way through their open or release
included. -/
def files (s : State) : Nat := s.opening + s.opened + s.releasing

/-- Between the flag and the message the two may differ. An open and the console set
the flag first, a release sends first. -/
structure GuestSaid (s : State) : Prop where
  single : files s ≤ 1
  taken : files s = 1 → s.driver.guestConnected = true
  console : s.work = .console → s.driver.guestConnected = true
  settled : s.opening = 0 → s.releasing = 0 → s.work ≠ .console →
    guestSaid s = s.driver.guestConnected
  leaving : s.releasing ≠ 0 → guestSaid s = false ∧ s.work ≠ .console
  absent : s.driver.added = false → s.driver.guestConnected = false ∧ s.looked = 0

/-- The set-up of a console does not overlap with a release. -/
def NoOverlap (s : State) : Event → Prop
  | .guestRecv _ => s.toGuest.head? = some .consolePort → s.driver.console = false → s.releasing = 0
  | .release => s.work ≠ .console
  | _ => True

instance decidableNoOverlap : (s : State) → (ev : Event) → Decidable (NoOverlap s ev)
  | _, .guestRecv _ => inferInstanceAs (Decidable (_ → _ → _))
  | _, .release => inferInstanceAs (Decidable (_ ≠ _))
  | _, .chrOpened | _, .chrClosed | _, .plug | _, .hostRecv | _, .deviceReady | _, .workSend
  | _, .openLook | _, .openTake | _, .openSend | _, .releaseClear => isTrue trivial

/-- A step that leaves alone what the guest has said, and whose control work is not
setting up a console. -/
theorem GuestSaid.of_same {s s' : State} (h : GuestSaid s)
    (hDriver : s'.driver.guestConnected = s.driver.guestConnected)
    (hAbsent : s'.driver.added = false → s.driver.added = false ∧ s'.looked ≤ s.looked)
    (hWork : s'.work = .console ↔ s.work = .console) (hSaid : guestSaid s' = guestSaid s)
    (hOpening : s'.opening = s.opening) (hOpened : s'.opened = s.opened)
    (hReleasing : s'.releasing = s.releasing) : GuestSaid s' := by
  have hFiles : files s' = files s := by simp [files, hOpening, hOpened, hReleasing]
  refine ⟨hFiles ▸ h.single, fun hOne => hDriver.trans (h.taken (hFiles ▸ hOne)),
    fun hc => hDriver.trans (h.console (hWork.mp hc)), ?_, ?_, ?_⟩
  · intro ho hr hw
    rw [hSaid, hDriver]
    exact h.settled (hOpening ▸ ho) (hReleasing ▸ hr) fun hc => hw (hWork.mpr hc)
  · intro hr
    obtain ⟨hFalse, hNot⟩ := h.leaving (hReleasing ▸ hr)
    exact ⟨hSaid.trans hFalse, fun hc => hNot (hWork.mp hc)⟩
  · intro ha
    obtain ⟨hOff, hLooked⟩ := h.absent (hAbsent ha).1
    exact ⟨hDriver.trans hOff, Nat.le_zero.mp (hLooked ▸ (hAbsent ha).2)⟩

theorem hostHandle_guestSaid {s : State} {m : GuestMsg} {rest : List GuestMsg} (h : GuestSaid s)
    (hq : s.toHost = m :: rest) : GuestSaid (hostHandle { s with toHost := rest } m) := by
  have hSaid : guestSaid (hostHandle { s with toHost := rest } m) = guestSaid s := by
    cases m <;> simp [guestSaid, hostHandle, hq, GuestMsg.settle]
  cases m <;> exact h.of_same rfl (⟨·, Nat.le_refl _⟩) Iff.rfl hSaid rfl rfl rfl

theorem guestHandle_guestSaid {s : State} {m : HostMsg} {rest : List HostMsg} (h : GuestSaid s)
    (hWork : s.work = .idle) {hvc : Bool}
    (hAlone : m = .consolePort → s.driver.console = false → s.releasing = 0) :
    GuestSaid (guestHandle hvc { s with toGuest := rest } m) := by
  cases m with
  | portAdd =>
    simp only [guestHandle]
    split
    · refine h.of_same rfl (⟨·, Nat.le_refl _⟩) Iff.rfl ?_ rfl rfl rfl
      simp [guestSaid, GuestMsg.settle]
    next hNew =>
      -- a port that does not exist is not connected, and the new one starts that way
      have hOff : s.driver.guestConnected = false := (h.absent (by simpa using hNew)).1
      refine h.of_same hOff.symm nofun ?_ rfl rfl rfl rfl
      simp [hWork]
  | consolePort =>
    simp only [guestHandle]
    split
    next hNew =>
      simp only [Bool.and_eq_true, Bool.not_eq_true'] at hNew
      have hNone : s.releasing = 0 := hAlone rfl hNew.1.2
      refine ⟨h.single, fun _ => rfl, fun _ => rfl, fun _ _ hc => absurd rfl hc,
        fun hr => absurd hNone hr, fun ha => absurd (hNew.1.1.symm.trans ha) (by decide)⟩
    · exact h.of_same rfl (⟨·, Nat.le_refl _⟩) Iff.rfl rfl rfl rfl rfl
  | portName => exact h.of_same rfl (⟨·, Nat.le_refl _⟩) Iff.rfl rfl rfl rfl rfl
  | portOpen value =>
    simp only [guestHandle]
    split <;> exact h.of_same rfl (⟨·, Nat.le_refl _⟩) Iff.rfl rfl rfl rfl rfl

theorem step_guestSaid (s : State) (ev : Event) (s' : State) (h : GuestSaid s)
    (hAlone : NoOverlap s ev) (hStep : step s ev = some s') : GuestSaid s' := by
  have hOne := h.single
  unfold files at hOne
  cases moves_of_step hStep with
  | chrAgain | lookConsole => exact h
  | chrOpened | chrClosed | plug =>
    exact h.of_same rfl (⟨·, Nat.le_refl _⟩) Iff.rfl rfl rfl rfl rfl
  | hostRecv hq => exact hostHandle_guestSaid h hq
  | deviceReady =>
    refine h.of_same rfl (⟨·, Nat.le_refl _⟩) Iff.rfl ?_ rfl rfl rfl
    simp [guestSaid, GuestMsg.settle]
  | guestRecv hWork hq =>
    refine guestHandle_guestSaid h hWork fun hm => hAlone ?_
    rw [hq, hm]
    rfl
  | sendReady hWork =>
    refine h.of_same rfl (⟨·, Nat.le_refl _⟩) (by simp [hWork]) ?_ rfl rfl rfl
    simp [guestSaid, GuestMsg.settle]
  | sendConsole hWork =>
    refine ⟨h.single, h.taken, nofun, fun _ _ _ => ?_, fun hr => ?_, h.absent⟩
    · simp [guestSaid, GuestMsg.settle, h.console hWork]
    · exact absurd hWork (h.leaving hr).2
  | look hAdded =>
    exact h.of_same rfl (fun ha => absurd (hAdded.symm.trans ha) (by decide)) Iff.rfl rfl rfl rfl rfl
  | takeBusy => exact h.of_same rfl (⟨·, Nat.sub_le _ _⟩) Iff.rfl rfl rfl rfl rfl
  | take hLooked hOff =>
    -- the flag is down, so there is no file: this is the one
    have hNone : files s ≠ 1 := fun hFile => absurd (hOff.symm.trans (h.taken hFile)) (by decide)
    unfold files at hNone
    refine ⟨?_, fun _ => rfl, fun _ => rfl, nofun, fun hr => ?_, fun ha => ?_⟩
    · simp only [files]
      omega
    · simp only at hr
      omega
    · exact absurd (h.absent ha).2 hLooked
  | openSend hOpening =>
    have hOn : s.driver.guestConnected = true := h.taken (by unfold files; omega)
    refine ⟨?_, fun _ => hOn, fun _ => hOn, fun _ _ _ => ?_, fun hr => ?_, h.absent⟩
    · simp only [files]
      omega
    · simp [guestSaid, GuestMsg.settle, hOn]
    · simp only at hr
      omega
  | release hOpened =>
    have hOn : s.driver.guestConnected = true := h.taken (by unfold files; omega)
    refine ⟨?_, fun _ => hOn, fun _ => hOn, nofun, fun _ => ⟨?_, hAlone⟩, h.absent⟩
    · simp only [files]
      omega
    · simp [guestSaid, GuestMsg.settle]
  | releaseClear hReleasing =>
    obtain ⟨hFalse, hNot⟩ := h.leaving hReleasing
    refine ⟨?_, fun hFile => ?_, fun hc => absurd hc hNot, fun _ _ _ => hFalse, fun hr => ?_,
      fun ha => ⟨rfl, (h.absent ha).2⟩⟩
    · simp only [files]
      omega
    · simp only [files] at hFile
      omega
    · simp only at hr
      omega

-- ---------------------------------------------------------------------------
-- Agreement
-- ---------------------------------------------------------------------------

/-- No control message is in flight and no handler is half-way. -/
structure Quiescent (s : State) : Prop where
  toGuest : s.toGuest = []
  toHost : s.toHost = []
  work : s.work = .idle
  opening : s.opening = 0
  releasing : s.releasing = 0

/-- Each end has the other's flag. -/
def Agree (s : State) : Prop :=
  s.driver.hostConnected = s.qemu.hostConnected ∧ s.qemu.guestConnected = s.driver.guestConnected

theorem Quiescent.agree {s : State} (hq : Quiescent s) (hAdded : s.driver.added = true)
    (hHost : HostSaid s) (hGuest : GuestSaid s) : Agree s := by
  have hView : hostSaid s = some s.driver.hostConnected := by
    simp [hostSaid, hq.toGuest, view, hAdded]
  have hNotDue : ¬ Due s := by simp [Due, hq.toHost, hq.work]
  refine ⟨?_, ?_⟩
  · cases hFlag : s.qemu.hostConnected with
    | false =>
      have := hHost.down hFlag
      rw [hView] at this
      simpa using this
    | true =>
      rcases hHost.up hFlag with hAbsent | hDue | hTrue
      · exact absurd (hAdded.symm.trans hAbsent) (by decide)
      · exact absurd hDue hNotDue
      · exact Option.some.inj (hView.symm.trans hTrue)
  · have := hGuest.settled hq.opening hq.releasing (by simp [hq.work])
    simpa [guestSaid, hq.toHost] using this

theorem start_hostSaid (hostConnected isConsole hasName : Bool) :
    HostSaid (start hostConnected isConsole hasName) :=
  ⟨fun _ => by simp [hostSaid, start, view], fun _ => .inl rfl⟩

theorem start_guestSaid (hostConnected isConsole hasName : Bool) :
    GuestSaid (start hostConnected isConsole hasName) := by
  constructor <;> simp [start, files, guestSaid]

/-- Whenever nothing is under way the two ends agree, as long as the port is not made
a console in the middle of a release. -/
theorem run_agree (hostConnected isConsole hasName : Bool) (evs : List Event) (s : State)
    (hRun : run step (start hostConnected isConsole hasName) evs = some s)
    (hAlone : Along step NoOverlap (start hostConnected isConsole hasName) evs)
    (hAdded : s.driver.added = true) (hQuiet : Quiescent s) : Agree s :=
  hQuiet.agree hAdded (run_keeps step_hostSaid (start_hostSaid _ _ _) hRun)
    (run_invariant step_guestSaid (start_guestSaid _ _ _) hAlone hRun)

/-- The host announces its port, the guest adds it, a process opens it, and the
chardev comes up in between. -/
def bringUp : List Event :=
  [.deviceReady, .hostRecv, .guestRecv true, .chrOpened, .workSend, .guestRecv true, .openLook,
   .hostRecv, .openTake, .guestRecv true, .openSend, .hostRecv]

theorem bringUp_agree :
    ∃ s, run step (start false false false) bringUp = some s ∧ s.driver.hostConnected = true ∧
      s.qemu.guestConnected = true ∧ Agree s :=
  ⟨_, rfl, rfl, rfl,
    run_agree false false false bringUp _ rfl (by decide +kernel) rfl ⟨rfl, rfl, rfl, rfl, rfl⟩⟩

/-- A process opens a console port before the driver knows what it is, and the
console is set up between the two halves of its release. -/
def consoleInRelease : List Event :=
  [.deviceReady, .hostRecv, .guestRecv true, .workSend, .hostRecv, .openLook, .openTake, .openSend,
   .hostRecv, .release, .hostRecv, .guestRecv true, .workSend, .hostRecv, .releaseClear]

/-- The host believes the port is open in the guest, and the guest does not. -/
theorem console_in_release_disagrees :
    ∃ s, run step (start false true false) consoleInRelease = some s ∧ s.driver.added = true ∧
      Quiescent s ∧ s.qemu.guestConnected = true ∧ s.driver.guestConnected = false ∧ ¬ Agree s :=
  ⟨_, rfl, rfl, ⟨rfl, rfl, rfl, rfl, rfl⟩, rfl, rfl, by unfold Agree; decide⟩

-- ---------------------------------------------------------------------------
-- Ports that are no console
-- ---------------------------------------------------------------------------

/-- The host never calls the port a console. -/
structure Plain (s : State) : Prop where
  qemu : s.qemu.isConsole = false
  toGuest : HostMsg.consolePort ∉ s.toGuest
  work : s.work ≠ .console

theorem Plain.noOverlap {s : State} (h : Plain s) (ev : Event) : NoOverlap s ev := by
  cases ev with
  | guestRecv hvc =>
    intro hHead
    exact absurd (List.mem_of_mem_head? hHead) h.toGuest
  | release => exact h.work
  | _ => trivial

theorem hostHandle_plain {s : State} (h : Plain s) (m : GuestMsg) : Plain (hostHandle s m) := by
  cases m with
  | deviceReady => exact ⟨h.qemu, by simp [hostHandle, h.toGuest], h.work⟩
  | portReady =>
    refine ⟨h.qemu, ?_, h.work⟩
    cases hn : s.qemu.hasName <;> cases hc : s.qemu.hostConnected <;>
      simp [hostHandle, readyAnswer, h.toGuest, h.qemu, hn, hc]
  | portOpen value => exact ⟨h.qemu, h.toGuest, h.work⟩

theorem guestHandle_plain {s : State} (h : Plain s) {m : HostMsg} (hNot : m ≠ .consolePort)
    (hvc : Bool) : Plain (guestHandle hvc s m) := by
  cases m with
  | consolePort => exact absurd rfl hNot
  | portAdd =>
    simp only [guestHandle]
    split
    · exact ⟨h.qemu, h.toGuest, h.work⟩
    · exact ⟨h.qemu, h.toGuest, nofun⟩
  | portName => exact h
  | portOpen value =>
    simp only [guestHandle]
    split
    · exact ⟨h.qemu, h.toGuest, h.work⟩
    · exact h

theorem step_plain (s : State) (ev : Event) (s' : State) (h : Plain s) (hStep : step s ev = some s') :
    Plain s' := by
  cases moves_of_step hStep with
  | chrAgain | lookConsole => exact h
  | chrOpened | plug => exact ⟨h.qemu, by simp [h.toGuest], h.work⟩
  | chrClosed => exact ⟨h.qemu, by simp [virtioSerialClose, h.toGuest], h.work⟩
  | @hostRecv m rest hq =>
    have hTaken : Plain { s with toHost := rest } := ⟨h.qemu, h.toGuest, h.work⟩
    exact hostHandle_plain hTaken m
  | @guestRecv hvc m rest hWork hq =>
    have hGuest := h.toGuest
    rw [hq, List.mem_cons, not_or] at hGuest
    have hTaken : Plain { s with toGuest := rest } := ⟨h.qemu, hGuest.2, h.work⟩
    exact guestHandle_plain hTaken (Ne.symm hGuest.1) hvc
  | sendReady => exact ⟨h.qemu, h.toGuest, nofun⟩
  | sendConsole hConsole => exact absurd hConsole h.work
  | deviceReady | look | takeBusy | take | openSend | release | releaseClear =>
    exact ⟨h.qemu, h.toGuest, h.work⟩

/-- The ends of a `virtserialport` agree whenever nothing is under way. -/
theorem serialport_agree (hostConnected hasName : Bool) (evs : List Event) (s : State)
    (hRun : run step (start hostConnected false hasName) evs = some s)
    (hAdded : s.driver.added = true) (hQuiet : Quiescent s) : Agree s := by
  have hPlain : Plain (start hostConnected false hasName) := ⟨rfl, by simp [start], nofun⟩
  have hAlone := along_of_keeps step_plain (fun _ ev h => h.noOverlap ev) evs hPlain
  exact hQuiet.agree hAdded (run_keeps step_hostSaid (start_hostSaid _ _ _) hRun)
    (run_invariant step_guestSaid (start_guestSaid _ _ _) hAlone hRun)

end VirtioCrypto.Proxy.Control
