import VirtioCrypto.Transition

/-!
# Guest — the life of a port object

A `struct port` is shared: the device's list of ports has a reference, and so has
every open file. `port_fops_open` looks the port up by its device number in the
list, takes a reference and then sees whether it may have the port;
`port_fops_release` and `unplug_port` give one back, and whoever gives the last
one runs `remove_port`. The character device stays until then (`cdev_del` is in
`remove_port`), so a port that is off the list but still open by some process can
be asked for once more. The lookup finds nothing and the first thing
`port_fops_open` does with the result is to read `port->portdev`.

The three calls are one step each. `removals` counts the calls of `remove_port`
and `outcomes` are the results of the opens.

* `step_counted` — the references are the open files and the list;
* `step_lookups` — an open goes wrong exactly on a port that is off the list.
-/

namespace VirtioCrypto.Guest.Lifecycle

open Transition

def ENXIO : Int := 6
def EMFILE : Int := 24

/-- How a call of `port_fops_open` ended. -/
inductive Outcome
  | opened
  | failed (err : Int)
  /-- the result of the lookup, `NULL`, was dereferenced -/
  | oops
deriving DecidableEq

/-- What `struct port` and its users have to do with its life. `plugged` is the
membership in `portdev->ports`. -/
structure State where
  plugged : Bool
  guestConnected : Bool
  console : Bool
  kref : Nat
  opens : Nat
  removals : Nat
  outcomes : List Outcome
deriving DecidableEq

inductive Event
  | fopsOpen
  | fopsRelease
  | unplug
  | consolePort
deriving DecidableEq

/-- `kref_put(&port->kref, remove_port)`. -/
def krefPut (s : State) : State :=
  { s with kref := s.kref - 1, removals := if s.kref = 1 then s.removals + 1 else s.removals }

def note (s : State) (o : Outcome) : State := { s with outcomes := s.outcomes ++ [o] }

/-- `port_fops_open`. -/
def portFopsOpen (s : State) : State :=
  -- find_port_by_devt sees the ports of the list only
  if !s.plugged then note s .oops
  else
    let s := { s with kref := s.kref + 1 }
    if s.console then note (krefPut s) (.failed (- ENXIO))
    else if s.guestConnected then note (krefPut s) (.failed (-EMFILE))
    else note { s with guestConnected := true, opens := s.opens + 1 } .opened

/-- `port_fops_release`, of one of the open files. -/
def portFopsRelease (s : State) : State :=
  krefPut { s with guestConnected := false, opens := s.opens - 1 }

/-- `unplug_port`. -/
def unplugPort (s : State) : State :=
  krefPut { s with plugged := false, guestConnected := false }

/-- `init_port_console`, when `hvc_alloc` succeeds: the console counts as the guest's
side of the port. -/
def initPortConsole (s : State) : State := { s with console := true, guestConnected := true }

/-- The control handler and the removal of the device find the port in the list; a
file is released once; `cdev_del` ends the opens. -/
def step (s : State) : Event → Option State
  | .fopsOpen => if s.removals = 0 then some (portFopsOpen s) else none
  | .fopsRelease => if s.opens = 0 then none else some (portFopsRelease s)
  | .unplug => if s.plugged then some (unplugPort s) else none
  | .consolePort =>
    if s.plugged then some (if s.console then s else initPortConsole s) else none

/-- A port `add_port` has just put on the list; without multiport it is a console. -/
def added (console : Bool) : State :=
  let s : State := ⟨true, false, false, 1, 0, 0, []⟩
  if console then initPortConsole s else s

-- ---------------------------------------------------------------------------
-- References
-- ---------------------------------------------------------------------------

/-- The references are those of the open files and of the list, and the port is
removed when there are none. -/
structure Counted (s : State) : Prop where
  kref : s.kref = s.opens + if s.plugged then 1 else 0
  removals : s.removals = if s.kref = 0 then 1 else 0
  single : s.opens ≤ 1
  /-- a console is connected without being open -/
  connected : s.plugged = true → s.console = false → (s.guestConnected = true ↔ s.opens = 1)

/-- A failed open takes a reference and gives it back, with the one of the list
still there. -/
theorem krefPut_get {s : State} (h : s.kref ≠ 0) : krefPut { s with kref := s.kref + 1 } = s := by
  simp [krefPut, h]

theorem counted_open {s : State} (h : Counted s) : Counted (portFopsOpen s) := by
  obtain ⟨hKref, hRemovals, hSingle, hConnected⟩ := h
  unfold portFopsOpen
  by_cases hPlugged : s.plugged = true
  · have hNe : s.kref ≠ 0 := by simp [hKref, hPlugged]
    rw [if_neg (by simp [hPlugged])]
    dsimp only
    rw [krefPut_get hNe]
    split
    · exact ⟨hKref, hRemovals, hSingle, hConnected⟩
    next hConsole =>
    split
    · exact ⟨hKref, hRemovals, hSingle, hConnected⟩
    next hFree =>
      -- nobody has the port: this is the first open
      have hNone : s.opens = 0 := by
        have : s.opens ≠ 1 := fun h1 =>
          hFree ((hConnected hPlugged (Bool.eq_false_iff.mpr hConsole)).mpr h1)
        omega
      exact ⟨by simp [note, hKref, hPlugged, hNone], by simp [note, hRemovals, hNe],
        by simp [note, hNone], fun _ _ => by simp [note, hNone]⟩
  · simp only [hPlugged, Bool.not_false, if_true]
    exact ⟨hKref, hRemovals, hSingle, hConnected⟩

theorem counted_release {s : State} (h : Counted s) (hOpen : s.opens ≠ 0) :
    Counted (portFopsRelease s) := by
  obtain ⟨hKref, hRemovals, hSingle, -⟩ := h
  have hOne : s.opens = 1 := by omega
  cases hPlugged : s.plugged with
  | false => constructor <;> simp [portFopsRelease, krefPut, hKref, hRemovals, hOne, hPlugged]
  | true => constructor <;> simp [portFopsRelease, krefPut, hKref, hRemovals, hOne, hPlugged]

theorem counted_unplug {s : State} (h : Counted s) (hPlugged : s.plugged = true) :
    Counted (unplugPort s) := by
  obtain ⟨hKref, hRemovals, hSingle, -⟩ := h
  rw [hPlugged, if_pos rfl] at hKref
  constructor <;> simp [unplugPort, krefPut, hKref, hRemovals, hSingle]

theorem step_counted (s : State) (ev : Event) (s' : State) (h : Counted s)
    (hStep : step s ev = some s') : Counted s' := by
  cases ev <;> simp only [step, Option.ite_none_right_eq_some, Option.ite_none_left_eq_some,
    Option.some.injEq] at hStep <;> obtain ⟨hGuard, rfl⟩ := hStep
  case fopsOpen => exact counted_open h
  case fopsRelease => exact counted_release h hGuard
  case unplug => exact counted_unplug h hGuard
  case consolePort =>
    split
    · exact h
    · exact ⟨h.kref, h.removals, h.single, fun _ hConsole => absurd hConsole (by simp [initPortConsole])⟩

-- ---------------------------------------------------------------------------
-- Lookups
-- ---------------------------------------------------------------------------

/-- Every open found the port, or failed before it touched it. -/
def Lookups (s : State) : Prop := Outcome.oops ∉ s.outcomes

/-- The opens are made while the port is on the list. -/
def OpensPlugged (s : State) (ev : Event) : Prop := ev = .fopsOpen → s.plugged = true

instance : DecidableRel OpensPlugged := fun _ _ => inferInstanceAs (Decidable (_ → _))

theorem step_lookups (s : State) (ev : Event) (s' : State) (hStep : step s ev = some s') :
    Lookups s' ↔ Lookups s ∧ OpensPlugged s ev := by
  cases ev <;> simp only [step, Option.ite_none_right_eq_some, Option.ite_none_left_eq_some,
    Option.some.injEq] at hStep <;> obtain ⟨-, rfl⟩ := hStep
  case fopsOpen =>
    unfold portFopsOpen
    cases hPlugged : s.plugged with
    | false => simp [Lookups, OpensPlugged, note, hPlugged]
    | true =>
      simp only [Bool.not_true, Bool.false_eq_true, if_false]
      split
      · simp [Lookups, OpensPlugged, note, krefPut, hPlugged]
      · split <;> simp [Lookups, OpensPlugged, note, krefPut, hPlugged]
  case consolePort =>
    split <;> simp [Lookups, OpensPlugged, initPortConsole]
  all_goals simp [Lookups, OpensPlugged, portFopsRelease, unplugPort, krefPut]

/-- What the life of a port should be. -/
structure Sound (s : State) : Prop where
  lookups : Lookups s
  kref : s.kref = s.opens + if s.plugged then 1 else 0
  single : s.opens ≤ 1
  removals : s.removals = if s.plugged = false ∧ s.opens = 0 then 1 else 0

theorem Counted.sound_iff {s : State} (h : Counted s) : Sound s ↔ Lookups s := by
  refine ⟨Sound.lookups, fun hLookups => ⟨hLookups, h.kref, h.single, ?_⟩⟩
  rw [h.removals, h.kref]
  cases s.plugged <;> simp

/-- The life of a port object is as it should be in exactly the runs that do not
open a port which is off the list. The counts are right in all of them. -/
theorem run_sound_iff (console : Bool) (evs : List Event) (s : State)
    (hRun : run step (added console) evs = some s) :
    Counted s ∧ (Sound s ↔ Along step OpensPlugged (added console) evs) := by
  have hStart : Counted (added console) := by
    cases console <;> constructor <;> simp [added, initPortConsole]
  have hCounted : Counted s := run_keeps step_counted hStart hRun
  have hLookups : Lookups s ↔ Lookups (added console) ∧ Along step OpensPlugged (added console) evs :=
    run_iff_along step_lookups hRun
  refine ⟨hCounted, ?_⟩
  rw [hCounted.sound_iff, hLookups]
  cases console <;> simp [Lookups, added, initPortConsole]

/-- A second process is turned away, a third one once the port is a console, and the
port goes with the last of its users. -/
theorem shared_port_sound :
    ∃ s, run step (added false)
        [.fopsOpen, .fopsOpen, .consolePort, .fopsOpen, .unplug, .fopsRelease] = some s ∧
      s.outcomes = [.opened, .failed (-EMFILE), .failed (- ENXIO)] ∧ s.removals = 1 ∧
      Counted s ∧ (Sound s ↔ Along step OpensPlugged (added false)
        [.fopsOpen, .fopsOpen, .consolePort, .fopsOpen, .unplug, .fopsRelease]) :=
  ⟨_, rfl, rfl, rfl, run_sound_iff false
    [.fopsOpen, .fopsOpen, .consolePort, .fopsOpen, .unplug, .fopsRelease] _ rfl⟩

/-- The port is unplugged while a process has it open, and a second process opens
it. -/
theorem open_after_unplug_oops :
    ∃ s, run step (added false) [.fopsOpen, .unplug, .fopsOpen] = some s ∧
      s.outcomes = [.opened, .oops] ∧ ¬ Sound s :=
  ⟨_, rfl, rfl, fun h => h.lookups (by decide)⟩

end VirtioCrypto.Guest.Lifecycle
