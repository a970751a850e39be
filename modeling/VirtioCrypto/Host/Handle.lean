import VirtioCrypto.Host.Answer
import VirtioCrypto.Transition

/-!
# Host — the life of a port's crypto handle

`port->cr_info` holds the descriptor of `/dev/crypto` a port works with. It comes
with the guest's `PORT_OPEN` 1 (`guest_open`) and goes with a `PORT_OPEN` 0 or a
reset (`guest_close`). `guest_open` does not look at what is there, `guest_close`
and `flush_buf` do not look whether there is anything, `guest_connected` is also
set by a status write and by a load, and the removal of a port closes nothing.

Descriptors are numbered in the order in which they are obtained. `cfd` is the
number of the one in `cr_info`, `closed` are the calls of `close` in their order,
and `uses` tells of every dereference of `cr_info` whether it was allocated.

* `flushBuf_handle` — a request leaves the handle as it is;
* `flushBuf_segv` — a request that gets to the handle of a port without one stops
  QEMU;
* `step_kept` — as long as a handle is opened once and used while it is there,
  the descriptor that is held is the one in it.
-/

namespace VirtioCrypto.Host

open Octets Cryptodev

variable {σ : Type}

def CrInfo.allocated : CrInfo σ → Bool
  | .live _ => true
  | _ => false

theorem CrInfo.allocated_iff (i : CrInfo σ) : i.allocated = true ↔ ∃ cfd, i = .live cfd := by
  cases i <;> simp [CrInfo.allocated]

/-- The handle has a descriptor: `open` did not fail. -/
def CrInfo.valid : CrInfo σ → Bool
  | .live (some _) => true
  | _ => false

/-- The two are the same handle, whatever the state behind the descriptor. -/
def SameHandle (port q : Port σ) : Prop :=
  q.crInfo.allocated = port.crInfo.allocated ∧ q.crInfo.valid = port.crInfo.valid

-- ---------------------------------------------------------------------------
-- Requests and the handle
-- ---------------------------------------------------------------------------

section Requests

variable (dev : DevCrypto σ) (L : Layout)

theorem IoctlLeaves.sameHandle {port q : Port σ} (h : IoctlLeaves port q) : SameHandle port q := by
  cases h with
  | mem m => exact ⟨rfl, rfl⟩
  | state hInfo m fd' =>
    unfold SameHandle
    rw [hInfo]
    exact ⟨rfl, rfl⟩

/-- The response reads the message and goes to the in-queue. -/
theorem respond_leaves (q : Port σ) (buf w : Nat) :
    ∃ mem ivq calls, (respond L q buf w).1 = { q with mem := mem, ivq := ivq, calls := calls } := by
  obtain ⟨mem, ivq, -, h | h⟩ := respond_ends L q buf w
  · rw [h]
    exact ⟨mem, ivq, q.calls, rfl⟩
  · rw [h]
    exact ⟨mem, ivq, _, rfl⟩

theorem respond_crInfo (q : Port σ) (buf w : Nat) : (respond L q buf w).1.crInfo = q.crInfo := by
  obtain ⟨mem, ivq, calls, h⟩ := respond_leaves L q buf w
  rw [h]

/-- A request uses the handle and the state behind it, and leaves the handle as it is. -/
theorem flushBuf_handle (port : Port σ) (buf len : Nat) :
    SameHandle port (flushBuf dev L port buf len).1 := by
  unfold flushBuf
  split
  · exact ⟨rfl, rfl⟩
  rcases port.mem.read buf (.buf L.cmdOff) 4 with ⟨_ | word, mem⟩
  · exact ⟨rfl, rfl⟩
  simp only
  rcases Cmd.ofWord (ofLE word) with _ | c
  · exact ⟨rfl, rfl⟩
  cases c with
  | CIOCGSESSION =>
    have hSame := (ioctlGsession_leaves dev L { port with mem := mem } buf).sameHandle
    simp only [flushGsession]
    generalize ioctlGsession dev L { port with mem := mem } buf = r at hSame ⊢
    rcases r with ⟨q, _ | _ | sess⟩
    · exact hSame
    · exact hSame
    · simp only
      split
      · exact hSame
      · simpa only [SameHandle, respond_crInfo] using hSame
  | CIOCCRYPT =>
    have hSame := (ioctlCrypt_leaves dev L { port with mem := mem } buf).sameHandle
    simp only [flushCrypt]
    generalize ioctlCrypt dev L { port with mem := mem } buf = r at hSame ⊢
    rcases r with ⟨q, _ | _ | crypt⟩
    · exact hSame
    · exact hSame
    · simpa only [SameHandle, respond_crInfo] using hSame
  | CIOCFSESSION =>
    have hSame := (ioctlFsession_leaves dev { port with mem := mem } buf).sameHandle
    simp only [flushFsession]
    generalize ioctlFsession dev { port with mem := mem } buf = r at hSame ⊢
    rcases r with ⟨q, _ | _ | sid⟩
    · exact hSame
    · exact hSame
    · simp only
      split
      · exact hSame
      · simpa only [SameHandle, respond_crInfo] using hSame

/-- `flush_buf` gets as far as `port->cr_info->cfd`: with a handle in place it would
issue the ioctl. -/
def reachesHandle (port : Port σ) (buf : Nat) : Bool :=
  port.chr &&
    match port.mem.read buf (.buf L.cmdOff) 4 with
    | (none, _) => false
    | (some word, mem) =>
      match Cmd.ofWord (ofLE word) with
      | none => false
      | some c => (outcome dev L { port with mem := mem, crInfo := .live none } buf c).isSome

theorem outcome_none (port : Port σ) (hInfo : port.crInfo.allocated = false) (buf : Nat) (c : Cmd) :
    outcome dev L port buf c = none := by
  obtain ⟨chr, crInfo, guest, host, thr, mem₀, ivq, calls⟩ := port
  have hNot : crInfo = .null ∨ crInfo = .freed := by
    rcases crInfo with _ | _ | _
    · exact .inl rfl
    · exact .inr rfl
    · exact absurd hInfo (by simp [CrInfo.allocated])
  cases c with
  | CIOCGSESSION =>
    simp only [outcome, ioctlGsession]
    rcases mem₀.read buf (.buf 0) OP_SIZE with ⟨_ | raw, mem⟩
    · rfl
    · rcases hNot with rfl | rfl <;> rfl
  | CIOCCRYPT =>
    simp only [outcome, ioctlCrypt]
    rcases mem₀.read buf (.buf 0) OP_SIZE with ⟨_ | raw, mem⟩
    · rfl
    · simp only
      rcases mem.read buf (.buf L.dstpOff) 1 with ⟨_ | d, mem'⟩
      · rfl
      · rcases hNot with rfl | rfl <;> rfl
  | CIOCFSESSION =>
    simp only [outcome, ioctlFsession]
    rcases mem₀.read buf (.buf 0) 4 with ⟨_ | sid, mem⟩
    · rfl
    · rcases hNot with rfl | rfl <;> rfl

/-- A case whose ioctl is not reached faults. -/
theorem flushCase_segv {port : Port σ} {buf w : Nat} {c : Cmd}
    (h : outcome dev L port buf c = none) : (flushCase dev L port buf w c).2 = .error .segv := by
  cases c with
  | CIOCGSESSION =>
    unfold outcome at h
    unfold flushCase flushGsession
    generalize ioctlGsession dev L port buf = r at h ⊢
    rcases r with ⟨q, _ | _⟩
    · rfl
    · simp at h
  | CIOCCRYPT =>
    unfold outcome at h
    unfold flushCase flushCrypt
    generalize ioctlCrypt dev L port buf = r at h ⊢
    rcases r with ⟨q, _ | _⟩
    · rfl
    · simp at h
  | CIOCFSESSION =>
    unfold outcome at h
    unfold flushCase flushFsession
    generalize ioctlFsession dev port buf = r at h ⊢
    rcases r with ⟨q, _ | _⟩
    · rfl
    · simp at h

/-- Without a handle such a request stops QEMU. -/
theorem flushBuf_segv {port : Port σ} {buf : Nat} (len : Nat)
    (hReach : reachesHandle dev L port buf = true) (hInfo : port.crInfo.allocated = false) :
    (flushBuf dev L port buf len).2 = .error .segv := by
  unfold reachesHandle at hReach
  rw [Bool.and_eq_true] at hReach
  obtain ⟨hChr, hCase⟩ := hReach
  unfold flushBuf
  rw [if_neg (by simp [hChr])]
  generalize port.mem.read buf (.buf L.cmdOff) 4 = r at hCase ⊢
  rcases r with ⟨_ | word, mem⟩
  · rfl
  simp only at hCase ⊢
  generalize Cmd.ofWord (ofLE word) = k at hCase ⊢
  rcases k with _ | c
  · exact absurd hCase (by simp)
  have hNone : outcome dev L { port with mem := mem } buf c = none :=
    outcome_none dev L { port with mem := mem } hInfo buf c
  cases c <;> exact flushCase_segv dev L hNone

end Requests

-- ---------------------------------------------------------------------------
-- The port over its life
-- ---------------------------------------------------------------------------

namespace Handle

/-- How `malloc` and `open` went in `guest_open`. -/
inductive Opened (σ : Type)
  | noMemory
  | failed
  | done (fd : σ)

/-- A port with what has become of its descriptors. `legacy` is port 0 of a device
without multiport. -/
structure State (σ : Type) where
  port : Port σ
  legacy : Bool
  cfd : Option Nat
  obtained : Nat
  closed : List Nat
  uses : List Bool
  removed : Bool

/-- What can happen to a port. -/
inductive Event (σ : Type)
  | portOpen (r : Opened σ)
  | portClose
  | setStatus (driverOk : Bool)
  | reset
  | request (space : Space) (buf len : Nat)
  | load (guestConnected : Bool)
  | chrEvent (opened : Bool)
  | remove

/-- `guest_open`. -/
def guestOpen (s : State σ) (r : Opened σ) : State σ :=
  if !s.port.chr then s
  else
    match r with
    | .noMemory => { s with port.crInfo := .null, cfd := none }
    | .failed => { s with port.crInfo := .live none, cfd := none }
    | .done fd => { s with port.crInfo := .live (some fd), cfd := some s.obtained,
                           obtained := s.obtained + 1 }

/-- `guest_close`. Without a handle there is nothing to say about the `close`. -/
def guestClose (s : State σ) : State σ :=
  if !s.port.chr then s
  else if s.port.crInfo.allocated then
    { s with port.crInfo := .freed, cfd := none, closed := s.closed ++ s.cfd.toList,
             uses := s.uses ++ [true] }
  else { s with uses := s.uses ++ [false] }

/-- `guest_reset`, for one port. -/
def guestReset (s : State σ) : State σ :=
  if s.port.guestConnected then guestClose { s with port.guestConnected := false } else s

/-- A call of `flush_buf`, for guest memory as it is then. -/
def flush (dev : DevCrypto σ) (L : Layout) (s : State σ) (space : Space) (buf len : Nat) : State σ :=
  let port := { s.port with mem := { s.port.mem with space := space } }
  { s with port := (flushBuf dev L port buf len).1,
           uses := s.uses ++ if reachesHandle dev L port buf then [port.crInfo.allocated] else [] }

variable (dev : DevCrypto σ) (L : Layout)

def apply (s : State σ) : Event σ → State σ
  | .portOpen r => guestOpen { s with port.guestConnected := true } r
  | .portClose => guestClose { s with port.guestConnected := false }
  | .setStatus driverOk =>
    -- a guest without multiport cannot tell when it opens the port
    if driverOk then { s with port.guestConnected := s.port.guestConnected || s.legacy }
    else guestReset s
  | .reset => guestReset s
  | .request space buf len =>
    -- handle_output: discard when the host side is closed
    if s.port.hostConnected && !s.port.throttled then flush dev L s space buf len else s
  | .load guestConnected => { s with port.guestConnected := guestConnected }
  | .chrEvent opened =>
    { s with port.hostConnected := opened, port.throttled := s.port.throttled && opened }
  | .remove => { s with removed := true }

/-- Nothing happens to a port that is removed. -/
def step (s : State σ) (ev : Event σ) : Option (State σ) :=
  if s.removed then none else some (apply dev L s ev)

/-- A port `virtser_port_qdev_init` has just set up, with a chardev. -/
def start (port : Port σ) (legacy : Bool) : State σ :=
  ⟨{ port with chr := true, crInfo := .null }, legacy, none, 0, [], [], false⟩

/-- The descriptors that are open. -/
def held (s : State σ) : List Nat := (List.range s.obtained).filter (· ∉ s.closed)

/-- The handle is used while it is allocated, one descriptor at most is held, each is
closed at most once, and none is left when the port is gone. -/
structure Sound (s : State σ) : Prop where
  uses : ∀ u ∈ s.uses, u = true
  single : (held s).length ≤ 1
  once : s.closed.Nodup ∧ ∀ k ∈ s.closed, k < s.obtained
  removed : s.removed = true → held s = []

/-- The guest opens a port that has no handle, closes and uses one that has, is not
reset while `guest_connected` stands without a handle, and the port is removed
without one. -/
def Orderly (s : State σ) : Event σ → Prop
  | .portOpen _ => s.port.crInfo.allocated = false
  | .portClose => s.port.crInfo.allocated = true
  | .setStatus driverOk => driverOk = false → s.port.guestConnected = true →
      s.port.crInfo.allocated = true
  | .reset => s.port.guestConnected = true → s.port.crInfo.allocated = true
  | .request space buf _ =>
    reachesHandle dev L { s.port with mem := { s.port.mem with space := space } } buf = true →
      s.port.crInfo.allocated = true
  | .load _ | .chrEvent _ => True
  | .remove => s.port.crInfo.allocated = false

instance decidableOrderly : (s : State σ) → (ev : Event σ) → Decidable (Orderly dev L s ev)
  | _, .portOpen _ | _, .portClose | _, .remove => inferInstanceAs (Decidable (_ = _))
  | _, .setStatus _ => inferInstanceAs (Decidable (_ → _ → _))
  | _, .reset | _, .request _ _ _ => inferInstanceAs (Decidable (_ → _))
  | _, .load _ | _, .chrEvent _ => isTrue trivial

-- ---------------------------------------------------------------------------
-- What orderly events keep
-- ---------------------------------------------------------------------------

/-- The descriptor that is held is the one in the handle. -/
structure Kept (s : State σ) : Prop where
  chr : s.port.chr = true
  cfd : s.cfd.isSome = s.port.crInfo.valid
  held : held s = s.cfd.toList
  uses : ∀ u ∈ s.uses, u = true
  once : s.closed.Nodup ∧ ∀ k ∈ s.closed, k < s.obtained
  removed : s.removed = true → s.port.crInfo.allocated = false

theorem valid_of_not_allocated {c : CrInfo σ} (h : c.allocated = false) : c.valid = false := by
  rcases c with _ | _ | _
  · rfl
  · rfl
  · exact absurd h (by simp [CrInfo.allocated])

theorem Kept.cfd_none {s : State σ} (h : Kept s) (hInfo : s.port.crInfo.allocated = false) :
    s.cfd = none := by
  have := h.cfd.trans (valid_of_not_allocated hInfo)
  simpa using this

theorem Kept.sound {s : State σ} (h : Kept s) : Sound s := by
  refine ⟨h.uses, ?_, h.once, fun hRemoved => ?_⟩
  · rw [h.held]
    cases s.cfd <;> simp
  · rw [h.held, h.cfd_none (h.removed hRemoved)]
    rfl

/-- A step that does not touch the descriptors. -/
theorem Kept.of_same {s s' : State σ} (h : Kept s) (hChr : s'.port.chr = s.port.chr)
    (hInfo : SameHandle s.port s'.port) (hCfd : s'.cfd = s.cfd) (hObtained : s'.obtained = s.obtained)
    (hClosed : s'.closed = s.closed) (hUses : ∀ u ∈ s'.uses, u = true)
    (hRemoved : s'.removed = s.removed) : Kept s' := by
  have hHeld : Handle.held s' = Handle.held s := by simp [Handle.held, hObtained, hClosed]
  refine ⟨hChr.trans h.chr, ?_, ?_, hUses, ?_, fun hr => ?_⟩
  · rw [hCfd, hInfo.2]
    exact h.cfd
  · rw [hHeld, hCfd]
    exact h.held
  · rw [hClosed, hObtained]
    exact h.once
  · exact hInfo.1.trans (h.removed (hRemoved ▸ hr))

theorem Kept.guestOpen {s : State σ} (h : Kept s) (hIn : s.removed = false)
    (hInfo : s.port.crInfo.allocated = false) (r : Opened σ) : Kept (guestOpen s r) := by
  have hNone := h.cfd_none hInfo
  have hEmpty : Handle.held s = [] := by rw [h.held, hNone]; rfl
  have hStill : ∀ {p : Prop}, s.removed = true → p := fun hr => absurd (hIn.symm.trans hr) (by decide)
  unfold Handle.guestOpen
  rw [if_neg (by simp [h.chr])]
  cases r with
  | noMemory => exact ⟨h.chr, rfl, hEmpty, h.uses, h.once, hStill⟩
  | failed => exact ⟨h.chr, rfl, hEmpty, h.uses, h.once, hStill⟩
  | done fd =>
    refine ⟨h.chr, rfl, ?_, h.uses, ⟨h.once.1, fun k hk => ?_⟩, hStill⟩
    · -- the new number has not been closed, as it is new
      have hFresh : s.obtained ∉ s.closed := fun hk => absurd (h.once.2 _ hk) (Nat.lt_irrefl _)
      unfold Handle.held at hEmpty ⊢
      rw [List.range_succ, List.filter_append, hEmpty]
      simp [hFresh]
    · exact Nat.lt_succ_of_lt (h.once.2 k hk)

theorem Kept.guestClose {s : State σ} (h : Kept s)
    (hInfo : s.port.crInfo.allocated = true) : Kept (guestClose s) := by
  unfold Handle.guestClose
  rw [if_neg (by simp [h.chr]), if_pos hInfo]
  have hUses : ∀ u ∈ s.uses ++ [true], u = true := by
    simpa [or_imp, forall_and] using h.uses
  have hClose : ∀ closed : List Nat, closed = s.closed ++ s.cfd.toList →
      (List.range s.obtained).filter (· ∉ closed) = [] := by
    rintro closed rfl
    have hSplit : (List.range s.obtained).filter (· ∉ s.closed ++ s.cfd.toList) =
        (Handle.held s).filter (· ∉ s.cfd.toList) := by
      simp [Handle.held, List.filter_filter, Bool.and_comm]
    rw [hSplit, h.held]
    cases s.cfd <;> simp
  refine ⟨h.chr, rfl, hClose _ rfl, hUses, ?_, fun hr => rfl⟩
  cases hc : s.cfd with
  | none => simpa using h.once
  | some k =>
    have hk : k ∈ Handle.held s := by simp [h.held, hc]
    simp only [Handle.held, List.mem_filter, List.mem_range, decide_eq_true_eq] at hk
    refine ⟨?_, ?_⟩
    · simpa [List.nodup_append] using ⟨h.once.1, fun a ha hak => hk.2 (hak ▸ ha)⟩
    · simp only [Option.toList_some, List.mem_append, List.mem_singleton]
      rintro a (ha | rfl)
      · exact h.once.2 a ha
      · exact hk.1

theorem Kept.guestReset {s : State σ} (h : Kept s)
    (hInfo : s.port.guestConnected = true → s.port.crInfo.allocated = true) :
    Kept (guestReset s) := by
  unfold Handle.guestReset
  split
  next hConnected =>
    have hSame : Kept { s with port.guestConnected := false } :=
      h.of_same rfl ⟨rfl, rfl⟩ rfl rfl rfl h.uses rfl
    exact hSame.guestClose (hInfo hConnected)
  · exact h

theorem Kept.flush {s : State σ} (h : Kept s) {space : Space} {buf len : Nat}
    (hInfo : reachesHandle dev L { s.port with mem := { s.port.mem with space := space } } buf = true →
      s.port.crInfo.allocated = true) : Kept (flush dev L s space buf len) := by
  have hSame := flushBuf_handle dev L { s.port with mem := { s.port.mem with space := space } } buf len
  have hChr : { s.port with mem := { s.port.mem with space := space } : Port σ }.chr = true := h.chr
  refine h.of_same (flushBuf_cases dev L hChr buf len).chr hSame rfl rfl rfl ?_ rfl
  simp only [Handle.flush, List.mem_append]
  rintro u (hu | hu)
  · exact h.uses u hu
  · split at hu
    next hReach => exact (List.mem_singleton.mp hu).trans (hInfo hReach)
    · exact absurd hu (by simp)

theorem step_kept (s : State σ) (ev : Event σ) (s' : State σ) (h : Kept s) (hEv : Orderly dev L s ev)
    (hStep : step dev L s ev = some s') : Kept s' := by
  simp only [step, Option.ite_none_left_eq_some, Bool.not_eq_true, Option.some.injEq] at hStep
  obtain ⟨hIn, rfl⟩ := hStep
  have hFlag : ∀ b, Kept { s with port.guestConnected := b } := fun b =>
    h.of_same rfl ⟨rfl, rfl⟩ rfl rfl rfl h.uses rfl
  cases ev with
  | portOpen r => exact (hFlag true).guestOpen hIn hEv r
  | portClose => exact (hFlag false).guestClose hEv
  | setStatus driverOk =>
    cases driverOk with
    | true => exact hFlag _
    | false => exact h.guestReset (hEv rfl)
  | reset => exact h.guestReset hEv
  | request space buf len =>
    simp only [apply]
    split
    · exact h.flush dev L hEv
    · exact h
  | load guestConnected => exact hFlag guestConnected
  | chrEvent opened => exact h.of_same rfl ⟨rfl, rfl⟩ rfl rfl rfl h.uses rfl
  | remove => exact ⟨h.chr, h.cfd, h.held, h.uses, h.once, fun _ => hEv⟩

/-- In a run of orderly events the handle is used while it is there, one descriptor
at most is held, and each is closed once, before the port is gone. -/
theorem run_sound (port : Port σ) (legacy : Bool) (evs : List (Event σ)) (s : State σ)
    (hRun : Transition.run (step dev L) (start port legacy) evs = some s)
    (hOrderly : Transition.Along (step dev L) (Orderly dev L) (start port legacy) evs) : Sound s := by
  have hStart : Kept (start port legacy) :=
    ⟨rfl, rfl, rfl, nofun, ⟨List.nodup_nil, nofun⟩, nofun⟩
  exact (Transition.run_invariant (step_kept dev L) hStart hOrderly hRun).sound

/-- A guest opens the port, ends a session, closes it, and the port is removed. -/
def oneLife : List (Event Fcrypt) :=
  [.portOpen (.done ⟨[], 0⟩), .request (emptyRequest .CIOCFSESSION) 0 120, .setStatus true, .reset,
   .remove]

theorem one_life_sound :
    ((Transition.run (step (cryptodev nullKernel) smallLayout) (start consolePort.st false) oneLife).map
        fun s => (s.uses, s.closed)) = some ([true, true], [0]) ∧
      ∀ s, Transition.run (step (cryptodev nullKernel) smallLayout) (start consolePort.st false) oneLife =
        some s → Sound s :=
  ⟨by decide +kernel, fun s hRun => run_sound (cryptodev nullKernel) smallLayout consolePort.st false
    oneLife s hRun (by decide +kernel)⟩

/-- A `PORT_OPEN` 0 that comes first dereferences NULL, a second `PORT_OPEN` 1 loses the
first descriptor, and the removal of an open port closes nothing. -/
theorem disorderly_unsound :
    (∃ s, Transition.run (step (cryptodev nullKernel) smallLayout) (start consolePort.st false)
        [.portClose] = some s ∧ s.uses = [false] ∧ ¬ Sound s) ∧
      (∃ s, Transition.run (step (cryptodev nullKernel) smallLayout) (start consolePort.st false)
        [.portOpen (.done ⟨[], 0⟩), .portOpen (.done ⟨[], 0⟩)] = some s ∧ held s = [0, 1] ∧ ¬ Sound s) ∧
      ∃ s, Transition.run (step (cryptodev nullKernel) smallLayout) (start consolePort.st false)
        [.portOpen (.done ⟨[], 0⟩), .remove] = some s ∧ s.removed = true ∧ held s = [0] ∧ ¬ Sound s := by
  refine ⟨⟨_, rfl, rfl, fun h => ?_⟩, ⟨_, rfl, rfl, fun h => ?_⟩, ⟨_, rfl, rfl, rfl, fun h => ?_⟩⟩
  · exact absurd (h.uses false (by decide)) (by decide)
  · exact absurd h.single (by decide)
  · exact absurd (h.removed rfl) (by decide)

end Handle

end VirtioCrypto.Host
