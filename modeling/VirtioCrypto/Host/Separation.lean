import VirtioCrypto.Host.Device
import VirtioCrypto.Host.Local
import VirtioCrypto.Transition

/-!
# Host — ports side by side

A device with any number of ports, whose guest sends requests on them and opens and
closes them in any order. The ports share the device's list, its queues' table and
guest RAM; each open of `/dev/crypto` is a session table of its own (`fresh` says
how it starts out, by port and number of the open).

What a port sees is the state of its sessions and its in queue. A message is written
to memory that no message still in a queue occupies, and it is consumed while its
port is open.

* `step_ready` — what every step keeps: wired ports, and well-formed messages that
  are apart in the queues;
* `notify_spec` — a notification in two memories that hold the port's messages;
* `run_separate` — with confined requests, a port sees what it would see alone.
-/

namespace VirtioCrypto.Host

open Octets Cryptodev

def Vq.index : Vq → Nat
  | .ivq i => i
  | .ovq i => i

namespace SerialPort

/-- `guest_open`. -/
def guestOpen (fresh : Nat → Nat → Option Nat) (port : SerialPort) : SerialPort :=
  if !port.chr then port
  else
    { port with
      crInfo := .live ((fresh port.id port.opens).map fun clock => ⟨[], clock⟩)
      opens := port.opens + 1 }

/-- `guest_close`. -/
def guestClose (port : SerialPort) : SerialPort :=
  if !port.chr then port else { port with crInfo := .freed }

/-- `VIRTIO_CONSOLE_PORT_OPEN`. -/
def portOpen (fresh : Nat → Nat → Option Nat) (value : Bool) (port : SerialPort) : SerialPort :=
  if value then guestOpen fresh { port with guestConnected := true }
  else guestClose { port with guestConnected := false }

/-- The port after the flush loop has worked on it. -/
def store (port : SerialPort) (f : Flush (Port Fcrypt)) : SerialPort :=
  { port with
    chr := f.st.chr
    crInfo := f.st.crInfo
    guestConnected := f.st.guestConnected
    hostConnected := f.st.hostConnected
    throttled := f.st.throttled
    elem := f.elem
    outNum := f.outNum
    iovIdx := f.iovIdx
    iovOffset := f.iovOffset }

end SerialPort

namespace Device

-- ---------------------------------------------------------------------------
-- The device at work
-- ---------------------------------------------------------------------------

/-- A port with its queues and guest RAM, as the flush loop works on it. -/
def lend (d : Device) (port : SerialPort) : Flush (Port Fcrypt) where
  st :=
    { chr := port.chr
      crInfo := port.crInfo
      guestConnected := port.guestConnected
      hostConnected := port.hostConnected
      throttled := port.throttled
      mem := ⟨d.mem, []⟩
      ivq := d.ins port.ivq.index
      calls := [] }
  ovq := d.outs port.ovq.index
  elem := port.elem
  outNum := port.outNum
  iovIdx := port.iovIdx
  iovOffset := port.iovOffset

/-- A change to the port with a number. -/
def update (d : Device) (id : Nat) (g : SerialPort → SerialPort) : Device :=
  { d with ports := d.ports.map fun port => if port.id = id then g port else port }

/-- The device after the flush loop has worked on a port. -/
def settle (d : Device) (port : SerialPort) (f : Flush (Port Fcrypt)) : Device :=
  { d.update port.id (·.store f) with
    mem := f.st.mem.space
    ins := Function.update d.ins port.ivq.index f.st.ivq
    outs := Function.update d.outs port.ovq.index f.ovq }

/-- `handle_output` of a device on the queue `ovqs[i]`; nothing when that was the end
of QEMU. -/
def handleOutput (K : Kernel) (L : Layout) (d : Device) (i : Nat) : Option Device :=
  match d.findPortByVq (.ovq i) with
  | none => some { d with outs := Function.update d.outs i (discardVqData (d.outs i)) }
  | some port =>
    match Host.handleOutput (cryptodev K) L (d.lend port) with
    | (f, none) => some (d.settle port f)
    | (_, some _) => none

/-- The messages in an out queue. -/
def pending (d : Device) (i : Nat) : List Nat := (d.outs i).avail.map Elem.index

def isOpen (d : Device) (id : Nat) : Bool := (d.findPortById id).any (·.guestConnected)

/-- No message in a queue is in the way of one at `base`. -/
def free (L : Layout) (d : Device) (base : Nat) : Bool :=
  (List.range d.maxNrPorts).all fun i =>
    (d.pending i).all fun b => b + L.sizeof ≤ base || base + L.sizeof ≤ b

/-- What happens: a request is put into a queue, the host is notified of one, a
`PORT_OPEN` message, an in-buffer is posted, the used in-buffers are taken. -/
inductive Event
  | submit (id base : Nat) (msg : Bytes)
  | notify (id : Nat)
  | portOpen (id : Nat) (value : Bool)
  | post (id size : Nat)
  | drain (id : Nat)

/-- The port an event is about. -/
def Event.port : Event → Nat
  | .submit id _ _ => id
  | .notify id => id
  | .portOpen id _ => id
  | .post id _ => id
  | .drain id => id

/-- A request on an open port: the message is written and queued. -/
def submit (L : Layout) (d : Device) (id base : Nat) (msg : Bytes) : Device :=
  { d with
    mem := d.mem.put base msg
    outs := Function.update d.outs id
      { d.outs id with avail := (d.outs id).avail ++ [requestElem L base] } }

/-- The in queue `ivqs[id]` after the guest has been at it. -/
def setIn (d : Device) (id : Nat) (q : InVq UInt8) : Device :=
  { d with ins := Function.update d.ins id q }

/-- One event. Requests are sent and consumed while their port is open, and
`PORT_OPEN` messages alternate. -/
def step (K : Kernel) (L : Layout) (fresh : Nat → Nat → Option Nat) (d : Device) :
    Event → Option Device
  | .submit id base msg =>
    if d.isOpen id ∧ msg.length = L.sizeof ∧ (Cmd.ofWord (u32 msg L.cmdOff)).isSome ∧ d.free L base
    then some (d.submit L id base msg) else none
  | .notify id => if d.isOpen id ∨ d.pending id = [] then d.handleOutput K L id else none
  | .portOpen id value =>
    if (d.findPortById id).any (·.guestConnected != value)
    then some (d.update id (·.portOpen fresh value)) else none
  | .post id size => some (d.setIn id { d.ins id with avail := (d.ins id).avail ++ [size] })
  | .drain id => some (d.setIn id { d.ins id with used := [] })

/-- What a port sees: the state of its sessions, and its in queue. -/
def view (d : Device) (id : Nat) : Option (CrInfo Fcrypt × InVq UInt8) :=
  (d.findPortById id).map fun port => (port.crInfo, d.ins id)

/-- Every request of a notification is `Isolated` when its turn comes. -/
def Confined (K : Kernel) (L : Layout) (d : Device) : Event → Prop
  | .notify id => ∀ port, d.findPortById id = some port → port.hostConnected = true →
      ConfinedTurns K L (d.pending id).length (d.lend port)
  | _ => True

-- ---------------------------------------------------------------------------
-- Ports and queues between two events
-- ---------------------------------------------------------------------------

/-- A port between two calls of the flush loop. -/
structure AtRest (port : SerialPort) : Prop where
  outNum : port.outNum = 0
  unthrottled : port.throttled = false
  backed : port.hostConnected = true → port.chr = true
  handle : port.guestConnected = true → port.chr = true → ∃ cfd, port.crInfo = .live cfd

/-- The out queues hold messages for the three commands, none in the way of another. -/
structure Queues (L : Layout) (maxNrPorts : Nat) (mem : Space) (outs : Nat → OutVq)
    (pending : Nat → List Nat) : Prop where
  ready : ∀ i, (outs i).ready = true
  elems : ∀ i, (outs i).avail = (pending i).map (requestElem L)
  range : ∀ i, maxNrPorts ≤ i → pending i = []
  msgs : ∀ i, ∀ b ∈ pending i, IsMessage L mem b
  within : ∀ i, (pending i).Pairwise fun a b => Space.Disjoint a L.sizeof b L.sizeof
  across : ∀ i j, i ≠ j → ∀ a ∈ pending i, ∀ b ∈ pending j, Space.Disjoint a L.sizeof b L.sizeof

/-- The device between two events. -/
structure Ready (L : Layout) (d : Device) : Prop where
  wired : d.Wired
  atRest : ∀ port ∈ d.ports, AtRest port
  ins : ∀ i, (d.ins i).ready = true
  queues : Queues L d.maxNrPorts d.mem d.outs d.pending

/-- A change to a port that leaves its number and its queues. -/
def KeepsPlace (g : SerialPort → SerialPort) : Prop :=
  ∀ port, (g port).id = port.id ∧ (g port).ivq = port.ivq ∧ (g port).ovq = port.ovq

theorem portOpen_keepsPlace (fresh : Nat → Nat → Option Nat) (value : Bool) :
    KeepsPlace (·.portOpen fresh value) := by
  intro port
  unfold SerialPort.portOpen SerialPort.guestOpen SerialPort.guestClose
  cases value <;> cases hChr : port.chr <;> simp [hChr]

theorem store_keepsPlace (f : Flush (Port Fcrypt)) : KeepsPlace (·.store f) :=
  fun _ => ⟨rfl, rfl, rfl⟩

theorem portOpen_atRest {port : SerialPort} (h : AtRest port) (fresh : Nat → Nat → Option Nat)
    (value : Bool) : AtRest (port.portOpen fresh value) := by
  obtain ⟨hNum, hThr, hBacked, -⟩ := h
  unfold SerialPort.portOpen SerialPort.guestOpen SerialPort.guestClose
  cases value <;> cases hChr : port.chr
  · refine ⟨?_, ?_, ?_, ?_⟩ <;> simp_all
  · refine ⟨?_, ?_, ?_, ?_⟩ <;> simp_all
  · refine ⟨?_, ?_, ?_, ?_⟩ <;> simp_all
  · refine ⟨?_, ?_, ?_, ?_⟩ <;> simp_all

variable {d : Device} {g : SerialPort → SerialPort}

theorem map_update_id (hg : KeepsPlace g) (id : Nat) :
    (d.update id g).ports.map SerialPort.id = d.ports.map SerialPort.id := by
  unfold update
  rw [List.map_map]
  refine List.map_congr_left fun port _ => ?_
  simp only [Function.comp]
  split
  · exact (hg port).1
  · rfl

/-- Looking for a port after a change to one. -/
theorem findPortById_update (hg : KeepsPlace g) (id j : Nat) :
    (d.update id g).findPortById j =
      if j = id then (d.findPortById j).map g else d.findPortById j := by
  unfold findPortById update
  by_cases hBad : j = VIRTIO_CONSOLE_BAD_ID
  · simp [hBad]
  simp only [if_neg hBad]
  have hKey : ((fun port : SerialPort => port.id == j) ∘
      fun port => if port.id = id then g port else port) = (·.id == j) := by
    funext port
    simp only [Function.comp]
    split
    · rw [(hg port).1]
    · rfl
  rw [List.find?_map, hKey]
  cases hFind : d.ports.find? (·.id == j) with
  | none => simp
  | some port =>
    have hId : port.id = j := by simpa using List.find?_some hFind
    rw [Option.map_some, Option.map_some, hId]
    split <;> rfl

theorem forall_update {P : SerialPort → Prop} {id : Nat} (h : ∀ port ∈ d.ports, P port)
    (hg : ∀ port ∈ d.ports, port.id = id → P (g port)) : ∀ port ∈ (d.update id g).ports, P port := by
  intro port hPort
  obtain ⟨old, hOld, rfl⟩ := List.mem_map.mp hPort
  split
  · next hId => exact hg old hOld hId
  · exact h old hOld

theorem Wired.update (h : d.Wired) (hg : KeepsPlace g) (id : Nat) : (d.update id g).Wired where
  length := h.length
  nodup := by
    rw [map_update_id hg]
    exact h.nodup
  marked := forall_update h.marked fun port hPort _ => by
    rw [(hg port).1]
    exact h.marked port hPort
  range := forall_update h.range fun port hPort _ => by
    rw [(hg port).1]
    exact h.range port hPort
  vqs := forall_update h.vqs fun port hPort _ => by
    rw [(hg port).1, (hg port).2.1, (hg port).2.2]
    exact h.vqs port hPort

/-- The memory and the queues are no part of the wiring. -/
theorem Wired.withQueues (h : d.Wired) (mem : Space) (ins : Nat → InVq UInt8) (outs : Nat → OutVq) :
    ({ d with mem := mem, ins := ins, outs := outs } : Device).Wired :=
  ⟨h.length, h.nodup, h.marked, h.range, h.vqs⟩

-- ---------------------------------------------------------------------------
-- The queues under a request and under a notification
-- ---------------------------------------------------------------------------

theorem pending_setOut (d : Device) (mem : Space) (i j : Nat) (q : OutVq) :
    ({ d with mem := mem, outs := Function.update d.outs i q } : Device).pending j =
      if j = i then q.avail.map Elem.index else d.pending j := by
  unfold pending
  simp only [Function.update_apply]
  split <;> rfl

theorem outs_submit (L : Layout) (d : Device) (id base j : Nat) (msg : Bytes) :
    (d.submit L id base msg).outs j =
      if j = id then { d.outs id with avail := (d.outs id).avail ++ [requestElem L base] }
      else d.outs j :=
  Function.update_apply _ _ _ _

theorem pending_submit (L : Layout) (d : Device) (id base j : Nat) (msg : Bytes) :
    (d.submit L id base msg).pending j =
      if j = id then d.pending id ++ [base] else d.pending j := by
  unfold submit
  rw [pending_setOut, List.map_append]
  rfl

variable {L : Layout} {K : Kernel}

/-- What `free` says of a message in a queue. -/
theorem Queues.disjoint_of_free {mem : Space}
    (h : Queues L d.maxNrPorts mem d.outs d.pending) {base : Nat} (hFree : d.free L base = true)
    {i b : Nat} (hb : b ∈ d.pending i) : Space.Disjoint b L.sizeof base L.sizeof := by
  have hi : i < d.maxNrPorts := by
    by_contra hOut
    rw [h.range i (Nat.not_lt.mp hOut)] at hb
    simp at hb
  unfold free at hFree
  have hHere := List.all_eq_true.mp (List.all_eq_true.mp hFree i (List.mem_range.mpr hi)) b hb
  simpa [Space.Disjoint] using hHere

/-- A request joins the queue. -/
theorem Queues.submit (h : Queues L d.maxNrPorts d.mem d.outs d.pending) {id base : Nat} {msg : Bytes}
    (hId : id < d.maxNrPorts) (hLen : msg.length = L.sizeof)
    (hCmd : (Cmd.ofWord (u32 msg L.cmdOff)).isSome) (hFree : d.free L base = true) :
    Queues L d.maxNrPorts (d.submit L id base msg).mem (d.submit L id base msg).outs
      (d.submit L id base msg).pending := by
  have hApart : ∀ i, ∀ b ∈ d.pending i, Space.Disjoint b L.sizeof base L.sizeof :=
    fun i b hb => h.disjoint_of_free hFree hb
  have hNew : IsMessage L (d.mem.put base msg) base := by
    obtain ⟨c, hc⟩ := Option.isSome_iff_exists.mp hCmd
    exact ⟨msg, c, hLen ▸ Space.load_put_self, hc⟩
  have hOld : ∀ i, ∀ b ∈ d.pending i, IsMessage L (d.mem.put base msg) b := by
    intro i b hb
    refine (h.msgs i b hb).congr fun k hk => Space.put_apply_of_disjoint ?_
    have hDisjoint := hApart i b hb
    unfold Space.Disjoint at hDisjoint
    omega
  refine ⟨?_, ?_, ?_, ?_, ?_, ?_⟩
  · intro i
    rw [outs_submit]
    split
    · exact h.ready id
    · exact h.ready i
  · intro i
    rw [pending_submit, outs_submit]
    split
    · rw [List.map_append, ← h.elems id]
      rfl
    · exact h.elems i
  · intro i hi
    rw [pending_submit, if_neg (by omega)]
    exact h.range i hi
  · intro i b hb
    rw [pending_submit] at hb
    split at hb
    · rcases List.mem_append.mp hb with hb | hb
      · exact hOld id b hb
      · rw [List.mem_singleton.mp hb]
        exact hNew
    · exact hOld i b hb
  · intro i
    rw [pending_submit]
    split
    · refine List.pairwise_append.mpr ⟨h.within id, List.pairwise_singleton _ _, ?_⟩
      intro a ha b hb
      rw [List.mem_singleton.mp hb]
      exact hApart id a ha
    · exact h.within i
  · intro i j hij a ha b hb
    rw [pending_submit] at ha hb
    split at ha
    · next hi =>
      rw [if_neg (by omega)] at hb
      rcases List.mem_append.mp ha with ha | ha
      · exact h.across id j (by omega) a ha b hb
      · rw [List.mem_singleton.mp ha]
        exact (hApart j b hb).symm
    · split at hb
      · next hj =>
        rcases List.mem_append.mp hb with hb | hb
        · exact h.across i id (by omega) a ha b hb
        · rw [List.mem_singleton.mp hb]
          exact hApart i a ha
      · exact h.across i j hij a ha b hb

/-- A queue is emptied, and nothing outside its messages has changed. -/
theorem Queues.consume (h : Queues L d.maxNrPorts d.mem d.outs d.pending) {id : Nat} {mem : Space}
    {q : OutVq} (hReady : q.ready = true) (hAvail : q.avail = [])
    (hMem : ∀ x, (∀ b ∈ d.pending id, x < b ∨ b + L.sizeof ≤ x) → mem x = d.mem x) :
    Queues L d.maxNrPorts mem (Function.update d.outs id q)
      fun j => if j = id then [] else d.pending j := by
  refine ⟨?_, ?_, ?_, ?_, ?_, ?_⟩
  · intro i
    by_cases hi : i = id
    · rw [hi, Function.update_self]
      exact hReady
    · rw [Function.update_of_ne hi]
      exact h.ready i
  · intro i
    by_cases hi : i = id
    · rw [hi, Function.update_self, hAvail]
      simp
    · rw [Function.update_of_ne hi]
      simpa [hi] using h.elems i
  · intro i hi
    split
    · rfl
    · exact h.range i hi
  · intro i b hb
    split at hb
    · simp at hb
    · next hi =>
      refine (h.msgs i b hb).congr fun k hk => hMem _ fun a ha => ?_
      have hDisjoint := h.across i id hi b hb a ha
      unfold Space.Disjoint at hDisjoint
      omega
  · intro i
    split
    · exact List.Pairwise.nil
    · exact h.within i
  · intro i j hij a ha b hb
    split at ha
    · simp at ha
    split at hb
    · simp at hb
    exact h.across i j hij a ha b hb

-- ---------------------------------------------------------------------------
-- A notification
-- ---------------------------------------------------------------------------

variable {id : Nat} {port : SerialPort} {f : Flush (Port Fcrypt)}

/-- An address in a message of a queue. -/
def Occupied (L : Layout) (d : Device) (id x : Nat) : Prop :=
  ∃ b ∈ d.pending id, b ≤ x ∧ x < b + L.sizeof

/-- What `handle_output` leaves of a port, its queues and the memory. -/
structure Handled (L : Layout) (d : Device) (id : Nat) (f : Flush (Port Fcrypt)) : Prop where
  atRest : ∀ port : SerialPort, AtRest (port.store f)
  ins : f.st.ivq.ready = true
  ready : f.ovq.ready = true
  avail : f.ovq.avail = []
  mem : ∀ x, (∀ b ∈ d.pending id, x < b ∨ b + L.sizeof ≤ x) → f.st.mem.space x = d.mem x

theorem Wired.index (h : d.Wired) (hFind : d.findPortById id = some port) :
    port.id = id ∧ port.ivq.index = id ∧ port.ovq.index = id := by
  obtain ⟨hMem, hId⟩ := mem_of_findPortById hFind
  obtain ⟨hIn, hOut⟩ := h.vqs port hMem
  rw [hIn, hOut]
  exact ⟨hId, hId, hId⟩

/-- `handle_output` that has nothing to hand to `flush_buf`: the port is at rest as
it was. -/
theorem handled_lend (h : Ready L d) (hFind : d.findPortById id = some port) {q : OutVq}
    (hReady : q.ready = true) (hAvail : q.avail = []) :
    Handled L d id { d.lend port with ovq := q } where
  atRest := fun _ => by
    obtain ⟨hNum, hThr, hBacked, hHandle⟩ := h.atRest port (mem_of_findPortById hFind).1
    exact ⟨hNum, hThr, hBacked, hHandle⟩
  ins := h.ins _
  ready := hReady
  avail := hAvail
  mem := fun _ _ => rfl

/-- A port with a request in its queue, which is then open, is connected. -/
theorem lend_connected (h : Ready L d) (hFind : d.findPortById id = some port)
    (hHost : port.hostConnected = true) (hOpen : port.guestConnected = true) :
    Connected (d.lend port).st := by
  have hRest := h.atRest port (mem_of_findPortById hFind).1
  have hChr := hRest.backed hHost
  exact ⟨hChr, hHost, hOpen, hRest.unthrottled, h.ins _, hRest.handle hOpen hChr⟩

/-- **A notification in two memories.** The host comes to the end of it, with the same
effect on the port and its queues wherever the memory holds the port's messages. -/
theorem notify_spec (h : Ready L d) (hFind : d.findPortById id = some port)
    (hOpen : port.guestConnected = true ∨ d.pending id = [])
    (hConf : port.hostConnected = true →
      ConfinedTurns K L (d.pending id).length (d.lend port))
    {mem' : Space} (hAlike : ∀ x, d.Occupied L id x → d.mem x = mem' x) :
    ∃ f mem'', Host.handleOutput (cryptodev K) L (d.lend port) = (f, none) ∧
      Host.handleOutput (cryptodev K) L ((d.lend port).withMem ⟨mem', []⟩) =
        (f.withMem mem'', none) ∧ Handled L d id f := by
  obtain ⟨-, -, hOut⟩ := h.wired.index hFind
  have hRest := h.atRest port (mem_of_findPortById hFind).1
  have hElems : (d.lend port).ovq.avail = (d.pending id).map (requestElem L) := by
    rw [← h.queues.elems id]
    exact congrArg (fun i => (d.outs i).avail) hOut
  have hOutReady : (d.lend port).ovq.ready = true := h.queues.ready _
  by_cases hHost : port.hostConnected = true
  swap
  · -- the host side is closed: everything is discarded
    have hHost' : (d.lend port).st.hostConnected ≠ true := hHost
    refine ⟨{ d.lend port with ovq := discardVqData (d.lend port).ovq }, ⟨mem', []⟩, ?_, ?_,
      handled_lend h hFind ?_ ?_⟩
    · rw [Host.handleOutput, if_neg hHost']
    · rw [Host.handleOutput, if_neg (show ((d.lend port).withMem ⟨mem', []⟩).st.hostConnected ≠ true
        from hHost)]
      rfl
    · exact (discardVqData_empties hOutReady).1
    · exact (discardVqData_empties hOutReady).2
  have hFlush : ∀ mem : HostMem, Host.handleOutput (cryptodev K) L ((d.lend port).withMem mem) =
      flushLoop (flushBuf (cryptodev K) L) Port.throttled ((d.lend port).ovq.avail.length + 2)
        ((d.lend port).withMem mem) := by
    intro mem
    rw [Host.handleOutput, if_pos (show ((d.lend port).withMem mem).st.hostConnected = true from hHost)]
    rfl
  have hFlush₀ := hFlush ⟨d.mem, []⟩
  rw [show (d.lend port).withMem ⟨d.mem, []⟩ = d.lend port from rfl] at hFlush₀
  rw [hFlush₀, hFlush]
  rcases hOpen with hOpen | hNone
  · have hFuel : (d.pending id).length < (d.lend port).ovq.avail.length + 2 := by
      rw [hElems, List.length_map]
      omega
    have hSame : ∀ x, d.Occupied L id x →
        (d.lend port).st.mem.space x = (⟨mem', []⟩ : HostMem).space x := hAlike
    obtain ⟨f, mem'', hLoop, hLoop', hDone, -, hFrame⟩ :=
      flushLoop_local (d.pending id) (lend_connected h hFind hHost hOpen) hRest.outNum hElems hFuel
        (h.queues.within id) (h.queues.msgs id) (hConf hHost)
        (fun b hb i hi => ⟨b, hb, by omega, by omega⟩) hSame
    refine ⟨f, mem'', hLoop, hLoop', ?_, hDone.connected.ready, hDone.ready.trans hOutReady,
      hDone.avail, fun x hx => (hFrame x hx).1⟩
    exact fun _ => ⟨hDone.idle, hDone.connected.unthrottled, fun _ => hDone.connected.chr,
      fun _ _ => hDone.connected.crInfo⟩
  · have hAvail : (d.lend port).ovq.avail = [] := by rw [hElems, hNone]; rfl
    have hPop : (d.lend port).pop = none := pop_eq_none hRest.outNum hAvail
    have hPop' : ((d.lend port).withMem ⟨mem', []⟩).pop = none := pop_eq_none hRest.outNum hAvail
    exact ⟨d.lend port, ⟨mem', []⟩, flushLoop_drained hPop _, flushLoop_drained hPop' _,
      handled_lend h hFind hOutReady hAvail⟩

-- ---------------------------------------------------------------------------
-- What every event keeps
-- ---------------------------------------------------------------------------

/-- An out queue that has been emptied. -/
theorem pending_emptied (d : Device) {q : OutVq} (hAvail : q.avail = []) (mem : Space) (id : Nat) :
    ({ d with mem := mem, outs := Function.update d.outs id q } : Device).pending =
      fun j => if j = id then [] else d.pending j := by
  funext j
  rw [pending_setOut, hAvail]
  rfl

theorem pending_settle (h : Ready L d) (hFind : d.findPortById id = some port)
    (hf : Handled L d id f) :
    (d.settle port f).pending = fun j => if j = id then [] else d.pending j := by
  rw [← pending_emptied d hf.avail f.st.mem.space id]
  funext j
  unfold pending settle
  rw [(h.wired.index hFind).2.2]

theorem settle_ready (h : Ready L d) (hFind : d.findPortById id = some port)
    (hf : Handled L d id f) : Ready L (d.settle port f) := by
  obtain ⟨hId, hIn, hOut⟩ := h.wired.index hFind
  refine ⟨(h.wired.update (store_keepsPlace f) port.id).withQueues _ _ _, ?_, ?_, ?_⟩
  · exact forall_update h.atRest fun _ _ _ => hf.atRest _
  · intro i
    show (Function.update d.ins port.ivq.index f.st.ivq i).ready = true
    rw [Function.update_apply]
    split
    · exact hf.ins
    · exact h.ins i
  · rw [pending_settle h hFind hf]
    show Queues L d.maxNrPorts f.st.mem.space (Function.update d.outs port.ovq.index f.ovq) _
    rw [hOut]
    exact h.queues.consume hf.ready hf.avail hf.mem

/-- A notification: the port's `handle_output` comes to its end, or there is no port. -/
theorem handleOutput_cases (h : Ready L d) (hOpen : d.isOpen id = true ∨ d.pending id = [])
    (hConf : Confined K L d (.notify id)) :
    (d.findPortById id = none ∧ d.handleOutput K L id =
      some { d with outs := Function.update d.outs id (discardVqData (d.outs id)) }) ∨
    ∃ port f, d.findPortById id = some port ∧ Handled L d id f ∧
      d.handleOutput K L id = some (d.settle port f) := by
  unfold Device.handleOutput
  rw [h.wired.findPortByVq_ovq]
  unfold isOpen at hOpen
  cases hFind : d.findPortById id with
  | none => exact .inl ⟨rfl, rfl⟩
  | some port =>
    rw [hFind] at hOpen
    have hSame : ∀ x, d.Occupied L id x → d.mem x = d.mem x := fun _ _ => rfl
    obtain ⟨f, mem'', hCall, -, hf⟩ := notify_spec h hFind hOpen (hConf port hFind) hSame
    exact .inr ⟨port, f, rfl, hf, by simp only [hCall]⟩

variable {fresh : Nat → Nat → Option Nat} {d' : Device}

theorem isOpen_iff : d.isOpen id = true ↔ ∃ port, d.findPortById id = some port ∧
    port.guestConnected = true := by
  unfold isOpen
  cases d.findPortById id <;> simp

theorem setIn_ready (h : Ready L d) {q : InVq UInt8} (hq : q.ready = true) :
    Ready L (d.setIn id q) := by
  refine ⟨h.wired.withQueues _ _ _, h.atRest, ?_, h.queues⟩
  intro i
  show (Function.update d.ins id q i).ready = true
  rw [Function.update_apply]
  split
  · exact hq
  · exact h.ins i

theorem handleOutput_ready (h : Ready L d) (hOpen : d.isOpen id = true ∨ d.pending id = [])
    (hConf : Confined K L d (.notify id)) (hOut : d.handleOutput K L id = some d') : Ready L d' := by
  rcases handleOutput_cases h hOpen hConf with ⟨-, hDone⟩ | ⟨port, f, hFind, hf, hDone⟩
  · obtain rfl := Option.some.inj (hDone.symm.trans hOut)
    obtain ⟨hReady, hAvail⟩ := discardVqData_empties (h.queues.ready id)
    refine ⟨h.wired.withQueues _ _ _, h.atRest, h.ins, ?_⟩
    rw [pending_emptied d hAvail d.mem id]
    exact h.queues.consume hReady hAvail fun _ _ => rfl
  · obtain rfl := Option.some.inj (hDone.symm.trans hOut)
    exact settle_ready h hFind hf

/-- **What every event keeps.** -/
theorem step_ready {e : Event} (h : Ready L d) (hConf : Confined K L d e)
    (hStep : step K L fresh d e = some d') : Ready L d' := by
  cases e with
  | submit id base msg =>
    simp only [step] at hStep
    split at hStep
    · next hGuard =>
      obtain ⟨hOpen, hLen, hCmd, hFree⟩ := hGuard
      obtain rfl := Option.some.inj hStep
      obtain ⟨port, hFind, -⟩ := isOpen_iff.mp hOpen
      obtain ⟨hMem, rfl⟩ := mem_of_findPortById hFind
      exact ⟨h.wired.withQueues _ _ _, h.atRest, h.ins,
        h.queues.submit (h.wired.range port hMem).1 hLen hCmd hFree⟩
    · simp at hStep
  | notify id =>
    simp only [step] at hStep
    split at hStep
    · next hOpen =>
      exact handleOutput_ready h hOpen hConf hStep
    · simp at hStep
  | portOpen id value =>
    simp only [step] at hStep
    split at hStep
    · obtain rfl := Option.some.inj hStep
      exact ⟨h.wired.update (portOpen_keepsPlace fresh value) id,
        forall_update h.atRest fun port hPort _ => portOpen_atRest (h.atRest port hPort) fresh value,
        h.ins, h.queues⟩
    · simp at hStep
  | post id size =>
    obtain rfl := Option.some.inj hStep
    exact setIn_ready h (h.ins id)
  | drain id =>
    obtain rfl := Option.some.inj hStep
    exact setIn_ready h (h.ins id)

-- ---------------------------------------------------------------------------
-- The run of one port alone
-- ---------------------------------------------------------------------------

/-- `t` is what is left of `d` when only the events of port `id` happen: the port and
its queues are the same, the messages it has in its queue are the same, and no other
port has sent anything. -/
structure Alone (L : Layout) (id : Nat) (d t : Device) : Prop where
  ready : Ready L d
  wired : t.Wired
  maxNrPorts : t.maxNrPorts = d.maxNrPorts
  port : t.findPortById id = d.findPortById id
  ins : t.ins id = d.ins id
  outs : t.outs id = d.outs id
  others : ∀ j, j ≠ id → t.pending j = []
  mem : ∀ x, d.Occupied L id x → d.mem x = t.mem x

variable {t : Device}

theorem Alone.pending (h : Alone L id d t) : t.pending id = d.pending id := by
  unfold Device.pending
  rw [h.outs]

theorem Alone.isOpen (h : Alone L id d t) : t.isOpen id = d.isOpen id := by
  unfold Device.isOpen
  rw [h.port]

theorem Alone.free (h : Alone L id d t) {base : Nat} (hFree : d.free L base = true) :
    t.free L base = true := by
  unfold Device.free at hFree ⊢
  rw [h.maxNrPorts]
  refine List.all_eq_true.mpr fun i hi => ?_
  by_cases hId : i = id
  · rw [hId, h.pending]
    exact List.all_eq_true.mp hFree id (hId ▸ hi)
  · rw [h.others i hId]
    rfl

/-- The port at work alone differs in the memory. -/
theorem Alone.lend (h : Alone L id d t) {port : SerialPort} (hFind : d.findPortById id = some port) :
    t.lend port = (d.lend port).withMem ⟨t.mem, []⟩ := by
  obtain ⟨-, hIn, hOut⟩ := h.ready.wired.index hFind
  unfold Device.lend Flush.withMem
  rw [hIn, hOut, h.ins, h.outs]

theorem alone_submit (h : Alone L id d t) {base : Nat} {msg : Bytes}
    (hReady : Ready L (d.submit L id base msg)) (hLen : msg.length = L.sizeof) :
    Alone L id (d.submit L id base msg) (t.submit L id base msg) where
  ready := hReady
  wired := h.wired.withQueues _ _ _
  maxNrPorts := h.maxNrPorts
  port := h.port
  ins := h.ins
  outs := by rw [outs_submit, outs_submit, if_pos rfl, if_pos rfl, h.outs]
  others := by
    intro j hj
    rw [pending_submit, if_neg hj]
    exact h.others j hj
  mem := by
    rintro x ⟨b, hb, hLow, hHigh⟩
    show d.mem.put base msg x = t.mem.put base msg x
    unfold Space.put
    split
    · rfl
    · next hOut =>
      rw [pending_submit, if_pos rfl] at hb
      rcases List.mem_append.mp hb with hb | hb
      · exact h.mem x ⟨b, hb, hLow, hHigh⟩
      · rw [List.mem_singleton.mp hb] at hLow hHigh
        exact absurd ⟨hLow, hLen ▸ hHigh⟩ hOut

theorem alone_settle (h : Alone L id d t) {port : SerialPort} (hFind : d.findPortById id = some port)
    (hf : Handled L d id f) (mem : HostMem) :
    Alone L id (d.settle port f) (t.settle port (f.withMem mem)) := by
  obtain ⟨hId, hIn, hOut⟩ := h.ready.wired.index hFind
  have hNone : (d.settle port f).pending id = [] := by
    rw [pending_settle h.ready hFind hf]
    exact if_pos rfl
  refine ⟨settle_ready h.ready hFind hf,
    (h.wired.update (store_keepsPlace (f.withMem mem)) port.id).withQueues _ _ _, h.maxNrPorts,
    ?_, ?_, ?_, ?_, ?_⟩
  · show (t.update port.id (·.store f)).findPortById id = (d.update port.id (·.store f)).findPortById id
    rw [findPortById_update (store_keepsPlace f), findPortById_update (store_keepsPlace f), h.port]
  · show Function.update t.ins port.ivq.index f.st.ivq id = Function.update d.ins port.ivq.index f.st.ivq id
    rw [hIn, Function.update_self, Function.update_self]
  · show Function.update t.outs port.ovq.index f.ovq id = Function.update d.outs port.ovq.index f.ovq id
    rw [hOut, Function.update_self, Function.update_self]
  · intro j hj
    rw [← h.others j hj]
    unfold Device.pending settle
    simp only [hOut, Function.update_of_ne hj]
  · rintro x ⟨b, hb, -⟩
    rw [hNone] at hb
    simp at hb

theorem alone_setIn (h : Alone L id d t) {q : InVq UInt8} (hq : q.ready = true) :
    Alone L id (d.setIn id q) (t.setIn id q) where
  ready := setIn_ready h.ready hq
  wired := h.wired.withQueues _ _ _
  maxNrPorts := h.maxNrPorts
  port := h.port
  ins := by
    unfold setIn
    simp only [Function.update_self]
  outs := h.outs
  others := h.others
  mem := h.mem

/-- A notification of a number without a port. -/
theorem alone_discard (h : Alone L id d t)
    (hReady : Ready L { d with outs := Function.update d.outs id (discardVqData (d.outs id)) }) :
    Alone L id { d with outs := Function.update d.outs id (discardVqData (d.outs id)) }
      { t with outs := Function.update t.outs id (discardVqData (t.outs id)) } where
  ready := hReady
  wired := h.wired.withQueues _ _ _
  maxNrPorts := h.maxNrPorts
  port := h.port
  ins := h.ins
  outs := by simp only [Function.update_self, h.outs]
  others := by
    intro j hj
    rw [← h.others j hj]
    unfold Device.pending
    simp only [Function.update_of_ne hj]
  mem := by
    rintro x ⟨b, hb, -⟩
    rw [pending_emptied d (discardVqData_empties (h.ready.queues.ready id)).2 d.mem id] at hb
    simp at hb

/-- A notification of the port alone. -/
theorem alone_notify (h : Alone L id d t) (hOpen : d.isOpen id = true ∨ d.pending id = [])
    (hConf : Confined K L d (.notify id)) (hOut : d.handleOutput K L id = some d') :
    ∃ t', t.handleOutput K L id = some t' ∧ Alone L id d' t' := by
  have hReady : Ready L d' := handleOutput_ready h.ready hOpen hConf hOut
  unfold Device.handleOutput at hOut ⊢
  rw [h.ready.wired.findPortByVq_ovq] at hOut
  rw [h.wired.findPortByVq_ovq, h.port]
  unfold Device.isOpen at hOpen
  cases hFind : d.findPortById id with
  | none =>
    simp only [hFind, Option.some.injEq] at hOut
    subst hOut
    exact ⟨_, rfl, alone_discard h hReady⟩
  | some port =>
    rw [hFind] at hOpen
    obtain ⟨f, mem, hCall, hCall', hf⟩ := notify_spec h.ready hFind hOpen (hConf port hFind) h.mem
    rw [← h.lend hFind] at hCall'
    simp only [hFind, hCall, Option.some.injEq] at hOut
    subst hOut
    simp only [hCall']
    exact ⟨_, rfl, alone_settle h hFind hf mem⟩

/-- An event of the port can happen alone, and does the same. -/
theorem alone_own {e : Event} (hOwn : e.port = id) (h : Alone L id d t) (hConf : Confined K L d e)
    (hStep : step K L fresh d e = some d') :
    ∃ t', step K L fresh t e = some t' ∧ Alone L id d' t' := by
  have hReady := step_ready h.ready hConf hStep
  subst hOwn
  cases e with
  | submit id base msg =>
    simp only [step, Event.port] at hStep h ⊢
    split at hStep
    · next hGuard =>
      obtain rfl := Option.some.inj hStep
      obtain ⟨hOpen, hLen, hCmd, hFree⟩ := hGuard
      rw [if_pos ⟨h.isOpen.trans hOpen, hLen, hCmd, h.free hFree⟩]
      exact ⟨_, rfl, alone_submit h hReady hLen⟩
    · simp at hStep
  | notify id =>
    simp only [step, Event.port] at hStep h ⊢
    rw [h.isOpen, h.pending]
    split at hStep
    · next hOpen =>
      rw [if_pos hOpen]
      exact alone_notify h hOpen hConf hStep
    · simp at hStep
  | portOpen id value =>
    simp only [step, Event.port] at hStep h ⊢
    rw [h.port]
    split at hStep
    · next hGuard =>
      obtain rfl := Option.some.inj hStep
      rw [if_pos hGuard]
      refine ⟨_, rfl, hReady, h.wired.update (portOpen_keepsPlace fresh value) id, h.maxNrPorts, ?_,
        h.ins, h.outs, h.others, h.mem⟩
      rw [findPortById_update (portOpen_keepsPlace fresh value),
        findPortById_update (portOpen_keepsPlace fresh value), h.port]
    · simp at hStep
  | post id size =>
    simp only [step, Event.port, Option.some.injEq] at hStep h ⊢
    subst hStep
    rw [h.ins]
    exact ⟨_, rfl, alone_setIn h (h.ready.ins id)⟩
  | drain id =>
    simp only [step, Event.port, Option.some.injEq] at hStep h ⊢
    subst hStep
    rw [h.ins]
    exact ⟨_, rfl, alone_setIn h (h.ready.ins id)⟩

/-- Nothing of a port has changed between two devices. -/
structure Untouched (L : Layout) (id : Nat) (d d' : Device) : Prop where
  port : d'.findPortById id = d.findPortById id
  ins : d'.ins id = d.ins id
  outs : d'.outs id = d.outs id
  maxNrPorts : d'.maxNrPorts = d.maxNrPorts
  mem : ∀ x, d.Occupied L id x → d'.mem x = d.mem x

theorem Alone.untouched (h : Alone L id d t) (hReady : Ready L d') (hSame : Untouched L id d d') :
    Alone L id d' t where
  ready := hReady
  wired := h.wired
  maxNrPorts := h.maxNrPorts.trans hSame.maxNrPorts.symm
  port := h.port.trans hSame.port.symm
  ins := h.ins.trans hSame.ins.symm
  outs := h.outs.trans hSame.outs.symm
  others := h.others
  mem := by
    rintro x ⟨b, hb, hIn⟩
    unfold Device.pending at hb
    rw [hSame.outs] at hb
    rw [hSame.mem x ⟨b, hb, hIn⟩]
    exact h.mem x ⟨b, hb, hIn⟩

/-- Another port's requests change nothing for this one. -/
theorem untouched_settle (h : Ready L d) {j : Nat} {port : SerialPort}
    (hFind : d.findPortById j = some port) (hf : Handled L d j f) (hj : id ≠ j) :
    Untouched L id d (d.settle port f) := by
  obtain ⟨hId, hIn, hOut⟩ := h.wired.index hFind
  refine ⟨?_, ?_, ?_, rfl, ?_⟩
  · show (d.update port.id (·.store f)).findPortById id = d.findPortById id
    rw [findPortById_update (store_keepsPlace f), if_neg (by omega)]
  · show Function.update d.ins port.ivq.index f.st.ivq id = d.ins id
    rw [hIn, Function.update_of_ne hj]
  · show Function.update d.outs port.ovq.index f.ovq id = d.outs id
    rw [hOut, Function.update_of_ne hj]
  · rintro x ⟨b, hb, hLow, hHigh⟩
    refine hf.mem x fun a ha => ?_
    have hApart := h.queues.across id j hj b hb a ha
    unfold Space.Disjoint at hApart
    omega

/-- An event of another port changes nothing for this one. -/
theorem untouched_other {e : Event} (hOther : e.port ≠ id) (h : Ready L d) (hConf : Confined K L d e)
    (hStep : step K L fresh d e = some d') : Untouched L id d d' := by
  cases e with
  | submit j base msg =>
    have hj : id ≠ j := Ne.symm hOther
    simp only [step] at hStep
    split at hStep
    · next hGuard =>
      obtain rfl := Option.some.inj hStep
      refine ⟨rfl, rfl, by rw [outs_submit, if_neg hj], rfl, ?_⟩
      rintro x ⟨b, hb, hLow, hHigh⟩
      have hApart := h.queues.disjoint_of_free hGuard.2.2.2 hb
      unfold Space.Disjoint at hApart
      exact Space.put_apply_of_disjoint (by rw [hGuard.2.1]; omega)
    · simp at hStep
  | notify j =>
    have hj : id ≠ j := Ne.symm hOther
    simp only [step] at hStep
    split at hStep
    swap
    · simp at hStep
    next hOpen =>
    rcases handleOutput_cases h hOpen hConf with ⟨-, hOut⟩ | ⟨port, f, hFind, hf, hOut⟩
    · obtain rfl := Option.some.inj (hOut.symm.trans hStep)
      exact ⟨rfl, rfl, Function.update_of_ne hj _ _, rfl, fun _ _ => rfl⟩
    · obtain rfl := Option.some.inj (hOut.symm.trans hStep)
      exact untouched_settle h hFind hf hj
  | portOpen j value =>
    have hj : id ≠ j := Ne.symm hOther
    simp only [step] at hStep
    split at hStep
    · obtain rfl := Option.some.inj hStep
      refine ⟨?_, rfl, rfl, rfl, fun _ _ => rfl⟩
      rw [findPortById_update (portOpen_keepsPlace fresh value), if_neg hj]
    · simp at hStep
  | post j size =>
    obtain rfl := Option.some.inj hStep
    exact ⟨rfl, Function.update_of_ne (Ne.symm hOther) _ _, rfl, rfl, fun _ _ => rfl⟩
  | drain j =>
    obtain rfl := Option.some.inj hStep
    exact ⟨rfl, Function.update_of_ne (Ne.symm hOther) _ _, rfl, rfl, fun _ _ => rfl⟩

-- ---------------------------------------------------------------------------
-- The result
-- ---------------------------------------------------------------------------

/-- A device nothing has been sent on. -/
structure Unused (d : Device) : Prop where
  atRest : ∀ port ∈ d.ports, AtRest port
  ins : ∀ i, (d.ins i).ready = true
  outs : ∀ i, (d.outs i).ready = true ∧ (d.outs i).avail = []

theorem newPort_atRest (c : PortConf) (id : Nat) : AtRest (newPort c id) := by
  obtain ⟨nr, isConsole, chardev⟩ := c
  refine ⟨rfl, rfl, ?_, ?_⟩
  · cases chardev <;> simp [newPort]
  · simp [newPort]

theorem setup_unused (h : Unused d) (s : Setup) : Unused (d.setup s) := by
  cases s with
  | plug c =>
    simp only [setup]
    rcases hInit : d.virtserPortQdevInit c with _ | d₁
    · exact h
    · obtain ⟨-, -, -, rfl⟩ := virtserPortQdevInit_ok hInit
      refine ⟨?_, h.ins, h.outs⟩
      intro port hPort
      rcases List.mem_append.mp hPort with hOld | hNew
      · exact h.atRest port hOld
      · rw [List.mem_singleton.mp hNew]
        exact newPort_atRest c _
  | unplug id =>
    simp only [setup, virtserPortQdevExit]
    split
    · exact h
    · next gone _ =>
      refine ⟨fun port hPort => h.atRest port (List.mem_filter.mp hPort).1, h.ins, ?_⟩
      intro i
      show (Function.update d.outs gone.id (discardVqData (d.outs gone.id)) i).ready = true ∧
        (Function.update d.outs gone.id (discardVqData (d.outs gone.id)) i).avail = []
      rw [Function.update_apply]
      split
      · exact discardVqData_empties (h.outs gone.id).1
      · exact h.outs i

/-- A device whose ports have been plugged and unplugged in any order. -/
def plugged (maxNrPorts : Nat) (mem : Space) (ins : Nat → InVq UInt8) (steps : List Setup) : Device :=
  steps.foldl setup (init maxNrPorts mem ins)

theorem plugged_unused (maxNrPorts : Nat) (mem : Space) {ins : Nat → InVq UInt8}
    (hIns : ∀ i, (ins i).ready = true) (steps : List Setup) :
    Unused (plugged maxNrPorts mem ins steps) := by
  have hStart : Unused (init maxNrPorts mem ins) :=
    ⟨fun _ hPort => absurd hPort (by simp [init]), hIns, fun _ => ⟨rfl, rfl⟩⟩
  unfold plugged
  generalize init maxNrPorts mem ins = d at hStart
  induction steps generalizing d with
  | nil => exact hStart
  | cons s steps ih => exact ih _ (setup_unused hStart s)

theorem plugged_ready (L : Layout) (maxNrPorts : Nat) (mem : Space) {ins : Nat → InVq UInt8}
    (hIns : ∀ i, (ins i).ready = true) (steps : List Setup) :
    Ready L (plugged maxNrPorts mem ins steps) ∧
      ∀ i, (plugged maxNrPorts mem ins steps).pending i = [] := by
  have hUnused := plugged_unused maxNrPorts mem hIns steps
  have hWired : (plugged maxNrPorts mem ins steps).Wired :=
    setup_wired (init_wired maxNrPorts mem ins) steps
  generalize plugged maxNrPorts mem ins steps = d at hUnused hWired
  have hNone : ∀ i, d.pending i = [] := by
    intro i
    unfold pending
    rw [(hUnused.outs i).2]
    rfl
  refine ⟨⟨hWired, hUnused.atRest, hUnused.ins, ?_⟩, hNone⟩
  refine ⟨fun i => (hUnused.outs i).1, ?_, fun i _ => hNone i, ?_, ?_, ?_⟩
  · intro i
    rw [hNone i, (hUnused.outs i).2]
    rfl
  · intro i b hb
    simp [hNone i] at hb
  · intro i
    rw [hNone i]
    exact List.Pairwise.nil
  · intro i j _ a ha
    simp [hNone i] at ha

/-- With confined requests the host comes to the end of every notification: nothing a
guest sends on one port stops QEMU for the others. -/
theorem notify_possible (fresh : Nat → Nat → Option Nat) (h : Ready L d)
    (hOpen : d.isOpen id = true ∨ d.pending id = [])
    (hConf : Confined K L d (.notify id)) : (step K L fresh d (.notify id)).isSome := by
  simp only [step, if_pos hOpen]
  rcases handleOutput_cases h hOpen hConf with ⟨-, hOut⟩ | ⟨port, f, -, -, hOut⟩ <;>
    rw [hOut] <;> rfl

/-- **Isolation between ports.** On a device whose ports were plugged and unplugged in
any order, in every run whose requests are confined, a port's sessions and its in
queue are those of the run of its own events alone. -/
theorem run_separate (K : Kernel) (L : Layout) (fresh : Nat → Nat → Option Nat) (maxNrPorts : Nat)
    (mem : Space) (ins : Nat → InVq UInt8) (steps : List Setup) (es : List Event) (id : Nat)
    (d' : Device) (hIns : ∀ i, (ins i).ready = true)
    (hConf : Transition.Along (step K L fresh) (Confined K L) (plugged maxNrPorts mem ins steps) es)
    (hRun : Transition.run (step K L fresh) (plugged maxNrPorts mem ins steps) es = some d') :
    ∃ t, Transition.run (step K L fresh) (plugged maxNrPorts mem ins steps)
        (es.filter (·.port == id)) = some t ∧ t.view id = d'.view id := by
  obtain ⟨hReady, hNone⟩ := plugged_ready L maxNrPorts mem hIns steps
  have hStart : Alone L id (plugged maxNrPorts mem ins steps) (plugged maxNrPorts mem ins steps) :=
    ⟨hReady, hReady.wired, rfl, rfl, rfl, rfl, fun j _ => hNone j, fun _ _ => rfl⟩
  have hOwn : ∀ s t e s', (e.port == id) = true → Alone L id s t → Confined K L s e →
      step K L fresh s e = some s' → ∃ t', step K L fresh t e = some t' ∧ Alone L id s' t' :=
    fun s t e s' hPort hSim hHere hStep => alone_own (by simpa using hPort) hSim hHere hStep
  have hOther : ∀ s t e s', (e.port == id) = false → Alone L id s t → Confined K L s e →
      step K L fresh s e = some s' → Alone L id s' t :=
    fun s t e s' hPort hSim hHere hStep =>
      hSim.untouched (step_ready hSim.ready hHere hStep)
        (untouched_other (by simpa using hPort) hSim.ready hHere hStep)
  obtain ⟨t, hAlone, hSim⟩ := Transition.run_filter hOwn hOther hStart hConf hRun
  refine ⟨t, hAlone, ?_⟩
  unfold view
  rw [hSim.port, hSim.ins]

/-- There is at most one request to handle, and it has no use for an address: it ends
a session, or creates one without a MAC key. -/
def plain (L : Layout) (d : Device) : Event → Bool
  | .notify id =>
    match d.pending id with
    | [] => true
    | [b] =>
      (d.mem.load b L.sizeof).all fun data =>
        Cmd.ofWord (u32 data L.cmdOff) == some .CIOCFSESSION ||
          Cmd.ofWord (u32 data L.cmdOff) == some .CIOCGSESSION &&
            (sessionOp L (slice data 0 OP_SIZE)).mackeylen == 0
    | _ => false
  | _ => true

theorem plain_confined (h : Ready L d) {e : Event} (hPlain : d.plain L e = true) :
    Confined K L d e := by
  cases e with
  | submit => trivial
  | portOpen => trivial
  | post => trivial
  | drain => trivial
  | notify id =>
    intro port hFind _
    simp only [plain] at hPlain
    split at hPlain
    · next hNone =>
      rw [hNone]
      trivial
    · next b hOne =>
      rw [hOne]
      refine ⟨?_, trivial⟩
      intro base rest data hAvail hLoad
      have hElems : (d.lend port).ovq.avail = [requestElem L b] := by
        show (d.outs port.ovq.index).avail = _
        rw [(h.wired.index hFind).2.2, h.queues.elems id, hOne]
        rfl
      have hBase : base = b := by
        rw [hElems, List.cons.injEq] at hAvail
        exact (congrArg Elem.index hAvail.1).symm
      subst hBase
      have hLoad' : d.mem.load base L.sizeof = some data := hLoad
      rw [hLoad', Option.all_some] at hPlain
      refine ⟨L.cmdOff_bounds.2, ?_, ?_, fun _ _ _ _ _ _ => Nat.min_le_left _ _⟩
      · intro hCmd _ _ _
        simpa [hCmd] using hPlain
      · intro hCmd
        simp [hCmd] at hPlain
    · simp at hPlain

/-- A kernel with the null cipher and, under every name, a hash of four bytes. -/
def hashKernel : Kernel :=
  { nullKernel with
    hash := fun _ => some
      { digestsize := 4
        setkey := fun _ => true
        digest := fun _ _ => zeros 4
        length_digest := fun _ _ => rfl } }

/-- Two ports on open chardevs; they get the numbers 1 and 2. -/
def twoPorts : List Setup :=
  [.plug ⟨VIRTIO_CONSOLE_BAD_ID, false, some true⟩, .plug ⟨VIRTIO_CONSOLE_BAD_ID, false, some true⟩]

def emptyIns : Nat → InVq UInt8 := fun _ => ⟨true, [120], []⟩

/-- A request to end the session with a number. -/
def endRequest (sid : Nat) : Bytes := toLE 4 sid ++ zeros 112 ++ toLE 4 Cmd.CIOCFSESSION.word

/-- A request for a session with the null cipher and HMAC-SHA1, whose key is the `len`
bytes at 4096. -/
def hmacRequest (len : Nat) : Bytes :=
  toLE 4 16 ++ toLE 4 7 ++ zeros 16 ++ toLE 4 len ++ zeros 4 ++ toLE 8 4096 ++ zeros 76 ++
    toLE 4 Cmd.CIOCGSESSION.word

/-- Port 2 has put a message at 4096 when port 1 asks for its session. -/
def sideBySide (len : Nat) : List Event :=
  [.portOpen 1 true, .portOpen 2 true, .submit 2 4096 (endRequest 0x11111111), .notify 2,
    .submit 1 0 (hmacRequest len), .notify 1]

/-- The MAC keys of the sessions a port sees. -/
def macKeys (v : CrInfo Fcrypt × InVq UInt8) : List (Option Bytes) :=
  match v.1 with
  | .live (some fcr) => fcr.list.map fun ses => ses.hdata.map HashData.key
  | _ => []

/-- A run on the two ports, with zeros in guest RAM. -/
def runTwo (es : List Event) : Option Device :=
  Transition.run (step hashKernel smallLayout fun _ _ => some 0)
    (plugged 3 (fun _ => some 0) emptyIns twoPorts) es

theorem sideBySide_separate :
    (runTwo (sideBySide 0)).map (fun d => (d.view 1).map macKeys) = some (some [some []]) ∧
      ∀ d', runTwo (sideBySide 0) = some d' →
        ∃ t, runTwo ((sideBySide 0).filter (·.port == 1)) = some t ∧ t.view 1 = d'.view 1 := by
  have hIns : ∀ i, (emptyIns i).ready = true := fun _ => rfl
  have hReady := (plugged_ready smallLayout 3 (fun _ => some 0) hIns twoPorts).1
  have hPlain : Transition.Along (step hashKernel smallLayout fun _ _ => some 0)
      (fun d e => d.plain smallLayout e = true) (plugged 3 (fun _ => some 0) emptyIns twoPorts)
      (sideBySide 0) := by
    decide +kernel
  have hConf := Transition.along_mono (R := Confined hashKernel smallLayout)
    (fun _ _ _ => step_ready) (fun _ _ h => plain_confined h) hReady hPlain
  refine ⟨by decide +kernel, fun d' hRun => ?_⟩
  exact run_separate hashKernel smallLayout (fun _ _ => some 0) 3 (fun _ => some 0) emptyIns twoPorts
    (sideBySide 0) 1 d' hIns hConf hRun

/-- The MAC key of port 1's session is what port 2 sent: alone, port 1 would have a key
of zero bytes. -/
theorem mac_key_from_other_port :
    ∃ d', runTwo (sideBySide 4) = some d' ∧
      (d'.view 1).map macKeys = some [some [0x11, 0x11, 0x11, 0x11]] ∧
      (runTwo ((sideBySide 4).filter (·.port == 1))).map (fun t => (t.view 1).map macKeys) =
        some (some [some [0, 0, 0, 0]]) ∧
      ¬ ∃ t, runTwo ((sideBySide 4).filter (·.port == 1)) = some t ∧ t.view 1 = d'.view 1 := by
  have hFull : (runTwo (sideBySide 4)).map (fun d => (d.view 1).map macKeys) =
      some (some [some [0x11, 0x11, 0x11, 0x11]]) := by
    decide +kernel
  have hOwn : (runTwo ((sideBySide 4).filter (·.port == 1))).map (fun t => (t.view 1).map macKeys) =
      some (some [some [0, 0, 0, 0]]) := by
    decide +kernel
  obtain ⟨d', hRun, hKeys⟩ := Option.map_eq_some_iff.mp hFull
  refine ⟨d', hRun, hKeys, hOwn, ?_⟩
  rintro ⟨t, hAlone, hView⟩
  rw [hAlone, Option.map_some, hView, hKeys] at hOwn
  simp at hOwn

end Device

end VirtioCrypto.Host
