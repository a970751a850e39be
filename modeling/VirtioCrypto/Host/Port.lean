import VirtioCrypto.Virtqueue
import VirtioCrypto.Wire
import VirtioCrypto.Cryptodev.Footprint

/-!
# Host — the port and its data callback

`virtio-crypto.c` in QEMU: the port, `virtio_serial_write` and `flush_buf`, the
callback that receives what the guest sent. The buffer `flush_buf` gets is a
range of QEMU's own memory with guest RAM behind it, so the callback runs over
an address space, and every range it touches, itself or through the kernel, is
logged. A pointer remembers where it came from: `buf` for an offset into the
received buffer, `guest` for a value found in the message.

The descriptor of `/dev/crypto` is a parameter (`DevCrypto`); `cryptodev` is the
instance the module of the same name gives.
-/

namespace VirtioCrypto.Host

open Octets Cryptodev

-- ---------------------------------------------------------------------------
-- QEMU's memory
-- ---------------------------------------------------------------------------

/-- An address in QEMU: relative to the received buffer, or taken from a message. -/
inductive HostPtr
  | buf (off : Nat)
  | guest (addr : Nat)
deriving DecidableEq, Repr

/-- A range that was read or written. -/
structure Access where
  ptr : HostPtr
  len : Nat
deriving DecidableEq, Repr

/-- QEMU's address space and the ranges touched so far. -/
structure HostMem where
  space : Space
  log : List Access

/-- The address behind a pointer, for a buffer received at `base`. -/
def HostPtr.resolve (base : Nat) : HostPtr → Nat
  | .buf off => base + off
  | .guest addr => addr

namespace HostMem

def read (m : HostMem) (base : Nat) (p : HostPtr) (n : Nat) : Option Bytes × HostMem :=
  (m.space.load (p.resolve base) n, { m with log := m.log ++ [⟨p, n⟩] })

def write (m : HostMem) (base : Nat) (p : HostPtr) (bs : Bytes) : Bool × HostMem :=
  match m.space.store (p.resolve base) bs with
  | some space => (true, ⟨space, m.log ++ [⟨p, bs.length⟩]⟩)
  | none => (false, { m with log := m.log ++ [⟨p, bs.length⟩] })

end HostMem

/-- QEMU's memory as the kernel reaches it during an ioctl. -/
def hostSpace (base : Nat) : UserSpace HostPtr HostMem where
  null
    | .buf _ => false
    | .guest addr => addr == 0
  add
    | .buf off, n => .buf (off + n)
    | .guest addr, n => .guest (addr + n)
  copyFromUser m p n := m.read base p n
  copyToUser m p bs := m.write base p bs
  add_zero p := by cases p <;> rfl
  add_add p i j := by cases p <;> simp [Nat.add_assoc]
  length_copyFromUser h := Space.length_of_load h

-- ---------------------------------------------------------------------------
-- The port
-- ---------------------------------------------------------------------------

/-- The ioctls of an open `/dev/crypto`, issued from a QEMU thread that handles a
buffer at the given base. -/
structure DevCrypto (σ : Type) where
  gsession : σ → HostMem → Nat → SessionOp HostPtr →
    σ × HostMem × Except Errno (SessionOp HostPtr)
  crypt : σ → HostMem → Nat → CryptOp HostPtr → σ × HostMem × Except Errno Unit
  fsession : σ → Nat → σ × Except Errno Unit

/-- `/dev/crypto` as `cryptodev-linux` implements it. -/
def cryptodev (K : Kernel) : DevCrypto Fcrypt where
  gsession fcr m base sop :=
    let r := cryptoCreateSession K (hostSpace base) fcr m sop
    (r.1.tick, r.2)
  crypt fcr m base cop :=
    let r := cryptoCrypt K (hostSpace base) fcr m cop
    (r.1.tick, r.2)
  fsession fcr sid := ((cryptoFinishSession fcr sid).tick, .ok ())

/-- `port->cr_info`: the pointer is NULL until the guest opens the port, and
dangles after a close. A failed `open` leaves a descriptor that is not one. -/
inductive CrInfo (σ : Type)
  | null
  | freed
  | live (cfd : Option σ)

/-- What stops QEMU. -/
inductive Fault
  | abort
  | segv
deriving DecidableEq, Repr

/-- `VirtIOSerialPort` (with the `chr` of `VirtConsole`) less the out queue.
`calls` is not in the code: it lists the command word each call of `flush_buf`
read and the value it returned. -/
structure Port (σ : Type) where
  chr : Bool
  crInfo : CrInfo σ
  guestConnected : Bool
  hostConnected : Bool
  throttled : Bool
  mem : HostMem
  ivq : InVq UInt8
  calls : List (Nat × Int)

variable {σ : Type}

-- the values of errno.h
def EAGAIN : Int := 11
def EINVAL : Int := 22

/-- What the loop of `write_to_port` left: the memory, the buffers filled, those still
posted, and whether it came to its end without a fault. -/
structure Copied where
  mem : HostMem
  used : List (PortBuffer UInt8)
  avail : List Nat
  ok : Bool

/-- The loop of `write_to_port` on `size` bytes of the message, from `offset` on: pop a
posted buffer, copy into it what it can take (`iov_from_buf`), push it. Only the bytes
that go into a buffer are read. -/
def writeLoop (base size : Nat) : List Nat → Nat → HostMem → Copied
  | [], _, mem => ⟨mem, [], [], true⟩
  | sz :: avail, offset, mem =>
    if size ≤ offset then ⟨mem, [], sz :: avail, true⟩ else
    match mem.read base (.buf offset) (min sz (size - offset)) with
    | (none, mem) => ⟨mem, [], avail, false⟩
    | (some data, mem) =>
      let r := writeLoop base size avail (offset + data.length) mem
      { r with used := ⟨sz, data, 0⟩ :: r.used }

/-- `virtio_serial_write` of `n` bytes at the start of the buffer, with the
`write_to_port` it ends in; `none` is a fault on reading them. -/
def virtioSerialWrite (port : Port σ) (buf n : Nat) : Port σ × Option Unit :=
  if port.hostConnected && port.guestConnected then
    if port.ivq.ready then
      let r := writeLoop buf n port.ivq.avail 0 port.mem
      ({ port with mem := r.mem,
                   ivq := { port.ivq with avail := r.avail, used := port.ivq.used ++ r.used } },
        if r.ok then some () else none)
    else (port, some ())
  else (port, some ())

-- ---------------------------------------------------------------------------
-- flush_buf
-- ---------------------------------------------------------------------------

/-- `return v` from `flush_buf` after reading the command word `w`. -/
def ret (port : Port σ) (w : Nat) (v : Int) : Port σ × Except Fault Int :=
  ({ port with calls := port.calls ++ [(w, v)] }, .ok v)

def segv (port : Port σ) : Port σ × Except Fault Int := (port, .error .segv)

/-- A successful ioctl: the response goes out and `ret`, which is 0, is returned. -/
def respond (L : Layout) (port : Port σ) (buf w : Nat) : Port σ × Except Fault Int :=
  match virtioSerialWrite port buf L.sizeof with
  | (port, none) => segv port
  | (port, some ()) => ret port w 0

/-- The local `sess` of `case CIOCGSESSION` for an operation received as `raw`. -/
def sessionOp (L : Layout) (raw : Bytes) : SessionOp HostPtr :=
  ⟨raw, .buf L.keypOff, .guest (u64 raw 32)⟩

/-- The local `crypt` of `case CIOCCRYPT` for an operation received as `raw`. -/
def cryptOp (L : Layout) (raw : Bytes) : CryptOp HostPtr :=
  ⟨raw, .buf L.srcpOff, .buf L.dstpOff, .guest (u64 raw 32), .buf L.ivpOff⟩

/-- The ioctl of `case CIOCGSESSION`, on a copy of the operation whose key points
into the message. `none` is a fault on the way to it. -/
def ioctlGsession (dev : DevCrypto σ) (L : Layout) (port : Port σ) (buf : Nat) :
    Port σ × Option (Except Errno (SessionOp HostPtr)) :=
  match port.mem.read buf (.buf 0) OP_SIZE with
  | (none, mem) => ({ port with mem := mem }, none)
  | (some raw, mem) =>
    match port.crInfo with
    | .live none => ({ port with mem := mem }, some (.error .EBADF))
    | .live (some fd) =>
      let r := dev.gsession fd mem buf (sessionOp L raw)
      ({ port with mem := r.2.1, crInfo := .live (some r.1) }, some r.2.2)
    | _ => ({ port with mem := mem }, none)

/-- `case CIOCGSESSION`. -/
def flushGsession (dev : DevCrypto σ) (L : Layout) (port : Port σ) (buf w : Nat) :
    Port σ × Except Fault Int :=
  match ioctlGsession dev L port buf with
  | (port, none) => segv port
  | (port, some (.error _)) => ret port w 1
  | (port, some (.ok sess)) =>
    -- cr_data->op.sess.ses = sess.ses
    match port.mem.write buf (.buf SES_OFF) (toLE 4 sess.ses) with
    | (false, mem) => segv { port with mem := mem }
    | (true, mem) => respond L { port with mem := mem } buf w

/-- The ioctl of `case CIOCCRYPT`: source, destination and IV point into the
message, the MAC pointer is the guest's. -/
def ioctlCrypt (dev : DevCrypto σ) (L : Layout) (port : Port σ) (buf : Nat) :
    Port σ × Option (Except Errno (CryptOp HostPtr)) :=
  match port.mem.read buf (.buf 0) OP_SIZE with
  | (none, mem) => ({ port with mem := mem }, none)
  | (some raw, mem) =>
    -- the printf reads dstp[0]
    match mem.read buf (.buf L.dstpOff) 1 with
    | (none, mem) => ({ port with mem := mem }, none)
    | (some _, mem) =>
      match port.crInfo with
      | .live none => ({ port with mem := mem }, some (.error .EBADF))
      | .live (some fd) =>
        let r := dev.crypt fd mem buf (cryptOp L raw)
        ({ port with mem := r.2.1, crInfo := .live (some r.1) },
          some (r.2.2.map fun _ => cryptOp L raw))
      | _ => ({ port with mem := mem }, none)

/-- `case CIOCCRYPT`. The `memcpy` copies `dstp` onto itself, a range the kernel
has just written. -/
def flushCrypt (dev : DevCrypto σ) (L : Layout) (port : Port σ) (buf w : Nat) :
    Port σ × Except Fault Int :=
  match ioctlCrypt dev L port buf with
  | (port, none) => segv port
  | (port, some (.error _)) => ret port w 1
  | (port, some (.ok crypt)) =>
    let mem := { port.mem with log := port.mem.log ++ [⟨.buf L.dstpOff, crypt.len⟩] }
    respond L { port with mem := mem } buf w

/-- The ioctl of `case CIOCFSESSION`, on a copy of the session number. -/
def ioctlFsession (dev : DevCrypto σ) (port : Port σ) (buf : Nat) :
    Port σ × Option (Except Errno Bytes) :=
  match port.mem.read buf (.buf 0) 4 with
  | (none, mem) => ({ port with mem := mem }, none)
  | (some sid, mem) =>
    match port.crInfo with
    | .live none => ({ port with mem := mem }, some (.error .EBADF))
    | .live (some fd) =>
      let r := dev.fsession fd (ofLE sid)
      ({ port with mem := mem, crInfo := .live (some r.1) }, some (r.2.map fun _ => sid))
    | _ => ({ port with mem := mem }, none)

/-- `case CIOCFSESSION`. -/
def flushFsession (dev : DevCrypto σ) (L : Layout) (port : Port σ) (buf w : Nat) :
    Port σ × Except Fault Int :=
  match ioctlFsession dev port buf with
  | (port, none) => segv port
  | (port, some (.error _)) => ret port w 1
  | (port, some (.ok sid)) =>
    -- cr_data->op.sess_id = sess_id
    match port.mem.write buf (.buf 0) sid with
    | (false, mem) => segv { port with mem := mem }
    | (true, mem) => respond L { port with mem := mem } buf w

/-- `flush_buf(port, buf, len)`. -/
def flushBuf (dev : DevCrypto σ) (L : Layout) (port : Port σ) (buf len : Nat) :
    Port σ × Except Fault Int :=
  if !port.chr then (port, .ok len) else
  match port.mem.read buf (.buf L.cmdOff) 4 with
  | (none, mem) => segv { port with mem := mem }
  | (some word, mem) =>
    match Cmd.ofWord (ofLE word) with
    | some .CIOCGSESSION => flushGsession dev L { port with mem := mem } buf (ofLE word)
    | some .CIOCCRYPT => flushCrypt dev L { port with mem := mem } buf (ofLE word)
    | some .CIOCFSESSION => flushFsession dev L { port with mem := mem } buf (ofLE word)
    | none =>
      -- qemu_chr_fe_write reads the buffer it was given
      ret { port with mem := { mem with log := mem.log ++ [⟨.buf 0, len⟩] } } (ofLE word) (-EINVAL)

-- ---------------------------------------------------------------------------
-- What an ioctl leaves of the port and of the memory
-- ---------------------------------------------------------------------------

section Sides

variable (dev : DevCrypto σ) (L : Layout)

/-- What an ioctl leaves alone: everything but the memory and the descriptor's
state. -/
structure SameSide (port q : Port σ) : Prop where
  chr : q.chr = port.chr
  hostConnected : q.hostConnected = port.hostConnected
  guestConnected : q.guestConnected = port.guestConnected
  throttled : q.throttled = port.throttled
  ivq : q.ivq = port.ivq
  calls : q.calls = port.calls
  live : (∃ cfd, port.crInfo = .live cfd) → ∃ cfd, q.crInfo = .live cfd

theorem SameSide.refl (port : Port σ) : SameSide port port :=
  ⟨rfl, rfl, rfl, rfl, rfl, rfl, id⟩

theorem SameSide.withMem {port q : Port σ} (h : SameSide port q) (mem : HostMem) :
    SameSide port { q with mem := mem } :=
  ⟨h.chr, h.hostConnected, h.guestConnected, h.throttled, h.ivq, h.calls, h.live⟩

/-- How an ioctl leaves the port: with another memory and, where there is a descriptor,
another state behind it. -/
inductive IoctlLeaves (port : Port σ) : Port σ → Prop
  | mem (m : HostMem) : IoctlLeaves port { port with mem := m }
  | state {fd : σ} (hInfo : port.crInfo = .live (some fd)) (m : HostMem) (fd' : σ) :
    IoctlLeaves port { port with mem := m, crInfo := .live (some fd') }

theorem IoctlLeaves.sameSide {port q : Port σ} (h : IoctlLeaves port q) : SameSide port q := by
  cases h with
  | mem m => exact (SameSide.refl port).withMem m
  | state hInfo m fd' => exact ⟨rfl, rfl, rfl, rfl, rfl, rfl, fun _ => ⟨_, rfl⟩⟩

theorem ioctlGsession_leaves (port : Port σ) (buf : Nat) :
    IoctlLeaves port (ioctlGsession dev L port buf).1 := by
  unfold ioctlGsession
  rcases port.mem.read buf (.buf 0) OP_SIZE with ⟨_ | raw, mem⟩
  · exact .mem mem
  · simp only
    split
    · exact .mem mem
    next hInfo => exact .state hInfo _ _
    · exact .mem mem

theorem ioctlCrypt_leaves (port : Port σ) (buf : Nat) :
    IoctlLeaves port (ioctlCrypt dev L port buf).1 := by
  unfold ioctlCrypt
  rcases port.mem.read buf (.buf 0) OP_SIZE with ⟨_ | raw, mem⟩
  · exact .mem mem
  · simp only
    rcases mem.read buf (.buf L.dstpOff) 1 with ⟨_ | d, mem'⟩
    · exact .mem mem'
    · simp only
      split
      · exact .mem mem'
      next hInfo => exact .state hInfo _ _
      · exact .mem mem'

theorem ioctlFsession_leaves (port : Port σ) (buf : Nat) :
    IoctlLeaves port (ioctlFsession dev port buf).1 := by
  unfold ioctlFsession
  rcases port.mem.read buf (.buf 0) 4 with ⟨_ | sid, mem⟩
  · exact .mem mem
  · simp only
    split
    · exact .mem mem
    next hInfo => exact .state hInfo _ _
    · exact .mem mem

end Sides

/-- A device that unmaps nothing. -/
structure DevCrypto.KeepsMapped (dev : DevCrypto σ) : Prop where
  gsession : ∀ fd m base sop a n, (m.space.load a n).isSome →
    ((dev.gsession fd m base sop).2.1.space.load a n).isSome
  crypt : ∀ fd m base cop a n, (m.space.load a n).isSome →
    ((dev.crypt fd m base cop).2.1.space.load a n).isSome

theorem HostMem.write_keeps_mapped {m : HostMem} {base a n : Nat} {p : HostPtr} {bs : Bytes}
    (h : (m.space.load a n).isSome) : ((m.write base p bs).2.space.load a n).isSome := by
  unfold HostMem.write Space.store
  rcases m.space.load (p.resolve base) bs.length with _ | _
  · exact h
  · exact Space.load_put_isSome h

theorem hostSpace_keeps_mapped (base a n : Nat) :
    Keeps (hostSpace base) (fun m => (m.space.load a n).isSome) (fun _ _ => True) where
  read := fun _ _ _ _ h => h
  write := fun _ _ _ _ h => HostMem.write_keeps_mapped h

theorem cryptodev_keepsMapped (K : Kernel) : (cryptodev K).KeepsMapped where
  gsession := fun _ _ base _ a n h =>
    cryptoCreateSession_keeps (hostSpace_keeps_mapped base a n) (fun _ => trivial)
      (fun _ => trivial) h
  crypt := fun _ _ base _ a n h =>
    cryptoCrypt_keeps (hostSpace_keeps_mapped base a n) (fun _ _ _ => trivial)
      (fun _ _ _ _ _ _ _ => ⟨trivial, trivial⟩) (fun _ _ _ _ => trivial) h

-- ---------------------------------------------------------------------------
-- What a response writes
-- ---------------------------------------------------------------------------

section Response

variable {base size : Nat} {avail : List Nat} {offset : Nat} {m : HostMem} {data : Bytes}

/-- On a mapped message the loop does what `fillAvail` says, and only reads. -/
theorem writeLoop_mapped (hLoad : m.space.load base size = some data) (hOff : offset ≤ size) :
    ∃ log, writeLoop base size avail offset m =
      ⟨⟨m.space, log⟩, (fillAvail avail (data.drop offset)).1,
        (fillAvail avail (data.drop offset)).2.1, true⟩ := by
  have hLen := Space.length_of_load hLoad
  induction avail generalizing offset m with
  | nil => exact ⟨m.log, rfl⟩
  | cons sz avail ih =>
    unfold writeLoop fillAvail
    by_cases hDone : size ≤ offset
    · have hNil : data.drop offset = [] := List.drop_eq_nil_of_le (by omega)
      rw [if_pos hDone, hNil]
      exact ⟨m.log, rfl⟩
    · have hLeft : (data.drop offset).isEmpty = false := by
        rw [List.isEmpty_eq_false_iff, ne_eq, List.drop_eq_nil_iff]
        omega
      have hChunk : m.space.load (base + offset) (min sz (size - offset)) =
          some (slice data offset (min sz (size - offset))) := Space.load_slice hLoad (by omega)
      have hTake : slice data offset (min sz (size - offset)) = (data.drop offset).take sz := by
        rw [slice, List.take_eq_take_iff, List.length_drop, hLen]
        omega
      have hCount : ((data.drop offset).take sz).length = min sz (size - offset) := by
        rw [List.length_take, List.length_drop, hLen]
      obtain ⟨log, hRest⟩ := @ih (offset + min sz (size - offset))
        (m.read base (.buf offset) (min sz (size - offset))).2 hLoad (by omega)
      have hDrop : data.drop (offset + min sz (size - offset)) = (data.drop offset).drop sz := by
        rw [List.drop_drop]
        rcases Nat.le_total sz (size - offset) with h | h
        · rw [Nat.min_eq_left h]
        · rw [Nat.min_eq_right h, List.drop_eq_nil_of_le (by omega),
            List.drop_eq_nil_of_le (by omega)]
      rw [if_neg hDone, hLeft]
      simp only [HostMem.read, HostPtr.resolve, hChunk, hTake, hCount, Bool.false_eq_true, if_false]
      rw [hDrop] at hRest
      rw [show (⟨m.space, m.log ++ [⟨.buf offset, min sz (size - offset)⟩]⟩ : HostMem) =
        (m.read base (.buf offset) (min sz (size - offset))).2 from rfl, hRest]
      exact ⟨log, rfl⟩

/-- Whatever the loop does, it only reads the memory. -/
theorem writeLoop_space (base size : Nat) (avail : List Nat) (offset : Nat) (m : HostMem) :
    (writeLoop base size avail offset m).mem.space = m.space := by
  induction avail generalizing offset m with
  | nil => rfl
  | cons sz avail ih =>
    unfold writeLoop
    split
    · rfl
    · unfold HostMem.read
      split
      next h =>
        rw [Prod.mk.injEq] at h
        rw [← h.2]
      next h =>
        rw [Prod.mk.injEq] at h
        rw [ih, ← h.2]

/-- What a response is: the memory as it was, and the in queue as `write_to_port` leaves it. -/
theorem virtioSerialWrite_mapped {port : Port σ} {buf n : Nat} {data : Bytes}
    (hHost : port.hostConnected = true) (hGuest : port.guestConnected = true)
    (hLoad : port.mem.space.load buf n = some data) :
    ∃ log, virtioSerialWrite port buf n =
      ({ port with mem := ⟨port.mem.space, log⟩, ivq := (writeToPort port.ivq data).1 }, some ()) := by
  have hConn : (port.hostConnected && port.guestConnected) = true := by rw [hHost, hGuest]; rfl
  unfold virtioSerialWrite writeToPort
  rw [if_pos hConn]
  by_cases hReady : port.ivq.ready = true
  · obtain ⟨log, hLoop⟩ := writeLoop_mapped hLoad (Nat.zero_le n)
    rw [if_pos hReady, if_pos hReady, hLoop]
    exact ⟨log, rfl⟩
  · rw [if_neg hReady, if_neg hReady]
    exact ⟨port.mem.log, rfl⟩

/-- However the response ends, it has changed the log and the in queue only. -/
theorem respond_ends (L : Layout) (q : Port σ) (buf w : Nat) :
    ∃ mem ivq, mem.space = q.mem.space ∧
      (respond L q buf w = segv { q with mem := mem, ivq := ivq } ∨
        respond L q buf w = ret { q with mem := mem, ivq := ivq } w 0) := by
  unfold respond virtioSerialWrite
  by_cases hConn : (q.hostConnected && q.guestConnected) = true
  swap
  · rw [if_neg hConn]
    exact ⟨q.mem, q.ivq, rfl, Or.inr rfl⟩
  by_cases hReady : q.ivq.ready = true
  swap
  · rw [if_pos hConn, if_neg hReady]
    exact ⟨q.mem, q.ivq, rfl, Or.inr rfl⟩
  have hSpace := writeLoop_space buf L.sizeof q.ivq.avail 0 q.mem
  rw [if_pos hConn, if_pos hReady]
  generalize writeLoop buf L.sizeof q.ivq.avail 0 q.mem = r at hSpace ⊢
  rcases r with ⟨mem, used, avail, _ | _⟩
  · exact ⟨mem, { q.ivq with avail := avail, used := q.ivq.used ++ used }, hSpace, Or.inl rfl⟩
  · exact ⟨mem, { q.ivq with avail := avail, used := q.ivq.used ++ used }, hSpace, Or.inr rfl⟩

end Response

end VirtioCrypto.Host
