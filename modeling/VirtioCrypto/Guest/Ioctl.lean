import VirtioCrypto.Guest.Port
import VirtioCrypto.Host.Answer

/-!
# Guest — one ioctl of the driver

`port_fops_ioctl` from the call to its return, for a caller that has the port to
itself, together with the host at the other end of the queues. The request
(`cr_data`) lives in guest RAM, which is the memory the host reads it from and
edits it in, so the two sides share one address space; the calling process has
its own.

What the driver does not decide is in `Env`: what `kmalloc` returns, whether the
host has handled the kick by the time the driver looks for data, whether the
interrupt has, and whether a signal ends a sleep. A call that spins or sleeps
for ever, or whose peer is gone, does not return (`Stop.never`).

The call is cut where the source goes from one job to the next: `prepare` (up to
`send_buf`), `queue` (`send_buf` up to its spin), `exchange` (the spin, and the
sleep until there is data), `deliver` (`fill_readbuf`), `copyOut`.
-/

namespace VirtioCrypto.Guest

open Octets Cryptodev

/-- The port from both sides, and the memory of the calling process. -/
structure Sys (σ : Type) where
  host : Host.Flush (Host.Port σ)
  guest : Port UInt8
  user : Space

/-- What happens around a call. -/
structure Env where
  nonblock : Bool
  kmalloc : Option Nat
  fresh : Nat → UInt8
  prompt : Bool
  intr : Bool
  signal : Bool

/-- A call: what the process did to its memory since the last one, the command,
its argument, and the circumstances. -/
structure Call where
  prep : Space → Space
  cmd : Nat
  arg : Nat
  env : Env

/-- How a call ends. -/
inductive Stop
  | returns (r : Int)
  | never
deriving DecidableEq, Repr

-- the values of errno.h
def EFAULT : Int := 14
def ENOMEM : Int := 12
def ENODEV : Int := 19
def ENOTTY : Int := 25
def ERESTARTSYS : Int := 512

variable {σ : Type}

namespace Sys

/-- Guest RAM. -/
def mem (s : Sys σ) : Space := s.host.st.mem.space

def setMem (s : Sys σ) (mem : Space) : Sys σ :=
  { s with host := { s.host with st := { s.host.st with mem := { s.host.st.mem with space := mem } } } }

/-- The in queue and the guest's side of it after an operation on the two. -/
def setIn (s : Sys σ) (r : Port UInt8 × InVq UInt8) : Sys σ :=
  { s with guest := r.1, host := { s.host with st := { s.host.st with ivq := r.2 } } }

/-- The out queue and the guest's side of it after an operation on the two. -/
def setOut (s : Sys σ) (r : Port UInt8 × OutVq) : Sys σ :=
  { s with guest := r.1, host := { s.host with ovq := r.2 } }

end Sys

section Stages

variable (dev : Host.DevCrypto σ) (L : Layout)

/-- The host handles a kick; `none` when that was the end of it. -/
def kick (s : Sys σ) : Option (Sys σ) :=
  match Host.handleOutput dev L s.host with
  | (host, none) => some { s with host := host }
  | (_, some _) => none

/-- The wait for room in the out queue at the start of a call. -/
def waitWritable (s : Sys σ) (env : Env) : Sys σ × Except Stop Unit :=
  let r := willWriteBlock s.guest s.host.ovq
  let s := s.setOut r.2
  if !r.1 then (s, .ok ())
  else if env.nonblock then (s, .error (.returns (-Host.EAGAIN)))
  else if env.signal then (s, .error (.returns (-ERESTARTSYS)))
  else
    match kick dev L s with
    | none => (s, .error .never)
    | some s =>
      let r := willWriteBlock s.guest s.host.ovq
      (s.setOut r.2, if r.1 then .error .never else .ok ())

/-- Guest RAM with a fresh `cr_data` at `base` whose command word is set. -/
def allocate (mem : Space) (base : Nat) (fresh : Nat → UInt8) (word : Nat) : Space :=
  (mem.put base ((List.range L.sizeof).map fresh)).put (base + L.cmdOff) (toLE 4 word)

/-- The copies from the caller into `cr_data`; `none` is `-EFAULT`. They are made
without a look at the sizes of its members. -/
def copyIn (user mem : Space) (base arg : Nat) : Cmd → Option Space
  | .CIOCGSESSION => do
    let op ← user.load arg OP_SIZE
    let key ← user.load (u64 op 16) (u32 op 8)
    some ((mem.put base op).put (base + L.keypOff) key)
  | .CIOCCRYPT => do
    let op ← user.load arg OP_SIZE
    let src ← user.load (u64 op 16) (u32 op 8)
    let dst ← user.load (u64 op 24) (u32 op 8)
    let iv ← user.load (u64 op 40) L.blockMax
    some ((((mem.put base op).put (base + L.srcpOff) src).put (base + L.dstpOff) dst).put
      (base + L.ivpOff) iv)
  | .CIOCFSESSION => do
    let sid ← user.load arg 4
    some (mem.put base sid)

/-- A call up to `send_buf`: the command and the address of its `cr_data`. -/
def prepare (s : Sys σ) (call : Call) : Sys σ × Except Stop (Cmd × Nat) :=
  match waitWritable dev L s call.env with
  | (s, .error r) => (s, .error r)
  | (s, .ok ()) =>
    if !s.guest.guestConnected then (s, .error (.returns (-ENODEV))) else
    match call.env.kmalloc with
    | none => (s, .error (.returns (-ENOMEM)))
    | some base =>
      match Cmd.ofWord call.cmd with
      | none => (s, .error (.returns (-Host.EINVAL)))
      | some c =>
        match copyIn L s.user (allocate L s.mem base call.env.fresh call.cmd) base call.arg c with
        | none => (s, .error (.returns (-EFAULT)))
        | some mem => (s.setMem mem, .ok (c, base))

/-- `send_buf` up to the spin. -/
def queue (s : Sys σ) (base : Nat) : Bool × Sys σ :=
  let r := sendBuf s.guest s.host.ovq ⟨base, [(base, L.sizeof)]⟩
  (r.1, s.setOut r.2)

/-- The rest of `send_buf`: a blocking call spins until the host hands a buffer
back, any other leaves the host to its own pace. A request that could not be
queued is not waited for. -/
def spinOut (s : Sys σ) (queued : Bool) (env : Env) : Option (Sys σ) :=
  if queued && !env.nonblock then
    (kick dev L s).bind fun s => (spin s.guest s.host.ovq).map s.setOut
  else if env.prompt then kick dev L s
  else some s

/-- The interrupt, if it has been taken by now. -/
def interrupt (s : Sys σ) (env : Env) : Sys σ :=
  if env.intr then s.setIn (inIntr s.guest s.host.st.ivq) else s

/-- The sleep until there is data. -/
def waitReadable (s : Sys σ) (env : Env) : Sys σ × Except Stop Unit :=
  let r := portHasData s.guest s.host.st.ivq
  let s := s.setIn r.2
  if r.1 then (s, .ok ())
  else if !s.guest.hostConnected then (s, .error (.returns (-ENOTTY)))
  else if env.signal then (s, .error (.returns (-ERESTARTSYS)))
  else
    match kick dev L s with
    | none => (s, .error .never)
    | some s =>
      let r := willReadBlock s.guest s.host.st.ivq
      (s.setIn r.2, if r.1 then .error .never else .ok ())

/-- From the kick to the point where the response is read. -/
def exchange (s : Sys σ) (queued : Bool) (env : Env) : Sys σ × Except Stop Unit :=
  match spinOut dev L s queued env with
  | none => (s, .error .never)
  | some s =>
    match waitReadable dev L (interrupt s env) env with
    | (s, .error r) => (s, .error r)
    | (s, .ok ()) =>
      if !s.guest.guestConnected then (s, .error (.returns (-ENODEV))) else
      let r := portHasData s.guest s.host.st.ivq
      let s := s.setIn r.2
      if !r.1 && !s.guest.hostConnected then (s, .error (.returns (-ENOTTY))) else (s, .ok ())

/-- The bytes the one `fill_readbuf` of a call reads. -/
def received (s : Sys σ) : Bytes := (fillReadbuf s.guest s.host.st.ivq L.sizeof).1

/-- `fill_readbuf` into `cr_data`. -/
def deliver (s : Sys σ) (base : Nat) : Sys σ :=
  (s.setIn (fillReadbuf s.guest s.host.st.ivq L.sizeof).2).setMem (s.mem.put base (received L s))

/-- A store to the caller; `-EFAULT` leaves its memory as it was. -/
def copyToUser (s : Sys σ) (a : Nat) (bs : Bytes) : Sys σ × Bool :=
  match s.user.store a bs with
  | some user => ({ s with user := user }, true)
  | none => (s, false)

/-- The copies from `cr_data` back to the caller. The lengths are those of the
response; reading past mapped memory is the end of the guest. -/
def copyOut (s : Sys σ) (base arg : Nat) : Cmd → Sys σ × Stop
  | .CIOCGSESSION =>
    match s.mem.load base OP_SIZE with
    | none => (s, .never)
    | some op =>
      match copyToUser s arg op with
      | (s, false) => (s, .returns (-EFAULT))
      | (s, true) => (s, .returns 0)
  | .CIOCCRYPT =>
    match s.mem.load base OP_SIZE with
    | none => (s, .never)
    | some op =>
      match copyToUser s arg op with
      | (s, false) => (s, .returns (-EFAULT))
      | (s, true) =>
        -- ((struct crypt_op *)arg_)->dst is what has just been stored there
        match s.mem.load (base + L.dstpOff) (u32 op 8) with
        | none => (s, .never)
        | some dst =>
          match copyToUser s (u64 op 24) dst with
          | (s, false) => (s, .returns (-EFAULT))
          | (s, true) => (s, .returns 0)
  | .CIOCFSESSION =>
    match s.mem.load base 4 with
    | none => (s, .never)
    | some sid =>
      match copyToUser s arg sid with
      | (s, false) => (s, .returns (-EFAULT))
      | (s, true) => (s, .returns 0)

/-- `port_fops_ioctl`. -/
def portFopsIoctl (s : Sys σ) (call : Call) : Sys σ × Stop :=
  match prepare dev L { s with user := call.prep s.user } call with
  | (s, .error r) => (s, r)
  | (s, .ok (c, base)) =>
    match exchange dev L (queue L s base).2 (queue L s base).1 call.env with
    | (s, .error r) => (s, r)
    | (s, .ok ()) => copyOut L (deliver L s base) base call.arg c

/-- The system after a call; there is none after a call that does not return. -/
def callStep (s : Sys σ) (call : Call) : Option (Sys σ) :=
  match (portFopsIoctl dev L s call).2 with
  | .returns _ => some (portFopsIoctl dev L s call).1
  | _ => none

/-- `R` holds of every call of a sequence, at the state it is made in; after a
call that does not return no more are made. -/
def AtCalls (R : Sys σ → Call → Prop) (s : Sys σ) (calls : List Call) : Prop :=
  Transition.Along (callStep dev L) R s calls

end Stages

section AtCalls

variable {dev : Host.DevCrypto σ} {L : Layout} {R R' : Sys σ → Call → Prop} {s s' : Sys σ}
  {call : Call} {calls : List Call}

theorem callStep_eq_some_iff :
    callStep dev L s call = some s' ↔
      (∃ r, (portFopsIoctl dev L s call).2 = .returns r) ∧ (portFopsIoctl dev L s call).1 = s' := by
  unfold callStep
  rcases (portFopsIoctl dev L s call).2 with _ | _ <;> simp

theorem AtCalls.rest (h : AtCalls dev L R s (call :: calls)) {r : Int}
    (hr : (portFopsIoctl dev L s call).2 = .returns r) :
    AtCalls dev L R (portFopsIoctl dev L s call).1 calls :=
  h.2 _ (callStep_eq_some_iff.mpr ⟨⟨r, hr⟩, rfl⟩)

theorem atCalls_cons (hHere : R s call)
    (hRest : ∀ r, (portFopsIoctl dev L s call).2 = .returns r →
      AtCalls dev L R (portFopsIoctl dev L s call).1 calls) :
    AtCalls dev L R s (call :: calls) := by
  refine ⟨hHere, fun s' hStep => ?_⟩
  obtain ⟨⟨r, hr⟩, rfl⟩ := callStep_eq_some_iff.mp hStep
  exact hRest r hr

theorem atCalls_imp (h : ∀ s call, R s call → R' s call) (hR : AtCalls dev L R s calls) :
    AtCalls dev L R' s calls :=
  Transition.along_mono (I := fun _ => True) (fun _ _ _ _ _ _ => trivial) (fun s call _ => h s call)
    trivial hR

end AtCalls

end VirtioCrypto.Guest
