import VirtioCrypto.Host.Abort
import VirtioCrypto.Octets.CString
import VirtioCrypto.Transition

/-!
# Host — one answer per request

A guest process that sent a request sleeps until something arrives on the in
queue. The device answers a request whose ioctl succeeded with the whole
message, and a request whose ioctl failed not at all; either way the loop hands
the element back.

* `flushCase_ok`, `flushCase_error` — what the two outcomes of an ioctl lead to;
* `turn_answers_iff` — one turn of the loop on a request;
* `answers_iff` — over any run, each request is answered by the time its element
  is pushed exactly when each ioctl succeeds.
-/

namespace VirtioCrypto.Host

open Octets Cryptodev

variable {σ : Type} (dev : DevCrypto σ) (L : Layout)

-- ---------------------------------------------------------------------------
-- The two outcomes of an ioctl
-- ---------------------------------------------------------------------------

/-- The branch of `flush_buf`'s `switch` for a command. -/
def flushCase (port : Port σ) (buf w : Nat) : Cmd → Port σ × Except Fault Int
  | .CIOCGSESSION => flushGsession dev L port buf w
  | .CIOCCRYPT => flushCrypt dev L port buf w
  | .CIOCFSESSION => flushFsession dev L port buf w

/-- What comes of the ioctl in that branch; `none` when it is not reached. -/
def outcome (port : Port σ) (buf : Nat) : Cmd → Option (Except Errno Unit)
  | .CIOCGSESSION => (ioctlGsession dev L port buf).2.map (Except.map fun _ => ())
  | .CIOCCRYPT => (ioctlCrypt dev L port buf).2.map (Except.map fun _ => ())
  | .CIOCFSESSION => (ioctlFsession dev port buf).2.map (Except.map fun _ => ())

/-- The port once `flush_buf` has read the command word. -/
def cmdRead (port : Port σ) (buf : Nat) : Port σ :=
  { port with mem := (port.mem.read buf (.buf L.cmdOff) 4).2 }

theorem flushBuf_eq_flushCase {port : Port σ} (hChr : port.chr = true) {buf : Nat} (len : Nat)
    {n : Nat} {data : Bytes} (hLoad : port.mem.space.load buf n = some data)
    (hn : L.cmdOff + 4 ≤ n) {c : Cmd} (hCmd : Cmd.ofWord (u32 data L.cmdOff) = some c) :
    flushBuf dev L port buf len =
      flushCase dev L (cmdRead L port buf) buf (u32 data L.cmdOff) c := by
  have hWord : port.mem.space.load (buf + L.cmdOff) 4 = some (slice data L.cmdOff 4) :=
    Space.load_slice hLoad hn
  have hBackend : (!port.chr) = false := by simp [hChr]
  unfold flushBuf
  rw [hBackend]
  simp only [Bool.false_eq_true, if_false, HostMem.read, HostPtr.resolve, hWord]
  unfold u32 at hCmd
  rw [hCmd]
  cases c <;> rfl

variable {dev L}

/-- The response is the message as it stands, whole. -/
theorem respond_connected {q : Port σ} {buf w : Nat} {data : Bytes}
    (hHost : q.hostConnected = true) (hGuest : q.guestConnected = true)
    (hLoad : q.mem.space.load buf L.sizeof = some data) :
    ∃ log, respond L q buf w =
      ret { q with mem := ⟨q.mem.space, log⟩, ivq := (writeToPort q.ivq data).1 } w 0 := by
  obtain ⟨log, hWrite⟩ := virtioSerialWrite_mapped hHost hGuest hLoad
  unfold respond
  rw [hWrite]
  exact ⟨log, rfl⟩

theorem ioctlGsession_keeps_mapped (hDev : dev.KeepsMapped) {port : Port σ} (buf : Nat) {a n : Nat}
    (h : (port.mem.space.load a n).isSome) :
    ((ioctlGsession dev L port buf).1.mem.space.load a n).isSome := by
  unfold ioctlGsession HostMem.read
  rcases port.mem.space.load (HostPtr.resolve buf (.buf 0)) OP_SIZE with _ | raw
  · exact h
  · rcases port.crInfo with _ | _ | (_ | fd)
    · exact h
    · exact h
    · exact h
    · exact hDev.gsession _ _ _ _ _ _ h

theorem ioctlCrypt_keeps_mapped (hDev : dev.KeepsMapped) {port : Port σ} (buf : Nat) {a n : Nat}
    (h : (port.mem.space.load a n).isSome) :
    ((ioctlCrypt dev L port buf).1.mem.space.load a n).isSome := by
  unfold ioctlCrypt HostMem.read
  rcases port.mem.space.load (HostPtr.resolve buf (.buf 0)) OP_SIZE with _ | raw
  · exact h
  · simp only
    rcases port.mem.space.load (HostPtr.resolve buf (.buf L.dstpOff)) 1 with _ | d
    · exact h
    · rcases port.crInfo with _ | _ | (_ | fd)
      · exact h
      · exact h
      · exact h
      · exact hDev.crypt _ _ _ _ _ _ h

theorem ioctlFsession_keeps_mapped (dev : DevCrypto σ) {port : Port σ} (buf : Nat) {a n : Nat}
    (h : (port.mem.space.load a n).isSome) :
    ((ioctlFsession dev port buf).1.mem.space.load a n).isSome := by
  unfold ioctlFsession HostMem.read
  rcases port.mem.space.load (HostPtr.resolve buf (.buf 0)) 4 with _ | sid
  · exact h
  · rcases port.crInfo with _ | _ | (_ | fd) <;> exact h

theorem length_of_ioctlFsession (dev : DevCrypto σ) (port : Port σ) (buf : Nat) (sid : Bytes)
    (h : (ioctlFsession dev port buf).2 = some (.ok sid)) : sid.length = 4 := by
  unfold ioctlFsession HostMem.read at h
  rcases hLoad : port.mem.space.load (HostPtr.resolve buf (.buf 0)) 4 with _ | bs
  · simp [hLoad] at h
  rcases hInfo : port.crInfo with _ | _ | (_ | fd)
  · simp [hLoad, hInfo] at h
  · simp [hLoad, hInfo] at h
  · simp [hLoad, hInfo] at h
  rcases hf : (dev.fsession fd (ofLE bs)).2 with e | _
  · simp [hLoad, hInfo, hf, Except.map] at h
  · simp only [hLoad, hInfo, hf, Except.map, Option.some.injEq, Except.ok.injEq] at h
    rw [← h]
    exact Space.length_of_load hLoad

/-- A write of part of a mapped message succeeds. -/
theorem write_in_message {m : HostMem} {buf off n : Nat} {bs : Bytes}
    (h : (m.space.load buf n).isSome) (hFit : off + bs.length ≤ n) :
    m.write buf (.buf off) bs =
      (true, ⟨m.space.put (buf + off) bs, m.log ++ [⟨.buf off, bs.length⟩]⟩) := by
  obtain ⟨data, hLoad⟩ := Option.isSome_iff_exists.mp h
  have hPart := Space.load_slice hLoad hFit
  simp [HostMem.write, HostPtr.resolve, Space.store_of_load hPart rfl]

/-- A failed ioctl: `return 1`, and nothing is written. -/
theorem flushCase_error {port : Port σ} {buf w : Nat} {c : Cmd} {e : Errno}
    (h : outcome dev L port buf c = some (.error e)) :
    ∃ q, SameSide port q ∧ flushCase dev L port buf w c = ret q w 1 := by
  cases c with
  | CIOCGSESSION =>
    have hSide := (ioctlGsession_leaves dev L port buf).sameSide
    unfold outcome at h
    unfold flushCase flushGsession
    generalize ioctlGsession dev L port buf = r at h hSide ⊢
    rcases r with ⟨q, _ | e' | _⟩
    · simp at h
    · exact ⟨q, hSide, rfl⟩
    · simp [Except.map] at h
  | CIOCCRYPT =>
    have hSide := (ioctlCrypt_leaves dev L port buf).sameSide
    unfold outcome at h
    unfold flushCase flushCrypt
    generalize ioctlCrypt dev L port buf = r at h hSide ⊢
    rcases r with ⟨q, _ | e' | _⟩
    · simp at h
    · exact ⟨q, hSide, rfl⟩
    · simp [Except.map] at h
  | CIOCFSESSION =>
    have hSide := (ioctlFsession_leaves dev port buf).sameSide
    unfold outcome at h
    unfold flushCase flushFsession
    generalize ioctlFsession dev port buf = r at h hSide ⊢
    rcases r with ⟨q, _ | e' | _⟩
    · simp at h
    · exact ⟨q, hSide, rfl⟩
    · simp [Except.map] at h

/-- A port the guest and the host have open, with a chardev behind it. -/
structure Connected (port : Port σ) : Prop where
  chr : port.chr = true
  host : port.hostConnected = true
  guest : port.guestConnected = true
  unthrottled : port.throttled = false
  ready : port.ivq.ready = true
  crInfo : ∃ cfd, port.crInfo = .live cfd

theorem Connected.of_sameSide {port q : Port σ} (h : Connected port) (hSide : SameSide port q) :
    Connected q where
  chr := hSide.chr.trans h.chr
  host := hSide.hostConnected.trans h.host
  guest := hSide.guestConnected.trans h.guest
  unthrottled := hSide.throttled.trans h.unthrottled
  ready := by rw [hSide.ivq]; exact h.ready
  crInfo := hSide.live h.crInfo

theorem Connected.withIvq {port : Port σ} (h : Connected port) (ivq : InVq UInt8)
    (hReady : ivq.ready = true) (calls : List (Nat × Int)) :
    Connected { port with ivq := ivq, calls := calls } :=
  ⟨h.chr, h.host, h.guest, h.unthrottled, hReady, h.crInfo⟩

/-- The branch ends in the response. -/
def Responds (L : Layout) (port : Port σ) (buf w : Nat) (r : Port σ × Except Fault Int) : Prop :=
  ∃ q data, SameSide port q ∧ q.mem.space.load buf L.sizeof = some data ∧
    r = ret { q with ivq := (writeToPort port.ivq data).1 } w 0

theorem responds_of_mapped {port q : Port σ} {buf w : Nat} (hConn : Connected port)
    (hSide : SameSide port q) (hMapped : (q.mem.space.load buf L.sizeof).isSome) :
    Responds L port buf w (respond L q buf w) := by
  obtain ⟨data, hLoad⟩ := Option.isSome_iff_exists.mp hMapped
  have hHost : q.hostConnected = true := hSide.hostConnected.trans hConn.host
  have hGuest : q.guestConnected = true := hSide.guestConnected.trans hConn.guest
  obtain ⟨log, hRet⟩ := respond_connected (w := w) hHost hGuest hLoad
  refine ⟨{ q with mem := ⟨q.mem.space, log⟩ }, data, hSide.withMem _, hLoad, ?_⟩
  rw [hRet, hSide.ivq]

/-- A successful ioctl leads to the response, with the message still mapped. -/
theorem flushCase_responds (hDev : dev.KeepsMapped) {port : Port σ} {buf w : Nat} {c : Cmd}
    (hMapped : (port.mem.space.load buf L.sizeof).isSome)
    (h : outcome dev L port buf c = some (.ok ())) :
    ∃ q, SameSide port q ∧ (q.mem.space.load buf L.sizeof).isSome ∧
      flushCase dev L port buf w c = respond L q buf w := by
  have hSize : 48 ≤ L.sizeof := by
    have := L.cmdOff_bounds
    rw [L.ivpOff_eq] at this
    omega
  cases c with
  | CIOCGSESSION =>
    have hSide := (ioctlGsession_leaves dev L port buf).sameSide
    have hMapped' := ioctlGsession_keeps_mapped (L := L) hDev buf hMapped
    unfold outcome at h
    unfold flushCase flushGsession
    generalize ioctlGsession dev L port buf = r at h hSide hMapped' ⊢
    rcases r with ⟨q, _ | _ | sess⟩
    · simp at h
    · simp [Except.map] at h
    · simp only
      rw [write_in_message hMapped' (by simp [SES_OFF]; omega)]
      exact ⟨_, hSide.withMem _, Space.load_put_isSome hMapped', rfl⟩
  | CIOCCRYPT =>
    have hSide := (ioctlCrypt_leaves dev L port buf).sameSide
    have hMapped' := ioctlCrypt_keeps_mapped (L := L) hDev buf hMapped
    unfold outcome at h
    unfold flushCase flushCrypt
    generalize ioctlCrypt dev L port buf = r at h hSide hMapped' ⊢
    rcases r with ⟨q, _ | _ | crypt⟩
    · simp at h
    · simp [Except.map] at h
    · refine ⟨_, hSide.withMem _, ?_, rfl⟩
      exact hMapped'
  | CIOCFSESSION =>
    have hSide := (ioctlFsession_leaves dev port buf).sameSide
    have hMapped' := ioctlFsession_keeps_mapped dev buf hMapped
    have hSid := length_of_ioctlFsession dev port buf
    unfold outcome at h
    unfold flushCase flushFsession
    generalize ioctlFsession dev port buf = r at h hSide hMapped' hSid ⊢
    rcases r with ⟨q, _ | _ | sid⟩
    · simp at h
    · simp [Except.map] at h
    · simp only
      rw [write_in_message hMapped' (by rw [hSid sid rfl]; omega)]
      exact ⟨_, hSide.withMem _, Space.load_put_isSome hMapped', rfl⟩

/-- On a connected port: the response, and `return 0`. -/
theorem flushCase_ok (hDev : dev.KeepsMapped) {port : Port σ} {buf w : Nat} {c : Cmd}
    (hConn : Connected port) (hMapped : (port.mem.space.load buf L.sizeof).isSome)
    (h : outcome dev L port buf c = some (.ok ())) :
    Responds L port buf w (flushCase dev L port buf w c) := by
  obtain ⟨q, hSide, hMapped', hCase⟩ := flushCase_responds (w := w) hDev hMapped h
  rw [hCase]
  exact responds_of_mapped hConn hSide hMapped'

-- ---------------------------------------------------------------------------
-- One turn of the loop
-- ---------------------------------------------------------------------------

variable (dev L)

/-- One turn of the `while` loop of `do_flush_queued_data`. -/
def turn (p : Flush (Port σ)) : Flush (Port σ) :=
  (flushLoop (flushBuf dev L) Port.throttled 1 p).1

/-- The element the next turn takes is a request for `c` at `base`. -/
structure NextRequest (p : Flush (Port σ)) (e : Elem) (base : Nat) (c : Cmd) : Prop where
  idle : p.outNum = 0
  head : ∃ rest, p.ovq.avail = e :: rest
  sg : e.outSg = [(base, L.sizeof)]
  message : ∃ data, p.st.mem.space.load base L.sizeof = some data ∧
    Cmd.ofWord (u32 data L.cmdOff) = some c

/-- A turn finds a request, and room for its response. -/
def Fed (p : Flush (Port σ)) : Prop :=
  (∃ e base c, NextRequest L p e base c) ∧ L.sizeof ≤ p.st.ivq.room

/-- Between two states the element at the head was pushed back, and exactly the
message it names went out. -/
def Answered (p q : Flush (Port σ)) : Prop :=
  ∀ e base c, NextRequest L p e base c →
    q.ovq.used = p.ovq.used ++ [e] ∧
      ∃ data, data.length = L.sizeof ∧ q.st.mem.space.load base L.sizeof = some data ∧
        q.st.ivq.stream = p.st.ivq.stream ++ data

/-- The ioctl for the request at the head succeeds. -/
def Succeeds (p : Flush (Port σ)) : Prop :=
  ∀ e base c, NextRequest L p e base c →
    outcome dev L (cmdRead L p.st base) base c = some (.ok ())

variable {dev L}

/-- A callback that takes 0 or 1 bytes of a request ends the turn with the
element pushed. -/
theorem flushLoop_request {p : Flush (Port σ)} {e : Elem} {base : Nat} {rest : List Elem}
    (hIdle : p.outNum = 0) (hAvail : p.ovq.avail = e :: rest) (hSg : e.outSg = [(base, L.sizeof)])
    (hThr : p.st.throttled = false) {st : Port σ} {r : Int}
    (hCall : flushBuf dev L p.st base L.sizeof = (st, .ok r)) (hr : 0 ≤ r ∧ r ≤ 1)
    (hThr' : st.throttled = false) :
    flushLoop (flushBuf dev L) Port.throttled 1 p =
      ({ st := st, ovq := { p.ovq with avail := rest, used := p.ovq.used ++ [e] }, elem := e,
         outNum := 0, iovIdx := 0, iovOffset := if 0 < r then 0 + r.toNat else 0 }, none) := by
  have hSize : 48 ≤ L.sizeof := by
    have := L.cmdOff_bounds
    rw [L.ivpOff_eq] at this
    omega
  have hNeg : ¬ (r < 0 ∧ r ≠ -EAGAIN) := by omega
  have hShort : r = -EAGAIN ∨ (0 ≤ r ∧ r < (L.sizeof : Int)) := Or.inr ⟨hr.1, by omega⟩
  have hPop : p.pop = some { p with ovq := { p.ovq with avail := rest }, elem := e, outNum := 1,
                                     iovIdx := 0, iovOffset := 0 } := by
    simp only [Flush.pop, hIdle, ne_eq, not_true, if_false, hAvail, hSg, List.length_singleton]
  have hSegs : flushSegs (flushBuf dev L) ((e.outSg.take 1).drop 0) 0 0 p.st =
      (st, .ok (some (0, if 0 < r then 0 + r.toNat else 0))) := by
    rw [hSg, List.take_of_length_le (by simp), List.drop_zero, flushSegs, Nat.add_zero, Nat.sub_zero,
      hCall]
    simp only
    rw [if_neg hNeg, if_pos hShort]
  have hPush : ¬ st.throttled = true := by simp [hThr']
  rw [flushLoop_one hThr hPop hSegs, if_neg hPush]
  rfl

theorem NextRequest.unique {p : Flush (Port σ)} {e e' : Elem} {base base' : Nat} {c c' : Cmd}
    (h : NextRequest L p e base c) (h' : NextRequest L p e' base' c') :
    e' = e ∧ base' = base ∧ c' = c := by
  obtain ⟨rest, hAvail⟩ := h.head
  obtain ⟨rest', hAvail'⟩ := h'.head
  rw [hAvail, List.cons.injEq] at hAvail'
  have he : e' = e := hAvail'.1.symm
  have hBase : base' = base := by
    have hSg := h'.sg
    rw [he, h.sg] at hSg
    simpa using hSg.symm
  obtain ⟨data, hLoad, hCmd⟩ := h.message
  obtain ⟨data', hLoad', hCmd'⟩ := h'.message
  rw [hBase, hLoad, Option.some.injEq] at hLoad'
  rw [← hLoad', hCmd, Option.some.injEq] at hCmd'
  exact ⟨he, hBase, hCmd'.symm⟩

/-- On an open port with the message mapped, every command's ioctl is issued. -/
theorem outcome_isSome {port : Port σ} {buf : Nat} (hLive : ∃ cfd, port.crInfo = .live cfd)
    (hMapped : (port.mem.space.load buf L.sizeof).isSome) (c : Cmd) :
    (outcome dev L port buf c).isSome := by
  obtain ⟨data, hLoad⟩ := Option.isSome_iff_exists.mp hMapped
  obtain ⟨cfd, hInfo⟩ := hLive
  have hBounds := L.cmdOff_bounds
  rw [L.ivpOff_eq] at hBounds
  have hOp : port.mem.space.load buf OP_SIZE = some (data.take OP_SIZE) :=
    Space.load_prefix hLoad (by unfold OP_SIZE; omega)
  have hSid : port.mem.space.load buf 4 = some (data.take 4) :=
    Space.load_prefix hLoad (by omega)
  have hDst : port.mem.space.load (buf + L.dstpOff) 1 = some (slice data L.dstpOff 1) := by
    refine Space.load_slice hLoad ?_
    have := L.dataMax_pos
    rw [L.dstpOff_eq]
    omega
  cases c with
  | CIOCGSESSION =>
    rcases cfd with _ | fd <;>
      simp [outcome, ioctlGsession, HostMem.read, HostPtr.resolve, hOp, hInfo]
  | CIOCCRYPT =>
    rcases cfd with _ | fd <;>
      simp [outcome, ioctlCrypt, HostMem.read, HostPtr.resolve, hOp, hDst, hInfo]
  | CIOCFSESSION =>
    rcases cfd with _ | fd <;>
      simp [outcome, ioctlFsession, HostMem.read, HostPtr.resolve, hSid, hInfo]

/-- A request whose ioctl succeeds: the response is the message as the host left
it. -/
theorem flushBuf_answers (hDev : dev.KeepsMapped) {port : Port σ} (hConn : Connected port)
    {base : Nat} {data : Bytes} {c : Cmd} (hLoad : port.mem.space.load base L.sizeof = some data)
    (hCmd : Cmd.ofWord (u32 data L.cmdOff) = some c)
    (hOk : outcome dev L (cmdRead L port base) base c = some (.ok ())) :
    ∃ st bs, flushBuf dev L port base L.sizeof = (st, .ok 0) ∧ Connected st ∧
      st.mem.space.load base L.sizeof = some bs ∧ st.ivq = (writeToPort port.ivq bs).1 := by
  have hConn' : Connected (cmdRead L port base) :=
    hConn.of_sameSide ((SameSide.refl port).withMem _)
  have hMapped : ((cmdRead L port base).mem.space.load base L.sizeof).isSome :=
    Option.isSome_iff_exists.mpr ⟨data, hLoad⟩
  have hCase := flushBuf_eq_flushCase dev L hConn.chr L.sizeof hLoad L.cmdOff_bounds.2 hCmd
  obtain ⟨q, bs, hSide, hLoad', hRet⟩ :=
    flushCase_ok (w := u32 data L.cmdOff) hDev hConn' hMapped hOk
  have hReady : (writeToPort (cmdRead L port base).ivq bs).1.ready = true := by
    unfold writeToPort
    split <;> exact hConn.ready
  exact ⟨_, bs, hCase.trans hRet, (hConn'.of_sameSide hSide).withIvq _ hReady _, hLoad', rfl⟩

/-- A turn on a request whose ioctl fails: the element is pushed, and nothing
else happens to the queues. -/
theorem flushLoop_silent {p : Flush (Port σ)} (hConn : Connected p.st) {e : Elem} {base : Nat}
    {c : Cmd} {rest : List Elem} (hReq : NextRequest L p e base c)
    (hAvail : p.ovq.avail = e :: rest) {err : Errno}
    (hErr : outcome dev L (cmdRead L p.st base) base c = some (.error err)) :
    ∃ st, Connected st ∧ st.ivq = p.st.ivq ∧
      ∃ off, flushLoop (flushBuf dev L) Port.throttled 1 p =
        ({ st := st, ovq := { p.ovq with avail := rest, used := p.ovq.used ++ [e] }, elem := e,
           outNum := 0, iovIdx := 0, iovOffset := off }, none) := by
  obtain ⟨data, hLoad, hCmd⟩ := hReq.message
  have hConn' : Connected (cmdRead L p.st base) :=
    hConn.of_sameSide ((SameSide.refl p.st).withMem _)
  have hCase := flushBuf_eq_flushCase dev L hConn.chr L.sizeof hLoad L.cmdOff_bounds.2 hCmd
  obtain ⟨q, hSide, hRet⟩ := flushCase_error (w := u32 data L.cmdOff) hErr
  have hq : Connected q := hConn'.of_sameSide hSide
  have hLoop := flushLoop_request hReq.idle hAvail hReq.sg hConn.unthrottled (hCase.trans hRet)
    ⟨by decide, by decide⟩ hq.unthrottled
  exact ⟨_, hq.withIvq q.ivq hq.ready (q.calls ++ [(u32 data L.cmdOff, 1)]), hSide.ivq, _, hLoop⟩

/-- **One turn on a request.** The element is pushed back either way; it has been
answered exactly when the ioctl succeeded. -/
theorem turn_answers_iff (hDev : dev.KeepsMapped) {p : Flush (Port σ)} (hConn : Connected p.st)
    (hFed : Fed L p) :
    Connected (turn dev L p).st ∧ (Answered L p (turn dev L p) ↔ Succeeds dev L p) := by
  obtain ⟨⟨e, base, c, hReq⟩, hRoom⟩ := hFed
  obtain ⟨rest, hAvail⟩ := hReq.head
  obtain ⟨data, hLoad, hCmd⟩ := hReq.message
  have hSome : (outcome dev L (cmdRead L p.st base) base c).isSome := by
    refine outcome_isSome ?_ ?_ c
    · exact hConn.crInfo
    · exact Option.isSome_iff_exists.mpr ⟨data, hLoad⟩
  obtain ⟨out, hOut⟩ := Option.isSome_iff_exists.mp hSome
  unfold turn
  rcases out with err | _
  · obtain ⟨st, hSt, hIvq, off, hLoop⟩ := flushLoop_silent hConn hReq hAvail hOut
    rw [hLoop]
    refine ⟨hSt, fun hAns => ?_, fun hOk => ?_⟩
    · -- nothing was written, so no response went out
      obtain ⟨-, bs, hLen, -, hStream⟩ := hAns e base c hReq
      have hNil : bs = [] := by simpa [hIvq] using hStream
      have hPos := L.cmdOff_bounds
      rw [hNil] at hLen
      simp at hLen
      omega
    · have hOk' := hOk e base c hReq
      rw [hOut] at hOk'
      simp at hOk'
  · obtain ⟨st, bs, hCall, hSt, hLoad', hIvq⟩ := flushBuf_answers hDev hConn hLoad hCmd hOut
    rw [flushLoop_request hReq.idle hAvail hReq.sg hConn.unthrottled hCall ⟨by decide, by decide⟩
      hSt.unthrottled]
    refine ⟨hSt, fun _ e' base' c' hReq' => ?_, fun _ e' base' c' hReq' => ?_⟩
    · obtain ⟨-, rfl, rfl⟩ := hReq.unique hReq'
      exact hOut
    · obtain ⟨rfl, rfl, -⟩ := hReq.unique hReq'
      have hLen := Space.length_of_load hLoad'
      refine ⟨rfl, bs, hLen, hLoad', ?_⟩
      rw [show (({ st := st, .. } : Flush (Port σ)).st.ivq).stream = st.ivq.stream from rfl, hIvq]
      exact writeToPort_stream hConn.ready (by rw [hLen]; exact hRoom)

-- ---------------------------------------------------------------------------
-- Whole runs
-- ---------------------------------------------------------------------------

/-- A step of a run: the guest does something, or the loop takes a turn. -/
inductive HostEvent
  | guest (g : GuestEvent)
  | turn

def HostEvent.apply (dev : DevCrypto σ) (L : Layout) (p : Flush (Port σ)) :
    HostEvent → Flush (Port σ)
  | .guest g => g.apply p
  | .turn => Host.turn dev L p

/-- `R` holds of every state of a run in which the loop takes a turn. -/
def AtTurns (dev : DevCrypto σ) (L : Layout) (R : Flush (Port σ) → Prop) (p : Flush (Port σ))
    (evs : List HostEvent) : Prop :=
  Transition.Along (fun p ev => some (HostEvent.apply dev L p ev)) (fun p ev => ev = .turn → R p) p evs

theorem Connected.guest_event {p : Flush (Port σ)} (h : Connected p.st) (g : GuestEvent) :
    Connected (g.apply p).st := by
  cases g <;> exact ⟨h.chr, h.host, h.guest, h.unthrottled, h.ready, h.crInfo⟩

/-- **One answer per request.** On an open port with room for every response,
each request of a run has been answered by the time its element is pushed back
exactly when each ioctl of the run succeeds. -/
theorem answers_iff (hDev : dev.KeepsMapped) (p : Flush (Port σ)) (evs : List HostEvent)
    (hConn : Connected p.st) (hFed : AtTurns dev L (Fed L) p evs) :
    AtTurns dev L (fun q => Answered L q (turn dev L q)) p evs ↔
      AtTurns dev L (Succeeds dev L) p evs := by
  refine Transition.along_congr (I := fun p => Connected p.st) (fun p ev hConn hFed => ?_)
    (fun p ev p' hConn hFed _ hStep => ?_) hConn hFed
  · refine forall_congr' fun hTurn => ?_
    exact (turn_answers_iff hDev hConn (hFed hTurn)).2
  · obtain rfl := Option.some.inj hStep
    cases ev with
    | guest g => exact hConn.guest_event g
    | turn => exact (turn_answers_iff hDev hConn (hFed rfl)).1

/-- The message at address 0, a page posted for the response, and the request
queued. -/
def requestRun (space : Space) : List HostEvent :=
  [.guest (.poke space), .guest (.post 4096), .guest (.queue ⟨0, [(0, 120)]⟩), .turn]

/-- The state in which the turn of `requestRun` is taken. -/
def requestPort (space : Space) : Flush (Port Fcrypt) :=
  { consolePort with
    st := { consolePort.st with mem := ⟨space, []⟩, ivq := ⟨true, [4096], []⟩ }
    ovq := ⟨true, [⟨0, [(0, 120)]⟩], []⟩ }

theorem consolePort_connected : Connected consolePort.st :=
  ⟨rfl, rfl, rfl, rfl, rfl, ⟨_, rfl⟩⟩

theorem nextRequest_emptyRequest (c : Cmd) :
    NextRequest smallLayout (requestPort (emptyRequest c)) ⟨0, [(0, 120)]⟩ 0 c where
  idle := rfl
  head := ⟨[], rfl⟩
  sg := rfl
  message := by
    refine ⟨zeros 116 ++ toLE 4 c.word, ?_, ?_⟩ <;> cases c <;> decide +kernel

/-- What holds of the one turn of `requestRun` holds at every turn of it. -/
theorem atTurns_requestRun {K : Kernel} {L : Layout} {R : Flush (Port Fcrypt) → Prop} {space : Space}
    (h : R (requestPort space)) : AtTurns (cryptodev K) L R consolePort (requestRun space) := by
  refine ⟨nofun, fun p hp => ?_⟩
  obtain rfl := Option.some.inj hp
  refine ⟨nofun, fun p hp => ?_⟩
  obtain rfl := Option.some.inj hp
  refine ⟨nofun, fun p hp => ?_⟩
  obtain rfl := Option.some.inj hp
  exact ⟨fun _ => h, fun _ _ => trivial⟩

theorem consolePort_finish_answered :
    AtTurns (cryptodev nullKernel) smallLayout
      (fun q => Answered smallLayout q (turn (cryptodev nullKernel) smallLayout q)) consolePort
      (requestRun (emptyRequest .CIOCFSESSION)) :=
  (answers_iff (cryptodev_keepsMapped nullKernel) consolePort (requestRun (emptyRequest .CIOCFSESSION))
    consolePort_connected
    (atTurns_requestRun ⟨⟨_, _, _, nextRequest_emptyRequest .CIOCFSESSION⟩, by decide⟩)).mpr
    (atTurns_requestRun fun e base c hReq => by
      obtain ⟨-, rfl, rfl⟩ := (nextRequest_emptyRequest .CIOCFSESSION).unique hReq
      rfl)

/-- A `CIOCCRYPT` for a session that does not exist: the element comes back, and
nothing has been written. -/
theorem unknown_session_unanswered :
    Connected (requestPort (emptyRequest .CIOCCRYPT)).st ∧
      Fed smallLayout (requestPort (emptyRequest .CIOCCRYPT)) ∧
      (turn (cryptodev nullKernel) smallLayout
        (requestPort (emptyRequest .CIOCCRYPT))).ovq.used = [⟨0, [(0, 120)]⟩] ∧
      (turn (cryptodev nullKernel) smallLayout
        (requestPort (emptyRequest .CIOCCRYPT))).st.ivq.stream = [] :=
  ⟨⟨rfl, rfl, rfl, rfl, rfl, ⟨_, rfl⟩⟩,
    ⟨⟨_, _, _, nextRequest_emptyRequest .CIOCCRYPT⟩, by decide⟩,
    by decide +kernel, by decide +kernel⟩

end VirtioCrypto.Host
