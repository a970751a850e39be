import VirtioCrypto.Host.Answer
import VirtioCrypto.Cryptodev.Effect

/-!
# Host — what a successful request leaves

The state of the device and the response after `flush_buf` on a request whose
ioctl succeeds, in terms of what the ioctl computes from the message: the
session table of the descriptor, and the message with the number of the new
session or the result of the operation in it. Everything else in the message is
as the guest sent it.

* `serve_gsession`, `serve_crypt`, `serve_fsession` — the three commands.
-/

namespace VirtioCrypto.Host

open Octets Cryptodev

variable {K : Kernel} {L : Layout} {port : Port Fcrypt} {base : Nat} {fcr : Fcrypt} {d : Bytes}

/-- `flush_buf` on the message at `base` answers with `bs` and leaves the
descriptor with the sessions `fcr`. -/
structure Served (K : Kernel) (L : Layout) (port : Port Fcrypt) (base : Nat) (fcr : Fcrypt)
    (bs : Bytes) (st : Port Fcrypt) : Prop where
  call : flushBuf (cryptodev K) L port base L.sizeof = (st, .ok 0)
  connected : Connected st
  crInfo : st.crInfo = .live (some fcr)
  message : st.mem.space.load base L.sizeof = some bs
  ivq : st.ivq = (writeToPort port.ivq bs).1

theorem served_of_respond (hConn : Connected port) {q : Port Fcrypt} {bs : Bytes} {w : Nat}
    (hCall : flushBuf (cryptodev K) L port base L.sizeof = respond L q base w)
    (hSide : SameSide port q) (hInfo : q.crInfo = .live (some fcr))
    (hLoad : q.mem.space.load base L.sizeof = some bs) : ∃ st, Served K L port base fcr bs st := by
  have hq := hConn.of_sameSide hSide
  have hReady : (writeToPort q.ivq bs).1.ready = true := by
    unfold writeToPort
    split <;> exact hq.ready
  obtain ⟨log, hRet⟩ := respond_connected (w := w) hq.host hq.guest hLoad
  rw [hRet] at hCall
  exact ⟨_, hCall, ⟨hq.chr, hq.host, hq.guest, hq.unthrottled, hReady, hq.crInfo⟩, hInfo, hLoad, by
    rw [← hSide.ivq]⟩

/-- The operation in front of a message. -/
theorem load_op (hLoad : port.mem.space.load base L.sizeof = some d) :
    port.mem.space.load base OP_SIZE = some (slice d 0 OP_SIZE) := by
  refine Space.load_prefix hLoad ?_
  have hBounds := L.cmdOff_bounds
  rw [L.ivpOff_eq] at hBounds
  unfold OP_SIZE
  omega

-- ---------------------------------------------------------------------------
-- CIOCGSESSION
-- ---------------------------------------------------------------------------

theorem ioctlGsession_live (port : Port Fcrypt) {op : Bytes} {fcr' : Fcrypt} {m : HostMem}
    {res : Except Errno (SessionOp HostPtr)} (hInfo : port.crInfo = .live (some fcr))
    (hOp : port.mem.space.load base OP_SIZE = some op)
    (h : cryptoCreateSession K (hostSpace base) fcr (port.mem.read base (.buf 0) OP_SIZE).2
      (sessionOp L op) = (fcr', m, res)) :
    ioctlGsession (cryptodev K) L port base =
      ({ port with mem := m, crInfo := .live (some fcr'.tick) }, some res) := by
  have hRead : port.mem.read base (.buf 0) OP_SIZE =
      (some op, (port.mem.read base (.buf 0) OP_SIZE).2) := congrArg (·, _) hOp
  unfold ioctlGsession
  rw [hRead]
  simp only [hInfo, cryptodev, h]

/-- A new session: the device adds it, and the response is the message with its
number. -/
theorem serve_gsession (hConn : Connected port) (hInfo : port.crInfo = .live (some fcr))
    (hLoad : port.mem.space.load base L.sizeof = some d)
    (hWord : u32 d L.cmdOff = Cmd.CIOCGSESSION.word) (hMac : u32 (slice d 0 OP_SIZE) 4 = 0)
    (hOk : outcome (cryptodev K) L (cmdRead L port base) base .CIOCGSESSION = some (.ok ())) :
    ∃ m₁ fcr' m out st,
      m₁.space = port.mem.space ∧
      cryptoCreateSession K (hostSpace base) fcr m₁ (sessionOp L (slice d 0 OP_SIZE)) =
        (fcr', m, .ok out) ∧
      Served K L port base fcr'.tick (patch d SES_OFF (toLE 4 out.ses)) st := by
  have hBounds := L.cmdOff_bounds
  rw [L.ivpOff_eq] at hBounds
  have hCase := flushBuf_eq_flushCase (cryptodev K) L hConn.chr L.sizeof hLoad L.cmdOff_bounds.2
    (by rw [hWord]; exact Cmd.ofWord_word _)
  have hOp : (cmdRead L port base).mem.space.load base OP_SIZE = some (slice d 0 OP_SIZE) :=
    load_op hLoad
  obtain ⟨fcr', m, res, hCreate⟩ : ∃ fcr' m res, cryptoCreateSession K (hostSpace base) fcr
      ((cmdRead L port base).mem.read base (.buf 0) OP_SIZE).2 (sessionOp L (slice d 0 OP_SIZE)) =
        (fcr', m, res) := ⟨_, _, _, rfl⟩
  have hIoctl := ioctlGsession_live (cmdRead L port base) hInfo hOp hCreate
  have hSpace : m.space = port.mem.space := by
    have hReads := cryptoCreateSession_reads (K := K) (U := hostSpace base) HostMem.space
      (show (sessionOp L (slice d 0 OP_SIZE)).mac = 0 from hMac) (fun _ _ _ => rfl) fcr
      ((cmdRead L port base).mem.read base (.buf 0) OP_SIZE).2
    rw [hCreate] at hReads
    exact hReads
  unfold outcome at hOk
  rw [hIoctl] at hOk
  cases res with
  | error e => simp [Except.map] at hOk
  | ok out =>
    have hMapped : (m.space.load base L.sizeof).isSome := by rw [hSpace, hLoad]; rfl
    have hFit : SES_OFF + (toLE 4 out.ses).length ≤ L.sizeof := by
      rw [length_toLE]
      unfold SES_OFF
      omega
    have hCall : flushBuf (cryptodev K) L port base L.sizeof =
        respond L { port with mem := ⟨m.space.put (base + SES_OFF) (toLE 4 out.ses),
          m.log ++ [⟨.buf SES_OFF, (toLE 4 out.ses).length⟩]⟩, crInfo := .live (some fcr'.tick) }
          base (u32 d L.cmdOff) := by
      rw [hCase]
      unfold flushCase flushGsession
      rw [hIoctl]
      simp only
      rw [write_in_message hMapped hFit]
      rfl
    have hLoad' : (m.space.put (base + SES_OFF) (toLE 4 out.ses)).load base L.sizeof =
        some (patch d SES_OFF (toLE 4 out.ses)) := by
      rw [hSpace]
      exact Space.load_put_inside hLoad hFit
    obtain ⟨st, hServed⟩ := served_of_respond hConn hCall
      ⟨rfl, rfl, rfl, rfl, rfl, rfl, fun _ => ⟨_, rfl⟩⟩ rfl hLoad'
    exact ⟨((cmdRead L port base).mem.read base (.buf 0) OP_SIZE).2, fcr', m, out, st, rfl, hCreate,
      hServed⟩

-- ---------------------------------------------------------------------------
-- CIOCCRYPT
-- ---------------------------------------------------------------------------

/-- A read inside a message leaves the message in place. -/
theorem read_message {m : HostMem} {n off k : Nat} (hLoad : m.space.load base n = some d)
    (hFit : off + k ≤ n) :
    ∃ m', (hostSpace base).copyFromUser m (.buf off) k = (some (slice d off k), m') ∧
      m'.space.load base n = some d :=
  ⟨_, congrArg (·, _) (Space.load_slice hLoad hFit), hLoad⟩

/-- The operation of a `CIOCCRYPT` message, on a session without a hash: its
result is put into the message. -/
theorem cryptoCrypt_message {op : Bytes} {ses : CSession} {m : HostMem}
    (hLoad : m.space.load base L.sizeof = some d)
    (hSes : fcr.getSessionBySid (u32 op 0) = some ses) (hHash : ses.hdata = none)
    (hFlags : u16 op 6 = 0) (hLen : u32 op 8 ≤ L.dataMax) (hIvsize : ses.ivsize ≤ L.blockMax)
    {ses' : CSession} {res : Except Errno Bytes}
    (hEff : cryptEffect K fcr.clock ses (cryptOp L op) (slice d L.ivpOff ses.ivsize)
      (slice d L.srcpOff (u32 op 8)) (slice d L.dstpOff (u32 op 8)) = (ses', res)) :
    ∃ m', cryptoCrypt K (hostSpace base) fcr m (cryptOp L op) =
        (fcr.putSession ses', m', res.map fun _ => ()) ∧
      ∀ out, res = .ok out → m'.space.load base L.sizeof = some (patch d L.dstpOff out) := by
  have hBounds := L.cmdOff_bounds
  have hIvOff := L.ivpOff_eq
  have hd := Space.length_of_load hLoad
  have hSrcFit : L.srcpOff + u32 op 8 ≤ L.sizeof := by
    rw [L.srcpOff_eq]
    omega
  have hDstFit : L.dstpOff + u32 op 8 ≤ L.sizeof := by
    rw [L.dstpOff_eq]
    omega
  obtain ⟨m₁, hIv, hm₁⟩ := read_message hLoad (show L.ivpOff + ses.ivsize ≤ _ by omega)
  obtain ⟨m₂, hSrc, hm₂⟩ := read_message hm₁ hSrcFit
  obtain ⟨m₃, hDst, hm₃⟩ := read_message hm₂ hDstFit
  have hFlags' : (cryptOp L op).flags = 0 := hFlags
  have hSes' : fcr.getSessionBySid (cryptOp L op).ses = some ses := hSes
  have hRun := cryptoCrypt_eq (K := K) (U := hostSpace base) hSes' hHash hFlags' hIv
    (fun _ => hSrc) (fun _ => hDst)
  rw [hEff] at hRun
  cases res with
  | error e => exact ⟨_, hRun, fun out h => by simp at h⟩
  | ok out =>
    refine ⟨_, hRun, ?_⟩
    intro out' hOut
    obtain rfl : out = out' := by simpa using hOut
    have hOutLen : out.length = u32 op 8 := by
      refine length_of_cryptEffect ?_ ?_ hEff
      · exact length_slice (by omega)
      · exact length_slice (by omega)
    have hFit : L.dstpOff + out.length ≤ L.sizeof := by omega
    rw [show (cryptOp L op).len = u32 op 8 from rfl]
    by_cases hPos : 0 < u32 op 8
    · rw [if_pos hPos]
      show (m₃.write base (.buf L.dstpOff) out).2.space.load base L.sizeof = _
      rw [write_in_message (Option.isSome_iff_exists.mpr ⟨d, hm₃⟩) hFit]
      exact Space.load_put_inside hm₃ hFit
    · have hNil : out = [] := List.length_eq_zero_iff.mp (by omega)
      rw [if_neg hPos, hNil, hm₁]
      simp [patch]

theorem ioctlCrypt_live (port : Port Fcrypt) {op x : Bytes} {fcr' : Fcrypt} {m : HostMem}
    {res : Except Errno Unit} (hInfo : port.crInfo = .live (some fcr))
    (hOp : port.mem.space.load base OP_SIZE = some op)
    (hDst : port.mem.space.load (base + L.dstpOff) 1 = some x)
    (h : cryptoCrypt K (hostSpace base) fcr
      ((port.mem.read base (.buf 0) OP_SIZE).2.read base (.buf L.dstpOff) 1).2 (cryptOp L op) =
        (fcr', m, res)) :
    ioctlCrypt (cryptodev K) L port base =
      ({ port with mem := m, crInfo := .live (some fcr'.tick) },
        some (res.map fun _ => cryptOp L op)) := by
  have hRead : port.mem.read base (.buf 0) OP_SIZE =
      (some op, (port.mem.read base (.buf 0) OP_SIZE).2) := congrArg (·, _) hOp
  have hRead' : (port.mem.read base (.buf 0) OP_SIZE).2.read base (.buf L.dstpOff) 1 =
      (some x, ((port.mem.read base (.buf 0) OP_SIZE).2.read base (.buf L.dstpOff) 1).2) :=
    congrArg (·, _) hDst
  unfold ioctlCrypt
  rw [hRead]
  simp only
  rw [hRead']
  simp only [hInfo, cryptodev, h]

/-- An operation: the response is the message with the result in it. -/
theorem serve_crypt (hConn : Connected port) (hInfo : port.crInfo = .live (some fcr))
    (hLoad : port.mem.space.load base L.sizeof = some d)
    (hWord : u32 d L.cmdOff = Cmd.CIOCCRYPT.word) {op : Bytes} (hOp : slice d 0 OP_SIZE = op)
    (hTable : ∀ ses, fcr.getSessionBySid (u32 op 0) = some ses →
      ses.hdata = none ∧ ses.ivsize ≤ L.blockMax)
    (hFlags : u16 op 6 = 0) (hLen : u32 op 8 ≤ L.dataMax)
    (hOk : outcome (cryptodev K) L (cmdRead L port base) base .CIOCCRYPT = some (.ok ())) :
    ∃ ses ses' out st, fcr.getSessionBySid (u32 op 0) = some ses ∧
      cryptEffect K fcr.clock ses (cryptOp L op) (slice d L.ivpOff ses.ivsize)
        (slice d L.srcpOff (u32 op 8)) (slice d L.dstpOff (u32 op 8)) = (ses', .ok out) ∧
      Served K L port base (fcr.putSession ses').tick (patch d L.dstpOff out) st := by
  have hBounds := L.cmdOff_bounds
  have hPos := L.dataMax_pos
  rw [L.ivpOff_eq] at hBounds
  have hCase := flushBuf_eq_flushCase (cryptodev K) L hConn.chr L.sizeof hLoad L.cmdOff_bounds.2
    (by rw [hWord]; exact Cmd.ofWord_word _)
  have hHead : (cmdRead L port base).mem.space.load base OP_SIZE = some op := by
    rw [← hOp]
    exact load_op hLoad
  have hPeek : (cmdRead L port base).mem.space.load (base + L.dstpOff) 1 =
      some (slice d L.dstpOff 1) := Space.load_slice hLoad (by rw [L.dstpOff_eq]; omega)
  cases hSes : fcr.getSessionBySid (u32 op 0) with
  | none =>
    -- the ioctl would have failed
    have hFail : ∀ m, cryptoCrypt K (hostSpace base) fcr m (cryptOp L op) =
        (fcr, m, .error .EINVAL) := by
      intro m
      unfold cryptoCrypt
      rw [show (cryptOp L op).ses = u32 op 0 from rfl, hSes]
    have hIoctl := ioctlCrypt_live (cmdRead L port base) hInfo hHead hPeek (hFail _)
    unfold outcome at hOk
    rw [hIoctl] at hOk
    simp [Except.map] at hOk
  | some ses =>
    obtain ⟨hHash, hIvsize⟩ := hTable ses hSes
    obtain ⟨ses', res, hEff⟩ : ∃ ses' res, cryptEffect K fcr.clock ses (cryptOp L op)
        (slice d L.ivpOff ses.ivsize) (slice d L.srcpOff (u32 op 8))
        (slice d L.dstpOff (u32 op 8)) = (ses', res) := ⟨_, _, rfl⟩
    obtain ⟨m, hRun, hMem⟩ := cryptoCrypt_message (m := (((cmdRead L port base).mem.read base
      (.buf 0) OP_SIZE).2.read base (.buf L.dstpOff) 1).2) hLoad hSes hHash hFlags hLen hIvsize hEff
    have hIoctl := ioctlCrypt_live (cmdRead L port base) hInfo hHead hPeek hRun
    unfold outcome at hOk
    rw [hIoctl] at hOk
    cases res with
    | error e => simp [Except.map] at hOk
    | ok out =>
      have hCall : flushBuf (cryptodev K) L port base L.sizeof =
          respond L { port with
            mem := { m with log := m.log ++ [⟨.buf L.dstpOff, (cryptOp L op).len⟩] },
            crInfo := .live (some (fcr.putSession ses').tick) } base (u32 d L.cmdOff) := by
        rw [hCase]
        unfold flushCase flushCrypt
        rw [hIoctl]
        rfl
      obtain ⟨st, hServed⟩ := served_of_respond hConn hCall
        ⟨rfl, rfl, rfl, rfl, rfl, rfl, fun _ => ⟨_, rfl⟩⟩ rfl (hMem out rfl)
      exact ⟨ses, ses', out, st, rfl, hEff, hServed⟩

-- ---------------------------------------------------------------------------
-- CIOCFSESSION
-- ---------------------------------------------------------------------------

/-- The end of a session: the response is the message as it came. -/
theorem serve_fsession (hConn : Connected port) (hInfo : port.crInfo = .live (some fcr))
    (hLoad : port.mem.space.load base L.sizeof = some d)
    (hWord : u32 d L.cmdOff = Cmd.CIOCFSESSION.word) :
    ∃ st, Served K L port base (cryptoFinishSession fcr (ofLE (slice d 0 4))).tick d st := by
  have hBounds := L.cmdOff_bounds
  have hd := Space.length_of_load hLoad
  have hCase := flushBuf_eq_flushCase (cryptodev K) L hConn.chr L.sizeof hLoad L.cmdOff_bounds.2
    (by rw [hWord]; exact Cmd.ofWord_word _)
  have hSid : port.mem.space.load base 4 = some (slice d 0 4) :=
    Space.load_prefix hLoad (by omega)
  have hRead : (cmdRead L port base).mem.read base (.buf 0) 4 =
      (some (slice d 0 4), ((cmdRead L port base).mem.read base (.buf 0) 4).2) :=
    congrArg (·, _) hSid
  have hFit : 0 + (slice d 0 4).length ≤ L.sizeof := by
    rw [length_slice (by omega)]
    omega
  have hMapped : ((((cmdRead L port base).mem.read base (.buf 0) 4).2).space.load base
      L.sizeof).isSome := Option.isSome_iff_exists.mpr ⟨d, hLoad⟩
  have hCall : flushBuf (cryptodev K) L port base L.sizeof =
      respond L { port with
        mem := ⟨port.mem.space.put (base + 0) (slice d 0 4),
          ((cmdRead L port base).mem.read base (.buf 0) 4).2.log ++
            [⟨.buf 0, (slice d 0 4).length⟩]⟩,
        crInfo := .live (some (cryptoFinishSession fcr (ofLE (slice d 0 4))).tick) }
          base (u32 d L.cmdOff) := by
    rw [hCase]
    unfold flushCase flushFsession ioctlFsession
    rw [hRead]
    simp only [show (cmdRead L port base).crInfo = .live (some fcr) from hInfo, cryptodev, Except.map]
    rw [write_in_message hMapped hFit]
    rfl
  -- the number is written back to where it was read
  have hLoad' : (port.mem.space.put (base + 0) (slice d 0 4)).load base L.sizeof = some d := by
    rw [Nat.add_zero, Space.put_of_load hSid]
    exact hLoad
  exact served_of_respond hConn hCall ⟨rfl, rfl, rfl, rfl, rfl, rfl, fun _ => ⟨_, rfl⟩⟩ rfl hLoad'

end VirtioCrypto.Host
