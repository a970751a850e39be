import VirtioCrypto.Host.Isolation
import VirtioCrypto.Cryptodev.Local

/-!
# Host — a confined request depends on its message

A call of `flush_buf` that touches nothing outside the buffer it was given
(`Isolated`) has the same effect on the port in every memory that holds the same
message, and leaves every other byte of the memory as it was.

* `hostSpace_local` — what the kernel reads and writes inside the buffer;
* `flushBuf_local` — one call of `flush_buf`;
* `flushLoop_local` — a notification with any number of requests in the queue.
-/

namespace VirtioCrypto.Host

open Octets Cryptodev

/-- Two memories during a call on the buffer of `len` bytes at `base`, which began
with `m₀` and `m₀'`: they are alike on `S`, and outside the buffer as they were. -/
structure Abreast (S : Nat → Prop) (base len : Nat) (m₀ m₀' m m' : HostMem) : Prop where
  alike : ∀ x, S x → m.space x = m'.space x
  left : ∀ x, x < base ∨ base + len ≤ x → m.space x = m₀.space x
  right : ∀ x, x < base ∨ base + len ≤ x → m'.space x = m₀'.space x

variable {S : Nat → Prop} {base len : Nat} {m₀ m₀' m m' : HostMem}

theorem Abreast.withLog (h : Abreast S base len m₀ m₀' m m') (log log' : List Access) :
    Abreast S base len m₀ m₀' { m with log := log } { m' with log := log' } :=
  ⟨h.alike, h.left, h.right⟩

/-- A range inside the buffer loads alike. -/
theorem Abreast.load (h : Abreast S base len m₀ m₀' m m') (hS : ∀ i < len, S (base + i))
    {p : HostPtr} {n : Nat} (hIn : (⟨p, n⟩ : Access).Inside len) :
    m.space.load (p.resolve base) n = m'.space.load (p.resolve base) n := by
  rcases hIn with hZero | ⟨off, rfl, hFit⟩
  · obtain rfl : n = 0 := hZero
    rfl
  · refine Space.load_congr fun i hi => h.alike _ ?_
    rw [show (HostPtr.buf off).resolve base + i = base + (off + i) from Nat.add_assoc _ _ _]
    have hi' : i < n := hi
    have hFit' : off + n ≤ len := hFit
    exact hS _ (by omega)

/-- The same bytes put inside the buffer. -/
theorem Abreast.put (h : Abreast S base len m₀ m₀' m m') {p : HostPtr} {bs : Bytes}
    (hIn : (⟨p, bs.length⟩ : Access).Inside len) (log log' : List Access) :
    Abreast S base len m₀ m₀' ⟨m.space.put (p.resolve base) bs, log⟩
      ⟨m'.space.put (p.resolve base) bs, log'⟩ := by
  have hOut : ∀ x, x < base ∨ base + len ≤ x →
      x < p.resolve base ∨ p.resolve base + bs.length ≤ x := by
    intro x hx
    rcases hIn with hZero | ⟨off, rfl, hFit⟩
    · have hZero' : bs.length = 0 := hZero
      omega
    · have hFit' : off + bs.length ≤ len := hFit
      simp only [HostPtr.resolve]
      omega
  refine ⟨?_, ?_, ?_⟩
  · intro x hx
    simp only [Space.put, h.alike x hx]
  · intro x hx
    exact (Space.put_apply_of_disjoint (hOut x hx)).trans (h.left x hx)
  · intro x hx
    exact (Space.put_apply_of_disjoint (hOut x hx)).trans (h.right x hx)

/-- Inside the buffer the kernel cannot tell the two memories apart. -/
theorem hostSpace_local (hS : ∀ i < len, S (base + i)) (m₀ m₀' : HostMem) :
    Local (hostSpace base) (Abreast S base len m₀ m₀') (fun p n => (⟨p, n⟩ : Access).Inside len) where
  read := by
    intro m m' p n hIn h
    simp only [hostSpace, HostMem.read, h.load hS hIn]
    exact .mk _ (h.withLog _ _)
  write := by
    intro m m' p bs hIn h
    simp only [hostSpace, HostMem.write, Space.store, h.load hS hIn]
    rcases m'.space.load (p.resolve base) bs.length with _ | _
    · exact .mk _ (h.withLog _ _)
    · exact .mk _ (h.put hIn _ _)

-- ---------------------------------------------------------------------------
-- The stages of flush_buf
-- ---------------------------------------------------------------------------

/-- The same result on the same port, in memories that are abreast. -/
inductive SameCall {σ α : Type} (R : HostMem → HostMem → Prop) : Port σ × α → Port σ × α → Prop
  | mk (port : Port σ) {mem' : HostMem} (a : α) (h : R port.mem mem') :
    SameCall R (port, a) ({ port with mem := mem' }, a)

variable {K : Kernel} {L : Layout} {buf w : Nat}

/-- The loop of `write_to_port` fills the same buffers. -/
theorem writeLoop_local (hS : ∀ i < len, S (base + i)) (size : Nat) (avail : List Nat) (off : Nat)
    (h : Abreast S base len m₀ m₀' m m')
    (hFit : min (size - off) avail.sum = 0 ∨ off + min (size - off) avail.sum ≤ len) :
    ∃ m₁ m₁' used rest ok, writeLoop base size avail off m = ⟨m₁, used, rest, ok⟩ ∧
      writeLoop base size avail off m' = ⟨m₁', used, rest, ok⟩ ∧
      Abreast S base len m₀ m₀' m₁ m₁' := by
  induction avail generalizing off m m' with
  | nil => exact ⟨m, m', [], [], true, rfl, rfl, h⟩
  | cons sz avail ih =>
    rw [List.sum_cons] at hFit
    unfold writeLoop
    by_cases hDone : size ≤ off
    · rw [if_pos hDone, if_pos hDone]
      exact ⟨m, m', [], sz :: avail, true, rfl, rfl, h⟩
    rw [if_neg hDone, if_neg hDone]
    have hIn : (⟨.buf off, min sz (size - off)⟩ : Access).Inside len := inside_buf_iff.mpr (by omega)
    simp only [HostMem.read, h.load hS hIn]
    rcases hLoad : m'.space.load ((HostPtr.buf off).resolve base) (min sz (size - off)) with _ | data
    · exact ⟨_, _, [], avail, false, rfl, rfl, h.withLog _ _⟩
    · have hLen : data.length = min sz (size - off) := Space.length_of_load hLoad
      obtain ⟨m₁, m₁', used, rest, ok, hHere, hThere, h₁⟩ :=
        ih (off + data.length) (h.withLog _ _) (by omega)
      simp only
      rw [hHere, hThere]
      exact ⟨m₁, m₁', ⟨sz, data, 0⟩ :: used, rest, ok, rfl, rfl, h₁⟩

theorem respond_local {σ : Type} (hS : ∀ i < len, S (buf + i)) (q : Port σ)
    (h : Abreast S buf len m₀ m₀' q.mem m') (hFit : ResponseFits L len q) :
    SameCall (Abreast S buf len m₀ m₀') (respond L q buf w)
      (respond L { q with mem := m' } buf w) := by
  unfold respond virtioSerialWrite
  by_cases hConn : (q.hostConnected && q.guestConnected) = true
  swap
  · simp only [hConn]
    exact .mk _ _ h
  by_cases hReady : q.ivq.ready = true
  swap
  · simp only [hConn, hReady]
    exact .mk _ _ h
  have hSize := hFit (Bool.and_eq_true_iff.mp hConn).1 (Bool.and_eq_true_iff.mp hConn).2 hReady
  obtain ⟨m₁, m₁', used, rest, ok, hHere, hThere, h₁⟩ :=
    writeLoop_local hS L.sizeof q.ivq.avail 0 h
      (Or.inr (by simpa [InVq.room] using hSize))
  simp only [hConn, hReady, if_true, hHere, hThere]
  rcases ok with _ | _
  · exact .mk { q with mem := m₁, ivq := ⟨true, rest, q.ivq.used ++ used⟩ } _ h₁
  · exact .mk { q with mem := m₁, ivq := ⟨true, rest, q.ivq.used ++ used⟩,
                       calls := q.calls ++ [(w, 0)] } _ h₁

section Ioctl

variable {port : Port Fcrypt} {data : Bytes} {mem' : HostMem}

/-- Reading a part of the buffer that holds `data`. -/
theorem read_abreast (hS : ∀ i < len, S (buf + i)) (h : Abreast S buf len m₀ m₀' m m')
    (hLoad : m.space.load buf len = some data) {off n : Nat} (hFit : off + n ≤ len) :
    ∃ m₁ m₁', m.read buf (.buf off) n = (some (slice data off n), m₁) ∧
      m'.read buf (.buf off) n = (some (slice data off n), m₁') ∧ m₁.space = m.space ∧
      Abreast S buf len m₀ m₀' m₁ m₁' := by
  have hHere : m.space.load (buf + off) n = some (slice data off n) := Space.load_slice hLoad hFit
  have hThere : m'.space.load (buf + off) n = some (slice data off n) := by
    rw [← hHere]
    exact (h.load hS (inside_buf_iff.mpr (Or.inr hFit))).symm
  exact ⟨_, _, congrArg (·, _) hHere, congrArg (·, _) hThere, rfl, h.withLog _ _⟩

theorem ioctlGsession_local (hS : ∀ i < len, S (buf + i)) (hCmd : L.cmdOff + 4 ≤ len)
    (hLoad : port.mem.space.load buf len = some data)
    (hMac : ∀ fd, port.crInfo = .live (some fd) →
      ReadsMackey K (hostSpace buf) fd port.mem (sessionOp L (slice data 0 OP_SIZE)) →
        (sessionOp L (slice data 0 OP_SIZE)).mackeylen = 0)
    (h : Abreast S buf len m₀ m₀' port.mem mem') :
    SameCall (Abreast S buf len m₀ m₀') (ioctlGsession (cryptodev K) L port buf)
      (ioctlGsession (cryptodev K) L { port with mem := mem' } buf) := by
  have hBounds := L.cmdOff_bounds
  rw [L.ivpOff_eq] at hBounds
  obtain ⟨m₁, m₁', hRead, hRead', hSpace, h₁⟩ :=
    read_abreast hS h hLoad (show 0 + OP_SIZE ≤ len by unfold OP_SIZE; omega)
  unfold ioctlGsession
  simp only [hRead, hRead']
  rcases hInfo : port.crInfo with _ | _ | (_ | fd)
  · exact .mk { port with mem := m₁, crInfo := .null } _ h₁
  · exact .mk { port with mem := m₁, crInfo := .freed } _ h₁
  · exact .mk { port with mem := m₁, crInfo := .live none } _ h₁
  simp only [cryptodev]
  have hCreate : SameResult (Abreast S buf len m₀ m₀')
      (cryptoCreateSession K (hostSpace buf) fd m₁ (sessionOp L (slice data 0 OP_SIZE)))
      (cryptoCreateSession K (hostSpace buf) fd m₁' (sessionOp L (slice data 0 OP_SIZE))) := by
    refine cryptoCreateSession_local (hostSpace_local hS m₀ m₀') (fun hLen => ?_) (fun hReads => ?_) h₁
    · unfold CRYPTO_CIPHER_MAX_KEY_LEN at hLen
      exact inside_buf_iff.mpr (Or.inr (by rw [L.keypOff_eq]; omega))
    · exact inside_guest_iff.mpr (hMac fd hInfo ((readsMackey_congr m₁ port.mem hSpace).mp hReads))
  generalize cryptoCreateSession K (hostSpace buf) fd m₁ _ = r at hCreate ⊢
  generalize cryptoCreateSession K (hostSpace buf) fd m₁' _ = r' at hCreate ⊢
  obtain @⟨m₂, m₂', fd', out, h₂⟩ := hCreate
  exact .mk { port with mem := m₂, crInfo := .live (some fd'.tick) } _ h₂

theorem ioctlCrypt_local (hS : ∀ i < len, S (buf + i)) (hCmd : L.cmdOff + 4 ≤ len)
    (hLoad : port.mem.space.load buf len = some data)
    (hFits : ∀ fd, port.crInfo = .live (some fd) →
      ∀ ses, fd.getSessionBySid (cryptOp L (slice data 0 OP_SIZE)).ses = some ses →
        CryptFits K L len fd (cryptOp L (slice data 0 OP_SIZE)) ses)
    (h : Abreast S buf len m₀ m₀' port.mem mem') :
    SameCall (Abreast S buf len m₀ m₀') (ioctlCrypt (cryptodev K) L port buf)
      (ioctlCrypt (cryptodev K) L { port with mem := mem' } buf) := by
  have hBounds := L.cmdOff_bounds
  have hPos := L.dataMax_pos
  rw [L.ivpOff_eq] at hBounds
  obtain ⟨m₁, m₁', hRead, hRead', hSpace, h₁⟩ :=
    read_abreast hS h hLoad (show 0 + OP_SIZE ≤ len by unfold OP_SIZE; omega)
  have hLoad₁ : m₁.space.load buf len = some data := by rw [hSpace, hLoad]
  obtain ⟨m₂, m₂', hPeek, hPeek', -, h₂⟩ :=
    read_abreast hS h₁ hLoad₁ (show L.dstpOff + 1 ≤ len by rw [L.dstpOff_eq]; omega)
  unfold ioctlCrypt
  simp only [hRead, hRead', hPeek, hPeek']
  rcases hInfo : port.crInfo with _ | _ | (_ | fd)
  · exact .mk { port with mem := m₂, crInfo := .null } _ h₂
  · exact .mk { port with mem := m₂, crInfo := .freed } _ h₂
  · exact .mk { port with mem := m₂, crInfo := .live none } _ h₂
  simp only [cryptodev]
  have hRun : SameResult (Abreast S buf len m₀ m₀')
      (cryptoCrypt K (hostSpace buf) fd m₂ (cryptOp L (slice data 0 OP_SIZE)))
      (cryptoCrypt K (hostSpace buf) fd m₂' (cryptOp L (slice data 0 OP_SIZE))) := by
    refine cryptoCrypt_local (hostSpace_local hS m₀ m₀') (fun ses hSes _ => ?_)
      (fun ses hSes hRuns hLen o k hok => ?_) (fun ses hSes hRuns hDue => ?_) h₂
    · exact inside_buf_iff.mpr (hFits fd hInfo ses hSes).iv
    · have hFit := (hFits fd hInfo ses hSes).data hRuns hLen
      have hOff : L.srcpOff ≤ L.dstpOff := by
        rw [L.srcpOff_eq, L.dstpOff_eq]
        omega
      exact ⟨inside_buf_iff.mpr (Or.inr (by omega)), inside_buf_iff.mpr (Or.inr (by omega))⟩
    · exact absurd hDue ((hFits fd hInfo ses hSes).mac hRuns)
  generalize cryptoCrypt K (hostSpace buf) fd m₂ _ = r at hRun ⊢
  generalize cryptoCrypt K (hostSpace buf) fd m₂' _ = r' at hRun ⊢
  obtain @⟨m₃, m₃', fd', out, h₃⟩ := hRun
  exact .mk { port with mem := m₃, crInfo := .live (some fd'.tick) } _ h₃

theorem ioctlFsession_local (hS : ∀ i < len, S (buf + i)) (hCmd : L.cmdOff + 4 ≤ len)
    (hLoad : port.mem.space.load buf len = some data)
    (h : Abreast S buf len m₀ m₀' port.mem mem') :
    SameCall (Abreast S buf len m₀ m₀') (ioctlFsession (cryptodev K) port buf)
      (ioctlFsession (cryptodev K) { port with mem := mem' } buf) := by
  obtain ⟨m₁, m₁', hRead, hRead', -, h₁⟩ := read_abreast hS h hLoad (show 0 + 4 ≤ len by omega)
  unfold ioctlFsession
  simp only [hRead, hRead']
  rcases port.crInfo with _ | _ | (_ | fd)
  · exact .mk { port with mem := m₁, crInfo := .null } _ h₁
  · exact .mk { port with mem := m₁, crInfo := .freed } _ h₁
  · exact .mk { port with mem := m₁, crInfo := .live none } _ h₁
  · exact .mk { port with mem := m₁, crInfo := .live (some _) } _ h₁

/-- A store into the buffer, and then the response. -/
theorem write_respond_local (hS : ∀ i < len, S (buf + i)) (q : Port Fcrypt) {off : Nat} {bs : Bytes}
    (hIn : off + bs.length ≤ len) (h : Abreast S buf len m₀ m₀' q.mem mem')
    (hFit : ResponseFits L len q) :
    let store : Port Fcrypt → Port Fcrypt × Except Fault Int := fun q =>
      match q.mem.write buf (.buf off) bs with
      | (false, mem) => segv { q with mem := mem }
      | (true, mem) => respond L { q with mem := mem } buf w
    SameCall (Abreast S buf len m₀ m₀') (store q) (store { q with mem := mem' }) := by
  simp only
  have hWrite : SameValue (Abreast S buf len m₀ m₀') (q.mem.write buf (.buf off) bs)
      (mem'.write buf (.buf off) bs) :=
    (hostSpace_local hS m₀ m₀').write (.buf off) bs (inside_buf_iff.mpr (Or.inr hIn)) h
  generalize q.mem.write buf (.buf off) bs = r at hWrite ⊢
  generalize mem'.write buf (.buf off) bs = r' at hWrite ⊢
  obtain @⟨m₁, m₁', ok, h₁⟩ := hWrite
  rcases ok with _ | _
  · exact .mk { q with mem := m₁ } _ h₁
  · exact respond_local hS { q with mem := m₁ } h₁ hFit

/-- The branch for a command. -/
theorem flushCase_local (hS : ∀ i < len, S (buf + i)) (hCmd : L.cmdOff + 4 ≤ len)
    (hLoad : port.mem.space.load buf len = some data) (c : Cmd)
    (hMac : c = .CIOCGSESSION → ∀ fd, port.crInfo = .live (some fd) →
      ReadsMackey K (hostSpace buf) fd port.mem (sessionOp L (slice data 0 OP_SIZE)) →
        (sessionOp L (slice data 0 OP_SIZE)).mackeylen = 0)
    (hFits : c = .CIOCCRYPT → ∀ fd, port.crInfo = .live (some fd) →
      ∀ ses, fd.getSessionBySid (cryptOp L (slice data 0 OP_SIZE)).ses = some ses →
        CryptFits K L len fd (cryptOp L (slice data 0 OP_SIZE)) ses)
    (hResp : outcome (cryptodev K) L port buf c = some (.ok ()) → ResponseFits L len port)
    (h : Abreast S buf len m₀ m₀' port.mem mem') :
    SameCall (Abreast S buf len m₀ m₀') (flushCase (cryptodev K) L port buf w c)
      (flushCase (cryptodev K) L { port with mem := mem' } buf w c) := by
  have hBounds := L.cmdOff_bounds
  rw [L.ivpOff_eq] at hBounds
  cases c with
  | CIOCGSESSION =>
    have hIoctl := ioctlGsession_local (K := K) hS hCmd hLoad (hMac rfl) h
    have hSide := (ioctlGsession_leaves (cryptodev K) L port buf).sameSide
    unfold outcome at hResp
    unfold flushCase flushGsession
    generalize ioctlGsession (cryptodev K) L port buf = r at hIoctl hSide hResp ⊢
    generalize ioctlGsession (cryptodev K) L { port with mem := mem' } buf = r' at hIoctl ⊢
    obtain ⟨q, out, h₁⟩ := hIoctl
    rcases out with _ | _ | sess
    · exact .mk q _ h₁
    · exact .mk { q with calls := q.calls ++ [(w, 1)] } _ h₁
    · refine write_respond_local hS q ?_ h₁ ((ResponseFits.congr hSide).mpr (hResp rfl))
      simp only [SES_OFF, length_toLE]
      omega
  | CIOCCRYPT =>
    have hIoctl := ioctlCrypt_local (K := K) hS hCmd hLoad (hFits rfl) h
    have hSide := (ioctlCrypt_leaves (cryptodev K) L port buf).sameSide
    unfold outcome at hResp
    unfold flushCase flushCrypt
    generalize ioctlCrypt (cryptodev K) L port buf = r at hIoctl hSide hResp ⊢
    generalize ioctlCrypt (cryptodev K) L { port with mem := mem' } buf = r' at hIoctl ⊢
    obtain ⟨q, out, h₁⟩ := hIoctl
    rcases out with _ | _ | crypt
    · exact .mk q _ h₁
    · exact .mk { q with calls := q.calls ++ [(w, 1)] } _ h₁
    · exact respond_local hS { q with mem := _ } (h₁.withLog _ _)
        ((ResponseFits.congr (hSide.withMem _)).mpr (hResp rfl))
  | CIOCFSESSION =>
    have hIoctl := ioctlFsession_local (K := K) hS hCmd hLoad h
    have hSide := (ioctlFsession_leaves (cryptodev K) port buf).sameSide
    have hSid := length_of_ioctlFsession (cryptodev K) port buf
    unfold outcome at hResp
    unfold flushCase flushFsession
    generalize ioctlFsession (cryptodev K) port buf = r at hIoctl hSide hResp hSid ⊢
    generalize ioctlFsession (cryptodev K) { port with mem := mem' } buf = r' at hIoctl ⊢
    obtain ⟨q, out, h₁⟩ := hIoctl
    rcases out with _ | _ | sid
    · exact .mk q _ h₁
    · exact .mk { q with calls := q.calls ++ [(w, 1)] } _ h₁
    · refine write_respond_local hS q ?_ h₁ ((ResponseFits.congr hSide).mpr (hResp rfl))
      rw [hSid sid rfl]
      omega

/-- **Locality of a request.** A call of `flush_buf` on an `Isolated` message does
the same to the port in any other memory that holds the message, and changes neither
memory outside it. -/
theorem flushBuf_local (hS : ∀ i < len, S (buf + i)) (hChr : port.chr = true)
    (hLoad : port.mem.space.load buf len = some data) (hIso : Isolated K L port buf len data)
    {c : Cmd} (hWord : Cmd.ofWord (u32 data L.cmdOff) = some c)
    (hAlike : ∀ x, S x → port.mem.space x = mem'.space x) :
    SameCall (Abreast S buf len port.mem mem') (flushBuf (cryptodev K) L port buf len)
      (flushBuf (cryptodev K) L { port with mem := mem' } buf len) := by
  have h : Abreast S buf len port.mem mem' port.mem mem' := ⟨hAlike, fun _ _ => rfl, fun _ _ => rfl⟩
  have hLoad' : mem'.space.load buf len = some data := by
    rw [← hLoad]
    exact (Space.load_congr fun i hi => hAlike _ (hS i hi)).symm
  have hChr' : ({ port with mem := mem' } : Port Fcrypt).chr = true := hChr
  have hCase' : flushBuf (cryptodev K) L { port with mem := mem' } buf len =
      flushCase (cryptodev K) L (cmdRead L { port with mem := mem' } buf) buf (u32 data L.cmdOff) c :=
    flushBuf_eq_flushCase _ L hChr' len hLoad' hIso.cmd hWord
  rw [flushBuf_eq_flushCase (cryptodev K) L hChr len hLoad hIso.cmd hWord, hCase']
  -- reading the command word changes the logs only
  have hLoad₁ : (cmdRead L port buf).mem.space.load buf len = some data := hLoad
  have h₁ : Abreast S buf len port.mem mem' (cmdRead L port buf).mem
      (mem'.read buf (.buf L.cmdOff) 4).2 := h.withLog _ _
  refine flushCase_local hS hIso.cmd hLoad₁ c ?_ ?_ ?_ h₁
  · rintro rfl fd hInfo hReads
    exact hIso.mackey hWord fd hInfo ((readsMackey_congr (cmdRead L port buf).mem port.mem rfl).mp hReads)
  · rintro rfl
    exact hIso.crypt hWord
  · exact hIso.response c hWord

end Ioctl

-- ---------------------------------------------------------------------------
-- A notification
-- ---------------------------------------------------------------------------

/-- The element a driver queues for the message at `base`. -/
def requestElem (L : Layout) (base : Nat) : Elem := ⟨base, [(base, L.sizeof)]⟩

/-- There is a message for one of the three commands at `base`. -/
def IsMessage (L : Layout) (space : Space) (base : Nat) : Prop :=
  ∃ data c, space.load base L.sizeof = some data ∧ Cmd.ofWord (u32 data L.cmdOff) = some c

instance (L : Layout) (space : Space) (base : Nat) : Decidable (IsMessage L space base) :=
  match hLoad : space.load base L.sizeof with
  | none => isFalse fun ⟨_, _, h, _⟩ => absurd (hLoad.symm.trans h) (by simp)
  | some data =>
    decidable_of_iff (Cmd.ofWord (u32 data L.cmdOff)).isSome (by
      rw [Option.isSome_iff_exists]
      exact ⟨fun ⟨c, hc⟩ => ⟨data, c, hLoad, hc⟩,
        fun ⟨_, c, h, hc⟩ => ⟨c, Option.some.inj (hLoad.symm.trans h) ▸ hc⟩⟩)

/-- Every one of the next `n` requests of the queue is `Isolated` when its turn
comes. -/
def ConfinedTurns (K : Kernel) (L : Layout) : Nat → Flush (Port Fcrypt) → Prop
  | 0, _ => True
  | n + 1, p =>
    (∀ base rest data, p.ovq.avail = requestElem L base :: rest →
      p.st.mem.space.load base L.sizeof = some data →
      Isolated K L p.st base L.sizeof data) ∧
    ConfinedTurns K L n (turn (cryptodev K) L p)

theorem IsMessage.congr {space space' : Space} {b : Nat} (h : IsMessage L space b)
    (hSame : ∀ i < L.sizeof, space' (b + i) = space (b + i)) : IsMessage L space' b := by
  obtain ⟨data, c, hLoad, hCmd⟩ := h
  exact ⟨data, c, (Space.load_congr hSame).trans hLoad, hCmd⟩

/-- A request on a connected port is handled, whatever comes of its ioctl: it stops
nothing. -/
theorem flushBuf_returns {port : Port Fcrypt} (hConn : Connected port) {b : Nat}
    (hMsg : IsMessage L port.mem.space b) :
    ∃ st r, flushBuf (cryptodev K) L port b L.sizeof = (st, .ok r) ∧ (0 ≤ r ∧ r ≤ 1) ∧
      Connected st := by
  obtain ⟨data, c, hLoad, hCmd⟩ := hMsg
  have hConn' : Connected (cmdRead L port b) :=
    hConn.of_sameSide ((SameSide.refl port).withMem _)
  have hMapped : ((cmdRead L port b).mem.space.load b L.sizeof).isSome :=
    Option.isSome_iff_exists.mpr ⟨data, hLoad⟩
  have hSome : (outcome (cryptodev K) L (cmdRead L port b) b c).isSome :=
    outcome_isSome hConn'.crInfo hMapped c
  obtain ⟨out, hOut⟩ := Option.isSome_iff_exists.mp hSome
  cases out with
  | error e =>
    obtain ⟨q, hSide, hCase⟩ := flushCase_error (w := u32 data L.cmdOff) hOut
    rw [flushBuf_eq_flushCase (cryptodev K) L hConn.chr L.sizeof hLoad L.cmdOff_bounds.2 hCmd, hCase]
    have hq := hConn'.of_sameSide hSide
    exact ⟨_, 1, rfl, by decide, hq.withIvq q.ivq hq.ready _⟩
  | ok _ =>
    obtain ⟨st, bs, hCall, hSt, -, -⟩ :=
      flushBuf_answers (cryptodev_keepsMapped K) hConn hLoad hCmd hOut
    exact ⟨st, 0, hCall, by decide, hSt⟩

/-- What a notification leaves: everything consumed. -/
structure Consumed (p q : Flush (Port Fcrypt)) : Prop where
  connected : Connected q.st
  idle : q.outNum = 0
  avail : q.ovq.avail = []
  ready : q.ovq.ready = p.ovq.ready

/-- `p` with another memory. -/
def Flush.withMem (p : Flush (Port Fcrypt)) (mem : HostMem) : Flush (Port Fcrypt) :=
  { p with st := { p.st with mem := mem } }

/-- One turn, on the request at the head of the queue, in two memories. -/
theorem turn_local {p : Flush (Port Fcrypt)} {mem' : HostMem} {b : Nat} {rest : List Elem}
    (hConn : Connected p.st) (hIdle : p.outNum = 0) (hAvail : p.ovq.avail = requestElem L b :: rest)
    (hMsg : IsMessage L p.st.mem.space b)
    (hIso : ∀ data, p.st.mem.space.load b L.sizeof = some data →
      Isolated K L p.st b L.sizeof data)
    (hS : ∀ i < L.sizeof, S (b + i)) (hAlike : ∀ x, S x → p.st.mem.space x = mem'.space x) :
    ∃ q mem'', flushLoop (flushBuf (cryptodev K) L) Port.throttled 1 p = (q, none) ∧
      flushLoop (flushBuf (cryptodev K) L) Port.throttled 1 (p.withMem mem') =
        (q.withMem mem'', none) ∧
      Connected q.st ∧ q.outNum = 0 ∧ q.ovq.avail = rest ∧ q.ovq.ready = p.ovq.ready ∧
      Abreast S b L.sizeof p.st.mem mem' q.st.mem mem'' := by
  obtain ⟨st, r, hCall, hr, hSt⟩ := flushBuf_returns (K := K) hConn hMsg
  obtain ⟨data, c, hLoad, hCmd⟩ := hMsg
  have hSame := flushBuf_local hS hConn.chr hLoad (hIso data hLoad) hCmd hAlike
  rw [hCall] at hSame
  generalize hCall' : flushBuf (cryptodev K) L { p.st with mem := mem' } b L.sizeof = r' at hSame
  obtain @⟨_, mem'', _, hMem⟩ := hSame
  refine ⟨_, mem'', flushLoop_request hIdle hAvail rfl hConn.unthrottled hCall hr hSt.unthrottled,
    ?_, hSt, rfl, rfl, rfl, hMem⟩
  have hIdle' : (p.withMem mem').outNum = 0 := hIdle
  exact flushLoop_request hIdle' hAvail rfl hConn.unthrottled hCall' hr hSt.unthrottled

/-- **Locality of a notification.** With `Isolated` requests in the queue, all of
them are consumed, with the same effect in both memories, and no byte outside the
messages changes in either. -/
theorem flushLoop_local (bases : List Nat) {p : Flush (Port Fcrypt)} {mem' : HostMem} {fuel : Nat}
    (hConn : Connected p.st) (hIdle : p.outNum = 0)
    (hAvail : p.ovq.avail = bases.map (requestElem L)) (hFuel : bases.length < fuel)
    (hDisjoint : bases.Pairwise fun a b => Space.Disjoint a L.sizeof b L.sizeof)
    (hMsgs : ∀ b ∈ bases, IsMessage L p.st.mem.space b)
    (hIso : ConfinedTurns K L bases.length p)
    (hS : ∀ b ∈ bases, ∀ i < L.sizeof, S (b + i))
    (hAlike : ∀ x, S x → p.st.mem.space x = mem'.space x) :
    ∃ q mem'', flushLoop (flushBuf (cryptodev K) L) Port.throttled fuel p = (q, none) ∧
      flushLoop (flushBuf (cryptodev K) L) Port.throttled fuel (p.withMem mem') =
        (q.withMem mem'', none) ∧
      Consumed p q ∧ (∀ x, S x → q.st.mem.space x = mem''.space x) ∧
      ∀ x, (∀ b ∈ bases, x < b ∨ b + L.sizeof ≤ x) →
        q.st.mem.space x = p.st.mem.space x ∧ mem''.space x = mem'.space x := by
  -- one turn for each request; the messages still to come are outside of it
  induction bases generalizing p mem' fuel with
  | nil =>
    have hPop : p.pop = none := pop_eq_none hIdle hAvail
    have hPop' : (p.withMem mem').pop = none := pop_eq_none hIdle hAvail
    exact ⟨p, mem', flushLoop_drained hPop fuel, flushLoop_drained hPop' fuel,
      ⟨hConn, hIdle, hAvail, rfl⟩, hAlike, fun _ _ => ⟨rfl, rfl⟩⟩
  | cons b bases ih =>
    rw [List.length_cons] at hFuel
    obtain ⟨fuel, rfl⟩ : ∃ n, fuel = n + 1 := ⟨fuel - 1, by omega⟩
    rw [List.pairwise_cons] at hDisjoint
    have hFuel' : bases.length < fuel := by omega
    obtain ⟨hFirst, hRest⟩ := hIso
    obtain ⟨p₁, m₁, hTurn, hTurn', hConn₁, hIdle₁, hAvail₁, hReady, hMem⟩ :=
      turn_local hConn hIdle hAvail (hMsgs b List.mem_cons_self)
        (fun data hLoad => hFirst b _ data hAvail hLoad) (hS b List.mem_cons_self) hAlike
    have hMsgs₁ : ∀ b' ∈ bases, IsMessage L p₁.st.mem.space b' := by
      intro b' hb'
      refine (hMsgs b' (List.mem_cons_of_mem _ hb')).congr fun i hi => hMem.left _ ?_
      have hApart := hDisjoint.1 b' hb'
      unfold Space.Disjoint at hApart
      omega
    rw [show turn (cryptodev K) L p = p₁ by rw [turn, hTurn]] at hRest
    obtain ⟨q, mem'', hLoop, hLoop', hDone, hAlike', hOut⟩ :=
      ih hConn₁ hIdle₁ hAvail₁ hFuel' hDisjoint.2 hMsgs₁ hRest
        (fun b' hb' => hS b' (List.mem_cons_of_mem _ hb')) hMem.alike
    refine ⟨q, mem'', ?_, ?_, ⟨hDone.connected, hDone.idle, hDone.avail, hDone.ready.trans hReady⟩,
      hAlike', ?_⟩
    · rw [flushLoop_succ, hTurn]
      exact hLoop
    · rw [flushLoop_succ, hTurn']
      exact hLoop'
    · intro x hx
      have hHere := hx b List.mem_cons_self
      obtain ⟨hLeft, hRight⟩ := hOut x fun b' hb' => hx b' (List.mem_cons_of_mem _ hb')
      exact ⟨hLeft.trans (hMem.left x hHere), hRight.trans (hMem.right x hHere)⟩

end VirtioCrypto.Host
