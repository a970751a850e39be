import VirtioCrypto.Host.Answer
import VirtioCrypto.Cryptodev.Effect

/-!
# Host — the memory a request makes the host touch

Every range `flush_buf` touches, itself or through the ioctl it issues, should
lie in the buffer it was given. The pointers that matter are re-pointed into the
message, but `mackey` and `mac` are the guest's own, the lengths are the
guest's, and the length of the buffer is never compared with anything.

The log of a `HostMem` only grows, so "every logged range is inside" is settled
stage by stage, each stage by an equivalence:

* `createSession_contained_iff` — `CIOCGSESSION`: the MAC key must not be read;
* `crypt_contained_iff` — `CIOCCRYPT`: the IV and the data must fit, and no
  digest may be due;
* `flushBuf_contained_iff` — one call of `flush_buf`, on any buffer and from any
  state of the session table.
-/

namespace VirtioCrypto.Host

open Octets Cryptodev

/-- A range of no bytes, or one inside the received buffer of `len` bytes. -/
def Access.Inside (len : Nat) (a : Access) : Prop :=
  a.len = 0 ∨ ∃ off, a.ptr = .buf off ∧ off + a.len ≤ len

/-- Every range touched so far lies inside the buffer. -/
def Contained (len : Nat) (m : HostMem) : Prop := ∀ a ∈ m.log, a.Inside len

variable {K : Kernel} {L : Layout} {base len : Nat}

theorem inside_buf_iff {off n : Nat} : (⟨.buf off, n⟩ : Access).Inside len ↔ n = 0 ∨ off + n ≤ len := by
  simp [Access.Inside]

theorem inside_guest_iff {addr n : Nat} : (⟨.guest addr, n⟩ : Access).Inside len ↔ n = 0 := by
  simp [Access.Inside]

theorem contained_append {space : Space} {log : List Access} {a : Access} :
    Contained len ⟨space, log ++ [a]⟩ ↔ Contained len ⟨space, log⟩ ∧ a.Inside len := by
  simp [Contained, or_imp, forall_and]

-- ---------------------------------------------------------------------------
-- The log under the kernel's accesses
-- ---------------------------------------------------------------------------

theorem keeps_contained (base len : Nat) :
    Keeps (hostSpace base) (Contained len) (fun p n => (⟨p, n⟩ : Access).Inside len) where
  read := fun _ _ _ hIn h => contained_append.mpr ⟨h, hIn⟩
  write := by
    intro m p bs hIn h
    show Contained len (m.write base p bs).2
    unfold HostMem.write
    rcases m.space.store (p.resolve base) bs with _ | space
    · exact contained_append.mpr ⟨h, hIn⟩
    · exact contained_append.mpr ⟨h, hIn⟩

/-- Nothing is ever taken off the log. -/
theorem keeps_logged (base : Nat) (a : Access) :
    Keeps (hostSpace base) (fun m => a ∈ m.log) (fun _ _ => True) where
  read := fun _ _ _ _ h => List.mem_append_left _ h
  write := by
    intro m p bs _ h
    show a ∈ (m.write base p bs).2.log
    unfold HostMem.write
    rcases m.space.store (p.resolve base) bs with _ | space
    · exact List.mem_append_left _ h
    · exact List.mem_append_left _ h

theorem HostMem.read_logs (m : HostMem) (base : Nat) (p : HostPtr) (n : Nat) :
    (⟨p, n⟩ : Access) ∈ (m.read base p n).2.log :=
  List.mem_append_right _ (List.mem_singleton.mpr rfl)

theorem HostMem.write_logs (m : HostMem) (base : Nat) (p : HostPtr) (bs : Bytes) :
    (⟨p, bs.length⟩ : Access) ∈ (m.write base p bs).2.log := by
  unfold HostMem.write
  rcases m.space.store (p.resolve base) bs with _ | space <;>
    exact List.mem_append_right _ (List.mem_singleton.mpr rfl)

-- ---------------------------------------------------------------------------
-- CIOCGSESSION
-- ---------------------------------------------------------------------------

/-- A MAC key that is read is logged. -/
theorem setupHash_logs (clock : Nat) (m : HostMem) {sop : SessionOp HostPtr} (alg : HashAlg)
    (hLen : sop.mackeylen ≤ CRYPTO_HMAC_MAX_KEY_LEN)
    (hNull : (hostSpace base).null sop.mackey = false) :
    (⟨sop.mackey, sop.mackeylen⟩ : Access) ∈
      (setupHash K (hostSpace base) clock m sop (some alg)).1.log := by
  have hRead := m.read_logs base sop.mackey sop.mackeylen
  rw [setupHash, if_neg (not_lt.mpr hLen), hNull]
  simp only [Bool.false_eq_true, if_false]
  rw [show (hostSpace base).copyFromUser m sop.mackey sop.mackeylen =
    m.read base sop.mackey sop.mackeylen from rfl]
  generalize m.read base sop.mackey sop.mackeylen = r at hRead ⊢
  rcases r with ⟨_ | key, m'⟩
  · exact hRead
  · simp only
    rcases K.hash alg with _ | tfm
    · exact hRead
    · simp only
      split <;> exact hRead

theorem createSession_logs_mackey {fcr : Fcrypt} {m : HostMem} {sop : SessionOp HostPtr}
    (h : ReadsMackey K (hostSpace base) fcr m sop) :
    (⟨sop.mackey, sop.mackeylen⟩ : Access) ∈
      (cryptoCreateSession K (hostSpace base) fcr m sop).2.1.log := by
  obtain ⟨hSome, alg, hash, hAlg, hHash, hAlloc, ⟨cdata, hCipher⟩, hBeside, hLen, hNull⟩ := h
  obtain ⟨mac, hMac⟩ := Option.isSome_iff_exists.mp hBeside
  unfold cryptoCreateSession
  rw [if_neg hSome, hAlg, hHash]
  simp only [hAlloc, Bool.not_true, Bool.false_eq_true, if_false]
  rcases hc : setupCipher K (hostSpace base) m sop alg with ⟨m', e | cdata'⟩
  · rw [hc] at hCipher
    simp at hCipher
  · have hRead := setupHash_logs (K := K) fcr.clock m' mac hLen hNull
    simp only [hMac]
    generalize setupHash K (hostSpace base) fcr.clock m' sop (some mac) = r at hRead ⊢
    rcases r with ⟨m'', e | hdata⟩
    · exact hRead
    · simp only
      split <;> exact hRead

/-- Creating a session stays inside exactly when the MAC key is not read. -/
theorem createSession_contained_iff {fcr : Fcrypt} {m : HostMem} {sop : SessionOp HostPtr}
    {addr : Nat} (hKey : sop.key = .buf L.keypOff) (hMackey : sop.mackey = .guest addr)
    (hCmd : L.cmdOff + 4 ≤ len) (hm : Contained len m) :
    Contained len (cryptoCreateSession K (hostSpace base) fcr m sop).2.1 ↔
      (ReadsMackey K (hostSpace base) fcr m sop → sop.mackeylen = 0) := by
  refine ⟨fun h hReads => ?_, fun h => ?_⟩
  · have hIn := h _ (createSession_logs_mackey hReads)
    rw [hMackey] at hIn
    exact inside_guest_iff.mp hIn
  · refine cryptoCreateSession_keeps (keeps_contained base len) (fun hLen => ?_) (fun hReads => ?_) hm
    · rw [hKey]
      have hBounds := L.cmdOff_bounds
      rw [L.ivpOff_eq] at hBounds
      rw [L.keypOff_eq]
      unfold CRYPTO_CIPHER_MAX_KEY_LEN at hLen
      exact inside_buf_iff.mpr (Or.inr (by omega))
    · rw [hMackey]
      exact inside_guest_iff.mpr (h hReads)

-- ---------------------------------------------------------------------------
-- CIOCCRYPT
-- ---------------------------------------------------------------------------

/-- The buffer is guest RAM that QEMU has mapped. -/
def Mapped (base len : Nat) (m : HostMem) : Prop := (m.space.load base len).isSome

theorem load_of_inside {m : HostMem} {off n : Nat} (hMapped : Mapped base len m)
    (h : off + n ≤ len) : ∃ bs, m.space.load (base + off) n = some bs := by
  obtain ⟨data, hLoad⟩ := Option.isSome_iff_exists.mp hMapped
  exact ⟨_, Space.load_slice hLoad h⟩

/-- What the log held before a kernel operation is inside if it all is afterwards. -/
theorem Contained.mono {m m' : HostMem} (h : Contained len m') (hLog : ∀ a ∈ m.log, a ∈ m'.log) :
    Contained len m :=
  fun a ha => h a (hLog a ha)

theorem cryptoRunStd_mono {dir : Dir} {bufsize fuel nbytes : Nat} {ses : CSession} {m : HostMem}
    {src dst : HostPtr} : ∀ a ∈ m.log,
      a ∈ (cryptoRunStd (hostSpace base) dir bufsize fuel ses m src dst nbytes).2.1.log :=
  fun a ha => cryptoRunStd_keeps (keeps_logged base a) fuel (fun _ _ _ => trivial)
    (fun _ _ _ => trivial) ha

theorem fit_of_inside {off n : Nat} (hPos : 0 < n) (h : (⟨.buf off, n⟩ : Access).Inside len) :
    off + n ≤ len := by
  rcases inside_buf_iff.mp h with hZero | hFit
  · omega
  · exact hFit

/-- A read that is inside succeeds. -/
theorem read_of_inside {m : HostMem} {off n : Nat} (hMapped : Mapped base len m)
    (hIn : (⟨.buf off, n⟩ : Access).Inside len) :
    ∃ bs m', bs.length = n ∧ Mapped base len m' ∧ m.read base (.buf off) n = (some bs, m') := by
  obtain ⟨bs, hLoad⟩ : ∃ bs, m.space.load (base + off) n = some bs := by
    rcases inside_buf_iff.mp hIn with rfl | hFit
    · exact ⟨[], rfl⟩
    · exact load_of_inside hMapped hFit
  refine ⟨bs, (m.read base (.buf off) n).2, Space.length_of_load hLoad, hMapped, ?_⟩
  simp [HostMem.read, HostPtr.resolve, hLoad]

/-- A chunk whose accesses end up inside was inside, and succeeded. -/
theorem runChunk_of_contained {dir : Dir} {ses : CSession} {m : HostMem} {so d cur : Nat}
    (hPos : 0 < cur) (hMapped : Mapped base len m)
    (h : Contained len (runChunk (hostSpace base) dir ses m (.buf so) (.buf d) cur).2.1) :
    so + cur ≤ len ∧ (ses.cdata.isSome → d + cur ≤ len) ∧
      (runChunk (hostSpace base) dir ses m (.buf so) (.buf d) cur).2.2 = .ok () ∧
      Mapped base len (runChunk (hostSpace base) dir ses m (.buf so) (.buf d) cur).2.1 := by
  have hMapped' : Mapped base len (runChunk (hostSpace base) dir ses m (.buf so) (.buf d) cur).2.1 :=
    runChunk_keeps (hostSpace_keeps_mapped base base len) _ _ trivial trivial hMapped
  unfold runChunk at h hMapped' ⊢
  rw [show (hostSpace base).copyFromUser m (.buf so) cur = m.read base (.buf so) cur from rfl]
    at h hMapped' ⊢
  have hLogged := m.read_logs base (.buf so) cur
  -- the read is on the log to the end
  have hSrcIn : (⟨.buf so, cur⟩ : Access).Inside len := by
    generalize m.read base (.buf so) cur = r at h hLogged
    rcases r with ⟨_ | data, m'⟩
    · exact h _ hLogged
    simp only at h
    split at h
    · exact h _ hLogged
    · have hKept := (keeps_logged base ⟨.buf so, cur⟩).write m' (.buf d)
        (hashNCrypt ses dir data data).2 trivial hLogged
      generalize (hostSpace base).copyToUser m' (.buf d) (hashNCrypt ses dir data data).2 = w
        at hKept h
      rcases w with ⟨_ | _, m''⟩ <;> exact h _ hKept
  have hSrc := fit_of_inside hPos hSrcIn
  obtain ⟨data, m₁, hLen, hMapped₁, hRead⟩ := read_of_inside hMapped hSrcIn
  have hCipher : (hashNCrypt ses dir data data).1.cdata.isSome = ses.cdata.isSome := by
    simpa using congrArg Option.isSome (hashNCrypt_shape ses dir data data).cipher
  have hOutLen : (hashNCrypt ses dir data data).2.length = cur := (length_hashNCrypt rfl).trans hLen
  rw [hRead] at h hMapped' ⊢
  simp only at h hMapped' ⊢
  by_cases hNone : (hashNCrypt ses dir data data).1.cdata.isNone = true
  · rw [if_pos hNone] at hMapped' ⊢
    refine ⟨hSrc, fun hSome => ?_, rfl, hMapped'⟩
    rw [← hCipher] at hSome
    simp [Option.isNone_iff_eq_none.mp hNone] at hSome
  · rw [if_neg hNone] at h hMapped' ⊢
    rw [show (hostSpace base).copyToUser m₁ (.buf d) (hashNCrypt ses dir data data).2 =
      m₁.write base (.buf d) (hashNCrypt ses dir data data).2 from rfl] at h hMapped' ⊢
    have hWritten := m₁.write_logs base (.buf d) (hashNCrypt ses dir data data).2
    rw [hOutLen] at hWritten
    have hDstIn : (⟨.buf d, cur⟩ : Access).Inside len := by
      generalize m₁.write base (.buf d) (hashNCrypt ses dir data data).2 = w at hWritten h
      rcases w with ⟨_ | _, m''⟩ <;> exact h _ hWritten
    have hDst := fit_of_inside hPos hDstIn
    have hFit : d + (hashNCrypt ses dir data data).2.length ≤ len := hOutLen ▸ hDst
    rw [write_in_message hMapped₁ hFit] at hMapped' ⊢
    exact ⟨hSrc, fun _ => hDst, rfl, hMapped'⟩

/-- A bounce-buffer loop that stays inside runs to its end, and its two ranges
are inside. -/
theorem cryptoRunStd_of_contained {dir : Dir} {bufsize : Nat} (hBuf : 0 < bufsize) (fuel : Nat)
    {ses : CSession} {m : HostMem} {so d nbytes : Nat} (hFuel : nbytes ≤ fuel)
    (hMapped : Mapped base len m)
    (h : Contained len
      (cryptoRunStd (hostSpace base) dir bufsize fuel ses m (.buf so) (.buf d) nbytes).2.1) :
    (cryptoRunStd (hostSpace base) dir bufsize fuel ses m (.buf so) (.buf d) nbytes).2.2 = .ok () ∧
      (0 < nbytes → so + nbytes ≤ len) ∧
      (0 < nbytes → ses.cdata.isSome → d + nbytes ≤ len) := by
  induction fuel generalizing ses m so d nbytes with
  | zero =>
    have hZero : nbytes = 0 := Nat.le_zero.mp hFuel
    exact ⟨rfl, fun hPos => by omega, fun hPos => by omega⟩
  | succ fuel ih =>
    by_cases hDone : nbytes = 0
    · rw [cryptoRunStd, if_pos hDone]
      exact ⟨rfl, fun hPos => by omega, fun hPos => by omega⟩
    rw [cryptoRunStd, if_neg hDone] at h ⊢
    have hCur : 0 < min bufsize nbytes ∧ min bufsize nbytes ≤ nbytes := by omega
    generalize min bufsize nbytes = cur at hCur h ⊢
    have hShape := runChunk_shape (U := hostSpace base) dir ses m (.buf so) (.buf d) cur
    have hChunk : Contained len
        (runChunk (hostSpace base) dir ses m (.buf so) (.buf d) cur).2.1 := by
      generalize runChunk (hostSpace base) dir ses m (.buf so) (.buf d) cur = r at h
      rcases r with ⟨ses', m', e | _⟩
      · exact h
      · exact h.mono cryptoRunStd_mono
    obtain ⟨hSrc, hDst, hOk, hMapped'⟩ := runChunk_of_contained hCur.1 hMapped hChunk
    generalize runChunk (hostSpace base) dir ses m (.buf so) (.buf d) cur = r
      at h hOk hMapped' hShape ⊢
    obtain ⟨ses', m', out⟩ := r
    simp only at hOk
    subst hOk
    have hCipher : ses'.cdata.isSome = ses.cdata.isSome := by
      simpa using congrArg Option.isSome hShape.cipher
    obtain ⟨hOk', hSrc', hDst'⟩ := ih (by omega) hMapped' h
    refine ⟨hOk', fun _ => ?_, fun _ hSome => ?_⟩
    · rcases Nat.eq_zero_or_pos (nbytes - cur) with hLeft | hLeft
      · omega
      · have := hSrc' hLeft
        omega
    · have hHere := hDst hSome
      rcases Nat.eq_zero_or_pos (nbytes - cur) with hLeft | hLeft
      · omega
      · have := hDst' hLeft (hCipher.trans hSome)
        omega

theorem runZc_of_contained {clock : Nat} {ses : CSession} {m : HostMem} {dir : Dir}
    {cop : CryptOp HostPtr} {so d : Nat} (hSrc : cop.src = .buf so) (hDst : cop.dst = .buf d)
    (hPos : 0 < cop.len) (hMapped : Mapped base len m)
    (h : Contained len (runZc K (hostSpace base) clock ses m dir cop).2.1) :
    (runZc K (hostSpace base) clock ses m dir cop).2.2 = .ok () ∧ d + cop.len ≤ len := by
  have hStd : ∀ {m : HostMem} (a : Access), a ∈ m.log →
      a ∈ (runStd K (hostSpace base) clock ses m dir cop).2.1.log :=
    fun a ha => runStd_keeps (keeps_logged base a) (fun _ _ _ => trivial) (fun _ _ _ => trivial) ha
  unfold runZc at h ⊢
  rw [hSrc, hDst] at h ⊢
  rw [show (hostSpace base).copyFromUser m (.buf so) cop.len = m.read base (.buf so) cop.len from rfl]
    at h ⊢
  have hLogged := m.read_logs base (.buf so) cop.len
  have hSrcIn : (⟨.buf so, cop.len⟩ : Access).Inside len := by
    generalize m.read base (.buf so) cop.len = r at h hLogged
    rcases r with ⟨_ | src, m'⟩
    · exact h _ (hStd _ hLogged)
    simp only at h
    have hKept := (keeps_logged base ⟨.buf so, cop.len⟩).read m' (.buf d) cop.len trivial hLogged
    generalize (hostSpace base).copyFromUser m' (.buf d) cop.len = r at h hKept
    rcases r with ⟨_ | dst, m''⟩
    · exact h _ (hStd _ hKept)
    · exact h _ ((keeps_logged base ⟨.buf so, cop.len⟩).write m'' (.buf d) _ trivial hKept)
  obtain ⟨src, m₁, -, hMapped₁, hRead⟩ := read_of_inside hMapped hSrcIn
  rw [hRead] at h ⊢
  simp only at h ⊢
  rw [show (hostSpace base).copyFromUser m₁ (.buf d) cop.len = m₁.read base (.buf d) cop.len from rfl]
    at h ⊢
  have hLogged' := m₁.read_logs base (.buf d) cop.len
  have hDstIn : (⟨.buf d, cop.len⟩ : Access).Inside len := by
    generalize m₁.read base (.buf d) cop.len = r at h hLogged'
    rcases r with ⟨_ | dst, m''⟩
    · exact h _ (hStd _ hLogged')
    · exact h _ ((keeps_logged base ⟨.buf d, cop.len⟩).write m'' (.buf d) _ trivial hLogged')
  obtain ⟨dst, m₂, -, -, hRead'⟩ := read_of_inside hMapped₁ hDstIn
  rw [hRead']
  exact ⟨rfl, fit_of_inside hPos hDstIn⟩

/-- An operation on data that stays inside succeeds, and its destination is
inside unless it only hashes through the bounce buffer. -/
theorem runData_of_contained {clock : Nat} {ses : CSession} {m : HostMem} {dir : Dir}
    {cop : CryptOp HostPtr} {so d : Nat} (hSrc : cop.src = .buf so) (hDst : cop.dst = .buf d)
    (hPos : 0 < cop.len) (hPage : cop.noZc = true → K.getFreePage clock = true)
    (hMapped : Mapped base len m)
    (h : Contained len (runData K (hostSpace base) clock ses m dir cop).2.1) :
    (runData K (hostSpace base) clock ses m dir cop).2.2 = .ok () ∧
      (d + cop.len ≤ len ∨ ses.cdata = none) := by
  unfold runData at h ⊢
  rw [if_neg (Nat.pos_iff_ne_zero.mp hPos)] at h ⊢
  by_cases hStd : cop.noZc = true
  · rw [if_pos hStd] at h ⊢
    unfold runStd at h ⊢
    simp only [hPage hStd, Bool.not_true, Bool.false_eq_true, if_false, hSrc, hDst] at h ⊢
    obtain ⟨hOk, -, hFit⟩ := cryptoRunStd_of_contained
      (by unfold PAGE_SIZE; omega) cop.len le_rfl hMapped h
    refine ⟨hOk, ?_⟩
    rcases hc : ses.cdata with _ | c
    · exact Or.inr rfl
    · exact Or.inl (hFit hPos (by rw [hc]; rfl))
  · rw [if_neg hStd] at h ⊢
    obtain ⟨hOk, hFit⟩ := runZc_of_contained hSrc hDst hPos hMapped h
    exact ⟨hOk, Or.inl hFit⟩

theorem fillCopFromKcop_mono {m : HostMem} {cop : CryptOp HostPtr} {ses : CSession} {ivlen : Nat}
    {digest : Option Bytes} : ∀ a ∈ m.log,
      a ∈ (fillCopFromKcop (hostSpace base) m cop ses ivlen digest).1.log :=
  fun a ha => fillCopFromKcop_keeps (keeps_logged base a) (fun _ _ _ => trivial)
    (fun _ => trivial) ha

/-- A digest that is handed back is logged. -/
theorem fillCopFromKcop_logs_mac {m : HostMem} {cop : CryptOp HostPtr} {ses : CSession}
    {ivlen : Nat} {d : Bytes} (hd : d.length ≠ 0) :
    (⟨cop.mac, d.length⟩ : Access) ∈
      (fillCopFromKcop (hostSpace base) m cop ses ivlen (some d)).1.log := by
  have hWritten := m.write_logs base cop.mac d
  unfold fillCopFromKcop
  simp only [hd, if_false]
  rw [show (hostSpace base).copyToUser m cop.mac d = m.write base cop.mac d from rfl]
  generalize m.write base cop.mac d = w at hWritten ⊢
  rcases w with ⟨_ | _, m'⟩
  · exact hWritten
  · simp only
    split
    · have hKept := (keeps_logged base ⟨cop.mac, d.length⟩).write m' cop.iv
        ((ses.cdata.map CipherData.iv).getD []) trivial hWritten
      generalize (hostSpace base).copyToUser m' cop.iv ((ses.cdata.map CipherData.iv).getD []) = w
        at hKept ⊢
      rcases w with ⟨_ | _, m''⟩ <;> exact hKept
    · exact hWritten

/-- Where nothing is handed back, `fill_cop_from_kcop` succeeds. -/
theorem fillCopFromKcop_nothing {m : HostMem} {cop : CryptOp HostPtr} {ses : CSession}
    {digest : Option Bytes} (h : ∀ d, digest = some d → d.length = 0) :
    (fillCopFromKcop (hostSpace base) m cop ses 0 digest).2 = .ok () := by
  unfold fillCopFromKcop
  rcases digest with _ | d
  · rfl
  · simp [h d rfl]

/-- `CIOCCRYPT` once the session is found and the IV read. -/
theorem cryptoCrypt_found {fcr : Fcrypt} {m m₁ : HostMem} {cop : CryptOp HostPtr} {ses : CSession}
    {off : Nat} {iv : Bytes} (hSes : fcr.getSessionBySid cop.ses = some ses) (hIv : cop.iv = .buf off)
    (hRead : m.read base (.buf off) ses.ivsize = (some iv, m₁)) :
    (cryptoCrypt K (hostSpace base) fcr m cop).2 =
      match cryptoRun K (hostSpace base) fcr.clock ses m₁ cop iv with
      | (_, m, .error e) => (m, .error e)
      | (ses, m, .ok digest) => fillCopFromKcop (hostSpace base) m cop ses iv.length digest := by
  unfold cryptoCrypt
  rw [hSes]
  simp only [hIv]
  rw [show (hostSpace base).null (.buf off) = false from rfl,
    show (hostSpace base).copyFromUser m (.buf off) ses.ivsize = m.read base (.buf off) ses.ivsize
      from rfl, hRead]
  simp only [Bool.false_eq_true, if_false]
  rcases cryptoRun K (hostSpace base) fcr.clock ses m₁ cop iv with ⟨ses', m', e | digest⟩ <;> rfl

/-- The pointers `flush_buf` gives an operation. -/
structure Repointed (L : Layout) (cop : CryptOp HostPtr) : Prop where
  src : cop.src = .buf L.srcpOff
  dst : cop.dst = .buf L.dstpOff
  iv : cop.iv = .buf L.ivpOff
  mac : ∃ addr, cop.mac = .guest addr

/-- What must hold of the session an operation is for. -/
structure CryptFits (K : Kernel) (L : Layout) (len : Nat) (fcr : Fcrypt) (cop : CryptOp HostPtr)
    (ses : CSession) : Prop where
  iv : ses.ivsize = 0 ∨ L.ivpOff + ses.ivsize ≤ len
  data : Runs K fcr.clock ses cop → 0 < cop.len → L.dstpOff + cop.len ≤ len
  mac : Runs K fcr.clock ses cop → ¬ MacDue ses cop

/-- The IV of an operation that stays inside. -/
theorem iv_of_contained {fcr : Fcrypt} {m : HostMem} {cop : CryptOp HostPtr} {ses : CSession}
    (hPtr : Repointed L cop) (hSes : fcr.getSessionBySid cop.ses = some ses)
    (h : Contained len (cryptoCrypt K (hostSpace base) fcr m cop).2.1) :
    (⟨.buf L.ivpOff, ses.ivsize⟩ : Access).Inside len := by
  have hLogged := m.read_logs base (.buf L.ivpOff) ses.ivsize
  rcases hr : m.read base (.buf L.ivpOff) ses.ivsize with ⟨_ | iv, m₁⟩
  · rw [hr] at hLogged
    have hFail : (cryptoCrypt K (hostSpace base) fcr m cop).2.1 = m₁ := by
      unfold cryptoCrypt
      rw [hSes]
      simp only [hPtr.iv]
      rw [show (hostSpace base).null (.buf L.ivpOff) = false from rfl,
        show (hostSpace base).copyFromUser m (.buf L.ivpOff) ses.ivsize =
          m.read base (.buf L.ivpOff) ses.ivsize from rfl, hr]
      rfl
    rw [hFail] at h
    exact h _ hLogged
  · rw [hr] at hLogged
    rw [cryptoCrypt_found hSes hPtr.iv hr] at h
    have hKept := cryptoRun_keeps (K := K) (keeps_logged base ⟨.buf L.ivpOff, ses.ivsize⟩)
      fcr.clock ses cop iv (fun _ _ _ _ _ => ⟨trivial, trivial⟩) hLogged
    generalize cryptoRun K (hostSpace base) fcr.clock ses m₁ cop iv = r at h hKept
    rcases r with ⟨ses', m', e | digest⟩
    · exact h _ hKept
    · exact h _ (fillCopFromKcop_mono _ hKept)

/-- The data part of an operation that has data or a digest to compute succeeds when it stays
inside. -/
theorem runData_ok_of_contained {clock : Nat} {ses : CSession} {m : HostMem} {dir : Dir}
    {cop : CryptOp HostPtr} (hPtr : Repointed L cop)
    (hPage : 0 < cop.len → cop.noZc = true → K.getFreePage clock = true) (hMapped : Mapped base len m)
    (h : Contained len (runData K (hostSpace base) clock ses m dir cop).2.1)
    (hHash : ses.digestsize ≠ 0) :
    (runData K (hostSpace base) clock ses m dir cop).2.2 = .ok () := by
  by_cases hPos : 0 < cop.len
  · exact (runData_of_contained hPtr.src hPtr.dst hPos (hPage hPos) hMapped h).1
  · unfold runData
    rw [if_pos (by omega), if_pos (hdata_isSome hHash)]

/-- A digest that is due would be written to a guest-supplied address. -/
theorem not_macDue_of_contained {clock : Nat} {m : HostMem} {cop : CryptOp HostPtr}
    {ses ses₁ : CSession} {dir : Dir} {iv : Bytes} (hPtr : Repointed L cop)
    (hShape : SameShape ses ses₁)
    (hRun : ∀ ses' m', runData K (hostSpace base) clock ses₁ m dir cop = (ses', m', .ok ()) →
      cryptoRun K (hostSpace base) clock ses m cop iv = (ses', m', .ok (digestOf ses' cop)))
    (hOk : ses.digestsize ≠ 0 → (runData K (hostSpace base) clock ses₁ m dir cop).2.2 = .ok ())
    (h : ∀ ses' m' d, cryptoRun K (hostSpace base) clock ses m cop iv = (ses', m', .ok (some d)) →
      Contained len (fillCopFromKcop (hostSpace base) m' cop ses' iv.length (some d)).1) :
    ¬ MacDue ses cop := by
  intro hDue
  obtain ⟨addr, hMac⟩ := hPtr.mac
  have hRanOk := hOk hDue.1
  have hShape' := hShape.trans (runData_shape (K := K) (U := hostSpace base) clock ses₁ m dir cop)
  generalize runData K (hostSpace base) clock ses₁ m dir cop = r at hRun hRanOk hShape'
  obtain ⟨ses', m', out⟩ := r
  simp only at hRanOk
  subst hRanOk
  have hDue' : MacDue ses' cop := ⟨by rw [hShape'.digestsize]; exact hDue.1, hDue.2⟩
  obtain ⟨d, hDigest⟩ := digestOf_of_macDue hDue'
  have hEq := hRun ses' m' rfl
  rw [hDigest] at hEq
  have hne : d.length ≠ 0 := by
    rw [(cryptoRun_digest hEq).1]
    exact hDue.1
  have hIn := h ses' m' d hEq _ (fillCopFromKcop_logs_mac hne)
  rw [hMac] at hIn
  exact hne (inside_guest_iff.mp hIn)

/-- The data and the MAC of an operation that stays inside, the `memcpy` after a
success included. -/
theorem data_of_contained {fcr : Fcrypt} {m m₁ : HostMem} {cop : CryptOp HostPtr} {ses : CSession}
    {iv : Bytes} (hPtr : Repointed L cop) (hSes : fcr.getSessionBySid cop.ses = some ses)
    (hRead : m.read base (.buf L.ivpOff) ses.ivsize = (some iv, m₁)) (hIvLen : iv.length = ses.ivsize)
    (hMapped : Mapped base len m₁) (hRuns : Runs K fcr.clock ses cop)
    (h : Contained len (cryptoCrypt K (hostSpace base) fcr m cop).2.1)
    (hCopy : (cryptoCrypt K (hostSpace base) fcr m cop).2.2 = .ok () → 0 < cop.len →
      L.dstpOff + cop.len ≤ len) :
    (0 < cop.len → L.dstpOff + cop.len ≤ len) ∧ ¬ MacDue ses cop := by
  obtain ⟨dir, ses₁, -, hShape, -, hRun⟩ :=
    cryptoRun_of_runs (U := hostSpace base) hRuns m₁ iv
  have hFound := cryptoCrypt_found (K := K) hSes hPtr.iv hRead
  rw [hFound] at h hCopy
  have hData : Contained len (runData K (hostSpace base) fcr.clock ses₁ m₁ dir cop).2.1 := by
    rw [hRun] at h
    generalize runData K (hostSpace base) fcr.clock ses₁ m₁ dir cop = r at h
    rcases r with ⟨ses', m', e | _⟩
    · exact h
    · exact h.mono fillCopFromKcop_mono
  have hOk : ses.digestsize ≠ 0 →
      (runData K (hostSpace base) fcr.clock ses₁ m₁ dir cop).2.2 = .ok () := fun hDig =>
    runData_ok_of_contained hPtr hRuns.2.2 hMapped hData (hShape.digestsize ▸ hDig)
  have hFilled : ∀ ses' m' d,
      cryptoRun K (hostSpace base) fcr.clock ses m₁ cop iv = (ses', m', .ok (some d)) →
        Contained len (fillCopFromKcop (hostSpace base) m' cop ses' iv.length (some d)).1 := by
    intro ses' m' d hEq
    rw [hEq] at h
    exact h
  have hNoMac : ¬ MacDue ses cop :=
    not_macDue_of_contained hPtr hShape (fun ses' m' hr => by rw [hRun, hr]) hOk hFilled
  refine ⟨fun hPos => ?_, hNoMac⟩
  obtain ⟨hRanOk, hFit | hNone⟩ :=
    runData_of_contained hPtr.src hPtr.dst hPos (hRuns.2.2 hPos) hMapped hData
  · exact hFit
  · -- a hash through the bounce buffer: it succeeds, and then the memcpy is made
    refine hCopy ?_ hPos
    have hZero : iv.length = 0 := by
      rw [hIvLen, ← hShape.ivsize, CSession.ivsize, hNone]
      rfl
    rcases hr : runData K (hostSpace base) fcr.clock ses₁ m₁ dir cop with ⟨ses', m', out⟩
    rw [hr] at hRun hRanOk
    simp only at hRanOk
    subst hRanOk
    rw [hRun, hZero]
    refine fillCopFromKcop_nothing fun d hd => ?_
    by_contra hne
    simp only [hd] at hRun
    exact hNoMac ((cryptoRun_digest hRun).2 hne)

/-- An operation and the `memcpy` that follows its success stay inside exactly
when the session's IV and the data fit and no digest is due. -/
theorem crypt_contained_iff (fcr : Fcrypt) {m : HostMem} {cop : CryptOp HostPtr}
    (hPtr : Repointed L cop) (hMapped : Mapped base len m) (hm : Contained len m) :
    (Contained len (cryptoCrypt K (hostSpace base) fcr m cop).2.1 ∧
        ((cryptoCrypt K (hostSpace base) fcr m cop).2.2 = .ok () → 0 < cop.len →
          L.dstpOff + cop.len ≤ len)) ↔
      ∀ ses, fcr.getSessionBySid cop.ses = some ses → CryptFits K L len fcr cop ses := by
  obtain ⟨addr, hMac⟩ := hPtr.mac
  refine ⟨fun ⟨h, hCopy⟩ ses hSes => ?_, fun hFits => ⟨?_, fun hOk hPos => ?_⟩⟩
  · have hIn := iv_of_contained hPtr hSes h
    obtain ⟨iv, m₁, hIvLen, hMapped₁, hRead⟩ := read_of_inside hMapped hIn
    have hData := fun hRuns =>
      data_of_contained hPtr hSes hRead hIvLen hMapped₁ hRuns h hCopy
    exact ⟨inside_buf_iff.mp hIn, fun hRuns => (hData hRuns).1, fun hRuns => (hData hRuns).2⟩
  · refine cryptoCrypt_keeps (keeps_contained base len) (fun ses hSes _ => ?_)
      (fun ses hSes hRuns hPos o k hok => ?_) (fun ses hSes hRuns hDue => ?_) hm
    · rw [hPtr.iv]
      exact inside_buf_iff.mpr (hFits ses hSes).iv
    · have hFit := (hFits ses hSes).data hRuns hPos
      have hOff : L.srcpOff ≤ L.dstpOff := by
        rw [L.srcpOff_eq, L.dstpOff_eq]
        omega
      rw [hPtr.src, hPtr.dst]
      exact ⟨inside_buf_iff.mpr (Or.inr (by omega)), inside_buf_iff.mpr (Or.inr (by omega))⟩
    · exact absurd hDue ((hFits ses hSes).mac hRuns)
  · rcases hSes : fcr.getSessionBySid cop.ses with _ | ses
    · simp [cryptoCrypt, hSes] at hOk
    obtain ⟨iv, m₁, -, -, hRead⟩ :=
      read_of_inside hMapped (inside_buf_iff.mpr (hFits ses hSes).iv)
    rw [cryptoCrypt_found hSes hPtr.iv hRead] at hOk
    rcases hRun : cryptoRun K (hostSpace base) fcr.clock ses m₁ cop iv with ⟨ses', m', e | digest⟩
    · simp [hRun] at hOk
    · exact (hFits ses hSes).data (runs_of_cryptoRun_ok hRun) hPos

-- ---------------------------------------------------------------------------
-- flush_buf
-- ---------------------------------------------------------------------------

/-- What the loop of `write_to_port` read before it goes on stays on the log. -/
theorem writeLoop_logged {size : Nat} (avail : List Nat) {off : Nat} {m : HostMem} {a : Access}
    (h : a ∈ m.log) : a ∈ (writeLoop base size avail off m).mem.log := by
  induction avail generalizing off m with
  | nil => exact h
  | cons sz avail ih =>
    have hRead : a ∈ (m.read base (.buf off) (min sz (size - off))).2.log :=
      List.mem_append_left _ h
    unfold writeLoop
    by_cases hDone : size ≤ off
    · rw [if_pos hDone]
      exact h
    · rw [if_neg hDone]
      generalize m.read base (.buf off) (min sz (size - off)) = r at hRead ⊢
      rcases r with ⟨_ | data, m'⟩
      · exact hRead
      · exact ih hRead

/-- The loop stays inside exactly when what the posted buffers take of the message does. -/
theorem writeLoop_contained_iff {size : Nat} (avail : List Nat) {off : Nat} {m : HostMem}
    (hMapped : Mapped base len m) :
    Contained len (writeLoop base size avail off m).mem ↔
      Contained len m ∧
        (min (size - off) avail.sum = 0 ∨ off + min (size - off) avail.sum ≤ len) := by
  induction avail generalizing off m with
  | nil => simp [writeLoop]
  | cons sz avail ih =>
    unfold writeLoop
    rw [List.sum_cons]
    by_cases hDone : size ≤ off
    · rw [if_pos hDone, Nat.sub_eq_zero_of_le hDone]
      simp
    rw [if_neg hDone]
    have hKept : ∀ m', (m.read base (.buf off) (min sz (size - off))).2 = m' →
        (Contained len m' ↔ Contained len m ∧
          (⟨.buf off, min sz (size - off)⟩ : Access).Inside len) := by
      rintro m' rfl
      exact contained_append
    by_cases hIn : (⟨.buf off, min sz (size - off)⟩ : Access).Inside len
    · obtain ⟨data, m', hLen, hMapped', hRead⟩ := read_of_inside hMapped hIn
      have hKept' := hKept m' (by rw [hRead])
      rw [hRead]
      simp only
      rw [ih hMapped', hKept', hLen]
      rw [inside_buf_iff] at hIn ⊢
      constructor
      · rintro ⟨⟨hm, -⟩, hRest⟩
        exact ⟨hm, by omega⟩
      · rintro ⟨hm, hFit⟩
        exact ⟨⟨hm, hIn⟩, by omega⟩
    · -- the copy into this buffer already leaves the message
      refine iff_of_false (fun h => hIn (h _ ?_)) fun h => hIn (inside_buf_iff.mpr ?_)
      · have hLogged := m.read_logs base (.buf off) (min sz (size - off))
        generalize m.read base (.buf off) (min sz (size - off)) = r at hLogged ⊢
        rcases r with ⟨_ | data, m'⟩
        · exact hLogged
        · exact writeLoop_logged avail hLogged
      · have hFit := h.2
        omega

/-- Where the port is open on both ends and the in queue is up, the buffer holds as much of
the message as the posted buffers take. -/
def ResponseFits {σ : Type} (L : Layout) (len : Nat) (port : Port σ) : Prop :=
  port.hostConnected = true → port.guestConnected = true → port.ivq.ready = true →
    min L.sizeof port.ivq.room ≤ len

theorem ResponseFits.congr {σ : Type} {port q : Port σ} (h : SameSide port q) :
    ResponseFits L len q ↔ ResponseFits L len port := by
  unfold ResponseFits
  rw [h.hostConnected, h.guestConnected, h.ivq]

theorem respond_contained_iff {σ : Type} {q : Port σ} {buf w : Nat} (hMapped : Mapped buf len q.mem) :
    Contained len (respond L q buf w).1.mem ↔ Contained len q.mem ∧ ResponseFits L len q := by
  unfold respond virtioSerialWrite
  by_cases hConn : (q.hostConnected && q.guestConnected) = true
  swap
  · rw [if_neg hConn]
    rw [Bool.and_eq_true, not_and] at hConn
    exact ⟨fun h => ⟨h, fun hHost hGuest => absurd hGuest (hConn hHost)⟩, fun h => h.1⟩
  by_cases hReady : q.ivq.ready = true
  swap
  · rw [if_pos hConn, if_neg hReady]
    exact ⟨fun h => ⟨h, fun _ _ hUp => absurd hUp hReady⟩, fun h => h.1⟩
  rw [if_pos hConn, if_pos hReady]
  rw [Bool.and_eq_true] at hConn
  have hLoop : Contained len (writeLoop buf L.sizeof q.ivq.avail 0 q.mem).mem ↔ _ :=
    writeLoop_contained_iff q.ivq.avail hMapped
  have hFits : ResponseFits L len q ↔
      (min (L.sizeof - 0) q.ivq.avail.sum = 0 ∨ 0 + min (L.sizeof - 0) q.ivq.avail.sum ≤ len) := by
    simp only [ResponseFits, hConn.1, hConn.2, hReady, true_implies, InVq.room]
    omega
  rw [hFits, ← hLoop]
  generalize writeLoop buf L.sizeof q.ivq.avail 0 q.mem = r
  rcases r with ⟨mem, used, avail, _ | _⟩ <;> exact Iff.rfl

/-- The response after one more access. -/
theorem respond_after_iff {σ : Type} {port q : Port σ} (hSide : SameSide port q) {buf w : Nat}
    {space : Space} {log : List Access} (a : Access) (hMapped : (space.load buf len).isSome) :
    Contained len (respond L { q with mem := ⟨space, log ++ [a]⟩ } buf w).1.mem ↔
      (Contained len ⟨space, log⟩ ∧ a.Inside len) ∧ ResponseFits L len port := by
  rw [respond_contained_iff (q := { q with mem := ⟨space, log ++ [a]⟩ }) hMapped, contained_append,
    ResponseFits.congr (hSide.withMem _)]

theorem flushGsession_contained_iff {port : Port Fcrypt} {buf w : Nat} (hCmd : L.cmdOff + 4 ≤ len)
    (hMapped : Mapped buf len port.mem) :
    Contained len (flushGsession (cryptodev K) L port buf w).1.mem ↔
      Contained len (ioctlGsession (cryptodev K) L port buf).1.mem ∧
        (outcome (cryptodev K) L port buf .CIOCGSESSION = some (.ok ()) → ResponseFits L len port) := by
  have hSide := (ioctlGsession_leaves (cryptodev K) L port buf).sameSide
  have hMapped' := ioctlGsession_keeps_mapped (L := L) (cryptodev_keepsMapped K) buf hMapped
  have hBounds := L.cmdOff_bounds
  rw [L.ivpOff_eq] at hBounds
  unfold flushGsession outcome
  generalize ioctlGsession (cryptodev K) L port buf = r at hSide hMapped' ⊢
  rcases r with ⟨q, _ | _ | sess⟩
  · simp [segv]
  · simp [ret, Except.map]
  · have hFit : SES_OFF + (toLE 4 sess.ses).length ≤ len := by
      simp only [SES_OFF, length_toLE]
      omega
    have hIn : (⟨.buf SES_OFF, (toLE 4 sess.ses).length⟩ : Access).Inside len :=
      inside_buf_iff.mpr (Or.inr hFit)
    simp only [write_in_message hMapped' hFit, Option.map_some, Except.map, true_implies]
    rw [respond_after_iff hSide _ (Space.load_put_isSome hMapped')]
    simp only [hIn, and_true]
    exact Iff.rfl

theorem flushFsession_contained_iff {port : Port Fcrypt} {buf w : Nat} (hCmd : L.cmdOff + 4 ≤ len)
    (hMapped : Mapped buf len port.mem) :
    Contained len (flushFsession (cryptodev K) L port buf w).1.mem ↔
      Contained len (ioctlFsession (cryptodev K) port buf).1.mem ∧
        (outcome (cryptodev K) L port buf .CIOCFSESSION = some (.ok ()) → ResponseFits L len port) := by
  have hSide := (ioctlFsession_leaves (cryptodev K) port buf).sameSide
  have hMapped' := ioctlFsession_keeps_mapped (cryptodev K) buf hMapped
  have hSid := length_of_ioctlFsession (cryptodev K) port buf
  have hBounds := L.cmdOff_bounds
  rw [L.ivpOff_eq] at hBounds
  unfold flushFsession outcome
  generalize ioctlFsession (cryptodev K) port buf = r at hSide hMapped' hSid ⊢
  rcases r with ⟨q, _ | _ | sid⟩
  · simp [segv]
  · simp [ret, Except.map]
  · have hFit : 0 + sid.length ≤ len := by
      rw [hSid sid rfl]
      omega
    have hIn : (⟨.buf 0, sid.length⟩ : Access).Inside len := inside_buf_iff.mpr (Or.inr hFit)
    simp only [write_in_message hMapped' hFit, Option.map_some, Except.map, true_implies]
    rw [respond_after_iff hSide _ (Space.load_put_isSome hMapped')]
    simp only [hIn, and_true]
    exact Iff.rfl

theorem flushCrypt_contained_iff {port : Port Fcrypt} {buf w : Nat}
    (hMapped : Mapped buf len port.mem) :
    Contained len (flushCrypt (cryptodev K) L port buf w).1.mem ↔
      (Contained len (ioctlCrypt (cryptodev K) L port buf).1.mem ∧
        ∀ crypt, (ioctlCrypt (cryptodev K) L port buf).2 = some (.ok crypt) → 0 < crypt.len →
          L.dstpOff + crypt.len ≤ len) ∧
        (outcome (cryptodev K) L port buf .CIOCCRYPT = some (.ok ()) → ResponseFits L len port) := by
  have hSide := (ioctlCrypt_leaves (cryptodev K) L port buf).sameSide
  have hMapped' := ioctlCrypt_keeps_mapped (L := L) (cryptodev_keepsMapped K) buf hMapped
  unfold flushCrypt outcome
  generalize ioctlCrypt (cryptodev K) L port buf = r at hSide hMapped' ⊢
  rcases r with ⟨q, _ | _ | crypt⟩
  · simp [segv]
  · simp [ret, Except.map]
  · have hZero : (crypt.len = 0 ∨ L.dstpOff + crypt.len ≤ len) ↔
        (0 < crypt.len → L.dstpOff + crypt.len ≤ len) := by
      rw [Nat.pos_iff_ne_zero]
      tauto
    simp only [Option.map_some, Except.map, true_implies, Option.some.injEq, Except.ok.injEq,
      forall_eq']
    rw [respond_after_iff hSide _ hMapped', inside_buf_iff, hZero]

/-- Whether the MAC key is read does not depend on the log. -/
theorem readsMackey_congr (m m' : HostMem) (h : m.space = m'.space) {fcr : Fcrypt}
    {sop : SessionOp HostPtr} :
    ReadsMackey K (hostSpace base) fcr m sop ↔ ReadsMackey K (hostSpace base) fcr m' sop := by
  have hKey : ((hostSpace base).copyFromUser m sop.key sop.keylen).1 =
      ((hostSpace base).copyFromUser m' sop.key sop.keylen).1 := by
    simp only [hostSpace, HostMem.read, h]
  unfold ReadsMackey
  simp only [setupCipher_congr rfl hKey]

section Ioctl

variable {port : Port Fcrypt} {buf : Nat} {data : Bytes}

theorem ioctlGsession_contained_iff (hCmd : L.cmdOff + 4 ≤ len)
    (hLoad : port.mem.space.load buf len = some data) (hm : Contained len port.mem) :
    Contained len (ioctlGsession (cryptodev K) L port buf).1.mem ↔
      ∀ fd, port.crInfo = .live (some fd) →
        ReadsMackey K (hostSpace buf) fd port.mem (sessionOp L (slice data 0 OP_SIZE)) →
          (sessionOp L (slice data 0 OP_SIZE)).mackeylen = 0 := by
  have hBounds := L.cmdOff_bounds
  rw [L.ivpOff_eq] at hBounds
  have hOp : port.mem.space.load (buf + 0) OP_SIZE = some (slice data 0 OP_SIZE) :=
    Space.load_slice hLoad (by unfold OP_SIZE; omega)
  have hm' : Contained len (port.mem.read buf (.buf 0) OP_SIZE).2 :=
    contained_append.mpr ⟨hm, inside_buf_iff.mpr (Or.inr (by unfold OP_SIZE; omega))⟩
  have hRead : port.mem.read buf (.buf 0) OP_SIZE =
      (some (slice data 0 OP_SIZE), (port.mem.read buf (.buf 0) OP_SIZE).2) := by
    unfold HostMem.read HostPtr.resolve
    rw [hOp]
  unfold ioctlGsession
  rw [hRead]
  rcases hInfo : port.crInfo with _ | _ | (_ | fd)
  · simpa using hm'
  · simpa using hm'
  · simpa using hm'
  · simp only [CrInfo.live.injEq, Option.some.injEq, forall_eq']
    have hReads : ReadsMackey K (hostSpace buf) fd (port.mem.read buf (.buf 0) OP_SIZE).2
        (sessionOp L (slice data 0 OP_SIZE)) ↔
        ReadsMackey K (hostSpace buf) fd port.mem (sessionOp L (slice data 0 OP_SIZE)) :=
      readsMackey_congr (port.mem.read buf (.buf 0) OP_SIZE).2 port.mem rfl
    rw [← hReads]
    exact createSession_contained_iff rfl rfl hCmd hm'

theorem ioctlFsession_contained (hCmd : L.cmdOff + 4 ≤ len) (hm : Contained len port.mem) :
    Contained len (ioctlFsession (cryptodev K) port buf).1.mem := by
  have hBounds := L.cmdOff_bounds
  rw [L.ivpOff_eq] at hBounds
  have hm' : Contained len (port.mem.read buf (.buf 0) 4).2 :=
    contained_append.mpr ⟨hm, inside_buf_iff.mpr (Or.inr (by omega))⟩
  unfold ioctlFsession
  generalize port.mem.read buf (.buf 0) 4 = r at hm' ⊢
  rcases r with ⟨_ | sid, m⟩
  · exact hm'
  · rcases port.crInfo with _ | _ | (_ | fd) <;> exact hm'

theorem ioctlCrypt_contained_iff (hCmd : L.cmdOff + 4 ≤ len)
    (hLoad : port.mem.space.load buf len = some data) (hm : Contained len port.mem) :
    (Contained len (ioctlCrypt (cryptodev K) L port buf).1.mem ∧
        ∀ crypt, (ioctlCrypt (cryptodev K) L port buf).2 = some (.ok crypt) → 0 < crypt.len →
          L.dstpOff + crypt.len ≤ len) ↔
      ∀ fd, port.crInfo = .live (some fd) →
        ∀ ses, fd.getSessionBySid (cryptOp L (slice data 0 OP_SIZE)).ses = some ses →
          CryptFits K L len fd (cryptOp L (slice data 0 OP_SIZE)) ses := by
  have hBounds := L.cmdOff_bounds
  have hPos := L.dataMax_pos
  rw [L.ivpOff_eq] at hBounds
  have hOp : port.mem.space.load (buf + 0) OP_SIZE = some (slice data 0 OP_SIZE) :=
    Space.load_slice hLoad (by unfold OP_SIZE; omega)
  have hDst : port.mem.space.load (buf + L.dstpOff) 1 = some (slice data L.dstpOff 1) :=
    Space.load_slice hLoad (by rw [L.dstpOff_eq]; omega)
  have hm₁ : Contained len (port.mem.read buf (.buf 0) OP_SIZE).2 :=
    contained_append.mpr ⟨hm, inside_buf_iff.mpr (Or.inr (by unfold OP_SIZE; omega))⟩
  have hm₂ : Contained len ((port.mem.read buf (.buf 0) OP_SIZE).2.read buf (.buf L.dstpOff) 1).2 :=
    contained_append.mpr ⟨hm₁, inside_buf_iff.mpr (Or.inr (by rw [L.dstpOff_eq]; omega))⟩
  have hMapped : Mapped buf len
      ((port.mem.read buf (.buf 0) OP_SIZE).2.read buf (.buf L.dstpOff) 1).2 :=
    Option.isSome_iff_exists.mpr ⟨data, hLoad⟩
  have hRead : port.mem.read buf (.buf 0) OP_SIZE =
      (some (slice data 0 OP_SIZE), (port.mem.read buf (.buf 0) OP_SIZE).2) := by
    unfold HostMem.read HostPtr.resolve
    rw [hOp]
  have hRead' : (port.mem.read buf (.buf 0) OP_SIZE).2.read buf (.buf L.dstpOff) 1 =
      (some (slice data L.dstpOff 1),
        ((port.mem.read buf (.buf 0) OP_SIZE).2.read buf (.buf L.dstpOff) 1).2) := by
    unfold HostMem.read HostPtr.resolve
    rw [hDst]
  unfold ioctlCrypt
  rw [hRead]
  simp only
  rw [hRead']
  rcases hInfo : port.crInfo with _ | _ | (_ | fd)
  · simpa using hm₂
  · simpa using hm₂
  · simpa using hm₂
  · have hPtr : Repointed L (cryptOp L (slice data 0 OP_SIZE)) := ⟨rfl, rfl, rfl, ⟨_, rfl⟩⟩
    have hIff := crypt_contained_iff (K := K) fd hPtr hMapped hm₂
    simp only [CrInfo.live.injEq, Option.some.injEq, forall_eq']
    rw [← hIff]
    simp only [cryptodev]
    generalize cryptoCrypt K (hostSpace buf) fd _ (cryptOp L (slice data 0 OP_SIZE)) = r
    rcases r with ⟨fd', m, e | _⟩ <;> simp [Except.map]

end Ioctl

-- ---------------------------------------------------------------------------
-- The whole call
-- ---------------------------------------------------------------------------

section Mono

variable {port q : Port Fcrypt} {buf w : Nat} {a : Access}

theorem respond_mono (h : a ∈ q.mem.log) : a ∈ (respond L q buf w).1.mem.log := by
  unfold respond virtioSerialWrite
  by_cases hConn : (q.hostConnected && q.guestConnected) = true
  swap
  · rw [if_neg hConn]
    exact h
  by_cases hReady : q.ivq.ready = true
  swap
  · rw [if_pos hConn, if_neg hReady]
    exact h
  have hLoop : a ∈ (writeLoop buf L.sizeof q.ivq.avail 0 q.mem).mem.log :=
    writeLoop_logged q.ivq.avail h
  rw [if_pos hConn, if_pos hReady]
  generalize writeLoop buf L.sizeof q.ivq.avail 0 q.mem = r at hLoop ⊢
  rcases r with ⟨mem, used, avail, _ | _⟩ <;> exact hLoop

theorem ioctlGsession_mono (buf : Nat) (h : a ∈ port.mem.log) :
    a ∈ (ioctlGsession (cryptodev K) L port buf).1.mem.log := by
  have hRead : a ∈ (port.mem.read buf (.buf 0) OP_SIZE).2.log := List.mem_append_left _ h
  unfold ioctlGsession
  generalize port.mem.read buf (.buf 0) OP_SIZE = r at hRead ⊢
  rcases r with ⟨_ | raw, m⟩
  · exact hRead
  rcases port.crInfo with _ | _ | (_ | fd)
  · exact hRead
  · exact hRead
  · exact hRead
  · exact cryptoCreateSession_keeps (keeps_logged buf a) (fun _ => trivial) (fun _ => trivial) hRead

theorem ioctlCrypt_mono (buf : Nat) (h : a ∈ port.mem.log) :
    a ∈ (ioctlCrypt (cryptodev K) L port buf).1.mem.log := by
  have hRead : a ∈ (port.mem.read buf (.buf 0) OP_SIZE).2.log := List.mem_append_left _ h
  unfold ioctlCrypt
  generalize port.mem.read buf (.buf 0) OP_SIZE = r at hRead ⊢
  rcases r with ⟨_ | raw, m⟩
  · exact hRead
  simp only
  have hRead' : a ∈ (m.read buf (.buf L.dstpOff) 1).2.log := List.mem_append_left _ hRead
  generalize m.read buf (.buf L.dstpOff) 1 = r at hRead' ⊢
  rcases r with ⟨_ | d, m'⟩
  · exact hRead'
  rcases port.crInfo with _ | _ | (_ | fd)
  · exact hRead'
  · exact hRead'
  · exact hRead'
  · exact cryptoCrypt_keeps (keeps_logged buf a) (fun _ _ _ => trivial)
      (fun _ _ _ _ _ _ _ => ⟨trivial, trivial⟩) (fun _ _ _ _ => trivial) hRead'

theorem ioctlFsession_mono (buf : Nat) (h : a ∈ port.mem.log) :
    a ∈ (ioctlFsession (cryptodev K) port buf).1.mem.log := by
  have hRead : a ∈ (port.mem.read buf (.buf 0) 4).2.log := List.mem_append_left _ h
  unfold ioctlFsession
  generalize port.mem.read buf (.buf 0) 4 = r at hRead ⊢
  rcases r with ⟨_ | sid, m⟩
  · exact hRead
  rcases port.crInfo with _ | _ | (_ | fd) <;> exact hRead

theorem flushCase_mono (buf w : Nat) (h : a ∈ port.mem.log) (c : Cmd) :
    a ∈ (flushCase (cryptodev K) L port buf w c).1.mem.log := by
  cases c with
  | CIOCGSESSION =>
    have hIoctl := ioctlGsession_mono (K := K) (L := L) buf h
    unfold flushCase flushGsession
    generalize ioctlGsession (cryptodev K) L port buf = r at hIoctl ⊢
    rcases r with ⟨q, _ | _ | sess⟩
    · exact hIoctl
    · exact hIoctl
    · simp only
      have hWrite := (keeps_logged buf a).write q.mem (.buf SES_OFF) (toLE 4 sess.ses) trivial hIoctl
      rw [show (hostSpace buf).copyToUser q.mem (.buf SES_OFF) (toLE 4 sess.ses) =
        q.mem.write buf (.buf SES_OFF) (toLE 4 sess.ses) from rfl] at hWrite
      generalize q.mem.write buf (.buf SES_OFF) (toLE 4 sess.ses) = r at hWrite ⊢
      rcases r with ⟨_ | _, m⟩
      · exact hWrite
      · exact respond_mono hWrite
  | CIOCCRYPT =>
    have hIoctl := ioctlCrypt_mono (K := K) (L := L) buf h
    unfold flushCase flushCrypt
    generalize ioctlCrypt (cryptodev K) L port buf = r at hIoctl ⊢
    rcases r with ⟨q, _ | _ | crypt⟩
    · exact hIoctl
    · exact hIoctl
    · exact respond_mono (List.mem_append_left _ hIoctl)
  | CIOCFSESSION =>
    have hIoctl := ioctlFsession_mono (K := K) buf h
    unfold flushCase flushFsession
    generalize ioctlFsession (cryptodev K) port buf = r at hIoctl ⊢
    rcases r with ⟨q, _ | _ | sid⟩
    · exact hIoctl
    · exact hIoctl
    · simp only
      have hWrite := (keeps_logged buf a).write q.mem (.buf 0) sid trivial hIoctl
      rw [show (hostSpace buf).copyToUser q.mem (.buf 0) sid = q.mem.write buf (.buf 0) sid
        from rfl] at hWrite
      generalize q.mem.write buf (.buf 0) sid = r at hWrite ⊢
      rcases r with ⟨_ | _, m⟩
      · exact hWrite
      · exact respond_mono hWrite

end Mono

/-- What a buffer of `len` bytes at `buf` with contents `data` must satisfy: it is
long enough for the command word and, where a response is written, for what of the
message is written; a MAC key is not read; IV and data of an operation fit and it owes no
digest. -/
structure Isolated (K : Kernel) (L : Layout) (port : Port Fcrypt) (buf len : Nat) (data : Bytes) :
    Prop where
  cmd : L.cmdOff + 4 ≤ len
  mackey : Cmd.ofWord (u32 data L.cmdOff) = some .CIOCGSESSION →
    ∀ fd, port.crInfo = .live (some fd) →
      ReadsMackey K (hostSpace buf) fd port.mem (sessionOp L (slice data 0 OP_SIZE)) →
        (sessionOp L (slice data 0 OP_SIZE)).mackeylen = 0
  crypt : Cmd.ofWord (u32 data L.cmdOff) = some .CIOCCRYPT →
    ∀ fd, port.crInfo = .live (some fd) →
      ∀ ses, fd.getSessionBySid (cryptOp L (slice data 0 OP_SIZE)).ses = some ses →
        CryptFits K L len fd (cryptOp L (slice data 0 OP_SIZE)) ses
  response : ∀ c, Cmd.ofWord (u32 data L.cmdOff) = some c →
    outcome (cryptodev K) L (cmdRead L port buf) buf c = some (.ok ()) → ResponseFits L len port

/-- The branch for a command, on a buffer that holds the command word. -/
theorem flushCase_contained_iff {port : Port Fcrypt} {buf w : Nat} {data : Bytes} {c : Cmd}
    (hCmd : L.cmdOff + 4 ≤ len) (hLoad : port.mem.space.load buf len = some data)
    (hm : Contained len port.mem) :
    Contained len (flushCase (cryptodev K) L port buf w c).1.mem ↔
      (c = .CIOCGSESSION → ∀ fd, port.crInfo = .live (some fd) →
        ReadsMackey K (hostSpace buf) fd port.mem (sessionOp L (slice data 0 OP_SIZE)) →
          (sessionOp L (slice data 0 OP_SIZE)).mackeylen = 0) ∧
      (c = .CIOCCRYPT → ∀ fd, port.crInfo = .live (some fd) →
        ∀ ses, fd.getSessionBySid (cryptOp L (slice data 0 OP_SIZE)).ses = some ses →
          CryptFits K L len fd (cryptOp L (slice data 0 OP_SIZE)) ses) ∧
      (outcome (cryptodev K) L port buf c = some (.ok ()) → ResponseFits L len port) := by
  have hMapped : Mapped buf len port.mem := Option.isSome_iff_exists.mpr ⟨data, hLoad⟩
  cases c with
  | CIOCGSESSION =>
    rw [flushCase, flushGsession_contained_iff hCmd hMapped,
      ioctlGsession_contained_iff hCmd hLoad hm]
    simp
  | CIOCCRYPT =>
    rw [flushCase, flushCrypt_contained_iff hMapped, ioctlCrypt_contained_iff hCmd hLoad hm]
    simp
  | CIOCFSESSION =>
    rw [flushCase, flushFsession_contained_iff hCmd hMapped]
    simp [ioctlFsession_contained hCmd hm]

/-- **Host memory isolation.** One call of `flush_buf` on a mapped buffer, from
any state of the port and of its sessions, touches nothing outside the buffer
exactly when the buffer is `Isolated`. -/
theorem flushBuf_contained_iff (K : Kernel) (L : Layout) (port : Port Fcrypt) (buf len : Nat)
    (data : Bytes) (hLog : port.mem.log = []) (hLoad : port.mem.space.load buf len = some data) :
    Contained len (flushBuf (cryptodev K) L port buf len).1.mem ↔
      (port.chr = true → Isolated K L port buf len data) := by
  by_cases hChr : port.chr = true
  swap
  · simp [flushBuf, Contained, hLog, hChr]
  have hBackend : (!port.chr) = false := by simp [hChr]
  have hLogged : (⟨.buf L.cmdOff, 4⟩ : Access) ∈ (cmdRead L port buf).mem.log :=
    port.mem.read_logs buf (.buf L.cmdOff) 4
  have hEmpty : Contained len port.mem := by simp [Contained, hLog]
  by_cases hCmd : L.cmdOff + 4 ≤ len
  swap
  · -- the command word itself is out of the buffer
    refine ⟨fun h => absurd (fit_of_inside (by decide) (h ⟨.buf L.cmdOff, 4⟩ ?_)) hCmd,
      fun h => absurd (h hChr).cmd hCmd⟩
    unfold flushBuf
    rw [hBackend]
    rw [show (cmdRead L port buf).mem = (port.mem.read buf (.buf L.cmdOff) 4).2 from rfl] at hLogged
    generalize port.mem.read buf (.buf L.cmdOff) 4 = r at hLogged ⊢
    rcases r with ⟨_ | word, m⟩
    · exact hLogged
    simp only [Bool.false_eq_true, if_false]
    rcases Cmd.ofWord (ofLE word) with _ | c
    · exact List.mem_append_left _ hLogged
    · have hKept : (⟨.buf L.cmdOff, 4⟩ : Access) ∈ (flushCase (cryptodev K) L
          { port with mem := m } buf (ofLE word) c).1.mem.log := flushCase_mono buf _ hLogged c
      cases c <;> exact hKept
  have hIn : Contained len (cmdRead L port buf).mem :=
    contained_append.mpr ⟨hEmpty, inside_buf_iff.mpr (Or.inr hCmd)⟩
  have hWord : port.mem.space.load (buf + L.cmdOff) 4 = some (slice data L.cmdOff 4) :=
    Space.load_slice hLoad hCmd
  rcases hw : Cmd.ofWord (u32 data L.cmdOff) with _ | c
  · -- the default branch hands the buffer to the chardev
    have hAll : Contained len (flushBuf (cryptodev K) L port buf len).1.mem := by
      unfold flushBuf
      unfold u32 at hw
      simp only [hBackend, Bool.false_eq_true, if_false, HostMem.read, HostPtr.resolve, hWord, hw,
        ret]
      exact contained_append.mpr ⟨hIn, inside_buf_iff.mpr (Or.inr (by omega))⟩
    exact iff_of_true hAll fun _ =>
      ⟨hCmd, fun h => by simp [hw] at h, fun h => by simp [hw] at h, fun c h => by simp [hw] at h⟩
  · have hLoad' : (cmdRead L port buf).mem.space.load buf len = some data := hLoad
    rw [flushBuf_eq_flushCase (cryptodev K) L hChr len hLoad hCmd hw,
      flushCase_contained_iff hCmd hLoad' hIn]
    have hReads : ∀ fd, ReadsMackey K (hostSpace buf) fd (cmdRead L port buf).mem
        (sessionOp L (slice data 0 OP_SIZE)) ↔
        ReadsMackey K (hostSpace buf) fd port.mem (sessionOp L (slice data 0 OP_SIZE)) :=
      fun _ => readsMackey_congr (cmdRead L port buf).mem port.mem rfl
    simp only [hReads]
    constructor
    · rintro ⟨hMac, hCrypt, hResp⟩ -
      refine ⟨hCmd, fun h => hMac ?_, fun h => hCrypt ?_, ?_⟩
      · simpa [hw] using h
      · simpa [hw] using h
      · intro c' hc'
        rw [hw, Option.some.injEq] at hc'
        rw [← hc']
        exact hResp
    · intro h
      refine ⟨?_, ?_, (h hChr).response c hw⟩
      · rintro rfl
        exact (h hChr).mackey hw
      · rintro rfl
        exact (h hChr).crypt hw

theorem finish_contained :
    Contained 120
      (flushBuf (cryptodev nullKernel) smallLayout (requestPort (emptyRequest .CIOCFSESSION)).st 0
        120).1.mem :=
  (flushBuf_contained_iff nullKernel smallLayout (requestPort (emptyRequest .CIOCFSESSION)).st 0 120
    (zeros 116 ++ toLE 4 Cmd.CIOCFSESSION.word) rfl (by decide +kernel)).mpr fun _ =>
    { cmd := by decide
      mackey := fun h => absurd h (by decide +kernel)
      crypt := fun h => absurd h (by decide +kernel)
      response := fun _ _ _ _ _ _ => by decide }

/-- A `CIOCGSESSION` for the null cipher and SHA1 with four bytes of MAC key at
the address 4096. -/
def mackeyRequest : Space :=
  Space.put (fun _ => some 0) 0
    (toLE 4 16 ++ toLE 4 14 ++ zeros 16 ++ toLE 4 4 ++ zeros 4 ++ toLE 8 4096 ++ zeros 76 ++
      toLE 4 Cmd.CIOCGSESSION.word)

/-- The host reads the four bytes at the guest's address, outside the message. -/
theorem mackeyRequest_reads_host :
    (⟨.guest 4096, 4⟩ : Access) ∈
        (flushBuf (cryptodev nullKernel) smallLayout (requestPort mackeyRequest).st 0 120).1.mem.log ∧
      ¬ Contained 120
        (flushBuf (cryptodev nullKernel) smallLayout (requestPort mackeyRequest).st 0 120).1.mem := by
  have hLogged : (⟨.guest 4096, 4⟩ : Access) ∈
      (flushBuf (cryptodev nullKernel) smallLayout (requestPort mackeyRequest).st 0 120).1.mem.log := by
    decide +kernel
  refine ⟨hLogged, fun h => ?_⟩
  have hZero := inside_guest_iff.mp (h _ hLogged)
  omega

end VirtioCrypto.Host
