import VirtioCrypto.Cryptodev.Shape

/-!
# Cryptodev — an ioctl depends on the memory it touches

If accesses to *allowed* ranges cannot tell two memories apart, and the ranges the
arguments name are allowed, then the ioctl cannot tell them apart either. It leaves
the same session table and reports the same result from both.

* `cryptoCreateSession_local` — the key, and the MAC key when `ReadsMackey`;
* `cryptoCrypt_local` — the IV, parts of source and destination, and the MAC
  when `MacDue`.
-/

namespace VirtioCrypto.Cryptodev

open Octets

variable {P M : Type} {K : Kernel} {U : UserSpace P M} {R : M → M → Prop} {Allowed : P → Nat → Prop}

/-- The same value, and related memories after it. -/
inductive SameValue {α : Type} (R : M → M → Prop) : α × M → α × M → Prop
  | mk {m m' : M} (a : α) (h : R m m') : SameValue R (a, m) (a, m')

/-- Related memories, and the same outcome. -/
inductive SameOutcome {β : Type} (R : M → M → Prop) : M × β → M × β → Prop
  | mk {m m' : M} (b : β) (h : R m m') : SameOutcome R (m, b) (m', b)

/-- The same state and outcome, with related memories between them. -/
inductive SameResult {α β : Type} (R : M → M → Prop) : α × M × β → α × M × β → Prop
  | mk {m m' : M} (a : α) (b : β) (h : R m m') : SameResult R (a, m, b) (a, m', b)

/-- An access to an allowed range cannot tell related memories apart. -/
structure Local (U : UserSpace P M) (R : M → M → Prop) (Allowed : P → Nat → Prop) : Prop where
  read : ∀ {m m'} p n, Allowed p n → R m m' →
    SameValue R (U.copyFromUser m p n) (U.copyFromUser m' p n)
  write : ∀ {m m'} p bs, Allowed p bs.length → R m m' →
    SameValue R (U.copyToUser m p bs) (U.copyToUser m' p bs)

-- ---------------------------------------------------------------------------
-- CIOCGSESSION
-- ---------------------------------------------------------------------------

theorem setupCipher_local (h : Local U R Allowed) {m m' : M} {sop : SessionOp P}
    (hKey : sop.keylen ≤ CRYPTO_CIPHER_MAX_KEY_LEN → Allowed sop.key sop.keylen)
    (alg : Option CipherAlg) (hR : R m m') :
    SameOutcome R (setupCipher K U m sop alg) (setupCipher K U m' sop alg) := by
  rcases alg with _ | alg
  · exact .mk _ hR
  rw [setupCipher, setupCipher]
  by_cases hLen : CRYPTO_CIPHER_MAX_KEY_LEN < sop.keylen
  · rw [if_pos hLen, if_pos hLen]
    exact .mk _ hR
  have hRead := h.read _ _ (hKey (not_lt.mp hLen)) hR
  rw [if_neg hLen, if_neg hLen]
  generalize U.copyFromUser m sop.key sop.keylen = r at hRead ⊢
  generalize U.copyFromUser m' sop.key sop.keylen = r' at hRead ⊢
  obtain ⟨key, hR'⟩ := hRead
  rcases key with _ | key
  · exact .mk _ hR'
  simp only
  rcases K.cipher alg with _ | tfm
  · exact .mk _ hR'
  simp only
  split <;> exact .mk _ hR'

theorem setupHash_local (h : Local U R Allowed) {m m' : M} {sop : SessionOp P} (clock : Nat)
    (alg : Option HashAlg)
    (hKey : alg.isSome → sop.mackeylen ≤ CRYPTO_HMAC_MAX_KEY_LEN → U.null sop.mackey = false →
      Allowed sop.mackey sop.mackeylen)
    (hR : R m m') :
    SameOutcome R (setupHash K U clock m sop alg) (setupHash K U clock m' sop alg) := by
  rcases alg with _ | alg
  · exact .mk _ hR
  rw [setupHash, setupHash]
  by_cases hLen : CRYPTO_HMAC_MAX_KEY_LEN < sop.mackeylen
  · rw [if_pos hLen, if_pos hLen]
    exact .mk _ hR
  rw [if_neg hLen, if_neg hLen]
  have hRead : SameValue R
      (if U.null sop.mackey then (some (K.uninitKey clock), m)
        else U.copyFromUser m sop.mackey sop.mackeylen)
      (if U.null sop.mackey then (some (K.uninitKey clock), m')
        else U.copyFromUser m' sop.mackey sop.mackeylen) := by
    by_cases hNull : U.null sop.mackey = true
    · rw [if_pos hNull, if_pos hNull]
      exact .mk _ hR
    · rw [if_neg hNull, if_neg hNull]
      exact h.read _ _ (hKey rfl (not_lt.mp hLen) (by simpa using hNull)) hR
  generalize (if U.null sop.mackey then (some (K.uninitKey clock), m)
    else U.copyFromUser m sop.mackey sop.mackeylen) = r at hRead ⊢
  generalize (if U.null sop.mackey then (some (K.uninitKey clock), m')
    else U.copyFromUser m' sop.mackey sop.mackeylen) = r' at hRead ⊢
  obtain ⟨key, hR'⟩ := hRead
  rcases key with _ | key
  · exact .mk _ hR'
  simp only
  rcases K.hash alg with _ | tfm
  · exact .mk _ hR'
  simp only
  split <;> exact .mk _ hR'

/-- Creating a session depends on the key and, where `ReadsMackey`, the MAC key. -/
theorem cryptoCreateSession_local (h : Local U R Allowed) {fcr : Fcrypt} {m m' : M}
    {sop : SessionOp P}
    (hKey : sop.keylen ≤ CRYPTO_CIPHER_MAX_KEY_LEN → Allowed sop.key sop.keylen)
    (hMackey : ReadsMackey K U fcr m sop → Allowed sop.mackey sop.mackeylen) (hR : R m m') :
    SameResult R (cryptoCreateSession K U fcr m sop) (cryptoCreateSession K U fcr m' sop) := by
  unfold cryptoCreateSession
  by_cases hNone : sop.cipher = 0 ∧ sop.mac = 0
  · rw [if_pos hNone, if_pos hNone]
    exact .mk _ _ hR
  rw [if_neg hNone, if_neg hNone]
  rcases hAlg : algName sop.cipher with _ | alg
  · exact .mk _ _ hR
  rcases hHash : hashName sop.mac with _ | hash
  · exact .mk _ _ hR
  simp only
  by_cases hAlloc : K.kzalloc fcr.clock = true
  swap
  · simp only [hAlloc, Bool.not_false, if_true]
    exact .mk _ _ hR
  simp only [hAlloc, Bool.not_true, Bool.false_eq_true, if_false]
  have hCipher := setupCipher_local (K := K) h hKey alg hR
  -- the MAC key is only reached once the cipher is set up
  have hKey' : ∀ cdata, (setupCipher K U m sop alg).2 = .ok cdata → (hashBeside alg hash).isSome →
      sop.mackeylen ≤ CRYPTO_HMAC_MAX_KEY_LEN → U.null sop.mackey = false →
      Allowed sop.mackey sop.mackeylen := by
    intro cdata hOk hSome hLen hNull
    exact hMackey ⟨hNone, alg, hash, hAlg, hHash, hAlloc, ⟨cdata, hOk⟩, hSome, hLen, hNull⟩
  generalize setupCipher K U m sop alg = r at hCipher hKey' ⊢
  generalize setupCipher K U m' sop alg = r' at hCipher ⊢
  obtain ⟨out, hR₁⟩ := hCipher
  rcases out with e | cdata
  · exact .mk _ _ hR₁
  have hDone := setupHash_local (K := K) h fcr.clock (hashBeside alg hash) (hKey' cdata rfl) hR₁
  simp only
  generalize setupHash K U fcr.clock _ sop (hashBeside alg hash) = r at hDone ⊢
  generalize setupHash K U fcr.clock _ sop (hashBeside alg hash) = r' at hDone ⊢
  obtain ⟨out, hR₂⟩ := hDone
  rcases out with e | hdata
  · exact .mk _ _ hR₂
  simp only
  split <;> exact .mk _ _ hR₂

-- ---------------------------------------------------------------------------
-- CIOCCRYPT
-- ---------------------------------------------------------------------------

theorem runChunk_local (h : Local U R Allowed) (dir : Dir) (ses : CSession) {m m' : M} {src dst : P}
    {cur : Nat} (hSrc : Allowed src cur) (hDst : Allowed dst cur) (hR : R m m') :
    SameResult R (runChunk U dir ses m src dst cur) (runChunk U dir ses m' src dst cur) := by
  have hRead := h.read src cur hSrc hR
  have hLen : ∀ data, (U.copyFromUser m src cur).1 = some data → data.length = cur :=
    fun _ hData => U.length_copyFromUser hData
  unfold runChunk
  generalize U.copyFromUser m src cur = r at hRead hLen ⊢
  generalize U.copyFromUser m' src cur = r' at hRead ⊢
  obtain ⟨data, hR₁⟩ := hRead
  rcases data with _ | data
  · exact .mk _ _ hR₁
  simp only
  split
  · exact .mk _ _ hR₁
  have hOut : (hashNCrypt ses dir data data).2.length = cur :=
    (length_hashNCrypt rfl).trans (hLen data rfl)
  have hWrite := h.write dst (hashNCrypt ses dir data data).2 (by rw [hOut]; exact hDst) hR₁
  generalize U.copyToUser _ dst (hashNCrypt ses dir data data).2 = w at hWrite ⊢
  generalize U.copyToUser _ dst (hashNCrypt ses dir data data).2 = w' at hWrite ⊢
  obtain ⟨ok, hR₂⟩ := hWrite
  rcases ok with _ | _ <;> exact .mk _ _ hR₂

/-- What is left of a range whose parts are allowed has allowed parts. -/
theorem allowed_rest {p : P} {nbytes cur : Nat}
    (hp : ∀ o k, o + k ≤ nbytes → Allowed (U.add p o) k) (hCur : cur ≤ nbytes) :
    ∀ o k, o + k ≤ nbytes - cur → Allowed (U.add (U.add p cur) o) k := by
  intro o k hok
  rw [U.add_add]
  exact hp (cur + o) k (by omega)

theorem allowed_first {p : P} {nbytes cur : Nat}
    (hp : ∀ o k, o + k ≤ nbytes → Allowed (U.add p o) k) (hCur : cur ≤ nbytes) : Allowed p cur := by
  rw [← U.add_zero p]
  exact hp 0 cur (by omega)

/-- The bounce-buffer loop depends on parts of the two ranges only. -/
theorem cryptoRunStd_local (h : Local U R Allowed) {dir : Dir} {bufsize : Nat} (fuel : Nat)
    {ses : CSession} {m m' : M} {src dst : P} {nbytes : Nat}
    (hSrc : ∀ o k, o + k ≤ nbytes → Allowed (U.add src o) k)
    (hDst : ∀ o k, o + k ≤ nbytes → Allowed (U.add dst o) k) (hR : R m m') :
    SameResult R (cryptoRunStd U dir bufsize fuel ses m src dst nbytes)
      (cryptoRunStd U dir bufsize fuel ses m' src dst nbytes) := by
  induction fuel generalizing ses m m' src dst nbytes with
  | zero => exact .mk _ _ hR
  | succ fuel ih =>
    rw [cryptoRunStd, cryptoRunStd]
    by_cases hDone : nbytes = 0
    · rw [if_pos hDone, if_pos hDone]
      exact .mk _ _ hR
    rw [if_neg hDone, if_neg hDone]
    have hCur : min bufsize nbytes ≤ nbytes := Nat.min_le_right _ _
    generalize min bufsize nbytes = cur at hCur ⊢
    have hOne := runChunk_local h dir ses (allowed_first hSrc hCur) (allowed_first hDst hCur) hR
    generalize runChunk U dir ses m src dst cur = r at hOne ⊢
    generalize runChunk U dir ses m' src dst cur = r' at hOne ⊢
    obtain ⟨ses', out, hR'⟩ := hOne
    rcases out with e | _
    · exact .mk _ _ hR'
    · exact ih (allowed_rest hSrc hCur) (allowed_rest hDst hCur) hR'

theorem runStd_local (h : Local U R Allowed) {clock : Nat} {ses : CSession} {m m' : M} {dir : Dir}
    {cop : CryptOp P} (hSrc : ∀ o k, o + k ≤ cop.len → Allowed (U.add cop.src o) k)
    (hDst : ∀ o k, o + k ≤ cop.len → Allowed (U.add cop.dst o) k) (hR : R m m') :
    SameResult R (runStd K U clock ses m dir cop) (runStd K U clock ses m' dir cop) := by
  unfold runStd
  split
  · exact .mk _ _ hR
  · exact cryptoRunStd_local h _ hSrc hDst hR

theorem runZc_local (h : Local U R Allowed) {clock : Nat} {ses : CSession} {m m' : M} {dir : Dir}
    {cop : CryptOp P} (hSrc : ∀ o k, o + k ≤ cop.len → Allowed (U.add cop.src o) k)
    (hDst : ∀ o k, o + k ≤ cop.len → Allowed (U.add cop.dst o) k) (hR : R m m') :
    SameResult R (runZc K U clock ses m dir cop) (runZc K U clock ses m' dir cop) := by
  have hSrc' := allowed_first hSrc (Nat.le_refl _)
  have hDst' := allowed_first hDst (Nat.le_refl _)
  have hRead := h.read cop.src cop.len hSrc' hR
  have hSrcLen : ∀ src, (U.copyFromUser m cop.src cop.len).1 = some src → src.length = cop.len :=
    fun _ hs => U.length_copyFromUser hs
  unfold runZc
  generalize U.copyFromUser m cop.src cop.len = r at hRead hSrcLen ⊢
  generalize U.copyFromUser m' cop.src cop.len = r' at hRead ⊢
  obtain @⟨m₁, m₁', src, hR₁⟩ := hRead
  rcases src with _ | src
  · exact runStd_local h hSrc hDst hR₁
  have hRead' := h.read cop.dst cop.len hDst' hR₁
  have hDstLen : ∀ dst, (U.copyFromUser m₁ cop.dst cop.len).1 = some dst → dst.length = cop.len :=
    fun _ hd => U.length_copyFromUser hd
  simp only
  generalize U.copyFromUser m₁ cop.dst cop.len = r at hRead' hDstLen ⊢
  generalize U.copyFromUser m₁' cop.dst cop.len = r' at hRead' ⊢
  obtain @⟨m₂, m₂', dst, hR₂⟩ := hRead'
  rcases dst with _ | dst
  · exact runStd_local h hSrc hDst hR₂
  have hOut : (hashNCrypt ses dir src dst).2.length = cop.len := by
    rw [length_hashNCrypt ((hDstLen dst rfl).trans (hSrcLen src rfl).symm), hSrcLen src rfl]
  have hWrite := h.write cop.dst (hashNCrypt ses dir src dst).2 (by rw [hOut]; exact hDst') hR₂
  simp only
  generalize U.copyToUser m₂ cop.dst (hashNCrypt ses dir src dst).2 = w at hWrite ⊢
  generalize U.copyToUser m₂' cop.dst (hashNCrypt ses dir src dst).2 = w' at hWrite ⊢
  obtain ⟨ok, hR₃⟩ := hWrite
  exact .mk _ _ hR₃

theorem runData_local (h : Local U R Allowed) {clock : Nat} {ses : CSession} {m m' : M} {dir : Dir}
    {cop : CryptOp P}
    (hData : 0 < cop.len → ∀ o k, o + k ≤ cop.len →
      Allowed (U.add cop.src o) k ∧ Allowed (U.add cop.dst o) k) (hR : R m m') :
    SameResult R (runData K U clock ses m dir cop) (runData K U clock ses m' dir cop) := by
  unfold runData
  by_cases hLen : cop.len = 0
  · rw [if_pos hLen, if_pos hLen]
    split
    · exact .mk _ _ hR
    · rcases K.uninitRet clock with _ | e <;> exact .mk _ _ hR
  have hData' := hData (Nat.pos_of_ne_zero hLen)
  have hSrc : ∀ o k, o + k ≤ cop.len → Allowed (U.add cop.src o) k := fun o k hok => (hData' o k hok).1
  have hDst : ∀ o k, o + k ≤ cop.len → Allowed (U.add cop.dst o) k := fun o k hok => (hData' o k hok).2
  rw [if_neg hLen, if_neg hLen]
  split
  · exact runStd_local h hSrc hDst hR
  · exact runZc_local h hSrc hDst hR

theorem cryptoRun_local (h : Local U R Allowed) (clock : Nat) (ses : CSession) {m m' : M}
    (cop : CryptOp P) (iv : Bytes)
    (hData : Runs K clock ses cop → 0 < cop.len → ∀ o k, o + k ≤ cop.len →
      Allowed (U.add cop.src o) k ∧ Allowed (U.add cop.dst o) k) (hR : R m m') :
    SameResult R (cryptoRun K U clock ses m cop iv) (cryptoRun K U clock ses m' cop iv) := by
  unfold cryptoRun
  rcases hDir : Dir.ofOp cop.op with _ | dir
  · exact .mk _ _ hR
  simp only
  rcases hSet : setIv (hashReset ses cop) cop iv with _ | ses₁
  · exact .mk _ _ hR
  simp only
  have hRan : SameResult R (runData K U clock ses₁ m dir cop) (runData K U clock ses₁ m' dir cop) := by
    by_cases hPage : 0 < cop.len → cop.noZc = true → K.getFreePage clock = true
    · exact runData_local h (hData ⟨by rw [hDir]; rfl, blocks_of_setIv hSet, hPage⟩) hR
    · push Not at hPage
      obtain ⟨hLen, hStd, hNone⟩ := hPage
      rw [runData_noPage hLen hStd (by simpa using hNone),
        runData_noPage hLen hStd (by simpa using hNone)]
      exact .mk _ _ hR
  generalize runData K U clock ses₁ m dir cop = r at hRan ⊢
  generalize runData K U clock ses₁ m' dir cop = r' at hRan ⊢
  obtain ⟨ses₂, out, hR₁⟩ := hRan
  rcases out with e | _
  · exact .mk _ _ hR₁
  · simp only
    split <;> exact .mk _ _ hR₁

/-- The register goes back to the caller, on request. -/
theorem fillIv_local (h : Local U R Allowed) {m m' : M} {cop : CryptOp P} {reg : Bytes} {ivlen : Nat}
    (hIv : ivlen ≠ 0 → Allowed cop.iv reg.length) (hR : R m m') :
    let fill : M → M × Except Errno Unit := fun m =>
      if ivlen ≠ 0 ∧ cop.writeIv then
        match U.copyToUser m cop.iv reg with
        | (false, m) => (m, .error .EFAULT)
        | (true, m) => (m, .ok ())
      else (m, .ok ())
    SameOutcome R (fill m) (fill m') := by
  simp only
  by_cases hWrite : ivlen ≠ 0 ∧ cop.writeIv
  swap
  · rw [if_neg hWrite, if_neg hWrite]
    exact .mk _ hR
  have hWritten := h.write cop.iv reg (hIv hWrite.1) hR
  rw [if_pos hWrite, if_pos hWrite]
  generalize U.copyToUser m cop.iv reg = w at hWritten ⊢
  generalize U.copyToUser m' cop.iv reg = w' at hWritten ⊢
  obtain ⟨ok, hR'⟩ := hWritten
  rcases ok with _ | _ <;> exact .mk _ hR'

theorem fillCopFromKcop_local (h : Local U R Allowed) {m m' : M} {cop : CryptOp P} {ses : CSession}
    {ivlen : Nat} {digest : Option Bytes}
    (hMac : ∀ d, digest = some d → d.length ≠ 0 → Allowed cop.mac d.length)
    (hIv : ivlen ≠ 0 → Allowed cop.iv ((ses.cdata.map CipherData.iv).getD []).length)
    (hR : R m m') :
    SameOutcome R (fillCopFromKcop U m cop ses ivlen digest)
      (fillCopFromKcop U m' cop ses ivlen digest) := by
  unfold fillCopFromKcop
  rcases digest with _ | d
  · exact fillIv_local h hIv hR
  by_cases hd : d.length = 0
  · simp only [hd, if_true]
    exact fillIv_local h hIv hR
  have hWritten := h.write cop.mac d (hMac d rfl hd) hR
  simp only [hd, if_false]
  generalize U.copyToUser m cop.mac d = w at hWritten ⊢
  generalize U.copyToUser m' cop.mac d = w' at hWritten ⊢
  obtain ⟨ok, hR'⟩ := hWritten
  rcases ok with _ | _
  · exact .mk _ hR'
  · exact fillIv_local h hIv hR'

/-- An operation depends on the IV, on parts of source and destination when it
`Runs`, and on the MAC when one is due. -/
theorem cryptoCrypt_local (h : Local U R Allowed) {fcr : Fcrypt} {m m' : M} {cop : CryptOp P}
    (hIv : ∀ ses, fcr.getSessionBySid cop.ses = some ses → U.null cop.iv = false →
      Allowed cop.iv ses.ivsize)
    (hData : ∀ ses, fcr.getSessionBySid cop.ses = some ses → Runs K fcr.clock ses cop →
      0 < cop.len → ∀ o k, o + k ≤ cop.len →
        Allowed (U.add cop.src o) k ∧ Allowed (U.add cop.dst o) k)
    (hMac : ∀ ses, fcr.getSessionBySid cop.ses = some ses → Runs K fcr.clock ses cop →
      MacDue ses cop → Allowed cop.mac ses.digestsize)
    (hR : R m m') :
    SameResult R (cryptoCrypt K U fcr m cop) (cryptoCrypt K U fcr m' cop) := by
  unfold cryptoCrypt
  rcases hSes : fcr.getSessionBySid cop.ses with _ | ses
  · exact .mk _ _ hR
  simp only
  have hRead : SameValue R
      (if U.null cop.iv then (some [], m) else U.copyFromUser m cop.iv ses.ivsize)
      (if U.null cop.iv then (some [], m') else U.copyFromUser m' cop.iv ses.ivsize) := by
    by_cases hNull : U.null cop.iv = true
    · rw [if_pos hNull, if_pos hNull]
      exact .mk _ hR
    · rw [if_neg hNull, if_neg hNull]
      exact h.read _ _ (hIv ses hSes (by simpa using hNull)) hR
  have hNull : ∀ iv, (if U.null cop.iv then (some [], m)
      else U.copyFromUser m cop.iv ses.ivsize).1 = some iv → iv.length ≠ 0 →
      U.null cop.iv = false := fun iv => notNull_of_iv
  generalize (if U.null cop.iv then (some [], m)
    else U.copyFromUser m cop.iv ses.ivsize) = r at hRead hNull ⊢
  generalize (if U.null cop.iv then (some [], m')
    else U.copyFromUser m' cop.iv ses.ivsize) = r' at hRead ⊢
  obtain @⟨m₁, m₁', iv, hR₁⟩ := hRead
  rcases iv with _ | iv
  · exact .mk _ _ hR₁
  simp only
  have hRan := cryptoRun_local (K := K) h fcr.clock ses cop iv (hData ses hSes) hR₁
  have hShape := cryptoRun_shape (K := K) (U := U) fcr.clock ses m₁ cop iv
  rcases hRun : cryptoRun K U fcr.clock ses m₁ cop iv with ⟨ses₁, m₂, out⟩
  rw [hRun] at hRan hShape
  generalize cryptoRun K U fcr.clock ses m₁' cop iv = r' at hRan ⊢
  obtain @⟨_, m₂', _, _, hR₂⟩ := hRan
  rcases out with e | digest
  · exact .mk _ _ hR₂
  simp only
  have hFill : SameOutcome R (fillCopFromKcop U m₂ cop ses₁ iv.length digest)
      (fillCopFromKcop U m₂' cop ses₁ iv.length digest) := by
    refine fillCopFromKcop_local h (fun d hd hne => ?_) (fun hne => ?_) hR₂
    · rw [hd] at hRun
      obtain ⟨hLen, hDue⟩ := cryptoRun_digest hRun
      rw [hLen]
      exact hMac ses hSes (runs_of_cryptoRun_ok hRun) (hDue hne)
    · rw [length_iv, hShape.ivsize]
      exact hIv ses hSes (hNull iv rfl hne)
  generalize fillCopFromKcop U m₂ cop ses₁ iv.length digest = r at hFill ⊢
  generalize fillCopFromKcop U m₂' cop ses₁ iv.length digest = r' at hFill ⊢
  obtain ⟨out, hR₃⟩ := hFill
  exact .mk _ _ hR₃

end VirtioCrypto.Cryptodev
