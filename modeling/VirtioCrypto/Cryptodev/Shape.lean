import VirtioCrypto.Cryptodev.Ioctl

/-!
# Cryptodev — how far an ioctl gets

What decides which memory an ioctl touches: the tests it has to pass before it
copies the MAC key (`ReadsMackey`) or gets to the data (`Runs`), whether it owes a
digest (`MacDue`), and the sizes of a session, which no operation changes.

* `cryptoRun_shape` — an operation leaves number and algorithms of the session;
* `cryptoRun_of_runs` — an operation that `Runs` is its data part and the digest;
* `cryptoRun_digest` — a digest that is handed back was due.
-/

namespace VirtioCrypto.Cryptodev

open Octets

variable {P M : Type} {K : Kernel} {U : UserSpace P M}

/-- `crypto_create_session` gets as far as copying the MAC key. -/
def ReadsMackey (K : Kernel) (U : UserSpace P M) (fcr : Fcrypt) (m : M) (sop : SessionOp P) :
    Prop :=
  ¬ (sop.cipher = 0 ∧ sop.mac = 0) ∧ ∃ alg hash, algName sop.cipher = some alg ∧
    hashName sop.mac = some hash ∧ K.kzalloc fcr.clock = true ∧
    (∃ cdata, (setupCipher K U m sop alg).2 = .ok cdata) ∧
    (hashBeside alg hash).isSome ∧ sop.mackeylen ≤ CRYPTO_HMAC_MAX_KEY_LEN ∧
    U.null sop.mackey = false

-- ---------------------------------------------------------------------------
-- The shape of a session
-- ---------------------------------------------------------------------------

/-- What a session writes to the destination is as long as what it read. -/
theorem length_hashNCrypt {ses : CSession} {dir : Dir} {src dst : Bytes}
    (h : dst.length = src.length) : (hashNCrypt ses dir src dst).2.length = src.length := by
  unfold hashNCrypt
  rcases ses.cdata with _ | c
  · exact h
  · exact c.tfm.length_crypt _ _ _ _

/-- The same session with the same algorithms: what an operation changes is the
register and the hash state. -/
structure SameShape (ses ses' : CSession) : Prop where
  sid : ses'.sid = ses.sid
  cipher : ses'.cdata.map CipherData.tfm = ses.cdata.map CipherData.tfm
  hash : ses'.hdata.map HashData.tfm = ses.hdata.map HashData.tfm

theorem SameShape.refl (ses : CSession) : SameShape ses ses := ⟨rfl, rfl, rfl⟩

theorem SameShape.trans {a b c : CSession} (h : SameShape a b) (h' : SameShape b c) :
    SameShape a c :=
  ⟨h'.sid.trans h.sid, h'.cipher.trans h.cipher, h'.hash.trans h.hash⟩

theorem SameShape.ivsize {ses ses' : CSession} (h : SameShape ses ses') :
    ses'.ivsize = ses.ivsize := by
  unfold CSession.ivsize
  rw [h.cipher]

theorem SameShape.digestsize {ses ses' : CSession} (h : SameShape ses ses') :
    ses'.digestsize = ses.digestsize := by
  unfold CSession.digestsize
  rw [h.hash]

theorem hashNCrypt_shape (ses : CSession) (dir : Dir) (src dst : Bytes) :
    SameShape ses (hashNCrypt ses dir src dst).1 := by
  unfold hashNCrypt
  refine ⟨rfl, ?_, ?_⟩
  · rcases ses.cdata with _ | c <;> rfl
  · rcases ses.hdata with _ | h <;> rfl

theorem hashReset_shape (ses : CSession) (cop : CryptOp P) : SameShape ses (hashReset ses cop) := by
  unfold hashReset
  split
  · refine ⟨rfl, rfl, ?_⟩
    rcases ses.hdata with _ | h <;> rfl
  · exact SameShape.refl ses

theorem setIv_shape {ses ses' : CSession} {cop : CryptOp P} {iv : Bytes}
    (h : setIv ses cop iv = some ses') : SameShape ses ses' := by
  unfold setIv at h
  rcases hc : ses.cdata with _ | c
  · simp only [hc, Option.some.injEq] at h
    rw [← h]
    exact SameShape.refl ses
  · simp only [hc] at h
    split at h
    · simp at h
    · simp only [Option.some.injEq] at h
      rw [← h]
      exact ⟨rfl, by rw [hc]; rfl, rfl⟩

theorem runChunk_shape (dir : Dir) (ses : CSession) (m : M) (src dst : P) (cur : Nat) :
    SameShape ses (runChunk U dir ses m src dst cur).1 := by
  unfold runChunk
  rcases U.copyFromUser m src cur with ⟨_ | data, m'⟩
  · exact SameShape.refl ses
  · simp only
    split
    · exact hashNCrypt_shape ses dir data data
    · rcases U.copyToUser m' dst (hashNCrypt ses dir data data).2 with ⟨_ | _, m''⟩ <;>
        exact hashNCrypt_shape ses dir data data

theorem cryptoRunStd_shape {dir : Dir} {bufsize : Nat} (fuel : Nat) {ses : CSession} {m : M}
    {src dst : P} {nbytes : Nat} :
    SameShape ses (cryptoRunStd U dir bufsize fuel ses m src dst nbytes).1 := by
  induction fuel generalizing ses m src dst nbytes with
  | zero => exact SameShape.refl ses
  | succ fuel ih =>
    rw [cryptoRunStd]
    split
    · exact SameShape.refl ses
    · have hOne := runChunk_shape (U := U) dir ses m src dst (min bufsize nbytes)
      generalize runChunk U dir ses m src dst (min bufsize nbytes) = r at hOne ⊢
      rcases r with ⟨ses', m', e | _⟩
      · exact hOne
      · exact hOne.trans ih

theorem runStd_shape {clock : Nat} {ses : CSession} {m : M} {dir : Dir} {cop : CryptOp P} :
    SameShape ses (runStd K U clock ses m dir cop).1 := by
  unfold runStd
  split
  · exact SameShape.refl ses
  · exact cryptoRunStd_shape _

theorem runData_shape (clock : Nat) (ses : CSession) (m : M) (dir : Dir) (cop : CryptOp P) :
    SameShape ses (runData K U clock ses m dir cop).1 := by
  unfold runData
  split
  · split
    · exact SameShape.refl ses
    · rcases K.uninitRet clock with _ | e <;> exact SameShape.refl ses
  · split
    · exact runStd_shape
    · unfold runZc
      rcases U.copyFromUser m cop.src cop.len with ⟨_ | src, m'⟩
      · exact runStd_shape
      · simp only
        rcases U.copyFromUser m' cop.dst cop.len with ⟨_ | dst, m''⟩
        · exact runStd_shape
        · exact hashNCrypt_shape ses dir src dst

/-- The register of a session is as long as its cipher says. -/
theorem length_iv (ses : CSession) : ((ses.cdata.map CipherData.iv).getD []).length = ses.ivsize := by
  unfold CSession.ivsize
  rcases ses.cdata with _ | c
  · rfl
  · exact c.length_iv

-- ---------------------------------------------------------------------------
-- Operations that run
-- ---------------------------------------------------------------------------

/-- `crypto_run` gets as far as the data: the operation is one, whole blocks are
given, and the bounce buffer, if it is asked for, can be had. -/
def Runs (K : Kernel) (clock : Nat) (ses : CSession) (cop : CryptOp P) : Prop :=
  (Dir.ofOp cop.op).isSome ∧ (∀ c, ses.cdata = some c → cop.len % c.tfm.blocksize = 0) ∧
    (0 < cop.len → cop.noZc = true → K.getFreePage clock = true)

/-- A digest is due at the end of the operation. -/
def MacDue (ses : CSession) (cop : CryptOp P) : Prop :=
  ses.digestsize ≠ 0 ∧ (cop.final = true ∨ cop.update = false ∨ cop.len = 0)

/-- A register is only written back where an IV was read. -/
theorem notNull_of_iv {m : M} {p : P} {n : Nat} {iv : Bytes}
    (hIv : (if U.null p then (some [], m) else U.copyFromUser m p n).1 = some iv)
    (hLen : iv.length ≠ 0) : U.null p = false := by
  by_contra hNull
  rw [Bool.not_eq_false] at hNull
  rw [if_pos hNull, Option.some.injEq] at hIv
  exact hLen (by rw [← hIv]; rfl)

theorem hashReset_cdata (ses : CSession) (cop : CryptOp P) :
    (hashReset ses cop).cdata = ses.cdata := by
  unfold hashReset
  split <;> rfl

/-- A session whose length check passed is given whole blocks. -/
theorem blocks_of_setIv {ses ses' : CSession} {cop : CryptOp P} {iv : Bytes}
    (h : setIv (hashReset ses cop) cop iv = some ses') :
    ∀ c, ses.cdata = some c → cop.len % c.tfm.blocksize = 0 := by
  intro c hc
  by_contra hMod
  rw [← hashReset_cdata ses cop] at hc
  simp [setIv, hc, hMod] at h

/-- Without a bounce buffer the operation fails before it touches anything. -/
theorem runData_noPage {clock : Nat} {ses : CSession} {m : M} {dir : Dir} {cop : CryptOp P}
    (hLen : 0 < cop.len) (hStd : cop.noZc = true) (hPage : K.getFreePage clock = false) :
    runData K U clock ses m dir cop = (ses, m, .error .ENOMEM) := by
  simp [runData, Nat.pos_iff_ne_zero.mp hLen, hStd, runStd, hPage]

theorem cryptoRun_shape (clock : Nat) (ses : CSession) (m : M) (cop : CryptOp P) (iv : Bytes) :
    SameShape ses (cryptoRun K U clock ses m cop iv).1 := by
  unfold cryptoRun
  rcases Dir.ofOp cop.op with _ | dir
  · exact SameShape.refl ses
  simp only
  rcases hSet : setIv (hashReset ses cop) cop iv with _ | ses'
  · exact hashReset_shape ses cop
  have hShape := ((hashReset_shape ses cop).trans (setIv_shape hSet)).trans
    (runData_shape (K := K) (U := U) clock ses' m dir cop)
  simp only
  generalize runData K U clock ses' m dir cop = r at hShape ⊢
  rcases r with ⟨ses'', m', e | _⟩
  · exact hShape
  · simp only
    split <;> exact hShape

/-- The digest at the end of an operation, if one is due. -/
def digestOf (ses : CSession) (cop : CryptOp P) : Option Bytes :=
  if cop.final || !cop.update || cop.len = 0 then ses.hdata.map fun h => h.tfm.digest h.key h.acc
  else none

theorem hdata_isSome {ses : CSession} (h : ses.digestsize ≠ 0) : ses.hdata.isSome := by
  cases hHash : ses.hdata with
  | none => exact absurd (by rw [CSession.digestsize, hHash]; rfl) h
  | some _ => rfl

/-- A digest that is due is there. -/
theorem digestOf_of_macDue {ses : CSession} {cop : CryptOp P} (h : MacDue ses cop) :
    ∃ d, digestOf ses cop = some d := by
  have hFlags : (cop.final || !cop.update || decide (cop.len = 0)) = true := by
    simpa [or_assoc] using h.2
  obtain ⟨hash, hHash⟩ := Option.isSome_iff_exists.mp (hdata_isSome h.1)
  unfold digestOf
  rw [if_pos hFlags, hHash]
  exact ⟨_, rfl⟩

/-- An operation that `Runs` is its data part and the digest. -/
theorem cryptoRun_of_runs {clock : Nat} {ses : CSession} {cop : CryptOp P}
    (h : Runs K clock ses cop) (m : M) (iv : Bytes) :
    ∃ dir ses', Dir.ofOp cop.op = some dir ∧ SameShape ses ses' ∧
      (hashReset ses cop).cdata.map (·.setIv iv) = ses'.cdata ∧
      cryptoRun K U clock ses m cop iv =
        match runData K U clock ses' m dir cop with
        | (ses, m, .error e) => (ses, m, .error e)
        | (ses, m, .ok ()) => (ses, m, .ok (digestOf ses cop)) := by
  obtain ⟨hOp, hBlocks, -⟩ := h
  obtain ⟨dir, hDir⟩ := Option.isSome_iff_exists.mp hOp
  obtain ⟨ses', hSet, hCipher⟩ : ∃ ses', setIv (hashReset ses cop) cop iv = some ses' ∧
      (hashReset ses cop).cdata.map (·.setIv iv) = ses'.cdata := by
    unfold setIv
    rcases hc : (hashReset ses cop).cdata with _ | c
    · exact ⟨_, rfl, by rw [hc]; rfl⟩
    · have hMod := hBlocks c (by rw [← hc, hashReset_cdata])
      simp only [hMod, ne_eq, not_true, if_false]
      exact ⟨_, rfl, rfl⟩
  refine ⟨dir, ses', hDir, (hashReset_shape ses cop).trans (setIv_shape hSet), hCipher, ?_⟩
  unfold cryptoRun digestOf
  rw [hDir]
  simp only [hSet]
  rcases runData K U clock ses' m dir cop with ⟨ses'', m', e | _⟩
  · rfl
  · simp only
    split <;> rfl

/-- An operation that succeeded ran. -/
theorem runs_of_cryptoRun_ok {clock : Nat} {ses ses' : CSession} {m m' : M} {cop : CryptOp P}
    {iv : Bytes} {digest : Option Bytes}
    (h : cryptoRun K U clock ses m cop iv = (ses', m', .ok digest)) : Runs K clock ses cop := by
  unfold cryptoRun at h
  rcases hDir : Dir.ofOp cop.op with _ | dir
  · simp [hDir] at h
  simp only [hDir] at h
  rcases hSet : setIv (hashReset ses cop) cop iv with _ | ses₁
  · simp [hSet] at h
  simp only [hSet] at h
  refine ⟨by rw [hDir]; rfl, blocks_of_setIv hSet, fun hLen hStd => ?_⟩
  by_contra hNone
  rw [runData_noPage hLen hStd (by simpa using hNone)] at h
  simp at h

/-- An operation that hands back a digest owed one, and has it in full. -/
theorem cryptoRun_digest {clock : Nat} {ses ses' : CSession} {m m' : M} {cop : CryptOp P}
    {iv d : Bytes} (h : cryptoRun K U clock ses m cop iv = (ses', m', .ok (some d))) :
    d.length = ses.digestsize ∧ (d.length ≠ 0 → MacDue ses cop) := by
  obtain ⟨dir, ses₁, -, hShape, -, hRun⟩ := cryptoRun_of_runs (U := U) (runs_of_cryptoRun_ok h) m iv
  have hShape' := hShape.trans (runData_shape (K := K) (U := U) clock ses₁ m dir cop)
  rw [hRun] at h
  generalize runData K U clock ses₁ m dir cop = r at h hShape'
  rcases r with ⟨ses₂, m₂, e | _⟩
  · simp at h
  simp only [Prod.mk.injEq, Except.ok.injEq] at h
  have hDigest := h.2.2
  unfold digestOf at hDigest
  by_cases hDue : (cop.final || !cop.update || decide (cop.len = 0)) = true
  · rw [if_pos hDue] at hDigest
    have hLen : d.length = ses.digestsize := by
      rw [← hShape'.digestsize]
      unfold CSession.digestsize
      rcases hh : ses₂.hdata with _ | hd
      · simp [hh] at hDigest
      · simp only [hh, Option.map_some, Option.some.injEq] at hDigest
        rw [← hDigest]
        exact hd.tfm.length_digest _ _
    refine ⟨hLen, fun hne => ?_⟩
    simp only [Bool.or_eq_true, Bool.not_eq_true', decide_eq_true_eq, or_assoc] at hDue
    exact ⟨hLen ▸ hne, hDue⟩
  · rw [if_neg hDue] at hDigest
    simp at hDigest

end VirtioCrypto.Cryptodev
