import VirtioCrypto.Cryptodev.Shape

/-!
# Cryptodev — what an ioctl computes

The ioctls depend on user memory through the bytes they read: two address spaces
that supply the same bytes get the same session table and the same result, and
the destination of an operation gets the same contents. Stated for requests
without a MAC and with `flags = 0`.

* `cryptoCreateSession_congr` — a session from the same operation and key is the
  same session;
* `cryptoCreateSession_ok` — what a successful call adds to the table;
* `cryptoCrypt_eq` — an operation, given what it reads (`cryptEffect`).
-/

namespace VirtioCrypto.Cryptodev

open Octets

variable {P P' M M' : Type} {K : Kernel} {U : UserSpace P M} {U' : UserSpace P' M'}

-- ---------------------------------------------------------------------------
-- CIOCGSESSION
-- ---------------------------------------------------------------------------

section Create

variable {m : M} {m' : M'} {sop : SessionOp P} {sop' : SessionOp P'}

theorem setupCipher_congr (hLen : sop'.keylen = sop.keylen)
    (hKey : (U'.copyFromUser m' sop'.key sop.keylen).1 = (U.copyFromUser m sop.key sop.keylen).1)
    (alg : Option CipherAlg) : (setupCipher K U' m' sop' alg).2 = (setupCipher K U m sop alg).2 := by
  cases alg with
  | none => rfl
  | some alg =>
    rw [setupCipher, setupCipher, hLen]
    by_cases hLong : CRYPTO_CIPHER_MAX_KEY_LEN < sop.keylen
    · rw [if_pos hLong, if_pos hLong]
    rw [if_neg hLong, if_neg hLong]
    generalize U.copyFromUser m sop.key sop.keylen = r at hKey ⊢
    generalize U'.copyFromUser m' sop'.key sop.keylen = r' at hKey ⊢
    obtain ⟨key, m₁⟩ := r
    obtain ⟨key', m₁'⟩ := r'
    simp only at hKey
    subst hKey
    cases key' with
    | none => rfl
    | some key =>
      cases K.cipher alg with
      | none => rfl
      | some tfm =>
        simp only
        split <;> rfl

/-- The cipher that was set up is the one asked for. -/
theorem setupCipher_tfm {alg : CipherAlg} {m₁ : M} {c : CipherData}
    (h : setupCipher K U m sop (some alg) = (m₁, .ok (some c))) : K.cipher alg = some c.tfm := by
  rw [setupCipher] at h
  split at h
  · simp at h
  generalize U.copyFromUser m sop.key sop.keylen = r at h
  obtain ⟨key, m₂⟩ := r
  cases key with
  | none => simp at h
  | some key =>
    cases hTfm : K.cipher alg with
    | none => simp [hTfm] at h
    | some tfm =>
      simp only [hTfm] at h
      split at h
      · simp only [Prod.mk.injEq, Except.ok.injEq, Option.some.injEq] at h
        rw [← h.2]
      · simp at h

/-- Without a MAC there is no hash to set up. -/
theorem cryptoCreateSession_noMac (hMac : sop.mac = 0) (fcr : Fcrypt) (m : M) :
    cryptoCreateSession K U fcr m sop =
      if sop.cipher = 0 then (fcr, m, .error .EINVAL) else
      match algName sop.cipher with
      | none => (fcr, m, .error .EINVAL)
      | some alg =>
        if !K.kzalloc fcr.clock then (fcr, m, .error .ENOMEM) else
        match setupCipher K U m sop alg with
        | (m, .error e) => (fcr, m, .error e)
        | (m, .ok cdata) =>
          if !K.kzallocPages fcr.clock then (fcr, m, .error .ENOMEM) else
          let sid := K.freshSid fcr.clock (fcr.list.map CSession.sid)
          ({ fcr with list := ⟨sid, cdata, none⟩ :: fcr.list }, m,
            .ok { sop with raw := patch sop.raw SES_OFF (toLE 4 sid) }) := by
  have hBeside : ∀ alg, hashBeside alg none = none := by
    intro alg
    unfold hashBeside
    split <;> rfl
  unfold cryptoCreateSession
  rw [hMac, show hashName 0 = some none from rfl]
  simp only [and_true]
  by_cases hNone : sop.cipher = 0
  · rw [if_pos hNone, if_pos hNone]
  rw [if_neg hNone, if_neg hNone]
  cases algName sop.cipher with
  | none => rfl
  | some alg =>
    refine ite_congr rfl (fun _ => rfl) fun _ => ?_
    generalize setupCipher K U m sop alg = r
    obtain ⟨m₁, out⟩ := r
    cases out with
    | error e => rfl
    | ok cdata => simp only [hBeside, setupHash]

/-- The same operation and the same key make the same session. -/
theorem cryptoCreateSession_congr (hMac : sop.mac = 0) (hRaw : sop'.raw = sop.raw)
    (hKey : (U'.copyFromUser m' sop'.key sop.keylen).1 = (U.copyFromUser m sop.key sop.keylen).1)
    (fcr : Fcrypt) :
    (cryptoCreateSession K U' fcr m' sop').1 = (cryptoCreateSession K U fcr m sop).1 ∧
      (cryptoCreateSession K U' fcr m' sop').2.2.map SessionOp.raw =
        (cryptoCreateSession K U fcr m sop).2.2.map SessionOp.raw := by
  have hLen : sop'.keylen = sop.keylen := by rw [SessionOp.keylen, hRaw]; rfl
  have hCipher : sop'.cipher = sop.cipher := by rw [SessionOp.cipher, hRaw]; rfl
  have hMac' : sop'.mac = 0 := by rw [SessionOp.mac, hRaw]; exact hMac
  rw [cryptoCreateSession_noMac hMac, cryptoCreateSession_noMac hMac', hCipher, hRaw]
  split
  · exact ⟨rfl, rfl⟩
  cases algName sop.cipher with
  | none => exact ⟨rfl, rfl⟩
  | some alg =>
    simp only
    split
    · exact ⟨rfl, rfl⟩
    have hSame := setupCipher_congr (K := K) hLen hKey alg
    generalize setupCipher K U m sop alg = r at hSame ⊢
    generalize setupCipher K U' m' sop' alg = r' at hSame ⊢
    obtain ⟨m₁, out⟩ := r
    obtain ⟨m₁', out'⟩ := r'
    simp only at hSame
    subst hSame
    cases out' with
    | error e => exact ⟨rfl, rfl⟩
    | ok cdata =>
      simp only
      split <;> exact ⟨rfl, rfl⟩

/-- Where one caller gets a session, so does the other. -/
theorem cryptoCreateSession_ok_congr (hMac : sop.mac = 0) (hRaw : sop'.raw = sop.raw)
    (hKey : (U'.copyFromUser m' sop'.key sop.keylen).1 = (U.copyFromUser m sop.key sop.keylen).1)
    {fcr fcr' : Fcrypt} {m₁ : M} {out : SessionOp P}
    (h : cryptoCreateSession K U fcr m sop = (fcr', m₁, .ok out)) :
    ∃ m₁' out', cryptoCreateSession K U' fcr m' sop' = (fcr', m₁', .ok out') ∧
      out'.raw = out.raw := by
  obtain ⟨hSame, hSameRaw⟩ := cryptoCreateSession_congr (K := K) hMac hRaw hKey fcr
  rw [h] at hSame hSameRaw
  generalize cryptoCreateSession K U' fcr m' sop' = r at hSame hSameRaw ⊢
  obtain ⟨fcr₂, m₂, res⟩ := r
  simp only at hSame
  subst hSame
  cases res with
  | error e => simp [Except.map] at hSameRaw
  | ok out' => exact ⟨m₂, out', rfl, by simpa [Except.map] using hSameRaw⟩

/-- A successful call adds one session, of a cipher the kernel has, and tells the
caller its number. -/
theorem cryptoCreateSession_ok {fcr fcr' : Fcrypt} {m₁ : M} {out : SessionOp P} (hMac : sop.mac = 0)
    (h : cryptoCreateSession K U fcr m sop = (fcr', m₁, .ok out)) :
    ∃ sid cdata, fcr' = { fcr with list := ⟨sid, cdata, none⟩ :: fcr.list } ∧
      out.raw = patch sop.raw SES_OFF (toLE 4 sid) ∧
      (∀ c, cdata = some c → ∃ alg, K.cipher alg = some c.tfm) := by
  rw [cryptoCreateSession_noMac hMac] at h
  split at h
  · simp at h
  cases hAlg : algName sop.cipher with
  | none => simp [hAlg] at h
  | some alg =>
    simp only [hAlg] at h
    split at h
    · simp at h
    cases hSetup : setupCipher K U m sop alg with
    | mk m₂ res =>
      cases res with
      | error e => simp [hSetup] at h
      | ok cdata =>
        simp only [hSetup] at h
        split at h
        · simp at h
        simp only [Prod.mk.injEq, Except.ok.injEq] at h
        obtain ⟨hFcr, -, hOut⟩ := h
        refine ⟨_, cdata, hFcr.symm, by rw [← hOut], ?_⟩
        rintro c rfl
        cases alg with
        | none => simp [setupCipher] at hSetup
        | some alg => exact ⟨alg, setupCipher_tfm hSetup⟩

/-- What a read leaves alone, the set-up of a cipher leaves alone. -/
theorem setupCipher_reads {β : Type} (sop : SessionOp P) (view : M → β)
    (hRead : ∀ m p n, view (U.copyFromUser m p n).2 = view m) (m : M) (alg : Option CipherAlg) :
    view (setupCipher K U m sop alg).1 = view m := by
  cases alg with
  | none => rfl
  | some alg =>
    rw [setupCipher]
    split
    · rfl
    have hKey := hRead m sop.key sop.keylen
    generalize U.copyFromUser m sop.key sop.keylen = r at hKey ⊢
    obtain ⟨key, m₁⟩ := r
    cases key with
    | none => exact hKey
    | some key =>
      cases K.cipher alg with
      | none => exact hKey
      | some tfm =>
        simp only
        split <;> exact hKey

/-- `CIOCGSESSION` reads user memory and does not write it. -/
theorem cryptoCreateSession_reads {β : Type} (view : M → β) (hMac : sop.mac = 0)
    (hRead : ∀ m p n, view (U.copyFromUser m p n).2 = view m) (fcr : Fcrypt) (m : M) :
    view (cryptoCreateSession K U fcr m sop).2.1 = view m := by
  rw [cryptoCreateSession_noMac hMac]
  split
  · rfl
  cases algName sop.cipher with
  | none => rfl
  | some alg =>
    simp only
    split
    · rfl
    have hSetup := setupCipher_reads (K := K) sop view hRead m alg
    generalize setupCipher K U m sop alg = r at hSetup ⊢
    obtain ⟨m₁, out⟩ := r
    cases out with
    | error e => exact hSetup
    | ok cdata =>
      simp only
      split <;> exact hSetup

end Create

-- ---------------------------------------------------------------------------
-- CIOCCRYPT
-- ---------------------------------------------------------------------------

/-- An operation on a session without a hash, from the bytes it reads: the
session afterwards, and what the destination holds. -/
def cryptEffect (K : Kernel) (clock : Nat) (ses : CSession) (cop : CryptOp P) (iv src dst : Bytes) :
    CSession × Except Errno Bytes :=
  match Dir.ofOp cop.op with
  | none => (ses, .error .EINVAL)
  | some dir =>
    match setIv ses cop iv with
    | none => (ses, .error .EINVAL)
    | some ses =>
      if cop.len = 0 then
        match K.uninitRet clock with
        | none => (ses, .ok [])
        | some e => (ses, .error e)
      else ((hashNCrypt ses dir src dst).1, .ok (hashNCrypt ses dir src dst).2)

/-- The effect depends on the operation through its bytes. -/
theorem cryptEffect_congr {cop : CryptOp P} {cop' : CryptOp P'} (hRaw : cop'.raw = cop.raw)
    (clock : Nat) (ses : CSession) (iv src dst : Bytes) :
    cryptEffect K clock ses cop' iv src dst = cryptEffect K clock ses cop iv src dst := by
  unfold cryptEffect setIv CryptOp.op CryptOp.len
  rw [hRaw]

/-- An operation leaves the session's algorithms alone. -/
theorem cryptEffect_shape {clock : Nat} {ses ses' : CSession} {cop : CryptOp P}
    {iv src dst : Bytes} {res : Except Errno Bytes}
    (h : cryptEffect K clock ses cop iv src dst = (ses', res)) : SameShape ses ses' := by
  unfold cryptEffect at h
  cases hDir : Dir.ofOp cop.op with
  | none =>
    simp only [hDir, Prod.mk.injEq] at h
    rw [← h.1]
    exact SameShape.refl ses
  | some dir =>
    simp only [hDir] at h
    cases hSet : setIv ses cop iv with
    | none =>
      simp only [hSet, Prod.mk.injEq] at h
      rw [← h.1]
      exact SameShape.refl ses
    | some ses₁ =>
      have hShape := setIv_shape hSet
      simp only [hSet] at h
      split at h
      · cases hRet : K.uninitRet clock with
        | none =>
          simp only [hRet, Prod.mk.injEq] at h
          rw [← h.1]
          exact hShape
        | some e =>
          simp only [hRet, Prod.mk.injEq] at h
          rw [← h.1]
          exact hShape
      · simp only [Prod.mk.injEq] at h
        rw [← h.1]
        exact hShape.trans (hashNCrypt_shape ses₁ dir src dst)

/-- What an operation puts into the destination is as long as what it read. -/
theorem length_of_cryptEffect {clock : Nat} {ses ses' : CSession} {cop : CryptOp P}
    {iv src dst out : Bytes} (hSrc : src.length = cop.len) (hDst : dst.length = cop.len)
    (h : cryptEffect K clock ses cop iv src dst = (ses', .ok out)) : out.length = cop.len := by
  unfold cryptEffect at h
  cases hDir : Dir.ofOp cop.op with
  | none => simp [hDir] at h
  | some dir =>
    simp only [hDir] at h
    cases hSet : setIv ses cop iv with
    | none => simp [hSet] at h
    | some ses₁ =>
      simp only [hSet] at h
      split at h
      · next hLen =>
        cases hRet : K.uninitRet clock with
        | some e => simp [hRet] at h
        | none =>
          simp only [hRet, Prod.mk.injEq, Except.ok.injEq] at h
          rw [← h.2, hLen]
          rfl
      · simp only [Prod.mk.injEq, Except.ok.injEq] at h
        rw [← h.2, length_hashNCrypt (hDst.trans hSrc.symm), hSrc]

section Crypt

variable {fcr : Fcrypt} {ses : CSession} {cop : CryptOp P} {m m₁ m₂ m₃ : M} {iv src dst : Bytes}

theorem hashReset_noHash (hHash : ses.hdata = none) : hashReset ses cop = ses := by
  unfold hashReset
  split
  · rw [hHash, Option.map_none, ← hHash]
  · rfl

theorem setIv_noHash {ses' : CSession} (hHash : ses.hdata = none)
    (h : setIv ses cop iv = some ses') : ses'.hdata = none := by
  have hShape := (setIv_shape h).hash
  rw [hHash] at hShape
  simpa using hShape

theorem hashNCrypt_noHash (hHash : ses.hdata = none) (dir : Dir) (src dst : Bytes) :
    (hashNCrypt ses dir src dst).1.hdata = none := by
  have hShape := (hashNCrypt_shape ses dir src dst).hash
  rw [hHash] at hShape
  simpa using hShape

theorem noZc_of_flags (hFlags : cop.flags = 0) : cop.noZc = false := by
  unfold CryptOp.noZc
  rw [hFlags]
  rfl

theorem writeIv_of_flags (hFlags : cop.flags = 0) : cop.writeIv = false := by
  unfold CryptOp.writeIv
  rw [hFlags]
  rfl

/-- The data part of an operation whose source and destination can be pinned. -/
theorem runData_zc (hFlags : cop.flags = 0) (hLen : 0 < cop.len)
    (hSrc : U.copyFromUser m₁ cop.src cop.len = (some src, m₂))
    (hDst : U.copyFromUser m₂ cop.dst cop.len = (some dst, m₃)) (clock : Nat) (dir : Dir) :
    runData K U clock ses m₁ dir cop =
      ((hashNCrypt ses dir src dst).1, (U.copyToUser m₃ cop.dst (hashNCrypt ses dir src dst).2).2,
        .ok ()) := by
  unfold runData runZc
  rw [if_neg (Nat.pos_iff_ne_zero.mp hLen), noZc_of_flags hFlags, hSrc]
  simp only [Bool.false_eq_true, if_false, hDst]

/-- `crypto_run` on a session without a hash: no digest comes of it. -/
theorem cryptoRun_eq (hHash : ses.hdata = none) (hFlags : cop.flags = 0)
    (hSrc : 0 < cop.len → U.copyFromUser m₁ cop.src cop.len = (some src, m₂))
    (hDst : 0 < cop.len → U.copyFromUser m₂ cop.dst cop.len = (some dst, m₃)) (clock : Nat) :
    cryptoRun K U clock ses m₁ cop iv =
      match cryptEffect K clock ses cop iv src dst with
      | (ses', .error e) => (ses', m₁, .error e)
      | (ses', .ok out) =>
        (ses', if 0 < cop.len then (U.copyToUser m₃ cop.dst out).2 else m₁, .ok none) := by
  unfold cryptoRun cryptEffect
  rw [hashReset_noHash hHash]
  cases Dir.ofOp cop.op with
  | none => rfl
  | some dir =>
    simp only
    cases hSet : setIv ses cop iv with
    | none => rfl
    | some ses' =>
      have hHash' := setIv_noHash hHash hSet
      simp only
      by_cases hLen : cop.len = 0
      · have hRun : runData K U clock ses' m₁ dir cop =
            match K.uninitRet clock with
            | none => (ses', m₁, .ok ())
            | some e => (ses', m₁, .error e) := by
          rw [runData, if_pos hLen, hHash']
          rfl
        rw [hRun, if_pos hLen]
        cases K.uninitRet clock with
        | none => simp [hLen, hHash']
        | some e => rfl
      · have hPos : 0 < cop.len := Nat.pos_of_ne_zero hLen
        rw [runData_zc hFlags hPos (hSrc hPos) (hDst hPos), if_neg hLen]
        simp only [hashNCrypt_noHash hHash', Option.map_none, ite_self, if_pos hPos]

/-- `CIOCCRYPT` with `flags = 0` on a session without a hash, for an IV, a source
and a destination that can be read. -/
theorem cryptoCrypt_eq (hSes : fcr.getSessionBySid cop.ses = some ses) (hHash : ses.hdata = none)
    (hFlags : cop.flags = 0)
    (hIv : (if U.null cop.iv then (some [], m) else U.copyFromUser m cop.iv ses.ivsize) =
      (some iv, m₁))
    (hSrc : 0 < cop.len → U.copyFromUser m₁ cop.src cop.len = (some src, m₂))
    (hDst : 0 < cop.len → U.copyFromUser m₂ cop.dst cop.len = (some dst, m₃)) :
    cryptoCrypt K U fcr m cop =
      match cryptEffect K fcr.clock ses cop iv src dst with
      | (ses', .error e) => (fcr.putSession ses', m₁, .error e)
      | (ses', .ok out) =>
        (fcr.putSession ses',
          if 0 < cop.len then (U.copyToUser m₃ cop.dst out).2 else m₁, .ok ()) := by
  have hDone : ∀ (m : M) (ses : CSession) n, fillCopFromKcop U m cop ses n none = (m, .ok ()) := by
    intro m ses n
    simp [fillCopFromKcop, writeIv_of_flags hFlags]
  unfold cryptoCrypt
  rw [hSes]
  simp only
  rw [hIv]
  simp only
  rw [cryptoRun_eq hHash hFlags hSrc hDst]
  cases cryptEffect K fcr.clock ses cop iv src dst with
  | mk ses' out =>
    cases out with
    | error e => rfl
    | ok out => simp only [hDone]

end Crypt

end VirtioCrypto.Cryptodev
