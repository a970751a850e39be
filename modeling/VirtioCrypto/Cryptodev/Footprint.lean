import VirtioCrypto.Cryptodev.Local

/-!
# Cryptodev — the memory an ioctl touches

Which user ranges each ioctl reads or writes, as a rule for invariants: if an
invariant of the memory survives an access to any *allowed* range, and the
ranges the arguments name are allowed, it survives the ioctl. This is `Local` for a
memory and itself.

* `cryptoCreateSession_keeps` — the key, and the MAC key when `ReadsMackey`;
* `cryptoCrypt_keeps` — the IV, parts of source and destination, and the MAC
  when `MacDue`.
-/

namespace VirtioCrypto.Cryptodev

open Octets

variable {P M : Type} {K : Kernel} {U : UserSpace P M} {I : M → Prop} {Allowed : P → Nat → Prop}

/-- `I` survives every access to an allowed range. -/
structure Keeps (U : UserSpace P M) (I : M → Prop) (Allowed : P → Nat → Prop) : Prop where
  read : ∀ m p n, Allowed p n → I m → I (U.copyFromUser m p n).2
  write : ∀ m p bs, Allowed p bs.length → I m → I (U.copyToUser m p bs).2

/-- A memory that satisfies `I`, and itself. -/
def Diagonal (I : M → Prop) (m m' : M) : Prop := m = m' ∧ I m

theorem Keeps.diagonal (h : Keeps U I Allowed) : Local U (Diagonal I) Allowed where
  read := by
    rintro m _ p n hp ⟨rfl, hI⟩
    exact .mk (U.copyFromUser m p n).1 ⟨rfl, h.read m p n hp hI⟩
  write := by
    rintro m _ p bs hp ⟨rfl, hI⟩
    exact .mk (U.copyToUser m p bs).1 ⟨rfl, h.write m p bs hp hI⟩

theorem SameResult.kept {α β : Type} {r r' : α × M × β} (h : SameResult (Diagonal I) r r') :
    I r.2.1 := by
  obtain ⟨a, b, -, hI⟩ := h
  exact hI

theorem SameOutcome.kept {β : Type} {r r' : M × β} (h : SameOutcome (Diagonal I) r r') : I r.1 := by
  obtain ⟨b, -, hI⟩ := h
  exact hI

/-- Creating a session touches the key and, where `ReadsMackey`, the MAC key. -/
theorem cryptoCreateSession_keeps (h : Keeps U I Allowed) {fcr : Fcrypt} {m : M}
    {sop : SessionOp P}
    (hKey : sop.keylen ≤ CRYPTO_CIPHER_MAX_KEY_LEN → Allowed sop.key sop.keylen)
    (hMackey : ReadsMackey K U fcr m sop → Allowed sop.mackey sop.mackeylen) (hI : I m) :
    I (cryptoCreateSession K U fcr m sop).2.1 :=
  (cryptoCreateSession_local h.diagonal hKey hMackey ⟨rfl, hI⟩).kept

theorem runChunk_keeps (h : Keeps U I Allowed) (dir : Dir) (ses : CSession) {m : M} {src dst : P}
    {cur : Nat} (hSrc : Allowed src cur) (hDst : Allowed dst cur) (hI : I m) :
    I (runChunk U dir ses m src dst cur).2.1 :=
  (runChunk_local h.diagonal dir ses hSrc hDst ⟨rfl, hI⟩).kept

/-- The bounce-buffer loop touches parts of the two ranges only. -/
theorem cryptoRunStd_keeps (h : Keeps U I Allowed) {dir : Dir} {bufsize : Nat} (fuel : Nat)
    {ses : CSession} {m : M} {src dst : P} {nbytes : Nat}
    (hSrc : ∀ o k, o + k ≤ nbytes → Allowed (U.add src o) k)
    (hDst : ∀ o k, o + k ≤ nbytes → Allowed (U.add dst o) k) (hI : I m) :
    I (cryptoRunStd U dir bufsize fuel ses m src dst nbytes).2.1 :=
  (cryptoRunStd_local h.diagonal fuel hSrc hDst ⟨rfl, hI⟩).kept

theorem runStd_keeps (h : Keeps U I Allowed) {clock : Nat} {ses : CSession} {m : M} {dir : Dir}
    {cop : CryptOp P} (hSrc : ∀ o k, o + k ≤ cop.len → Allowed (U.add cop.src o) k)
    (hDst : ∀ o k, o + k ≤ cop.len → Allowed (U.add cop.dst o) k) (hI : I m) :
    I (runStd K U clock ses m dir cop).2.1 :=
  (runStd_local h.diagonal hSrc hDst ⟨rfl, hI⟩).kept

theorem cryptoRun_keeps (h : Keeps U I Allowed) (clock : Nat) (ses : CSession) {m : M}
    (cop : CryptOp P) (iv : Bytes)
    (hData : Runs K clock ses cop → 0 < cop.len → ∀ o k, o + k ≤ cop.len →
      Allowed (U.add cop.src o) k ∧ Allowed (U.add cop.dst o) k)
    (hI : I m) : I (cryptoRun K U clock ses m cop iv).2.1 :=
  (cryptoRun_local h.diagonal clock ses cop iv hData ⟨rfl, hI⟩).kept

theorem fillCopFromKcop_keeps (h : Keeps U I Allowed) {m : M} {cop : CryptOp P} {ses : CSession}
    {ivlen : Nat} {digest : Option Bytes}
    (hMac : ∀ d, digest = some d → d.length ≠ 0 → Allowed cop.mac d.length)
    (hIv : ivlen ≠ 0 → Allowed cop.iv ((ses.cdata.map CipherData.iv).getD []).length)
    (hI : I m) : I (fillCopFromKcop U m cop ses ivlen digest).1 :=
  (fillCopFromKcop_local h.diagonal hMac hIv ⟨rfl, hI⟩).kept

/-- An operation touches the IV, parts of source and destination when it `Runs`,
and the MAC when one is due. -/
theorem cryptoCrypt_keeps (h : Keeps U I Allowed) {fcr : Fcrypt} {m : M} {cop : CryptOp P}
    (hIv : ∀ ses, fcr.getSessionBySid cop.ses = some ses → U.null cop.iv = false →
      Allowed cop.iv ses.ivsize)
    (hData : ∀ ses, fcr.getSessionBySid cop.ses = some ses → Runs K fcr.clock ses cop →
      0 < cop.len → ∀ o k, o + k ≤ cop.len →
        Allowed (U.add cop.src o) k ∧ Allowed (U.add cop.dst o) k)
    (hMac : ∀ ses, fcr.getSessionBySid cop.ses = some ses → Runs K fcr.clock ses cop →
      MacDue ses cop → Allowed cop.mac ses.digestsize)
    (hI : I m) : I (cryptoCrypt K U fcr m cop).2.1 :=
  (cryptoCrypt_local h.diagonal hIv hData hMac ⟨rfl, hI⟩).kept

end VirtioCrypto.Cryptodev
