import VirtioCrypto.Wire
import VirtioCrypto.Cryptodev.Effect

/-!
# Cryptodev — a process on the device

`cryptodev_ioctl` for a process that has `/dev/crypto` open itself: the argument
struct is copied in, the operation runs over the process's memory, and the
struct is copied back. One call counts as one on the descriptor's clock, as it
does for a caller inside QEMU.

* `cryptodevIoctl_gsession`, `cryptodevIoctl_crypt`, `cryptodevIoctl_fsession` —
  the memory a successful call leaves.
-/

namespace VirtioCrypto.Cryptodev

open Octets

/-- The memory of a process. -/
def procSpace : UserSpace Nat Space where
  null p := p == 0
  add p n := p + n
  copyFromUser m p n := (m.load p n, m)
  copyToUser m p bs :=
    match m.store p bs with
    | some m' => (true, m')
    | none => (false, m)
  add_zero _ := rfl
  add_add p i j := Nat.add_assoc p i j
  length_copyFromUser h := Space.length_of_load h

/-- `struct session_op` as it lies in the caller's memory. -/
def SessionOp.ofRaw (raw : Bytes) : SessionOp Nat := ⟨raw, u64 raw 16, u64 raw 32⟩

/-- `struct crypt_op` as it lies in the caller's memory. -/
def CryptOp.ofRaw (raw : Bytes) : CryptOp Nat :=
  ⟨raw, u64 raw 16, u64 raw 24, u64 raw 32, u64 raw 40⟩

/-- The three branches of `cryptodev_ioctl`; `.ok` is the return value 0. -/
def cryptodevIoctl (K : Kernel) (fcr : Fcrypt) (m : Space) (arg : Nat) :
    Cmd → Fcrypt × Space × Except Errno Unit
  | .CIOCGSESSION =>
    match m.load arg OP_SIZE with
    | none => (fcr.tick, m, .error .EFAULT)
    | some raw =>
      match cryptoCreateSession K procSpace fcr m (.ofRaw raw) with
      | (fcr, m, .error e) => (fcr.tick, m, .error e)
      | (fcr, m, .ok sop) =>
        match m.store arg sop.raw with
        | none => ((cryptoFinishSession fcr sop.ses).tick, m, .error .EFAULT)
        | some m => (fcr.tick, m, .ok ())
  | .CIOCCRYPT =>
    match m.load arg OP_SIZE with
    | none => (fcr.tick, m, .error .EFAULT)
    | some raw =>
      match cryptoCrypt K procSpace fcr m (.ofRaw raw) with
      | (fcr, m, .error e) => (fcr.tick, m, .error e)
      | (fcr, m, .ok ()) =>
        -- kcop_to_user: the struct goes back as it came
        match m.store arg raw with
        | none => (fcr.tick, m, .error .EFAULT)
        | some m => (fcr.tick, m, .ok ())
  | .CIOCFSESSION =>
    match m.load arg 4 with
    | none => (fcr.tick, m, .error .EFAULT)
    | some sid => ((cryptoFinishSession fcr (ofLE sid)).tick, m, .ok ())

variable {K : Kernel} {fcr fcr' : Fcrypt} {m m' : Space} {arg : Nat} {op : Bytes}

-- ---------------------------------------------------------------------------
-- Successful calls
-- ---------------------------------------------------------------------------

/-- A new session: the struct goes back with its number. -/
theorem cryptodevIoctl_gsession {sop : SessionOp Nat} (hOp : m.load arg OP_SIZE = some op)
    (hMac : u32 op 4 = 0)
    (h : cryptoCreateSession K procSpace fcr m (.ofRaw op) = (fcr', m', .ok sop)) :
    cryptodevIoctl K fcr m arg .CIOCGSESSION = (fcr'.tick, m.put arg sop.raw, .ok ()) := by
  have hMem : m' = m := by
    have hReads := cryptoCreateSession_reads (K := K) (U := procSpace) id
      (show (SessionOp.ofRaw op).mac = 0 from hMac) (fun _ _ _ => rfl) fcr m
    rw [h] at hReads
    exact hReads
  subst hMem
  have hOpLen : op.length = OP_SIZE := Space.length_of_load hOp
  obtain ⟨sid, cdata, -, hRaw, -⟩ := cryptoCreateSession_ok (show (SessionOp.ofRaw op).mac = 0 from hMac) h
  have hLen : sop.raw.length = OP_SIZE := by
    rw [hRaw, length_patch]
    · exact hOpLen
    · rw [length_toLE, show (SessionOp.ofRaw op).raw = op from rfl, hOpLen]
      decide
  unfold cryptodevIoctl
  rw [hOp]
  simp only [h, Space.store_of_load hOp hLen]

/-- The end of a session leaves memory alone. -/
theorem cryptodevIoctl_fsession {sid : Bytes} (hSid : m.load arg 4 = some sid) :
    cryptodevIoctl K fcr m arg .CIOCFSESSION =
      ((cryptoFinishSession fcr (ofLE sid)).tick, m, .ok ()) := by
  unfold cryptodevIoctl
  rw [hSid]

/-- An operation: the destination gets the result, and the struct goes back as it
came. -/
theorem cryptodevIoctl_crypt {ses ses' : CSession} {iv src dst out : Bytes}
    (hOp : m.load arg OP_SIZE = some op) (hSes : fcr.getSessionBySid (u32 op 0) = some ses)
    (hHash : ses.hdata = none) (hFlags : u16 op 6 = 0) (hNull : u64 op 40 ≠ 0)
    (hIv : m.load (u64 op 40) ses.ivsize = some iv)
    (hSrc : m.load (u64 op 16) (u32 op 8) = some src)
    (hDst : m.load (u64 op 24) (u32 op 8) = some dst)
    (hApart : Space.Disjoint (u64 op 24) (u32 op 8) arg OP_SIZE)
    (h : cryptEffect K fcr.clock ses (CryptOp.ofRaw op) iv src dst = (ses', .ok out))
    (hOut : out.length = u32 op 8) :
    cryptodevIoctl K fcr m arg .CIOCCRYPT =
      ((fcr.putSession ses').tick, m.put (u64 op 24) out, .ok ()) := by
  have hPut : (if 0 < u32 op 8 then (procSpace.copyToUser m (u64 op 24) out).2 else m) =
      m.put (u64 op 24) out := by
    by_cases hLen : 0 < u32 op 8
    · rw [if_pos hLen]
      show (match m.store (u64 op 24) out with
        | some m' => (true, m')
        | none => (false, m)).2 = _
      rw [Space.store_of_load hDst hOut]
    · have hNil : out = [] := List.length_eq_zero_iff.mp (by omega)
      rw [if_neg hLen, hNil, Space.put_nil]
  have hRun : cryptoCrypt K procSpace fcr m (CryptOp.ofRaw op) =
      (fcr.putSession ses', m.put (u64 op 24) out, .ok ()) := by
    have hRead : (if procSpace.null (CryptOp.ofRaw op).iv then (some [], m)
        else procSpace.copyFromUser m (CryptOp.ofRaw op).iv ses.ivsize) = (some iv, m) := by
      have hNull' : procSpace.null (CryptOp.ofRaw op).iv = false := by
        simpa [procSpace, CryptOp.ofRaw] using hNull
      rw [hNull']
      exact congrArg (·, m) hIv
    have hFlags' : (CryptOp.ofRaw op).flags = 0 := hFlags
    have hSes' : fcr.getSessionBySid (CryptOp.ofRaw op).ses = some ses := hSes
    rw [cryptoCrypt_eq hSes' hHash hFlags' hRead (fun _ => congrArg (·, m) hSrc)
      (fun _ => congrArg (·, m) hDst), h]
    exact congrArg (fun x => (fcr.putSession ses', x, Except.ok ())) hPut
  -- the struct is not part of the destination, so it goes back unchanged
  have hBack : (m.put (u64 op 24) out).load arg OP_SIZE = some op := by
    rw [Space.load_put_disjoint (by rw [hOut]; exact hApart), hOp]
  unfold cryptodevIoctl
  rw [hOp]
  simp only [hRun, Space.store_of_load hBack (Space.length_of_load hOp), Space.put_of_load hBack]

end VirtioCrypto.Cryptodev
