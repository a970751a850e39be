import VirtioCrypto.Proxy.Framing
import VirtioCrypto.Host.Serve
import VirtioCrypto.Cryptodev.Direct

/-!
# Proxy — the guest sees the host's `/dev/crypto`

A process in the guest that goes through the port, and a process on the host
that has the device open: the same calls leave the same memory. The two runs are
related by their memories being equal and their session tables being equal; on
the guest's side the port is at rest between calls (`Related`).

The driver swaps the caller's pointers for arrays in the message and the device
swaps them for addresses in its own buffer, so what has to be shown for each
command is that the bytes the kernel reads on the host are the caller's, and
that what it writes gets back to where the caller wanted it.

* `gsession_agrees`, `crypt_agrees`, `fsession_agrees` — one call;
* `proxy_transparent` — a sequence of calls of any length.
-/

namespace VirtioCrypto.Proxy

open Octets Cryptodev Guest

-- ---------------------------------------------------------------------------
-- The two runs
-- ---------------------------------------------------------------------------

/-- The caller's arguments of `CIOCCRYPT`: no flags, at most as much data as the
message holds, an IV, and buffers that are mapped and share nothing, except that
source and destination may be the same. -/
structure CryptArgs (L : Layout) (m : Space) (arg : Nat) (op : Bytes) : Prop where
  flags : u16 op 6 = 0
  len : u32 op 8 ≤ L.dataMax
  iv : u64 op 40 ≠ 0
  srcMapped : (m.load (u64 op 16) (u32 op 8)).isSome
  dstMapped : (m.load (u64 op 24) (u32 op 8)).isSome
  ivMapped : (m.load (u64 op 40) L.blockMax).isSome
  srcDst : u64 op 16 = u64 op 24 ∨ Space.Disjoint (u64 op 16) (u32 op 8) (u64 op 24) (u32 op 8)
  dstArg : Space.Disjoint (u64 op 24) (u32 op 8) arg OP_SIZE
  srcArg : Space.Disjoint (u64 op 16) (u32 op 8) arg OP_SIZE
  ivArg : Space.Disjoint (u64 op 40) L.blockMax arg OP_SIZE
  ivSrc : Space.Disjoint (u64 op 40) L.blockMax (u64 op 16) (u32 op 8)
  ivDst : Space.Disjoint (u64 op 40) L.blockMax (u64 op 24) (u32 op 8)

instance (L : Layout) (m : Space) (arg : Nat) (op : Bytes) : Decidable (CryptArgs L m arg op) :=
  have (a n b k : Nat) : Decidable (Space.Disjoint a n b k) := inferInstanceAs (Decidable (_ ∨ _))
  decidable_of_iff
    ((u16 op 6 = 0 ∧ u32 op 8 ≤ L.dataMax ∧ u64 op 40 ≠ 0) ∧
      ((m.load (u64 op 16) (u32 op 8)).isSome ∧ (m.load (u64 op 24) (u32 op 8)).isSome ∧
        (m.load (u64 op 40) L.blockMax).isSome) ∧
      (u64 op 16 = u64 op 24 ∨ Space.Disjoint (u64 op 16) (u32 op 8) (u64 op 24) (u32 op 8)) ∧
      Space.Disjoint (u64 op 24) (u32 op 8) arg OP_SIZE ∧
      Space.Disjoint (u64 op 16) (u32 op 8) arg OP_SIZE ∧
      Space.Disjoint (u64 op 40) L.blockMax arg OP_SIZE ∧
      Space.Disjoint (u64 op 40) L.blockMax (u64 op 16) (u32 op 8) ∧
      Space.Disjoint (u64 op 40) L.blockMax (u64 op 24) (u32 op 8))
    ⟨fun ⟨⟨h₁, h₂, h₃⟩, ⟨h₄, h₅, h₆⟩, h₇, h₈, h₉, h₁₀, h₁₁, h₁₂⟩ =>
      ⟨h₁, h₂, h₃, h₄, h₅, h₆, h₇, h₈, h₉, h₁₀, h₁₁, h₁₂⟩,
     fun h => ⟨⟨h.flags, h.len, h.iv⟩, ⟨h.srcMapped, h.dstMapped, h.ivMapped⟩, h.srcDst, h.dstArg,
      h.srcArg, h.ivArg, h.ivSrc, h.ivDst⟩⟩

/-- The caller's arguments of the three commands. -/
def ArgsOk (L : Layout) (m : Space) (arg : Nat) : Cmd → Prop
  | .CIOCGSESSION => ∃ op, op ∈ m.load arg OP_SIZE ∧
      (m.load (u64 op 16) (u32 op 8)).isSome ∧ u32 op 8 ≤ CRYPTO_CIPHER_MAX_KEY_LEN ∧ u32 op 4 = 0
  | .CIOCCRYPT => ∃ op, op ∈ m.load arg OP_SIZE ∧ CryptArgs L m arg op
  | .CIOCFSESSION => (m.load arg 4).isSome

instance (L : Layout) (m : Space) (arg : Nat) : (c : Cmd) → Decidable (ArgsOk L m arg c)
  | .CIOCGSESSION => inferInstanceAs (Decidable (∃ op, op ∈ m.load arg OP_SIZE ∧ _))
  | .CIOCCRYPT => inferInstanceAs (Decidable (∃ op, op ∈ m.load arg OP_SIZE ∧ _))
  | .CIOCFSESSION => inferInstanceAs (Decidable ((m.load arg 4).isSome = true))

/-- A call on a blocking descriptor that gets its memory, with arguments in
order. -/
def Admissible (L : Layout) (s : Sys Fcrypt) (call : Call) : Prop :=
  call.env.nonblock = false ∧ call.env.kmalloc.isSome ∧
    ∃ c, Cmd.ofWord call.cmd = some c ∧ ArgsOk L (call.prep s.user) call.arg c

/-- The range a call may change: the number of the session, or the destination. -/
def resultRange (m : Space) (arg : Nat) : Cmd → Nat × Nat
  | .CIOCGSESSION => (arg + SES_OFF, 4)
  | .CIOCCRYPT => (u64 ((m.load arg OP_SIZE).getD []) 24, u32 ((m.load arg OP_SIZE).getD []) 8)
  | .CIOCFSESSION => (arg, 0)

/-- The call through the port and the call on the device return 0 and leave the
same memory, which is changed in the result only. -/
structure CallAgrees (K : Kernel) (L : Layout) (s : Sys Fcrypt) (fcr : Fcrypt) (m : Space)
    (call : Call) (c : Cmd) : Prop where
  proxied : (portFopsIoctl (Host.cryptodev K) L s call).2 = .returns 0
  direct : (cryptodevIoctl K fcr (call.prep m) call.arg c).2.2 = .ok ()
  memory : (portFopsIoctl (Host.cryptodev K) L s call).1.user =
    (cryptodevIoctl K fcr (call.prep m) call.arg c).2.1
  frame : ∀ x, x < (resultRange (call.prep m) call.arg c).1 ∨
      (resultRange (call.prep m) call.arg c).1 + (resultRange (call.prep m) call.arg c).2 ≤ x →
    (cryptodevIoctl K fcr (call.prep m) call.arg c).2.1 x = call.prep m x

/-- Every call of a sequence agrees: the run through the port from `s`, the run on
the device from the table `fcr` and the memory `m`. -/
def Transparent (K : Kernel) (L : Layout) : Sys Fcrypt → Fcrypt → Space → List Call → Prop
  | _, _, _, [] => True
  | s, fcr, m, call :: calls =>
    ∃ c, Cmd.ofWord call.cmd = some c ∧ CallAgrees K L s fcr m call c ∧
      Transparent K L (portFopsIoctl (Host.cryptodev K) L s call).1
        (cryptodevIoctl K fcr (call.prep m) call.arg c).1
        (cryptodevIoctl K fcr (call.prep m) call.arg c).2.1 calls

/-- `CRYPTO_BLOCK_MAX_LEN` is what its name says: no cipher of the kernel has a
longer IV. -/
def IvFits (K : Kernel) (L : Layout) : Prop :=
  ∀ alg tfm, K.cipher alg = some tfm → tfm.ivsize ≤ L.blockMax

/-- Sessions without a MAC, whose IV fits the message. -/
def Plain (L : Layout) (fcr : Fcrypt) : Prop :=
  ∀ ses ∈ fcr.list, ses.hdata = none ∧ ses.ivsize ≤ L.blockMax

/-- The guest's side of a run beside the host's. -/
structure Related (L : Layout) (nbuf : Nat) (s : Sys Fcrypt) (fcr : Fcrypt) (m : Space) :
    Prop where
  idle : Idle nbuf s
  crInfo : s.host.st.crInfo = .live (some fcr)
  user : s.user = m
  plain : Plain L fcr

variable {K : Kernel} {L : Layout} {s : Sys Fcrypt} {fcr : Fcrypt} {m : Space} {call : Call}
  {k : Nat}

-- ---------------------------------------------------------------------------
-- Session tables
-- ---------------------------------------------------------------------------

theorem Plain.of_sid (h : Plain L fcr) {sid : Nat} {ses : CSession}
    (hSes : fcr.getSessionBySid sid = some ses) : ses.hdata = none ∧ ses.ivsize ≤ L.blockMax :=
  h ses (List.mem_of_find?_eq_some hSes)

theorem mem_removeSession {sid : Nat} {ses : CSession} (l : List CSession)
    (h : ses ∈ removeSession sid l) : ses ∈ l := by
  induction l with
  | nil => simp [removeSession] at h
  | cons x l ih =>
    rw [removeSession] at h
    split at h
    · exact List.mem_cons_of_mem _ h
    · rcases List.mem_cons.mp h with h | h
      · rw [h]
        exact List.mem_cons_self
      · exact List.mem_cons_of_mem _ (ih h)

theorem mem_replaceSession {ses ses' : CSession} (l : List CSession)
    (h : ses ∈ replaceSession ses' l) : ses = ses' ∨ ses ∈ l := by
  induction l with
  | nil => simp [replaceSession] at h
  | cons x l ih =>
    rw [replaceSession] at h
    split at h
    · rcases List.mem_cons.mp h with h | h
      · exact Or.inl h
      · exact Or.inr (List.mem_cons_of_mem _ h)
    · rcases List.mem_cons.mp h with h | h
      · rw [h]
        exact Or.inr List.mem_cons_self
      · exact (ih h).imp id (List.mem_cons_of_mem _)

theorem Plain.finish (h : Plain L fcr) (sid : Nat) : Plain L (cryptoFinishSession fcr sid).tick := by
  intro ses hSes
  exact h ses (mem_removeSession _ hSes)

theorem Plain.put (h : Plain L fcr) {ses : CSession}
    (hSes : ses.hdata = none ∧ ses.ivsize ≤ L.blockMax) : Plain L (fcr.putSession ses).tick := by
  intro x hx
  rcases mem_replaceSession _ hx with rfl | hx
  · exact hSes
  · exact h x hx

-- ---------------------------------------------------------------------------
-- Through the port
-- ---------------------------------------------------------------------------

/-- A call whose message is served is served by one page, and gets to copy the
response out of guest memory. -/
theorem portFopsIoctl_served {s₁ : Sys Fcrypt} {c : Cmd} {base : Nat} {fcr' : Fcrypt} {bs : Bytes}
    {st : Host.Port Fcrypt} (h : Idle (k + 1) s₁)
    (hPrep : prepare (Host.cryptodev K) L (entered s call) call = (s₁, .ok (c, base)))
    (hBlock : call.env.nonblock = false) (hPage : L.sizeof ≤ PAGE_SIZE)
    (hServed : Host.Served K L s₁.host.st base fcr' bs st) :
    ∃ s₂, portFopsIoctl (Host.cryptodev K) L s call = copyOut L s₂ base call.arg c ∧
      Idle (k + 1) s₂ ∧ s₂.mem.load base L.sizeof = some bs ∧ s₂.user = s₁.user ∧
      s₂.host.st.crInfo = .live (some fcr') := by
  have hLen := Space.length_of_load hServed.message
  have hPos := L.cmdOff_bounds
  have hNe : bs ≠ [] := by
    rintro rfl
    simp at hLen
    omega
  have hDrop : bs.drop PAGE_SIZE = [] := List.drop_eq_nil_of_le (by omega)
  have hTake : bs.take PAGE_SIZE = bs := List.take_of_length_le (by omega)
  have hUnused : (fillAvail (List.replicate k PAGE_SIZE) (bs.drop PAGE_SIZE)).1 = [] := by
    rw [fillAvail_eq_nil_iff]
    exact Or.inr hDrop
  have hIvq := hServed.ivq
  rw [writeToPort_cons h.host.ready h.avail hNe, h.used, hUnused, fillAvail_unused hUnused, hTake]
    at hIvq
  have hUsed : st.ivq.used = [⟨PAGE_SIZE, bs, 0⟩] := by rw [hIvq]; rfl
  have hAvail : st.ivq.avail ++ [PAGE_SIZE] = List.replicate (k + 1) PAGE_SIZE := by
    rw [hIvq, List.replicate_succ']
  have hInt : ¬ Interrupted call.env := by
    rintro ⟨hNon, -⟩
    rw [hBlock] at hNon
    exact absurd hNon (by decide)
  have hSent := (queue_idle (L := L) h base).2
  have hDeliver := (deliver_look base hSent.inbuf call.env.nonblock hUsed (Nat.le_of_eq hLen)).2
  refine ⟨_, (portFopsIoctl_sent h hPrep hServed.call hServed.connected
    (by rw [hUsed]; exact List.cons_ne_nil _ _)).trans (if_neg hInt),
    idle_deliver hSent hServed.connected call.env.nonblock hUsed (Nat.le_of_eq hLen) hAvail,
    ?_, ?_, ?_⟩
  · rw [hDeliver]
    show (st.mem.space.put base bs).load base L.sizeof = some bs
    rw [Space.put_of_load hServed.message]
    exact hServed.message
  · rw [hDeliver]
    exact handled_user _ _
  · rw [hDeliver]
    show (handled L base call.env.nonblock (queue L s₁ base).2 st).host.st.crInfo = .live (some fcr')
    rw [handled_st]
    exact hServed.crInfo

/-- The host operation of a call whose message is in place succeeds. -/
theorem outcome_of_hostOk {s₁ : Sys Fcrypt} {c : Cmd} {base : Nat} {d : Bytes}
    (h : Idle (k + 1) s₁) (hOk : HostOk (Host.cryptodev K) L s call)
    (hPrep : prepare (Host.cryptodev K) L (entered s call) call = (s₁, .ok (c, base)))
    (hLoad : s₁.mem.load base L.sizeof = some d) (hWord : u32 d L.cmdOff = c.word) :
    Host.outcome (Host.cryptodev K) L (Host.cmdRead L s₁.host.st base) base c = some (.ok ()) := by
  have hSent := (queue_idle (L := L) h base).2
  have hNext : Host.NextRequest L (queue L s₁ base).2.host (request L base) base c :=
    ⟨hSent.outNum, ⟨[], hSent.sent⟩, rfl, d, hLoad, by rw [hWord, Cmd.ofWord_word]⟩
  exact (hOk _ _ _ hPrep).2 _ _ _ hNext

/-- A call that copies out the memory a direct call leaves. -/
theorem agrees_of {c : Cmd} {s₂ : Sys Fcrypt} {user : Space} {fcr' : Fcrypt}
    (hIoctl : portFopsIoctl (Host.cryptodev K) L s call = ({ s₂ with user := user }, .returns 0))
    (hDirect : cryptodevIoctl K fcr (call.prep m) call.arg c = (fcr', user, .ok ()))
    (hIdle : Idle (k + 1) s₂) (hInfo : s₂.host.st.crInfo = .live (some fcr')) (hPlain : Plain L fcr')
    (hFrame : ∀ x, x < (resultRange (call.prep m) call.arg c).1 ∨
        (resultRange (call.prep m) call.arg c).1 + (resultRange (call.prep m) call.arg c).2 ≤ x →
      user x = call.prep m x) :
    CallAgrees K L s fcr m call c ∧
      Related L (k + 1) (portFopsIoctl (Host.cryptodev K) L s call).1
        (cryptodevIoctl K fcr (call.prep m) call.arg c).1
        (cryptodevIoctl K fcr (call.prep m) call.arg c).2.1 := by
  refine ⟨⟨?_, ?_, ?_, ?_⟩, ⟨?_, ?_, ?_, ?_⟩⟩
  · rw [hIoctl]
  · rw [hDirect]
  · rw [hIoctl, hDirect]
  · rw [hDirect]
    exact hFrame
  · rw [hIoctl]
    exact hIdle.withUser user
  · rw [hIoctl, hDirect]
    exact hInfo
  · rw [hIoctl, hDirect]
  · rw [hDirect]
    exact hPlain

-- ---------------------------------------------------------------------------
-- One call
-- ---------------------------------------------------------------------------

section Calls

variable {base : Nat} (h : Related L (k + 1) s fcr m) (hPage : L.sizeof ≤ PAGE_SIZE)
  (hBlock : call.env.nonblock = false) (hAlloc : call.env.kmalloc = some base)
  (hOk : HostOk (Host.cryptodev K) L s call)

include h hAlloc

/-- The message of a call, made of what the process has in its memory. -/
theorem prepare_related {c : Cmd} {mem : Space} (K : Kernel) (hCmd : Cmd.ofWord call.cmd = some c)
    (hCopy : copyIn L (call.prep m) (allocate L s.mem base call.env.fresh c.word) base call.arg c =
      some mem) :
    ∃ s₁, prepare (Host.cryptodev K) L (entered s call) call = (s₁, .ok (c, base)) ∧
      Idle (k + 1) s₁ ∧ s₁.host.st.crInfo = .live (some fcr) ∧ s₁.user = call.prep m ∧
      s₁.mem = mem := by
  have hEntered : (entered s call).user = call.prep m := by
    show call.prep s.user = _
    rw [h.user]
  rw [← hEntered, ← Cmd.word_of_ofWord hCmd] at hCopy
  exact ⟨_, prepare_of_copyIn _ (h.idle.entered call) hAlloc hCmd hCopy,
    (h.idle.entered call).reclaim.setMem mem, h.crInfo, hEntered, rfl⟩

include hPage hBlock

/-- The end of a session. -/
theorem fsession_agrees (hCmd : Cmd.ofWord call.cmd = some .CIOCFSESSION)
    (hArgs : ArgsOk L (call.prep m) call.arg .CIOCFSESSION) :
    CallAgrees K L s fcr m call .CIOCFSESSION ∧
      Related L (k + 1) (portFopsIoctl (Host.cryptodev K) L s call).1
        (cryptodevIoctl K fcr (call.prep m) call.arg .CIOCFSESSION).1
        (cryptodevIoctl K fcr (call.prep m) call.arg .CIOCFSESSION).2.1 := by
  obtain ⟨sid, hSid⟩ := Option.isSome_iff_exists.mp hArgs
  obtain ⟨mem, hCopy, hMem⟩ := copyIn_fsession hSid (load_allocate (L := L) s.mem base _ _)
  obtain ⟨s₁, hPrep, hRest, hInfo₁, hUser₁, rfl⟩ := prepare_related h hAlloc K hCmd hCopy
  obtain ⟨hHead, hCmdOff⟩ := fsession_parts (length_blank L call.env.fresh Cmd.CIOCFSESSION.word)
    (Space.length_of_load hSid)
  rw [u32_cmdOff_blank] at hCmdOff
  obtain ⟨st, hServed⟩ := Host.serve_fsession (K := K) hRest.host hInfo₁ hMem hCmdOff
  obtain ⟨s₂, hIoctl, hIdle, hLoad, hUser₂, hInfo⟩ :=
    portFopsIoctl_served hRest hPrep hBlock hPage hServed
  rw [hHead] at hInfo
  have hBounds := L.cmdOff_bounds
  have hLoad₂ : s₂.mem.load base 4 = some sid := by
    rw [Space.load_prefix hLoad (by omega), hHead]
  have hStore : s₂.user.store call.arg sid = some (call.prep m) := by
    rw [hUser₂, hUser₁, Space.store_of_load hSid (Space.length_of_load hSid),
      Space.put_of_load hSid]
  refine agrees_of (hIoctl.trans (copyOut_fsession hLoad₂ hStore)) (cryptodevIoctl_fsession hSid)
    hIdle hInfo (h.plain.finish _) ?_
  intro x _
  rfl

include hOk

/-- A new session: the device reads the key out of the message, and the number
comes back in the argument struct. -/
theorem gsession_agrees (hIvFits : IvFits K L) (hCmd : Cmd.ofWord call.cmd = some .CIOCGSESSION)
    (hArgs : ArgsOk L (call.prep m) call.arg .CIOCGSESSION) :
    CallAgrees K L s fcr m call .CIOCGSESSION ∧
      Related L (k + 1) (portFopsIoctl (Host.cryptodev K) L s call).1
        (cryptodevIoctl K fcr (call.prep m) call.arg .CIOCGSESSION).1
        (cryptodevIoctl K fcr (call.prep m) call.arg .CIOCGSESSION).2.1 := by
  obtain ⟨op, hOp, hKey, hKeylen, hMac⟩ := hArgs
  rw [Option.mem_def] at hOp
  obtain ⟨key, hKey⟩ := Option.isSome_iff_exists.mp hKey
  have hOpLen : op.length = OP_SIZE := Space.length_of_load hOp
  have hKeyLen := Space.length_of_load hKey
  obtain ⟨mem, hCopy, hMem⟩ := copyIn_gsession hOp hKey hKeylen
    (load_allocate (L := L) s.mem base _ _)
  obtain ⟨s₁, hPrep, hRest, hInfo₁, hUser₁, rfl⟩ := prepare_related h hAlloc K hCmd hCopy
  obtain ⟨hHead, hKeyp, hCmdOff⟩ := gsession_parts
    (length_blank L call.env.fresh Cmd.CIOCGSESSION.word) hOpLen (by rw [hKeyLen]; exact hKeylen)
  rw [u32_cmdOff_blank] at hCmdOff
  generalize patch (patch (blank L call.env.fresh Cmd.CIOCGSESSION.word) 0 op) L.keypOff key = d
    at hMem hHead hKeyp hCmdOff
  obtain ⟨m₁, fcr', m₂, out, st, hSpace, hCreate, hServed⟩ := Host.serve_gsession hRest.host hInfo₁
    hMem hCmdOff (by rw [hHead]; exact hMac) (outcome_of_hostOk hRest hOk hPrep hMem hCmdOff)
  rw [hHead] at hCreate
  obtain ⟨s₂, hIoctl, hIdle, hLoad, hUser₂, hInfo⟩ :=
    portFopsIoctl_served hRest hPrep hBlock hPage hServed
  obtain ⟨sid, cdata, hTable, hRaw, hTfm⟩ := cryptoCreateSession_ok
    (show (Host.sessionOp L op).mac = 0 from hMac) hCreate
  -- the same key is read on both sides, so the same session is made
  have hBytes : (procSpace.copyFromUser (call.prep m) (SessionOp.ofRaw op).key
      (Host.sessionOp L op).keylen).1 =
      ((Host.hostSpace base).copyFromUser m₁ (Host.sessionOp L op).key
        (Host.sessionOp L op).keylen).1 := by
    show (call.prep m).load (u64 op 16) (u32 op 8) = m₁.space.load (base + L.keypOff) (u32 op 8)
    have hFit : L.keypOff + u32 op 8 ≤ L.sizeof := by
      have hBounds := L.cmdOff_bounds
      unfold CRYPTO_CIPHER_MAX_KEY_LEN at hKeylen
      rw [L.ivpOff_eq] at hBounds
      rw [L.keypOff_eq]
      omega
    rw [hKey, hSpace, show s₁.host.st.mem.space = s₁.mem from rfl, Space.load_slice hMem hFit,
      ← hKeyLen, hKeyp]
  have hMac' : (Host.sessionOp L op).mac = 0 := hMac
  have hRaw₀ : (SessionOp.ofRaw op).raw = (Host.sessionOp L op).raw := rfl
  obtain ⟨m₂', out', hCreate', hRaw'⟩ := cryptoCreateSession_ok_congr hMac' hRaw₀ hBytes hCreate
  have hDirect := cryptodevIoctl_gsession hOp hMac hCreate'
  rw [hRaw', hRaw, show (Host.sessionOp L op).raw = op from rfl] at hDirect
  -- the number the device writes into the message is the one in the struct
  rw [toLE_ses hOpLen hRaw] at hLoad
  have hBounds := L.cmdOff_bounds
  have hFit : SES_OFF + (toLE 4 sid).length ≤ op.length := by
    rw [hOpLen, length_toLE]
    decide
  have hBack : s₂.mem.load base OP_SIZE = some (patch op SES_OFF (toLE 4 sid)) := by
    rw [Space.load_prefix hLoad (by rw [L.ivpOff_eq] at hBounds; unfold OP_SIZE; omega),
      slice_patch_ses (Space.length_of_load hMem) hHead]
  have hStore : s₂.user.store call.arg (patch op SES_OFF (toLE 4 sid)) =
      some ((call.prep m).put call.arg (patch op SES_OFF (toLE 4 sid))) := by
    rw [hUser₂, hUser₁]
    exact Space.store_of_load hOp (by rw [length_patch hFit, hOpLen])
  refine agrees_of (hIoctl.trans (copyOut_gsession hBack hStore)) hDirect hIdle hInfo ?_ ?_
  · rw [hTable]
    refine List.forall_mem_cons.mpr ⟨⟨rfl, ?_⟩, h.plain⟩
    cases cdata with
    | none => exact Nat.zero_le _
    | some c =>
      obtain ⟨alg, hAlg⟩ := hTfm c rfl
      exact hIvFits alg c.tfm hAlg
  · intro x hx
    rw [Space.put_patch hOp (by rw [← hOpLen]; exact hFit)]
    exact Space.put_apply_of_disjoint (by rw [length_toLE]; exact hx)

/-- An operation: the device works on the arrays of the message, and the result
comes back to the caller's destination. -/
theorem crypt_agrees (hCmd : Cmd.ofWord call.cmd = some .CIOCCRYPT)
    (hArgs : ArgsOk L (call.prep m) call.arg .CIOCCRYPT) :
    CallAgrees K L s fcr m call .CIOCCRYPT ∧
      Related L (k + 1) (portFopsIoctl (Host.cryptodev K) L s call).1
        (cryptodevIoctl K fcr (call.prep m) call.arg .CIOCCRYPT).1
        (cryptodevIoctl K fcr (call.prep m) call.arg .CIOCCRYPT).2.1 := by
  obtain ⟨op, hOp, hA⟩ := hArgs
  rw [Option.mem_def] at hOp
  obtain ⟨src, hSrc⟩ := Option.isSome_iff_exists.mp hA.srcMapped
  obtain ⟨dst, hDst⟩ := Option.isSome_iff_exists.mp hA.dstMapped
  obtain ⟨iv, hIv⟩ := Option.isSome_iff_exists.mp hA.ivMapped
  have hLen := hA.len
  have hOpLen : op.length = OP_SIZE := Space.length_of_load hOp
  have hSrcLen := Space.length_of_load hSrc
  have hDstLen := Space.length_of_load hDst
  have hIvLen := Space.length_of_load hIv
  obtain ⟨mem, hCopy, hMem⟩ := copyIn_crypt hOp hSrc hDst hIv hLen
    (load_allocate (L := L) s.mem base _ _)
  obtain ⟨s₁, hPrep, hRest, hInfo₁, hUser₁, rfl⟩ := prepare_related h hAlloc K hCmd hCopy
  obtain ⟨hHead, hSrcp, hDstp, hIvp, hCmdOff⟩ := crypt_parts
    (length_blank L call.env.fresh Cmd.CIOCCRYPT.word) hOpLen (hSrcLen.trans_le hLen)
    (hDstLen.trans_le hLen) hIvLen
  rw [u32_cmdOff_blank] at hCmdOff
  generalize patch (patch (patch (patch (blank L call.env.fresh Cmd.CIOCCRYPT.word) 0 op)
    L.srcpOff src) L.dstpOff dst) L.ivpOff iv = d at hMem hHead hSrcp hDstp hIvp hCmdOff
  rw [hSrcLen] at hSrcp
  rw [hDstLen] at hDstp
  obtain ⟨ses, ses', out, st, hSes, hEff, hServed⟩ := Host.serve_crypt hRest.host hInfo₁ hMem hCmdOff
    hHead (fun ses hSes => h.plain.of_sid hSes) hA.flags hLen
    (outcome_of_hostOk hRest hOk hPrep hMem hCmdOff)
  obtain ⟨hHash, hIvsize⟩ := h.plain.of_sid hSes
  obtain ⟨s₂, hIoctl, hIdle, hLoad, hUser₂, hInfo⟩ :=
    portFopsIoctl_served hRest hPrep hBlock hPage hServed
  -- the kernel reads the caller's bytes on either side
  have hIv' : (call.prep m).load (u64 op 40) ses.ivsize = some (slice d L.ivpOff ses.ivsize) := by
    rw [Space.load_prefix hIv hIvsize, ← hIvp, slice_slice (by omega), Nat.add_zero]
  rw [hSrcp, hDstp] at hEff
  have hOutLen : out.length = u32 op 8 := length_of_cryptEffect hSrcLen hDstLen hEff
  have hRaw : (CryptOp.ofRaw op).raw = (Host.cryptOp L op).raw := rfl
  rw [← cryptEffect_congr hRaw] at hEff
  have hDirect := cryptodevIoctl_crypt hOp hSes hHash hA.flags hA.iv hIv' hSrc hDst hA.dstArg hEff
    hOutLen
  -- the struct comes back as it was, and the result from the message
  have hBounds := L.cmdOff_bounds
  have hIvOff := L.ivpOff_eq
  have hDstOff := L.dstpOff_eq
  have hd := Space.length_of_load hMem
  have hBack : s₂.mem.load base OP_SIZE = some op := by
    rw [Space.load_prefix hLoad (by unfold OP_SIZE; omega),
      slice_patch_disjoint (by omega) (Or.inl (by unfold OP_SIZE; omega)), hHead]
  have hStore : s₂.user.store call.arg op = some (call.prep m) := by
    rw [hUser₂, hUser₁, Space.store_of_load hOp hOpLen, Space.put_of_load hOp]
  have hResult : s₂.mem.load (base + L.dstpOff) (u32 op 8) = some out := by
    rw [Space.load_slice hLoad (by omega), ← hOutLen, slice_patch_self (by omega)]
  have hStore' : (call.prep m).store (u64 op 24) out = some ((call.prep m).put (u64 op 24) out) :=
    Space.store_of_load hDst hOutLen
  have hShape := cryptEffect_shape hEff
  refine agrees_of (hIoctl.trans (copyOut_crypt hBack hStore hResult hStore')) hDirect hIdle hInfo
    (h.plain.put ⟨?_, ?_⟩) ?_
  · have hSame := hShape.hash
    rw [hHash] at hSame
    simpa using hSame
  · rw [hShape.ivsize]
    exact hIvsize
  · intro x hx
    rw [resultRange, hOp] at hx
    exact Space.put_apply_of_disjoint (by rw [hOutLen]; exact hx)

end Calls

/-- **One call.** An admissible call whose host operation succeeds agrees with the
direct call, and leaves the runs related. -/
theorem call_agrees (h : Related L (k + 1) s fcr m) (hPage : L.sizeof ≤ PAGE_SIZE)
    (hIvFits : IvFits K L) (hAdm : Admissible L s call) (hOk : HostOk (Host.cryptodev K) L s call) :
    ∃ c, Cmd.ofWord call.cmd = some c ∧ CallAgrees K L s fcr m call c ∧
      Related L (k + 1) (portFopsIoctl (Host.cryptodev K) L s call).1
        (cryptodevIoctl K fcr (call.prep m) call.arg c).1
        (cryptodevIoctl K fcr (call.prep m) call.arg c).2.1 := by
  obtain ⟨hBlock, hAlloc, c, hCmd, hArgs⟩ := hAdm
  obtain ⟨base, hAlloc⟩ := Option.isSome_iff_exists.mp hAlloc
  rw [h.user] at hArgs
  refine ⟨c, hCmd, ?_⟩
  cases c with
  | CIOCGSESSION => exact gsession_agrees h hPage hBlock hAlloc hOk hIvFits hCmd hArgs
  | CIOCCRYPT => exact crypt_agrees h hPage hBlock hAlloc hOk hCmd hArgs
  | CIOCFSESSION => exact fsession_agrees h hPage hBlock hAlloc hCmd hArgs

-- ---------------------------------------------------------------------------
-- Sequences of calls
-- ---------------------------------------------------------------------------

/-- **Transparent proxy.** Through a port at rest whose messages fit a page, a
sequence of admissible calls whose host operations succeed returns 0 call by
call, and leaves the memory the same calls leave on the device itself. -/
theorem proxy_transparent {nbuf : Nat} (hPage : L.sizeof ≤ PAGE_SIZE) (hIvFits : IvFits K L)
    (hPages : 0 < nbuf) (s : Sys Fcrypt) (fcr : Fcrypt) (calls : List Call) (hIdle : Idle nbuf s)
    (hFd : s.host.st.crInfo = .live (some fcr)) (hTable : Plain L fcr)
    (hAdm : AtCalls (Host.cryptodev K) L (Admissible L) s calls)
    (hOk : AtCalls (Host.cryptodev K) L (HostOk (Host.cryptodev K) L) s calls) :
    Transparent K L s fcr s.user calls := by
  obtain ⟨k, rfl⟩ : ∃ k, nbuf = k + 1 := ⟨nbuf - 1, by omega⟩
  have hRun : ∀ (calls : List Call) (s : Sys Fcrypt) (fcr : Fcrypt) (m : Space),
      Related L (k + 1) s fcr m → AtCalls (Host.cryptodev K) L (Admissible L) s calls →
      AtCalls (Host.cryptodev K) L (HostOk (Host.cryptodev K) L) s calls →
      Transparent K L s fcr m calls := by
    intro calls
    induction calls with
    | nil =>
      intro s fcr m _ _ _
      trivial
    | cons call calls ih =>
      intro s fcr m hRel hAdm hOk
      obtain ⟨c, hCmd, hAgrees, hRel'⟩ := call_agrees hRel hPage hIvFits hAdm.1 hOk.1
      exact ⟨c, hCmd, hAgrees, ih _ _ _ hRel' (hAdm.rest hAgrees.proxied) (hOk.rest hAgrees.proxied)⟩
  exact hRun calls s fcr s.user ⟨hIdle, hFd, rfl, hTable⟩ hAdm hOk

-- ---------------------------------------------------------------------------
-- A session of the null cipher
-- ---------------------------------------------------------------------------

/-- A process with 256 bytes of memory at a port at rest. -/
def idleSys : Sys Fcrypt := { restSys with user := Space.put (fun _ => none) 0 (zeros 256) }

/-- A blocking call that finds its memory at address 0. -/
def blockingCall (prep : Space → Space) (c : Cmd) (arg : Nat) : Call :=
  ⟨prep, c.word, arg, ⟨false, some 0, fun _ => 0, true, true, false⟩⟩

/-- A session of `CRYPTO_NULL`, one byte encrypted from address 200 to 201 with an
IV at 210, and the end of the session. -/
def nullSession : List Call :=
  [blockingCall (·.put 0 (toLE 4 16)) .CIOCGSESSION 0,
   blockingCall (fun m => (m.put 64 (toLE 4 1 ++ zeros 4 ++ toLE 8 1 ++ toLE 8 200 ++ toLE 8 201 ++
     toLE 8 0 ++ toLE 8 210)).put 200 [7]) .CIOCCRYPT 64,
   blockingCall id .CIOCFSESSION 64]

theorem nullKernel_ivFits : IvFits nullKernel Host.smallLayout := by
  intro alg tfm hTfm
  have hNull : tfm = nullTransform := by
    simp only [nullKernel] at hTfm
    split at hTfm
    · exact (Option.some.inj hTfm).symm
    · exact absurd hTfm (by simp)
  rw [hNull]
  exact Nat.zero_le _

/-- The calls of the session are in order, and the host's operations succeed. -/
theorem nullSession_ok :
    AtCalls (Host.cryptodev nullKernel) Host.smallLayout
      (fun s call => Admissible Host.smallLayout s call ∧
        HostOk (Host.cryptodev nullKernel) Host.smallLayout s call) idleSys nullSession := by
  have hStart : Related Host.smallLayout 2 idleSys ⟨[], 0⟩ idleSys.user :=
    ⟨restSys_idle.withUser _, rfl, rfl, by intro ses hSes; exact absurd hSes List.not_mem_nil⟩
  have hAdm₀ : Admissible Host.smallLayout idleSys nullSession[0] :=
    ⟨rfl, rfl, .CIOCGSESSION, by decide, by decide +kernel⟩
  have hOk₀ : HostOk (Host.cryptodev nullKernel) Host.smallLayout idleSys nullSession[0] :=
    hostOk_of_eval hStart.idle .CIOCGSESSION 0 (by decide +kernel)
  obtain ⟨c₀, -, -, hRel₁⟩ := call_agrees hStart (by decide) nullKernel_ivFits hAdm₀ hOk₀
  refine atCalls_cons ⟨hAdm₀, hOk₀⟩ fun _ _ => ?_
  have hAdm₁ : Admissible Host.smallLayout
      (portFopsIoctl (Host.cryptodev nullKernel) Host.smallLayout idleSys nullSession[0]).1
      nullSession[1] :=
    ⟨rfl, rfl, .CIOCCRYPT, by decide, by decide +kernel⟩
  have hOk₁ : HostOk (Host.cryptodev nullKernel) Host.smallLayout
      (portFopsIoctl (Host.cryptodev nullKernel) Host.smallLayout idleSys nullSession[0]).1
      nullSession[1] :=
    hostOk_of_eval hRel₁.idle .CIOCCRYPT 0 (by decide +kernel)
  obtain ⟨c₁, -, -, hRel₂⟩ := call_agrees hRel₁ (by decide) nullKernel_ivFits hAdm₁ hOk₁
  refine atCalls_cons ⟨hAdm₁, hOk₁⟩ fun _ _ => ?_
  refine atCalls_cons ⟨⟨rfl, rfl, .CIOCFSESSION, by decide, by decide +kernel⟩, ?_⟩ fun _ _ => trivial
  exact hostOk_of_eval hRel₂.idle .CIOCFSESSION 0 (by decide +kernel)

theorem nullSession_transparent :
    Transparent nullKernel Host.smallLayout idleSys ⟨[], 0⟩ idleSys.user nullSession :=
  proxy_transparent (by decide) nullKernel_ivFits (by decide) idleSys ⟨[], 0⟩ nullSession
    (restSys_idle.withUser _) rfl (fun _ hSes => absurd hSes List.not_mem_nil)
    (atCalls_imp (fun _ _ h => h.1) nullSession_ok) (atCalls_imp (fun _ _ h => h.2) nullSession_ok)

end VirtioCrypto.Proxy
