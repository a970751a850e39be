import VirtioCrypto.Proxy.Framing

/-!
# Proxy — the copies of a call and the members they name

`port_fops_ioctl` moves bytes between the caller and `cr_data` with lengths that
come from the caller (`keylen`, `len`) and, on the way back, from the response
(`op.crypt.len`), and compares none of them with the size of the member it names.
Here every copy of a call is put down with its length (`copies`).

* `copyIn_eq_pieces` — the copies in are pieces laid over a fresh `cr_data`;
* `copyIn_untouched`, `copyOut_unread` — the copies put down are all that touch `cr_data`;
* `load_lay` — pieces that stay inside their members leave all others alone;
* `portFopsIoctl_copies_inside_iff` — the copies stay inside their members, and the
  message holds what the driver set, exactly when the three lengths fit.
-/

namespace VirtioCrypto.Proxy

open Octets Cryptodev Guest

-- ---------------------------------------------------------------------------
-- The members of cr_data
-- ---------------------------------------------------------------------------

/-- The members of `struct crypto_data`. -/
inductive Member
  | op | keyp | srcp | dstp | ivp | cmd
deriving DecidableEq, Repr

namespace Member

variable (L : Layout)

def off : Member → Nat
  | op => 0
  | keyp => L.keypOff
  | srcp => L.srcpOff
  | dstp => L.dstpOff
  | ivp => L.ivpOff
  | cmd => L.cmdOff

def size : Member → Nat
  | op => OP_SIZE
  | keyp => CRYPTO_CIPHER_MAX_KEY_LEN
  | srcp => L.dataMax
  | dstp => L.dataMax
  | ivp => L.blockMax
  | cmd => 4

theorem off_add_size_le (m : Member) : m.off L + m.size L ≤ L.sizeof := by
  have hBounds := L.cmdOff_bounds
  rw [L.ivpOff_eq] at hBounds
  cases m <;> simp only [off, size, L.keypOff_eq, L.srcpOff_eq, L.dstpOff_eq, L.ivpOff_eq, OP_SIZE,
    CRYPTO_CIPHER_MAX_KEY_LEN] <;> omega

/-- No two members overlap. -/
theorem disjoint {m m' : Member} (h : m ≠ m') :
    Space.Disjoint (m.off L) (m.size L) (m'.off L) (m'.size L) := by
  have hBounds := L.cmdOff_bounds
  rw [L.ivpOff_eq] at hBounds
  unfold Space.Disjoint
  cases m <;> cases m' <;> first
    | exact absurd rfl h
    | simp only [off, size, L.keypOff_eq, L.srcpOff_eq, L.dstpOff_eq, L.ivpOff_eq, OP_SIZE,
        CRYPTO_CIPHER_MAX_KEY_LEN]
      omega

end Member

-- ---------------------------------------------------------------------------
-- The copies in, as pieces
-- ---------------------------------------------------------------------------

/-- Bytes for a member. -/
abbrev Piece := Member × Bytes

/-- The pieces the caller's memory supplies; `none` is `-EFAULT`. -/
def pieces (L : Layout) (user : Space) (arg : Nat) : Cmd → Option (List Piece)
  | .CIOCGSESSION => do
    let op ← user.load arg OP_SIZE
    let key ← user.load (u64 op 16) (u32 op 8)
    some [(.op, op), (.keyp, key)]
  | .CIOCCRYPT => do
    let op ← user.load arg OP_SIZE
    let src ← user.load (u64 op 16) (u32 op 8)
    let dst ← user.load (u64 op 24) (u32 op 8)
    let iv ← user.load (u64 op 40) L.blockMax
    some [(.op, op), (.srcp, src), (.dstp, dst), (.ivp, iv)]
  | .CIOCFSESSION => do
    let sid ← user.load arg 4
    some [(.op, sid)]

/-- Pieces written to a `cr_data` at `base`, one after the other. -/
def lay (L : Layout) (base : Nat) (ps : List Piece) (mem : Space) : Space :=
  ps.foldl (fun mem p => mem.put (base + p.1.off L) p.2) mem

variable {L : Layout} {user mem : Space} {base arg : Nat}

/-- The copies of `port_fops_ioctl` into `cr_data` are its pieces, laid in order. -/
theorem copyIn_eq_pieces (c : Cmd) :
    copyIn L user mem base arg c = (pieces L user arg c).map (lay L base · mem) := by
  cases c <;> simp only [copyIn, pieces, Option.bind_eq_bind, Option.map_bind] <;>
    simp [lay, Member.off, Function.comp_def]

/-- The members a command's copies name. -/
def named : Cmd → List Member
  | .CIOCGSESSION => [.op, .keyp]
  | .CIOCCRYPT => [.op, .srcp, .dstp, .ivp]
  | .CIOCFSESSION => [.op]

/-- No member is named twice, and the command word not at all. -/
theorem named_nodup (c : Cmd) : (named c).Nodup ∧ .cmd ∉ named c := by
  cases c <;> decide

theorem pieces_named {c : Cmd} {ps : List Piece} (h : pieces L user arg c = some ps) :
    ps.map Prod.fst = named c := by
  cases c <;> simp only [pieces, Option.bind_eq_bind, Option.bind_eq_some_iff, Option.some.injEq] at h
  · obtain ⟨op, -, key, -, rfl⟩ := h
    rfl
  · obtain ⟨op, -, src, -, dst, -, iv, -, rfl⟩ := h
    rfl
  · obtain ⟨sid, -, rfl⟩ := h
    rfl

/-- The bytes of a member once a piece for it, if there is one, has been laid over
what it held. -/
def overlaid (ps : List Piece) (m : Member) (held : Bytes) : Bytes :=
  patch held 0 ((ps.lookup m).getD [])

theorem lookup_of_notMem {ps : List Piece} {m : Member} (h : m ∉ ps.map Prod.fst) :
    ps.lookup m = none := by
  rw [List.lookup_eq_none_iff]
  intro p hp
  exact bne_iff_ne.mpr fun hEq => h (List.mem_map.mpr ⟨p, hp, hEq.symm⟩)

/-- **Pieces that stay inside their members.** Every member holds the piece laid
over it, if there was one, and otherwise what it held before. -/
theorem load_lay {ps : List Piece} (hNodup : (ps.map Prod.fst).Nodup)
    (hFit : ∀ p ∈ ps, p.2.length ≤ p.1.size L) (m : Member) {held : Bytes}
    (hHeld : mem.load (base + m.off L) (m.size L) = some held) :
    (lay L base ps mem).load (base + m.off L) (m.size L) = some (overlaid ps m held) := by
  -- at most one piece is for `m`; those before and after it are for other members
  induction ps generalizing mem held with
  | nil => simpa [lay, overlaid, patch] using hHeld
  | cons p ps ih =>
    obtain ⟨m', bs⟩ := p
    rw [List.map_cons, List.nodup_cons] at hNodup
    have hBs : bs.length ≤ m'.size L := hFit _ List.mem_cons_self
    have hRest : ∀ p ∈ ps, p.2.length ≤ p.1.size L := fun p hp => hFit p (List.mem_cons_of_mem _ hp)
    by_cases hm : m = m'
    · subst hm
      have hHere : (mem.put (base + m.off L + 0) bs).load (base + m.off L) (m.size L) =
          some (patch held 0 bs) := Space.load_put_inside hHeld (by omega)
      have hLater := ih hNodup.2 hRest hHere
      unfold overlaid at hLater ⊢
      rw [lookup_of_notMem hNodup.1] at hLater
      simpa [lay, List.lookup_cons, patch] using hLater
    · have hOther : (mem.put (base + m'.off L) bs).load (base + m.off L) (m.size L) = some held := by
        rw [Space.load_put_disjoint, hHeld]
        have hDisjoint := Member.disjoint L (Ne.symm hm)
        unfold Space.Disjoint at hDisjoint ⊢
        omega
      have hLater := ih hNodup.2 hRest hOther
      have hLookup : ((m', bs) :: ps).lookup m = ps.lookup m := by
        rw [List.lookup_cons, beq_eq_false_iff_ne.mpr hm]
      unfold overlaid at hLater ⊢
      rw [hLookup]
      exact hLater

-- ---------------------------------------------------------------------------
-- The copies of a call
-- ---------------------------------------------------------------------------

/-- What a copy names: a member, or all of `cr_data`. -/
inductive Target
  | member (m : Member)
  | crData
deriving DecidableEq, Repr

def Target.size (L : Layout) : Target → Nat
  | .member m => m.size L
  | .crData => L.sizeof

/-- A copy to or from the start of what it names. A `copy_from_user` that faults
clears the bytes it could not fetch, so it touches as many as one that does not. -/
structure Copy where
  target : Target
  len : Nat
deriving DecidableEq, Repr

def Copy.Inside (L : Layout) (k : Copy) : Prop := k.len ≤ k.target.size L

instance (L : Layout) (k : Copy) : Decidable (k.Inside L) :=
  inferInstanceAs (Decidable (k.len ≤ k.target.size L))

/-- The copies from the caller, up to the one that faults. -/
def copiesIn (L : Layout) (user : Space) (arg : Nat) : Cmd → List Copy
  | .CIOCGSESSION =>
    ⟨.member .op, OP_SIZE⟩ ::
      match user.load arg OP_SIZE with
      | none => []
      | some op => [⟨.member .keyp, u32 op 8⟩]
  | .CIOCCRYPT =>
    ⟨.member .op, OP_SIZE⟩ ::
      match user.load arg OP_SIZE with
      | none => []
      | some op =>
        ⟨.member .srcp, u32 op 8⟩ ::
          if (user.load (u64 op 16) (u32 op 8)).isNone then [] else
          ⟨.member .dstp, u32 op 8⟩ ::
            if (user.load (u64 op 24) (u32 op 8)).isNone then [] else [⟨.member .ivp, L.blockMax⟩]
  | .CIOCFSESSION => [⟨.member .op, 4⟩]

section Calls

variable {σ : Type} (dev : Host.DevCrypto σ) (L : Layout)

/-- The copies to the caller, after `fill_readbuf`. -/
def copiesOut (s : Sys σ) (base arg : Nat) : Cmd → List Copy
  | .CIOCGSESSION => [⟨.member .op, OP_SIZE⟩]
  | .CIOCCRYPT =>
    ⟨.member .op, OP_SIZE⟩ ::
      match s.mem.load base OP_SIZE with
      | none => []
      | some op => if (s.user.store arg op).isSome then [⟨.member .dstp, u32 op 8⟩] else []
  | .CIOCFSESSION => [⟨.member .op, 4⟩]

/-- A call that gets to its first copy: the state there, the command and the
address of its `cr_data`. -/
def begun (s : Sys σ) (call : Call) : Option (Sys σ × Cmd × Nat) :=
  match waitWritable dev L s call.env with
  | (_, .error _) => none
  | (s, .ok ()) =>
    if !s.guest.guestConnected then none else
    match call.env.kmalloc with
    | none => none
    | some base => (Cmd.ofWord call.cmd).map fun c => (s, c, base)

/-- The copies of a call from its request on. -/
def copiesAfter (s : Sys σ) (call : Call) (c : Cmd) (base : Nat) : List Copy :=
  match exchange dev L (queue L s base).2 (queue L s base).1 call.env with
  | (_, .error _) => []
  | (s, .ok ()) =>
    ⟨.crData, (received L s).length⟩ :: copiesOut (deliver L s base) base call.arg c

/-- All copies of a call. -/
def copies (s : Sys σ) (call : Call) : List Copy :=
  match begun dev L (entered s call) call with
  | none => []
  | some (s₁, c, _) =>
    copiesIn L s₁.user call.arg c ++
      match prepare dev L (entered s call) call with
      | (_, .error _) => []
      | (s₂, .ok (c, base)) => copiesAfter dev L s₂ call c base

/-- The message at `base` holds in every member what the driver set it to: the
command in `cmd`, and in the others the caller's bytes over the fresh ones. -/
def AsSet (s : Sys σ) (call : Call) (c : Cmd) (base : Nat) : Prop :=
  s.mem.load (base + L.cmdOff) 4 = some (toLE 4 call.cmd) ∧
    ∃ ps, pieces L s.user call.arg c = some ps ∧
      ∀ m : Member, s.mem.load (base + m.off L) (m.size L) =
        some (overlaid ps m (slice (blank L call.env.fresh call.cmd) (m.off L) (m.size L)))

/-- Every copy of a call stays inside what it names, and the message it queues is
the one the driver set. -/
def CopiesInside (s : Sys σ) (call : Call) : Prop :=
  (∀ k ∈ copies dev L s call, k.Inside L) ∧
    ∀ s₁ c base, prepare dev L (entered s call) call = (s₁, .ok (c, base)) → AsSet L s₁ call c base

/-- The length in a caller's operation fits the members it is used for. -/
def RequestFits (user : Space) (arg : Nat) : Cmd → Prop
  | .CIOCGSESSION => ∀ op, user.load arg OP_SIZE = some op → u32 op 8 ≤ CRYPTO_CIPHER_MAX_KEY_LEN
  | .CIOCCRYPT => ∀ op, user.load arg OP_SIZE = some op → u32 op 8 ≤ L.dataMax
  | .CIOCFSESSION => True

/-- The length in a `CIOCCRYPT` response fits `dstp`, if the operation itself can
be handed to the caller. -/
def ResponseFits (s : Sys σ) (base arg : Nat) (c : Cmd) : Prop :=
  c = .CIOCCRYPT → ∀ op, s.mem.load base OP_SIZE = some op → (s.user.store arg op).isSome →
    u32 op 8 ≤ L.dataMax

/-- `keylen` and `len` of the request and `len` of the response fit. -/
def LengthsFit (s : Sys σ) (call : Call) : Prop :=
  (∀ s₁ c base, begun dev L (entered s call) call = some (s₁, c, base) →
    RequestFits L s₁.user call.arg c) ∧
  ∀ s₁ c base s₂, prepare dev L (entered s call) call = (s₁, .ok (c, base)) →
    exchange dev L (queue L s₁ base).2 (queue L s₁ base).1 call.env = (s₂, .ok ()) →
    ResponseFits L (deliver L s₂ base) base call.arg c

end Calls

-- ---------------------------------------------------------------------------
-- The log and the lengths
-- ---------------------------------------------------------------------------

/-- When no copy from the caller faults, the log has one entry for each piece. -/
theorem copiesIn_eq_pieces {c : Cmd} {ps : List Piece} (h : pieces L user arg c = some ps) :
    copiesIn L user arg c = ps.map fun p => ⟨.member p.1, p.2.length⟩ := by
  cases c <;> simp only [pieces, Option.bind_eq_bind, Option.bind_eq_some_iff, Option.some.injEq] at h
  · obtain ⟨op, hOp, key, hKey, rfl⟩ := h
    simp [copiesIn, hOp, Space.length_of_load hOp, Space.length_of_load hKey]
  · obtain ⟨op, hOp, src, hSrc, dst, hDst, iv, hIv, rfl⟩ := h
    simp [copiesIn, hOp, hSrc, hDst, Space.length_of_load hOp, Space.length_of_load hSrc,
      Space.length_of_load hDst, Space.length_of_load hIv]
  · obtain ⟨sid, hSid, rfl⟩ := h
    simp [copiesIn, Space.length_of_load hSid]

theorem lay_untouched {ps : List Piece} {x : Nat}
    (hx : ∀ p ∈ ps, x < base + p.1.off L ∨ base + p.1.off L + p.2.length ≤ x) :
    lay L base ps mem x = mem x := by
  induction ps generalizing mem with
  | nil => rfl
  | cons p ps ih =>
    obtain ⟨hHere, hRest⟩ := List.forall_mem_cons.mp hx
    exact (ih hRest).trans (Space.put_apply_of_disjoint hHere)

/-- The log is complete: a byte outside its ranges is as it was. -/
theorem copyIn_untouched {c : Cmd} {mem' : Space} {x : Nat}
    (h : copyIn L user mem base arg c = some mem')
    (hx : ∀ m n, ⟨.member m, n⟩ ∈ copiesIn L user arg c →
      x < base + m.off L ∨ base + m.off L + n ≤ x) : mem' x = mem x := by
  rw [copyIn_eq_pieces, Option.map_eq_some_iff] at h
  obtain ⟨ps, hPieces, rfl⟩ := h
  rw [copiesIn_eq_pieces hPieces] at hx
  exact lay_untouched fun p hp => hx _ _ (List.mem_map_of_mem hp)

theorem copiesIn_inside_iff (c : Cmd) :
    (∀ k ∈ copiesIn L user arg c, k.Inside L) ↔ RequestFits L user arg c := by
  cases c with
  | CIOCGSESSION =>
    unfold copiesIn RequestFits
    cases user.load arg OP_SIZE <;> simp [Copy.Inside, Target.size, Member.size]
  | CIOCCRYPT =>
    unfold copiesIn RequestFits
    rcases user.load arg OP_SIZE with _ | op
    · simp [Copy.Inside, Target.size, Member.size]
    · -- the copies after srcp may not be made, but ask for no more than it does
      simp only [List.forall_mem_cons, Option.some.injEq, forall_eq']
      refine ⟨fun h => h.2.1, fun h => ⟨Nat.le_refl _, h, ?_⟩⟩
      intro k hk
      split at hk
      · simp at hk
      · rcases List.mem_cons.mp hk with rfl | hk
        · exact h
        · split at hk
          · simp at hk
          · rw [List.mem_singleton.mp hk]
            exact Nat.le_refl _
  | CIOCFSESSION => simp [copiesIn, RequestFits, Copy.Inside, Target.size, Member.size, OP_SIZE]

section Calls

variable {σ : Type} {dev : Host.DevCrypto σ} {s : Sys σ} {call : Call}

theorem copiesOut_inside_iff (c : Cmd) :
    (∀ k ∈ copiesOut s base arg c, k.Inside L) ↔ ResponseFits L s base arg c := by
  cases c with
  | CIOCGSESSION => simp [copiesOut, ResponseFits, Copy.Inside, Target.size, Member.size]
  | CIOCCRYPT =>
    unfold copiesOut ResponseFits
    rcases s.mem.load base OP_SIZE with _ | op
    · simp [Copy.Inside, Target.size, Member.size]
    · by_cases hStore : (s.user.store arg op).isSome <;>
        simp [hStore, Copy.Inside, Target.size, Member.size]
  | CIOCFSESSION => simp [copiesOut, ResponseFits, Copy.Inside, Target.size, Member.size, OP_SIZE]

theorem copyToUser_setMem (s : Sys σ) (mem' : Space) (a : Nat) (bs : Bytes) :
    copyToUser (s.setMem mem') a bs = ((copyToUser s a bs).1.setMem mem', (copyToUser s a bs).2) := by
  have hUser : (s.setMem mem').user = s.user := rfl
  unfold copyToUser
  rw [hUser]
  cases s.user.store a bs <;> rfl

/-- The log is complete on the way out, too: a byte outside its ranges is not read. -/
theorem copyOut_unread {c : Cmd} {mem' : Space}
    (h : ∀ m n, ⟨.member m, n⟩ ∈ copiesOut s base arg c →
      ∀ i < n, s.mem (base + m.off L + i) = mem' (base + m.off L + i)) :
    copyOut L (s.setMem mem') base arg c =
      ((copyOut L s base arg c).1.setMem mem', (copyOut L s base arg c).2) := by
  have hRead : ∀ m n, ⟨.member m, n⟩ ∈ copiesOut s base arg c →
      (s.setMem mem').mem.load (base + m.off L) n = s.mem.load (base + m.off L) n :=
    fun m n hMem => (Space.load_congr (h m n hMem)).symm
  cases c with
  | CIOCGSESSION =>
    have hOp : (s.setMem mem').mem.load base OP_SIZE = s.mem.load base OP_SIZE :=
      hRead .op OP_SIZE List.mem_cons_self
    unfold copyOut
    dsimp only
    rw [hOp]
    cases s.mem.load base OP_SIZE with
    | none => rfl
    | some op =>
      dsimp only
      rw [copyToUser_setMem]
      generalize copyToUser s arg op = r
      obtain ⟨s', _ | _⟩ := r <;> rfl
  | CIOCCRYPT =>
    have hOp : (s.setMem mem').mem.load base OP_SIZE = s.mem.load base OP_SIZE :=
      hRead .op OP_SIZE List.mem_cons_self
    have hDst : ∀ op user, s.mem.load base OP_SIZE = some op → s.user.store arg op = some user →
        (s.setMem mem').mem.load (base + L.dstpOff) (u32 op 8) = s.mem.load (base + L.dstpOff) (u32 op 8) := by
      intro op user hLoad hStore
      refine hRead .dstp (u32 op 8) (List.mem_cons_of_mem _ ?_)
      rw [hLoad]
      dsimp only
      rw [hStore]
      exact List.mem_singleton_self _
    unfold copyOut
    dsimp only
    rw [hOp]
    cases hLoad : s.mem.load base OP_SIZE with
    | none => rfl
    | some op =>
      dsimp only
      rw [copyToUser_setMem, copyToUser]
      cases hStore : s.user.store arg op with
      | none => rfl
      | some user =>
        -- the caller's memory has changed, the guest's has not
        have hHere : ({ s with user := user } : Sys σ).mem.load (base + L.dstpOff) (u32 op 8) =
          s.mem.load (base + L.dstpOff) (u32 op 8) := rfl
        have hThere : (({ s with user := user } : Sys σ).setMem mem').mem.load (base + L.dstpOff) (u32 op 8) =
          s.mem.load (base + L.dstpOff) (u32 op 8) := hDst op user hLoad hStore
        dsimp only
        rw [hHere, hThere]
        cases s.mem.load (base + L.dstpOff) (u32 op 8) with
        | none => rfl
        | some dst =>
          dsimp only
          rw [copyToUser_setMem]
          generalize copyToUser { s with user := user } (u64 op 24) dst = r
          obtain ⟨s', _ | _⟩ := r <;> rfl
  | CIOCFSESSION =>
    have hSid : (s.setMem mem').mem.load base 4 = s.mem.load base 4 := hRead .op 4 List.mem_cons_self
    unfold copyOut
    dsimp only
    rw [hSid]
    cases s.mem.load base 4 with
    | none => rfl
    | some sid =>
      dsimp only
      rw [copyToUser_setMem]
      generalize copyToUser s arg sid = r
      obtain ⟨s', _ | _⟩ := r <;> rfl

/-- `fill_readbuf` copies no more than it was asked for. -/
theorem length_received_le : (received L s).length ≤ L.sizeof := by
  unfold received fillReadbuf
  split
  · simp
  · split
    split
    · simp
    · simp only [slice, List.length_take]
      omega

theorem begun_of_prepare {s₁ : Sys σ} {c : Cmd}
    (h : prepare dev L s call = (s₁, .ok (c, base))) :
    ∃ s₀ mem, begun dev L s call = some (s₀, c, base) ∧ s₁ = s₀.setMem mem ∧
      copyIn L s₀.user (allocate L s₀.mem base call.env.fresh call.cmd) base call.arg c = some mem := by
  unfold prepare at h
  unfold begun
  rcases hWait : waitWritable dev L s call.env with ⟨s₀, _ | _⟩
  · simp [hWait] at h
  · simp only [hWait] at h ⊢
    split at h
    · simp at h
    · next hConn =>
      rw [if_neg hConn]
      cases hAlloc : call.env.kmalloc with
      | none => simp [hAlloc] at h
      | some base' =>
        cases hCmd : Cmd.ofWord call.cmd with
        | none => simp [hAlloc, hCmd] at h
        | some c' =>
          simp only [hAlloc, hCmd] at h
          split at h
          · simp at h
          · next mem hCopy =>
            simp only [Prod.mk.injEq, Except.ok.injEq] at h
            obtain ⟨rfl, rfl, rfl⟩ := h
            exact ⟨s₀, mem, rfl, rfl, hCopy⟩

/-- The bytes of a member in a fresh `cr_data`. -/
theorem load_allocate_member (mem : Space) (base : Nat) (fresh : Nat → UInt8) (word : Nat) (m : Member) :
    (allocate L mem base fresh word).load (base + m.off L) (m.size L) =
      some (slice (blank L fresh word) (m.off L) (m.size L)) :=
  Space.load_slice (load_allocate mem base fresh word) (m.off_add_size_le L)

/-- A request whose lengths fit leaves every member as the driver set it. -/
theorem asSet_of_requestFits {s₀ : Sys σ} {c : Cmd} {mem : Space}
    (hFit : RequestFits L s₀.user call.arg c)
    (hCopy : copyIn L s₀.user (allocate L s₀.mem base call.env.fresh call.cmd) base call.arg c =
      some mem) : AsSet L (s₀.setMem mem) call c base := by
  rw [copyIn_eq_pieces, Option.map_eq_some_iff] at hCopy
  obtain ⟨ps, hPieces, rfl⟩ := hCopy
  have hInside : ∀ p ∈ ps, p.2.length ≤ p.1.size L := by
    rw [← copiesIn_inside_iff, copiesIn_eq_pieces hPieces] at hFit
    intro p hp
    exact hFit _ (List.mem_map_of_mem hp)
  obtain ⟨hNodup, hCmd⟩ := named_nodup c
  rw [← pieces_named hPieces] at hNodup hCmd
  have hMember := fun m =>
    load_lay hNodup hInside m (load_allocate_member s₀.mem base call.env.fresh call.cmd m)
  refine ⟨?_, ps, hPieces, hMember⟩
  have hRoom : L.cmdOff + (toLE 4 call.cmd).length ≤
      ((List.range L.sizeof).map call.env.fresh).length := by
    simpa using L.cmdOff_bounds.2
  have hWord : slice (blank L call.env.fresh call.cmd) L.cmdOff 4 = toLE 4 call.cmd := by
    have hSelf := slice_patch_self hRoom
    rwa [length_toLE] at hSelf
  have hLoad := hMember .cmd
  simp [overlaid, lookup_of_notMem hCmd, patch, Member.off, Member.size, hWord] at hLoad
  exact hLoad

-- ---------------------------------------------------------------------------
-- The result
-- ---------------------------------------------------------------------------

/-- The copies of a call that sent a request, from there on. -/
theorem copiesAfter_inside_iff {c : Cmd} :
    (∀ k ∈ copiesAfter dev L s call c base, k.Inside L) ↔
      ∀ s₂, exchange dev L (queue L s base).2 (queue L s base).1 call.env = (s₂, .ok ()) →
        ResponseFits L (deliver L s₂ base) base call.arg c := by
  unfold copiesAfter
  rcases exchange dev L (queue L s base).2 (queue L s base).1 call.env with ⟨s₂, _ | _⟩
  · simp
  · rw [List.forall_mem_cons, copiesOut_inside_iff]
    constructor
    · rintro ⟨-, hOut⟩ s₂' hEq
      rw [← (Prod.mk.inj hEq).1]
      exact hOut
    · intro h
      exact ⟨length_received_le, h s₂ rfl⟩

/-- **Copies in the driver.** Whatever the caller's operation, whatever waits on the
in queue and whatever the host does: every copy of a call stays inside the member it
names and the message is the one the driver set, exactly when `keylen`, `len` and the
`len` of the response fit the members they are used for. -/
theorem portFopsIoctl_copies_inside_iff (dev : Host.DevCrypto σ) (L : Layout) (s : Sys σ)
    (call : Call) : CopiesInside dev L s call ↔ LengthsFit dev L s call := by
  unfold CopiesInside LengthsFit copies
  constructor
  · rintro ⟨hInside, -⟩
    refine ⟨?_, ?_⟩
    · intro s₁ c base hBegun
      rw [hBegun] at hInside
      exact (copiesIn_inside_iff c).mp fun k hk => hInside k (List.mem_append_left _ hk)
    · intro s₁ c base s₂ hPrep
      obtain ⟨s₀, mem, hBegun, -, -⟩ := begun_of_prepare hPrep
      rw [hBegun, hPrep] at hInside
      exact copiesAfter_inside_iff.mp (fun k hk => hInside k (List.mem_append_right _ hk)) s₂
  · rintro ⟨hRequest, hResponse⟩
    refine ⟨?_, ?_⟩
    · rcases hBegun : begun dev L (entered s call) call with _ | ⟨s₁, c, base⟩
      · simp
      · simp only [List.forall_mem_append]
        refine ⟨(copiesIn_inside_iff c).mpr (hRequest s₁ c base hBegun), ?_⟩
        rcases hPrep : prepare dev L (entered s call) call with ⟨s₂, _ | ⟨c', base'⟩⟩
        · simp
        · exact copiesAfter_inside_iff.mpr fun s₃ => hResponse s₂ c' base' s₃ hPrep
    · intro s₁ c base hPrep
      obtain ⟨s₀, mem, hBegun, rfl, hCopy⟩ := begun_of_prepare hPrep
      exact asSet_of_requestFits (hRequest s₀ c base hBegun) hCopy

end Calls

-- ---------------------------------------------------------------------------
-- A key that is too long
-- ---------------------------------------------------------------------------

/-- A session to be created with a key of 72 bytes, whose last four are the number
of another command. -/
def longKeyUser : Space :=
  Space.put (fun _ => none) 0
    (patch (patch (zeros OP_SIZE) 8 (toLE 4 72)) 16 (toLE 8 OP_SIZE) ++
      zeros 68 ++ toLE 4 Cmd.CIOCFSESSION.word)

def longKeyCall : Call :=
  ⟨fun _ => longKeyUser, Cmd.CIOCGSESSION.word, 0, ⟨false, some 0, fun _ => 0, true, true, false⟩⟩

/-- The copy of the key is not inside `keyp`: it runs over the arrays and the command
word, and what the host receives for this `CIOCGSESSION` is a `CIOCFSESSION`. -/
theorem long_key_overwrites_cmd :
    ¬ CopiesInside (Host.cryptodev nullKernel) Host.smallLayout restSys longKeyCall ∧
      (prepare (Host.cryptodev nullKernel) Host.smallLayout (entered restSys longKeyCall)
          longKeyCall).2 = .ok (.CIOCGSESSION, 0) ∧
      ((prepare (Host.cryptodev nullKernel) Host.smallLayout (entered restSys longKeyCall)
          longKeyCall).1.mem.load Host.smallLayout.cmdOff 4).map ofLE =
        some Cmd.CIOCFSESSION.word := by
  have hCopy : ⟨.member .keyp, 72⟩ ∈
      copies (Host.cryptodev nullKernel) Host.smallLayout restSys longKeyCall := by
    decide +kernel
  have hOver : ¬ (⟨.member .keyp, 72⟩ : Copy).Inside Host.smallLayout := by decide
  refine ⟨fun h => hOver (h.1 _ hCopy), ?_, ?_⟩
  · decide +kernel
  · decide +kernel

end VirtioCrypto.Proxy
