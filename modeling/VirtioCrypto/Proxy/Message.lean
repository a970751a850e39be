import VirtioCrypto.Proxy.Channel

/-!
# Proxy — the message a call puts together

What `cr_data` holds when the request is queued, for a call whose copies stay
inside the members they name: the fresh contents of the allocation, overwritten
by the command word and by the pieces the caller's memory supplies.

* `copyIn_gsession`, `copyIn_crypt`, `copyIn_fsession` — the three messages;
* `u32_cmdOff_patch` — a piece in front of the command word leaves it alone.
-/

namespace VirtioCrypto.Proxy

open Octets Cryptodev Guest

variable {L : Layout} {user mem : Space} {base arg : Nat} {d : Bytes}

/-- A fresh `cr_data` with its command word. -/
def blank (L : Layout) (fresh : Nat → UInt8) (w : Nat) : Bytes :=
  patch ((List.range L.sizeof).map fresh) L.cmdOff (toLE 4 w)

theorem length_blank (L : Layout) (fresh : Nat → UInt8) (w : Nat) :
    (blank L fresh w).length = L.sizeof := by
  have hBounds := L.cmdOff_bounds
  unfold blank
  rw [length_patch] <;> simp
  exact hBounds.2

theorem load_allocate (mem : Space) (base : Nat) (fresh : Nat → UInt8) (w : Nat) :
    (allocate L mem base fresh w).load base L.sizeof = some (blank L fresh w) := by
  have hBounds := L.cmdOff_bounds
  have hFresh : (mem.put base ((List.range L.sizeof).map fresh)).load base
      ((List.range L.sizeof).map fresh).length = some ((List.range L.sizeof).map fresh) :=
    Space.load_put_self
  rw [List.length_map, List.length_range] at hFresh
  exact Space.load_put_inside hFresh (by rw [length_toLE]; exact hBounds.2)

theorem u32_cmdOff_blank (fresh : Nat → UInt8) (c : Cmd) :
    u32 (blank L fresh c.word) L.cmdOff = c.word := by
  have hFit : L.cmdOff + (toLE 4 c.word).length ≤ ((List.range L.sizeof).map fresh).length := by
    rw [length_toLE, List.length_map, List.length_range]
    exact L.cmdOff_bounds.2
  have hSlice := slice_patch_self hFit
  rw [length_toLE] at hSlice
  unfold u32 blank
  rw [hSlice, ofLE_toLE c.word_lt]

/-- A piece that ends in front of the command word leaves the word alone. -/
theorem u32_cmdOff_patch {off : Nat} {ys : Bytes} (hLen : d.length = L.sizeof)
    (hFit : off + ys.length ≤ L.ivpOff + L.blockMax) :
    u32 (patch d off ys) L.cmdOff = u32 d L.cmdOff := by
  have hBounds := L.cmdOff_bounds
  unfold u32
  rw [slice_patch_disjoint (by omega) (Or.inr (by omega))]

-- ---------------------------------------------------------------------------
-- The three messages
-- ---------------------------------------------------------------------------

theorem copyIn_gsession {op key : Bytes} (hOp : user.load arg OP_SIZE = some op)
    (hKey : user.load (u64 op 16) (u32 op 8) = some key)
    (hLen : u32 op 8 ≤ CRYPTO_CIPHER_MAX_KEY_LEN) (hMem : mem.load base L.sizeof = some d) :
    ∃ mem', copyIn L user mem base arg .CIOCGSESSION = some mem' ∧
      mem'.load base L.sizeof = some (patch (patch d 0 op) L.keypOff key) := by
  have hBounds := L.cmdOff_bounds
  have hOpLen : op.length = 48 := Space.length_of_load hOp
  have hKeyLen := Space.length_of_load hKey
  rw [L.ivpOff_eq] at hBounds
  unfold CRYPTO_CIPHER_MAX_KEY_LEN at hLen
  refine ⟨(mem.put base op).put (base + L.keypOff) key, ?_, ?_⟩
  · simp [copyIn, hOp, hKey]
  · have hFirst : (mem.put (base + 0) op).load base L.sizeof = some (patch d 0 op) :=
      Space.load_put_inside hMem (by omega)
    exact Space.load_put_inside hFirst (by rw [L.keypOff_eq]; omega)

theorem copyIn_crypt {op src dst iv : Bytes} (hOp : user.load arg OP_SIZE = some op)
    (hSrc : user.load (u64 op 16) (u32 op 8) = some src)
    (hDst : user.load (u64 op 24) (u32 op 8) = some dst)
    (hIv : user.load (u64 op 40) L.blockMax = some iv) (hLen : u32 op 8 ≤ L.dataMax)
    (hMem : mem.load base L.sizeof = some d) :
    ∃ mem', copyIn L user mem base arg .CIOCCRYPT = some mem' ∧
      mem'.load base L.sizeof =
        some (patch (patch (patch (patch d 0 op) L.srcpOff src) L.dstpOff dst) L.ivpOff iv) := by
  have hBounds := L.cmdOff_bounds
  have hOpLen : op.length = 48 := Space.length_of_load hOp
  have hSrcLen := Space.length_of_load hSrc
  have hDstLen := Space.length_of_load hDst
  have hIvLen := Space.length_of_load hIv
  rw [L.ivpOff_eq] at hBounds
  refine ⟨(((mem.put base op).put (base + L.srcpOff) src).put (base + L.dstpOff) dst).put
    (base + L.ivpOff) iv, ?_, ?_⟩
  · simp [copyIn, hOp, hSrc, hDst, hIv]
  · have hFirst : (mem.put (base + 0) op).load base L.sizeof = some (patch d 0 op) :=
      Space.load_put_inside hMem (by omega)
    have hSecond : (((mem.put base op).put (base + L.srcpOff) src)).load base L.sizeof = _ :=
      Space.load_put_inside hFirst
      (by rw [L.srcpOff_eq]; omega)
    have hThird : (((mem.put base op).put (base + L.srcpOff) src).put (base + L.dstpOff) dst).load base
        L.sizeof = _ := Space.load_put_inside hSecond
      (by rw [L.dstpOff_eq]; omega)
    exact Space.load_put_inside hThird (by rw [L.ivpOff_eq]; omega)

theorem copyIn_fsession {sid : Bytes} (hSid : user.load arg 4 = some sid)
    (hMem : mem.load base L.sizeof = some d) :
    ∃ mem', copyIn L user mem base arg .CIOCFSESSION = some mem' ∧
      mem'.load base L.sizeof = some (patch d 0 sid) := by
  have hBounds := L.cmdOff_bounds
  have hSidLen := Space.length_of_load hSid
  rw [L.ivpOff_eq] at hBounds
  refine ⟨mem.put base sid, by simp [copyIn, hSid], ?_⟩
  have hFirst : (mem.put (base + 0) sid).load base L.sizeof = some (patch d 0 sid) :=
    Space.load_put_inside hMem (by omega)
  exact hFirst

-- ---------------------------------------------------------------------------
-- The pieces in the messages
-- ---------------------------------------------------------------------------

theorem gsession_parts {op key : Bytes} (hd : d.length = L.sizeof) (hOp : op.length = OP_SIZE)
    (hKey : key.length ≤ CRYPTO_CIPHER_MAX_KEY_LEN) :
    slice (patch (patch d 0 op) L.keypOff key) 0 OP_SIZE = op ∧
      slice (patch (patch d 0 op) L.keypOff key) L.keypOff key.length = key ∧
      u32 (patch (patch d 0 op) L.keypOff key) L.cmdOff = u32 d L.cmdOff := by
  have hBounds := L.cmdOff_bounds
  have hIv := L.ivpOff_eq
  have hKeyp := L.keypOff_eq
  unfold CRYPTO_CIPHER_MAX_KEY_LEN at hKey
  unfold OP_SIZE at hOp ⊢
  have hLen : (patch d 0 op).length = L.sizeof := by rw [length_patch (by omega), hd]
  have hSelf : slice (patch d 0 op) 0 op.length = op := slice_patch_self (by omega)
  refine ⟨?_, slice_patch_self (by omega), ?_⟩
  · rw [slice_patch_disjoint (by omega) (Or.inl (by omega)), ← hOp, hSelf]
  · rw [u32_cmdOff_patch hLen (by omega), u32_cmdOff_patch hd (by omega)]

/-- A session number written into the message is one written into the struct. -/
theorem slice_patch_ses {op : Bytes} (hd : d.length = L.sizeof) (hOp : slice d 0 OP_SIZE = op)
    (sid : Nat) :
    slice (patch d SES_OFF (toLE 4 sid)) 0 OP_SIZE = patch op SES_OFF (toLE 4 sid) := by
  have hBounds := L.cmdOff_bounds
  have hIv := L.ivpOff_eq
  have hLen := length_toLE 4 sid
  unfold OP_SIZE SES_OFF at *
  rw [slice_patch_inside (by omega) (by omega) (by omega) (by omega), hOp]

/-- The number in a struct that was patched with it. -/
theorem toLE_ses {P : Type} {sop : SessionOp P} {op : Bytes} {sid : Nat} (hOp : op.length = OP_SIZE)
    (h : sop.raw = patch op SES_OFF (toLE 4 sid)) : toLE 4 sop.ses = toLE 4 sid := by
  have hField : slice (patch op SES_OFF (toLE 4 sid)) SES_OFF (toLE 4 sid).length = toLE 4 sid :=
    slice_patch_self (by rw [hOp, length_toLE]; decide)
  have hBack := toLE_ofLE (toLE 4 sid)
  rw [length_toLE] at hField hBack
  rw [SessionOp.ses, h, u32, hField, hBack]

theorem crypt_parts {op src dst iv : Bytes} (hd : d.length = L.sizeof) (hOp : op.length = OP_SIZE)
    (hSrc : src.length ≤ L.dataMax) (hDst : dst.length ≤ L.dataMax) (hIv : iv.length = L.blockMax) :
    let e := patch (patch (patch (patch d 0 op) L.srcpOff src) L.dstpOff dst) L.ivpOff iv
    slice e 0 OP_SIZE = op ∧ slice e L.srcpOff src.length = src ∧
      slice e L.dstpOff dst.length = dst ∧ slice e L.ivpOff L.blockMax = iv ∧
      u32 e L.cmdOff = u32 d L.cmdOff := by
  have hBounds := L.cmdOff_bounds
  have hIvp := L.ivpOff_eq
  have hSrcp := L.srcpOff_eq
  have hDstp := L.dstpOff_eq
  unfold OP_SIZE at hOp ⊢
  have h₁ : (patch d 0 op).length = L.sizeof := by rw [length_patch (by omega), hd]
  have h₂ : (patch (patch d 0 op) L.srcpOff src).length = L.sizeof := by
    rw [length_patch (by omega), h₁]
  have h₃ : (patch (patch (patch d 0 op) L.srcpOff src) L.dstpOff dst).length = L.sizeof := by
    rw [length_patch (by omega), h₂]
  have hSelf : slice (patch d 0 op) 0 op.length = op := slice_patch_self (by omega)
  have hSelf' : slice (patch (patch d 0 op) L.srcpOff src) L.srcpOff src.length = src :=
    slice_patch_self (by omega)
  have hSelf'' : slice (patch (patch (patch d 0 op) L.srcpOff src) L.dstpOff dst) L.dstpOff
      dst.length = dst := slice_patch_self (by omega)
  refine ⟨?_, ?_, ?_, ?_, ?_⟩
  · rw [slice_patch_disjoint (by omega) (Or.inl (by omega)),
      slice_patch_disjoint (by omega) (Or.inl (by omega)),
      slice_patch_disjoint (by omega) (Or.inl (by omega)), ← hOp, hSelf]
  · rw [slice_patch_disjoint (by omega) (Or.inl (by omega)),
      slice_patch_disjoint (by omega) (Or.inl (by omega)), hSelf']
  · rw [slice_patch_disjoint (by omega) (Or.inl (by omega)), hSelf'']
  · rw [← hIv]
    exact slice_patch_self (by omega)
  · rw [u32_cmdOff_patch h₃ (by omega), u32_cmdOff_patch h₂ (by omega),
      u32_cmdOff_patch h₁ (by omega), u32_cmdOff_patch hd (by omega)]

theorem fsession_parts {sid : Bytes} (hd : d.length = L.sizeof) (hSid : sid.length = 4) :
    slice (patch d 0 sid) 0 4 = sid ∧ u32 (patch d 0 sid) L.cmdOff = u32 d L.cmdOff := by
  have hBounds := L.cmdOff_bounds
  have hIv := L.ivpOff_eq
  have hSelf : slice (patch d 0 sid) 0 sid.length = sid := slice_patch_self (by omega)
  refine ⟨?_, u32_cmdOff_patch hd (by omega)⟩
  rw [← hSid, hSelf]

end VirtioCrypto.Proxy
