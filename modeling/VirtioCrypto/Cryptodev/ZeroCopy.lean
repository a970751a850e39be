import VirtioCrypto.Cryptodev.Pinning

/-!
# Cryptodev — zero copy against the bounce buffer

`__crypto_run_zc` works in the caller's own pages, through scatterlists; `__crypto_run_std`
copies the data through one page of the kernel's, a page at a time. Over the memory of a process
with a page table both are runs of the same `hash_n_crypt`:

* `cryptoRunZc_pinned` — a request whose pages are pinned is one `hash_n_crypt` through the
  addresses of source and destination;
* `cryptoRunStd_eq` — the bounce buffer comes to the same, page after page, when the cipher
  carries its state from one page to the next and no page written is read again;
* `zeroCopy_eq_std` — so the two paths leave the same memory and the same session.

They do part on decryption, where zero copy hashes what it finds in the destination: for a session
without a cipher nobody has written it, and a destination with one page in it twice holds there only
what was written last.
-/

namespace VirtioCrypto.Cryptodev.Pages

open Octets Scatter

-- ---------------------------------------------------------------------------
-- The process's memory
-- ---------------------------------------------------------------------------

/-- Every page of a buffer is there. -/
def PageTable.Mapped (pt : PageTable) (write : Bool) (addr len : Nat) : Prop :=
  pt.All write addr (pageCount addr len)

instance (pt : PageTable) (write : Bool) (addr len : Nat) : Decidable (pt.Mapped write addr len) :=
  inferInstanceAs (Decidable (_ = _))

theorem length_range (pt : PageTable) (addr len : Nat) : (pt.range addr len).length = len := by
  rw [PageTable.range, List.length_map, List.length_range']

/-- `copy_from_user` and `copy_to_user` in a process with page table `pt`. -/
def userSpace (pt : PageTable) : UserSpace Nat Memory where
  null p := p == 0
  add := (· + ·)
  copyFromUser m p n := (if pt.Mapped false p n then some (gather m (pt.range p n)) else none, m)
  copyToUser m p bs :=
    if pt.Mapped true p bs.length then (true, scatter m (pt.range p bs.length) bs) else (false, m)
  add_zero := Nat.add_zero
  add_add := Nat.add_assoc
  length_copyFromUser := by
    intro m p n bs h
    obtain ⟨-, h⟩ := Option.ite_none_right_eq_some.mp h
    rw [← Option.some.inj h, length_gather, length_range]

/-- `hash_n_crypt` through two scatterlists. After a decryption the destination is read again. -/
def hashNCryptSg (ses : CSession) (dir : Dir) (m : Memory) (src dst : List Nat) : CSession × Memory :=
  let r : Option CipherData × Memory :=
    match ses.cdata with
    | some c => (some (c.run dir (gather m src)).1, scatter m dst (c.run dir (gather m src)).2)
    | none => (none, m)
  let hashed := match dir with
    | .encrypt => gather m src
    | .decrypt => gather r.2 dst
  ({ ses with cdata := r.1, hdata := ses.hdata.map (·.update hashed) }, r.2)

/-- `__crypto_run_zc` on the pages themselves. A NULL scatterlist is followed by the cipher. -/
def cryptoRunZc (K : Kernel) (pt : PageTable) (re : Realloc) (clock : Nat) (ses : CSession) (s : State)
    (m : Memory) (dir : Dir) (cop : CryptOp Nat) : CSession × State × Memory × Except Failure Unit :=
  match getUserbuf pt s re cop.src cop.len cop.dst cop.len with
  | (s, .ok (some srcSg, some dstSg)) =>
    let r := hashNCryptSg ses dir m (coverage srcSg) (coverage dstSg)
    let released := releaseUserPages s
    (r.1, released.1, r.2, released.2)
  | (s, .ok _) => (ses, s, m, .error .overrun)
  | (s, .error (.errno _)) =>
    let r := runStd K (userSpace pt) clock ses m dir cop
    (r.1, s, r.2.1, r.2.2.mapError Failure.errno)
  | (s, .error e) => (ses, s, m, .error e)

-- ---------------------------------------------------------------------------
-- hash_n_crypt in parts
-- ---------------------------------------------------------------------------

/-- The cipher carries its state in the register from one page to the next. -/
structure Paged (tfm : Transform) : Prop where
  nil : ∀ d k iv, iv.length = tfm.ivsize → tfm.crypt d k iv [] = ([], iv)
  append : ∀ d k iv x y, x.length = PAGE_SIZE →
    tfm.crypt d k iv (x ++ y) =
      ((tfm.crypt d k iv x).1 ++ (tfm.crypt d k (tfm.crypt d k iv x).2 y).1,
        (tfm.crypt d k (tfm.crypt d k iv x).2 y).2)

def CSession.Paged (ses : CSession) : Prop := ∀ c, ses.cdata = some c → Pages.Paged c.tfm

variable {ses : CSession} {dir : Dir} {x y : Bytes}

theorem length_hashNCrypt (ses : CSession) (dir : Dir) (x : Bytes) :
    (hashNCrypt ses dir x x).2.length = x.length := by
  unfold hashNCrypt
  split
  · exact Transform.length_crypt _ _ _ _ _
  · rfl

theorem isNone_hashNCrypt (ses : CSession) (dir : Dir) (x : Bytes) :
    (hashNCrypt ses dir x x).1.cdata.isNone = ses.cdata.isNone := by
  unfold hashNCrypt
  split
  · rename_i c hc
    rw [hc]
    rfl
  · rename_i hc
    rw [hc]

theorem CSession.Paged.hashNCrypt (h : CSession.Paged ses) (dir : Dir) (x : Bytes) :
    CSession.Paged (hashNCrypt ses dir x x).1 := by
  intro c hc
  unfold Cryptodev.hashNCrypt at hc
  split at hc
  · rename_i c' hc'
    cases hc
    exact h c' hc'
  · cases hc

theorem update_update (h : HashData) (x y : Bytes) : (h.update x).update y = h.update (x ++ y) := by
  rw [HashData.update, HashData.update, HashData.update, List.append_assoc]

theorem hashNCrypt_nil (h : CSession.Paged ses) (dir : Dir) : hashNCrypt ses dir [] [] = (ses, []) := by
  obtain ⟨sid, cdata, hdata⟩ := ses
  have hHash : hdata.map (·.update []) = hdata := by
    cases hdata with
    | none => rfl
    | some hd => rw [Option.map_some, HashData.update, List.append_nil]
  cases cdata with
  | none => cases dir <;> simp only [hashNCrypt, hHash]
  | some c =>
    obtain ⟨tfm, key, iv, hIv⟩ := c
    have hNil : tfm.crypt dir key iv [] = ([], iv) := (h _ rfl).nil dir key iv hIv
    have hRun : CipherData.run ⟨tfm, key, iv, hIv⟩ dir [] = (⟨tfm, key, iv, hIv⟩, []) := by
      simp only [CipherData.run, hNil]
    cases dir <;> simp only [hashNCrypt, hRun, hHash]

theorem run_append {c : CipherData} (h : Paged c.tfm) (hx : x.length = PAGE_SIZE) :
    c.run dir (x ++ y) = (((c.run dir x).1.run dir y).1, (c.run dir x).2 ++ ((c.run dir x).1.run dir y).2) := by
  have hAppend := h.append dir c.key c.iv x y hx
  simp only [CipherData.run, hAppend]

/-- A page and then the rest. -/
theorem hashNCrypt_append (h : CSession.Paged ses) (hx : x.length = PAGE_SIZE) :
    hashNCrypt ses dir (x ++ y) (x ++ y) =
      ((hashNCrypt (hashNCrypt ses dir x x).1 dir y y).1,
        (hashNCrypt ses dir x x).2 ++ (hashNCrypt (hashNCrypt ses dir x x).1 dir y y).2) := by
  obtain ⟨sid, cdata, hdata⟩ := ses
  have hHash : ∀ a b : Bytes, hdata.map (·.update (a ++ b)) =
      (hdata.map (·.update a)).map (·.update b) := by
    intro a b
    cases hdata with
    | none => rfl
    | some hd => simp only [Option.map_some, update_update]
  cases cdata with
  | none => cases dir <;> simp only [hashNCrypt, hHash]
  | some c =>
    have hRun : c.run dir (x ++ y) = _ := run_append (h c rfl) hx
    cases dir <;> simp only [hashNCrypt, hRun, hHash]

-- ---------------------------------------------------------------------------
-- Parts of a buffer
-- ---------------------------------------------------------------------------

variable {pt : PageTable} {src dst : Nat}

theorem all_iff {write : Bool} {addr n : Nat} :
    pt.All write addr n ↔ ∀ i < n, (pt.pin write (addr / PAGE_SIZE + i)).isSome := by
  unfold PageTable.All
  generalize addr / PAGE_SIZE = vpn
  induction n generalizing vpn with
  | zero => exact ⟨fun _ i hi => absurd hi (Nat.not_lt_zero i), fun _ => rfl⟩
  | succ n ih =>
    rw [getUserPages]
    cases hPin : pt.pin write vpn with
    | none =>
      constructor
      · intro h
        cases h
      · intro h
        have hFirst := h 0 (Nat.succ_pos n)
        rw [Nat.add_zero, hPin] at hFirst
        cases hFirst
    | some f =>
      have hStep : (f :: getUserPages pt write (vpn + 1) n).length = n + 1 ↔
          (getUserPages pt write (vpn + 1) n).length = n := by
        rw [List.length_cons, Nat.succ_inj]
      rw [hStep, ih]
      constructor
      · intro h i hi
        cases i with
        | zero => rw [Nat.add_zero, hPin]; rfl
        | succ i =>
          have hNext := h i (Nat.lt_of_succ_lt_succ hi)
          rwa [Nat.add_assoc, Nat.add_comm 1 i] at hNext
      · intro h i hi
        have hNext := h (i + 1) (Nat.succ_lt_succ hi)
        rwa [Nat.add_comm i 1, ← Nat.add_assoc] at hNext

/-- A part of a buffer that is there is there. -/
theorem PageTable.Mapped.part {write : Bool} {addr len off n : Nat} (h : pt.Mapped write addr len)
    (hPart : off + n ≤ len) : pt.Mapped write (addr + off) n := by
  refine all_iff.mpr fun i hi => ?_
  have hAll := all_iff.mp h
  have hPos : n ≠ 0 := by
    rintro rfl
    exact absurd hi (Nat.not_lt_zero i)
  unfold pageCount PAGE_SIZE at hi hAll
  unfold PAGE_SIZE
  rw [if_neg hPos] at hi
  rw [if_neg (by omega)] at hAll
  -- the page has a number in the whole buffer, too
  have hSome := hAll ((addr + off) / 4096 + i - addr / 4096) (by omega)
  rwa [Nat.add_sub_of_le (by omega)] at hSome

theorem PageTable.Mapped.first {write : Bool} {addr len n : Nat} (h : pt.Mapped write addr len)
    (hFirst : n ≤ len) : pt.Mapped write addr n := by
  have hPart : pt.Mapped write (addr + 0) n := h.part (by omega)
  exact hPart

theorem mem_range {addr len a : Nat} : a ∈ pt.range addr len ↔ ∃ i < len, a = pt.physical (addr + i) := by
  rw [PageTable.range, List.mem_map]
  constructor
  · rintro ⟨x, hx, rfl⟩
    have hBounds := List.mem_range'_1.mp hx
    exact ⟨x - addr, by omega, by rw [Nat.add_sub_of_le hBounds.1]⟩
  · rintro ⟨i, hi, rfl⟩
    exact ⟨addr + i, List.mem_range'_1.mpr (by omega), rfl⟩

/-- No byte of the destination is one of the source further on: what has been written is not
read again. One buffer for both has this, and so have two that share no page. -/
def Ahead (pt : PageTable) (src dst len : Nat) : Prop :=
  ∀ i j, i < j → j < len → pt.physical (src + j) ≠ pt.physical (dst + i)

theorem Ahead.rest {len n : Nat} (h : Ahead pt src dst (n + len)) : Ahead pt (src + n) (dst + n) len := by
  intro i j hij hj
  have hNe := h (n + i) (n + j) (by omega) (by omega)
  rwa [← Nat.add_assoc, ← Nat.add_assoc] at hNe

/-- Writing the first bytes of the destination leaves the rest of the source. -/
theorem Ahead.gather {len n : Nat} (h : Ahead pt src dst (n + len)) (m : Memory) (bs : Bytes) :
    gather (scatter m (pt.range dst n) bs) (pt.range (src + n) len) = gather m (pt.range (src + n) len) := by
  refine gather_scatter_disjoint fun x hx hx' => ?_
  obtain ⟨j, hj, rfl⟩ := mem_range.mp hx
  obtain ⟨i, hi, hEq⟩ := mem_range.mp hx'
  have hNe := h i (n + j) (by omega) (by omega)
  rw [← Nat.add_assoc] at hNe
  exact hNe hEq

-- ---------------------------------------------------------------------------
-- The bounce buffer
-- ---------------------------------------------------------------------------

/-- What is left in memory: a session without a cipher writes nothing. -/
def written (ses : CSession) (m : Memory) (as : List Nat) (bs : Bytes) : Memory :=
  if ses.cdata.isNone then m else scatter m as bs

/-- `n` bytes in one `hash_n_crypt`, the result in the destination. -/
def inOne (pt : PageTable) (dir : Dir) (ses : CSession) (m : Memory) (src dst n : Nat) : CSession × Memory :=
  let r := hashNCrypt ses dir (gather m (pt.range src n)) (gather m (pt.range src n))
  (r.1, written ses m (pt.range dst n) r.2)

theorem inOne_zero (h : CSession.Paged ses) (dir : Dir) (m : Memory) : inOne pt dir ses m src dst 0 = (ses, m) := by
  have hNil := hashNCrypt_nil h dir
  show ((hashNCrypt ses dir [] []).1, written ses m [] (hashNCrypt ses dir [] []).2) = _
  rw [hNil]
  unfold written
  split <;> rfl

/-- A page, and then the rest from what the page has left. -/
theorem inOne_page {m : Memory} {k : Nat} (h : CSession.Paged ses)
    (hAhead : Ahead pt src dst (PAGE_SIZE + k)) :
    inOne pt dir ses m src dst (PAGE_SIZE + k) =
      inOne pt dir (inOne pt dir ses m src dst PAGE_SIZE).1 (inOne pt dir ses m src dst PAGE_SIZE).2
        (src + PAGE_SIZE) (dst + PAGE_SIZE) k := by
  have hLen : (gather m (pt.range src PAGE_SIZE)).length = PAGE_SIZE := by
    rw [length_gather, length_range]
  have hRest : ∀ bs, gather (written ses m (pt.range dst PAGE_SIZE) bs) (pt.range (src + PAGE_SIZE) k) =
      gather m (pt.range (src + PAGE_SIZE) k) := by
    intro bs
    unfold written
    split
    · rfl
    · exact hAhead.gather m bs
  simp only [inOne, range_append src, gather_append, hashNCrypt_append h hLen, hRest]
  generalize hFirst : hashNCrypt ses dir (gather m (pt.range src PAGE_SIZE))
    (gather m (pt.range src PAGE_SIZE)) = r
  have hOut : r.2.length = PAGE_SIZE := by
    rw [← hFirst, length_hashNCrypt, hLen]
  have hNone : r.1.cdata.isNone = ses.cdata.isNone := by
    rw [← hFirst, isNone_hashNCrypt]
  refine Prod.ext rfl ?_
  simp only [written, hNone]
  cases ses.cdata.isNone with
  | true => rfl
  | false =>
    show scatter m (pt.range dst (PAGE_SIZE + k)) _ = scatter (scatter m _ _) _ _
    rw [range_append, scatter_append (by rw [hOut, length_range])]

/-- One turn of the loop. -/
theorem runChunk_eq {m : Memory} {n : Nat} (hSrc : pt.Mapped false src n)
    (hDst : ses.cdata.isNone = false → pt.Mapped true dst n) :
    runChunk (userSpace pt) dir ses m src dst n =
      ((inOne pt dir ses m src dst n).1, (inOne pt dir ses m src dst n).2, .ok ()) := by
  have hRead : (userSpace pt).copyFromUser m src n = (some (gather m (pt.range src n)), m) := by
    show (if pt.Mapped false src n then _ else _, m) = _
    rw [if_pos hSrc]
  have hLen : (hashNCrypt ses dir (gather m (pt.range src n)) (gather m (pt.range src n))).2.length = n := by
    rw [length_hashNCrypt, length_gather, length_range]
  rw [runChunk, hRead, inOne]
  dsimp only
  rw [isNone_hashNCrypt, written]
  cases hNone : ses.cdata.isNone with
  | true => rfl
  | false =>
    have hWrite : ∀ bs : Bytes, bs.length = n →
        (userSpace pt).copyToUser m dst bs = (true, scatter m (pt.range dst n) bs) := by
      intro bs hBs
      show (if pt.Mapped true dst bs.length then _ else _) = _
      rw [hBs, if_pos (hDst hNone)]
    rw [if_neg Bool.false_ne_true, if_neg Bool.false_ne_true, hWrite _ hLen]

/-- The loop, page after page, is one `hash_n_crypt` on the whole. -/
theorem cryptoRunStd_eq {bufsize fuel n : Nat} {m : Memory} (hFuel : n ≤ fuel) (hBuf : 0 < bufsize)
    (hPage : bufsize = PAGE_SIZE ∨ n ≤ bufsize) (hPaged : CSession.Paged ses)
    (hSrc : pt.Mapped false src n) (hDst : ses.cdata.isNone = false → pt.Mapped true dst n)
    (hAhead : Ahead pt src dst n) :
    cryptoRunStd (userSpace pt) dir bufsize fuel ses m src dst n =
      ((inOne pt dir ses m src dst n).1, (inOne pt dir ses m src dst n).2, .ok ()) := by
  induction fuel generalizing ses m src dst n with
  | zero =>
    obtain rfl : n = 0 := Nat.le_zero.mp hFuel
    rw [inOne_zero hPaged]
    rfl
  | succ fuel ih =>
    rw [cryptoRunStd]
    by_cases hZero : n = 0
    · rw [if_pos hZero, hZero, inOne_zero hPaged]
    rw [if_neg hZero]
    by_cases hLast : n ≤ bufsize
    · -- what is left goes in one turn
      rw [Nat.min_eq_right hLast, runChunk_eq hSrc hDst, Nat.sub_self]
      dsimp only
      cases fuel <;> rfl
    · obtain rfl : bufsize = PAGE_SIZE := hPage.resolve_right hLast
      obtain ⟨k, rfl⟩ := Nat.exists_eq_add_of_le (Nat.le_of_not_le hLast)
      rw [Nat.min_eq_left (Nat.le_add_right _ _), Nat.add_sub_cancel_left]
      rw [runChunk_eq (hSrc.first (Nat.le_add_right _ _)) fun hSome =>
        (hDst hSome).first (Nat.le_add_right _ _)]
      dsimp only
      have hPaged' : CSession.Paged (inOne pt dir ses m src dst PAGE_SIZE).1 := hPaged.hashNCrypt dir _
      have hNone : (inOne pt dir ses m src dst PAGE_SIZE).1.cdata.isNone = ses.cdata.isNone :=
        isNone_hashNCrypt _ _ _
      rw [inOne_page hPaged hAhead]
      exact ih (by unfold PAGE_SIZE at hFuel; omega) (.inl rfl) hPaged' (hSrc.part (Nat.le_refl _))
        (fun hSome => (hDst (hNone ▸ hSome)).part (Nat.le_refl _)) hAhead.rest

-- ---------------------------------------------------------------------------
-- The two paths
-- ---------------------------------------------------------------------------

/-- `__crypto_run_std` on a buffer that is there. -/
theorem runStd_eq {K : Kernel} {clock : Nat} {m : Memory} {cop : CryptOp Nat}
    (hFree : K.getFreePage clock = true) (hLen : 0 < cop.len) (hPaged : CSession.Paged ses)
    (hSrc : pt.Mapped false cop.src cop.len) (hDst : pt.Mapped true cop.dst cop.len)
    (hAhead : Ahead pt cop.src cop.dst cop.len) :
    runStd K (userSpace pt) clock ses m dir cop =
      ((inOne pt dir ses m cop.src cop.dst cop.len).1,
        (inOne pt dir ses m cop.src cop.dst cop.len).2, .ok ()) := by
  rw [runStd, hFree]
  exact cryptoRunStd_eq (Nat.le_refl _) (by unfold PAGE_SIZE; omega) (by omega) hPaged hSrc
    (fun _ => hDst) hAhead

/-- Through two scatterlists, in one go. What is hashed on decryption is the plaintext if there is a
cipher, or a source that is the destination, and if the plaintext is still there to be read. -/
theorem hashNCryptSg_eq {m : Memory} {n : Nat}
    (hRoles : ses.cdata.isSome = true ∨ dir = .encrypt ∨ src = dst)
    (hOnce : dir = .decrypt → ses.hdata.isSome = true → (pt.range dst n).Nodup) :
    hashNCryptSg ses dir m (pt.range src n) (pt.range dst n) = inOne pt dir ses m src dst n := by
  rw [inOne]
  obtain ⟨sid, cdata, hdata⟩ := ses
  cases cdata with
  | none =>
    rcases hRoles with hSome | rfl | rfl
    · cases hSome
    · rfl
    · rfl
  | some c =>
    cases dir with
    | encrypt => rfl
    | decrypt =>
      cases hdata with
      | none => rfl
      | some hd =>
        have hLen : (c.run .decrypt (gather m (pt.range src n))).2.length = (pt.range dst n).length := by
          rw [length_range]
          exact (c.tfm.length_crypt _ _ _ _).trans ((length_gather _ _).trans (length_range pt src n))
        have hRead : gather (scatter m (pt.range dst n) (c.run .decrypt (gather m (pt.range src n))).2)
            (pt.range dst n) = (c.run .decrypt (gather m (pt.range src n))).2 :=
          gather_scatter (hOnce rfl rfl) hLen
        simp only [hashNCryptSg, hashNCrypt, hRead]
        rfl

/-- `__crypto_run_zc` on a buffer whose pages are pinned. -/
theorem cryptoRunZc_pinned {K : Kernel} {re : Realloc} {clock : Nat} {s s' : State} {m : Memory}
    {cop : CryptOp Nat} {sgs : Option (List Entry) × Option (List Entry)} (h : Roomy s)
    (hSrcNull : cop.src ≠ 0) (hDstNull : cop.dst ≠ 0) (hLen : 0 < cop.len)
    (hOk : getUserbuf pt s re cop.src cop.len cop.dst cop.len = (s', .ok sgs)) :
    let r := hashNCryptSg ses dir m (pt.range cop.src cop.len) (pt.range cop.dst cop.len)
    cryptoRunZc K pt re clock ses s m dir cop =
      (r.1, (releaseUserPages s').1, r.2, (releaseUserPages s').2) := by
  intro r
  obtain ⟨a, b⟩ := sgs
  obtain ⟨srcSg, dstSg, rfl, rfl, hSrc, hDst⟩ := getUserbuf_covers h hSrcNull hDstNull hLen hLen hOk
  rw [ite_self] at hDst
  rw [cryptoRunZc, hOk]
  dsimp only
  rw [hSrc, hDst]

/-- In every state a session can be in, zero copy and the bounce buffer leave the same memory and
the same session, whether or not the arrays can grow. -/
theorem zeroCopy_eq_std {K : Kernel} {re : Realloc} {clock : Nat} {s : State} {es : List Event}
    {m : Memory} {cop : CryptOp Nat} (hRun : Transition.run Pages.step Pages.created es = some s)
    (hFree : K.getFreePage clock = true) (hLen : 0 < cop.len) (hSrcNull : cop.src ≠ 0) (hDstNull : cop.dst ≠ 0)
    (hSrc : pt.Mapped false cop.src cop.len) (hDst : pt.Mapped true cop.dst cop.len)
    (hPaged : CSession.Paged ses) (hAhead : Ahead pt cop.src cop.dst cop.len)
    (hRoles : ses.cdata.isSome = true ∨ dir = .encrypt ∨ cop.src = cop.dst)
    (hOnce : dir = .decrypt → ses.hdata.isSome = true → (pt.range cop.dst cop.len).Nodup) :
    ∃ ses' m' s', runStd K (userSpace pt) clock ses m dir cop = (ses', m', .ok ()) ∧
      cryptoRunZc K pt re clock ses s m dir cop = (ses', s', m', .ok ()) := by
  have hRoomy := run_roomy hRun
  have hStd : runStd K (userSpace pt) clock ses m dir cop = _ :=
    runStd_eq hFree hLen hPaged hSrc hDst hAhead
  have hAnswered : (Request.userbuf cop.src cop.len cop.dst cop.len).Answered pt := by
    have hSrcBuf : bufLen cop.src cop.len = cop.len := if_neg hSrcNull
    have hDstBuf : bufLen cop.dst cop.len = cop.len := if_neg hDstNull
    rw [Request.Answered, hSrcBuf, hDstBuf]
    split
    · rename_i hEq
      rw [hEq, Nat.max_self]
      exact ⟨id, .inl hDst⟩
    · exact ⟨.inl hSrc, hDst⟩
  have hGood : Good s.refs _ _ (getUserbuf pt s re cop.src cop.len cop.dst cop.len) :=
    getUserbuf_good hRoomy re
  suffices hZc : ∃ s', cryptoRunZc K pt re clock ses s m dir cop =
      ((inOne pt dir ses m cop.src cop.dst cop.len).1, s',
        (inOne pt dir ses m cop.src cop.dst cop.len).2, .ok ()) by
    obtain ⟨s', hZc⟩ := hZc
    exact ⟨_, _, s', hStd, hZc⟩
  generalize hBuf : getUserbuf pt s re cop.src cop.len cop.dst cop.len = r at hGood
  cases hGood with
  | done t sgs hRoomy' hUsed hHeld =>
    have hZc : cryptoRunZc K pt re clock ses s m dir cop = _ :=
      cryptoRunZc_pinned hRoomy hSrcNull hDstNull hLen hBuf
    have hIn : _ = inOne pt dir ses m cop.src cop.dst cop.len := hashNCryptSg_eq hRoles hOnce
    have hRel := releaseUserPages_released hRoomy' hUsed
    revert hZc hRel
    generalize releaseUserPages t = res
    intro hZc hRel
    cases hRel with
    | done u _ _ _ =>
      refine ⟨u, ?_⟩
      rw [hZc, ← hIn]
    | wild hNull => exact absurd hNull (hHeld hAnswered).1
  | failed t e _ _ =>
    -- no room: the bounce buffer it is
    refine ⟨t, ?_⟩
    rw [cryptoRunZc, hBuf]
    dsimp only
    rw [hStd]
    rfl
  | wild t hNot => exact absurd hAnswered hNot
  | past t hNot => exact absurd (Nat.le_refl _) hNot

-- a source of two pages and a destination further on, for the null cipher and an empty digest
def twoPages : CryptOp Nat := ⟨List.replicate 8 0 ++ toLE 4 5000 ++ List.replicate 36 0, 4096, 12288, 0, 0⟩

def emptyDigest : HashTransform where
  digestsize := 0
  setkey _ := true
  digest _ _ := []
  length_digest _ _ := rfl

def nullSession : CSession := ⟨1, some ⟨nullTransform, [], [], rfl⟩, some ⟨emptyDigest, [], []⟩⟩

theorem physical_flat (va : Nat) : flat.physical va = va := Nat.div_add_mod' va PAGE_SIZE

theorem range_flat (addr len : Nat) : flat.range addr len = List.range' addr len := by
  rw [PageTable.range, List.map_congr_left fun va _ => physical_flat va, List.map_id']

theorem nullSession_paged : CSession.Paged nullSession := by
  intro c hc
  obtain rfl := Option.some.inj hc
  refine ⟨fun d k iv hIv => ?_, fun d k iv x y _ => rfl⟩
  rw [List.length_eq_zero_iff.mp hIv]
  rfl

theorem zeroCopy_eq_std_twoPages :
    ∃ ses' m' s', runStd nullKernel (userSpace flat) 0 nullSession (fun a => UInt8.ofNat a) .decrypt
        twoPages = (ses', m', .ok ()) ∧
      cryptoRunZc nullKernel flat plenty 0 nullSession Pages.created (fun a => UInt8.ofNat a) .decrypt
        twoPages = (ses', s', m', .ok ()) := by
  have hLen : twoPages.len = 5000 := by decide
  refine zeroCopy_eq_std (show Transition.run Pages.step Pages.created [] = some _ from rfl) rfl (by decide)
    (by decide) (by decide) ?_ ?_ nullSession_paged ?_ (.inl rfl) ?_
  · rw [hLen]
    decide
  · rw [hLen]
    decide
  · intro i j hij hj
    rw [hLen] at hj
    rw [physical_flat, physical_flat]
    show 4096 + j ≠ 12288 + i
    omega
  · intro _ _
    rw [range_flat]
    exact List.nodup_range'

end VirtioCrypto.Cryptodev.Pages
