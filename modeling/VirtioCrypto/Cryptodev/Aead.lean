import VirtioCrypto.Cryptodev.ZeroCopy

/-!
# Cryptodev — AEAD ciphers

`auth_n_crypt` and the part of `__crypto_auth_run_zc` around it. The size of the tag is a property
of the transform, which `caop->tag_len` changes for good; the longest tag a caller may ask for is
the one of the operation before. The pages are those of `get_userbuf`, which in place covers the
message and not the tag behind it.

* `run_aead_overrun_iff` — an encryption leaves its scatterlist exactly when it is in place;
* `run_tag_refused` — once a tag has been short, no later one can be longer.
-/

namespace VirtioCrypto.Cryptodev.Authenc

open Octets Scatter Pages

-- ---------------------------------------------------------------------------
-- auth_n_crypt
-- ---------------------------------------------------------------------------

/-- An AEAD of the kernel's crypto API; `none` is a tag that is wrong. -/
structure AeadTransform where
  setauthsize : Nat → Bool
  encrypt : Nat → Bytes → Bytes → Bytes → Bytes → Bytes
  decrypt : Nat → Bytes → Bytes → Bytes → Bytes → Option Bytes
  length_encrypt : ∀ n k iv a x, (encrypt n k iv a x).length = x.length + n
  length_decrypt : ∀ n k iv a x y, decrypt n k iv a y = some x → x.length + n = y.length

/-- `struct cipher_data` of an AEAD, with the size of the tags its transform makes. -/
structure AeadData where
  tfm : AeadTransform
  key : Bytes
  iv : Bytes
  authsize : Nat

/-- `cryptodev_cipher_get_tag_size` and `cryptodev_cipher_set_tag_size`, whose failure nobody looks
at: the transform afterwards, and `caop->tag_len`. -/
def takeTagSize (c : AeadData) (tagLen : Nat) : Except Failure (AeadData × Nat) :=
  if c.authsize < tagLen then .error (.errno .EINVAL)
  else if tagLen = 0 then .ok (c, c.authsize)
  else if c.tfm.setauthsize tagLen then .ok ({ c with authsize := tagLen }, tagLen)
  else .ok (c, tagLen)

/-- `auth_n_crypt` of the bytes behind `src_sg`, with `room` bytes behind `dst_sg`: what is written
there, and `kcaop->dst_len`. -/
def authNCrypt (c : AeadData) (dir : Dir) (auth src : Bytes) (room tagLen : Nat) :
    AeadData × Except Failure (Bytes × Nat) :=
  match takeTagSize c tagLen with
  | .error e => (c, .error e)
  | .ok (c, tagLen) =>
    match dir with
    | .encrypt =>
      if room < src.length + c.authsize then (c, .error .overrun)
      else (c, .ok (c.tfm.encrypt c.authsize c.key c.iv auth src, src.length + tagLen))
    | .decrypt =>
      if src.length < c.authsize then (c, .error (.errno .EINVAL))
      else match c.tfm.decrypt c.authsize c.key c.iv auth src with
        | none => (c, .error .EBADMSG)
        | some x => if room < x.length then (c, .error .overrun) else (c, .ok (x, src.length - tagLen))

/-- The destination's length, by the tag size before the operation: a sum of 32-bit numbers. -/
def aeadDstLen (c : AeadData) (dir : Dir) (len : Nat) : Nat :=
  match dir with
  | .encrypt => (len + c.authsize) % 4294967296
  | .decrypt => len

/-- The AEAD part of `__crypto_auth_run_zc`. -/
def aeadAuthRunZc (pt : PageTable) (re : Realloc) (c : AeadData) (s : State) (m : Memory) (dir : Dir)
    (auth : Bytes) (tagLen src len dst : Nat) : AeadData × State × Memory × Except Failure Nat :=
  match getUserbuf pt s re src len dst (aeadDstLen c dir len) with
  | (s, .ok (some srcSg, some dstSg)) =>
    match authNCrypt c dir auth (gather m ((coverage srcSg).take len)) (coverage dstSg).length tagLen with
    | (c, .error .overrun) => (c, s, m, .error .overrun)
    | (c, .error e) => (c, (releaseUserPages s).1, m, (releaseUserPages s).2.bind fun _ => .error e)
    | (c, .ok (x, n)) =>
      (c, (releaseUserPages s).1, scatter m ((coverage dstSg).take x.length) x,
        (releaseUserPages s).2.map fun _ => n)
  | (s, .ok _) => (c, s, m, .error .overrun)
  | (s, .error e) => (c, s, m, .error e)

-- ---------------------------------------------------------------------------
-- The size of the tag
-- ---------------------------------------------------------------------------

variable {c c' : AeadData} {dir : Dir} {auth x : Bytes} {room tagLen n : Nat}

/-- How taking a tag size ends. -/
theorem takeTagSize_cases (c : AeadData) (tagLen : Nat) :
    c.authsize < tagLen ∧ takeTagSize c tagLen = .error (.errno .EINVAL) ∨
      tagLen ≤ c.authsize ∧ ∃ c' n, takeTagSize c tagLen = .ok (c', n) ∧
        c'.authsize ≤ c.authsize ∧ (0 < c.authsize → 0 < c'.authsize) := by
  unfold takeTagSize
  split
  · rename_i hLong
    exact .inl ⟨hLong, rfl⟩
  rename_i hFits
  refine .inr ⟨by omega, ?_⟩
  split
  · exact ⟨c, _, rfl, Nat.le_refl _, id⟩
  rename_i hSome
  split
  · exact ⟨_, _, rfl, by dsimp only; omega, fun _ => by dsimp only; omega⟩
  · exact ⟨c, _, rfl, Nat.le_refl _, id⟩

theorem authNCrypt_error {e : Failure} (hTake : takeTagSize c tagLen = .error e) :
    authNCrypt c dir auth x room tagLen = (c, .error e) := by
  rw [authNCrypt, hTake]

/-- What an operation leaves of the transform is what taking the tag size has left, even when the
operation fails. -/
theorem authNCrypt_fst (hTake : takeTagSize c tagLen = .ok (c', n)) :
    (authNCrypt c dir auth x room tagLen).1 = c' := by
  rw [authNCrypt, hTake]
  dsimp only
  cases dir with
  | encrypt =>
    dsimp only
    split
    · rfl
    · rfl
  | decrypt =>
    dsimp only
    split
    · rfl
    split
    · rfl
    split
    · rfl
    · rfl

/-- No operation makes tags longer. -/
theorem authNCrypt_authsize_le : (authNCrypt c dir auth x room tagLen).1.authsize ≤ c.authsize := by
  rcases takeTagSize_cases c tagLen with ⟨-, hError⟩ | ⟨-, c', n, hOk, hLe, -⟩
  · rw [authNCrypt_error hError]
  · rw [authNCrypt_fst hOk]
    exact hLe

/-- One operation on a session. -/
structure AeadOp where
  dir : Dir
  auth : Bytes
  src : Bytes
  room : Nat
  tagLen : Nat

def aeadStep (c : AeadData) (e : AeadOp) : Option AeadData :=
  some (authNCrypt c e.dir e.auth e.src e.room e.tagLen).1

/-- After an operation with a tag of `t` bytes, whatever operations follow it, one that asks for
more is refused. -/
theorem run_tag_refused {es : List AeadOp} {t : Nat} (e : AeadOp) (hAccepts : c.tfm.setauthsize t = true)
    (hPos : 0 < t) (hFits : t ≤ c.authsize)
    (hRun : Transition.run aeadStep (authNCrypt c dir auth x room t).1 es = some c') (hMore : t < e.tagLen) :
    authNCrypt c' e.dir e.auth e.src e.room e.tagLen = (c', .error (.errno .EINVAL)) := by
  have hTake : takeTagSize c t = .ok ({ c with authsize := t }, t) := by
    rw [takeTagSize, if_neg (by omega), if_neg (by omega), if_pos hAccepts]
  have hFirst : (authNCrypt c dir auth x room t).1.authsize ≤ t := by
    rw [authNCrypt_fst hTake]
  have hStep : ∀ (d : AeadData) (e : AeadOp) (d' : AeadData), d.authsize ≤ t → aeadStep d e = some d' →
      d'.authsize ≤ t := by
    intro d e d' hd hStep
    obtain rfl := Option.some.inj hStep
    exact Nat.le_trans authNCrypt_authsize_le hd
  have hSize : c'.authsize ≤ t := Transition.run_keeps hStep hFirst hRun
  refine authNCrypt_error ?_
  rw [takeTagSize, if_pos (by omega)]

/-- A cipher that does nothing, with tags of zeros. -/
def zeroAead : AeadTransform where
  setauthsize n := n ≤ 16
  encrypt n _ _ _ x := x ++ List.replicate n 0
  decrypt n _ _ _ y := if n ≤ y.length then some (y.take (y.length - n)) else none
  length_encrypt _ _ _ _ _ := by rw [List.length_append, List.length_replicate]
  length_decrypt n _ _ _ x y h := by
    obtain ⟨hLe, h⟩ := Option.ite_none_right_eq_some.mp h
    obtain rfl := Option.some.inj h
    rw [List.length_take]
    omega

def sixteen : AeadData := ⟨zeroAead, [], [], 16⟩

/-- Eight bytes, then whatever is the size, then a shorter tag that does not verify. -/
theorem run_tag_refused_afterEight :
    ∃ c', Transition.run aeadStep (authNCrypt sixteen .encrypt [] [1] 17 8).1
        [⟨.encrypt, [], [1, 2], 18, 0⟩, ⟨.decrypt, [], [1], 16, 4⟩] = some c' ∧
      authNCrypt c' .encrypt [] [1] 17 16 = (c', .error (.errno .EINVAL)) :=
  ⟨_, rfl, run_tag_refused ⟨.encrypt, [], [1], 17, 16⟩ (show sixteen.tfm.setauthsize 8 = true by decide)
    (show 0 < 8 by decide) (show 8 ≤ sixteen.authsize by decide)
    (show Transition.run aeadStep (authNCrypt sixteen .encrypt [] [1] 17 8).1
      [⟨.encrypt, [], [1, 2], 18, 0⟩, ⟨.decrypt, [], [1], 16, 4⟩] = some _ from rfl)
    (show 8 < 16 by decide)⟩

-- ---------------------------------------------------------------------------
-- The pages
-- ---------------------------------------------------------------------------

/-- The room an operation may need. -/
def aeadRoom (c : AeadData) (dir : Dir) (len : Nat) : Nat :=
  match dir with
  | .encrypt => len + c.authsize
  | .decrypt => len

theorem le_aeadRoom (c : AeadData) (dir : Dir) (len : Nat) : len ≤ aeadRoom c dir len := by
  cases dir with
  | encrypt => exact Nat.le_add_right _ _
  | decrypt => exact Nat.le_refl _

theorem aeadDstLen_eq {len : Nat} (hFits : len + c.authsize < 4294967296) :
    aeadDstLen c dir len = aeadRoom c dir len := by
  cases dir with
  | encrypt => exact Nat.mod_eq_of_lt hFits
  | decrypt => rfl

/-- With room for the data and the tag of before, an operation stays inside. -/
theorem authNCrypt_ne_overrun (hRoom : aeadRoom c dir x.length ≤ room) :
    (authNCrypt c dir auth x room tagLen).2 ≠ .error .overrun := by
  rcases takeTagSize_cases c tagLen with ⟨-, hError⟩ | ⟨-, c', n, hOk, hLe, -⟩
  · rw [authNCrypt_error hError]
    exact fun hEq => by cases hEq
  · rw [authNCrypt, hOk]
    cases dir with
    | encrypt =>
      have hRoom' : x.length + c.authsize ≤ room := hRoom
      dsimp only
      rw [if_neg (by omega)]
      exact fun hEq => by cases hEq
    | decrypt =>
      have hRoom' : x.length ≤ room := hRoom
      dsimp only
      split
      · exact fun hEq => by cases hEq
      cases hDec : c'.tfm.decrypt c'.authsize c'.key c'.iv auth x with
      | none => exact fun hEq => by cases hEq
      | some y =>
        have hLen := c'.tfm.length_decrypt _ _ _ _ _ _ hDec
        dsimp only
        rw [if_neg (by omega)]
        exact fun hEq => by cases hEq

/-- With room for the data only, an encryption that is not refused does not. -/
theorem authNCrypt_overrun (hSize : 0 < c.authsize) (hFits : tagLen ≤ c.authsize) :
    ∃ c', authNCrypt c .encrypt auth x x.length tagLen = (c', .error .overrun) := by
  rcases takeTagSize_cases c tagLen with ⟨hLong, -⟩ | ⟨-, c', n, hOk, -, hPos⟩
  · omega
  · have hTag := hPos hSize
    refine ⟨c', ?_⟩
    rw [authNCrypt, hOk]
    dsimp only
    rw [if_pos (by omega)]

variable {pt : PageTable} {s s' : State} {re : Realloc} {m : Memory} {src len dst : Nat}

/-- `release_user_pages` with counts that fit does not leave the arrays. -/
theorem release_ne_overrun (h : Roomy s) (hUsed : s.usedPages ≤ s.arraySize) :
    (releaseUserPages s).2 ≠ .error .overrun := by
  have hRel := releaseUserPages_released h hUsed
  revert hRel
  generalize releaseUserPages s = r
  intro hRel
  cases hRel with
  | done u _ _ _ => exact fun hEq => by cases hEq
  | wild _ => exact fun hEq => by cases hEq

theorem aeadAuthRunZc_ne_overrun {srcSg dstSg : List Entry}
    (hPinned : getUserbuf pt s re src len dst (aeadDstLen c dir len) = (s', .ok (some srcSg, some dstSg)))
    (hRel : (releaseUserPages s').2 ≠ .error .overrun)
    (hOp : (authNCrypt c dir auth (gather m ((coverage srcSg).take len)) (coverage dstSg).length tagLen).2 ≠
      .error .overrun) :
    (aeadAuthRunZc pt re c s m dir auth tagLen src len dst).2.2.2 ≠ .error .overrun := by
  rw [aeadAuthRunZc, hPinned]
  dsimp only
  revert hOp hRel
  generalize authNCrypt c dir auth (gather m ((coverage srcSg).take len)) (coverage dstSg).length tagLen = r
  generalize releaseUserPages s' = rel
  obtain ⟨c', res⟩ := r
  obtain ⟨t, released⟩ := rel
  intro hRel hOp
  cases res with
  | ok r =>
    cases released with
    | error e => exact fun hEq => hRel (congrArg Except.error (Except.error.inj hEq))
    | ok u => exact fun hEq => by cases hEq
  | error e =>
    -- whatever went wrong, it was not the end of a list
    have hBind : (released.bind fun _ => (.error e : Except Failure Nat)) ≠ .error .overrun := by
      cases released with
      | error e' => exact fun hEq => hRel (congrArg Except.error (Except.error.inj hEq))
      | ok u => exact fun hEq => hOp (congrArg Except.error (Except.error.inj hEq))
    cases e with
    | overrun => exact absurd rfl hOp
    | errno _ => exact hBind
    | EBADMSG => exact hBind
    | wildPage => exact hBind

/-- In every state a session can be in, an AEAD operation on pinned pages of a message that is not
empty, and leaves room for the tag below 2^32, leaves its scatterlist exactly when it encrypts in
place, with a tag size that is not refused. -/
theorem run_aead_overrun_iff {es : List Event} {sgs : Option (List Entry) × Option (List Entry)}
    (hRun : Transition.run Pages.step Pages.created es = some s) (hSrc : src ≠ 0) (hDst : dst ≠ 0)
    (hLen : 0 < len) (hFits : len + c.authsize < 4294967296) (hSize : 0 < c.authsize)
    (hPinned : getUserbuf pt s re src len dst (aeadDstLen c dir len) = (s', .ok sgs)) :
    (aeadAuthRunZc pt re c s m dir auth tagLen src len dst).2.2.2 = .error .overrun ↔
      dir = .encrypt ∧ src = dst ∧ tagLen ≤ c.authsize := by
  have hRoomy := run_roomy hRun
  obtain ⟨a, b⟩ := sgs
  have hDstEq : aeadDstLen c dir len = aeadRoom c dir len := aeadDstLen_eq hFits
  have hShape : len ≤ aeadDstLen c dir len := hDstEq ▸ le_aeadRoom c dir len
  obtain ⟨srcSg, dstSg, rfl, rfl, hSrcSg, hDstSg⟩ :=
    getUserbuf_covers hRoomy hSrc hDst hLen (Nat.lt_of_lt_of_le hLen hShape) hPinned
  have hBytes : (gather m ((coverage srcSg).take len)).length = len := by
    rw [length_gather, List.length_take, hSrcSg, length_range, Nat.min_self]
  have hRel : (releaseUserPages s').2 ≠ .error .overrun := by
    have hGood : Good s.refs _ _ (getUserbuf pt s re src len dst (aeadDstLen c dir len)) :=
      getUserbuf_good hRoomy re
    rw [hPinned] at hGood
    cases hGood with
    | done _ _ hRoomy' hUsed _ => exact release_ne_overrun hRoomy' hUsed
  have hStays := fun hOp => @aeadAuthRunZc_ne_overrun c dir auth tagLen pt s s' re m src len dst srcSg dstSg
    hPinned hRel hOp
  by_cases hIn : dir = .encrypt ∧ src = dst
  · obtain ⟨rfl, rfl⟩ := hIn
    rw [if_pos rfl] at hDstSg
    have hRoom : (coverage dstSg).length = (gather m ((coverage srcSg).take len)).length := by
      rw [hBytes, hDstSg, length_range]
    rw [hRoom] at hStays
    by_cases hTag : tagLen ≤ c.authsize
    · refine ⟨fun _ => ⟨rfl, rfl, hTag⟩, fun _ => ?_⟩
      obtain ⟨c', hOver⟩ := @authNCrypt_overrun c auth (gather m ((coverage srcSg).take len)) tagLen hSize hTag
      rw [aeadAuthRunZc, hPinned]
      dsimp only
      rw [hRoom, hOver]
    · refine ⟨fun hOver => absurd hOver (hStays ?_), fun h => absurd h.2.2 hTag⟩
      rcases takeTagSize_cases c tagLen with ⟨-, hError⟩ | ⟨hLe, -⟩
      · rw [authNCrypt_error hError]
        exact fun hEq => by cases hEq
      · exact absurd hLe hTag
  · refine ⟨fun hOver => absurd hOver (hStays ?_), fun h => absurd ⟨h.1, h.2.1⟩ hIn⟩
    refine authNCrypt_ne_overrun ?_
    rw [hBytes, hDstSg, length_range, hDstEq]
    split
    · -- in place: a decryption, which needs no more than its source
      cases dir with
      | encrypt => exact absurd ⟨rfl, by assumption⟩ hIn
      | decrypt => exact Nat.le_refl _
    · exact Nat.le_refl _

/-- Two hundred bytes in place. -/
theorem run_aead_overrun_iff_inPlace :
    (aeadAuthRunZc flat plenty sixteen Pages.created (fun a => UInt8.ofNat a) .encrypt [] 16 4000 200
      4000).2.2.2 = .error .overrun := by
  have hPinned : getUserbuf flat Pages.created plenty 4000 200 4000 (aeadDstLen sixteen .encrypt 200) =
      (_, .ok (_, _)) := rfl
  exact (run_aead_overrun_iff (show Transition.run Pages.step Pages.created [] = some _ from rfl) (by decide)
    (by decide) (by decide) (by decide) (by decide) hPinned).mpr ⟨rfl, rfl, by decide⟩

end VirtioCrypto.Cryptodev.Authenc
