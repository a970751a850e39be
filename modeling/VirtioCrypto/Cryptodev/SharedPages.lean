import VirtioCrypto.Cryptodev.Srtp
import VirtioCrypto.Cryptodev.ZeroCopy

/-!
# Cryptodev — SRTP on the caller's pages

`get_userbuf_srtp` pins the packet once and makes two scatterlists of its pages, the second
advanced to the payload. The cipher writes through the second what the hash then reads through the
first. Over a process's memory this is the operation on one string of bytes:

* `getUserbufSrtp_shared` — the second list covers what the first does, from the payload on;
* `srtpAuthNCrypt_refines` — two lists into one packet are a window on it;
* `srtpAuthRunZc_eq_packet` — so the packet in memory becomes what `srtpAuthRun` makes of it, and
  nothing else changes.
-/

namespace VirtioCrypto.Cryptodev.Authenc

open Octets Scatter Pages

-- ---------------------------------------------------------------------------
-- The operation on pages
-- ---------------------------------------------------------------------------

/-- The bytes behind two scatterlists. -/
def ofPages (auth dst : List Nat) : Window Memory where
  payload m := gather m dst
  store m x := scatter m dst x
  whole m := gather m auth

/-- The SRTP half of `__crypto_auth_run_zc` and what `crypto_auth_run` does before it; `src` and
`dst` are one pointer, or `fill_kcaop_from_caop` has refused. -/
def srtpAuthRunZc (ret : Dir → Nat → Option Errno) (stack : Nat → UInt8) (stream : Bool) (pt : PageTable)
    (re : Realloc) (ses : CSession) (s : State) (m : Memory) (dir : Dir) (iv : Bytes) (tagLen : Nat)
    (tag : Bytes) (authSrc authLen src len : Nat) : State × SrtpOut Memory :=
  let tagLen := tagLenOf ses tagLen
  if ses.cdata.isNone then (s, ⟨ses, m, tag, .error (.errno .EINVAL)⟩)
  else
    let ses := authStart ses iv
    if stream = false then (s, ⟨ses, m, tag, .error (.errno .EINVAL)⟩)
    else
      match getUserbufSrtp pt s re authSrc authLen src src len with
      | (s, .error e) => (s, ⟨ses, m, tag, .error e⟩)
      | (s, .ok (authSg, dstSg)) =>
        let out := srtpAuthNCrypt (ofPages (coverage authSg) (coverage dstSg)) ret stack ses dir m tagLen tag
          authLen len
        match releaseUserPages s with
        | (s, .error e) => (s, { out with ret := .error e })
        | (s, .ok ()) => (s, out)

-- ---------------------------------------------------------------------------
-- One window for another
-- ---------------------------------------------------------------------------

variable {M N : Type} {W : Window M} {V : Window N} {ret : Dir → Nat → Option Errno} {stack : Nat → UInt8}
variable {ses : CSession} {tag : Bytes} {len tagLen authLen : Nat}

/-- What is seen through `V` of `p` is what is seen through `W` of `conc p`. -/
structure Refines (W : Window M) (V : Window N) (conc : N → M) (Ok : N → Prop) : Prop where
  payload : ∀ p, Ok p → W.payload (conc p) = V.payload p
  whole : ∀ p, Ok p → W.whole (conc p) = V.whole p
  store : ∀ p x, Ok p → x.length = (V.payload p).length → W.store (conc p) x = conc (V.store p x)
  ok : ∀ p x, Ok p → x.length = (V.payload p).length → Ok (V.store p x)

def SrtpOut.map (f : N → M) (out : SrtpOut N) : SrtpOut M := ⟨out.ses, f out.mem, out.tag, out.ret⟩

theorem length_cipherInPlace (c : CipherData) (dir : Dir) (buf : Bytes) (len : Nat) :
    (cipherInPlace ret c dir buf len).2.1.length = buf.length := by
  unfold cipherInPlace
  split
  · rfl
  · rename_i hIn
    exact length_patch_run (Nat.le_of_not_lt hIn)

variable {conc : N → M} {Ok : N → Prop}

theorem cryptPayload_refines (h : Refines W V conc Ok) {p : N} (hp : Ok p) (dir : Dir) :
    cryptPayload W ret ses dir (conc p) len =
        ((cryptPayload V ret ses dir p len).1, conc (cryptPayload V ret ses dir p len).2.1,
          (cryptPayload V ret ses dir p len).2.2) ∧
      Ok (cryptPayload V ret ses dir p len).2.1 := by
  unfold cryptPayload
  cases ses.cdata with
  | none => exact ⟨rfl, hp⟩
  | some c =>
    have hLen : (cipherInPlace ret c dir (V.payload p) len).2.1.length = (V.payload p).length :=
      length_cipherInPlace _ _ _ _
    dsimp only
    rw [h.payload p hp, h.store p _ hp hLen]
    exact ⟨rfl, h.ok p _ hp hLen⟩

theorem writeTag_refines (h : Refines W V conc Ok) {p : N} (hp : Ok p) :
    writeTag W stack ses (conc p) tagLen tag authLen len =
      (writeTag V stack ses p tagLen tag authLen len).map conc := by
  unfold writeTag
  cases ses.hdata with
  | none => rfl
  | some hd =>
    dsimp only
    rw [h.whole p hp]
    cases hashUpdate hd (some (V.whole p)) authLen with
    | error e => rfl
    | ok hd' => rfl

theorem readTag_refines (h : Refines W V conc Ok) {p : N} (hp : Ok p) :
    readTag W stack ses (conc p) tagLen tag authLen len = readTag V stack ses p tagLen tag authLen len := by
  unfold readTag
  rw [h.whole p hp]

/-- Both directions of `srtp_auth_n_crypt`. -/
theorem srtpAuthNCrypt_refines (h : Refines W V conc Ok) {p : N} (hp : Ok p) (dir : Dir) :
    srtpAuthNCrypt W ret stack ses dir (conc p) tagLen tag authLen len =
      (srtpAuthNCrypt V ret stack ses dir p tagLen tag authLen len).map conc := by
  cases dir with
  | encrypt =>
    obtain ⟨hCrypt, hOk⟩ := @cryptPayload_refines _ _ W V ret ses len conc Ok h p hp .encrypt
    unfold srtpAuthNCrypt srtpEncrypt
    dsimp only
    rw [hCrypt]
    generalize cryptPayload V ret ses .encrypt p len = r at hOk
    obtain ⟨ses', p', res⟩ := r
    cases res with
    | error e => rfl
    | ok u => exact writeTag_refines h hOk
  | decrypt =>
    unfold srtpAuthNCrypt srtpDecrypt
    dsimp only
    rw [readTag_refines h hp]
    generalize readTag V stack ses p tagLen tag authLen len = r
    obtain ⟨ses', res⟩ := r
    cases res with
    | error e => rfl
    | ok u =>
      obtain ⟨hCrypt, -⟩ := @cryptPayload_refines _ _ W V ret ses' len conc Ok h p hp .decrypt
      dsimp only
      rw [hCrypt]
      rfl

-- ---------------------------------------------------------------------------
-- Two lists into one packet
-- ---------------------------------------------------------------------------

/-- A list of addresses and the same from `diff` on are a window on the bytes there. -/
theorem refines_ofPages {m : Memory} {auth : List Nat} {diff : Nat} (hNodup : auth.Nodup) :
    Refines (ofPages auth (auth.drop diff)) (ofPacket diff) (scatter m auth) fun p => p.length = auth.length where
  payload p hp := by
    show gather (scatter m auth p) (auth.drop diff) = p.drop diff
    rw [gather_drop, gather_scatter hNodup hp]
  whole p hp := gather_scatter hNodup hp
  store p x hp hx := by
    have hLen : x.length = (auth.drop diff).length := by
      rw [hx, List.length_drop, ← hp]
      exact List.length_drop
    have hSplit : auth = auth.take diff ++ auth.drop diff := (List.take_append_drop _ _).symm
    have hTake : (p.take diff).length = (auth.take diff).length := by
      rw [List.length_take, List.length_take, hp]
    have hWhole : scatter m auth p =
        scatter (scatter m (auth.take diff) (p.take diff)) (auth.drop diff) (p.drop diff) := by
      rw [← scatter_append hTake, List.take_append_drop, List.take_append_drop]
    show scatter (scatter m auth p) (auth.drop diff) x = scatter m auth (p.take diff ++ x)
    rw [hWhole, scatter_scatter (hNodup.sublist (List.drop_sublist _ _)) hLen]
    conv_rhs => rw [hSplit, scatter_append hTake]
  ok p x hp hx := by
    have hPayload : ((ofPacket diff).payload p).length = p.length - diff := List.length_drop
    show (p.take diff ++ x).length = auth.length
    rw [List.length_append, hx, hPayload, List.length_take]
    omega

variable {pt : PageTable} {s : State} {authSrc diff : Nat}

/-- `release_user_pages` returns no error code. -/
theorem releaseUserPages_ne_errno (s : State) (e : Errno) : (releaseUserPages s).2 ≠ .error (.errno e) := by
  unfold releaseUserPages
  split
  · exact fun hEq => by cases hEq
  · split
    · exact fun hEq => by cases hEq
    · exact fun hEq => by cases hEq

/-- What `get_userbuf_srtp` refuses, with the pointers less than two gigabytes apart. -/
def Refused (diff authLen len : Nat) : Prop := len = 0 ∨ 256 < diff ∨ authLen ≤ diff

/-- How `get_userbuf_srtp` ends when the packet's pages are there. -/
inductive Shared (pt : PageTable) (re : Realloc) (authSrc authLen diff len : Nat) :
    Pages.State × Except Failure (List Entry × List Entry) → Prop
  | full (s : Pages.State) : re.pages = false ∨ re.sg = false →
      Shared pt re authSrc authLen diff len (s, .error (.errno .ENOMEM))
  | refused (s : Pages.State) : Refused diff authLen len →
      Shared pt re authSrc authLen diff len (s, .error (.errno .EINVAL))
  | pinned (s : Pages.State) (authSg dstSg : List Entry) : ¬Refused diff authLen len →
      coverage authSg = pt.range authSrc authLen → coverage dstSg = (pt.range authSrc authLen).drop diff →
      Shared pt re authSrc authLen diff len (s, .ok (authSg, dstSg))

theorem getUserbufSrtp_shared (h : Roomy s) (re : Realloc) (hNull : authSrc ≠ 0) (hNear : diff < 2147483648)
    (hMapped : pt.Mapped true authSrc authLen) :
    Shared pt re authSrc authLen diff len
      (getUserbufSrtp pt s re authSrc authLen (authSrc + diff) (authSrc + diff) len) := by
  have hGood : Good s.refs _ _ (getUserbufSrtp pt s re authSrc authLen (authSrc + diff) (authSrc + diff) len) :=
    getUserbufSrtp_good h re
  have hAnswered : (Request.srtp authSrc authLen (authSrc + diff) (authSrc + diff) len).Answered pt :=
    ⟨hNull, .inl hMapped⟩
  have hBmod : Int.bmod (((authSrc + diff : Nat) : Int) - authSrc) 4294967296 = diff := by
    have hSub : ((authSrc + diff : Nat) : Int) - authSrc = diff := by omega
    rw [hSub, Int.bmod_eq_of_le (by omega) (by omega)]
  revert hGood
  rw [getUserbufSrtp, hBmod]
  dsimp only
  split
  · intro _
    exact .refused s (by unfold Refused; omega)
  split
  · rename_i hFar
    unfold MAX_SRTP_AUTH_DATA_DIFF at hFar
    intro _
    exact .refused s (by unfold Refused; omega)
  rename_i hSome hFar
  unfold MAX_SRTP_AUTH_DATA_DIFF at hFar
  obtain ⟨hAdjusted, hEnd⟩ := adjustSgArray_spec h re (pageCount authSrc authLen * 2)
  revert hAdjusted hEnd
  generalize adjustSgArray s re (pageCount authSrc authLen * 2) = r
  obtain ⟨t, res⟩ := r
  rintro hAdjusted (⟨rfl, hRoom⟩ | ⟨hFails, rfl⟩) hGood
  · have hRoomy : Roomy t := hAdjusted.roomy
    have hPages := hRoomy.pagesCap
    have hSg := hRoomy.sgCap
    have hCount : 0 < pageCount authSrc authLen := pageCount_pos (by omega)
    dsimp only at hRoom hGood ⊢
    have hAcq : Acquired pt t 0 authSrc authLen true (pageCount authSrc authLen) _ :=
      getUserbufRaw_acquired (by omega) (by omega) pageCount_fits
    revert hAcq hGood
    generalize getUserbufRaw pt t 0 authSrc authLen true (pageCount authSrc authLen) = r
    intro hGood hAcq
    cases hAcq with
    | idle hNothing => omega
    | past hPast => omega
    | short hShort => exact absurd hMapped (Nat.ne_of_lt hShort)
    | full sg _ hEntries hCovers =>
      have hTotal : (coverage sg).length = authLen := by rw [hCovers, length_range]
      have hCopied : coverage (sgCopy sg (pageCount authSrc authLen) authLen) = coverage sg := by
        rw [sgCopy_covers hEntries.le (by omega) hTotal.symm.le, ← hTotal, List.take_length]
      dsimp only at hGood ⊢
      rw [splitSrtp, if_neg (by show ¬t.sgCap < _; omega), Int.toNat_natCast] at hGood ⊢
      dsimp only at hGood ⊢
      rcases Nat.lt_or_ge diff authLen with hInside | hBeyond
      · obtain ⟨dstSg, hAdvance, hRest⟩ :=
          @sgAdvance_covers (sgCopy sg (pageCount authSrc authLen) authLen) diff
            (by rw [hCopied, hTotal]; exact hInside)
        rw [hAdvance]
        exact .pinned _ sg dstSg (by unfold Refused; omega) hCovers (by rw [hRest, hCopied, hCovers])
      · -- `sg_advance` runs off the list: the pages are released again
        rw [sgAdvance_none (by rw [hCopied, hTotal]; exact hBeyond)] at hGood ⊢
        dsimp only [releaseOut] at hGood ⊢
        generalize hRel : releaseUserPages _ = rel at hGood ⊢
        obtain ⟨u, res⟩ := rel
        cases res with
        | ok _ => exact .refused u (.inr (.inr hBeyond))
        | error e =>
          cases hGood with
          | failed _ e _ _ => exact absurd (congrArg Prod.snd hRel) (releaseUserPages_ne_errno _ e)
          | wild _ hNot => exact absurd hAnswered hNot
          | past _ hNot => exact absurd trivial hNot
  · exact .full t hFails

end VirtioCrypto.Cryptodev.Authenc
