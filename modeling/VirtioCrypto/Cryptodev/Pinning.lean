import VirtioCrypto.Cryptodev.Pages
import VirtioCrypto.Transition

/-!
# Cryptodev — the account of pinned pages

Every operation on user memory pins pages, works on them and releases them; `serve` is the
pinning and the releasing. Over whole runs of a session:

* `run_in_bounds` — neither uses an entry past the end of the session's arrays or of the
  scatterlist it sets up, however the requests and the allocation failures fall;
* `run_pins_balanced` — requests whose pages can all be pinned give every reference back;
* `run_userbuf_covers` — what the scatterlists of `get_userbuf` cover;
* `getUserbuf_dst_unpinned` — one whose destination cannot be pinned makes the kernel release
  pages it has not pinned.
-/

namespace VirtioCrypto.Cryptodev.Pages

open Octets Transition

variable {pt : PageTable} {s s' : State}

-- ---------------------------------------------------------------------------
-- Requests
-- ---------------------------------------------------------------------------

/-- What an operation asks of this layer: `__crypto_run_zc` and the AEAD case of
`__crypto_auth_run_zc`, its TLS case, and its SRTP case. -/
inductive Request
  | userbuf (src srcLen dst dstLen : Nat)
  | tls (dst dstLen : Nat)
  | srtp (authSrc authLen src dst dstLen : Nat)

/-- The pages of a request. -/
def acquire (pt : PageTable) (s : State) (re : Realloc) : Request → State × Except Failure Unit
  | .userbuf src srcLen dst dstLen =>
    ((getUserbuf pt s re src srcLen dst dstLen).1,
      (getUserbuf pt s re src srcLen dst dstLen).2.map fun _ => ())
  | .tls dst dstLen =>
    ((getUserbufTls pt s re dst dstLen).1, (getUserbufTls pt s re dst dstLen).2.map fun _ => ())
  | .srtp authSrc authLen src dst dstLen =>
    ((getUserbufSrtp pt s re authSrc authLen src dst dstLen).1,
      (getUserbufSrtp pt s re authSrc authLen src dst dstLen).2.map fun _ => ())

/-- A request, seen from this layer: its pages are released after the operation, unless there
was a failure to get them. What the operation does with the lists in between is not part of it. -/
def serve (pt : PageTable) (s : State) (re : Realloc) (r : Request) : State × Except Failure Unit :=
  match acquire pt s re r with
  | (s, .ok ()) => releaseUserPages s
  | (s, .error e) => (s, .error e)

/-- A request in the memory of its caller at the time. -/
structure Event where
  pt : PageTable
  re : Realloc
  request : Request

/-- The session goes on after an error code, and after nothing worse. -/
def step (s : State) (e : Event) : Option State :=
  match serve e.pt s e.re e.request with
  | (s, .ok ()) => some s
  | (s, .error (.errno _)) => some s
  | _ => none

/-- The destination is not shorter than the source. -/
def Request.WellShaped : Request → Prop
  | .userbuf _ srcLen _ dstLen => srcLen ≤ dstLen
  | _ => True

/-- `get_user_pages` pins all the pages of a range, or can pin all of it or nothing. -/
def PageTable.All (pt : PageTable) (write : Bool) (addr pgcount : Nat) : Prop :=
  (getUserPages pt write (addr / PAGE_SIZE) pgcount).length = pgcount

def PageTable.AllOrNone (pt : PageTable) (write : Bool) (addr pgcount : Nat) : Prop :=
  pt.All write addr pgcount ∨ getUserPages pt write (addr / PAGE_SIZE) pgcount = []

/-- The requests that keep their account: no range is pinned in part, a destination of its own
is pinned, and there is a source to pin where pages are counted. The last leaves out an encryption
in place of no bytes, which counts the pages of its tag, and SRTP data at NULL. -/
def Request.Answered (pt : PageTable) : Request → Prop
  | .userbuf src srcLen dst dstLen =>
    if src = dst then
      (bufLen src srcLen = 0 → bufLen dst dstLen = 0) ∧
        pt.AllOrNone true src
          (max (pageCount src (bufLen src srcLen)) (pageCount dst (bufLen dst dstLen)))
    else
      pt.AllOrNone false src (pageCount src (bufLen src srcLen)) ∧
        pt.All true dst (pageCount dst (bufLen dst dstLen))
  | .tls dst dstLen => pt.AllOrNone true dst (pageCount dst dstLen)
  | .srtp authSrc authLen _ _ _ =>
    authSrc ≠ 0 ∧ pt.AllOrNone true authSrc (pageCount authSrc authLen)

instance (pt : PageTable) (write : Bool) (addr pgcount : Nat) : Decidable (pt.All write addr pgcount) :=
  inferInstanceAs (Decidable (_ = _))

instance (pt : PageTable) (write : Bool) (addr pgcount : Nat) :
    Decidable (pt.AllOrNone write addr pgcount) :=
  inferInstanceAs (Decidable (_ ∨ _))

/-- How getting the pages of a request ends: with counts that fit the arrays and, for an
answered request, nothing held after the pages counted are given back; with an error code and,
for an answered request, nothing held; or, for any other, with the release of a NULL page. One
that is not well shaped may mark the end of a list behind the array. -/
inductive Good {α : Type} (refs : Nat → Int) (answered shaped : Prop) : State × Except Failure α → Prop
  | done (s : State) (a : α) : Roomy s → s.usedPages ≤ s.arraySize →
      (answered → none ∉ s.held s.usedPages ∧
        ∀ f, s.refs f - (s.held s.usedPages).count (some f) = refs f) →
      Good refs answered shaped (s, .ok a)
  | failed (s : State) (e : Errno) : Roomy s → (answered → ∀ f, s.refs f = refs f) →
      Good refs answered shaped (s, .error (.errno e))
  | wild (s : State) : ¬answered → Good refs answered shaped (s, .error .wildPage)
  | past (s : State) : ¬shaped → Good refs answered shaped (s, .error .overrun)

/-- On the way out with an error after pages were counted. -/
theorem releaseOut_good {α : Type} {refs : Nat → Int} {answered shaped : Prop} (e : Errno) (h : Roomy s)
    (hUsed : s.usedPages ≤ s.arraySize)
    (hHeld : answered → none ∉ s.held s.usedPages ∧
      ∀ f, s.refs f - (s.held s.usedPages).count (some f) = refs f) :
    Good refs answered shaped (releaseOut s (.errno e) : State × Except Failure α) := by
  have hRel := releaseUserPages_released h hUsed
  rw [releaseOut]
  revert hRel
  generalize releaseUserPages s = r
  intro hRel
  cases hRel with
  | done s' _ hRoomy hAfter =>
    exact .failed s' e hRoomy fun hAnswered f => (hAfter f).trans ((hHeld hAnswered).2 f)
  | wild hNull => exact .wild s fun hAnswered => (hHeld hAnswered).1 hNull

/-- The array after pinning: what was there below, the new pages, what was there above. -/
theorem held_pinAt {base n : Nat} {frames : List Nat} (h : base + frames.length ≤ n) :
    (pinAt s base frames).held n =
      s.held base ++ frames.map some ++ s.between (base + frames.length) n := by
  unfold State.between
  apply List.ext_getElem
  · simp only [State.held, List.length_append, List.length_map, List.length_range,
      List.length_range']
    omega
  · intro i hi _
    have hi' : i < n := by simpa [State.held] using hi
    simp only [State.held, List.getElem_map, List.getElem_range, pinAt]
    by_cases hBelow : i < base
    · rw [if_neg (by omega), List.getElem_append_left (by simp; omega),
        List.getElem_append_left (by simp; omega)]
      simp
    · by_cases hNew : i < base + frames.length
      · rw [if_pos ⟨by omega, hNew⟩, List.getElem_append_left (by simp; omega),
          List.getElem_append_right (by simp; omega)]
        simp [List.getElem?_eq_getElem (show i - base < frames.length by omega)]
      · rw [if_neg (by omega), List.getElem_append_right (by simp; omega)]
        simp only [List.length_append, List.length_map, List.length_range, List.getElem_map,
          List.getElem_range', Nat.one_mul]
        congr 1
        omega

/-- The pages counted are all there, and giving them back leaves `refs`. -/
def Settled (refs : Nat → Int) (s : State) (n : Nat) : Prop :=
  none ∉ s.held n ∧ ∀ f, s.refs f - (s.held n).count (some f) = refs f

theorem Settled.zero {refs : Nat → Int} (h : s.refs = refs) : Settled refs s 0 :=
  ⟨List.not_mem_nil, fun f => by rw [← h]; exact Int.sub_zero _⟩

theorem count_map_some (frames : List Nat) (f : Nat) :
    (frames.map some).count (some f) = frames.count f :=
  List.count_map_of_injective frames some (Option.some_injective _) f

/-- Pages pinned above those counted are counted next. -/
theorem Settled.pinAt {refs : Nat → Int} {base n : Nat} {frames : List Nat}
    (h : Settled refs s base) (hLen : base + frames.length = n) :
    Settled refs (pinAt s base frames) n := by
  have hHeld : (Pages.pinAt s base frames).held n = s.held base ++ frames.map some := by
    rw [held_pinAt (Nat.le_of_eq hLen), hLen, State.between, Nat.sub_self]
    exact List.append_nil _
  obtain ⟨hSome, hRefs⟩ := h
  refine ⟨?_, fun f => ?_⟩
  · rw [hHeld]
    simp [hSome]
  · have hOld := hRefs f
    rw [hHeld, List.count_append, count_map_some]
    show s.refs f + frames.count f - _ = refs f
    push_cast
    omega

/-- The destination, once the source is accounted for. -/
theorem pinOutput_good {refs : Nat → Int} {answered shaped : Prop} {dst dstLen : Nat}
    (srcSg : Option (List Entry)) (h : Roomy s) (hUsed : s.usedPages ≤ s.arraySize)
    (hRead : s.readonlyPages ≤ s.usedPages) (hMark : shaped → dst ≠ 0 → s.readonlyPages < s.arraySize)
    (hFits : 0 < dstLen → dst % PAGE_SIZE + dstLen ≤ (s.usedPages - s.readonlyPages) * PAGE_SIZE)
    (hIdle : dstLen = 0 ∨ dst = 0 → s.usedPages = s.readonlyPages)
    (hRefs : answered → Settled refs s s.readonlyPages)
    (hAll : answered → pt.All true dst (s.usedPages - s.readonlyPages)) :
    Good refs answered shaped (pinOutput pt s dst dstLen srcSg) := by
  have hPages := h.pagesCap
  have hSg := h.sgCap
  rw [pinOutput]
  split
  · rename_i hNull
    exact .done s _ h hUsed (hIdle (.inr hNull) ▸ hRefs)
  · rename_i hDst
    have hAcq : Acquired pt s s.readonlyPages dst dstLen true (s.usedPages - s.readonlyPages) _ :=
      getUserbufRaw_acquired (by omega) (by omega) hFits
    revert hAcq
    generalize getUserbufRaw pt s s.readonlyPages dst dstLen true
      (s.usedPages - s.readonlyPages) = r
    intro hAcq
    cases hAcq with
    | idle hNothing =>
      have hSame : s.usedPages = s.readonlyPages := by
        rcases hNothing with hZero | hNothing
        · omega
        · exact hIdle hNothing
      exact .done s _ h hUsed (hSame ▸ hRefs)
    | past hPast =>
      refine .past s fun hShaped => ?_
      have hInside := hMark hShaped hDst
      omega
    | short hShort =>
      -- the counts are released as they stand
      exact releaseOut_good .EINVAL (h.pinAt _ _) hUsed fun hAnswered =>
        absurd (hAll hAnswered) (Nat.ne_of_lt hShort)
    | full sg hFull _ _ =>
      exact .done _ _ ((h.pinAt _ _).setSg _ _) hUsed fun hAnswered =>
        (hRefs hAnswered).pinAt (by rw [hFull]; exact Nat.add_sub_cancel' hRead)

/-- A first range that cannot be pinned, and is not in part, costs nothing. -/
theorem refs_pinAt_none {write : Bool} {addr n : Nat} (h : pt.AllOrNone write addr n)
    (hShort : (getUserPages pt write (addr / PAGE_SIZE) n).length < n) (f : Nat) :
    (pinAt s 0 (getUserPages pt write (addr / PAGE_SIZE) n)).refs f = s.refs f := by
  rw [h.resolve_left (Nat.ne_of_lt hShort)]
  exact Int.add_zero _

/-- `get_userbuf` once the arrays are large enough. -/
theorem pinBoth_good {refs : Nat → Int} {answered shaped : Prop} {src srcLen dst dstLen : Nat}
    (h : Roomy s) (hUsed : s.usedPages ≤ s.arraySize) (hRefs : s.refs = refs)
    (hSame : src = dst → (0 < srcLen → src % PAGE_SIZE + srcLen ≤ s.usedPages * PAGE_SIZE) ∧
      (answered → (srcLen = 0 ∨ src = 0 → s.usedPages = 0) ∧ pt.AllOrNone true src s.usedPages))
    (hTwo : src ≠ dst → s.readonlyPages ≤ s.usedPages ∧
      (shaped → dst ≠ 0 → s.readonlyPages < s.arraySize) ∧
      (0 < srcLen → src % PAGE_SIZE + srcLen ≤ s.readonlyPages * PAGE_SIZE) ∧
      (0 < dstLen → dst % PAGE_SIZE + dstLen ≤ (s.usedPages - s.readonlyPages) * PAGE_SIZE) ∧
      (srcLen = 0 ∨ src = 0 → s.readonlyPages = 0) ∧
      (dstLen = 0 ∨ dst = 0 → s.usedPages = s.readonlyPages) ∧
      (answered → pt.AllOrNone false src s.readonlyPages ∧
        pt.All true dst (s.usedPages - s.readonlyPages))) :
    Good refs answered shaped (pinBoth pt s src srcLen dst dstLen) := by
  have hPages := h.pagesCap
  have hSg := h.sgCap
  have hPos := h.pos
  have hZero : Settled refs s 0 := .zero hRefs
  rw [pinBoth]
  split
  · rename_i hEq
    obtain ⟨hFits, hAnswer⟩ := hSame hEq
    have hAcq : Acquired pt s 0 src srcLen true s.usedPages _ :=
      getUserbufRaw_acquired (by omega) (by omega) hFits
    revert hAcq
    generalize getUserbufRaw pt s 0 src srcLen true s.usedPages = r
    intro hAcq
    cases hAcq with
    | idle hNothing =>
      refine .done s _ h hUsed fun hAnswered => ?_
      rw [hNothing.elim id (hAnswer hAnswered).1]
      exact hZero
    | past hPast => omega
    | short hShort =>
      exact .failed _ _ (h.pinAt _ _) fun hAnswered f =>
        (refs_pinAt_none (hAnswer hAnswered).2 hShort f).trans (congrFun hRefs f)
    | full sg hFull _ _ =>
      exact .done _ _ ((h.pinAt _ _).setSg _ _) hUsed fun _ => hZero.pinAt (by rw [hFull, Nat.zero_add]; rfl)
  · rename_i hNe
    obtain ⟨hRead, hMark, hSrcFits, hDstFits, hSrcIdle, hDstIdle, hAnswer⟩ := hTwo hNe
    split
    · rename_i hNull
      exact pinOutput_good none h hUsed hRead hMark hDstFits hDstIdle
        (fun _ => (hSrcIdle (.inr hNull)).symm ▸ hZero) fun hAnswered => (hAnswer hAnswered).2
    · have hAcq : Acquired pt s 0 src srcLen false s.readonlyPages _ :=
        getUserbufRaw_acquired (by omega) (by omega) hSrcFits
      revert hAcq
      generalize getUserbufRaw pt s 0 src srcLen false s.readonlyPages = r
      intro hAcq
      cases hAcq with
      | idle hIdle =>
        exact pinOutput_good _ h hUsed hRead hMark hDstFits hDstIdle
          (fun _ => (hIdle.elim id hSrcIdle).symm ▸ hZero) fun hAnswered => (hAnswer hAnswered).2
      | past hPast => omega
      | short hShort =>
        exact .failed _ _ (h.pinAt _ _) fun hAnswered f =>
          (refs_pinAt_none (hAnswer hAnswered).1 hShort f).trans (congrFun hRefs f)
      | full sg hFull _ _ =>
        exact pinOutput_good (some sg) ((h.pinAt 0 _).setSg 0 _) hUsed hRead hMark hDstFits hDstIdle
          (fun _ => hZero.pinAt (by rw [hFull, Nat.zero_add]; rfl))
          fun hAnswered => (hAnswer hAnswered).2

theorem pageCount_bufLen_zero {buf len : Nat} (h : bufLen buf len = 0 ∨ buf = 0) :
    pageCount buf (bufLen buf len) = 0 := by
  have hZero : bufLen buf len = 0 := by
    rcases h with h | h
    · exact h
    · exact if_pos h
  rw [hZero]
  rfl

theorem getUserbuf_good (h : Roomy s) (re : Realloc) {src srcLen dst dstLen : Nat} :
    Good s.refs ((Request.userbuf src srcLen dst dstLen).Answered pt) (srcLen ≤ dstLen)
      (getUserbuf pt s re src srcLen dst dstLen) := by
  -- the counts, in whatever state the arrays are by then
  have hPin : ∀ t : State, Roomy t → t.refs = s.refs →
      t.usedPages = (s.countBoth src (bufLen src srcLen) dst (bufLen dst dstLen)).usedPages →
      t.readonlyPages = (s.countBoth src (bufLen src srcLen) dst (bufLen dst dstLen)).readonlyPages →
      t.usedPages ≤ t.arraySize →
      Good s.refs ((Request.userbuf src srcLen dst dstLen).Answered pt) (srcLen ≤ dstLen)
        (pinBoth pt t src (bufLen src srcLen) dst (bufLen dst dstLen)) := by
    intro t hRoomy hRefs hUsed hRead hRoom
    refine pinBoth_good hRoomy hRoom hRefs ?_ ?_
    · rintro rfl
      rw [State.countBoth, if_pos rfl] at hUsed
      have hUsed : t.usedPages =
        max (pageCount src (bufLen src srcLen)) (pageCount src (bufLen src dstLen)) := hUsed
      rw [hUsed]
      refine ⟨fun hLen => ?_, fun hAnswered => ?_⟩
      · exact Nat.le_trans (pageCount_fits hLen) (Nat.mul_le_mul_right _ (Nat.le_max_left _ _))
      · rw [Request.Answered, if_pos rfl] at hAnswered
        refine ⟨fun hZero => ?_, hAnswered.2⟩
        have hSrc := pageCount_bufLen_zero hZero
        have hDst : bufLen src dstLen = 0 ∨ src = 0 := hZero.imp_left hAnswered.1
        rw [hSrc, pageCount_bufLen_zero hDst]
        rfl
    · intro hNe
      rw [State.countBoth, if_neg hNe] at hUsed hRead
      have hUsed : t.usedPages =
        pageCount src (bufLen src srcLen) + pageCount dst (bufLen dst dstLen) := hUsed
      have hRead : t.readonlyPages = pageCount src (bufLen src srcLen) := hRead
      rw [hUsed, hRead, Nat.add_sub_cancel_left]
      refine ⟨Nat.le_add_right _ _, fun hShape hDst => ?_, pageCount_fits, pageCount_fits,
        pageCount_bufLen_zero, fun hZero => ?_, fun hAnswered => ?_⟩
      · have hPos := hRoomy.pos
        rcases Nat.eq_zero_or_pos dstLen with hZero | hLen
        · have hSrc : bufLen src srcLen = 0 := by
            unfold bufLen
            split <;> omega
          rw [pageCount_bufLen_zero (.inl hSrc)]
          exact hPos
        · have hLen' : 0 < bufLen dst dstLen := by
            rw [bufLen, if_neg hDst]
            exact hLen
          have hSome : 0 < pageCount dst (bufLen dst dstLen) := pageCount_pos hLen'
          omega
      · rw [pageCount_bufLen_zero hZero, Nat.add_zero]
      · rw [Request.Answered, if_neg hNe] at hAnswered
        exact hAnswered
  have hCount : Roomy (s.countBoth src (bufLen src srcLen) dst (bufLen dst dstLen)) ∧
      (s.countBoth src (bufLen src srcLen) dst (bufLen dst dstLen)).refs = s.refs := by
    unfold State.countBoth
    split
    · exact ⟨h.count _ _, rfl⟩
    · exact ⟨h.count _ _, rfl⟩
  rw [getUserbuf]
  split
  · obtain ⟨hAdjusted, hEnd⟩ := adjustSgArray_spec hCount.1 re
      (s.countBoth src (bufLen src srcLen) dst (bufLen dst dstLen)).usedPages
    revert hAdjusted hEnd
    generalize adjustSgArray (s.countBoth src (bufLen src srcLen) dst (bufLen dst dstLen)) re
      (s.countBoth src (bufLen src srcLen) dst (bufLen dst dstLen)).usedPages = r
    obtain ⟨t, res⟩ := r
    rintro hAdjusted (⟨rfl, hRoom⟩ | ⟨-, rfl⟩)
    · exact hPin t hAdjusted.roomy (hAdjusted.refs.trans hCount.2) hAdjusted.usedPages
        hAdjusted.readonlyPages (hAdjusted.usedPages ▸ hRoom)
    · exact .failed t _ hAdjusted.roomy fun _ f => congrFun (hAdjusted.refs.trans hCount.2) f
  · rename_i hRoom
    exact hPin _ hCount.1 hCount.2 rfl rfl (Nat.le_of_not_lt hRoom)

theorem getUserbufTls_good (h : Roomy s) (re : Realloc) {dst dstLen : Nat} :
    Good s.refs ((Request.tls dst dstLen).Answered pt) True (getUserbufTls pt s re dst dstLen) := by
  rw [getUserbufTls]
  split
  · exact .failed s _ h fun _ _ => rfl
  · rename_i hSome
    have hLen : 0 < dstLen := by omega
    obtain ⟨hAdjusted, hEnd⟩ := adjustSgArray_spec (h.count (pageCount dst dstLen) 0) re
      (pageCount dst dstLen)
    revert hAdjusted hEnd
    generalize adjustSgArray (s.count (pageCount dst dstLen) 0) re (pageCount dst dstLen) = r
    obtain ⟨t, res⟩ := r
    rintro hAdjusted (⟨rfl, hRoom⟩ | ⟨-, rfl⟩)
    · have hRoomy : Roomy t := hAdjusted.roomy
      have hPages := hRoomy.pagesCap
      have hSg := hRoomy.sgCap
      have hPos := hRoomy.pos
      have hUsed : t.usedPages = pageCount dst dstLen := hAdjusted.usedPages
      have hRefs : t.refs = s.refs := hAdjusted.refs
      dsimp only at hRoom ⊢
      have hAcq : Acquired pt t 0 dst dstLen true (pageCount dst dstLen) _ :=
        getUserbufRaw_acquired (by omega) (by omega) pageCount_fits
      revert hAcq
      generalize getUserbufRaw pt t 0 dst dstLen true (pageCount dst dstLen) = r
      intro hAcq
      cases hAcq with
      | idle hNothing =>
        have hCount : 0 < pageCount dst dstLen := pageCount_pos hLen
        omega
      | past hPast => omega
      | short hShort =>
        exact .failed _ _ (hRoomy.pinAt _ _) fun hAnswered f =>
          (refs_pinAt_none hAnswered hShort f).trans (congrFun hRefs f)
      | full sg hFull _ _ =>
        exact .done _ _ ((hRoomy.pinAt _ _).setSg _ _) (hUsed ▸ hRoom) fun _ =>
          (Settled.zero hRefs).pinAt (by rw [hFull, Nat.zero_add]; exact hUsed.symm)
    · exact .failed t _ hAdjusted.roomy fun _ f => congrFun hAdjusted.refs f

/-- Whatever the scatterlist is, the pages counted are those pinned. -/
theorem splitSrtp_good {refs : Nat → Int} {answered : Prop} {authSg : List Entry}
    {pagecount authLen diff : Nat} (h : Roomy s) (hUsed : s.usedPages ≤ s.arraySize)
    (hTables : pagecount * 2 ≤ s.arraySize) (hHeld : answered → Settled refs s s.usedPages) :
    Good refs answered True (splitSrtp s authSg pagecount authLen diff) := by
  have hSg := h.sgCap
  rw [splitSrtp, if_neg (by omega)]
  dsimp only
  cases sgAdvance (sgCopy authSg pagecount authLen) diff with
  | some dstSg => exact .done _ _ (((h.setSg _ _).setSg _ _).setSg _ _) hUsed hHeld
  | none => exact releaseOut_good .EINVAL ((h.setSg _ _).setSg _ _) hUsed hHeld

theorem getUserbufSrtp_good (h : Roomy s) (re : Realloc) {authSrc authLen src dst dstLen : Nat} :
    Good s.refs ((Request.srtp authSrc authLen src dst dstLen).Answered pt) True
      (getUserbufSrtp pt s re authSrc authLen src dst dstLen) := by
  rw [getUserbufSrtp]
  split
  · exact .failed s _ h fun _ _ => rfl
  split
  · exact .failed s _ h fun _ _ => rfl
  rename_i hSome _
  have hLen : 0 < authLen := by omega
  obtain ⟨hAdjusted, hEnd⟩ := adjustSgArray_spec h re (pageCount authSrc authLen * 2)
  dsimp only
  revert hAdjusted hEnd
  generalize adjustSgArray s re (pageCount authSrc authLen * 2) = r
  obtain ⟨t, res⟩ := r
  rintro hAdjusted (⟨rfl, hRoom⟩ | ⟨-, rfl⟩)
  · have hRoomy : Roomy t := hAdjusted.roomy
    have hPages := hRoomy.pagesCap
    have hSg := hRoomy.sgCap
    have hPos := hRoomy.pos
    have hCount : 0 < pageCount authSrc authLen := pageCount_pos hLen
    have hRefs : t.refs = s.refs := hAdjusted.refs
    dsimp only at hRoom ⊢
    have hUsed : pageCount authSrc authLen ≤ t.arraySize := by omega
    have hTables : pageCount authSrc authLen * 2 ≤ t.arraySize := hRoom
    have hAcq : Acquired pt t 0 authSrc authLen true (pageCount authSrc authLen) _ :=
      getUserbufRaw_acquired (by omega) (by omega) pageCount_fits
    revert hAcq
    generalize getUserbufRaw pt t 0 authSrc authLen true (pageCount authSrc authLen) = r
    intro hAcq
    cases hAcq with
    | idle hNothing =>
      refine splitSrtp_good (hRoomy.count _ _) hUsed hTables fun hAnswered => ?_
      have hNull := hAnswered.1
      omega
    | past hPast => omega
    | short hShort =>
      exact .failed _ _ (hRoomy.pinAt _ _) fun hAnswered f =>
        (refs_pinAt_none hAnswered.2 hShort f).trans (congrFun hRefs f)
    | full sg hFull _ _ =>
      exact splitSrtp_good (((hRoomy.pinAt _ _).setSg _ _).count _ _) hUsed hTables fun _ =>
        (Settled.zero hRefs).pinAt (by rw [hFull, Nat.zero_add]; rfl)
  · exact .failed t _ hAdjusted.roomy fun _ f => congrFun hAdjusted.refs f

theorem Good.map {α β : Type} {refs : Nat → Int} {answered shaped : Prop} {r : State × Except Failure α}
    (h : Good refs answered shaped r) (g : α → β) : Good refs answered shaped (r.1, r.2.map g) := by
  cases h with
  | done s a hRoomy hUsed hHeld => exact .done s (g a) hRoomy hUsed hHeld
  | failed s e hRoomy hNone => exact .failed s e hRoomy hNone
  | wild s hNot => exact .wild s hNot
  | past s hNot => exact .past s hNot

theorem acquire_good (h : Roomy s) (re : Realloc) (r : Request) :
    Good s.refs (r.Answered pt) r.WellShaped (acquire pt s re r) := by
  cases r with
  | userbuf src srcLen dst dstLen => exact (getUserbuf_good h re).map _
  | tls dst dstLen => exact (getUserbufTls_good h re).map _
  | srtp authSrc authLen src dst dstLen => exact (getUserbufSrtp_good h re).map _

/-- How a request ends, pages released: the arrays are as roomy as before and the account of an
answered request is balanced; only a request that was not answered releases a NULL page, and only
one that is not well shaped leaves the arrays. -/
inductive Served (refs : Nat → Int) (answered shaped : Prop) : State × Except Failure Unit → Prop
  | done (s : State) : Roomy s → (answered → s.refs = refs) → Served refs answered shaped (s, .ok ())
  | failed (s : State) (e : Errno) : Roomy s → (answered → s.refs = refs) →
      Served refs answered shaped (s, .error (.errno e))
  | wild (s : State) : ¬answered → Served refs answered shaped (s, .error .wildPage)
  | past (s : State) : ¬shaped → Served refs answered shaped (s, .error .overrun)

theorem serve_served (h : Roomy s) (re : Realloc) (r : Request) :
    Served s.refs (r.Answered pt) r.WellShaped (serve pt s re r) := by
  have hGood : Good s.refs (r.Answered pt) r.WellShaped (acquire pt s re r) := acquire_good h re r
  rw [serve]
  revert hGood
  generalize acquire pt s re r = res
  intro hGood
  cases hGood with
  | done t a hRoomy hUsed hHeld =>
    have hRel := releaseUserPages_released hRoomy hUsed
    dsimp only
    revert hRel
    generalize releaseUserPages t = res
    intro hRel
    cases hRel with
    | done u _ hRoomy' hAfter =>
      exact .done u hRoomy' fun hAnswered => funext fun f =>
        (hAfter f).trans ((hHeld hAnswered).2 f)
    | wild hNull => exact .wild _ fun hAnswered => (hHeld hAnswered).1 hNull
  | failed t errno hRoomy hNone =>
    exact .failed t errno hRoomy fun hAnswered => funext (hNone hAnswered)
  | wild t hNot => exact .wild t hNot
  | past t hNot => exact .past t hNot

theorem Roomy.step {e : Event} (h : Roomy s) (hStep : step s e = some s') : Roomy s' := by
  have hServed := @serve_served e.pt s h e.re e.request
  rw [Pages.step] at hStep
  revert hServed hStep
  generalize serve e.pt s e.re e.request = res
  intro hStep hServed
  cases hServed with
  | done t hRoomy _ => exact Option.some.inj hStep ▸ hRoomy
  | failed t errno hRoomy _ => exact Option.some.inj hStep ▸ hRoomy
  | wild t _ => cases hStep
  | past t _ => cases hStep

theorem run_roomy {es : List Event} (hRun : run Pages.step Pages.created es = some s) : Roomy s :=
  run_keeps (fun _ _ _ h hStep => h.step hStep) Roomy.created hRun

/-- A process with its pages in order, and a kernel with memory to spare. -/
def flat : PageTable := ⟨some, fun _ => true⟩
def plenty : Realloc := ⟨true, true, fun _ => none, fun _ => .clear⟩

/-- The arrays are ready for a request: counted, and with room. -/
structure Counted (s : State) (src srcLen dst dstLen : Nat) : Prop where
  roomy : Roomy s
  room : s.usedPages ≤ s.arraySize
  inPlace : src = dst → s.usedPages = max (pageCount src srcLen) (pageCount dst dstLen)
  used : src ≠ dst → s.usedPages = pageCount src srcLen + pageCount dst dstLen
  readonly : src ≠ dst → s.readonlyPages = pageCount src srcLen

theorem pinOutput_covers {src srcLen dst dstLen : Nat} {srcSg a b : Option (List Entry)}
    (h : Counted s src srcLen dst dstLen) (hNe : src ≠ dst) (hDst : dst ≠ 0) (hLen : 0 < dstLen)
    (hOk : pinOutput pt s dst dstLen srcSg = (s', .ok (a, b))) :
    a = srcSg ∧ ∃ sg, b = some sg ∧ coverage sg = pt.range dst dstLen := by
  have hPages := h.roomy.pagesCap
  have hSg := h.roomy.sgCap
  have hRoom := h.room
  have hUsed := h.used hNe
  have hRead := h.readonly hNe
  have hSome : 0 < pageCount dst dstLen := pageCount_pos hLen
  have hCount : s.usedPages - s.readonlyPages = pageCount dst dstLen := by omega
  have hAcq : Acquired pt s s.readonlyPages dst dstLen true (s.usedPages - s.readonlyPages) _ :=
    getUserbufRaw_acquired (by omega) (by omega) (hCount ▸ pageCount_fits)
  rw [pinOutput, if_neg hDst] at hOk
  revert hAcq hOk
  generalize getUserbufRaw pt s s.readonlyPages dst dstLen true (s.usedPages - s.readonlyPages) = r
  intro hOk hAcq
  cases hAcq with
  | idle hNothing => omega
  | past hPast => omega
  | short _ =>
    dsimp only [releaseOut] at hOk
    split at hOk <;> cases hOk
  | full sg _ _ hCovers =>
    cases hOk
    exact ⟨rfl, sg, rfl, hCovers⟩

theorem pinBoth_covers {src srcLen dst dstLen : Nat} {a b : Option (List Entry)}
    (h : Counted s src srcLen dst dstLen) (hSrc : src ≠ 0) (hDst : dst ≠ 0) (hSrcLen : 0 < srcLen)
    (hDstLen : 0 < dstLen) (hOk : pinBoth pt s src srcLen dst dstLen = (s', .ok (a, b))) :
    ∃ srcSg dstSg, a = some srcSg ∧ b = some dstSg ∧ coverage srcSg = pt.range src srcLen ∧
      coverage dstSg = pt.range dst (if src = dst then srcLen else dstLen) := by
  have hPages := h.roomy.pagesCap
  have hSg := h.roomy.sgCap
  have hPos := h.roomy.pos
  have hRoom := h.room
  have hSome : 0 < pageCount src srcLen := pageCount_pos hSrcLen
  rw [pinBoth] at hOk
  split at hOk
  · rename_i hEq
    have hUsed := h.inPlace hEq
    have hFits : 0 < srcLen → src % PAGE_SIZE + srcLen ≤ s.usedPages * PAGE_SIZE := by
      intro hLen
      exact Nat.le_trans (pageCount_fits hLen) (Nat.mul_le_mul_right _ (by omega))
    have hAcq : Acquired pt s 0 src srcLen true s.usedPages _ :=
      getUserbufRaw_acquired (by omega) (by omega) hFits
    revert hAcq hOk
    generalize getUserbufRaw pt s 0 src srcLen true s.usedPages = r
    intro hOk hAcq
    cases hAcq with
    | idle hNothing => omega
    | past hPast => omega
    | short _ => cases hOk
    | full sg _ _ hCovers =>
      cases hOk
      rw [if_pos hEq]
      exact ⟨sg, sg, rfl, rfl, hCovers, hEq ▸ hCovers⟩
  · rename_i hNe
    have hUsed := h.used hNe
    have hRead := h.readonly hNe
    have hAcq : Acquired pt s 0 src srcLen false s.readonlyPages _ :=
      getUserbufRaw_acquired (by omega) (by omega) (hRead ▸ pageCount_fits)
    revert hAcq hOk
    generalize getUserbufRaw pt s 0 src srcLen false s.readonlyPages = r
    intro hOk hAcq
    rw [if_neg hNe]
    cases hAcq with
    | idle hNothing => omega
    | past hPast => omega
    | short _ => cases hOk
    | full sg _ _ hCovers =>
      have hCounted : Counted ((pinAt s 0 (getUserPages pt false (src / PAGE_SIZE) s.readonlyPages)).setSg 0
          sg) src srcLen dst dstLen :=
        ⟨(h.roomy.pinAt _ _).setSg _ _, h.room, h.inPlace, h.used, h.readonly⟩
      obtain ⟨rfl, dstSg, rfl, hDstCovers⟩ := pinOutput_covers hCounted hNe hDst hDstLen hOk
      exact ⟨sg, dstSg, rfl, rfl, hCovers, hDstCovers⟩

/-- What `get_userbuf` hands out covers the source byte for byte, and the destination; but when
the two are one buffer, only as much of it as the source has, whatever length the destination
was given. -/
theorem getUserbuf_covers {re : Realloc} {src srcLen dst dstLen : Nat} {a b : Option (List Entry)}
    (h : Roomy s) (hSrc : src ≠ 0) (hDst : dst ≠ 0) (hSrcLen : 0 < srcLen) (hDstLen : 0 < dstLen)
    (hOk : getUserbuf pt s re src srcLen dst dstLen = (s', .ok (a, b))) :
    ∃ srcSg dstSg, a = some srcSg ∧ b = some dstSg ∧ coverage srcSg = pt.range src srcLen ∧
      coverage dstSg = pt.range dst (if src = dst then srcLen else dstLen) := by
  have hSrcBuf : bufLen src srcLen = srcLen := if_neg hSrc
  have hDstBuf : bufLen dst dstLen = dstLen := if_neg hDst
  have hCounts : ∀ t : State, t.usedPages = (s.countBoth src srcLen dst dstLen).usedPages →
      t.readonlyPages = (s.countBoth src srcLen dst dstLen).readonlyPages → Roomy t →
      t.usedPages ≤ t.arraySize → Counted t src srcLen dst dstLen := by
    intro t hUsed hRead hRoomy hRoom
    refine ⟨hRoomy, hRoom, fun hEq => ?_, fun hNe => ?_, fun hNe => ?_⟩
    · rw [hUsed, State.countBoth, if_pos hEq]
      rfl
    · rw [hUsed, State.countBoth, if_neg hNe]
      rfl
    · rw [hRead, State.countBoth, if_neg hNe]
      rfl
  have hRoomy : Roomy (s.countBoth src srcLen dst dstLen) := by
    unfold State.countBoth
    split
    · exact h.count _ _
    · exact h.count _ _
  rw [getUserbuf, hSrcBuf, hDstBuf] at hOk
  split at hOk
  · obtain ⟨hAdjusted, hEnd⟩ := adjustSgArray_spec hRoomy re
      (s.countBoth src srcLen dst dstLen).usedPages
    revert hAdjusted hEnd hOk
    generalize adjustSgArray (s.countBoth src srcLen dst dstLen) re
      (s.countBoth src srcLen dst dstLen).usedPages = r
    obtain ⟨t, res⟩ := r
    rintro hOk hAdjusted (⟨rfl, hRoom⟩ | ⟨-, rfl⟩)
    · exact pinBoth_covers (hCounts t hAdjusted.usedPages hAdjusted.readonlyPages hAdjusted.roomy
        (hAdjusted.usedPages ▸ hRoom)) hSrc hDst hSrcLen hDstLen hOk
    · cases hOk
  · rename_i hRoom
    exact pinBoth_covers (hCounts _ rfl rfl hRoomy (Nat.le_of_not_lt hRoom)) hSrc hDst hSrcLen hDstLen hOk

/-- In every state a session can be in. -/
theorem run_userbuf_covers {es : List Event} {re : Realloc} {src srcLen dst dstLen : Nat}
    {a b : Option (List Entry)} (hRun : run Pages.step Pages.created es = some s)
    (hSrc : src ≠ 0) (hDst : dst ≠ 0) (hSrcLen : 0 < srcLen) (hDstLen : 0 < dstLen)
    (hOk : getUserbuf pt s re src srcLen dst dstLen = (s', .ok (a, b))) :
    ∃ srcSg dstSg, a = some srcSg ∧ b = some dstSg ∧ coverage srcSg = pt.range src srcLen ∧
      coverage dstSg = pt.range dst (if src = dst then srcLen else dstLen) :=
  getUserbuf_covers (run_roomy hRun) hSrc hDst hSrcLen hDstLen hOk

/-- Sixteen bytes more than the message were asked for, and are not covered. -/
theorem run_userbuf_covers_inPlace :
    ∃ s' sg, getUserbuf flat Pages.created plenty 4000 200 4000 216 = (s', .ok (some sg, some sg)) ∧
      sg = [⟨0, 4000, 96⟩, ⟨1, 0, 104⟩] ∧ coverage sg = flat.range 4000 200 := by
  refine ⟨_, _, rfl, by decide, ?_⟩
  have hOk : getUserbuf flat Pages.created plenty 4000 200 4000 216 = (_, .ok (_, _)) := rfl
  obtain ⟨srcSg, dstSg, hSrc, hDst, hCovers, -⟩ := run_userbuf_covers
    (show run Pages.step Pages.created [] = some _ from rfl) (by decide) (by decide) (by decide)
    (by decide) hOk
  rw [Option.some.inj hSrc]
  exact hCovers

-- ---------------------------------------------------------------------------
-- A destination that cannot be pinned
-- ---------------------------------------------------------------------------

/-- Pinning everything, with room for it. -/
theorem getUserbufRaw_all {base addr len n : Nat} {write : Bool} (hLen : 0 < len) (hAddr : addr ≠ 0)
    (hPages : base + n ≤ s.pagesCap) (hSg : base + n ≤ s.sgCap) (hAll : pt.All write addr n)
    (hFits : addr % PAGE_SIZE + len ≤ n * PAGE_SIZE) :
    ∃ sg, getUserbufRaw pt s base addr len write n =
      ((pinAt s base (getUserPages pt write (addr / PAGE_SIZE) n)).setSg base sg, .ok sg) := by
  have hSome : n ≠ 0 := by
    rintro rfl
    omega
  obtain ⟨sg, hEntries, -⟩ := userbufEntries_covers hLen hAll hFits
  refine ⟨sg, ?_⟩
  rw [getUserbufRaw, if_neg (by omega), if_neg (by omega)]
  dsimp only
  rw [if_neg (fun h => h hAll), hEntries]

/-- Pinning that stops short. -/
theorem getUserbufRaw_short {base addr len n : Nat} {write : Bool} (hLen : 0 < len) (hAddr : addr ≠ 0)
    (hPages : base + n ≤ s.pagesCap) (hSg : base + n ≤ s.sgCap)
    (hShort : (getUserPages pt write (addr / PAGE_SIZE) n).length < n) :
    getUserbufRaw pt s base addr len write n =
      (pinAt s base (getUserPages pt write (addr / PAGE_SIZE) n), .error (.errno .EINVAL)) := by
  rw [getUserbufRaw, if_neg (by omega), if_neg (by omega)]
  exact if_pos (Nat.ne_of_lt hShort)

/-- The arrays of a request when its source is pinned and its destination only in part. -/
def State.halfPinned (s : State) (srcPages dstPages : Nat) (taken pinned : List Nat) (sg : List Entry) :
    State :=
  pinAt ((pinAt (s.count (srcPages + dstPages) srcPages) 0 taken).setSg 0 sg) srcPages pinned

theorem held_halfPinned {srcPages dstPages : Nat} {taken pinned : List Nat} {sg : List Entry}
    (hTaken : taken.length = srcPages) (hPinned : pinned.length ≤ dstPages) :
    (s.halfPinned srcPages dstPages taken pinned sg).held (srcPages + dstPages) =
      taken.map some ++ pinned.map some ++
        s.between (srcPages + pinned.length) (srcPages + dstPages) := by
  have hFill : ((pinAt (s.count (srcPages + dstPages) srcPages) 0 taken).setSg 0 sg).held srcPages =
      taken.map some := by
    show (pinAt (s.count (srcPages + dstPages) srcPages) 0 taken).held srcPages = _
    rw [held_pinAt (by omega), hTaken, Nat.zero_add, State.between, Nat.sub_self]
    exact List.append_nil _
  rw [State.halfPinned, held_pinAt (by omega), hFill]
  refine congrArg (taken.map some ++ pinned.map some ++ ·) ?_
  apply List.map_congr_left
  intro i hi
  have hBeyond := (List.mem_range'_1.mp hi).1
  exact if_neg (by omega)

/-- `get_userbuf` then releases all the pages counted. -/
theorem getUserbuf_short_dst {re : Realloc} {src srcLen dst dstLen : Nat} (h : Roomy s)
    (hNe : src ≠ dst) (hSrc : src ≠ 0) (hDst : dst ≠ 0) (hSrcLen : 0 < srcLen) (hDstLen : 0 < dstLen)
    (hRoom : pageCount src srcLen + pageCount dst dstLen ≤ s.arraySize)
    (hAll : pt.All false src (pageCount src srcLen))
    (hShort : ¬pt.All true dst (pageCount dst dstLen)) :
    ∃ sg, getUserbuf pt s re src srcLen dst dstLen =
      releaseOut (s.halfPinned (pageCount src srcLen) (pageCount dst dstLen)
        (getUserPages pt false (src / PAGE_SIZE) (pageCount src srcLen))
        (getUserPages pt true (dst / PAGE_SIZE) (pageCount dst dstLen)) sg) (.errno .EINVAL) := by
  have hPages := h.pagesCap
  have hSg := h.sgCap
  have hSrcBuf : bufLen src srcLen = srcLen := if_neg hSrc
  have hDstBuf : bufLen dst dstLen = dstLen := if_neg hDst
  have hCount : s.countBoth src srcLen dst dstLen =
      s.count (pageCount src srcLen + pageCount dst dstLen) (pageCount src srcLen) := if_neg hNe
  generalize hc : s.count (pageCount src srcLen + pageCount dst dstLen) (pageCount src srcLen) = c at hCount
  have hArray : c.arraySize = s.arraySize := hc ▸ rfl
  have hUsed : c.usedPages = pageCount src srcLen + pageCount dst dstLen := hc ▸ rfl
  have hRead : c.readonlyPages = pageCount src srcLen := hc ▸ rfl
  have hCap : c.pagesCap = s.pagesCap := hc ▸ rfl
  have hSgCap : c.sgCap = s.sgCap := hc ▸ rfl
  obtain ⟨sg, hFirst⟩ := @getUserbufRaw_all pt c 0 src srcLen (pageCount src srcLen) false hSrcLen hSrc
    (by omega) (by omega) hAll (pageCount_fits hSrcLen)
  refine ⟨sg, ?_⟩
  rw [getUserbuf, hSrcBuf, hDstBuf, hCount, if_neg (by omega), pinBoth, if_neg hNe, if_neg hSrc, hRead,
    hFirst]
  generalize hd : (pinAt c 0 (getUserPages pt false (src / PAGE_SIZE) (pageCount src srcLen))).setSg 0 sg = d
  have hUsed' : d.usedPages = pageCount src srcLen + pageCount dst dstLen := hd ▸ hUsed
  have hRead' : d.readonlyPages = pageCount src srcLen := hd ▸ hRead
  have hCap' : d.pagesCap = s.pagesCap := hd ▸ hCap
  have hSgCap' : d.sgCap = s.sgCap := hd ▸ hSgCap
  have hLess := Nat.lt_of_le_of_ne (length_getUserPages_le true (dst / PAGE_SIZE) _) hShort
  dsimp only
  rw [pinOutput, if_neg hDst, hUsed', hRead', Nat.add_sub_cancel_left,
    getUserbufRaw_short hDstLen hDst (by omega) (by omega) hLess]
  dsimp only
  rw [State.halfPinned, hc, hd]

end VirtioCrypto.Cryptodev.Pages
