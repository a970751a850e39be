import VirtioCrypto.Cryptodev.Ioctl
import VirtioCrypto.Octets.Scatter
import Mathlib.Data.List.Count

/-!
# Cryptodev — user pages

Zero copy (`zc.c`, `util.c`): the pages of a user buffer are pinned and worked on in place,
through a scatterlist with one entry for each page. The session keeps the pinned pages in an
array that grows by doubling, and gives them up after the operation.

* `userbufEntries_covers` — the scatterlist over pinned pages covers exactly the bytes of the
  buffer, in order; `sgCopy_covers`, `sgAdvance_covers` — and what SRTP makes of it the bytes
  from the payload on;
* `getUserbufRaw_acquired`, `releaseUserPages_released` — how pinning and releasing can end when
  the arrays have room.

`refs` counts the page references the module holds; `Cryptodev.Pinning` keeps that account over
whole requests.
-/

namespace VirtioCrypto.Cryptodev.Pages

open Octets

-- ---------------------------------------------------------------------------
-- Pages and scatterlists
-- ---------------------------------------------------------------------------

/-- How an operation ends that does not succeed: with an error code, or with the kernel past the
end of an array or of a scatterlist (`overrun`) or releasing a page that is NULL (`wildPage`). -/
inductive Failure
  | errno (e : Errno)
  | EBADMSG
  | overrun
  | wildPage
deriving DecidableEq, Repr

/-- The pages of a process: where they are, and which of them it may write. -/
structure PageTable where
  frame : Nat → Option Nat
  writable : Nat → Bool

def PageTable.pin (pt : PageTable) (write : Bool) (vpn : Nat) : Option Nat :=
  if write && !pt.writable vpn then none else pt.frame vpn

/-- `get_user_pages`: pages are pinned one after the other, up to the first that cannot be. -/
def getUserPages (pt : PageTable) (write : Bool) : Nat → Nat → List Nat
  | _, 0 => []
  | vpn, n + 1 =>
    match pt.pin write vpn with
    | none => []
    | some f => f :: getUserPages pt write (vpn + 1) n

def pageOffset (buf : Nat) : Nat := buf % PAGE_SIZE

/-- `PAGECOUNT`. -/
def pageCount (buf buflen : Nat) : Nat :=
  if buflen = 0 then 0 else (buf + buflen - 1) / PAGE_SIZE - buf / PAGE_SIZE + 1

/-- `struct scatterlist`. -/
structure Entry where
  page : Nat
  offset : Nat
  length : Nat
deriving DecidableEq, Repr

/-- As `sg_init_table` and `kzalloc` leave it: no page, and no bytes. -/
def Entry.clear : Entry := ⟨0, 0, 0⟩

def Entry.seg (e : Entry) : Seg := ⟨e.page * PAGE_SIZE + e.offset, e.length⟩

/-- The physical addresses behind a scatterlist. -/
def coverage (sg : List Entry) : List Nat := Scatter.addrs (sg.map Entry.seg)

/-- The loop of `__get_userbuf` over the pages after the first: an entry for each until the
length is used up, and the others stay clear. There is no entry to go to after the last. -/
def setPages : List Nat → Nat → Option (List Entry)
  | fs, 0 => some (fs.map fun _ => .clear)
  | [], _ + 1 => none
  | f :: fs, len + 1 =>
    (setPages fs (len + 1 - min PAGE_SIZE (len + 1))).map (⟨f, 0, min PAGE_SIZE (len + 1)⟩ :: ·)

/-- The scatterlist of `__get_userbuf` over pinned pages. -/
def userbufEntries (addr len : Nat) : List Nat → Option (List Entry)
  | [] => none
  | f :: fs =>
    let pglen := min (PAGE_SIZE - pageOffset addr) len
    (setPages fs (len - pglen)).map (⟨f, pageOffset addr, pglen⟩ :: ·)

/-- `sg_copy` into a table of `n` clear entries: the first `len` bytes. Where one of the tables ends
before, the rest stays clear, and the caller does not look at the -ENOMEM. -/
def sgCopy : List Entry → Nat → Nat → List Entry
  | [], n, _ => List.replicate n .clear
  | _ :: _, 0, _ => []
  | e :: sg, n + 1, len =>
    if e.length < len then e :: sgCopy sg n (len - e.length)
    else if len = 0 then [.clear]
    else [{ e with length := len }]

/-- `sg_advance`: the list from byte `consumed` on, NULL when nothing is left. -/
def sgAdvance : List Entry → Nat → Option (List Entry)
  | [], _ => none
  | e :: sg, consumed =>
    if e.length ≤ consumed then sgAdvance sg (consumed - e.length)
    else if PAGE_SIZE ≤ e.offset + consumed then
      some (⟨e.page + (e.offset + consumed) / PAGE_SIZE, (e.offset + consumed) % PAGE_SIZE,
        e.length - consumed⟩ :: sg)
    else some (⟨e.page, e.offset + consumed, e.length - consumed⟩ :: sg)

-- ---------------------------------------------------------------------------
-- The arrays of a session
-- ---------------------------------------------------------------------------

def DEFAULT_PREALLOC_PAGES : Nat := 32

/-- The members of `struct csession` that zero copy uses, with the entries allocated for the
two arrays, and the references held on each page. -/
structure State where
  arraySize : Nat
  usedPages : Nat
  readonlyPages : Nat
  pages : Nat → Option Nat
  sg : Nat → Entry
  pagesCap : Nat
  sgCap : Nat
  refs : Nat → Int

/-- As `crypto_create_session` leaves them. -/
def created : State where
  arraySize := DEFAULT_PREALLOC_PAGES
  usedPages := 0
  readonlyPages := 0
  pages := fun _ => none
  sg := fun _ => .clear
  pagesCap := DEFAULT_PREALLOC_PAGES
  sgCap := DEFAULT_PREALLOC_PAGES
  refs := fun _ => 0

/-- What the two `krealloc` calls of a request come to, and what is in the memory they add. -/
structure Realloc where
  pages : Bool
  sg : Bool
  junk : Nat → Option Nat
  junkSg : Nat → Entry

/-- `for (array_size = ...; array_size < pagecount; array_size *= 2)`, in so many turns. -/
def doubleUntil (pagecount : Nat) : Nat → Nat → Option Nat
  | 0, _ => none
  | fuel + 1, size => if size < pagecount then doubleUntil pagecount fuel (size * 2) else some size

def adjustSgArray (s : State) (re : Realloc) (pagecount : Nat) : State × Except Failure Unit :=
  match doubleUntil pagecount (pagecount + 1) s.arraySize with
  | none => (s, .error .overrun)
  | some size =>
    if !re.pages then (s, .error (.errno .ENOMEM))
    else
      let grown := { s with
        pages := fun i => if i < s.pagesCap then s.pages i else re.junk i
        pagesCap := size }
      if !re.sg then (grown, .error (.errno .ENOMEM))
      else
        ({ grown with
          sg := fun i => if i < s.sgCap then s.sg i else re.junkSg i
          sgCap := size
          arraySize := size }, .ok ())

/-- Pinned pages go to the array from index `base` on. -/
def pinAt (s : State) (base : Nat) (frames : List Nat) : State :=
  { s with
    pages := fun i =>
      if base ≤ i ∧ i < base + frames.length then frames[i - base]? else s.pages i
    refs := fun f => s.refs f + frames.count f }

/-- Entries of a scatterlist are set from index `base` on. -/
def State.setSg (s : State) (base : Nat) (sg : List Entry) : State :=
  { s with sg := fun i => if i < base then s.sg i else sg.getD (i - base) (s.sg i) }

/-- `__get_userbuf`, into the entries from `base` on. With nothing to do it still marks an end
at the first of them: the list is that entry, with what an earlier request has left there. -/
def getUserbufRaw (pt : PageTable) (s : State) (base addr len : Nat) (write : Bool)
    (pgcount : Nat) : State × Except Failure (List Entry) :=
  if pgcount = 0 ∨ len = 0 ∨ addr = 0 then
    if base < s.sgCap then (s, .ok [s.sg base]) else (s, .error .overrun)
  else if s.pagesCap < base + pgcount ∨ s.sgCap < base + pgcount then (s, .error .overrun)
  else
    let frames := getUserPages pt write (addr / PAGE_SIZE) pgcount
    if frames.length ≠ pgcount then (pinAt s base frames, .error (.errno .EINVAL))
    else match userbufEntries addr len frames with
      | none => (pinAt s base frames, .error .overrun)
      | some sg => ((pinAt s base frames).setSg base sg, .ok sg)

/-- The first `n` pages of the array. -/
def State.held (s : State) (n : Nat) : List (Option Nat) := (List.range n).map s.pages

/-- The entries of the array from `lo` up to `hi`. -/
def State.between (s : State) (lo hi : Nat) : List (Option Nat) :=
  (List.range' lo (hi - lo)).map s.pages

def releaseUserPages (s : State) : State × Except Failure Unit :=
  if s.pagesCap < s.usedPages then (s, .error .overrun)
  else if none ∈ s.held s.usedPages then (s, .error .wildPage)
  else
    ({ s with
      usedPages := 0
      readonlyPages := s.readonlyPages - s.usedPages
      refs := fun f => s.refs f - (s.held s.usedPages).count (some f) }, .ok ())

/-- `release_user_pages` on the way out with an error. -/
def releaseOut {α : Type} (s : State) (e : Failure) : State × Except Failure α :=
  match releaseUserPages s with
  | (s, .ok ()) => (s, .error e)
  | (s, .error e') => (s, .error e')

/-- `used_pages` and `readonly_pages` of a request. -/
def State.count (s : State) (used readonly : Nat) : State :=
  { s with usedPages := used, readonlyPages := readonly }

/-- The second half of `get_userbuf`: a destination of its own. `release_user_pages` is called
with the counts as they are, whatever has been pinned. -/
def pinOutput (pt : PageTable) (s : State) (dst dstLen : Nat) (srcSg : Option (List Entry)) :
    State × Except Failure (Option (List Entry) × Option (List Entry)) :=
  if dst = 0 then (s, .ok (srcSg, none))
  else
    match getUserbufRaw pt s s.readonlyPages dst dstLen true (s.usedPages - s.readonlyPages) with
    | (s, .ok dstSg) => (s, .ok (srcSg, some dstSg))
    | (s, .error .overrun) => (s, .error .overrun)
    | (s, .error e) => releaseOut s e

/-- The rest of `get_userbuf` once the arrays are large enough. -/
def pinBoth (pt : PageTable) (s : State) (src srcLen dst dstLen : Nat) :
    State × Except Failure (Option (List Entry) × Option (List Entry)) :=
  if src = dst then
    match getUserbufRaw pt s 0 src srcLen true s.usedPages with
    | (s, .ok sg) => (s, .ok (some sg, some sg))
    | (s, .error e) => (s, .error e)
  else if src = 0 then pinOutput pt s dst dstLen none
  else
    match getUserbufRaw pt s 0 src srcLen false s.readonlyPages with
    | (s, .ok sg) => pinOutput pt s dst dstLen (some sg)
    | (s, .error e) => (s, .error e)

/-- NULL has length zero. -/
def bufLen (buf len : Nat) : Nat := if buf = 0 then 0 else len

/-- The counts of `get_userbuf`. -/
def State.countBoth (s : State) (src srcLen dst dstLen : Nat) : State :=
  if src = dst then s.count (max (pageCount src srcLen) (pageCount dst dstLen)) 0
  else s.count (pageCount src srcLen + pageCount dst dstLen) (pageCount src srcLen)

def getUserbuf (pt : PageTable) (s : State) (re : Realloc) (src srcLen dst dstLen : Nat) :
    State × Except Failure (Option (List Entry) × Option (List Entry)) :=
  let srcLen := bufLen src srcLen
  let dstLen := bufLen dst dstLen
  let s := s.countBoth src srcLen dst dstLen
  if s.arraySize < s.usedPages then
    match adjustSgArray s re s.usedPages with
    | (s, .error e) => (s, .error e)
    | (s, .ok ()) => pinBoth pt s src srcLen dst dstLen
  else pinBoth pt s src srcLen dst dstLen

/-- `get_userbuf_tls`. -/
def getUserbufTls (pt : PageTable) (s : State) (re : Realloc) (dst dstLen : Nat) :
    State × Except Failure (List Entry) :=
  if dst = 0 ∨ dstLen = 0 then (s, .error (.errno .EINVAL))
  else
    match adjustSgArray (s.count (pageCount dst dstLen) 0) re (pageCount dst dstLen) with
    | (s, .error e) => (s, .error e)
    | (s, .ok ()) => getUserbufRaw pt s 0 dst dstLen true (pageCount dst dstLen)

def MAX_SRTP_AUTH_DATA_DIFF : Int := 256

/-- The end of `get_userbuf_srtp`: a copy of the list behind it in the array, and from there the
list from the data to encrypt on, whose first entry `sg_advance` changes in place. -/
def splitSrtp (s : State) (authSg : List Entry) (pagecount authLen diff : Nat) :
    State × Except Failure (List Entry × List Entry) :=
  if s.sgCap < pagecount * 2 then (s, .error .overrun)
  else
    let copy := sgCopy authSg pagecount authLen
    let s := (s.setSg pagecount (List.replicate pagecount .clear)).setSg pagecount copy
    match sgAdvance copy diff with
    | some dstSg => (s.setSg (pagecount + (copy.length - dstSg.length)) dstSg, .ok (authSg, dstSg))
    | none => releaseOut s (.errno .EINVAL)

/-- `get_userbuf_srtp`: the authenticated data, and the part of it from the data to encrypt on.
The distance of the two pointers is cut to an `int`. -/
def getUserbufSrtp (pt : PageTable) (s : State) (re : Realloc) (authSrc authLen src dst dstLen : Nat) :
    State × Except Failure (List Entry × List Entry) :=
  let diff := Int.bmod ((src : Int) - authSrc) 4294967296
  if (dst = 0 ∧ authSrc = 0) ∨ dstLen = 0 ∨ authLen = 0 then (s, .error (.errno .EINVAL))
  else if MAX_SRTP_AUTH_DATA_DIFF < diff ∨ diff < 0 then (s, .error (.errno .EINVAL))
  else
    let pagecount := pageCount authSrc authLen
    match adjustSgArray s re (pagecount * 2) with
    | (s, .error e) => (s, .error e)
    | (s, .ok ()) =>
      match getUserbufRaw pt s 0 authSrc authLen true pagecount with
      | (s, .error e) => (s, .error e)
      | (s, .ok authSg) => splitSrtp (s.count pagecount 0) authSg pagecount authLen diff.toNat

-- ---------------------------------------------------------------------------
-- What a scatterlist covers
-- ---------------------------------------------------------------------------

variable {pt : PageTable} {s s' : State}

/-- The physical address of a user address. -/
def PageTable.physical (pt : PageTable) (va : Nat) : Nat :=
  (pt.frame (va / PAGE_SIZE)).getD 0 * PAGE_SIZE + va % PAGE_SIZE

/-- The physical addresses of a user buffer. -/
def PageTable.range (pt : PageTable) (addr len : Nat) : List Nat :=
  (List.range' addr len).map pt.physical

theorem range_zero (addr : Nat) : pt.range addr 0 = [] := rfl

theorem range_append (addr n k : Nat) : pt.range addr (n + k) = pt.range addr n ++ pt.range (addr + n) k := by
  rw [PageTable.range, PageTable.range, PageTable.range, ← List.map_append, List.range'_append_1]

/-- Inside one page the addresses are consecutive. -/
theorem range_page {vpn f off n : Nat} (hFit : off + n ≤ PAGE_SIZE) (hFrame : pt.frame vpn = some f) :
    pt.range (vpn * PAGE_SIZE + off) n = List.range' (f * PAGE_SIZE + off) n := by
  unfold PAGE_SIZE at hFit ⊢
  apply List.ext_getElem
  · simp [PageTable.range]
  · intro i hi _
    have hi' : i < n := by simpa [PageTable.range] using hi
    have hDiv : (vpn * 4096 + off + i) / 4096 = vpn := by omega
    have hMod : (vpn * 4096 + off + i) % 4096 = off + i := by omega
    simp only [PageTable.range, List.getElem_map, List.getElem_range', PageTable.physical,
      PAGE_SIZE, Nat.one_mul, hDiv, hMod, hFrame, Option.getD_some]
    omega

theorem pin_frame {write : Bool} {vpn f : Nat} (h : pt.pin write vpn = some f) :
    pt.frame vpn = some f := by
  unfold PageTable.pin at h
  split at h
  · cases h
  · exact h

theorem length_getUserPages_le (write : Bool) (vpn n : Nat) :
    (getUserPages pt write vpn n).length ≤ n := by
  induction n generalizing vpn with
  | zero => exact Nat.le_refl 0
  | succ n ih =>
    rw [getUserPages]
    split
    · exact Nat.zero_le _
    · exact Nat.succ_le_succ (ih (vpn + 1))

/-- All pages pinned: the first is, and so are the others. -/
theorem getUserPages_succ {write : Bool} {vpn n : Nat}
    (h : (getUserPages pt write vpn (n + 1)).length = n + 1) :
    ∃ f, pt.frame vpn = some f ∧
      getUserPages pt write vpn (n + 1) = f :: getUserPages pt write (vpn + 1) n ∧
      (getUserPages pt write (vpn + 1) n).length = n := by
  rw [getUserPages] at h ⊢
  cases hPin : pt.pin write vpn with
  | none =>
    rw [hPin] at h
    cases h
  | some f =>
    rw [hPin] at h
    exact ⟨f, pin_frame hPin, rfl, Nat.succ.inj h⟩

theorem coverage_cons (e : Entry) (sg : List Entry) :
    coverage (e :: sg) = List.range' (e.page * PAGE_SIZE + e.offset) e.length ++ coverage sg := rfl

theorem setPages_zero (fs : List Nat) : setPages fs 0 = some (fs.map fun _ => .clear) := by
  cases fs <;> rfl

/-- Clear entries cover nothing. -/
theorem coverage_clear (fs : List Nat) : coverage (fs.map fun _ => Entry.clear) = [] := by
  induction fs with
  | nil => rfl
  | cons f fs ih => exact ih

/-- The loop over the pages after the first covers the buffer from a page boundary on. -/
theorem setPages_covers {write : Bool} {n vpn len : Nat}
    (hFull : (getUserPages pt write vpn n).length = n) (hFits : len ≤ n * PAGE_SIZE) :
    ∃ sg, setPages (getUserPages pt write vpn n) len = some sg ∧
      coverage sg = pt.range (vpn * PAGE_SIZE) len := by
  induction n generalizing vpn len with
  | zero =>
    rw [Nat.zero_mul, Nat.le_zero] at hFits
    rw [hFits]
    exact ⟨_, setPages_zero _, coverage_clear _⟩
  | succ n ih =>
    obtain ⟨f, hFrame, hPages, hRest⟩ := getUserPages_succ hFull
    cases len with
    | zero => exact ⟨_, setPages_zero _, coverage_clear _⟩
    | succ len =>
      have hLeft : len + 1 - min PAGE_SIZE (len + 1) ≤ n * PAGE_SIZE := by
        rw [Nat.succ_mul] at hFits
        omega
      obtain ⟨sg, hSg, hCovers⟩ := ih hRest hLeft
      refine ⟨⟨f, 0, min PAGE_SIZE (len + 1)⟩ :: sg, ?_, ?_⟩
      · rw [hPages, setPages, hSg]
        rfl
      · have hFit : 0 + min PAGE_SIZE (len + 1) ≤ PAGE_SIZE := by omega
        have hHead := range_page hFit hFrame
        have hSplit : len + 1 = min PAGE_SIZE (len + 1) + (len + 1 - min PAGE_SIZE (len + 1)) := by
          omega
        rw [coverage_cons, hCovers, ← hHead, Nat.add_zero]
        conv_rhs => rw [hSplit, range_append]
        refine congrArg (pt.range _ _ ++ ·) ?_
        -- the next entry starts a page, or there is none
        rcases Nat.le_total PAGE_SIZE (len + 1) with hMore | hLast
        · rw [Nat.min_eq_left hMore, Nat.succ_mul vpn]
        · rw [Nat.min_eq_right hLast, Nat.sub_self, range_zero, range_zero]

/-- The scatterlist over pinned pages covers the buffer, byte for byte. -/
theorem userbufEntries_covers {write : Bool} {addr len n : Nat} (hLen : 0 < len)
    (hFull : (getUserPages pt write (addr / PAGE_SIZE) n).length = n)
    (hFits : addr % PAGE_SIZE + len ≤ n * PAGE_SIZE) :
    ∃ sg, userbufEntries addr len (getUserPages pt write (addr / PAGE_SIZE) n) = some sg ∧
      coverage sg = pt.range addr len := by
  cases n with
  | zero =>
    rw [Nat.zero_mul] at hFits
    omega
  | succ n =>
    obtain ⟨f, hFrame, hPages, hRest⟩ := getUserPages_succ hFull
    have hOff : addr % PAGE_SIZE < PAGE_SIZE := Nat.mod_lt _ (by decide)
    have hLeft : len - min (PAGE_SIZE - pageOffset addr) len ≤ n * PAGE_SIZE := by
      rw [Nat.succ_mul] at hFits
      unfold pageOffset
      omega
    obtain ⟨sg, hSg, hCovers⟩ := setPages_covers hRest hLeft
    refine ⟨⟨f, pageOffset addr, min (PAGE_SIZE - pageOffset addr) len⟩ :: sg, ?_, ?_⟩
    · rw [hPages, userbufEntries, hSg]
      rfl
    · have hFit : pageOffset addr + min (PAGE_SIZE - pageOffset addr) len ≤ PAGE_SIZE := by
        unfold pageOffset
        omega
      have hHead := range_page hFit hFrame
      have hAddr : addr / PAGE_SIZE * PAGE_SIZE + pageOffset addr = addr :=
        Nat.div_add_mod' addr PAGE_SIZE
      have hSplit : len = min (PAGE_SIZE - pageOffset addr) len +
          (len - min (PAGE_SIZE - pageOffset addr) len) := by
        omega
      rw [coverage_cons, hCovers, ← hHead, hAddr]
      conv_rhs => rw [hSplit, range_append]
      refine congrArg (pt.range _ _ ++ ·) ?_
      have hNext : (addr / PAGE_SIZE + 1) * PAGE_SIZE = addr + (PAGE_SIZE - pageOffset addr) := by
        rw [Nat.succ_mul]
        unfold pageOffset at hAddr ⊢
        omega
      rcases Nat.le_total (PAGE_SIZE - pageOffset addr) len with hMore | hLast
      · rw [Nat.min_eq_left hMore, hNext]
      · rw [Nat.min_eq_right hLast, Nat.sub_self, range_zero, range_zero]

theorem length_setPages {fs : List Nat} {len : Nat} {sg : List Entry} (h : setPages fs len = some sg) :
    sg.length = fs.length := by
  induction fs generalizing len sg with
  | nil =>
    cases len with
    | zero => cases h; rfl
    | succ len => cases h
  | cons f fs ih =>
    cases len with
    | zero =>
      obtain rfl := Option.some.inj h
      exact List.length_map _
    | succ len =>
      obtain ⟨sg', hSg, rfl⟩ := Option.map_eq_some_iff.mp h
      exact congrArg Nat.succ (ih hSg)

/-- There is an entry for each page. -/
theorem length_userbufEntries {addr len : Nat} {fs : List Nat} {sg : List Entry}
    (h : userbufEntries addr len fs = some sg) : sg.length = fs.length := by
  cases fs with
  | nil => cases h
  | cons f fs =>
    obtain ⟨sg', hSg, rfl⟩ := Option.map_eq_some_iff.mp h
    exact congrArg Nat.succ (length_setPages hSg)

/-- `PAGECOUNT` pages hold the buffer. -/
theorem pageCount_fits {addr len : Nat} (hLen : 0 < len) :
    addr % PAGE_SIZE + len ≤ pageCount addr len * PAGE_SIZE := by
  unfold pageCount PAGE_SIZE
  rw [if_neg (by omega)]
  omega

theorem pageCount_pos {addr len : Nat} (hLen : 0 < len) : 0 < pageCount addr len := by
  unfold pageCount
  rw [if_neg (by omega)]
  exact Nat.succ_pos _

/-- `sg_copy` covers the first `len` bytes, in a table that is long enough. -/
theorem sgCopy_covers {sg : List Entry} {n len : Nat} (hRoom : sg.length ≤ n) (hPos : 0 < len)
    (hLen : len ≤ (coverage sg).length) : coverage (sgCopy sg n len) = (coverage sg).take len := by
  induction sg generalizing n len with
  | nil => exact absurd (Nat.lt_of_lt_of_le hPos hLen) (Nat.lt_irrefl 0)
  | cons e sg ih =>
    obtain ⟨k, rfl⟩ := Nat.exists_eq_add_of_le' (Nat.le_trans (Nat.succ_le_succ (Nat.zero_le _)) hRoom)
    rw [coverage_cons, List.length_append, List.length_range'] at hLen
    rw [sgCopy, coverage_cons, List.take_append, List.length_range']
    split
    · have hWhole : (List.range' (e.page * PAGE_SIZE + e.offset) e.length).length ≤ len := by
        rw [List.length_range']
        omega
      rw [coverage_cons, ih (Nat.le_of_succ_le_succ hRoom) (by omega) (by omega),
        List.take_of_length_le hWhole]
    · have hNone : len - e.length = 0 := by omega
      rw [hNone, List.take_zero, List.append_nil, if_neg (by omega), coverage_cons,
        List.take_range'_of_length_ge (by omega)]
      exact List.append_nil _

/-- `sg_advance` covers the rest, if there is any. -/
theorem sgAdvance_covers {sg : List Entry} {consumed : Nat} (h : consumed < (coverage sg).length) :
    ∃ sg', sgAdvance sg consumed = some sg' ∧ coverage sg' = (coverage sg).drop consumed := by
  induction sg generalizing consumed with
  | nil => exact absurd h (Nat.not_lt_zero _)
  | cons e sg ih =>
    rw [coverage_cons, List.length_append, List.length_range'] at h
    rw [sgAdvance, coverage_cons, List.drop_append, List.length_range']
    split
    · rename_i hSkip
      obtain ⟨sg', hSg, hCovers⟩ := @ih (consumed - e.length) (by omega)
      refine ⟨sg', hSg, ?_⟩
      rw [List.drop_of_length_le (by rw [List.length_range']; omega), List.nil_append, hCovers]
    · rename_i hInside
      have hNone : consumed - e.length = 0 := by omega
      rw [hNone, List.drop_zero, List.drop_range', Nat.mul_one]
      have hTail : ∀ page offset, page * PAGE_SIZE + offset = e.page * PAGE_SIZE + (e.offset + consumed) →
          coverage (⟨page, offset, e.length - consumed⟩ :: sg) =
            List.range' (e.page * PAGE_SIZE + e.offset + consumed) (e.length - consumed) ++ coverage sg := by
        intro page offset hSame
        rw [coverage_cons, Nat.add_assoc, ← hSame]
      split
      · refine ⟨_, rfl, hTail _ _ ?_⟩
        rw [Nat.add_mul, Nat.add_assoc, Nat.div_add_mod']
      · exact ⟨_, rfl, hTail _ _ rfl⟩

theorem sgAdvance_none {sg : List Entry} {consumed : Nat} (h : (coverage sg).length ≤ consumed) :
    sgAdvance sg consumed = none := by
  induction sg generalizing consumed with
  | nil => rfl
  | cons e sg ih =>
    rw [coverage_cons, List.length_append, List.length_range'] at h
    rw [sgAdvance, if_pos (by omega)]
    exact ih (by omega)

-- ---------------------------------------------------------------------------
-- Room in the arrays
-- ---------------------------------------------------------------------------

/-- Both arrays have the entries `array_size` says, a power of two times the first size. -/
structure Roomy (s : State) : Prop where
  power : ∃ k, s.arraySize = DEFAULT_PREALLOC_PAGES * 2 ^ k
  pagesCap : s.arraySize ≤ s.pagesCap
  sgCap : s.arraySize ≤ s.sgCap

theorem Roomy.created : Roomy created := ⟨⟨0, rfl⟩, Nat.le_refl _, Nat.le_refl _⟩

theorem Roomy.pos (h : Roomy s) : 0 < s.arraySize := by
  obtain ⟨k, hk⟩ := h.power
  rw [hk]
  exact Nat.mul_pos (by decide) (Nat.two_pow_pos k)

/-- The doubling loop ends, as soon as there is enough. -/
theorem doubleUntil_spec {pagecount fuel size : Nat} (h : pagecount ≤ size * 2 ^ fuel) :
    ∃ k, doubleUntil pagecount (fuel + 1) size = some (size * 2 ^ k) ∧ pagecount ≤ size * 2 ^ k := by
  induction fuel generalizing size with
  | zero =>
    rw [Nat.pow_zero, Nat.mul_one] at h
    rw [doubleUntil, if_neg (by omega)]
    exact ⟨0, by rw [Nat.pow_zero, Nat.mul_one], by rwa [Nat.pow_zero, Nat.mul_one]⟩
  | succ fuel ih =>
    rw [doubleUntil]
    split
    · rw [Nat.pow_succ', ← Nat.mul_assoc] at h
      obtain ⟨k, hk, hEnough⟩ := ih h
      rw [Nat.mul_assoc, ← Nat.pow_succ'] at hk hEnough
      exact ⟨k + 1, hk, hEnough⟩
    · exact ⟨0, by rw [Nat.pow_zero, Nat.mul_one], by rw [Nat.pow_zero, Nat.mul_one]; omega⟩

/-- What `adjust_sg_array` may do to the arrays; it pins and releases nothing. Only a `krealloc`
that fails makes it fail. -/
structure Adjusted (s s' : State) : Prop where
  roomy : Roomy s'
  usedPages : s'.usedPages = s.usedPages
  readonlyPages : s'.readonlyPages = s.readonlyPages
  refs : s'.refs = s.refs

theorem adjustSgArray_spec (h : Roomy s) (re : Realloc) (pagecount : Nat) :
    Adjusted s (adjustSgArray s re pagecount).1 ∧
      ((adjustSgArray s re pagecount).2 = .ok () ∧
          pagecount ≤ (adjustSgArray s re pagecount).1.arraySize ∨
        (re.pages = false ∨ re.sg = false) ∧
          (adjustSgArray s re pagecount).2 = .error (.errno .ENOMEM)) := by
  have hEnough : pagecount ≤ s.arraySize * 2 ^ pagecount := by
    calc pagecount ≤ 2 ^ pagecount := Nat.le_of_lt Nat.lt_two_pow_self
      _ ≤ s.arraySize * 2 ^ pagecount := Nat.le_mul_of_pos_left _ h.pos
  obtain ⟨k, hSize, hCount⟩ := doubleUntil_spec hEnough
  have hGrows : s.arraySize ≤ s.arraySize * 2 ^ k := Nat.le_mul_of_pos_right _ (Nat.two_pow_pos k)
  rw [adjustSgArray, hSize]
  dsimp only
  split
  · rename_i hPages
    exact ⟨⟨h, rfl, rfl, rfl⟩, .inr ⟨.inl (by simpa using hPages), rfl⟩⟩
  · split
    · rename_i hSg
      exact ⟨⟨⟨h.power, hGrows, h.sgCap⟩, rfl, rfl, rfl⟩, .inr ⟨.inr (by simpa using hSg), rfl⟩⟩
    · obtain ⟨j, hj⟩ := h.power
      refine ⟨⟨⟨⟨j + k, ?_⟩, Nat.le_refl _, Nat.le_refl _⟩, rfl, rfl, rfl⟩, .inl ⟨rfl, hCount⟩⟩
      show s.arraySize * 2 ^ k = _
      rw [hj, Nat.mul_assoc, ← Nat.pow_add]

/-- How `__get_userbuf` can end when there is room for its pages; with none to pin, the entry whose
end it marks may be one too far. -/
inductive Acquired (pt : PageTable) (s : State) (base addr len : Nat) (write : Bool) (pgcount : Nat) :
    State × Except Failure (List Entry) → Prop
  | idle : pgcount = 0 ∨ len = 0 ∨ addr = 0 → Acquired pt s base addr len write pgcount (s, .ok [s.sg base])
  | past : s.sgCap ≤ base → Acquired pt s base addr len write pgcount (s, .error .overrun)
  | short : (getUserPages pt write (addr / PAGE_SIZE) pgcount).length < pgcount →
      Acquired pt s base addr len write pgcount
        (pinAt s base (getUserPages pt write (addr / PAGE_SIZE) pgcount), .error (.errno .EINVAL))
  | full (sg : List Entry) : (getUserPages pt write (addr / PAGE_SIZE) pgcount).length = pgcount →
      sg.length = pgcount → coverage sg = pt.range addr len →
      Acquired pt s base addr len write pgcount
        ((pinAt s base (getUserPages pt write (addr / PAGE_SIZE) pgcount)).setSg base sg, .ok sg)

theorem getUserbufRaw_acquired {base addr len pgcount : Nat} {write : Bool}
    (hPages : base + pgcount ≤ s.pagesCap) (hSg : base + pgcount ≤ s.sgCap)
    (hFits : 0 < len → addr % PAGE_SIZE + len ≤ pgcount * PAGE_SIZE) :
    Acquired pt s base addr len write pgcount (getUserbufRaw pt s base addr len write pgcount) := by
  rw [getUserbufRaw]
  split
  · rename_i hIdle
    split
    · exact .idle hIdle
    · rename_i hPast
      exact .past (Nat.le_of_not_lt hPast)
  · rename_i hBusy
    have hLen : 0 < len := by omega
    rw [if_neg (by omega)]
    dsimp only
    have hLe : (getUserPages pt write (addr / PAGE_SIZE) pgcount).length ≤ pgcount :=
      length_getUserPages_le _ _ _
    split
    · exact .short (by omega)
    · rename_i hFull
      have hFull := not_not.mp hFull
      obtain ⟨sg, hEntries, hCovers⟩ := userbufEntries_covers hLen hFull (hFits hLen)
      rw [hEntries]
      exact .full sg hFull ((length_userbufEntries hEntries).trans hFull) hCovers

theorem Roomy.pinAt (h : Roomy s) (base : Nat) (frames : List Nat) : Roomy (pinAt s base frames) :=
  ⟨h.power, h.pagesCap, h.sgCap⟩

theorem Roomy.setSg (h : Roomy s) (base : Nat) (sg : List Entry) : Roomy (s.setSg base sg) :=
  ⟨h.power, h.pagesCap, h.sgCap⟩

theorem Roomy.count (h : Roomy s) (used readonly : Nat) : Roomy (s.count used readonly) :=
  ⟨h.power, h.pagesCap, h.sgCap⟩

/-- How `release_user_pages` ends with counts that fit. -/
inductive Released (s : State) : State × Except Failure Unit → Prop
  | done (s' : State) : none ∉ s.held s.usedPages → Roomy s' →
      (∀ f, s'.refs f = s.refs f - (s.held s.usedPages).count (some f)) → Released s (s', .ok ())
  | wild : none ∈ s.held s.usedPages → Released s (s, .error .wildPage)

theorem releaseUserPages_released (h : Roomy s) (hUsed : s.usedPages ≤ s.arraySize) :
    Released s (releaseUserPages s) := by
  have hCap := h.pagesCap
  rw [releaseUserPages, if_neg (by omega)]
  split
  · rename_i hNull
    exact .wild hNull
  · rename_i hNull
    exact .done _ hNull ⟨h.power, h.pagesCap, h.sgCap⟩ fun _ => rfl

end VirtioCrypto.Cryptodev.Pages
