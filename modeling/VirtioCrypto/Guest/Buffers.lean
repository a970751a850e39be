import VirtioCrypto.Guest.Port
import VirtioCrypto.Transition
import Mathlib.Data.List.Perm.Basic
import Mathlib.Data.List.Nodup

/-!
# Guest — where the in-buffers are

The pages `fill_queue` posts are the only ones a port ever has. From then on each of them is
posted, or used by the host, or cached in `inbuf`. Here the operations of `Guest.Port` run on pages
with an address, and a list is kept of the buffers that an operation left in none of these places,
as `add_inbuf` does when there is no descriptor for them.

An ioctl is a number of looks for data (`will_read_block`) and reads (`fill_readbuf`); each of
them is a step of its own, so the host and the interrupt come between them in any order.

* `step_held`         — no step loses a buffer or has one in two places;
* `run_conserved`     — of the buffers posted at first none is ever lost.
-/

namespace VirtioCrypto.Guest.Buffers

open Octets Transition

variable {β : Type}

-- ---------------------------------------------------------------------------
-- Pages with addresses
-- ---------------------------------------------------------------------------

/-- A page that is posted. -/
structure Page where
  addr : Nat
  size : Nat
deriving DecidableEq, Repr

instance : Sized Page := ⟨Page.size⟩

/-- The address of a buffer. -/
def addrOf (buf : PortBuffer β Page) : Nat := buf.size.addr

/-- The buffers of a port, from the one that is read next to the last one posted. -/
def addresses (port : Port β Page) (vq : InVq β Page) : List Nat :=
  port.inbuf.toList.map addrOf ++ (vq.used.map addrOf ++ vq.avail.map Page.addr)

/-- `fill_queue`, with the pages `alloc_buf` gives until it fails: the port, and `nr_added_bufs`. -/
def fillQueue (port : Port β Page) (vq : InVq β Page) : List Page → (Port β Page × InVq β Page) × Nat
  | [] => ((port, vq), 0)
  | page :: pages =>
    match addInbuf port vq ⟨page, [], 0⟩ with
    | none => ((port, vq), 0)
    | some (port, vq) =>
      if port.inFree = 0 then ((port, vq), 1)
      else ((fillQueue port vq pages).1, (fillQueue port vq pages).2 + 1)

-- ---------------------------------------------------------------------------
-- The port
-- ---------------------------------------------------------------------------

/-- A port with its in queue. `dropped` has the buffers that went missing. -/
structure State (β : Type) where
  port : Port β Page
  vq : InVq β Page
  dropped : List Nat

inductive Event (β : Type)
  | write (data : List β)
  | intr
  | look
  | fill (outCount : Nat)
  | open
  | release

/-- What an event does to the port and its in queue. -/
def handle (port : Port β Page) (vq : InVq β Page) : Event β → Port β Page × InVq β Page
  | .write data => (port, (writeToPort vq data).1)
  | .intr => inIntr port vq
  | .look => (portHasData port vq).2
  | .fill outCount => (fillReadbuf port vq outCount).2
  | .open => ({ port with guestConnected := true }, vq)
  | .release => discardPortData { port with guestConnected := false } vq

def step (s : State β) (e : Event β) : Option (State β) :=
  let r := handle s.port s.vq e
  some ⟨r.1, r.2, s.dropped ++ (addresses s.port s.vq).filter (· ∉ addresses r.1 r.2)⟩

/-- A port whose in queue has `n` descriptors, before `fill_queue`. -/
def unplugged (port : Port β Page) (n : Nat) : Port β Page := { port with inbuf := none, inFree := n }

/-- The number of buffers `fill_queue` posts. -/
def nrAddedBufs (port : Port β Page) (n : Nat) (pages : List Page) : Nat :=
  (fillQueue (unplugged port n) ⟨true, [], []⟩ pages).2

/-- After it. -/
def plugged (port : Port β Page) (n : Nat) (pages : List Page) : State β :=
  let r := (fillQueue (unplugged port n) ⟨true, [], []⟩ pages).1
  ⟨r.1, r.2, []⟩

-- ---------------------------------------------------------------------------
-- Every buffer is somewhere
-- ---------------------------------------------------------------------------

/-- The buffers are those of `posted`, each of them once; the descriptors of the queue add
up, and there are as many as buffers. -/
structure Held (n : Nat) (posted : List Nat) (port : Port β Page) (vq : InVq β Page) : Prop where
  perm : (addresses port vq).Perm posted
  descriptors : port.inFree + vq.avail.length + vq.used.length = n
  enough : posted.length ≤ n

variable {n : Nat} {posted : List Nat} {port port' : Port β Page} {vq vq' : InVq β Page}
variable {buf : PortBuffer β Page}

theorem Held.length (h : Held n posted port vq) :
    port.inbuf.toList.length + (vq.used.length + vq.avail.length) = posted.length := by
  simpa [addresses] using h.perm.length_eq

/-- What `get_inbuf` hands out is put in front of the other buffers. -/
theorem getInbuf_held {found : Option (PortBuffer β Page)} (h : Held n posted port vq)
    (hGet : getInbuf port vq = (found, port', vq')) : Held n posted { port' with inbuf := found } vq' := by
  unfold getInbuf at hGet
  cases hb : port.inbuf with
  | some cached =>
    rw [hb] at hGet
    obtain ⟨rfl, rfl, rfl⟩ := hGet
    have hSame : ({ port with inbuf := some cached } : Port β Page) = port := by rw [← hb]
    rw [hSame]
    exact h
  | none =>
    have hPerm := h.perm
    have hDesc := h.descriptors
    cases hu : vq.used with
    | nil =>
      rw [hb, hu] at hGet
      obtain ⟨rfl, rfl, rfl⟩ := hGet
      have hSame : ({ port with inbuf := none } : Port β Page) = port := by rw [← hb]
      rw [hSame]
      exact h
    | cons first rest =>
      rw [hb, hu] at hGet
      obtain ⟨rfl, rfl, rfl⟩ := hGet
      rw [addresses, hb, hu] at hPerm
      rw [hu, List.length_cons] at hDesc
      exact ⟨hPerm, by dsimp only; omega, h.enough⟩

theorem portHasData_held (h : Held n posted port vq) :
    Held n posted (portHasData port vq).2.1 (portHasData port vq).2.2 :=
  getInbuf_held h rfl

/-- The buffer that was handed out goes back: there is a descriptor for it, since it is not in the
queue itself. -/
theorem addInbuf_held (h : Held n posted { port with inbuf := some buf } vq) :
    ∃ port' vq', addInbuf port vq buf = some (port', vq') ∧ Held n posted { port' with inbuf := none } vq' := by
  have hLength := h.length
  have hDesc := h.descriptors
  have hEnough := h.enough
  simp only [Option.toList_some, List.length_singleton] at hLength hDesc
  refine ⟨_, _, if_neg (by omega), ?_, ?_, hEnough⟩
  · refine List.Perm.trans ?_ h.perm
    simp only [addresses, Option.toList_none, Option.toList_some, List.map_nil, List.map_cons,
      List.map_append, List.nil_append, List.cons_append, ← List.append_assoc]
    exact List.perm_append_singleton _ _
  · simp only [List.length_append, List.length_singleton]
    omega

theorem finishInbuf_held (h : Held n posted { port with inbuf := some buf } vq) :
    Held n posted (finishInbuf port vq buf).1 (finishInbuf port vq buf).2 := by
  unfold finishInbuf
  split
  · obtain ⟨port', vq', hAdd, hHeld⟩ :=
      @addInbuf_held _ n posted { port with inbuf := none } vq buf ⟨h.perm, h.descriptors, h.enough⟩
    rw [hAdd]
    -- `add_inbuf` leaves the cache as it was, empty
    have hNone : port'.inbuf = none := by
      unfold addInbuf at hAdd
      split at hAdd
      · cases hAdd
      · cases hAdd
        rfl
    have hSame : ({ port' with inbuf := none } : Port β Page) = port' := by rw [← hNone]
    rw [hSame] at hHeld
    exact hHeld
  · exact h

theorem fillReadbuf_held (h : Held n posted port vq) (outCount : Nat) :
    Held n posted (fillReadbuf port vq outCount).2.1 (fillReadbuf port vq outCount).2.2 := by
  have hLook := portHasData_held h
  unfold fillReadbuf
  split
  · exact h
  generalize portHasData port vq = r at hLook ⊢
  obtain ⟨found, port', vq'⟩ := r
  dsimp only at hLook ⊢
  cases hb : port'.inbuf with
  | none => exact hLook
  | some cached =>
    have hPerm := hLook.perm
    rw [addresses, hb] at hPerm
    exact finishInbuf_held ⟨hPerm, hLook.descriptors, hLook.enough⟩

theorem discardLoop_held (fuel : Nat) (h : Held n posted port vq) :
    Held n posted (discardLoop fuel port vq).1 (discardLoop fuel port vq).2 := by
  induction fuel generalizing port vq with
  | zero => exact h
  | succ fuel ih =>
    rw [discardLoop]
    rcases hGet : getInbuf port vq with ⟨found, port', vq'⟩
    have hHeld := getInbuf_held h hGet
    cases found with
    | some buf =>
      obtain ⟨port₁, vq₁, hAdd, hBack⟩ := addInbuf_held hHeld
      dsimp only
      rw [hAdd]
      exact ih hBack
    | none =>
      -- nothing was cached, so the cache is as before
      have hNone : port'.inbuf = none := by
        unfold getInbuf at hGet
        split at hGet
        · cases hGet
        · rename_i hb
          split at hGet
          · cases hGet
            exact hb
          · cases hGet
      have hSame : ({ port' with inbuf := none } : Port β Page) = port' := by rw [← hNone]
      rw [hSame] at hHeld
      exact hHeld

/-- Nothing is left to read after `discard_port_data`. -/
theorem discardLoop_empties {fuel : Nat} (h : port.inbuf.toList.length + vq.used.length < fuel) :
    (discardLoop fuel port vq).1.inbuf = none ∧ (discardLoop fuel port vq).2.used = [] := by
  induction fuel generalizing port vq with
  | zero => exact absurd h (Nat.not_lt_zero _)
  | succ fuel ih =>
    have hUsed : ∀ (port : Port β Page) (vq : InVq β Page) (buf : PortBuffer β Page),
        ((addInbuf port vq buf).getD (port, vq)).2.used = vq.used := by
      intro port vq buf
      unfold addInbuf
      split <;> rfl
    rw [discardLoop]
    cases hb : port.inbuf with
    | some cached =>
      have hGet : getInbuf port vq = (some cached, port, vq) := by rw [getInbuf, hb]
      rw [hb, Option.toList_some, List.length_singleton] at h
      rw [hGet]
      refine ih ?_
      rw [hUsed, Option.toList_none, List.length_nil]
      omega
    | none =>
      rw [hb, Option.toList_none, List.length_nil] at h
      cases hu : vq.used with
      | nil =>
        have hGet : getInbuf port vq = (none, port, vq) := by rw [getInbuf, hb, hu]
        rw [hGet]
        exact ⟨hb, hu⟩
      | cons first rest =>
        have hGet : getInbuf port vq = (some { first with offset := 0 },
            { port with inFree := port.inFree + 1 }, { vq with used := rest }) := by
          rw [getInbuf, hb, hu]
        rw [hu, List.length_cons] at h
        rw [hGet]
        refine ih ?_
        rw [hUsed, Option.toList_none, List.length_nil]
        dsimp only
        omega

theorem discardPortData_empties (port : Port β Page) (vq : InVq β Page) :
    (discardPortData port vq).1.inbuf = none ∧ (discardPortData port vq).2.used = [] := by
  refine discardLoop_empties ?_
  have hCached : port.inbuf.toList.length ≤ 1 := by cases port.inbuf <;> simp
  omega

/-- The buffers a write uses are the first of those posted. -/
theorem fillAvail_addresses (avail : List Page) (data : List β) :
    (fillAvail avail data).1.map addrOf ++ (fillAvail avail data).2.1.map Page.addr = avail.map Page.addr := by
  induction avail generalizing data with
  | nil => rfl
  | cons page avail ih =>
    rw [fillAvail]
    split
    · rfl
    · simp [ih, addrOf]

theorem writeToPort_held (h : Held n posted port vq) (data : List β) :
    Held n posted port (writeToPort vq data).1 := by
  unfold writeToPort
  split
  · have hAddr := fillAvail_addresses vq.avail data
    have hLength : (fillAvail vq.avail data).1.length + (fillAvail vq.avail data).2.1.length =
        vq.avail.length := by
      simpa using congrArg List.length hAddr
    have hDesc := h.descriptors
    refine ⟨?_, ?_, h.enough⟩
    · have hSame : addresses port { vq with
          avail := (fillAvail vq.avail data).2.1
          used := vq.used ++ (fillAvail vq.avail data).1 } = addresses port vq := by
        simp [addresses, hAddr]
      dsimp only
      rw [hSame]
      exact h.perm
    · simp only [List.length_append]
      omega
  · exact h

theorem handle_held (h : Held n posted port vq) (e : Event β) :
    Held n posted (handle port vq e).1 (handle port vq e).2 := by
  cases e with
  | write data => exact writeToPort_held h data
  | intr =>
    have hLook := portHasData_held h
    show Held n posted (inIntr port vq).1 (inIntr port vq).2
    unfold inIntr
    dsimp only
    split
    · exact hLook
    · exact discardLoop_held _ hLook
  | look => exact portHasData_held h
  | fill outCount => exact fillReadbuf_held h outCount
  | «open» => exact ⟨h.perm, h.descriptors, h.enough⟩
  | release =>
    have hClosed : Held n posted { port with guestConnected := false } vq := ⟨h.perm, h.descriptors, h.enough⟩
    exact discardLoop_held _ hClosed

/-- No step loses a buffer, or has it in two places. -/
theorem step_held {s s' : State β} {e : Event β} (h : Held n posted s.port s.vq ∧ s.dropped = [])
    (hStep : step s e = some s') : Held n posted s'.port s'.vq ∧ s'.dropped = [] := by
  obtain rfl := Option.some.inj hStep
  have hAfter := handle_held h.1 e
  refine ⟨hAfter, List.append_eq_nil_iff.mpr ⟨h.2, List.filter_eq_nil_iff.mpr fun a ha => ?_⟩⟩
  have hThere : a ∈ addresses (handle s.port s.vq e).1 (handle s.port s.vq e).2 :=
    (h.1.perm.trans hAfter.perm.symm).mem_iff.mp ha
  simpa using hThere

-- ---------------------------------------------------------------------------
-- From `fill_queue` on
-- ---------------------------------------------------------------------------

/-- `fill_queue` posts the first pages it gets, as many as it returns. -/
theorem fillQueue_eq (port : Port β Page) (vq : InVq β Page) (pages : List Page) :
    (fillQueue port vq pages).2 ≤ port.inFree ∧ (fillQueue port vq pages).2 ≤ pages.length ∧
      (fillQueue port vq pages).1 =
        ({ port with inFree := port.inFree - (fillQueue port vq pages).2 },
          { vq with avail := vq.avail ++ pages.take (fillQueue port vq pages).2 }) := by
  induction pages generalizing port vq with
  | nil => simp [fillQueue]
  | cons page pages ih =>
    by_cases hNone : port.inFree = 0
    · have hAdd : addInbuf port vq ⟨page, [], 0⟩ = none := if_pos hNone
      rw [fillQueue, hAdd]
      simp
    · have hAdd : addInbuf port vq ⟨page, [], 0⟩ =
          some ({ port with inFree := port.inFree - 1 }, { vq with avail := vq.avail ++ [page] }) :=
        if_neg hNone
      rw [fillQueue, hAdd]
      dsimp only
      by_cases hLast : port.inFree - 1 = 0
      · rw [if_pos hLast]
        refine ⟨by dsimp only; omega, by simp, by simp⟩
      · rw [if_neg hLast]
        obtain ⟨hFree, hLe, hEq⟩ :=
          ih { port with inFree := port.inFree - 1 } { vq with avail := vq.avail ++ [page] }
        generalize (fillQueue { port with inFree := port.inFree - 1 } { vq with avail := vq.avail ++ [page] }
          pages).2 = k at hFree hLe hEq
        dsimp only at hFree ⊢
        refine ⟨by omega, by simpa using hLe, ?_⟩
        rw [hEq]
        simp only [List.take_succ_cons, List.append_assoc, List.singleton_append]
        congr 2
        omega

theorem plugged_held (port : Port β Page) (n : Nat) (pages : List Page) :
    Held n ((pages.map Page.addr).take (nrAddedBufs port n pages)) (plugged port n pages).port
      (plugged port n pages).vq := by
  obtain ⟨hFree, hLe, hEq⟩ := fillQueue_eq (unplugged port n) ⟨true, [], []⟩ pages
  have hFree : nrAddedBufs port n pages ≤ n := hFree
  have hLe : nrAddedBufs port n pages ≤ pages.length := hLe
  unfold plugged
  rw [hEq]
  show Held n _ { unplugged port n with inFree := n - nrAddedBufs port n pages }
    ⟨true, [] ++ pages.take (nrAddedBufs port n pages), []⟩
  refine ⟨?_, ?_, ?_⟩
  · simp [addresses, unplugged, List.map_take]
  · simp only [List.nil_append, List.length_take, List.length_nil]
    omega
  · rw [List.length_take]
    omega

/-- **Conservation.** Of the `k` buffers `fill_queue` posted, each is in the queue or cached,
at any time and however deliveries, interrupts, looks, reads, opens and releases follow each
other; none has gone missing, and `add_inbuf` has a descriptor for the buffer that `get_inbuf` would
hand out; the cached buffer is not in the queue, and once the unread data is discarded all `k`
buffers are posted again. -/
theorem run_conserved (port : Port β Page) (n : Nat) {pages : List Page}
    (hPages : (pages.map Page.addr).Nodup) {es : List (Event β)} {s : State β}
    (hRun : run step (plugged port n pages) es = some s) :
    s.vq.avail.length + s.vq.used.length + (if s.port.inbuf.isSome then 1 else 0) = nrAddedBufs port n pages ∧
      s.dropped = [] ∧
      (∀ b, (getInbuf s.port s.vq).1 = some b →
        (addInbuf (getInbuf s.port s.vq).2.1 (getInbuf s.port s.vq).2.2 b).isSome = true) ∧
      (∀ b, s.port.inbuf = some b →
        addrOf b ∉ s.vq.avail.map Page.addr ∧ addrOf b ∉ s.vq.used.map addrOf) ∧
      (discardPortData s.port s.vq).2.avail.length = nrAddedBufs port n pages := by
  obtain ⟨hHeld, hDropped⟩ : Held n _ s.port s.vq ∧ s.dropped = [] :=
    run_keeps (fun _ _ _ => step_held) ⟨plugged_held port n pages, rfl⟩ hRun
  have hLe : nrAddedBufs port n pages ≤ pages.length :=
    (fillQueue_eq (unplugged port n) ⟨true, [], []⟩ pages).2.1
  have hCount : ((pages.map Page.addr).take (nrAddedBufs port n pages)).length = nrAddedBufs port n pages := by
    rw [List.length_take, List.length_map]
    omega
  refine ⟨?_, hDropped, ?_, ?_, ?_⟩
  · have hLength := hHeld.length
    rw [hCount] at hLength
    cases hInbuf : s.port.inbuf <;>
    · rw [hInbuf] at hLength
      simp at hLength ⊢
      omega
  · intro b hFound
    rcases hGet : getInbuf s.port s.vq with ⟨found, port', vq'⟩
    have hOut := getInbuf_held hHeld hGet
    rw [hGet] at hFound
    obtain rfl : found = some b := hFound
    obtain ⟨port₁, vq₁, hAdd, -⟩ := addInbuf_held hOut
    dsimp only
    rw [hAdd]
    rfl
  · intro b hInbuf
    have hNodup : (addresses s.port s.vq).Nodup :=
      hHeld.perm.nodup_iff.mpr (hPages.sublist (List.take_sublist _ _))
    rw [addresses, hInbuf] at hNodup
    have hOut : addrOf b ∉ s.vq.used.map addrOf ++ s.vq.avail.map Page.addr :=
      (List.nodup_cons.mp hNodup).1
    exact ⟨fun hMem => hOut (List.mem_append_right _ hMem),
      fun hMem => hOut (List.mem_append_left _ hMem)⟩
  · have hAll : Held n _ (discardPortData s.port s.vq).1 (discardPortData s.port s.vq).2 :=
      discardLoop_held _ hHeld
    have hLength := hAll.length
    obtain ⟨hInbuf, hUsed⟩ := discardPortData_empties s.port s.vq
    rw [hInbuf, hUsed, hCount] at hLength
    simpa using hLength

/-- Three pages on a queue of two descriptors: two are posted. One is cached after a
delivery of more than its size has been read in part. -/
theorem run_conserved_two :
    (run step (plugged (β := UInt8) ⟨none, false, true, true, 0, 0⟩ 2 [⟨10, 2⟩, ⟨20, 2⟩, ⟨30, 2⟩])
        [.write [1, 2, 3], .intr, .fill 1]).map
        (fun s => (s.port.inbuf.map addrOf, s.vq.used.map addrOf, s.vq.avail)) =
      some (some 10, [20], []) ∧
      ∀ s, run step (plugged (β := UInt8) ⟨none, false, true, true, 0, 0⟩ 2
          [⟨10, 2⟩, ⟨20, 2⟩, ⟨30, 2⟩]) [.write [1, 2, 3], .intr, .fill 1] = some s →
        s.vq.avail.length + s.vq.used.length + (if s.port.inbuf.isSome then 1 else 0) = 2 :=
  ⟨by decide, fun _ hRun => (run_conserved _ 2 (by decide) hRun).1⟩

end VirtioCrypto.Guest.Buffers
