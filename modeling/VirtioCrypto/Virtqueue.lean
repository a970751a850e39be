import VirtioCrypto.Octets.Basic

/-!
# Virtqueues

The two queues of a port as the two sides see them. A queue is a FIFO of
buffers the guest has made available and a FIFO of buffers the host has handed
back; the ring below it (`virtio_ring`) is assumed to keep both orders.

The in queue carries bytes from the host to the guest in buffers of fixed size.
Its element type is a parameter: the transport never looks at a byte, so the
same code moves plain bytes and bytes annotated with where they came from. So is
what is known of a posted page: mostly its size alone, or its address, too. The
out queue carries requests; their bytes stay in guest memory, an element names
the segments.
-/

namespace VirtioCrypto

open Octets

/-- A page that can be posted, with the number of bytes it takes. -/
class Sized (κ : Type) where
  bytes : κ → Nat

instance : Sized Nat := ⟨fun n => n⟩

@[simp] theorem bytes_nat (n : Nat) : Sized.bytes n = n := rfl

/-- `struct port_buffer`: a page of the guest the host can fill. `data` is the
used part, of `len` bytes. -/
structure PortBuffer (β : Type) (κ : Type := Nat) where
  size : κ
  data : List β
  offset : Nat
deriving DecidableEq, Repr

/-- The in queue of a port: the pages that are posted, and the buffers the host has
used. -/
structure InVq (β : Type) (κ : Type := Nat) where
  ready : Bool
  avail : List κ
  used : List (PortBuffer β κ)
deriving DecidableEq, Repr

/-- An element of the out queue (`VirtQueueElement`): the guest's cookie for it
and its segments, an address and a length each. -/
structure Elem where
  index : Nat
  outSg : List (Nat × Nat)
deriving DecidableEq, Repr

/-- The out queue of a port. -/
structure OutVq where
  ready : Bool
  avail : List Elem
  used : List Elem
deriving DecidableEq, Repr

variable {β κ : Type} [Sized κ]

/-- The bytes that are on their way to the guest. -/
def InVq.stream (q : InVq β) : List β := (q.used.map PortBuffer.data).flatten

/-- The number of bytes the posted buffers can take. -/
def InVq.room (q : InVq β) : Nat := q.avail.sum

/-- The loop of `write_to_port`: pop a buffer, fill it with what is left
(`iov_from_buf`), push it, until the data or the buffers run out. The result is
the buffers used, the buffers left and the data left. -/
def fillAvail : List κ → List β → List (PortBuffer β κ) × List κ × List β
  | [], data => ([], [], data)
  | sz :: avail, data =>
    if data.isEmpty then ([], sz :: avail, [])
    else
      let r := fillAvail avail (data.drop (Sized.bytes sz))
      (⟨sz, data.take (Sized.bytes sz), 0⟩ :: r.1, r.2.1, r.2.2)

/-- `write_to_port`: the queue afterwards and the number of bytes accepted. -/
def writeToPort (q : InVq β κ) (data : List β) : InVq β κ × Nat :=
  if q.ready then
    let r := fillAvail q.avail data
    ({ q with avail := r.2.1, used := q.used ++ r.1 }, data.length - r.2.2.length)
  else (q, 0)

-- ---------------------------------------------------------------------------
-- What a write leaves in the queue
-- ---------------------------------------------------------------------------

/-- The buffers used and the data left are the data written, in order. -/
theorem fillAvail_data (avail : List Nat) (data : List β) :
    ((fillAvail avail data).1.map PortBuffer.data).flatten ++ (fillAvail avail data).2.2 =
      data := by
  induction avail generalizing data with
  | nil => simp [fillAvail]
  | cons sz avail ih =>
    unfold fillAvail
    by_cases hd : data.isEmpty
    · simp only [List.isEmpty_iff] at hd
      simp [hd]
    · simp only [hd, Bool.false_eq_true, if_false, List.map_cons, List.flatten_cons,
        List.append_assoc, ih, List.take_append_drop]

/-- Nothing is left over when the posted buffers have room. -/
theorem fillAvail_rest_nil {avail : List Nat} {data : List β} (h : data.length ≤ avail.sum) :
    (fillAvail avail data).2.2 = [] := by
  induction avail generalizing data with
  | nil =>
    simp only [List.sum_nil, Nat.le_zero_eq, List.length_eq_zero_iff] at h
    simp [fillAvail, h]
  | cons sz avail ih =>
    unfold fillAvail
    by_cases hd : data.isEmpty
    · simp [hd]
    · simp only [hd, Bool.false_eq_true, if_false]
      apply ih
      simp only [List.sum_cons] at h
      simp only [List.length_drop, bytes_nat]
      omega

/-- With room for all of it, the whole of the data is on its way. -/
theorem writeToPort_stream {q : InVq β} {data : List β} (hReady : q.ready = true)
    (hRoom : data.length ≤ q.room) :
    (writeToPort q data).1.stream = q.stream ++ data := by
  have hAll := fillAvail_data q.avail data
  rw [fillAvail_rest_nil hRoom, List.append_nil] at hAll
  simp [writeToPort, hReady, InVq.stream, hAll]

/-- A write uses no buffer exactly when there is none or nothing to write. -/
theorem fillAvail_eq_nil_iff {avail : List Nat} {data : List β} :
    (fillAvail avail data).1 = [] ↔ avail = [] ∨ data = [] := by
  cases avail with
  | nil => simp [fillAvail]
  | cons sz avail =>
    unfold fillAvail
    by_cases hd : data = []
    · simp [hd]
    · simp [hd, List.isEmpty_iff]

/-- A write that uses no buffer leaves all of them posted. -/
theorem fillAvail_unused {avail : List Nat} {data : List β} (h : (fillAvail avail data).1 = []) :
    (fillAvail avail data).2.1 = avail := by
  rcases fillAvail_eq_nil_iff.mp h with rfl | rfl
  · rfl
  · cases avail <;> simp [fillAvail]

/-- A write to a queue with a buffer posted fills that buffer first. -/
theorem writeToPort_cons {q : InVq β} {data : List β} {sz : Nat} {avail : List Nat}
    (hReady : q.ready = true) (hAvail : q.avail = sz :: avail) (hNe : data ≠ []) :
    (writeToPort q data).1 =
      { q with avail := (fillAvail avail (data.drop sz)).2.1,
               used := q.used ++ ⟨sz, data.take sz, 0⟩ :: (fillAvail avail (data.drop sz)).1 } := by
  have hEmpty : data.isEmpty = false := by simpa using hNe
  simp [writeToPort, hReady, hAvail, fillAvail, hEmpty]

/-- A write that the first posted buffer can take uses that one only. -/
theorem writeToPort_fits {q : InVq β} {data : List β} {sz : Nat} {avail : List Nat}
    (hReady : q.ready = true) (hAvail : q.avail = sz :: avail) (hNe : data ≠ [])
    (hFit : data.length ≤ sz) :
    (writeToPort q data).1 = { q with avail := avail, used := q.used ++ [⟨sz, data, 0⟩] } := by
  have hUnused : (fillAvail avail (data.drop sz)).1 = [] :=
    fillAvail_eq_nil_iff.mpr (.inr (List.drop_eq_nil_of_le hFit))
  rw [writeToPort_cons hReady hAvail hNe, hUnused, fillAvail_unused hUnused,
    List.take_of_length_le hFit]

-- ---------------------------------------------------------------------------
-- Annotated bytes
-- ---------------------------------------------------------------------------

variable {γ : Type}

def PortBuffer.map (f : β → γ) (buf : PortBuffer β) : PortBuffer γ :=
  ⟨buf.size, buf.data.map f, buf.offset⟩

def InVq.map (f : β → γ) (q : InVq β) : InVq γ :=
  ⟨q.ready, q.avail, q.used.map (PortBuffer.map f)⟩

theorem fillAvail_map (f : β → γ) (avail : List Nat) (data : List β) :
    fillAvail avail (data.map f) =
      ((fillAvail avail data).1.map (PortBuffer.map f), (fillAvail avail data).2.1,
        (fillAvail avail data).2.2.map f) := by
  induction avail generalizing data with
  | nil => simp [fillAvail]
  | cons sz avail ih =>
    unfold fillAvail
    rw [List.isEmpty_map]
    by_cases hd : data.isEmpty
    · simp [hd]
    · simp [hd, ← List.map_drop, ih, PortBuffer.map]

/-- The transport does not look at the bytes. -/
theorem writeToPort_map (f : β → γ) (q : InVq β) (data : List β) :
    (writeToPort (q.map f) (data.map f)).1 = (writeToPort q data).1.map f := by
  unfold writeToPort
  by_cases hReady : q.ready = true
  · simp [InVq.map, hReady, fillAvail_map]
  · simp [InVq.map, hReady]

end VirtioCrypto
