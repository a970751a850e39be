import VirtioCrypto.Virtqueue

/-!
# Guest — the port of the driver

`struct port` of `virtio_crypto.c` with the two queues seen from the guest: the
buffer it is reading from (`inbuf`), the flag that the out queue is full, what
both sides say about being connected, and the free descriptors of the two rings
(`virtqueue_add_buf` returns the number left, or an error when there is none).

Nothing here looks at a byte, or at more of a page than that it is one, so the element type of the
in queue and the type of its pages are open.

* `fillReadbuf_fresh` — what a read takes when nothing is cached: the first used
  buffer, which goes back to the host when it is read to its end.
-/

namespace VirtioCrypto.Guest

open Octets

variable {β κ : Type}

/-- `struct port`. -/
structure Port (β : Type) (κ : Type := Nat) where
  inbuf : Option (PortBuffer β κ)
  outvqFull : Bool
  guestConnected : Bool
  hostConnected : Bool
  -- num_free of the two rings
  inFree : Nat
  outFree : Nat
deriving DecidableEq, Repr

-- ---------------------------------------------------------------------------
-- The in queue
-- ---------------------------------------------------------------------------

/-- `get_inbuf`: the cached buffer, or the next used one. -/
def getInbuf (port : Port β κ) (vq : InVq β κ) : Option (PortBuffer β κ) × Port β κ × InVq β κ :=
  match port.inbuf with
  | some buf => (some buf, port, vq)
  | none =>
    match vq.used with
    | [] => (none, port, vq)
    | buf :: rest =>
      (some { buf with offset := 0 }, { port with inFree := port.inFree + 1 },
        { vq with used := rest })

/-- `port_has_data`. -/
def portHasData (port : Port β κ) (vq : InVq β κ) : Bool × Port β κ × InVq β κ :=
  let r := getInbuf port vq
  (r.1.isSome, { r.2.1 with inbuf := r.1 }, r.2.2)

/-- `add_inbuf`: post the buffer again, if there is a descriptor for it. -/
def addInbuf (port : Port β κ) (vq : InVq β κ) (buf : PortBuffer β κ) : Option (Port β κ × InVq β κ) :=
  if port.inFree = 0 then none
  else some ({ port with inFree := port.inFree - 1 }, { vq with avail := vq.avail ++ [buf.size] })

/-- The end of `fill_readbuf`: a buffer read to its end is posted again. A buffer
that cannot be posted is dropped with a warning. -/
def finishInbuf (port : Port β κ) (vq : InVq β κ) (buf : PortBuffer β κ) : Port β κ × InVq β κ :=
  if buf.offset = buf.data.length then
    (addInbuf { port with inbuf := none } vq buf).getD ({ port with inbuf := none }, vq)
  else ({ port with inbuf := some buf }, vq)

/-- `fill_readbuf(port, out_buf, out_count, false)`: the bytes copied. -/
def fillReadbuf (port : Port β κ) (vq : InVq β κ) (outCount : Nat) : List β × Port β κ × InVq β κ :=
  if outCount = 0 then ([], port, vq) else
  match portHasData port vq with
  | (_, port, vq) =>
    match port.inbuf with
    | none => ([], port, vq)
    | some buf =>
      let n := min outCount (buf.data.length - buf.offset)
      (slice buf.data buf.offset n, finishInbuf port vq { buf with offset := buf.offset + n })

/-- The loop of `discard_port_data`; one turn for the cached buffer and one for
each used one. -/
def discardLoop : Nat → Port β κ → InVq β κ → Port β κ × InVq β κ
  | 0, port, vq => (port, vq)
  | fuel + 1, port, vq =>
    match getInbuf port vq with
    | (none, port, vq) => (port, vq)
    | (some buf, port, vq) =>
      let r := (addInbuf port vq buf).getD (port, vq)
      discardLoop fuel { r.1 with inbuf := none } r.2

/-- `discard_port_data`. -/
def discardPortData (port : Port β κ) (vq : InVq β κ) : Port β κ × InVq β κ :=
  discardLoop (vq.used.length + 2) port vq

/-- `in_intr`. -/
def inIntr (port : Port β κ) (vq : InVq β κ) : Port β κ × InVq β κ :=
  let r := portHasData port vq
  if r.2.1.guestConnected then r.2 else discardPortData r.2.1 r.2.2

-- ---------------------------------------------------------------------------
-- The out queue
-- ---------------------------------------------------------------------------

/-- `reclaim_consumed_buffers`. -/
def reclaimConsumedBuffers (port : Port β κ) (vq : OutVq) : Port β κ × OutVq :=
  ({ port with outvqFull := port.outvqFull && vq.used.isEmpty,
               outFree := port.outFree + vq.used.length },
    { vq with used := [] })

/-- `send_buf` up to the spin: `false` when the request could not be queued. -/
def sendBuf (port : Port β κ) (vq : OutVq) (e : Elem) : Bool × Port β κ × OutVq :=
  let r := reclaimConsumedBuffers port vq
  if r.1.outFree = 0 then (false, r) else
  (true, { r.1 with outFree := r.1.outFree - 1,
                    outvqFull := r.1.outvqFull || r.1.outFree - 1 == 0 },
    { r.2 with avail := r.2.avail ++ [e] })

/-- One `virtqueue_get_buf` of the spin in `send_buf`; `none` is another turn. -/
def spin (port : Port β κ) (vq : OutVq) : Option (Port β κ × OutVq) :=
  match vq.used with
  | [] => none
  | _ :: rest => some ({ port with outFree := port.outFree + 1 }, { vq with used := rest })

/-- `will_write_block`. -/
def willWriteBlock (port : Port β κ) (vq : OutVq) : Bool × Port β κ × OutVq :=
  if !port.guestConnected then (false, port, vq)
  else if !port.hostConnected then (true, port, vq)
  else
    let r := reclaimConsumedBuffers port vq
    (r.1.outvqFull, r)

/-- `will_read_block`. -/
def willReadBlock (port : Port β κ) (vq : InVq β κ) : Bool × Port β κ × InVq β κ :=
  if !port.guestConnected then (false, port, vq)
  else
    let r := portHasData port vq
    (!r.1 && r.2.1.hostConnected, r.2)

-- ---------------------------------------------------------------------------
-- Reading
-- ---------------------------------------------------------------------------

/-- A look for data twice is a look once. -/
theorem portHasData_idem (port : Port β κ) (vq : InVq β κ) :
    portHasData (portHasData port vq).2.1 (portHasData port vq).2.2 =
      ((portHasData port vq).1, (portHasData port vq).2) := by
  rcases hb : port.inbuf with _ | buf
  · rcases hu : vq.used with _ | ⟨buf, rest⟩ <;> simp [portHasData, getInbuf, hb, hu]
  · simp [portHasData, getInbuf, hb]

theorem portHasData_nil {port : Port β κ} {vq : InVq β κ} (hb : port.inbuf = none)
    (hu : vq.used = []) : portHasData port vq = (false, port, vq) := by
  obtain ⟨inbuf, full, guest, host, inFree, outFree⟩ := port
  simp only at hb
  subst hb
  simp [portHasData, getInbuf, hu]

theorem portHasData_some {port : Port β κ} {vq : InVq β κ} {buf : PortBuffer β κ}
    (hb : port.inbuf = some buf) : portHasData port vq = (true, port, vq) := by
  obtain ⟨inbuf, full, guest, host, inFree, outFree⟩ := port
  simp only at hb
  subst hb
  simp [portHasData, getInbuf]

theorem portHasData_cons {port : Port β κ} {vq : InVq β κ} (hb : port.inbuf = none)
    {buf : PortBuffer β κ} {rest : List (PortBuffer β κ)} (hu : vq.used = buf :: rest) :
    portHasData port vq =
      (true, { port with inbuf := some { buf with offset := 0 }, inFree := port.inFree + 1 },
        { vq with used := rest }) := by
  simp [portHasData, getInbuf, hb, hu]

/-- A read right after a look for data is the read alone. -/
theorem fillReadbuf_portHasData (port : Port β κ) (vq : InVq β κ) (n : Nat) (hn : n ≠ 0) :
    fillReadbuf (portHasData port vq).2.1 (portHasData port vq).2.2 n = fillReadbuf port vq n := by
  simp only [fillReadbuf, hn, if_false, portHasData_idem]

/-- A read with nothing cached takes the first used buffer. If that fits, the
buffer goes back to the host. -/
theorem fillReadbuf_fresh {port : Port β κ} {vq : InVq β κ} (hb : port.inbuf = none)
    {buf : PortBuffer β κ} {rest : List (PortBuffer β κ)} (hu : vq.used = buf :: rest) {n : Nat}
    (hn : n ≠ 0) (hFit : buf.data.length ≤ n) :
    fillReadbuf port vq n =
      (buf.data, port, { vq with avail := vq.avail ++ [buf.size], used := rest }) := by
  obtain ⟨inbuf, full, guest, host, inFree, outFree⟩ := port
  simp only at hb
  subst hb
  simp [fillReadbuf, hn, portHasData, getInbuf, hu, finishInbuf, addInbuf, Nat.min_eq_right hFit,
    slice_zero_length]

-- ---------------------------------------------------------------------------
-- What an operation leaves alone
-- ---------------------------------------------------------------------------

/-- The out queue's operations do not touch the cached buffer, nor what is still
with the host. -/
theorem willWriteBlock_frame (port : Port β κ) (vq : OutVq) :
    (willWriteBlock port vq).2.1.inbuf = port.inbuf ∧
      (willWriteBlock port vq).2.1.guestConnected = port.guestConnected ∧
      (willWriteBlock port vq).2.2.avail = vq.avail := by
  unfold willWriteBlock
  split
  · exact ⟨rfl, rfl, rfl⟩
  · split <;> exact ⟨rfl, rfl, rfl⟩

theorem sendBuf_frame (port : Port β κ) (vq : OutVq) (e : Elem) :
    (sendBuf port vq e).2.1.inbuf = port.inbuf ∧
      (sendBuf port vq e).2.1.guestConnected = port.guestConnected ∧
      (sendBuf port vq e).2.2.avail = vq.avail ++ if (sendBuf port vq e).1 then [e] else [] := by
  simp only [sendBuf]
  split <;> simp [reclaimConsumedBuffers]

theorem spin_frame {port : Port β κ} {vq : OutVq} {r : Port β κ × OutVq} (h : spin port vq = some r) :
    r.1.inbuf = port.inbuf ∧ r.1.guestConnected = port.guestConnected ∧ r.2.avail = vq.avail := by
  unfold spin at h
  split at h
  · exact absurd h (by simp)
  · obtain rfl := Option.some.inj h
    exact ⟨rfl, rfl, rfl⟩

/-- A look for data moves at most the first used buffer into the cache. -/
theorem portHasData_frame (port : Port β κ) (vq : InVq β κ) (hOff : ∀ buf ∈ vq.used, buf.offset = 0) :
    (portHasData port vq).2.1.inbuf.toList ++ (portHasData port vq).2.2.used =
        port.inbuf.toList ++ vq.used ∧
      (portHasData port vq).2.1.guestConnected = port.guestConnected ∧
      (portHasData port vq).2.2.ready = vq.ready ∧
      (portHasData port vq).2.2.avail = vq.avail ∧
      (∀ buf ∈ (portHasData port vq).2.2.used, buf.offset = 0) := by
  rcases hb : port.inbuf with _ | buf
  · rcases hu : vq.used with _ | ⟨buf, rest⟩
    · simp [portHasData_nil hb hu, hb, hu]
    · have hZero : buf.offset = 0 := hOff buf (by simp [hu])
      have hRest : ∀ b ∈ rest, b.offset = 0 := fun b hb => hOff b (by simp [hu, hb])
      rw [portHasData_cons hb hu]
      exact ⟨by simp [← hZero], rfl, rfl, rfl, hRest⟩
  · rw [portHasData_some hb, hb]
    exact ⟨rfl, rfl, rfl, rfl, hOff⟩

theorem portHasData_flags (port : Port β κ) (vq : InVq β κ) :
    (portHasData port vq).2.1.guestConnected = port.guestConnected ∧
      (portHasData port vq).2.1.hostConnected = port.hostConnected := by
  unfold portHasData getInbuf
  split
  · exact ⟨rfl, rfl⟩
  · split <;> exact ⟨rfl, rfl⟩

/-- On an open port the interrupt is a look for data. -/
theorem inIntr_open {port : Port β κ} (h : port.guestConnected = true) (vq : InVq β κ) :
    inIntr port vq = (portHasData port vq).2 := by
  unfold inIntr
  rw [if_pos ((portHasData_flags port vq).1.trans h)]

/-- After a look the first buffer is the cached one. -/
theorem portHasData_head {port : Port β κ} {vq : InVq β κ} {buf : PortBuffer β κ}
    {rest : List (PortBuffer β κ)} (h : port.inbuf.toList ++ vq.used = buf :: rest)
    (hOff : buf.offset = 0) :
    (portHasData port vq).2.1.inbuf = some buf ∧ (portHasData port vq).2.2.used = rest := by
  cases hb : port.inbuf with
  | none =>
    rw [hb] at h
    rw [portHasData_cons hb h]
    exact ⟨by simp [← hOff], rfl⟩
  | some cached =>
    rw [hb] at h
    obtain ⟨rfl, rfl⟩ := List.cons_eq_cons.mp h
    rw [portHasData_some hb]
    exact ⟨hb, rfl⟩

/-- A read that takes the whole of the cached buffer. -/
theorem fillReadbuf_cached {port : Port β κ} (vq : InVq β κ) {buf : PortBuffer β κ}
    (hb : port.inbuf = some buf) (hOff : buf.offset = 0) {n : Nat} (hn : n ≠ 0)
    (hFit : buf.data.length ≤ n) :
    (fillReadbuf port vq n).1 = buf.data ∧ (fillReadbuf port vq n).2.1.inbuf = none ∧
      (fillReadbuf port vq n).2.1.guestConnected = port.guestConnected ∧
      (fillReadbuf port vq n).2.2.ready = vq.ready ∧
      (fillReadbuf port vq n).2.2.used = vq.used ∧
      ∀ sz ∈ (fillReadbuf port vq n).2.2.avail, sz ∈ vq.avail ∨ sz = buf.size := by
  have hLook : portHasData port vq = (true, port, vq) := portHasData_some hb
  have hRead : fillReadbuf port vq n =
      (buf.data, finishInbuf port vq { buf with offset := buf.data.length }) := by
    simp [fillReadbuf, hn, hLook, hb, hOff, Nat.min_eq_right hFit, slice_zero_length]
  rw [hRead]
  unfold finishInbuf addInbuf
  rw [if_pos rfl]
  split
  · exact ⟨rfl, rfl, rfl, rfl, rfl, fun sz h => .inl h⟩
  · exact ⟨rfl, rfl, rfl, rfl, rfl, fun sz h => by simpa using h⟩

end VirtioCrypto.Guest
