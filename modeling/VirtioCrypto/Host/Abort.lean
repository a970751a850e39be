import VirtioCrypto.Host.Bus

/-!
# Host — when the guest can abort QEMU

`do_flush_queued_data` treats any error code but `-EAGAIN` as a reason to
`abort()`, and the comment at the end of `flush_buf` says the callback keeps
such values away from it. The default branch of its `switch` does not.

* `flushBuf_cases` — what one call of `flush_buf` can do;
* `flushLoop_inv` — what a callback keeps, the flush loop keeps;
* `run_returns_ok_iff` — over any run, every value `flush_buf` returns is
  acceptable and QEMU does not abort exactly when every command word it read is
  one of the three commands.
-/

namespace VirtioCrypto.Host

open Octets Cryptodev

variable {S σ : Type}

-- ---------------------------------------------------------------------------
-- Runs of a port under guest activity
-- ---------------------------------------------------------------------------

/-- What happens to a port: the guest does something to it, or notifies. -/
inductive Event
  | guest (g : GuestEvent)
  | notify

def step (dev : DevCrypto σ) (L : Layout) (p : Flush (Port σ)) :
    Event → Flush (Port σ) × Option Fault
  | .guest g => (g.apply p, none)
  | .notify => handleOutput dev L p

/-- A run ends at the first fault. -/
def run (dev : DevCrypto σ) (L : Layout) (p : Flush (Port σ)) :
    List Event → Flush (Port σ) × Option Fault
  | [] => (p, none)
  | ev :: evs =>
    match step dev L p ev with
    | (p, some f) => (p, some f)
    | (p, none) => run dev L p evs

-- ---------------------------------------------------------------------------
-- The flush loop and its callback
-- ---------------------------------------------------------------------------

section Loop

variable {haveData : HaveData S} {throttled : S → Bool} {I : S → Prop} {Bad : S → Prop}

/-- The callback keeps `I`, and only leaves `Bad` behind when it gives the loop a
reason to abort. -/
def CallbackKeeps (haveData : HaveData S) (I Bad : S → Prop) : Prop :=
  ∀ st b l, I st →
    I (haveData st b l).1 ∧ (haveData st b l).2 ≠ .error .abort ∧
      ∀ r, (haveData st b l).2 = .ok r → r < 0 ∧ r ≠ -EAGAIN → Bad (haveData st b l).1

theorem flushSegs_inv (h : CallbackKeeps haveData I Bad) (segs : List (Nat × Nat)) (i off : Nat)
    {st : S} (hI : I st) :
    I (flushSegs haveData segs i off st).1 ∧
      ((flushSegs haveData segs i off st).2 = .error .abort →
        Bad (flushSegs haveData segs i off st).1) := by
  induction segs generalizing i off st with
  | nil => exact ⟨hI, fun hf => by simp [flushSegs] at hf⟩
  | cons seg segs ih =>
    obtain ⟨base, len⟩ := seg
    obtain ⟨hKeep, hNo, hBad⟩ := h st (base + off) (len - off) hI
    rw [flushSegs]
    rcases hd : haveData st (base + off) (len - off) with ⟨st', f | r⟩
    · rw [hd] at hKeep hNo
      exact ⟨hKeep, fun hf => absurd (show Except.error f = .error .abort by simpa using hf) hNo⟩
    · rw [hd] at hKeep hBad
      simp only
      split
      · next hNeg => exact ⟨hKeep, fun _ => hBad r rfl hNeg⟩
      · split
        · exact ⟨hKeep, fun hf => by simp at hf⟩
        · exact ih (i + 1) 0 hKeep

theorem pop_st {p q : Flush S} (hPop : p.pop = some q) : q.st = p.st := by
  unfold Flush.pop at hPop
  split at hPop
  · cases hPop
    rfl
  · rcases ha : p.ovq.avail with _ | ⟨e, rest⟩
    · simp [ha] at hPop
    · simp only [ha, Option.some.injEq] at hPop
      rw [← hPop]

/-- What a turn keeps. -/
theorem turn_inv (h : CallbackKeeps haveData I Bad) {p : Flush S} (hI : I p.st) :
    I (flushLoop haveData throttled 1 p).1.st ∧
      ((flushLoop haveData throttled 1 p).2 = some .abort →
        Bad (flushLoop haveData throttled 1 p).1.st) := by
  cases hThr : throttled p.st with
  | true =>
    rw [flushLoop_throttled hThr]
    exact ⟨hI, fun hf => by simp at hf⟩
  | false =>
    cases hPop : p.pop with
    | none =>
      rw [flushLoop_drained hPop]
      exact ⟨hI, fun hf => by simp at hf⟩
    | some q =>
      obtain ⟨hKeep, hAbort⟩ :=
        flushSegs_inv h q.segs q.iovIdx q.iovOffset ((pop_st hPop).symm ▸ hI)
      rcases hSegs : flushSegs haveData q.segs q.iovIdx q.iovOffset q.st with ⟨st, f | r⟩
      · rw [hSegs] at hKeep hAbort
        rw [flushLoop_one_fault hThr hPop hSegs]
        refine ⟨hKeep, fun hf => hAbort ?_⟩
        simpa using hf
      · rw [hSegs] at hKeep
        rw [flushLoop_one hThr hPop hSegs]
        refine ⟨?_, fun hf => by simp at hf⟩
        have hSt : (q.resume st r).st = st := (resume_ovq q st r).1
        split
        · exact hSt.symm ▸ hKeep
        · show I (q.resume st r).st
          exact hSt.symm ▸ hKeep

/-- The loop keeps what the callback keeps, and aborts only after the callback
gave it a reason. -/
theorem flushLoop_inv (h : CallbackKeeps haveData I Bad) (fuel : Nat) {p : Flush S}
    (hI : I p.st) :
    I (flushLoop haveData throttled fuel p).1.st ∧
      ((flushLoop haveData throttled fuel p).2 = some .abort →
        Bad (flushLoop haveData throttled fuel p).1.st) := by
  induction fuel generalizing p with
  | zero => exact ⟨hI, fun hf => by simp [flushLoop] at hf⟩
  | succ fuel ih =>
    have hTurn : I (flushLoop haveData throttled 1 p).1.st ∧
        ((flushLoop haveData throttled 1 p).2 = some .abort →
          Bad (flushLoop haveData throttled 1 p).1.st) := turn_inv h hI
    rw [flushLoop_succ]
    generalize flushLoop haveData throttled 1 p = r at hTurn ⊢
    rcases r with ⟨q, _ | f⟩
    · exact ih hTurn.1
    · exact hTurn

end Loop

-- ---------------------------------------------------------------------------
-- One call of flush_buf
-- ---------------------------------------------------------------------------

/-- A command word of the protocol. -/
def Known (w : Nat) : Prop := (Cmd.ofWord w).isSome

instance (w : Nat) : Decidable (Known w) := inferInstanceAs (Decidable (_ = true))

/-- What a call leaves of the port: the chardev and the host side are as they
were, and either it faulted or it returned a value and that is the one new entry
of `calls`. A value is negative only for an unknown command. -/
structure Returns (port : Port σ) (r : Port σ × Except Fault Int) : Prop where
  chr : r.1.chr = port.chr
  hostConnected : r.1.hostConnected = port.hostConnected
  fault : r.2 ≠ .error .abort
  value : ∀ v, r.2 = .ok v →
    ∃ w, r.1.calls = port.calls ++ [(w, v)] ∧ (Known w → 0 ≤ v) ∧ (¬ Known w → v = -EINVAL)
  noValue : ∀ f, r.2 = .error f → r.1.calls = port.calls

theorem returns_segv {port q : Port σ} (hChr : q.chr = port.chr)
    (hHost : q.hostConnected = port.hostConnected) (hCalls : q.calls = port.calls) :
    Returns port (segv q) where
  chr := hChr
  hostConnected := hHost
  fault := by simp [segv]
  value := fun v hv => by simp [segv] at hv
  noValue := fun _ _ => hCalls

theorem returns_ret {port q : Port σ} {w : Nat} {v : Int} (hChr : q.chr = port.chr)
    (hHost : q.hostConnected = port.hostConnected) (hCalls : q.calls = port.calls)
    (hKnown : Known w → 0 ≤ v) (hUnknown : ¬ Known w → v = -EINVAL) :
    Returns port (ret q w v) where
  chr := hChr
  hostConnected := hHost
  fault := by simp [ret]
  value := by
    intro v' hv
    simp only [ret, Except.ok.injEq] at hv
    subst hv
    exact ⟨w, by simp [ret, hCalls], hKnown, hUnknown⟩
  noValue := fun f hf => by simp [ret] at hf

theorem returns_respond {port q : Port σ} {L : Layout} {buf w : Nat} (hChr : q.chr = port.chr)
    (hHost : q.hostConnected = port.hostConnected) (hCalls : q.calls = port.calls)
    (hw : Known w) : Returns port (respond L q buf w) := by
  have hOk : Known w → (0 : Int) ≤ 0 := fun _ => le_refl 0
  have hNo : ¬ Known w → (0 : Int) = -EINVAL := fun h => absurd hw h
  obtain ⟨mem, ivq, -, h | h⟩ := respond_ends L q buf w
  · rw [h]
    exact returns_segv hChr hHost hCalls
  · rw [h]
    exact returns_ret hChr hHost hCalls hOk hNo

variable (dev : DevCrypto σ) (L : Layout)

/-- How a case of the `switch` ends: in a fault, in `return 1`, or in the response
and `return 0`. -/
def CaseEnds (port : Port σ) (buf w : Nat) (r : Port σ × Except Fault Int) : Prop :=
  ∃ q, SameSide port q ∧ (r = segv q ∨ r = ret q w 1 ∨ r = respond L q buf w)

theorem flushGsession_ends (port : Port σ) (buf w : Nat) :
    CaseEnds L port buf w (flushGsession dev L port buf w) := by
  have hSide := (ioctlGsession_leaves dev L port buf).sameSide
  unfold flushGsession
  generalize ioctlGsession dev L port buf = r at hSide ⊢
  rcases r with ⟨q, _ | e | sess⟩
  · exact ⟨q, hSide, Or.inl rfl⟩
  · exact ⟨q, hSide, Or.inr (Or.inl rfl)⟩
  · simp only
    rcases q.mem.write buf (.buf SES_OFF) (toLE 4 sess.ses) with ⟨_ | _, mem⟩
    · exact ⟨_, hSide.withMem mem, Or.inl rfl⟩
    · exact ⟨_, hSide.withMem mem, Or.inr (Or.inr rfl)⟩

theorem flushCrypt_ends (port : Port σ) (buf w : Nat) :
    CaseEnds L port buf w (flushCrypt dev L port buf w) := by
  have hSide := (ioctlCrypt_leaves dev L port buf).sameSide
  unfold flushCrypt
  generalize ioctlCrypt dev L port buf = r at hSide ⊢
  rcases r with ⟨q, _ | e | crypt⟩
  · exact ⟨q, hSide, Or.inl rfl⟩
  · exact ⟨q, hSide, Or.inr (Or.inl rfl)⟩
  · exact ⟨_, hSide.withMem _, Or.inr (Or.inr rfl)⟩

theorem flushFsession_ends (port : Port σ) (buf w : Nat) :
    CaseEnds L port buf w (flushFsession dev L port buf w) := by
  have hSide := (ioctlFsession_leaves dev port buf).sameSide
  unfold flushFsession
  generalize ioctlFsession dev port buf = r at hSide ⊢
  rcases r with ⟨q, _ | e | sid⟩
  · exact ⟨q, hSide, Or.inl rfl⟩
  · exact ⟨q, hSide, Or.inr (Or.inl rfl)⟩
  · simp only
    rcases q.mem.write buf (.buf 0) sid with ⟨_ | _, mem⟩
    · exact ⟨_, hSide.withMem mem, Or.inl rfl⟩
    · exact ⟨_, hSide.withMem mem, Or.inr (Or.inr rfl)⟩

theorem CaseEnds.returns {port : Port σ} {buf w : Nat} {r : Port σ × Except Fault Int}
    (h : CaseEnds L port buf w r) (hw : Known w) : Returns port r := by
  obtain ⟨q, hSide, rfl | rfl | rfl⟩ := h
  · exact returns_segv hSide.chr hSide.hostConnected hSide.calls
  · exact returns_ret hSide.chr hSide.hostConnected hSide.calls (fun _ => by decide)
      (fun h => absurd hw h)
  · exact returns_respond hSide.chr hSide.hostConnected hSide.calls hw

/-- **One call of `flush_buf`** on a port with a chardev. -/
theorem flushBuf_cases {port : Port σ} (hChr : port.chr = true) (buf len : Nat) :
    Returns port (flushBuf dev L port buf len) := by
  have hBackend : (!port.chr) = false := by simp [hChr]
  unfold flushBuf
  rw [hBackend]
  rcases port.mem.read buf (.buf L.cmdOff) 4 with ⟨_ | word, mem⟩
  · exact returns_segv rfl rfl rfl
  · simp only [Bool.false_eq_true, if_false]
    rcases hc : Cmd.ofWord (ofLE word) with _ | c
    · have hw : ¬ Known (ofLE word) := by simp [Known, hc]
      exact returns_ret rfl rfl rfl (fun h => absurd h hw) (fun _ => rfl)
    · have hw : Known (ofLE word) := by simp [Known, hc]
      have hSame : ∀ {r}, Returns { port with mem := mem } r → Returns port r :=
        fun h => ⟨h.chr, h.hostConnected, h.fault, h.value, h.noValue⟩
      cases c with
      | CIOCGSESSION => exact hSame ((flushGsession_ends dev L _ buf _).returns L hw)
      | CIOCCRYPT => exact hSame ((flushCrypt_ends dev L _ buf _).returns L hw)
      | CIOCFSESSION => exact hSame ((flushFsession_ends dev L _ buf _).returns L hw)

-- ---------------------------------------------------------------------------
-- Whole runs
-- ---------------------------------------------------------------------------

/-- The chardev is there, and every value returned so far fits its command word. -/
def Logged (st : Port σ) : Prop :=
  st.chr = true ∧ ∀ c ∈ st.calls, (Known c.1 → 0 ≤ c.2) ∧ (¬ Known c.1 → c.2 = -EINVAL)

/-- Some call read a word that is no command. -/
def ReadUnknown (st : Port σ) : Prop := ∃ c ∈ st.calls, ¬ Known c.1

theorem flushBuf_keeps_logged : CallbackKeeps (flushBuf dev L) Logged ReadUnknown := by
  intro st buf len ⟨hChr, hLog⟩
  have h := flushBuf_cases dev L hChr buf len
  refine ⟨⟨h.chr.trans hChr, ?_⟩, h.fault, ?_⟩
  · rcases hr : (flushBuf dev L st buf len).2 with f | v
    · rw [h.noValue f hr]
      exact hLog
    · obtain ⟨w, hCalls, hKnown, hUnknown⟩ := h.value v hr
      rw [hCalls]
      intro c hc
      rcases List.mem_append.mp hc with hc | hc
      · exact hLog c hc
      · rw [List.mem_singleton.mp hc]
        exact ⟨hKnown, hUnknown⟩
  · intro r hr ⟨hNeg, _⟩
    obtain ⟨w, hCalls, hKnown, -⟩ := h.value r hr
    refine ⟨(w, r), by simp [hCalls], fun hw => ?_⟩
    have := hKnown hw
    omega

theorem step_keeps_logged {p : Flush (Port σ)} (h : Logged p.st) (ev : Event) :
    Logged (step dev L p ev).1.st ∧
      ((step dev L p ev).2 = some .abort → ReadUnknown (step dev L p ev).1.st) := by
  cases ev with
  | guest g =>
    have hSame : Logged (g.apply p).st := by cases g <;> exact h
    exact ⟨hSame, fun hf => by simp [step] at hf⟩
  | notify =>
    rw [show step dev L p .notify = handleOutput dev L p from rfl]
    unfold handleOutput
    split
    · exact flushLoop_inv (flushBuf_keeps_logged dev L) _ h
    · exact ⟨h, fun hf => by simp at hf⟩

theorem run_keeps_logged {p : Flush (Port σ)} (h : Logged p.st) (evs : List Event) :
    Logged (run dev L p evs).1.st ∧
      ((run dev L p evs).2 = some .abort → ReadUnknown (run dev L p evs).1.st) := by
  induction evs generalizing p with
  | nil => exact ⟨h, fun hf => by simp [run] at hf⟩
  | cons ev evs ih =>
    have hStep := step_keeps_logged dev L h ev
    unfold run
    rcases hs : step dev L p ev with ⟨q, _ | f⟩
    · rw [hs] at hStep
      exact ih hStep.1
    · rw [hs] at hStep
      exact hStep

/-- **When no guest input aborts QEMU.** On a port with a chardev, every value
`flush_buf` returns is `-EAGAIN` or non-negative and `abort()` is not reached
exactly when every command word it reads is one of the three commands. -/
theorem run_returns_ok_iff (p : Flush (Port σ)) (evs : List Event) (hChr : p.st.chr = true)
    (hNew : p.st.calls = []) :
    ((∀ c ∈ (run dev L p evs).1.st.calls, c.2 = -EAGAIN ∨ 0 ≤ c.2) ∧
        (run dev L p evs).2 ≠ some .abort) ↔
      ∀ c ∈ (run dev L p evs).1.st.calls, Known c.1 := by
  have hStart : Logged p.st := ⟨hChr, by simp [hNew]⟩
  obtain ⟨⟨-, hLog⟩, hAbort⟩ := run_keeps_logged dev L hStart evs
  refine ⟨fun ⟨hOk, _⟩ c hc => ?_, fun hKnown => ⟨fun c hc => ?_, fun hf => ?_⟩⟩
  · by_contra hw
    have hv := (hLog c hc).2 hw
    have := hOk c hc
    unfold EINVAL at hv
    unfold EAGAIN at this
    omega
  · exact Or.inr ((hLog c hc).1 (hKnown c hc))
  · obtain ⟨c, hc, hw⟩ := hAbort hf
    exact hw (hKnown c hc)

/-- A console port, opened on both sides, over memory that is all zero. -/
def consolePort : Flush (Port Fcrypt) where
  st := { chr := true, crInfo := .live (some ⟨[], 0⟩), guestConnected := true,
          hostConnected := true, throttled := false, mem := ⟨fun _ => some 0, []⟩,
          ivq := ⟨true, [], []⟩, calls := [] }
  ovq := ⟨true, [], []⟩
  elem := ⟨0, []⟩
  outNum := 0
  iovIdx := 0
  iovOffset := 0

-- one byte of data and of IV
def smallLayout : Layout := ⟨1, 1, by decide, by decide⟩

-- a request at address 0 whose operation is all zero
def emptyRequest (c : Cmd) : Space :=
  Space.put (fun _ => some 0) smallLayout.cmdOff (toLE 4 c.word)

theorem consolePort_finish_returns_ok :
    (∀ c ∈ (run (cryptodev nullKernel) smallLayout consolePort
        [.guest (.poke (emptyRequest .CIOCFSESSION)), .guest (.queue ⟨0, [(0, 120)]⟩), .notify]).1.st.calls,
        c.2 = -EAGAIN ∨ 0 ≤ c.2) ∧
      (run (cryptodev nullKernel) smallLayout consolePort
        [.guest (.poke (emptyRequest .CIOCFSESSION)), .guest (.queue ⟨0, [(0, 120)]⟩), .notify]).2 ≠ some .abort :=
  (run_returns_ok_iff (cryptodev nullKernel) smallLayout consolePort
    [.guest (.poke (emptyRequest .CIOCFSESSION)), .guest (.queue ⟨0, [(0, 120)]⟩), .notify] rfl rfl).mpr
    (by decide +kernel)

/-- Five bytes of console output abort QEMU: the word behind them is no command. -/
theorem consolePort_text_aborts :
    (run (cryptodev nullKernel) smallLayout consolePort
        [.guest (.queue ⟨0, [(0, 5)]⟩), .notify]).2 = some .abort ∧
      (run (cryptodev nullKernel) smallLayout consolePort
        [.guest (.queue ⟨0, [(0, 5)]⟩), .notify]).1.st.calls = [(0, -EINVAL)] := by
  decide

end VirtioCrypto.Host
