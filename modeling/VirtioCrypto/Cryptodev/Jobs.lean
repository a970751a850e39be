import Mathlib.Algebra.Ring.Nat
import VirtioCrypto.Cryptodev.Async

/-!
# Cryptodev — the order of asynchronous jobs

What becomes of a job between `CIOCASYNCCRYPT` and `CIOCASYNCFETCH`. Only the order needs the
work queue to run one instance of `cryptask_routine` at a time (`OneInstance`); that no job is
lost or run twice, and that all of them get done, holds for any number of them.

* `Queued.step` — a job on `todo` always has a work item, an instance or a caller coming for
  it;
* `run_complete` — every queued job is on its way or has been run, once, and its outcome is kept
  until it is fetched;
* `run_ordered` — one instance at a time runs the jobs in the order they were queued in;
* `work_of_moves`, `work_possible` — every step of the work queue brings it nearer to its end,
  and it can take one until then;
* `poll_promise` — what `poll` reports stays true until another caller takes it.
-/

namespace VirtioCrypto.Cryptodev.Async

open Transition

variable {F J R : Type} [Inhabited R] {exec : F → J → F × J × R} {s s' : Pcr F J R}
  {e : Event F J}

-- ---------------------------------------------------------------------------
-- Nothing is left on todo
-- ---------------------------------------------------------------------------

/-- A job on `todo` will be cut: the work item is pending, an instance has not reached the
cut, or a caller is about to call `queue_work`. -/
def Queued (s : Pcr F J R) : Prop :=
  s.todo ≠ [] → s.pending = true ∨ .entered ∈ s.workers ∨ .queueing ∈ s.calls

theorem Queued.step (hQueued : Queued s) (h : step exec s e = some s') : Queued s' := by
  have hMoves := moves_of_step h
  cases hMoves
  case refused hCall => exact hQueued
  case other => exact hQueued
  case fetch item done hDone =>
    exact fun hTodo => (hQueued hTodo).imp_right (.imp_right (List.mem_append_left _))
  case reuse item free hFree =>
    exact fun hTodo => (hQueued hTodo).imp_right (.imp_right (List.mem_append_left _))
  case claim hFree hRoom =>
    exact fun hTodo => (hQueued hTodo).imp_right (.imp_right (List.mem_append_left _))
  case alloc i kcop hCall =>
    exact fun hTodo => (hQueued hTodo).imp_right (.imp_right (mem_set_of_ne hCall (by simp) _))
  case lose i kcop hCall =>
    exact fun hTodo => (hQueued hTodo).imp_right (.imp_right (mem_eraseIdx_of_ne hCall (by simp)))
  case recycle i item hCall =>
    exact fun hTodo => (hQueued hTodo).imp_right (.imp_right (mem_eraseIdx_of_ne hCall (by simp)))
  case queue i item hCall =>
    exact fun _ => .inr (.inr ((set_perm_cons hCall _).mem_iff.mpr (.head _)))
  case kick i hCall => exact fun _ => .inl rfl
  case start hPending => exact fun _ => .inr (.inl (by simp))
  case cut k hWorker => exact fun hTodo => absurd rfl hTodo
  case crypt k handled item left hWorker =>
    exact fun hTodo => (hQueued hTodo).imp_right (.imp_left (mem_set_of_ne hWorker (by simp) _))
  case splice k handled hWorker =>
    exact fun hTodo => (hQueued hTodo).imp_right (.imp_left (mem_eraseIdx_of_ne hWorker (by simp)))

theorem run_queued [Inhabited J] {kmalloc : Bool} {kzalloc : Nat → Bool} {fcrypt : F}
    {es : List (Event F J)} (hOpen : cryptodevOpen kmalloc kzalloc fcrypt = some s)
    (hRun : run (Async.step exec) s es = some s') : Queued s' := by
  refine run_keeps (fun _ _ _ hInv h => Queued.step hInv h) ?_ hRun
  obtain ⟨-, hNext⟩ := Option.ite_none_right_eq_some.mp hOpen
  obtain ⟨free, -, rfl⟩ := Option.map_eq_some_iff.mp hNext
  exact fun hTodo => absurd rfl hTodo

-- ---------------------------------------------------------------------------
-- No job is lost
-- ---------------------------------------------------------------------------

/-- What the caller of a fetch gets: the job as `crypto_run` left it, and its result. -/
def TodoListItem.out (item : TodoListItem J R) : J × R := (item.kcop, item.result)

/-- What an instance has run and not handed over. -/
def Worker.handled : Worker J R → List (J × R)
  | .entered => []
  | .running handled _ => handled.map TodoListItem.out

/-- What an instance has still to run. -/
def Worker.left : Worker J R → List J
  | .entered => []
  | .running _ left => left.map (·.kcop)

/-- What the jobs that have been run came to, each in the sessions it met. -/
def Pcr.outcomes (exec : F → J → F × J × R) (s : Pcr F J R) : List (J × R) :=
  s.ran.map fun r => (exec r.1 r.2).2

/-- Every queued job has been run or is waiting to be, and every outcome has been fetched or is
waiting to be: none is lost, none is there twice. -/
structure Complete (exec : F → J → F × J × R) (s : Pcr F J R) : Prop where
  queued : (s.ran.map (·.2) ++ s.workers.flatMap Worker.left ++ s.todo.map (·.kcop)).Perm s.queued
  out : (s.fetched ++ s.done.map TodoListItem.out ++ s.workers.flatMap Worker.handled).Perm
    (s.outcomes exec)

open Classical in
theorem Complete.step (hAll : Complete exec s) (h : step exec s e = some s') : Complete exec s' := by
  have hMoves := moves_of_step h
  have hQueued := fun x => hAll.queued.count_eq x
  have hOut := fun x => hAll.out.count_eq x
  simp only [List.count_append] at hQueued hOut
  cases hMoves
  case queue i item hCall =>
    refine ⟨List.perm_iff_count.mpr fun x => ?_, hAll.out⟩
    have hHere := hQueued x
    simp only [List.map_append, List.count_append, List.map_singleton]
    omega
  case fetch item done hDone =>
    refine ⟨hAll.queued, List.perm_iff_count.mpr fun x => ?_⟩
    have hHere := hOut x
    rw [hDone] at hHere
    simp only [Pcr.outcomes, TodoListItem.out, List.map_cons, List.count_append, List.count_cons,
      List.count_nil] at hHere ⊢
    omega
  case start hPending =>
    refine ⟨List.perm_iff_count.mpr fun x => ?_, List.perm_iff_count.mpr fun x => ?_⟩
    · simpa [Worker.left, Nat.add_assoc] using hQueued x
    · simpa [Worker.handled, Pcr.outcomes, Nat.add_assoc] using hOut x
  case cut k hWorker =>
    refine ⟨List.perm_iff_count.mpr fun x => ?_, List.perm_iff_count.mpr fun x => ?_⟩
    · have hHere := hQueued x
      rw [count_flatMap_of hWorker] at hHere
      simp only [List.count_append, count_flatMap_set hWorker, Worker.left, List.map_nil,
        List.count_nil] at hHere ⊢
      omega
    · have hHere := hOut x
      rw [count_flatMap_of hWorker] at hHere
      simp only [List.count_append, count_flatMap_set hWorker, Worker.handled, List.map_nil,
        List.count_nil] at hHere ⊢
      exact hHere
  case crypt k handled item left hWorker =>
    refine ⟨List.perm_iff_count.mpr fun x => ?_, List.perm_iff_count.mpr fun x => ?_⟩
    · have hHere := hQueued x
      rw [count_flatMap_of hWorker] at hHere
      simp only [List.count_append, count_flatMap_set hWorker, Worker.left, List.map_append,
        List.map_cons, List.map_nil, List.count_cons, List.count_nil] at hHere ⊢
      omega
    · have hHere := hOut x
      rw [count_flatMap_of hWorker] at hHere
      simp only [Pcr.outcomes, List.count_append, count_flatMap_set hWorker, Worker.handled,
        TodoListItem.out, List.map_append, List.map_cons, List.map_nil, List.count_cons,
        List.count_nil] at hHere ⊢
      rw [show ((exec s.fcrypt item.kcop).2.1, (exec s.fcrypt item.kcop).2.2) =
        (exec s.fcrypt item.kcop).2 from rfl]
      omega
  case splice k handled hWorker =>
    refine ⟨List.perm_iff_count.mpr fun x => ?_, List.perm_iff_count.mpr fun x => ?_⟩
    · have hHere := hQueued x
      rw [count_flatMap_of hWorker] at hHere
      simpa [Worker.left, Nat.add_assoc] using hHere
    · have hHere := hOut x
      rw [count_flatMap_of hWorker] at hHere
      simp only [List.count_append, Worker.handled, List.map_append] at hHere ⊢
      exact Eq.trans (by omega) hHere
  all_goals exact ⟨hAll.queued, hAll.out⟩

theorem run_complete [Inhabited J] {kmalloc : Bool} {kzalloc : Nat → Bool} {fcrypt : F}
    {es : List (Event F J)} (hOpen : cryptodevOpen kmalloc kzalloc fcrypt = some s)
    (hRun : run (Async.step exec) s es = some s') : Complete exec s' := by
  refine run_keeps (fun _ _ _ hInv h => Complete.step hInv h) ?_ hRun
  obtain ⟨-, hNext⟩ := Option.ite_none_right_eq_some.mp hOpen
  obtain ⟨free, -, rfl⟩ := Option.map_eq_some_iff.mp hNext
  exact ⟨.refl _, .refl _⟩

-- ---------------------------------------------------------------------------
-- The order of the jobs
-- ---------------------------------------------------------------------------

/-- The jobs run one after the other: the sessions afterwards, and what each job came to. -/
def runAll (exec : F → J → F × J × R) : F → List J → F × List (J × R)
  | fcrypt, [] => (fcrypt, [])
  | fcrypt, kcop :: kcops =>
    ((runAll exec (exec fcrypt kcop).1 kcops).1,
      (exec fcrypt kcop).2 :: (runAll exec (exec fcrypt kcop).1 kcops).2)

omit [Inhabited R] in
theorem runAll_append (fcrypt : F) (kcops more : List J) :
    runAll exec fcrypt (kcops ++ more) =
      ((runAll exec (runAll exec fcrypt kcops).1 more).1,
        (runAll exec fcrypt kcops).2 ++ (runAll exec (runAll exec fcrypt kcops).1 more).2) := by
  induction kcops generalizing fcrypt with
  | nil => rfl
  | cons kcop kcops ih =>
    rw [List.cons_append, runAll, ih]
    rfl

/-- The work queue runs one instance of the routine at a time. -/
def OneInstance (s : Pcr F J R) : Event F J → Prop
  | .startWork => s.workers = []
  | _ => True

instance (s : Pcr F J R) (e : Event F J) : Decidable (OneInstance s e) := by
  cases e <;> unfold OneInstance <;> infer_instance

/-- A call that changes the sessions beside the jobs. -/
def Event.isOther : Event F J → Bool
  | .other _ => true
  | _ => false

/-- While nobody else changes the sessions, the jobs find them as the jobs before left them. -/
def Chained (exec : F → J → F × J × R) (fcrypt : F) (s : Pcr F J R) : Prop :=
  runAll exec fcrypt (s.ran.map (·.2)) = (s.fcrypt, s.outcomes exec)

theorem Chained.step {fcrypt : F} (hChain : Chained exec fcrypt s) (hOwn : e.isOther = false)
    (h : step exec s e = some s') : Chained exec fcrypt s' := by
  have hMoves := moves_of_step h
  unfold Chained at hChain ⊢
  cases hMoves
  case crypt k handled item left hWorker =>
    simp only [List.map_append, List.map_singleton, runAll_append, hChain, Pcr.outcomes]
    rfl
  case other => exact Bool.noConfusion hOwn
  all_goals exact hChain

/-- What has been run is a first part of what has been queued, and what has been handed out
is a first part of what running it came to. -/
structure Ordered (exec : F → J → F × J × R) (s : Pcr F J R) : Prop where
  single : s.workers.length ≤ 1
  queued : s.ran.map (·.2) ++ (s.workers.flatMap Worker.left ++ s.todo.map (·.kcop)) = s.queued
  out : s.fetched ++ (s.done.map TodoListItem.out ++ s.workers.flatMap Worker.handled) =
    s.outcomes exec

omit [Inhabited R] in
theorem Ordered.workers_eq {k : Nat} {w : Worker J R} (hOrd : Ordered exec s)
    (h : s.workers[k]? = some w) : s.workers = [w] ∧ k = 0 := by
  have hSingle := hOrd.single
  cases hWorkers : s.workers with
  | nil => simp [hWorkers] at h
  | cons w' rest =>
    rw [hWorkers, List.length_cons] at hSingle
    obtain rfl : rest = [] := List.length_eq_zero_iff.mp (by omega)
    rw [hWorkers] at h
    cases k with
    | zero => simpa using h
    | succ k => simp at h

theorem Ordered.step (hOrd : Ordered exec s) (hOne : OneInstance s e)
    (h : step exec s e = some s') : Ordered exec s' := by
  have hMoves := moves_of_step h
  obtain ⟨hSingle, hQueued, hOut⟩ := id hOrd
  unfold Pcr.outcomes at hOut
  cases hMoves
  case queue i item hCall =>
    refine ⟨hSingle, ?_, hOut⟩
    rw [← hQueued]
    simp
  case fetch item done hDone =>
    refine ⟨hSingle, hQueued, ?_⟩
    rw [Pcr.outcomes, ← hOut, hDone]
    simp [TodoListItem.out]
  case start hPending =>
    have hNone : s.workers = [] := hOne
    refine ⟨by simp [hNone], ?_, ?_⟩
    · rw [← hQueued]
      simp [hNone, Worker.left]
    · rw [Pcr.outcomes, ← hOut]
      simp [hNone, Worker.handled]
  case cut k hWorker =>
    obtain ⟨hWorkers, rfl⟩ := hOrd.workers_eq hWorker
    refine ⟨by simp [hWorkers], ?_, ?_⟩
    · rw [← hQueued]
      simp [hWorkers, Worker.left]
    · rw [Pcr.outcomes, ← hOut]
      simp [hWorkers, Worker.handled]
  case crypt k handled item left hWorker =>
    obtain ⟨hWorkers, rfl⟩ := hOrd.workers_eq hWorker
    refine ⟨by simp [hWorkers], ?_, ?_⟩
    · rw [← hQueued]
      simp [hWorkers, Worker.left]
    · rw [Pcr.outcomes, List.map_append, ← hOut]
      simp [hWorkers, Worker.handled, TodoListItem.out]
  case splice k handled hWorker =>
    obtain ⟨hWorkers, rfl⟩ := hOrd.workers_eq hWorker
    refine ⟨by simp [hWorkers], ?_, ?_⟩
    · rw [← hQueued]
      simp [hWorkers, Worker.left]
    · rw [Pcr.outcomes, ← hOut]
      simp [hWorkers, Worker.handled]
  all_goals exact ⟨hSingle, hQueued, hOut⟩

section Opened

variable [Inhabited J] {kmalloc : Bool} {kzalloc : Nat → Bool} {fcrypt : F} {es : List (Event F J)}

theorem run_ordered (hOpen : cryptodevOpen kmalloc kzalloc fcrypt = some s)
    (hOne : Along (Async.step exec) OneInstance s es)
    (hRun : run (Async.step exec) s es = some s') : Ordered exec s' := by
  refine run_invariant (fun _ _ _ hOrd hOne h => hOrd.step hOne h) ?_ hOne hRun
  obtain ⟨-, hNext⟩ := Option.ite_none_right_eq_some.mp hOpen
  obtain ⟨free, -, rfl⟩ := Option.map_eq_some_iff.mp hNext
  exact ⟨Nat.zero_le 1, rfl, rfl⟩

theorem run_chained (hOpen : cryptodevOpen kmalloc kzalloc fcrypt = some s)
    (hOwn : ∀ e ∈ es, e.isOther = false) (hRun : run (Async.step exec) s es = some s') :
    Chained exec fcrypt s' := by
  refine run_invariant (fun _ _ _ hChain hOwn h => hChain.step hOwn h) ?_ (along_of_forall hOwn) hRun
  obtain ⟨-, hNext⟩ := Option.ite_none_right_eq_some.mp hOpen
  obtain ⟨free, -, rfl⟩ := Option.map_eq_some_iff.mp hNext
  rfl

end Opened

/-- A second caller changes the sessions between the two jobs. -/
def meddled : List (Event Nat Nat) :=
  [.asyncRun 5, .addTodo 0, .asyncRun 7, .addTodo 1, .queueWork 0, .startWork, .cutTodo 0, .cryptoRun 0,
    .other 100, .cryptoRun 0, .spliceDone 0, .asyncFetch, .asyncFetch]

/-- The events of the work queue. -/
def Event.isWork : Event F J → Bool
  | .startWork | .cutTodo _ | .cryptoRun _ | .spliceDone _ => true
  | _ => false

/-- The steps an instance has before it. -/
def Worker.work : Worker J R → Nat
  | .entered => 2
  | .running _ left => left.length + 1

/-- The steps the work queue has before it: start, cut, the jobs, splice. -/
def Pcr.work (s : Pcr F J R) : Nat :=
  3 * s.pending.toNat + (s.workers.map Worker.work).sum + s.todo.length

/-- Each step of the work queue is one of them, and leaves the callers alone. -/
theorem work_of_moves (h : Moves exec s e s') (hWork : e.isWork = true) :
    s'.work + 1 = s.work ∧ s'.calls = s.calls ∧ s'.fetched = s.fetched ∧ s'.queued = s.queued := by
  cases h
  case refused hCall => cases e <;> first | exact Bool.noConfusion hWork | exact Bool.noConfusion hCall
  case start hPending =>
    refine ⟨?_, rfl, rfl, rfl⟩
    simp [Pcr.work, hPending, Worker.work]
    omega
  case cut k hWorker =>
    refine ⟨?_, rfl, rfl, rfl⟩
    have hSet := ((set_perm_cons hWorker (.running [] s.todo)).map Worker.work).sum_nat
    have hOld := ((perm_cons_eraseIdx hWorker).map Worker.work).sum_nat
    simp only [Pcr.work, List.map_cons, List.sum_cons, Worker.work, List.length_nil] at hSet hOld ⊢
    omega
  case crypt k handled item left hWorker =>
    refine ⟨?_, rfl, rfl, rfl⟩
    have hSet := ((set_perm_cons hWorker (.running (handled ++
      [⟨item.addr, (exec s.fcrypt item.kcop).2.1, (exec s.fcrypt item.kcop).2.2⟩]) left)).map
        Worker.work).sum_nat
    have hOld := ((perm_cons_eraseIdx hWorker).map Worker.work).sum_nat
    simp only [Pcr.work, List.map_cons, List.sum_cons, Worker.work, List.length_cons] at hSet hOld ⊢
    omega
  case splice k handled hWorker =>
    refine ⟨?_, rfl, rfl, rfl⟩
    have hOld := ((perm_cons_eraseIdx hWorker).map Worker.work).sum_nat
    simp only [Pcr.work, List.map_cons, List.sum_cons, Worker.work, List.length_nil] at hOld ⊢
    omega
  all_goals exact Bool.noConfusion hWork

/-- With no call in progress the work queue can take a step as long as there is one before it,
also if it runs one instance at a time. -/
theorem work_possible (hQueued : Queued s) (hCalls : s.calls = []) (hWork : s.work ≠ 0) :
    ∃ e s', e.isWork = true ∧ OneInstance s e ∧ step exec s e = some s' := by
  cases hWorkers : s.workers with
  | nil =>
    cases hPending : s.pending with
    | true => exact ⟨.startWork, _, rfl, hWorkers, by simp only [Async.step, hPending, if_true]; rfl⟩
    | false =>
      -- nobody would be coming for what is on todo
      have hTodo : s.todo ≠ [] := by
        intro hNil
        simp [Pcr.work, hPending, hWorkers, hNil] at hWork
      simpa [hPending, hWorkers, hCalls] using hQueued hTodo
  | cons w rest =>
    have hFirst : s.workers[0]? = some w := by rw [hWorkers]; rfl
    cases w with
    | entered => exact ⟨.cutTodo 0, _, rfl, trivial, by simp only [Async.step, hFirst]; rfl⟩
    | running handled left =>
      cases left with
      | nil => exact ⟨.spliceDone 0, _, rfl, trivial, by simp only [Async.step, hFirst]; rfl⟩
      | cons item left => exact ⟨.cryptoRun 0, _, rfl, trivial, by simp only [Async.step, hFirst]; rfl⟩

/-- What a run of the work queue by itself does. -/
theorem work_of_run {ws : List (Event F J)} :
    ∀ {s t : Pcr F J R}, (∀ e ∈ ws, e.isWork = true) → run (Async.step exec) s ws = some t →
      ws.length + t.work = s.work ∧ t.calls = s.calls ∧ t.fetched = s.fetched ∧ t.queued = s.queued := by
  induction ws with
  | nil =>
    intro s t _ hRun
    obtain rfl : s = t := Option.some.inj hRun
    exact ⟨Nat.zero_add _, rfl, rfl, rfl⟩
  | cons e ws ih =>
    intro s t hWork hRun
    obtain ⟨s₁, hOne, hRest⟩ := Option.bind_eq_some_iff.mp hRun
    obtain ⟨hHere, hCalls, hFetched, hQueued⟩ := work_of_moves (moves_of_step hOne) (hWork e (by simp))
    obtain ⟨hLater, hCalls', hFetched', hQueued'⟩ := ih (fun e' he => hWork e' (by simp [he])) hRest
    refine ⟨?_, hCalls'.trans hCalls, hFetched'.trans hFetched, hQueued'.trans hQueued⟩
    rw [List.length_cons]
    omega

omit [Inhabited R] in
theorem work_eq_zero (h : s.work = 0) : s.workers = [] ∧ s.todo = [] := by
  unfold Pcr.work at h
  refine ⟨?_, List.length_eq_zero_iff.mp (by omega)⟩
  cases hWorkers : s.workers with
  | nil => rfl
  | cons w rest =>
    rw [hWorkers, List.map_cons, List.sum_cons] at h
    cases w <;> simp [Worker.work] at h

/-- Once the callers have returned, the work queue by itself brings every queued job to `done`,
whatever it was in the middle of and in whatever order its instances go on: it can take a step
until it has taken as many as were before it (with one instance at a time, too), and then every
job has been run once and its outcome is on `done` unless it had been fetched. -/
theorem run_all_jobs_done [Inhabited J] {kmalloc : Bool} {kzalloc : Nat → Bool} {fcrypt : F}
    {es ws : List (Event F J)} {t : Pcr F J R}
    (hOpen : cryptodevOpen kmalloc kzalloc fcrypt = some s)
    (hRun : run (Async.step exec) s es = some s') (hCalls : s'.calls = [])
    (hWork : ∀ e ∈ ws, e.isWork = true) (hGo : run (Async.step exec) s' ws = some t) :
    ws.length + t.work = s'.work ∧
      (t.work ≠ 0 → ∃ e u, e.isWork = true ∧ OneInstance t e ∧ Async.step exec t e = some u) ∧
      (t.work = 0 → t.todo = [] ∧ t.workers = [] ∧ t.fetched = s'.fetched ∧
        (t.ran.map (·.2)).Perm s'.queued ∧
        (t.fetched ++ t.done.map TodoListItem.out).Perm (t.outcomes exec)) := by
  obtain ⟨hLeft, hCalls', hFetched, hQueued⟩ := work_of_run hWork hGo
  have hThere : run (Async.step exec) s (es ++ ws) = some t := by
    rw [run_append, hRun]
    exact hGo
  refine ⟨hLeft, work_possible (run_queued hOpen hThere) (hCalls'.trans hCalls), fun hZero => ?_⟩
  obtain ⟨hNone, hTodo⟩ := work_eq_zero hZero
  have hAll := run_complete hOpen hThere
  refine ⟨hTodo, hNone, hFetched, ?_, ?_⟩
  · simpa [hNone, hTodo, hQueued] using hAll.queued
  · simpa [hNone] using hAll.out

/-- Two instances under way at once, one of them with both jobs. -/
def twoInstances : List (Event Nat Nat) :=
  [.asyncRun 5, .addTodo 0, .asyncRun 7, .addTodo 1, .queueWork 0, .startWork, .queueWork 0, .startWork,
    .other 100]

theorem run_all_jobs_done_twoInstances :
    ∃ s s' t, cryptodevOpen true (fun _ => true) 0 = some s ∧
      run (Async.step tally) s twoInstances = some s' ∧ s'.calls = [] ∧ s'.queued = [5, 7] ∧
      run (Async.step tally) s' [.cutTodo 1, .cutTodo 0, .cryptoRun 1, .spliceDone 0, .cryptoRun 0,
        .spliceDone 0] = some t ∧
      (t.fetched ++ t.done.map TodoListItem.out).Perm [(5, 105), (7, 112)] :=
  ⟨_, _, _, rfl, rfl, rfl, rfl, rfl,
    ((run_all_jobs_done (show cryptodevOpen true (fun _ => true) 0 = some _ from rfl)
      (show run (Async.step tally) _ twoInstances = some _ from rfl) rfl (by decide)
      (show run (Async.step tally) _ [.cutTodo 1, .cutTodo 0, .cryptoRun 1, .spliceDone 0,
        .cryptoRun 0, .spliceDone 0] = some _ from rfl)).2.2 rfl).2.2.2.2⟩

-- ---------------------------------------------------------------------------
-- poll
-- ---------------------------------------------------------------------------

/-- `cryptodev_poll`: readable, writable. -/
def cryptodevPoll (s : Pcr F J R) : Bool × Bool :=
  (!s.done.isEmpty, !s.free.isEmpty || s.itemcount < MAX_COP_RINGSIZE)

def Event.isFetch : Event F J → Bool
  | .asyncFetch => true
  | _ => false

def Event.isRun : Event F J → Bool
  | .asyncRun _ => true
  | _ => false

/-- The jobs `crypto_async_run` can take at once. -/
def Pcr.slots (s : Pcr F J R) : Nat := s.free.length + (MAX_COP_RINGSIZE - s.itemcount)

/-- Only a fetch takes a completed job away. -/
theorem done_of_moves (h : Moves exec s e s') : s.done.length ≤ s'.done.length + e.isFetch.toNat := by
  cases h
  case fetch item done hDone =>
    rw [hDone]
    exact Nat.le_refl _
  case splice k handled hWorker =>
    simp only [List.length_append]
    omega
  all_goals exact Nat.le_add_right _ _

/-- Only `crypto_async_run` takes a slot away. -/
theorem slots_of_moves (h : Moves exec s e s') : s.slots ≤ s'.slots + e.isRun.toNat := by
  cases h
  case reuse kcop item free hFree =>
    simp only [Pcr.slots, hFree, List.length_cons, Event.isRun, Bool.toNat_true]
    omega
  case claim kcop hFree hRoom =>
    simp only [Pcr.slots, Event.isRun, Bool.toNat_true]
    omega
  case recycle i item hCall =>
    simp only [Pcr.slots, List.length_append]
    omega
  all_goals exact Nat.le_add_right _ _

omit [Inhabited R] in
theorem takeDone_of_length (h : 0 < s.done.length) : takeDone s ≠ none := by
  obtain ⟨item, done, hDone⟩ := List.exists_cons_of_length_pos h
  simp [takeDone, hDone]

omit [Inhabited R] in
theorem takeSlot_of_slots (kcop : J) (h : 0 < s.slots) : takeSlot s kcop ≠ none := by
  unfold takeSlot
  split
  · simp
  next hFree =>
    have hRoom : s.itemcount < MAX_COP_RINGSIZE := by
      simp only [Pcr.slots, hFree, List.length_nil] at h
      omega
    simp [hRoom]

omit [Inhabited R] in
theorem poll_eq : cryptodevPoll s = (decide (0 < s.done.length), decide (0 < s.slots)) := by
  have hOut : (!s.free.isEmpty || decide (s.itemcount < MAX_COP_RINGSIZE)) = decide (0 < s.slots) := by
    unfold Pcr.slots
    cases s.free with
    | nil =>
      simp only [List.isEmpty_nil, Bool.not_true, Bool.false_or, List.length_nil, decide_eq_decide]
      omega
    | cons item free =>
      rw [List.isEmpty_cons, Bool.not_false, Bool.true_or, List.length_cons]
      exact (decide_eq_true (by omega)).symm
  rw [cryptodevPoll, hOut]
  cases s.done <;> simp

/-- What `poll` reports is kept against everybody: jobs and slots last for as many other calls as
there are of them, whatever callers, instances and allocations do in between. So after `POLLIN`
only another fetch can make a fetch fail, and after `POLLOUT` only another job. -/
theorem poll_promise {es : List (Event F J)} {t : Pcr F J R}
    (hRun : run (Async.step exec) s es = some t) (kcop : J) :
    (es.countP Event.isFetch < s.done.length → takeDone t ≠ none) ∧
      (es.countP Event.isRun < s.slots → takeSlot t kcop ≠ none) ∧
      ((cryptodevPoll s).1 = true → (∀ e ∈ es, e.isFetch = false) → takeDone t ≠ none) ∧
      ((cryptodevPoll s).2 = true → (∀ e ∈ es, e.isRun = false) → takeSlot t kcop ≠ none) := by
  have hDone := run_spends (fun _ _ _ h => done_of_moves (moves_of_step h)) hRun
  have hSlots := run_spends (fun _ _ _ h => slots_of_moves (moves_of_step h)) hRun
  have hFetch : es.countP Event.isFetch < s.done.length → takeDone t ≠ none :=
    fun hFew => takeDone_of_length (by omega)
  have hJob : es.countP Event.isRun < s.slots → takeSlot t kcop ≠ none :=
    fun hFew => takeSlot_of_slots kcop (by omega)
  rw [poll_eq]
  refine ⟨hFetch, hJob, fun hIn hNone => hFetch ?_, fun hOut hNone => hJob ?_⟩
  · rw [List.countP_eq_zero.mpr (by simpa using hNone)]
    simpa using hIn
  · rw [List.countP_eq_zero.mpr (by simpa using hNone)]
    simpa using hOut

/-- After `twoJobs` one job is on `done`; another caller's job and the work queue come before the
fetch. -/
theorem poll_promise_twoJobs :
    ∃ s s' t, cryptodevOpen true (fun _ => true) 0 = some s ∧
      run (Async.step tally) s twoJobs = some s' ∧ (cryptodevPoll s').1 = true ∧
      run (Async.step tally) s' [.asyncRun 3, .startWork, .other 9, .addTodo 0, .cutTodo 0] = some t ∧
      takeDone t ≠ none :=
  have hOpen : cryptodevOpen true (fun _ => true) 0 = some _ := rfl
  have hRun : run (Async.step tally) _ twoJobs = some _ := rfl
  have hGo : run (Async.step tally) _
      [.asyncRun 3, .startWork, .other 9, .addTodo 0, .cutTodo 0] = some _ := rfl
  ⟨_, _, _, hOpen, hRun, rfl, hGo, (poll_promise hGo 0).2.2.1 rfl (by decide)⟩

end VirtioCrypto.Cryptodev.Async
