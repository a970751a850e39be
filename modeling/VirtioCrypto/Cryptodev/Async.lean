import Mathlib.Data.List.Perm.Basic
import Mathlib.Logic.Relation
import VirtioCrypto.Transition

/-!
# Cryptodev — asynchronous jobs

`CIOCASYNCCRYPT` hands a job to the work queue and `CIOCASYNCFETCH` collects the
first completed one. The jobs travel in items (`struct todo_list_item`) over three
lists, each with its own lock: `free`, `todo`, `done`. A step here is one critical
section, or one stretch of code between two of them, of a caller or of
`cryptask_routine`; callers and instances of the routine interleave freely.

What `crypto_run` does to the sessions and to the job is the parameter `exec`.

* `moves_of_step` — what a step can do;
* `live_of_moves`, `run_accounted` — every item ever allocated is in exactly one place, and
  `itemcount` counts them together with the slots lost to a failed allocation;
* `run_lost` — a slot is lost with each failed allocation, and never otherwise;
* `run_release_frees_all`, `run_busy_iff` — what that means for `release` and for `-EBUSY`.
-/

namespace VirtioCrypto.Cryptodev.Async

open Transition

variable {F J R : Type}

def DEF_COP_RINGSIZE : Nat := 16

def MAX_COP_RINGSIZE : Nat := 64

-- ---------------------------------------------------------------------------
-- State
-- ---------------------------------------------------------------------------

/-- `struct todo_list_item`; `addr` tells the allocated items apart. -/
structure TodoListItem (J R : Type) where
  addr : Nat
  kcop : J
  result : R

/-- A caller between two critical sections. -/
inductive Call (J R : Type)
  /-- `crypto_async_run` has raised `itemcount` and not called `kzalloc` yet. -/
  | claimed (kcop : J)
  /-- `crypto_async_run` has its item, the job copied into it. -/
  | holding (item : TodoListItem J R)
  /-- The item is on `todo`, `queue_work` not called yet. -/
  | queueing
  /-- `crypto_async_fetch` has taken the item off `done`. -/
  | fetching (item : TodoListItem J R)

/-- An instance of `cryptask_routine`: before it cuts `todo`, or with its list
`tmp`, of which `handled` have been run. -/
inductive Worker (J R : Type)
  | entered
  | running (handled left : List (TodoListItem J R))

/-- `struct crypt_priv`, the callers inside it and the state of its work item. The
last three fields record what has happened: the jobs queued, the jobs run with the
sessions they met, the jobs handed out. -/
structure Pcr (F J R : Type) where
  fcrypt : F
  free : List (TodoListItem J R)
  todo : List (TodoListItem J R)
  done : List (TodoListItem J R)
  itemcount : Nat
  pending : Bool
  workers : List (Worker J R)
  calls : List (Call J R)
  -- items allocated so far: the address of the next one
  next : Nat
  -- slots counted in itemcount for which kzalloc failed
  lost : Nat
  queued : List J
  ran : List (F × J)
  fetched : List (J × R)

inductive Event (F J : Type)
  | asyncRun (kcop : J)
  | kzalloc (i : Nat) (ok : Bool)
  | addTodo (i : Nat)
  | queueWork (i : Nat)
  | asyncFetch
  | addFree (i : Nat)
  | startWork
  | cutTodo (k : Nat)
  | cryptoRun (k : Nat)
  | spliceDone (k : Nat)
  /-- Some other call changes the sessions. -/
  | other (fcrypt : F)

-- ---------------------------------------------------------------------------
-- Open and release
-- ---------------------------------------------------------------------------

/-- The loop of `cryptodev_open`: each new item goes to the head of `free`. `none` is
`-ENOMEM`. -/
def openItems [Inhabited J] [Inhabited R] (kzalloc : Nat → Bool) :
    Nat → Option (List (TodoListItem J R))
  | 0 => some []
  | n + 1 =>
    (openItems kzalloc n).bind fun free =>
      if kzalloc n then some (⟨n, default, default⟩ :: free) else none

/-- `cryptodev_open`; the first allocation is that of the structure itself. -/
def cryptodevOpen [Inhabited J] [Inhabited R] (kmalloc : Bool) (kzalloc : Nat → Bool)
    (fcrypt : F) : Option (Pcr F J R) :=
  if kmalloc then
    (openItems kzalloc DEF_COP_RINGSIZE).map fun free =>
      { fcrypt := fcrypt, free := free, todo := [], done := [], itemcount := DEF_COP_RINGSIZE,
        pending := false, workers := [], calls := [], next := DEF_COP_RINGSIZE, lost := 0,
        queued := [], ran := [], fetched := [] }
  else none

/-- `cryptodev_release`, once the last caller has returned and `cancel_work_sync`
has waited for the routine: the items in the order they are freed. A pending work
item is cancelled, so jobs on `todo` are dropped. -/
def cryptodevRelease (s : Pcr F J R) : List (TodoListItem J R) := s.free ++ s.todo ++ s.done

-- ---------------------------------------------------------------------------
-- Steps
-- ---------------------------------------------------------------------------

/-- The section of `crypto_async_run` under `free.lock`; `none` is `-EBUSY`. -/
def takeSlot (s : Pcr F J R) (kcop : J) : Option (Pcr F J R) :=
  match s.free with
  | item :: free =>
    some { s with free := free, calls := s.calls ++ [.holding { item with kcop := kcop }] }
  | [] =>
    if s.itemcount < MAX_COP_RINGSIZE then
      some { s with itemcount := s.itemcount + 1, calls := s.calls ++ [.claimed kcop] }
    else none

/-- The section of `crypto_async_fetch` under `done.lock`; `none` is `-EBUSY`. The
job and its result are the caller's from here on. -/
def takeDone (s : Pcr F J R) : Option (Pcr F J R) :=
  match s.done with
  | item :: done =>
    some { s with done := done, calls := s.calls ++ [.fetching item],
                  fetched := s.fetched ++ [(item.kcop, item.result)] }
  | [] => none

section Steps

variable [Inhabited R] (exec : F → J → F × J × R)

/-- One step of a caller. -/
def stepCall (s : Pcr F J R) (i : Nat) : Call J R → Event F J → Option (Pcr F J R)
  | .claimed kcop, .kzalloc _ true =>
    some { s with calls := s.calls.set i (.holding ⟨s.next, kcop, default⟩), next := s.next + 1 }
  -- -EFAULT: itemcount stays raised
  | .claimed _, .kzalloc _ false =>
    some { s with calls := s.calls.eraseIdx i, lost := s.lost + 1 }
  | .holding item, .addTodo _ =>
    some { s with calls := s.calls.set i .queueing, todo := s.todo ++ [item],
                  queued := s.queued ++ [item.kcop] }
  -- queue_work of a work item that is pending already does nothing
  | .queueing, .queueWork _ =>
    some { s with calls := s.calls.eraseIdx i, pending := true }
  | .fetching item, .addFree _ =>
    some { s with calls := s.calls.eraseIdx i, free := s.free ++ [item] }
  | _, _ => none

/-- One step of an instance of `cryptask_routine`. -/
def stepWorker (s : Pcr F J R) (k : Nat) : Worker J R → Event F J → Option (Pcr F J R)
  | .entered, .cutTodo _ =>
    some { s with workers := s.workers.set k (.running [] s.todo), todo := [] }
  | .running handled (item :: left), .cryptoRun _ =>
    some { s with
      fcrypt := (exec s.fcrypt item.kcop).1
      workers := s.workers.set k (.running (handled ++
        [⟨item.addr, (exec s.fcrypt item.kcop).2.1, (exec s.fcrypt item.kcop).2.2⟩]) left)
      ran := s.ran ++ [(s.fcrypt, item.kcop)] }
  | .running handled [], .spliceDone _ =>
    some { s with workers := s.workers.eraseIdx k, done := s.done ++ handled }
  | _, _ => none

def step (s : Pcr F J R) (e : Event F J) : Option (Pcr F J R) :=
  match e with
  | .asyncRun kcop => some ((takeSlot s kcop).getD s)
  | .asyncFetch => some ((takeDone s).getD s)
  | .kzalloc i _ | .addTodo i | .queueWork i | .addFree i =>
    s.calls[i]?.bind fun call => stepCall s i call e
  | .startWork =>
    if s.pending then some { s with pending := false, workers := s.workers ++ [.entered] }
    else none
  | .cutTodo k | .cryptoRun k | .spliceDone k =>
    s.workers[k]?.bind fun worker => stepWorker exec s k worker e
  | .other fcrypt => some { s with fcrypt := fcrypt }

end Steps

-- ---------------------------------------------------------------------------
-- What a step can do
-- ---------------------------------------------------------------------------

/-- The two calls that can be refused. -/
def Event.isCall : Event F J → Bool
  | .asyncRun _ | .asyncFetch => true
  | _ => false

/-- The steps that happen, each with what it changes. -/
inductive Moves [Inhabited R] (exec : F → J → F × J × R) (s : Pcr F J R) : Event F J → Pcr F J R → Prop
  | refused {e} (hCall : e.isCall = true) : Moves exec s e s
  | reuse {kcop item free} (hFree : s.free = item :: free) :
      Moves exec s (.asyncRun kcop)
        { s with free := free, calls := s.calls ++ [.holding { item with kcop := kcop }] }
  | claim {kcop} (hFree : s.free = []) (hRoom : s.itemcount < MAX_COP_RINGSIZE) :
      Moves exec s (.asyncRun kcop)
        { s with itemcount := s.itemcount + 1, calls := s.calls ++ [.claimed kcop] }
  | alloc {i kcop} (hCall : s.calls[i]? = some (.claimed kcop)) :
      Moves exec s (.kzalloc i true)
        { s with calls := s.calls.set i (.holding ⟨s.next, kcop, default⟩), next := s.next + 1 }
  | lose {i kcop} (hCall : s.calls[i]? = some (.claimed kcop)) :
      Moves exec s (.kzalloc i false)
        { s with calls := s.calls.eraseIdx i, lost := s.lost + 1 }
  | queue {i item} (hCall : s.calls[i]? = some (.holding item)) :
      Moves exec s (.addTodo i)
        { s with calls := s.calls.set i .queueing, todo := s.todo ++ [item],
                 queued := s.queued ++ [item.kcop] }
  | kick {i} (hCall : s.calls[i]? = some .queueing) :
      Moves exec s (.queueWork i) { s with calls := s.calls.eraseIdx i, pending := true }
  | fetch {item done} (hDone : s.done = item :: done) :
      Moves exec s .asyncFetch
        { s with done := done, calls := s.calls ++ [.fetching item],
                 fetched := s.fetched ++ [(item.kcop, item.result)] }
  | recycle {i item} (hCall : s.calls[i]? = some (.fetching item)) :
      Moves exec s (.addFree i) { s with calls := s.calls.eraseIdx i, free := s.free ++ [item] }
  | start (hPending : s.pending = true) :
      Moves exec s .startWork { s with pending := false, workers := s.workers ++ [.entered] }
  | cut {k} (hWorker : s.workers[k]? = some .entered) :
      Moves exec s (.cutTodo k)
        { s with workers := s.workers.set k (.running [] s.todo), todo := [] }
  | crypt {k handled item left} (hWorker : s.workers[k]? = some (.running handled (item :: left))) :
      Moves exec s (.cryptoRun k)
        { s with
          fcrypt := (exec s.fcrypt item.kcop).1
          workers := s.workers.set k (.running (handled ++
            [⟨item.addr, (exec s.fcrypt item.kcop).2.1, (exec s.fcrypt item.kcop).2.2⟩]) left)
          ran := s.ran ++ [(s.fcrypt, item.kcop)] }
  | splice {k handled} (hWorker : s.workers[k]? = some (.running handled [])) :
      Moves exec s (.spliceDone k)
        { s with workers := s.workers.eraseIdx k, done := s.done ++ handled }
  | other {fcrypt} : Moves exec s (.other fcrypt) { s with fcrypt := fcrypt }

section Inversion

variable [Inhabited R] {exec : F → J → F × J × R}

theorem moves_of_takeSlot {s : Pcr F J R} {kcop : J} :
    Moves exec s (.asyncRun kcop) ((takeSlot s kcop).getD s) := by
  unfold takeSlot
  split
  next item free hFree => exact .reuse hFree
  next hFree =>
    split
    next hRoom => exact .claim hFree hRoom
    next => exact .refused rfl

theorem moves_of_takeDone {s : Pcr F J R} : Moves exec s .asyncFetch ((takeDone s).getD s) := by
  unfold takeDone
  split
  next item done hDone => exact .fetch hDone
  next => exact .refused rfl

theorem moves_of_step {s s' : Pcr F J R} {e : Event F J} (h : step exec s e = some s') :
    Moves exec s e s' := by
  cases e with
  | asyncRun kcop => exact Option.some.inj h ▸ moves_of_takeSlot
  | asyncFetch => exact Option.some.inj h ▸ moves_of_takeDone
  | other fcrypt => exact Option.some.inj h ▸ .other
  | startWork =>
    obtain ⟨hPending, hNext⟩ := Option.ite_none_right_eq_some.mp h
    exact Option.some.inj hNext ▸ .start hPending
  | kzalloc i ok =>
    obtain ⟨call, hCall, hNext⟩ := Option.bind_eq_some_iff.mp h
    cases call <;> cases ok <;> simp only [stepCall, Option.some.injEq, reduceCtorEq] at hNext
    · exact hNext ▸ .lose hCall
    · exact hNext ▸ .alloc hCall
  | addTodo i =>
    obtain ⟨call, hCall, hNext⟩ := Option.bind_eq_some_iff.mp h
    cases call <;> simp only [stepCall, Option.some.injEq, reduceCtorEq] at hNext
    exact hNext ▸ .queue hCall
  | queueWork i =>
    obtain ⟨call, hCall, hNext⟩ := Option.bind_eq_some_iff.mp h
    cases call <;> simp only [stepCall, Option.some.injEq, reduceCtorEq] at hNext
    exact hNext ▸ .kick hCall
  | addFree i =>
    obtain ⟨call, hCall, hNext⟩ := Option.bind_eq_some_iff.mp h
    cases call <;> simp only [stepCall, Option.some.injEq, reduceCtorEq] at hNext
    exact hNext ▸ .recycle hCall
  | cutTodo k =>
    obtain ⟨worker, hWorker, hNext⟩ := Option.bind_eq_some_iff.mp h
    cases worker <;> simp only [stepWorker, Option.some.injEq, reduceCtorEq] at hNext
    exact hNext ▸ .cut hWorker
  | cryptoRun k =>
    obtain ⟨worker, hWorker, hNext⟩ := Option.bind_eq_some_iff.mp h
    rcases worker with _ | ⟨handled, _ | ⟨item, left⟩⟩ <;>
      simp only [stepWorker, Option.some.injEq, reduceCtorEq] at hNext
    exact hNext ▸ .crypt hWorker
  | spliceDone k =>
    obtain ⟨worker, hWorker, hNext⟩ := Option.bind_eq_some_iff.mp h
    rcases worker with _ | ⟨handled, _ | ⟨item, left⟩⟩ <;>
      simp only [stepWorker, Option.some.injEq, reduceCtorEq] at hNext
    exact hNext ▸ .splice hWorker

end Inversion

-- ---------------------------------------------------------------------------
-- A sample
-- ---------------------------------------------------------------------------

/-- Jobs that add to a total and result in it. -/
def tally (total kcop : Nat) : Nat × Nat × Nat := (total + kcop, kcop, total + kcop)

/-- Two callers queue a job each, the second while the routine is on its way; one fetches. -/
def twoJobs : List (Event Nat Nat) :=
  [.asyncRun 5, .asyncRun 7, .addTodo 0, .queueWork 0, .startWork, .addTodo 0, .cutTodo 0,
    .cryptoRun 0, .queueWork 0, .cryptoRun 0, .spliceDone 0, .asyncFetch, .addFree 0]

-- ---------------------------------------------------------------------------
-- Where the items are
-- ---------------------------------------------------------------------------

def Call.addrs : Call J R → List Nat
  | .holding item | .fetching item => [item.addr]
  | .claimed _ | .queueing => []

def Call.isClaim : Call J R → Bool
  | .claimed _ => true
  | _ => false

def Worker.addrs : Worker J R → List Nat
  | .entered => []
  | .running handled left => handled.map (·.addr) ++ left.map (·.addr)

/-- The items in any list, in the hands of a caller or of the routine. -/
def Pcr.live (s : Pcr F J R) : List Nat :=
  s.free.map (·.addr) ++ s.todo.map (·.addr) ++ s.done.map (·.addr) ++
    s.workers.flatMap Worker.addrs ++ s.calls.flatMap Call.addrs

/-- Slots counted in `itemcount` whose item is still to be allocated. -/
def Pcr.claims (s : Pcr F J R) : Nat := s.calls.countP Call.isClaim

section Parties

variable {α : Type} {l : List α} {i : Nat} {a : α}

theorem perm_cons_eraseIdx (h : l[i]? = some a) : l.Perm (a :: l.eraseIdx i) := by
  obtain ⟨hi, rfl⟩ := List.getElem?_eq_some_iff.mp h
  exact (List.getElem_cons_eraseIdx_perm hi).symm

theorem set_perm_cons (h : l[i]? = some a) (b : α) : (l.set i b).Perm (b :: l.eraseIdx i) :=
  List.set_perm_cons_eraseIdx (List.getElem?_eq_some_iff.mp h).1 b

/-- What the parties hold together, one of them set apart. -/
theorem count_flatMap_of {β : Type} [BEq β] (h : l[i]? = some a) (f : α → List β) (x : β) :
    (l.flatMap f).count x = (f a).count x + ((l.eraseIdx i).flatMap f).count x := by
  rw [((perm_cons_eraseIdx h).flatMap_right f).count_eq x, List.flatMap_cons, List.count_append]

theorem count_flatMap_set {β : Type} [BEq β] (h : l[i]? = some a) (b : α) (f : α → List β)
    (x : β) :
    ((l.set i b).flatMap f).count x = (f b).count x + ((l.eraseIdx i).flatMap f).count x := by
  rw [((set_perm_cons h b).flatMap_right f).count_eq x, List.flatMap_cons, List.count_append]

theorem mem_eraseIdx_of_ne {b : α} (h : l[i]? = some a) (hNe : b ≠ a) (hMem : b ∈ l) :
    b ∈ l.eraseIdx i := by
  rcases List.mem_cons.mp ((perm_cons_eraseIdx h).mem_iff.mp hMem) with hEq | hRest
  · exact absurd hEq hNe
  · exact hRest

theorem mem_set_of_ne {b : α} (h : l[i]? = some a) (hNe : b ≠ a) (c : α) (hMem : b ∈ l) :
    b ∈ l.set i c :=
  (set_perm_cons h c).mem_iff.mpr (.tail _ (mem_eraseIdx_of_ne h hNe hMem))

end Parties

/-- How often an item occurs, list by list. -/
theorem Pcr.count_live (s : Pcr F J R) (x : Nat) :
    s.live.count x = (s.free.map (·.addr)).count x + (s.todo.map (·.addr)).count x +
      (s.done.map (·.addr)).count x + (s.workers.flatMap Worker.addrs).count x +
      (s.calls.flatMap Call.addrs).count x := by
  simp only [Pcr.live, List.count_append]

variable [Inhabited R] {exec : F → J → F × J × R} {s s' : Pcr F J R} {e : Event F J}

/-- No step loses or doubles an item; `kzalloc` adds one. -/
theorem live_of_moves (h : Moves exec s e s') :
    s'.next = s.next ∧ s'.live.Perm s.live ∨
      s'.next = s.next + 1 ∧ s'.live.Perm (s.next :: s.live) := by
  cases h
  case alloc i kcop hCall =>
    refine .inr ⟨rfl, List.perm_iff_count.mpr fun x => ?_⟩
    rw [List.count_cons, Pcr.count_live, Pcr.count_live, count_flatMap_set hCall,
      count_flatMap_of hCall]
    simp [Call.addrs, List.count_cons]
    omega
  case refused hCall => exact .inl ⟨rfl, .refl _⟩
  all_goals
    refine .inl ⟨rfl, List.perm_iff_count.mpr fun x => ?_⟩
    rw [Pcr.count_live, Pcr.count_live]
  case reuse kcop item free hFree =>
    simp [hFree, Call.addrs, List.count_append, List.count_cons]
    omega
  case claim kcop hFree hRoom => simp [Call.addrs]
  case lose i kcop hCall =>
    rw [count_flatMap_of hCall]
    simp [Call.addrs]
  case queue i item hCall =>
    rw [count_flatMap_set hCall, count_flatMap_of hCall]
    simp [Call.addrs, List.count_append]
    omega
  case kick i hCall =>
    rw [count_flatMap_of hCall]
    simp [Call.addrs]
  case fetch item done hDone =>
    simp [hDone, Call.addrs, List.count_append, List.count_cons]
    omega
  case recycle i item hCall =>
    rw [count_flatMap_of hCall]
    simp [Call.addrs, List.count_append]
    omega
  case start hPending => simp [Worker.addrs]
  case cut k hWorker =>
    rw [count_flatMap_set hWorker, count_flatMap_of hWorker]
    simp [Worker.addrs]
    omega
  case crypt k handled item left hWorker =>
    rw [count_flatMap_set hWorker, count_flatMap_of hWorker]
    simp [Worker.addrs, List.count_append, List.count_cons]
  case splice k handled hWorker =>
    rw [count_flatMap_of hWorker]
    simp [Worker.addrs, List.count_append]
    omega

/-- Every item ever allocated is somewhere, once, and `itemcount` counts the items, the
slots whose item is still to come, and the slots lost. -/
structure Accounted (s : Pcr F J R) : Prop where
  live : s.live.Perm (List.range s.next)
  count : s.next + s.claims + s.lost = s.itemcount
  bound : s.itemcount ≤ MAX_COP_RINGSIZE

/-- The slots promised: only the two outcomes of `kzalloc` and a new claim move them. -/
theorem claims_of_moves (h : Moves exec s e s') :
    s.next + s.claims + s.lost + s'.itemcount = s'.next + s'.claims + s'.lost + s.itemcount := by
  cases h
  case alloc i kcop hCall =>
    simp only [Pcr.claims, (set_perm_cons hCall _).countP_eq,
      (perm_cons_eraseIdx hCall).countP_eq Call.isClaim, List.countP_cons, Call.isClaim]
    simp
    omega
  case lose i kcop hCall =>
    simp only [Pcr.claims, (perm_cons_eraseIdx hCall).countP_eq Call.isClaim, List.countP_cons,
      Call.isClaim]
    simp
    omega
  case queue i item hCall =>
    simp only [Pcr.claims, (set_perm_cons hCall _).countP_eq,
      (perm_cons_eraseIdx hCall).countP_eq Call.isClaim, List.countP_cons, Call.isClaim]
    simp
  case kick i hCall =>
    simp only [Pcr.claims, (perm_cons_eraseIdx hCall).countP_eq Call.isClaim, List.countP_cons,
      Call.isClaim]
    simp
  case recycle i item hCall =>
    simp only [Pcr.claims, (perm_cons_eraseIdx hCall).countP_eq Call.isClaim, List.countP_cons,
      Call.isClaim]
    simp
  all_goals simp [Pcr.claims, Call.isClaim, List.countP_append]
  all_goals omega

theorem itemcount_of_moves (h : Moves exec s e s') (hBound : s.itemcount ≤ MAX_COP_RINGSIZE) :
    s'.itemcount ≤ MAX_COP_RINGSIZE := by
  cases h
  case claim kcop hFree hRoom => exact hRoom
  all_goals exact hBound

theorem Accounted.step (hAcc : Accounted s) (h : step exec s e = some s') : Accounted s' := by
  have hMoves := moves_of_step h
  refine ⟨?_, ?_, itemcount_of_moves hMoves hAcc.bound⟩
  · rcases live_of_moves hMoves with ⟨hNext, hLive⟩ | ⟨hNext, hLive⟩
    · rw [hNext]
      exact hLive.trans hAcc.live
    · rw [hNext, List.range_succ]
      exact (hLive.trans (hAcc.live.cons _)).trans (List.perm_append_singleton _ _).symm
  · have hClaims := claims_of_moves hMoves
    have hCount := hAcc.count
    omega

theorem openItems_addr [Inhabited J] {kzalloc : Nat → Bool} {n : Nat}
    {free : List (TodoListItem J R)} (h : openItems kzalloc n = some free) :
    (free.map (·.addr)).Perm (List.range n) := by
  induction n generalizing free with
  | zero =>
    obtain rfl := Option.some.inj h
    rfl
  | succ n ih =>
    obtain ⟨rest, hRest, hNext⟩ := Option.bind_eq_some_iff.mp h
    obtain ⟨-, hNext⟩ := Option.ite_none_right_eq_some.mp hNext
    obtain rfl := Option.some.inj hNext
    rw [List.range_succ]
    exact ((ih hRest).cons _).trans (List.perm_append_singleton _ _).symm

theorem Accounted.opened [Inhabited J] {kmalloc : Bool} {kzalloc : Nat → Bool} {fcrypt : F}
    (h : cryptodevOpen kmalloc kzalloc fcrypt = some s) : Accounted s := by
  obtain ⟨-, hNext⟩ := Option.ite_none_right_eq_some.mp h
  obtain ⟨free, hFree, rfl⟩ := Option.map_eq_some_iff.mp hNext
  exact ⟨by simpa [Pcr.live] using openItems_addr hFree, rfl, show 16 ≤ 64 by decide⟩

theorem run_accounted [Inhabited J] {kmalloc : Bool} {kzalloc : Nat → Bool} {fcrypt : F}
    {es : List (Event F J)} (hOpen : cryptodevOpen kmalloc kzalloc fcrypt = some s)
    (hRun : run (Async.step exec) s es = some s') : Accounted s' :=
  run_keeps (fun _ _ _ hAcc h => hAcc.step h) (Accounted.opened hOpen) hRun

/-- A `kzalloc` of `crypto_async_run` that fails. -/
def Event.failsAlloc : Event F J → Bool
  | .kzalloc _ false => true
  | _ => false

theorem lost_of_moves (h : Moves exec s e s') : s'.lost = s.lost + e.failsAlloc.toNat := by
  cases h
  case refused hCall => cases e <;> first | rfl | exact Bool.noConfusion hCall
  all_goals rfl

/-- A slot is lost for good with each failed allocation. -/
theorem run_lost [Inhabited J] {kmalloc : Bool} {kzalloc : Nat → Bool} {fcrypt : F}
    {es : List (Event F J)} (hOpen : cryptodevOpen kmalloc kzalloc fcrypt = some s)
    (hRun : run (Async.step exec) s es = some s') : s'.lost = es.countP Event.failsAlloc := by
  have hNone : s.lost = 0 := by
    obtain ⟨-, hNext⟩ := Option.ite_none_right_eq_some.mp hOpen
    obtain ⟨free, -, rfl⟩ := Option.map_eq_some_iff.mp hNext
    rfl
  have hCount := run_counts (fun _ _ _ h => lost_of_moves (moves_of_step h)) hRun
  rw [hCount, hNone, Nat.zero_add]

/-- For every run from `cryptodev_open`, with any number of callers and of instances of the
routine: every item ever allocated is in one place, a list or the hands of a caller or an
instance. So what `cryptodev_release` frees, once they have all returned, are the items ever
allocated, each once, and it finds as many as `itemcount` says exactly when no allocation
failed. -/
theorem run_release_frees_all [Inhabited J] {kmalloc : Bool} {kzalloc : Nat → Bool} {fcrypt : F}
    {es : List (Event F J)} (hOpen : cryptodevOpen kmalloc kzalloc fcrypt = some s)
    (hRun : run (Async.step exec) s es = some s') :
    s'.live.Perm (List.range s'.next) ∧
      (s'.calls = [] → s'.workers = [] →
        ((cryptodevRelease s').map (·.addr)).Perm (List.range s'.next) ∧
          (cryptodevRelease s').length + s'.lost = s'.itemcount ∧
          ((cryptodevRelease s').length = s'.itemcount ↔ s'.lost = 0)) := by
  have hAcc := run_accounted hOpen hRun
  refine ⟨hAcc.live, fun hCalls hIdle => ?_⟩
  have hLive : (cryptodevRelease s').map (·.addr) = s'.live := by
    simp [cryptodevRelease, Pcr.live, hCalls, hIdle]
  have hLen : (cryptodevRelease s').length = s'.next := by
    have hLen := hAcc.live.length_eq
    rwa [← hLive, List.length_map, List.length_range] at hLen
  have hCount := hAcc.count
  have hClaims : s'.claims = 0 := by simp [Pcr.claims, hCalls]
  exact ⟨hLive ▸ hAcc.live, by omega, by omega⟩

theorem run_release_frees_all_twoJobs :
    ∃ s s', cryptodevOpen true (fun _ => true) 0 = some s ∧
      run (Async.step tally) s (twoJobs ++ [.asyncFetch, .addFree 0]) = some s' ∧ s'.calls = [] ∧
      s'.workers = [] ∧ ((cryptodevRelease s').map (·.addr)).Perm (List.range 16) :=
  ⟨_, _, rfl, rfl, rfl, rfl,
    ((run_release_frees_all (show cryptodevOpen true (fun _ => true) 0 = some _ from rfl)
      (show run (Async.step tally) _ (twoJobs ++ [.asyncFetch, .addFree 0]) = some _ from rfl)).2
      rfl rfl).1⟩

/-- `crypto_async_run` refuses a job exactly when no item is free and the items there are, the
allocations under way and the failed ones use up the 64 slots; items and failures together never
take more. -/
theorem run_busy_iff [Inhabited J] {kmalloc : Bool} {kzalloc : Nat → Bool} {fcrypt : F}
    {es : List (Event F J)} (hOpen : cryptodevOpen kmalloc kzalloc fcrypt = some s)
    (hRun : run (Async.step exec) s es = some s') (kcop : J) :
    (takeSlot s' kcop = none ↔ s'.free = [] ∧
        s'.live.length + s'.claims + es.countP Event.failsAlloc = MAX_COP_RINGSIZE) ∧
      s'.live.length + es.countP Event.failsAlloc ≤ MAX_COP_RINGSIZE := by
  have hAcc := run_accounted hOpen hRun
  have hCount := hAcc.count
  have hBound := hAcc.bound
  have hLive := hAcc.live.length_eq
  rw [List.length_range] at hLive
  rw [run_lost hOpen hRun, ← hLive] at hCount
  refine ⟨?_, by omega⟩
  unfold takeSlot
  split
  next item free hFree => simp [hFree]
  next hFree =>
    rw [ite_eq_right_iff]
    constructor
    · intro hNone
      have hFull : ¬ s'.itemcount < MAX_COP_RINGSIZE := fun h => nomatch hNone h
      exact ⟨hFree, by omega⟩
    · rintro ⟨-, hFull⟩ hRoom
      omega

/-- All 64 slots taken by callers, the first allocation of one failing. -/
def manyJobs : List (Event Nat Nat) :=
  List.replicate 64 (.asyncRun 5) ++ .kzalloc 16 false ::
    (List.range 47).map fun k => .kzalloc (16 + k) true

/-- With 63 items in the hands of callers there is no slot left. -/
theorem run_busy_iff_manyJobs :
    ∃ s s', cryptodevOpen true (fun _ => true) 0 = some s ∧
      run (Async.step tally) s manyJobs = some s' ∧ s'.live.length = 63 ∧ takeSlot s' 9 = none := by
  have hAll : ((cryptodevOpen true (fun _ => true) 0).bind fun s =>
      run (Async.step tally) s manyJobs).map (fun s => (s.free.length, s.live.length, s.claims)) =
        some (0, 63, 0) := by
    decide +kernel
  obtain ⟨s', hEnd, hCounts⟩ := Option.map_eq_some_iff.mp hAll
  obtain ⟨s, hOpen, hRun⟩ := Option.bind_eq_some_iff.mp hEnd
  obtain ⟨hFree, hLive, hClaims⟩ : s'.free = [] ∧ s'.live.length = 63 ∧ s'.claims = 0 := by
    simpa using hCounts
  refine ⟨s, s', hOpen, hRun, hLive, (run_busy_iff hOpen hRun 9).1.mpr ⟨hFree, ?_⟩⟩
  rw [hLive, hClaims]
  decide +kernel

end VirtioCrypto.Cryptodev.Async
