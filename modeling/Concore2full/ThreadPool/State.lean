import Concore2full.ThreadPool.Index

/-! The state of a `thread_pool` for the interleaving model of `thread_pool.cpp`: the work lines
(the heap of `WorkLine`), the atomics `num_tasks_`, `stop_requested_` and `line_to_push_to_`, one
`worker_thread_data` per worker with the locals of its `thread_main`, and the calls of `enqueue`,
`extract_task` and `join` in progress, each with the step it takes next. The `std::atomic<int>`
counters `wake_requests_` and `num_tasks_` are `Int`s in the range of a 32-bit `int`, and every
`fetch_add` and `fetch_sub` on them wraps around as two's complement does (`toInt32`). The events
that label the steps record what the claims about runs speak of: the loads at the top of a
worker's loop, the accesses to `wake_requests_`, and the pushes, pops, extractions and executions
of tasks. -/

namespace Concore2full.ThreadPool

open WorkLine

/-! ### 32-bit `int` -/

/-- The `int` that an `Int` wraps to: the value in `[-2^31, 2^31)` equal to it modulo `2^32`,
what a `fetch_add` or `fetch_sub` of `std::atomic<int>` stores. -/
def toInt32 (x : Int) : Int := x.bmod (2 ^ 32)

theorem toInt32_eq_self {x : Int} (h1 : -2 ^ 31 ≤ x) (h2 : x < 2 ^ 31) : toInt32 x = x := by
  rw [toInt32, Int.bmod_def, show (((2 ^ 32 : Nat)) : Int) = 4294967296 from rfl]
  split <;> omega

theorem toInt32_eq_zero_iff {x : Int} : toInt32 x = 0 ↔ (2 ^ 32 : Int) ∣ x := by
  rw [toInt32, Int.bmod_def, show (((2 ^ 32 : Nat)) : Int) = 4294967296 from rfl]
  split <;> omega

theorem le_toInt32 (x : Int) : -2 ^ 31 ≤ toInt32 x := by
  rw [toInt32, Int.bmod_def, show (((2 ^ 32 : Nat)) : Int) = 4294967296 from rfl]
  split <;> omega

theorem toInt32_lt (x : Int) : toInt32 x < 2 ^ 31 := by
  rw [toInt32, Int.bmod_def, show (((2 ^ 32 : Nat)) : Int) = 4294967296 from rfl]
  split <;> omega

@[simp] theorem toInt32_zero : toInt32 0 = 0 := rfl

@[simp] theorem toInt32_one : toInt32 1 = 1 := rfl

@[simp] theorem toInt32_add_toInt32 (x y : Int) : toInt32 (toInt32 x + y) = toInt32 (x + y) :=
  Int.bmod_add_bmod_congr

@[simp] theorem toInt32_sub_toInt32 (x y : Int) : toInt32 (toInt32 x - y) = toInt32 (x - y) :=
  Int.bmod_sub_bmod_congr

/-- Where a worker is in `thread_main`, and in `worker_thread_data::sleep` while it sleeps: the
step it takes next. -/
inductive WorkerPc
  /-- `while (!stop_requested_.load())` -/
  | loop
  /-- `if (num_tasks_.load() == 0)` -/
  | checkTasks
  /-- `wakeup_token_ = sleep_helper.get_wakeup_token()` -/
  | storeToken
  /-- `wake_requests_.fetch_sub(1)` -/
  | decRequests
  /-- `if (!stop_requested.load())` -/
  | checkStop
  /-- `sleep_helper.sleep()`, until the token is notified or a spurious wake-up -/
  | parked
  /-- `wakeup_token_.invalidate()` -/
  | invalidate
  /-- `wake_requests_.store(1)` -/
  | rearm
  /-- `return work_line_start_index_.load()` -/
  | loadHint
  /-- the `i`-th `try_pop` of the sweep -/
  | sweep (i : Nat)
  /-- `num_tasks_.fetch_sub(1)` after popping `task` from `line` -/
  | popped (task line : Nat)
  /-- `to_execute->task_function_(to_execute, line_index)` -/
  | execute (task line : Nat)
  /-- returned from `thread_main` -/
  | exited
  deriving DecidableEq, Repr

/-- A worker: its `worker_thread_data` and the locals of its `thread_main`. -/
structure Worker where
  pc : WorkerPc
  /-- the local `work_line_hint` of `thread_main` -/
  hint : Int
  /-- `wake_requests_` -/
  wakeRequests : Int
  /-- `work_line_start_index_` -/
  startIndex : Int
  /-- `wakeup_token_` has not been invalidated -/
  tokenValid : Bool
  /-- the `sleep_helper` of `wakeup_token_` has been notified -/
  notified : Bool
  deriving DecidableEq, Repr

/-- The steps of a `try_notify` on a worker. -/
inductive NotifyStep
  /-- `wake_requests_.fetch_add(1)` -/
  | fetchAdd
  /-- `work_line_start_index_.store(work_line_hint)` -/
  | storeHint
  /-- `wakeup_token_.notify()` -/
  | wake
  deriving DecidableEq, Repr

/-- Where a call of `enqueue` is. -/
inductive EnqueuePc
  /-- `task->next_ = nullptr; task->prev_link_ = nullptr;` -/
  | clearLinks
  /-- `line_to_push_to_.fetch_add(1)` -/
  | fetchIndex
  /-- the `i`-th `try_push`, on `probeLine index i` -/
  | probe (index i : Nat)
  /-- the fallback `push` on `index % work_line_count` -/
  | forcePush (index : Nat)
  /-- `notify_one(line)`: `num_tasks_.fetch_add(1)` -/
  | increment (line : Nat)
  /-- `notify_one(line)`: its `try_notify(line)` on worker `k` -/
  | notify (line k : Nat) (step : NotifyStep)
  | done
  deriving DecidableEq, Repr

/-- A call of `enqueue(task)`. -/
structure Enqueue where
  task : Nat
  pc : EnqueuePc
  deriving DecidableEq, Repr

/-- Where a call of `thread_pool::extract_task` is. -/
inductive ExtractPc
  /-- `auto d = static_cast<work_line*>(task->worker_data_)` -/
  | readData
  /-- `d->extract_task(task)` -/
  | extract (line : Nat)
  /-- `num_tasks_.fetch_sub(1)` -/
  | decrement
  /-- returned `result` -/
  | done (result : Bool)
  deriving DecidableEq, Repr

/-- A call of `thread_pool::extract_task(task)`. -/
structure Extract where
  task : Nat
  pc : ExtractPc
  deriving DecidableEq, Repr

/-- Where `join` is. -/
inductive JoinPc
  /-- not called -/
  | idle
  /-- `stop_requested_.store(true)` -/
  | setStop
  /-- `try_notify(0)` on worker `k` -/
  | notify (k : Nat) (step : NotifyStep)
  /-- `t.join()` on every worker -/
  | joinThreads
  | done
  deriving DecidableEq, Repr

/-- A `thread_pool` and the calls in progress on it. -/
structure Pool where
  /-- `work_lines_` and the tasks' links -/
  heap : Heap
  /-- `num_tasks_` -/
  numTasks : Int
  /-- `stop_requested_` -/
  stopRequested : Bool
  /-- `line_to_push_to_` -/
  lineToPushTo : Nat
  /-- `threads_`: worker `w` for `w` below the number of lines -/
  workers : Nat → Worker
  enqueues : List Enqueue
  extracts : List Extract
  join : JoinPc

/-- The worker of `thread_main(w)` as the constructor starts it: `wake_requests_` at 1 and
`work_line_start_index_` at 0, no token yet. -/
def Worker.init (w : Nat) : Worker := ⟨.loop, w, 1, 0, false, false⟩

/-- A pool just constructed: empty lines, no task, no call in progress. -/
def Pool.init : Pool := ⟨Heap.empty, 0, false, 0, Worker.init, [], [], .idle⟩

/-- `wake_requests_.fetch_add(1)` -/
def Worker.fetchAdd (W : Worker) : Worker :=
  { W with wakeRequests := toInt32 (W.wakeRequests + 1) }

/-- `wakeup_token_.notify()`: a no-op once the token is invalidated. -/
def Worker.notify (W : Worker) : Worker := if W.tokenValid then { W with notified := true } else W

namespace Worker

variable (W : Worker)

@[simp] theorem fetchAdd_pc : W.fetchAdd.pc = W.pc := rfl
@[simp] theorem fetchAdd_wakeRequests :
    W.fetchAdd.wakeRequests = toInt32 (W.wakeRequests + 1) := rfl
@[simp] theorem fetchAdd_tokenValid : W.fetchAdd.tokenValid = W.tokenValid := rfl
@[simp] theorem fetchAdd_notified : W.fetchAdd.notified = W.notified := rfl
@[simp] theorem fetchAdd_hint : W.fetchAdd.hint = W.hint := rfl
@[simp] theorem fetchAdd_startIndex : W.fetchAdd.startIndex = W.startIndex := rfl

@[simp] theorem notify_pc : W.notify.pc = W.pc := by unfold notify; split <;> rfl
@[simp] theorem notify_wakeRequests : W.notify.wakeRequests = W.wakeRequests := by
  unfold notify; split <;> rfl
@[simp] theorem notify_tokenValid : W.notify.tokenValid = W.tokenValid := by
  unfold notify; split <;> rfl
@[simp] theorem notify_notified : W.notify.notified = (W.tokenValid || W.notified) := by
  unfold notify; split <;> simp_all
@[simp] theorem notify_hint : W.notify.hint = W.hint := by unfold notify; split <;> rfl
@[simp] theorem notify_startIndex : W.notify.startIndex = W.startIndex := by
  unfold notify; split <;> rfl

end Worker

/-- The line of the `i`-th `try_pop` of the worker's sweep, as an index of `work_lines_`. -/
def Worker.sweepLine (W : Worker) (lineCount i : Nat) : Nat :=
  (ThreadPool.sweepLine i W.hint lineCount).toNat

namespace Pool

/-- The pool with worker `w` replaced. -/
def setWorker (s : Pool) (w : Nat) (W : Worker) : Pool :=
  { s with workers := Function.update s.workers w W }

/-- The pool with the `i`-th call of `enqueue` replaced. -/
def setEnqueue (s : Pool) (i : Nat) (e : Enqueue) : Pool :=
  { s with enqueues := s.enqueues.set i e }

/-- The pool with the `i`-th call of `extract_task` replaced. -/
def setExtract (s : Pool) (i : Nat) (x : Extract) : Pool :=
  { s with extracts := s.extracts.set i x }

variable (s : Pool) (w i : Nat) (W : Worker) (e : Enqueue) (x : Extract)

@[simp] theorem setWorker_workers : (s.setWorker w W).workers = Function.update s.workers w W := rfl
@[simp] theorem setWorker_heap : (s.setWorker w W).heap = s.heap := rfl
@[simp] theorem setWorker_numTasks : (s.setWorker w W).numTasks = s.numTasks := rfl
@[simp] theorem setWorker_stopRequested : (s.setWorker w W).stopRequested = s.stopRequested := rfl
@[simp] theorem setWorker_lineToPushTo : (s.setWorker w W).lineToPushTo = s.lineToPushTo := rfl
@[simp] theorem setWorker_enqueues : (s.setWorker w W).enqueues = s.enqueues := rfl
@[simp] theorem setWorker_extracts : (s.setWorker w W).extracts = s.extracts := rfl
@[simp] theorem setWorker_join : (s.setWorker w W).join = s.join := rfl

@[simp] theorem setEnqueue_workers : (s.setEnqueue i e).workers = s.workers := rfl
@[simp] theorem setEnqueue_heap : (s.setEnqueue i e).heap = s.heap := rfl
@[simp] theorem setEnqueue_numTasks : (s.setEnqueue i e).numTasks = s.numTasks := rfl
@[simp] theorem setEnqueue_stopRequested : (s.setEnqueue i e).stopRequested = s.stopRequested := rfl
@[simp] theorem setEnqueue_lineToPushTo : (s.setEnqueue i e).lineToPushTo = s.lineToPushTo := rfl
@[simp] theorem setEnqueue_enqueues : (s.setEnqueue i e).enqueues = s.enqueues.set i e := rfl
@[simp] theorem setEnqueue_extracts : (s.setEnqueue i e).extracts = s.extracts := rfl
@[simp] theorem setEnqueue_join : (s.setEnqueue i e).join = s.join := rfl

@[simp] theorem setExtract_workers : (s.setExtract i x).workers = s.workers := rfl
@[simp] theorem setExtract_heap : (s.setExtract i x).heap = s.heap := rfl
@[simp] theorem setExtract_numTasks : (s.setExtract i x).numTasks = s.numTasks := rfl
@[simp] theorem setExtract_stopRequested : (s.setExtract i x).stopRequested = s.stopRequested := rfl
@[simp] theorem setExtract_lineToPushTo : (s.setExtract i x).lineToPushTo = s.lineToPushTo := rfl
@[simp] theorem setExtract_enqueues : (s.setExtract i x).enqueues = s.enqueues := rfl
@[simp] theorem setExtract_extracts : (s.setExtract i x).extracts = s.extracts.set i x := rfl
@[simp] theorem setExtract_join : (s.setExtract i x).join = s.join := rfl

end Pool

/-- An access of a worker's `wake_requests_`, with the value a read-modify-write returned. -/
inductive WakeOp
  | fetchSub (old : Int)
  | fetchAdd (old : Int)
  | store
  deriving DecidableEq, Repr

/-- What a step does that the claims about runs speak of. -/
inductive Event
  /-- worker `w` loads `stop_requested_` at the top of its loop -/
  | readStop (w : Nat) (stop : Bool)
  /-- worker `w` loads `num_tasks_` at the top of its loop -/
  | readTasks (w : Nat) (n : Int)
  /-- an access of the `wake_requests_` of worker `w` -/
  | wakeRequests (w : Nat) (op : WakeOp)
  /-- `enqueue` puts `task` into `line` -/
  | push (task line : Nat)
  /-- worker `w` pops `task` from `line` -/
  | pop (w task line : Nat)
  /-- worker `w` calls the function of `task` -/
  | execute (w task line : Nat)
  /-- the locked section of `extract_task(task)` returns `result` -/
  | extracted (task : Nat) (result : Bool)
  /-- any other step -/
  | silent
  deriving DecidableEq, Repr

end Concore2full.ThreadPool
