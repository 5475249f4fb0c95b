import Concore2full.ThreadPool.State

/-! The steps of `thread_pool.cpp`. Each constructor is one access to shared state by one thread: a
worker in `thread_main` and `sleep`, a call of `enqueue`, a call of `extract_task`, or `join`. A
`try_push` or `try_pop` that may fail to take the line's lock has its outcome as a free `acquired`
flag; `sleep` may wake without a notification, as a condition variable may; the task function of
`execute` is one step, and whatever it calls on the pool is another call of this model. A run
interleaves the steps of all the threads in any order. -/

namespace Concore2full.ThreadPool

open WorkLine

/-- The next step of `join`'s loop of `try_notify(0)` after worker `k`. -/
def joinNext (lineCount k : Nat) : JoinPc :=
  if k + 1 < lineCount then .notify (k + 1) .fetchAdd else .joinThreads

/-- The step of worker `w` of a pool of `lineCount` lines. -/
inductive WorkerStep (lineCount : Nat) (s : Pool) (w : Nat) : Event → Pool → Prop
  | loop (hpc : (s.workers w).pc = .loop) :
      WorkerStep lineCount s w (.readStop w s.stopRequested) (s.setWorker w
        { s.workers w with pc := if s.stopRequested then .exited else .checkTasks })
  | checkTasks (hpc : (s.workers w).pc = .checkTasks) :
      WorkerStep lineCount s w (.readTasks w s.numTasks) (s.setWorker w
        { s.workers w with pc := if s.numTasks = 0 then .storeToken else .sweep 0 })
  | storeToken (hpc : (s.workers w).pc = .storeToken) :
      WorkerStep lineCount s w .silent (s.setWorker w
        { s.workers w with pc := .decRequests, tokenValid := true, notified := false })
  | decRequests (hpc : (s.workers w).pc = .decRequests) :
      WorkerStep lineCount s w (.wakeRequests w (.fetchSub (s.workers w).wakeRequests))
        (s.setWorker w { s.workers w with
          pc := if (s.workers w).wakeRequests = 1 then .checkStop else .invalidate
          wakeRequests := toInt32 ((s.workers w).wakeRequests - 1) })
  | checkStop (hpc : (s.workers w).pc = .checkStop) :
      WorkerStep lineCount s w .silent (s.setWorker w
        { s.workers w with pc := if s.stopRequested then .invalidate else .parked })
  | wake (hpc : (s.workers w).pc = .parked) :
      WorkerStep lineCount s w .silent (s.setWorker w { s.workers w with pc := .invalidate })
  | invalidate (hpc : (s.workers w).pc = .invalidate) :
      WorkerStep lineCount s w .silent (s.setWorker w
        { s.workers w with pc := .rearm, tokenValid := false })
  | rearm (hpc : (s.workers w).pc = .rearm) :
      WorkerStep lineCount s w (.wakeRequests w .store) (s.setWorker w
        { s.workers w with pc := .loadHint, wakeRequests := 1 })
  | loadHint (hpc : (s.workers w).pc = .loadHint) :
      WorkerStep lineCount s w .silent (s.setWorker w
        { s.workers w with pc := .sweep 0, hint := (s.workers w).startIndex })
  | sweepHit {i t : Nat} {acquired : Bool} (hpc : (s.workers w).pc = .sweep i)
      (hpop : (tryPop s.heap ((s.workers w).sweepLine lineCount i) acquired).1 = some t) :
      WorkerStep lineCount s w (.pop w t ((s.workers w).sweepLine lineCount i))
        ({ s with heap := (tryPop s.heap ((s.workers w).sweepLine lineCount i) acquired).2 }
          |>.setWorker w { s.workers w with pc := .popped t ((s.workers w).sweepLine lineCount i) })
  | sweepMiss {i : Nat} {acquired : Bool} (hpc : (s.workers w).pc = .sweep i)
      (hpop : (tryPop s.heap ((s.workers w).sweepLine lineCount i) acquired).1 = none) :
      WorkerStep lineCount s w .silent (s.setWorker w
        { s.workers w with pc := if i + 1 < 2 * lineCount then .sweep (i + 1) else .loop })
  | decrement {t line : Nat} (hpc : (s.workers w).pc = .popped t line) :
      WorkerStep lineCount s w .silent ({ s with numTasks := toInt32 (s.numTasks - 1) }.setWorker w
        { s.workers w with pc := .execute t line })
  | execute {t line : Nat} (hpc : (s.workers w).pc = .execute t line) :
      WorkerStep lineCount s w (.execute w t line) (s.setWorker w
        { s.workers w with pc := .loop })

/-- The step of the `i`-th call of `enqueue`. -/
inductive EnqueueStep (lineCount : Nat) (s : Pool) (i : Nat) : Event → Pool → Prop
  | clearLinks {t : Nat} (he : s.enqueues[i]? = some ⟨t, .clearLinks⟩) :
      EnqueueStep lineCount s i .silent
        ({ s with heap := (s.heap.write (.next t) none).setPrevLink t none }.setEnqueue i
          ⟨t, .fetchIndex⟩)
  | fetchIndex {t : Nat} (he : s.enqueues[i]? = some ⟨t, .fetchIndex⟩) :
      EnqueueStep lineCount s i .silent ({ s with lineToPushTo := s.lineToPushTo + 1 }.setEnqueue i
        ⟨t, .probe (enqueueStart s.lineToPushTo lineCount) 0⟩)
  | probeHit {t index j : Nat} (he : s.enqueues[i]? = some ⟨t, .probe index j⟩) :
      EnqueueStep lineCount s i (.push t (probeLine index j lineCount))
        ({ s with heap := (tryPush s.heap (probeLine index j lineCount) t true).2 }.setEnqueue i
          ⟨t, .increment (probeLine index j lineCount)⟩)
  | probeMiss {t index j : Nat} (he : s.enqueues[i]? = some ⟨t, .probe index j⟩) :
      EnqueueStep lineCount s i .silent (s.setEnqueue i
        ⟨t, if j + 1 < lineCount then .probe index (j + 1) else .forcePush index⟩)
  | forcePush {t index : Nat} (he : s.enqueues[i]? = some ⟨t, .forcePush index⟩) :
      EnqueueStep lineCount s i (.push t (index % lineCount))
        ({ s with heap := push s.heap (index % lineCount) t }.setEnqueue i
          ⟨t, .increment (index % lineCount)⟩)
  | increment {t line : Nat} (he : s.enqueues[i]? = some ⟨t, .increment line⟩) :
      EnqueueStep lineCount s i .silent
        ({ s with numTasks := toInt32 (s.numTasks + 1) }.setEnqueue i
          ⟨t, if s.numTasks ≤ lineCount then .notify line 0 .fetchAdd else .done⟩)
  | notifyAdd {t line k : Nat} (he : s.enqueues[i]? = some ⟨t, .notify line k .fetchAdd⟩)
      (hk : k < lineCount) :
      EnqueueStep lineCount s i (.wakeRequests k (.fetchAdd (s.workers k).wakeRequests))
        ((s.setWorker k (s.workers k).fetchAdd).setEnqueue i ⟨t,
          if (s.workers k).wakeRequests = 0 then .notify line k .storeHint
          else if k + 1 < lineCount then .notify line (k + 1) .fetchAdd else .done⟩)
  | notifyStore {t line k : Nat} (he : s.enqueues[i]? = some ⟨t, .notify line k .storeHint⟩) :
      EnqueueStep lineCount s i .silent
        ((s.setWorker k { s.workers k with startIndex := line }).setEnqueue i
          ⟨t, .notify line k .wake⟩)
  | notifyWake {t line k : Nat} (he : s.enqueues[i]? = some ⟨t, .notify line k .wake⟩) :
      EnqueueStep lineCount s i .silent
        ((s.setWorker k (s.workers k).notify).setEnqueue i ⟨t, .done⟩)

/-- The step of the `i`-th call of `thread_pool::extract_task`. Its read of `worker_data_` takes no
lock; the locked section of `work_line::extract_task` on the line it read is one step, which in a
release build never compares `worker_data_` with that line. -/
inductive ExtractStep (s : Pool) (i : Nat) : Event → Pool → Prop
  | readData {t : Nat} (hx : s.extracts[i]? = some ⟨t, .readData⟩) :
      ExtractStep s i .silent (s.setExtract i ⟨t, match s.heap.workerData t with
        | none => .done false
        | some line => .extract line⟩)
  | extract {t line : Nat} (hx : s.extracts[i]? = some ⟨t, .extract line⟩) :
      ExtractStep s i (.extracted t (extractTask s.heap line t).1)
        ({ s with heap := (extractTask s.heap line t).2 }.setExtract i
          ⟨t, if (extractTask s.heap line t).1 then .decrement else .done false⟩)
  | decrement {t : Nat} (hx : s.extracts[i]? = some ⟨t, .decrement⟩) :
      ExtractStep s i .silent ({ s with numTasks := toInt32 (s.numTasks - 1) }.setExtract i
        ⟨t, .done true⟩)

/-- The step of `join`. -/
inductive JoinStep (lineCount : Nat) (s : Pool) : Event → Pool → Prop
  | call (hj : s.join = .idle) : JoinStep lineCount s .silent { s with join := .setStop }
  | setStop (hj : s.join = .setStop) :
      JoinStep lineCount s .silent { s with
        stopRequested := true
        join := if 0 < lineCount then .notify 0 .fetchAdd else .joinThreads }
  | notifyAdd {k : Nat} (hj : s.join = .notify k .fetchAdd) (hk : k < lineCount) :
      JoinStep lineCount s (.wakeRequests k (.fetchAdd (s.workers k).wakeRequests))
        { s.setWorker k (s.workers k).fetchAdd with
          join := if (s.workers k).wakeRequests = 0 then .notify k .storeHint
            else joinNext lineCount k }
  | notifyStore {k : Nat} (hj : s.join = .notify k .storeHint) :
      JoinStep lineCount s .silent
        { s.setWorker k { s.workers k with startIndex := 0 } with join := .notify k .wake }
  | notifyWake {k : Nat} (hj : s.join = .notify k .wake) :
      JoinStep lineCount s .silent
        { s.setWorker k (s.workers k).notify with join := joinNext lineCount k }
  | joinThreads (hj : s.join = .joinThreads)
      (hexit : ∀ w < lineCount, (s.workers w).pc = .exited) :
      JoinStep lineCount s .silent { s with join := .done }

/-- A call of `extract_task` that has not yet run the locked section of `work_line::extract_task`.
-/
def ExtractPc.beforeLock : ExtractPc → Bool
  | .readData | .extract _ => true
  | _ => false

/-- One step of any thread of a pool of `lineCount` lines. A call of `enqueue` starts only on a
task that is in no line, in no other call of `enqueue` in progress, and in no call of
`extract_task` that has still to take its line's lock: the locked section on the line a call read
would otherwise unlink a task of another line, under the wrong lock. -/
inductive Step (lineCount : Nat) : Pool → Event → Pool → Prop
  | worker {s s' : Pool} {e : Event} {w : Nat} (hw : w < lineCount)
      (h : WorkerStep lineCount s w e s') : Step lineCount s e s'
  | enqueue {s s' : Pool} {e : Event} {i : Nat} (h : EnqueueStep lineCount s i e s') :
      Step lineCount s e s'
  | extract {s s' : Pool} {e : Event} {i : Nat} (h : ExtractStep s i e s') : Step lineCount s e s'
  | join {s s' : Pool} {e : Event} (h : JoinStep lineCount s e s') : Step lineCount s e s'
  | startEnqueue {s : Pool} (t : Nat) (ht : s.heap.workerData t = none)
      (hfree : ∀ c ∈ s.enqueues, c.task = t → c.pc = .done)
      (hlock : ∀ x ∈ s.extracts, x.task = t → x.pc.beforeLock = false) :
      Step lineCount s .silent { s with enqueues := s.enqueues ++ [⟨t, .clearLinks⟩] }
  | startExtract {s : Pool} (t : Nat) :
      Step lineCount s .silent { s with extracts := s.extracts ++ [⟨t, .readData⟩] }

/-- `Run lineCount s evs s'`: the pool goes from `s` to `s'` by steps labelled `evs`, in order. -/
inductive Run (lineCount : Nat) : Pool → List Event → Pool → Prop
  | refl (s : Pool) : Run lineCount s [] s
  | tail {s s' s'' : Pool} {evs : List Event} {e : Event} (hr : Run lineCount s evs s')
      (h : Step lineCount s' e s'') : Run lineCount s (evs ++ [e]) s''

section Runs

variable {lineCount : Nat} {s s₁ s' : Pool} {evs evs' : List Event}

theorem Run.head {e : Event} (h : Step lineCount s e s₁) (hr : Run lineCount s₁ evs s') :
    Run lineCount s (e :: evs) s' := by
  induction hr with
  | refl => exact .tail (.refl _) h
  | tail _ hs ih => exact .tail ih hs

theorem Run.append (h₁ : Run lineCount s evs s₁) (h₂ : Run lineCount s₁ evs' s') :
    Run lineCount s (evs ++ evs') s' := by
  induction h₂ with
  | refl => simpa using h₁
  | tail _ h ih => simpa using ih.tail h

end Runs

/-- A state of a pool of `lineCount` lines reached from construction by the steps `evs`. -/
def Reachable (lineCount : Nat) (evs : List Event) (s : Pool) : Prop :=
  Run lineCount Pool.init evs s

/-! ### Runs without wrap-around -/

/-- No counter is at an end of `int`: `num_tasks_` is strictly inside the range of `int`, and no
worker's `wake_requests_` is `INT_MAX`. A `fetch_add` or `fetch_sub` from here does not wrap, the
`fetch_sub` of `sleep` being one of `wake_requests_` at 1 or more. -/
def Pool.Fits (s : Pool) : Prop :=
  -2 ^ 31 < s.numTasks ∧ s.numTasks < 2 ^ 31 - 1 ∧ ∀ w, (s.workers w).wakeRequests < 2 ^ 31 - 1

/-- A run every state of which fits: no counter wraps around on it. -/
inductive SafeRun (lineCount : Nat) : Pool → List Event → Pool → Prop
  | refl {s : Pool} (hfit : s.Fits) : SafeRun lineCount s [] s
  | tail {s s' s'' : Pool} {evs : List Event} {e : Event} (hr : SafeRun lineCount s evs s')
      (h : Step lineCount s' e s'') (hfit : s''.Fits) :
      SafeRun lineCount s (evs ++ [e]) s''

/-- A state reached from construction by a run on which no counter wraps around. -/
def SafeReachable (lineCount : Nat) (evs : List Event) (s : Pool) : Prop :=
  SafeRun lineCount Pool.init evs s

theorem SafeRun.run {lineCount : Nat} {s s' : Pool} {evs : List Event}
    (hr : SafeRun lineCount s evs s') : Run lineCount s evs s' := by
  induction hr with
  | refl => exact .refl _
  | tail _ h _ ih => exact ih.tail h

theorem SafeRun.fits {lineCount : Nat} {s s' : Pool} {evs : List Event}
    (hr : SafeRun lineCount s evs s') : s'.Fits := by
  cases hr with
  | refl hfit => exact hfit
  | tail _ _ hfit => exact hfit

theorem SafeReachable.reachable {lineCount : Nat} {evs : List Event} {s : Pool}
    (hr : SafeReachable lineCount evs s) : Reachable lineCount evs s :=
  SafeRun.run hr

end Concore2full.ThreadPool
