import Concore2full.ThreadPool.FairJoin

/-! Schedules that can be run. `Pool.stepWorker` is the step of a worker whose `try_pop` gets the
line's lock and which does not wake before its token is notified; it is a step of `WorkerStep`. The
round-robin schedule lets the first ready worker in cyclic order from `n % lineCount` take that step
at time `n`; it is a `Schedule`, weakly fair to every worker, and every `try_pop` in it gets its
lock, so `fair_schedule_drains` applies to it. `Pool.stepJoin` is the step of `join`, a step of
`JoinStep`; the round-robin schedule of a pool being destroyed cycles over the workers and the
thread in `join` the same way, is a `JoinSchedule` fair to each of them, and so `fair_join_returns`
applies to it. -/

namespace Concore2full.ThreadPool

open WorkLine Function

/-- The step of worker `w` when its `try_pop` gets the lock and it wakes only when notified; `none`
once it has left `thread_main`. -/
def Pool.stepWorker (lineCount : Nat) (s : Pool) (w : Nat) : Option (Event × Pool) :=
  match (s.workers w).pc with
  | .loop => some (.readStop w s.stopRequested, s.setWorker w
      { s.workers w with pc := if s.stopRequested then .exited else .checkTasks })
  | .checkTasks => some (.readTasks w s.numTasks, s.setWorker w
      { s.workers w with pc := if s.numTasks = 0 then .storeToken else .sweep 0 })
  | .storeToken => some (.silent, s.setWorker w
      { s.workers w with pc := .decRequests, tokenValid := true, notified := false })
  | .decRequests => some (.wakeRequests w (.fetchSub (s.workers w).wakeRequests),
      s.setWorker w { s.workers w with
        pc := if (s.workers w).wakeRequests = 1 then .checkStop else .invalidate
        wakeRequests := toInt32 ((s.workers w).wakeRequests - 1) })
  | .checkStop => some (.silent, s.setWorker w
      { s.workers w with pc := if s.stopRequested then .invalidate else .parked })
  | .parked => some (.silent, s.setWorker w { s.workers w with pc := .invalidate })
  | .invalidate => some (.silent, s.setWorker w
      { s.workers w with pc := .rearm, tokenValid := false })
  | .rearm => some (.wakeRequests w .store, s.setWorker w
      { s.workers w with pc := .loadHint, wakeRequests := 1 })
  | .loadHint => some (.silent, s.setWorker w
      { s.workers w with pc := .sweep 0, hint := (s.workers w).startIndex })
  | .sweep i =>
    match (tryPop s.heap ((s.workers w).sweepLine lineCount i) true).1 with
    | some t => some (.pop w t ((s.workers w).sweepLine lineCount i),
        { s with heap := (tryPop s.heap ((s.workers w).sweepLine lineCount i) true).2 }.setWorker w
          { s.workers w with pc := .popped t ((s.workers w).sweepLine lineCount i) })
    | none => some (.silent, s.setWorker w
        { s.workers w with pc := if i + 1 < 2 * lineCount then .sweep (i + 1) else .loop })
  | .popped t line => some (.silent, { s with numTasks := toInt32 (s.numTasks - 1) }.setWorker w
      { s.workers w with pc := .execute t line })
  | .execute t line => some (.execute w t line, s.setWorker w { s.workers w with pc := .loop })
  | .exited => none

section Step

variable {lineCount : Nat} {s s' : Pool} {w : Nat} {e : Event}

/-- `stepWorker` takes a step of `WorkerStep`. -/
theorem Pool.stepWorker_step (h : s.stepWorker lineCount w = some (e, s')) :
    WorkerStep lineCount s w e s' := by
  unfold Pool.stepWorker at h
  split at h
  case h_10 i hpc =>
    split at h <;> simp only [Option.some.injEq, Prod.mk.injEq] at h <;> obtain ⟨rfl, rfl⟩ := h
    · exact .sweepHit hpc ‹_›
    · exact .sweepMiss hpc ‹_›
  case h_13 => cases h
  all_goals
    simp only [Option.some.injEq, Prod.mk.injEq] at h
    obtain ⟨rfl, rfl⟩ := h
  · exact .loop ‹_›
  · exact .checkTasks ‹_›
  · exact .storeToken ‹_›
  · exact .decRequests ‹_›
  · exact .checkStop ‹_›
  · exact .wake ‹_›
  · exact .invalidate ‹_›
  · exact .rearm ‹_›
  · exact .loadHint ‹_›
  · exact .decrement ‹_›
  · exact .execute ‹_›

/-- A worker in `thread_main` has a step. -/
theorem Pool.stepWorker_isSome (h : (s.workers w).pc ≠ .exited) :
    (s.stepWorker lineCount w).isSome := by
  unfold Pool.stepWorker
  split
  case h_10 => split <;> rfl
  case h_13 => contradiction
  all_goals rfl

/-- In its sweep, a worker whose line holds a task pops it. -/
theorem Pool.stepWorker_sweep {i : Nat} (hpc : (s.workers w).pc = .sweep i)
    (hne : s.heap.tasksStack ((s.workers w).sweepLine lineCount i) ≠ none)
    (h : s.stepWorker lineCount w = some (e, s')) :
    ∃ t, e = .pop w t ((s.workers w).sweepLine lineCount i) := by
  obtain ⟨t, ht⟩ := Option.ne_none_iff_exists'.mp hne
  simp only [Pool.stepWorker, hpc, tryPop, ht, Option.isSome_some, Bool.and_self, if_true,
    popUnprotected, Option.some.injEq, Prod.mk.injEq] at h
  exact ⟨t, h.1.symm⟩

end Step

/-! ### The round-robin schedule -/

/-- The first ready worker in cyclic order from `start`. -/
def Pool.nextReady (lineCount : Nat) (s : Pool) (start : Nat) : Option Nat :=
  (cyclic start lineCount).find? fun w => decide (s.workers w).Ready

/-- Time step `n` of the round-robin schedule from `s`: the worker, its event and the next state;
when no worker is ready, worker 0 and nothing happens. -/
def roundRobinStep (lineCount : Nat) (s : Pool) (n : Nat) : Nat × Event × Pool :=
  match s.nextReady lineCount n with
  | some w =>
    match s.stepWorker lineCount w with
    | some (e, s') => (w, e, s')
    | none => (w, .silent, s)
  | none => (0, .silent, s)

/-- The states of the round-robin schedule from `s`. -/
def roundRobinState (lineCount : Nat) (s : Pool) : Nat → Pool
  | 0 => s
  | n + 1 => (roundRobinStep lineCount (roundRobinState lineCount s n) n).2.2

section RoundRobin

variable {lineCount : Nat}

theorem Pool.nextReady_some {s : Pool} {start w : Nat} (h : s.nextReady lineCount start = some w) :
    w < lineCount ∧ (s.workers w).Ready := by
  unfold Pool.nextReady at h
  have hp := List.find?_some h
  exact ⟨mem_cyclic.mp (List.mem_of_find?_eq_some h), of_decide_eq_true hp⟩

theorem Pool.nextReady_none {s : Pool} {start : Nat} (h : s.nextReady lineCount start = none) :
    ∀ w < lineCount, ¬ (s.workers w).Ready := fun w hw hr => by
  have := List.find?_eq_none.mp h w (mem_cyclic.mpr hw)
  simp [hr] at this

/-- From `i` itself the cyclic order starts at `i`, so `i` is the first it finds if it can. -/
theorem find?_cyclic_self {p : Nat → Bool} {i n : Nat} (hi : i < n) (hp : p i = true) :
    (cyclic i n).find? p = some i := by
  obtain ⟨k, rfl⟩ : ∃ k, n = k + 1 := ⟨n - 1, by omega⟩
  simp [cyclic, List.range_succ_eq_map, Nat.mod_eq_of_lt hi, hp]

/-- A ready worker is the one chosen from itself. -/
theorem Pool.nextReady_self {s : Pool} {w : Nat} (hw : w < lineCount) (hr : (s.workers w).Ready) :
    s.nextReady lineCount w = some w :=
  find?_cyclic_self hw (decide_eq_true hr)

theorem roundRobinStep_spec {s : Pool} (n : Nat) :
    (s.nextReady lineCount n = some (roundRobinStep lineCount s n).1 ∧
      s.stepWorker lineCount (roundRobinStep lineCount s n).1 =
        some ((roundRobinStep lineCount s n).2.1, (roundRobinStep lineCount s n).2.2)) ∨
    ((∀ w < lineCount, ¬ (s.workers w).Ready) ∧ (roundRobinStep lineCount s n).1 = 0 ∧
      (roundRobinStep lineCount s n).2.1 = .silent ∧ (roundRobinStep lineCount s n).2.2 = s) := by
  unfold roundRobinStep
  split
  · next w hw =>
    have hs := @Pool.stepWorker_isSome lineCount _ _ (Pool.nextReady_some hw).2.2
    split
    · exact .inl ⟨hw, by assumption⟩
    · simp_all
  · next hw => exact .inr ⟨Pool.nextReady_none hw, rfl, rfl, rfl⟩

/-- The cyclic order depends on its start modulo the number of lines. -/
theorem cyclic_add_mul (start k : Nat) : cyclic (start + k * lineCount) lineCount =
    cyclic start lineCount := by
  simp only [cyclic, Nat.add_right_comm start, Nat.add_mul_mod_self_right]

/-- The round-robin schedule from `s`, a schedule of a pool of at least one line. -/
def Schedule.roundRobin (hN : 0 < lineCount) (s : Pool) : Schedule lineCount where
  state := roundRobinState lineCount s
  worker n := (roundRobinStep lineCount (roundRobinState lineCount s n) n).1
  event n := (roundRobinStep lineCount (roundRobinState lineCount s n) n).2.1
  worker_lt n := by
    rcases roundRobinStep_spec (s := roundRobinState lineCount s n) n with
      ⟨h, -⟩ | ⟨-, h, -⟩
    · exact (Pool.nextReady_some h).1
    · show (roundRobinStep lineCount (roundRobinState lineCount s n) n).1 < lineCount
      rw [h]
      exact hN
  next n := by
    rcases roundRobinStep_spec (s := roundRobinState lineCount s n) n with
      ⟨h, h'⟩ | ⟨h, -, he, hs⟩
    · exact .inl ⟨(Pool.nextReady_some h).2.1, Pool.stepWorker_step h'⟩
    · exact .inr ⟨h, he, hs⟩

/-- The round-robin schedule is weakly fair: a worker ready from time `n` on is the first ready
worker from itself at the first time after `n` that is congruent to it. -/
theorem Schedule.roundRobin_fair (hN : 0 < lineCount) (s : Pool) {w : Nat} (hw : w < lineCount) :
    (Schedule.roundRobin hN s).Fair w := by
  intro n hready
  have hle : n ≤ w + n * lineCount := by
    have := Nat.le_mul_of_pos_right n hN
    omega
  refine ⟨w + n * lineCount, hle, ?_⟩
  have hr : ((roundRobinState lineCount s (w + n * lineCount)).workers w).Ready := hready _ hle
  rcases roundRobinStep_spec (s := roundRobinState lineCount s (w + n * lineCount))
    (w + n * lineCount) with ⟨h, -⟩ | ⟨h, -⟩
  · rw [Pool.nextReady, cyclic_add_mul, ← Pool.nextReady, Pool.nextReady_self hw hr] at h
    exact (Option.some.inj h).symm
  · exact absurd hr (h w hw)

/-- Every `try_pop` of the round-robin schedule gets its lock. -/
theorem Schedule.roundRobin_popsLock (hN : 0 < lineCount) (s : Pool) :
    (Schedule.roundRobin hN s).PopsLock 0 := by
  intro n _ i hpc hne
  rcases roundRobinStep_spec (s := roundRobinState lineCount s n) n with ⟨-, h⟩ | ⟨h, -⟩
  · exact Pool.stepWorker_sweep hpc hne h
  · have hr : (((Schedule.roundRobin hN s).state n).workers
        ((Schedule.roundRobin hN s).worker n)).Ready :=
      ⟨by simp [Worker.Parked, hpc], by simp [hpc]⟩
    exact absurd hr (h _ ((Schedule.roundRobin hN s).worker_lt n))

end RoundRobin

/-! ### The round-robin schedule of a pool being destroyed -/

/-- The step of `join`; `none` once it has returned, in its joins while a worker is in
`thread_main`, and on a `try_notify` past the last worker. -/
def Pool.stepJoin (lineCount : Nat) (s : Pool) : Option (Event × Pool) :=
  match s.join with
  | .idle => some (.silent, { s with join := .setStop })
  | .setStop => some (.silent, { s with
      stopRequested := true
      join := if 0 < lineCount then .notify 0 .fetchAdd else .joinThreads })
  | .notify k .fetchAdd =>
    if k < lineCount then
      some (.wakeRequests k (.fetchAdd (s.workers k).wakeRequests),
        { s.setWorker k (s.workers k).fetchAdd with
          join := if (s.workers k).wakeRequests = 0 then .notify k .storeHint
            else joinNext lineCount k })
    else none
  | .notify k .storeHint => some (.silent,
      { s.setWorker k { s.workers k with startIndex := 0 } with join := .notify k .wake })
  | .notify k .wake => some (.silent,
      { s.setWorker k (s.workers k).notify with join := joinNext lineCount k })
  | .joinThreads =>
    if Pool.Exited lineCount s then some (.silent, { s with join := .done }) else none
  | .done => none

/-- The step of thread `th`. -/
def Pool.stepThread (lineCount : Nat) (s : Pool) : Thread → Option (Event × Pool)
  | .worker w => s.stepWorker lineCount w
  | .joiner => s.stepJoin lineCount

/-- Thread `i` of a pool of `lineCount` lines: the workers, then the thread in `join`. -/
def Thread.ofIndex (lineCount i : Nat) : Thread := if i < lineCount then .worker i else .joiner

/-- The index of a thread among the threads of a pool of `lineCount` lines. -/
def Thread.index (lineCount : Nat) : Thread → Nat
  | .worker w => w
  | .joiner => lineCount

/-- The first ready thread in cyclic order from `start`. -/
def Pool.nextThread (lineCount : Nat) (s : Pool) (start : Nat) : Option Thread :=
  ((cyclic start (lineCount + 1)).find? fun i =>
    decide ((Thread.ofIndex lineCount i).Ready lineCount s)).map (Thread.ofIndex lineCount)

/-- Time step `n` of the round-robin schedule of a pool being destroyed: the thread, its event and
the next state; when no thread is ready, the thread in `join` and nothing happens. -/
def joinRoundRobinStep (lineCount : Nat) (s : Pool) (n : Nat) : Thread × Event × Pool :=
  match s.nextThread lineCount n with
  | some th =>
    match s.stepThread lineCount th with
    | some (e, s') => (th, e, s')
    | none => (th, .silent, s)
  | none => (.joiner, .silent, s)

/-- The states of the round-robin schedule of a pool being destroyed, from `s`. -/
def joinRoundRobinState (lineCount : Nat) (s : Pool) : Nat → Pool
  | 0 => s
  | n + 1 => (joinRoundRobinStep lineCount (joinRoundRobinState lineCount s n) n).2.2

section JoinRoundRobin

variable {lineCount : Nat} {s s' : Pool} {e : Event}

/-- `stepJoin` takes a step of `JoinStep`. -/
theorem Pool.stepJoin_step (h : s.stepJoin lineCount = some (e, s')) :
    JoinStep lineCount s e s' := by
  unfold Pool.stepJoin at h
  split at h
  case h_3 k hj =>
    split at h
    · simp only [Option.some.injEq, Prod.mk.injEq] at h
      obtain ⟨rfl, rfl⟩ := h
      exact .notifyAdd hj ‹_›
    · cases h
  case h_6 hj =>
    split at h
    · simp only [Option.some.injEq, Prod.mk.injEq] at h
      obtain ⟨rfl, rfl⟩ := h
      exact .joinThreads hj ‹_›
    · cases h
  case h_7 => cases h
  all_goals
    simp only [Option.some.injEq, Prod.mk.injEq] at h
    obtain ⟨rfl, rfl⟩ := h
  · exact .call ‹_›
  · exact .setStop ‹_›
  · exact .notifyStore ‹_›
  · exact .notifyWake ‹_›

/-- A ready `join` has a step. -/
theorem Pool.stepJoin_isSome (h : s.JoinReady lineCount) : (s.stepJoin lineCount).isSome := by
  obtain ⟨hd, hin, hx⟩ := h
  unfold Pool.stepJoin
  split <;> simp_all [JoinPc.InRange]

theorem Pool.stepThread_step {th : Thread} (hth : th.InPool lineCount)
    (hr : th.Ready lineCount s) (h : s.stepThread lineCount th = some (e, s')) :
    ThreadStep lineCount s th e s' := by
  cases th with
  | worker w => exact ⟨hth, hr.1, Pool.stepWorker_step h⟩
  | joiner => exact Pool.stepJoin_step h

theorem Pool.stepThread_isSome {th : Thread} (hr : th.Ready lineCount s) :
    (s.stepThread lineCount th).isSome := by
  cases th with
  | worker w => exact Pool.stepWorker_isSome hr.2
  | joiner => exact Pool.stepJoin_isSome hr

theorem Thread.ofIndex_inPool (lineCount i : Nat) :
    (Thread.ofIndex lineCount i).InPool lineCount := by
  unfold Thread.ofIndex
  split <;> simp [Thread.InPool, *]

theorem Thread.ofIndex_index {th : Thread} (hth : th.InPool lineCount) :
    Thread.ofIndex lineCount (th.index lineCount) = th := by
  cases th <;> simp_all [Thread.ofIndex, Thread.index, Thread.InPool]

theorem Thread.index_lt {th : Thread} (hth : th.InPool lineCount) :
    th.index lineCount < lineCount + 1 := by
  cases th with
  | worker w => exact Nat.lt_succ_of_lt hth
  | joiner => exact Nat.lt_succ_self lineCount

theorem Pool.nextThread_some {start : Nat} {th : Thread}
    (h : s.nextThread lineCount start = some th) :
    th.InPool lineCount ∧ th.Ready lineCount s := by
  obtain ⟨i, hi, rfl⟩ := Option.map_eq_some'.mp h
  have hp := List.find?_some hi
  exact ⟨Thread.ofIndex_inPool _ _, of_decide_eq_true hp⟩

theorem Pool.nextThread_none {start : Nat} (h : s.nextThread lineCount start = none) :
    ∀ th : Thread, th.InPool lineCount → ¬ th.Ready lineCount s := fun th hth hr => by
  have := List.find?_eq_none.mp (Option.map_eq_none'.mp h) (th.index lineCount)
    (mem_cyclic.mpr (Thread.index_lt hth))
  simp [Thread.ofIndex_index hth, hr] at this

/-- A ready thread is the one chosen from its own index. -/
theorem Pool.nextThread_self {th : Thread} (hth : th.InPool lineCount)
    (hr : th.Ready lineCount s) : s.nextThread lineCount (th.index lineCount) = some th := by
  rw [Pool.nextThread, find?_cyclic_self (Thread.index_lt hth)
    (by simpa [Thread.ofIndex_index hth] using hr), Option.map_some', Thread.ofIndex_index hth]

theorem joinRoundRobinStep_spec (n : Nat) :
    (s.nextThread lineCount n = some (joinRoundRobinStep lineCount s n).1 ∧
      s.stepThread lineCount (joinRoundRobinStep lineCount s n).1 =
        some ((joinRoundRobinStep lineCount s n).2.1, (joinRoundRobinStep lineCount s n).2.2)) ∨
    ((∀ th : Thread, th.InPool lineCount → ¬ th.Ready lineCount s) ∧
      (joinRoundRobinStep lineCount s n).2.1 = .silent ∧
      (joinRoundRobinStep lineCount s n).2.2 = s) := by
  unfold joinRoundRobinStep
  split
  · next th hth =>
    have hs := Pool.stepThread_isSome (Pool.nextThread_some hth).2
    split
    · exact .inl ⟨hth, by assumption⟩
    · simp_all
  · next hth => exact .inr ⟨Pool.nextThread_none hth, rfl, rfl⟩

/-- The round-robin schedule of a pool of `lineCount` lines being destroyed, from `s`. -/
def JoinSchedule.roundRobin (lineCount : Nat) (s : Pool) : JoinSchedule lineCount where
  state := joinRoundRobinState lineCount s
  thread n := (joinRoundRobinStep lineCount (joinRoundRobinState lineCount s n) n).1
  event n := (joinRoundRobinStep lineCount (joinRoundRobinState lineCount s n) n).2.1
  next n := by
    rcases joinRoundRobinStep_spec (s := joinRoundRobinState lineCount s n) n with
      ⟨h, h'⟩ | ⟨h, he, hs⟩
    · exact .inl (Pool.stepThread_step (Pool.nextThread_some h).1 (Pool.nextThread_some h).2 h')
    · exact .inr ⟨h, he, hs⟩

/-- The round-robin schedule of a pool being destroyed is weakly fair: a thread ready from time
`n` on is the first ready thread from itself at the first time after `n` congruent to its index. -/
theorem JoinSchedule.roundRobin_fair (s : Pool) {th : Thread} (hth : th.InPool lineCount) :
    (JoinSchedule.roundRobin lineCount s).Fair th := by
  intro n hready
  have hle : n ≤ th.index lineCount + n * (lineCount + 1) := by
    have := Nat.le_mul_of_pos_right n (show 0 < lineCount + 1 by omega)
    omega
  refine ⟨_, hle, ?_⟩
  have hr : th.Ready lineCount
      (joinRoundRobinState lineCount s (th.index lineCount + n * (lineCount + 1))) := hready _ hle
  rcases joinRoundRobinStep_spec
    (s := joinRoundRobinState lineCount s (th.index lineCount + n * (lineCount + 1)))
    (th.index lineCount + n * (lineCount + 1)) with ⟨h, -⟩ | ⟨h, -⟩
  · rw [Pool.nextThread, @cyclic_add_mul (lineCount + 1), ← Pool.nextThread,
      Pool.nextThread_self hth hr] at h
    exact (Option.some.inj h).symm
  · exact absurd hr (h th hth)

end JoinRoundRobin

/-- The pool of `twoTasks_popped`: the round-robin schedule is fair, every `try_pop` in it gets its
lock, and it drains the pool. -/
theorem fair_schedule_drains_round_robin :
    ∃ evs s, SafeReachable 2 evs s ∧ s.Settled ∧ s.stopRequested = false ∧
      (s.workers 1).pc = .popped 6 1 ∧ s.heap.tasksStack 0 = some 5 ∧
      (∀ w < 2, (Schedule.roundRobin (by decide : 0 < 2) s).Fair w) ∧
      (∃ n₀, (Schedule.roundRobin (by decide : 0 < 2) s).PopsLock n₀) ∧
      ∃ ls, Represents s.heap ls ∧
        ∃ n, (Schedule.roundRobin (by decide : 0 < 2) s).DrainedBy ls n := by
  obtain ⟨evs, s, r, hlen, henq, hext, hj, hstop, h1, h0, -⟩ := twoTasks_popped
  have hr := Reachable.safe r hlen
  have hq : s.Settled := ⟨henq, by simp [hext], .inl hj⟩
  have hfair : ∀ w < 2, (Schedule.roundRobin (by decide : 0 < 2) s).Fair w :=
    fun w hw => Schedule.roundRobin_fair (by decide : 0 < 2) _ hw
  have hlock : ∃ n₀, (Schedule.roundRobin (by decide : 0 < 2) s).PopsLock n₀ :=
    ⟨0, Schedule.roundRobin_popsLock (by decide : 0 < 2) _⟩
  exact ⟨evs, s, hr, hq, hstop, h1, h0, hfair, hlock,
    fair_schedule_drains (by decide) (Schedule.roundRobin (by decide : 0 < 2) s) hr hq hstop hfair
      hlock⟩

/-- The pool of `twoTasks_popped`, being destroyed: the round-robin schedule of its workers and of
the thread in `join` is fair, and `join` returns. -/
theorem fair_join_returns_round_robin :
    ∃ evs s, Reachable 2 evs s ∧ (s.workers 1).pc = .popped 6 1 ∧ s.heap.tasksStack 0 = some 5 ∧
      (∀ c ∈ s.enqueues, c.pc = .done) ∧ (∀ x ∈ s.extracts, ∃ r, x.pc = .done r) ∧
      (∀ th : Thread, th.InPool 2 → (JoinSchedule.roundRobin 2 s).Fair th) ∧
      ∃ n, ((JoinSchedule.roundRobin 2 s).state n).join = .done ∧
        Pool.Exited 2 ((JoinSchedule.roundRobin 2 s).state n) ∧
        ∀ m, n ≤ m →
          (JoinSchedule.roundRobin 2 s).state m = (JoinSchedule.roundRobin 2 s).state n := by
  obtain ⟨evs, s, r, -, henq, hext, -, -, h1, h0, -⟩ := twoTasks_popped
  have hext' : ∀ x ∈ s.extracts, ∃ r, x.pc = .done r := by simp [hext]
  have hfair : ∀ th : Thread, th.InPool 2 → (JoinSchedule.roundRobin 2 s).Fair th :=
    fun th hth => JoinSchedule.roundRobin_fair _ hth
  exact ⟨evs, s, r, h1, h0, henq, hext', hfair,
    fair_join_returns (JoinSchedule.roundRobin 2 _) r henq hext' hfair⟩

end Concore2full.ThreadPool
