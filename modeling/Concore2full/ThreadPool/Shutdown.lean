import Concore2full.ThreadPool.NoLostWakeup
import Concore2full.ThreadPool.Hints

/-! `join` and the end of the workers. Once `stop_requested_` is set, every step of a worker
brings it closer to the end of `thread_main`: `exitDistance` bounds the steps it has left, no other
thread moves it, and it never parks again. So each worker takes at most `2 * work_line_count + 11`
more steps, and from every reachable state where no worker is parked on an un-notified token the
workers can all run to their end and `join` can return. -/

namespace Concore2full.ThreadPool

open WorkLine Function

/-- Every worker of the pool has returned from `thread_main`. -/
def Pool.Exited (lineCount : Nat) (s : Pool) : Prop := ∀ w < lineCount, (s.workers w).pc = .exited

/-- A bound on the steps a worker at `pc` has left once `stop_requested_` is set. -/
def WorkerPc.exitDistance (lineCount : Nat) : WorkerPc → Nat
  | .exited => 0
  | .loop => 1
  | .execute _ _ => 2
  | .popped _ _ => 3
  | .sweep i => 2 * lineCount - i + 4
  | .loadHint => 2 * lineCount + 5
  | .rearm => 2 * lineCount + 6
  | .invalidate => 2 * lineCount + 7
  | .parked | .checkStop => 2 * lineCount + 8
  | .decRequests => 2 * lineCount + 9
  | .storeToken => 2 * lineCount + 10
  | .checkTasks => 2 * lineCount + 11

/-- A bound on the steps `join` at `pc` has left: the store of `stop_requested_`, three per
worker for its `try_notify(0)`, and the joins. -/
def JoinPc.remaining (lineCount : Nat) : JoinPc → Nat
  | .idle => 3 * lineCount + 3
  | .setStop => 3 * lineCount + 2
  | .notify k .fetchAdd => 3 * (lineCount - k) + 1
  | .notify k .storeHint => 3 * (lineCount - k)
  | .notify k .wake => 3 * (lineCount - k) - 1
  | .joinThreads => 1
  | .done => 0

/-- `join`'s loop of `try_notify(0)` is on a worker of the pool. -/
def JoinPc.InRange (lineCount : Nat) : JoinPc → Prop
  | .notify k _ => k < lineCount
  | _ => True

theorem WorkerPc.exitDistance_le (lineCount : Nat) (pc : WorkerPc) :
    pc.exitDistance lineCount ≤ 2 * lineCount + 11 := by
  cases pc <;> simp only [exitDistance] <;> omega

/-- `Run` with the steps of worker `w` counted: `n` of the steps from `s` to `s'` are steps of `w`,
and no other step is. -/
inductive CountedRun (lineCount w : Nat) : Pool → Nat → Pool → Prop
  | refl (s : Pool) : CountedRun lineCount w s 0 s
  | own {s s₁ s₂ : Pool} {n : Nat} {e : Event} (hr : CountedRun lineCount w s n s₁)
      (h : WorkerStep lineCount s₁ w e s₂) : CountedRun lineCount w s (n + 1) s₂
  | other {s s₁ s₂ : Pool} {n : Nat} {e : Event} (hr : CountedRun lineCount w s n s₁)
      (h : Step lineCount s₁ e s₂) (hw : ¬ WorkerStep lineCount s₁ w e s₂) :
      CountedRun lineCount w s n s₂

section Steps

variable {lineCount : Nat} {s s' : Pool} {e : Event}

/-- Every run counts the steps of `w` in it, and every counted run of a worker of the pool is a
run. -/
theorem Run.counted {evs : List Event} (hr : Run lineCount s evs s') (w : Nat) :
    ∃ n, CountedRun lineCount w s n s' := by
  induction hr with
  | refl => exact ⟨0, .refl _⟩
  | @tail s₁ s₂ _ e _ h ih =>
    obtain ⟨n, hc⟩ := ih
    by_cases hw : WorkerStep lineCount s₁ w e s₂
    · exact ⟨n + 1, hc.own hw⟩
    · exact ⟨n, hc.other h hw⟩

theorem CountedRun.run {w n : Nat} (hw : w < lineCount) (hc : CountedRun lineCount w s n s') :
    ∃ evs, Run lineCount s evs s' := by
  induction hc with
  | refl => exact ⟨[], .refl _⟩
  | own _ h ih => obtain ⟨evs, r⟩ := ih; exact ⟨_, r.tail (.worker hw h)⟩
  | other _ h _ ih => obtain ⟨evs, r⟩ := ih; exact ⟨_, r.tail h⟩

theorem WorkerStep.workers_ne {w v : Nat} (h : WorkerStep lineCount s w e s') (hv : v ≠ w) :
    s'.workers v = s.workers v := by
  cases h <;> simp [update_noteq hv]

theorem WorkerStep.pc_ne_exited {w : Nat} (h : WorkerStep lineCount s w e s') :
    (s.workers w).pc ≠ .exited := by
  cases h <;> simp [*]

/-- A step that is not one of worker `w` leaves `w` where it is. -/
theorem Step.pc_eq {w : Nat} (hs : Step lineCount s e s') (hw : ¬ WorkerStep lineCount s w e s') :
    (s'.workers w).pc = (s.workers w).pc := by
  rcases hs.onWorker w with h | ⟨h, -⟩ | ⟨-, h, -⟩ | ⟨-, ⟨_, h⟩, -⟩ | ⟨-, h⟩
  · exact absurd h hw
  all_goals simp [h]

/-- Only `join` moves `join`. -/
theorem Step.join_cases (hs : Step lineCount s e s') :
    s'.join = s.join ∨ JoinStep lineCount s e s' := by
  cases hs with
  | worker _ h => exact .inl h.join_eq.1
  | enqueue h => exact .inl h.join_eq.1
  | extract h => exact .inl h.join_eq.1
  | join h => exact .inr h
  | startEnqueue => exact .inl rfl
  | startExtract => exact .inl rfl

/-- Nothing clears `stop_requested_`. -/
theorem Step.stopRequested (hs : Step lineCount s e s') (h : s.stopRequested = true) :
    s'.stopRequested = true := by
  cases hs with
  | worker _ hw => rw [hw.join_eq.2, h]
  | enqueue he => rw [he.join_eq.2, h]
  | extract hx => rw [hx.join_eq.2, h]
  | join hj => cases hj <;> simp [h]
  | startEnqueue => exact h
  | startExtract => exact h

/-- Once `stop_requested_` is set, every step of a worker brings it closer to its end. -/
theorem WorkerStep.exitDistance_lt {w : Nat} (hstop : s.stopRequested = true)
    (h : WorkerStep lineCount s w e s') :
    (s'.workers w).pc.exitDistance lineCount < (s.workers w).pc.exitDistance lineCount := by
  cases h <;> simp only [Pool.setWorker_workers, update_same, hstop, if_true, *] <;>
    (try split) <;> simp only [WorkerPc.exitDistance] <;> omega

/-- Once `stop_requested_` is set, no worker parks: the load in `sleep` sees the flag. -/
theorem WorkerStep.pc_ne_parked {w : Nat} (hstop : s.stopRequested = true)
    (h : WorkerStep lineCount s w e s') : (s'.workers w).pc ≠ .parked := by
  cases h <;> simp only [Pool.setWorker_workers, update_same, hstop, if_true] <;>
    (try split) <;> simp

/-- Once `stop_requested_` is set, no step parks a worker on an un-notified token. -/
theorem Step.not_parked {w : Nat} (hstop : s.stopRequested = true) (hs : Step lineCount s e s')
    (hp : ¬ (s.workers w).Parked) : ¬ (s'.workers w).Parked := by
  rcases hs.onWorker w with h | ⟨h, -⟩ | ⟨-, h, -⟩ | ⟨-, ⟨_, h⟩, -⟩ | ⟨-, h⟩
  · exact fun hp' => h.pc_ne_parked hstop hp'.1
  all_goals
    rw [h]
    simp only [Worker.Parked, Worker.fetchAdd_pc, Worker.fetchAdd_notified, Worker.notify_pc,
      Worker.notify_notified, Bool.or_eq_false_iff] at hp ⊢
    tauto

/-- A worker that has not returned has a step: for a parked worker, its wake-up. -/
theorem WorkerStep.enabled {w : Nat} (hx : (s.workers w).pc ≠ .exited) :
    ∃ e s', WorkerStep lineCount s w e s' := by
  cases hpc : (s.workers w).pc with
  | exited => exact absurd hpc hx
  | loop => exact ⟨_, _, .loop hpc⟩
  | checkTasks => exact ⟨_, _, .checkTasks hpc⟩
  | storeToken => exact ⟨_, _, .storeToken hpc⟩
  | decRequests => exact ⟨_, _, .decRequests hpc⟩
  | checkStop => exact ⟨_, _, .checkStop hpc⟩
  | parked => exact ⟨_, _, .wake hpc⟩
  | invalidate => exact ⟨_, _, .invalidate hpc⟩
  | rearm => exact ⟨_, _, .rearm hpc⟩
  | loadHint => exact ⟨_, _, .loadHint hpc⟩
  | sweep i => exact ⟨_, _, .sweepMiss hpc (show (tryPop s.heap _ false).1 = none from rfl)⟩
  | popped t line => exact ⟨_, _, .decrement hpc⟩
  | execute t line => exact ⟨_, _, .execute hpc⟩

theorem Step.exited (hs : Step lineCount s e s') (hx : Pool.Exited lineCount s) :
    Pool.Exited lineCount s' := fun w hw => by
  rw [hs.pc_eq fun h => h.pc_ne_exited (hx w hw), hx w hw]

/-- Every step of `join` brings it closer to its return, and keeps its loop on the workers. -/
theorem JoinStep.advance (hin : s.join.InRange lineCount) (h : JoinStep lineCount s e s') :
    s'.join.remaining lineCount < s.join.remaining lineCount ∧ s'.join.InRange lineCount := by
  cases h with
  | call hj => simp [hj, JoinPc.remaining, JoinPc.InRange]
  | joinThreads hj => simp [hj, JoinPc.remaining, JoinPc.InRange]
  | setStop hj => split <;> simp [hj, JoinPc.remaining, JoinPc.InRange, *]
  | notifyAdd hj hk =>
    simp only [hj, joinNext]
    split_ifs <;> simp only [JoinPc.remaining, JoinPc.InRange, and_true] <;> omega
  | notifyStore hj =>
    simp only [hj, JoinPc.InRange] at hin ⊢
    simp only [JoinPc.remaining]
    omega
  | notifyWake hj =>
    simp only [hj, JoinPc.InRange] at hin ⊢
    simp only [joinNext]
    split_ifs <;> simp only [JoinPc.remaining, JoinPc.InRange, and_true] <;> omega

/-- `join` has a step until it returns, once every worker has left `thread_main`. -/
theorem JoinStep.enabled (hin : s.join.InRange lineCount) (hx : Pool.Exited lineCount s)
    (hd : s.join ≠ .done) : ∃ e s', JoinStep lineCount s e s' := by
  cases hj : s.join with
  | idle => exact ⟨_, _, .call hj⟩
  | setStop => exact ⟨_, _, .setStop hj⟩
  | notify k st =>
    rw [hj] at hin
    cases st with
    | fetchAdd => exact ⟨_, _, .notifyAdd hj hin⟩
    | storeHint => exact ⟨_, _, .notifyStore hj⟩
    | wake => exact ⟨_, _, .notifyWake hj⟩
  | joinThreads => exact ⟨_, _, .joinThreads hj hx⟩
  | done => exact absurd hj hd

theorem Step.joinInRange (hs : Step lineCount s e s') (h : s.join.InRange lineCount) :
    s'.join.InRange lineCount := by
  rcases hs.join_cases with hj | hj
  · rwa [hj]
  · exact (hj.advance h).2

theorem Reachable.joinInRange {evs : List Event} (hr : Reachable lineCount evs s) :
    s.join.InRange lineCount := by
  induction hr with
  | refl => trivial
  | tail _ hs ih => exact hs.joinInRange ih

end Steps

/-! ### Once `stop_requested_` is set -/

section Stopping

variable {lineCount : Nat} {s s' : Pool}

/-- Once `stop_requested_` is set, a run counts at most `exitDistance` steps of a worker. -/
theorem CountedRun.exitDistance {w n : Nat} (hc : CountedRun lineCount w s n s')
    (hstop : s.stopRequested = true) :
    s'.stopRequested = true ∧
      n + (s'.workers w).pc.exitDistance lineCount ≤ (s.workers w).pc.exitDistance lineCount := by
  induction hc with
  | refl => exact ⟨hstop, by omega⟩
  | own _ h ih =>
    have := h.exitDistance_lt ih.1
    exact ⟨h.join_eq.2.trans ih.1, by omega⟩
  | other _ h hw ih => exact ⟨h.stopRequested ih.1, by rw [h.pc_eq hw]; exact ih.2⟩

theorem Run.not_parked {evs : List Event} (hr : Run lineCount s evs s')
    (hstop : s.stopRequested = true) (hp : ∀ w < lineCount, ¬ (s.workers w).Parked) :
    s'.stopRequested = true ∧ ∀ w < lineCount, ¬ (s'.workers w).Parked := by
  induction hr with
  | refl => exact ⟨hstop, hp⟩
  | tail _ hs ih => exact ⟨hs.stopRequested ih.1, fun w hw => hs.not_parked ih.1 (ih.2 w hw)⟩

/-- Once `stop_requested_` is set, a worker runs alone to the end of `thread_main`, leaving the
other workers and `join` where they are. -/
theorem WorkerRun.exit {w : Nat} (d : Nat) : ∀ s : Pool,
    (s.workers w).pc.exitDistance lineCount ≤ d → s.stopRequested = true →
    ∃ s', WorkerRun lineCount w s s' ∧ (s'.workers w).pc = .exited ∧
      s'.stopRequested = true ∧ s'.join = s.join ∧ ∀ v ≠ w, s'.workers v = s.workers v := by
  induction d with
  | zero =>
    intro s hd hstop
    by_cases hx : (s.workers w).pc = .exited
    · exact ⟨s, .refl s, hx, hstop, rfl, fun _ _ => rfl⟩
    · obtain ⟨e, s₁, h⟩ : ∃ e s₁, WorkerStep lineCount s w e s₁ :=
        WorkerStep.enabled hx
      have := h.exitDistance_lt hstop
      omega
  | succ d ih =>
    intro s hd hstop
    by_cases hx : (s.workers w).pc = .exited
    · exact ⟨s, .refl s, hx, hstop, rfl, fun _ _ => rfl⟩
    obtain ⟨e, s₁, h⟩ : ∃ e s₁, WorkerStep lineCount s w e s₁ := WorkerStep.enabled hx
    have := h.exitDistance_lt hstop
    obtain ⟨s', r, hx', hstop', hj, hv⟩ :=
      ih s₁ (by omega) (h.join_eq.2.trans hstop)
    exact ⟨s', .step h r, hx', hstop', hj.trans h.join_eq.1,
      fun v hne => (hv v hne).trans (h.workers_ne hne)⟩

/-- Once `stop_requested_` is set, the workers below `k` can run one after the other to the end of
`thread_main`. -/
theorem exit_below (hstop : s.stopRequested = true) (k : Nat) (hk : k ≤ lineCount) :
    ∃ evs s', Run lineCount s evs s' ∧ s'.stopRequested = true ∧ s'.join = s.join ∧
      (∀ w < k, (s'.workers w).pc = .exited) ∧
      ∀ w, k ≤ w → s'.workers w = s.workers w := by
  induction k with
  | zero => exact ⟨[], s, .refl s, hstop, rfl, fun _ h => absurd h (Nat.not_lt_zero _),
      fun _ _ => rfl⟩
  | succ k ih =>
    obtain ⟨evs, s₁, r₁, hstop₁, hj₁, hx₁, hv₁⟩ := ih (by omega)
    obtain ⟨s₂, r, hx₂, hstop₂, hj₂, hv₂⟩ :=
      WorkerRun.exit (w := k) _ s₁ le_rfl hstop₁
    obtain ⟨evs', r₂⟩ := r.run (show k < lineCount by omega)
    refine ⟨evs ++ evs', s₂, r₁.append r₂, hstop₂, hj₂.trans hj₁, fun w hw => ?_,
      fun w hw => (hv₂ w (by omega)).trans (hv₁ w (by omega))⟩
    rcases Nat.lt_succ_iff_lt_or_eq.mp hw with hw | rfl
    · rw [hv₂ w (by omega)]; exact hx₁ w hw
    · exact hx₂

/-- Once every worker has left `thread_main`, `join` runs to its return. -/
theorem join_returns (d : Nat) : ∀ s : Pool, s.join.remaining lineCount ≤ d →
    s.join.InRange lineCount → Pool.Exited lineCount s →
    ∃ evs s', Run lineCount s evs s' ∧ s'.join = .done ∧ Pool.Exited lineCount s' := by
  induction d with
  | zero =>
    intro s hd hin hx
    by_cases hj : s.join = .done
    · exact ⟨[], s, .refl s, hj, hx⟩
    · obtain ⟨e, s₁, h⟩ := JoinStep.enabled hin hx hj
      have := (h.advance hin).1
      omega
  | succ d ih =>
    intro s hd hin hx
    by_cases hj : s.join = .done
    · exact ⟨[], s, .refl s, hj, hx⟩
    obtain ⟨e, s₁, h⟩ := JoinStep.enabled hin hx hj
    obtain ⟨hlt, hin₁⟩ := h.advance hin
    obtain ⟨evs, s', r, hj', hx'⟩ := ih s₁ (by omega) hin₁ ((Step.join h).exited hx)
    exact ⟨_, s', Run.head (.join h) r, hj', hx'⟩

/-- What holds in every run from a state where `stop_requested_` is set and no worker is parked on
an un-notified token. -/
structure Draining (lineCount : Nat) (s : Pool) : Prop where
  /-- no worker parks on an un-notified token again, so every wake-up is one that a `try_notify`
  asked for -/
  never_parked : ∀ evs s', Run lineCount s evs s' → ∀ w < lineCount, ¬ (s'.workers w).Parked
  /-- a worker takes at most `2 * work_line_count + 11` more steps -/
  bounded : ∀ w n s', CountedRun lineCount w s n s' → n ≤ 2 * lineCount + 11
  /-- and some run takes every worker out of `thread_main` and returns from `join` -/
  drains : ∃ evs s', Run lineCount s evs s' ∧ Pool.Exited lineCount s' ∧ s'.join = .done

/-- From every reachable state where `stop_requested_` is set and no worker is parked on an
un-notified token, the workers end within a bounded number of their own steps, and `join` can
return. -/
theorem shutdown_drains {evs : List Event} (hr : Reachable lineCount evs s)
    (hstop : s.stopRequested = true) (hp : ∀ w < lineCount, ¬ (s.workers w).Parked) :
    Draining lineCount s := by
  refine ⟨fun _ _ r => (r.not_parked hstop hp).2, fun w n s' hc => ?_, ?_⟩
  · have := (hc.exitDistance hstop).2
    have := (s.workers w).pc.exitDistance_le lineCount
    omega
  · obtain ⟨evs₁, s₁, r₁, -, hj₁, hx₁, -⟩ := exit_below hstop lineCount le_rfl
    obtain ⟨evs₂, s₂, r₂, hj₂, hx₂⟩ :=
      join_returns _ s₁ le_rfl (hj₁ ▸ hr.joinInRange) hx₁
    exact ⟨_, s₂, r₁.append r₂, hx₂, hj₂⟩

/-- The pool of `twoTasks_popped`, where `join` is then called and sets `stop_requested_`: worker 0
is at the top of its loop and worker 1 holds task 6. -/
theorem shutdown_drains_after_stop :
    ∃ evs s, Reachable 2 evs s ∧ s.stopRequested = true ∧ (s.workers 1).pc = .popped 6 1 ∧
      s.heap.tasksStack 0 = some 5 ∧ (∀ w < 2, ¬ (s.workers w).Parked) ∧ Draining 2 s := by
  obtain ⟨evs, s, r, -, -, -, hj, -, h1, h0, -, -, hw0⟩ := twoTasks_popped
  have r := Run.tail r (Step.join (.call hj))
  have r := Run.tail r (Step.join (.setStop rfl))
  have hp : ∀ w < 2, ¬ (s.workers w).Parked := fun w hw h => by
    obtain rfl | rfl : w = 0 ∨ w = 1 := by omega
    · exact nomatch hw0.symm.trans h.1
    · exact nomatch h1.symm.trans h.1
  exact ⟨_, _, r, rfl, h1, h0, hp, shutdown_drains r rfl hp⟩

end Stopping

end Concore2full.ThreadPool
