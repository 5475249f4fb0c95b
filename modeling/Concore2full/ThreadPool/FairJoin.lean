import Concore2full.ThreadPool.Fair

/-! `join` returns under every fair schedule of the threads of a pool that is being destroyed. A
schedule here is an infinite sequence of steps of the workers and of the thread that calls `join`
(`~thread_pool` does), with no call of `enqueue` or `extract_task` in progress or started and no
worker waking before its token is notified; it stands still only when no thread can step. It is
fair when a thread that can step from some time on does step. From every reachable state with no
call of `enqueue` or `extract_task` in progress, such a schedule runs `join` to its return and then
stands still, with every worker out of `thread_main`.

The proof has three stages. `join` can step until its joins, and each of its steps lowers
`JoinPc.remaining`, so it reaches them. There `stop_requested_` is set and, every worker's token
having been notified, no worker is parked on an un-notified token; from then on each step of a
worker lowers its `exitDistance`, so each worker leaves `thread_main`. Then the joins can return,
and `join` does. -/

namespace Concore2full.ThreadPool

open WorkLine Function

/-- A thread of a pool that is being destroyed: a worker, or the thread in `join`. -/
inductive Thread
  | worker (w : Nat)
  | joiner
  deriving DecidableEq, Repr

instance (lineCount : Nat) (s : Pool) : Decidable (Pool.Exited lineCount s) :=
  inferInstanceAs (Decidable (∀ w < lineCount, _))

instance (lineCount : Nat) : (pc : JoinPc) → Decidable (pc.InRange lineCount)
  | .notify k _ => inferInstanceAs (Decidable (k < lineCount))
  | .idle | .setStop | .joinThreads | .done => inferInstanceAs (Decidable True)

/-- `join` can take a step: it has not returned, its loop of `try_notify(0)` is on a worker, and
it is in its joins only once every worker has left `thread_main`. -/
def Pool.JoinReady (lineCount : Nat) (s : Pool) : Prop :=
  s.join ≠ .done ∧ s.join.InRange lineCount ∧ (s.join = .joinThreads → Pool.Exited lineCount s)

instance (lineCount : Nat) (s : Pool) : Decidable (s.JoinReady lineCount) :=
  inferInstanceAs (Decidable (_ ∧ _ ∧ _))

namespace Thread

/-- One of the threads of a pool of `lineCount` lines. -/
def InPool (lineCount : Nat) : Thread → Prop
  | worker w => w < lineCount
  | joiner => True

/-- The thread can take a step from `s`. -/
def Ready (lineCount : Nat) (s : Pool) : Thread → Prop
  | worker w => (s.workers w).Ready
  | joiner => s.JoinReady lineCount

instance (lineCount : Nat) (s : Pool) : (th : Thread) → Decidable (th.Ready lineCount s)
  | worker w => inferInstanceAs (Decidable (s.workers w).Ready)
  | joiner => inferInstanceAs (Decidable (s.JoinReady lineCount))

end Thread

/-- Thread `th` takes the step labelled `e` from `s` to `s'`: a worker of the pool, not parked on
an un-notified token, a step of `thread_main`; the thread in `join` a step of `join`. -/
def ThreadStep (lineCount : Nat) (s : Pool) : Thread → Event → Pool → Prop
  | .worker w, e, s' => w < lineCount ∧ ¬ (s.workers w).Parked ∧ WorkerStep lineCount s w e s'
  | .joiner, e, s' => JoinStep lineCount s e s'

/-- An infinite schedule of the threads of a pool of `lineCount` lines being destroyed: at each
time `n` thread `thread n` takes the step labelled `event n`; or, when no thread of the pool can
step, nothing happens. -/
structure JoinSchedule (lineCount : Nat) where
  state : Nat → Pool
  thread : Nat → Thread
  event : Nat → Event
  next : ∀ n, ThreadStep lineCount (state n) (thread n) (event n) (state (n + 1)) ∨
    ((∀ th : Thread, th.InPool lineCount → ¬ th.Ready lineCount (state n)) ∧ event n = .silent ∧
      state (n + 1) = state n)

/-- Weak fairness to thread `th`: a thread ready at every time from some time on steps at some
time after it. -/
def JoinSchedule.Fair {lineCount : Nat} (sch : JoinSchedule lineCount) (th : Thread) : Prop :=
  ∀ n, (∀ m, n ≤ m → th.Ready lineCount (sch.state m)) → ∃ m, n ≤ m ∧ sch.thread m = th

section Steps

variable {lineCount : Nat} {s s' : Pool} {e : Event}

/-- `join` moves no worker along `thread_main`. -/
theorem JoinStep.pc_eq (h : JoinStep lineCount s e s') (w : Nat) :
    (s'.workers w).pc = (s.workers w).pc := by
  cases h <;> simp only [Pool.setWorker_workers, update_apply] <;> (try split) <;>
    simp_all [Worker.fetchAdd_pc, Worker.notify_pc]

theorem JoinStep.join_ne_done (h : JoinStep lineCount s e s') : s.join ≠ .done := by
  cases h <;> simp_all

/-- From its joins, `join` returns. -/
theorem JoinStep.done_of_joinThreads (h : JoinStep lineCount s e s')
    (hj : s.join = .joinThreads) : s'.join = .done := by
  cases h <;> simp_all

/-- Once `join` is in its joins, it stays there until it returns. -/
theorem Step.joined (hs : Step lineCount s e s') (h : s.join = .joinThreads ∨ s.join = .done) :
    s'.join = .joinThreads ∨ s'.join = .done := by
  rcases hs.join_cases with hj | hj
  · rwa [hj]
  · exact .inr (h.elim hj.done_of_joinThreads fun h => absurd h hj.join_ne_done)

theorem Step.pc_exited {w : Nat} (hs : Step lineCount s e s')
    (hx : (s.workers w).pc = .exited) : (s'.workers w).pc = .exited := by
  rw [hs.pc_eq fun h => h.pc_ne_exited hx, hx]

theorem ThreadStep.step {th : Thread} (h : ThreadStep lineCount s th e s') :
    Step lineCount s e s' := by
  cases th with
  | worker w => exact .worker h.1 h.2.2
  | joiner => exact .join h

/-- The threads of a pool being destroyed start no call of `enqueue` or `extract_task`, and move
none. -/
theorem ThreadStep.calls_eq {th : Thread} (h : ThreadStep lineCount s th e s') :
    s'.enqueues = s.enqueues ∧ s'.extracts = s.extracts := by
  cases th with
  | worker w => cases h.2.2 <;> exact ⟨rfl, rfl⟩
  | joiner => cases (h : JoinStep lineCount s e s') <;> exact ⟨rfl, rfl⟩

end Steps

namespace JoinSchedule

variable {lineCount : Nat} {sch : JoinSchedule lineCount}

theorem step_or_eq (n : Nat) :
    Step lineCount (sch.state n) (sch.event n) (sch.state (n + 1)) ∨
      sch.state (n + 1) = sch.state n :=
  (sch.next n).imp ThreadStep.step fun h => h.2.2

/-- What every step of the pool keeps, the schedule keeps from a time it holds on. -/
theorem keep {P : Pool → Prop} (hP : ∀ s e s', P s → Step lineCount s e s' → P s') {n : Nat}
    (h : P (sch.state n)) (m : Nat) (hm : n ≤ m) : P (sch.state m) :=
  Nat.le_induction h (fun k _ ih => (sch.step_or_eq k).elim (hP _ _ _ ih) fun he => he ▸ ih) m hm

theorem reachable {evs : List Event} (hr : Reachable lineCount evs (sch.state 0)) (n : Nat) :
    ∃ evs, Reachable lineCount evs (sch.state n) :=
  keep (P := fun s => ∃ evs, Reachable lineCount evs s) (fun _ _ _ ⟨_, r⟩ h => ⟨_, r.tail h⟩)
    ⟨evs, hr⟩ n (Nat.zero_le n)

theorem calls_eq (n : Nat) : (sch.state n).enqueues = (sch.state 0).enqueues ∧
    (sch.state n).extracts = (sch.state 0).extracts := by
  induction n with
  | zero => exact ⟨rfl, rfl⟩
  | succ n ih =>
    rcases sch.next n with h | ⟨-, -, h⟩
    · exact ⟨h.calls_eq.1.trans ih.1, h.calls_eq.2.trans ih.2⟩
    · rw [h]
      exact ih

/-- `join` moves only when it is scheduled and ready, and then takes a step. -/
theorem join_cases (n : Nat) :
    ((sch.state (n + 1)).join = (sch.state n).join ∧
      (sch.thread n = .joiner → ¬ (sch.state n).JoinReady lineCount)) ∨
    (sch.thread n = .joiner ∧
      JoinStep lineCount (sch.state n) (sch.event n) (sch.state (n + 1))) := by
  rcases sch.next n with h | ⟨hno, -, h⟩
  · cases hth : sch.thread n with
    | worker w =>
      rw [hth] at h
      exact .inl ⟨h.2.2.join_eq.1, by simp⟩
    | joiner =>
      rw [hth] at h
      exact .inr ⟨rfl, h⟩
  · exact .inl ⟨by rw [h], fun _ => hno .joiner trivial⟩

/-- A worker of the pool moves only when it is scheduled and ready, and then takes a step. -/
theorem worker_cases {w : Nat} (hw : w < lineCount) (n : Nat) :
    (((sch.state (n + 1)).workers w).pc = ((sch.state n).workers w).pc ∧
      (sch.thread n = .worker w → ¬ ((sch.state n).workers w).Ready)) ∨
    (sch.thread n = .worker w ∧
      WorkerStep lineCount (sch.state n) w (sch.event n) (sch.state (n + 1))) := by
  rcases sch.next n with h | ⟨hno, -, h⟩
  · cases hth : sch.thread n with
    | worker v =>
      rw [hth] at h
      by_cases hvw : v = w
      · subst hvw
        exact .inr ⟨rfl, h.2.2⟩
      · exact .inl ⟨by rw [h.2.2.workers_ne (Ne.symm hvw)],
          fun h' => absurd (Thread.worker.inj h') hvw⟩
    | joiner =>
      rw [hth] at h
      exact .inl ⟨h.pc_eq w, by simp⟩
  · exact .inl ⟨by rw [h], fun _ => hno (.worker w) hw⟩

/-- Scheduled fairly, `join` reaches its joins. -/
theorem reaches_joins (hfair : sch.Fair .joiner)
    (hin : ∀ n, (sch.state n).join.InRange lineCount) :
    ∃ n, (sch.state n).join = .joinThreads ∨ (sch.state n).join = .done := by
  by_cases h0 : (sch.state 0).join = .joinThreads ∨ (sch.state 0).join = .done
  · exact ⟨0, h0⟩
  have hready : ∀ m, ¬ ((sch.state m).join = .joinThreads ∨ (sch.state m).join = .done) →
      (sch.state m).JoinReady lineCount := fun m hm =>
    ⟨fun h => hm (.inr h), hin m, fun h => absurd (.inl h) hm⟩
  refine (eventually_of_fair hfair
    (fun m => ¬ ((sch.state m).join = .joinThreads ∨ (sch.state m).join = .done))
    (fun m => (sch.state m).join = .joinThreads ∨ (sch.state m).join = .done)
    (fun m => (sch.state m).join.remaining lineCount) h0 hready fun m _ hm => ?_).imp
    fun _ h => h.2
  rcases sch.join_cases m with ⟨hj, hno⟩ | ⟨-, h⟩
  · exact .inr ⟨by simpa only [hj] using hm, (congrArg (JoinPc.remaining lineCount) hj).le,
      fun hth => absurd (hready m hm) (hno hth)⟩
  · have hlt := (h.advance (hin m)).1
    by_cases h1 : (sch.state (m + 1)).join = .joinThreads ∨ (sch.state (m + 1)).join = .done
    · exact .inl h1
    · exact .inr ⟨h1, hlt.le, fun _ => hlt⟩

/-- Once `stop_requested_` is set and no worker is parked on an un-notified token, a worker
scheduled fairly leaves `thread_main`. -/
theorem exits {w n₁ : Nat} (hw : w < lineCount) (hfair : sch.Fair (.worker w))
    (hstop : ∀ m, n₁ ≤ m → (sch.state m).stopRequested = true ∧
      ∀ v < lineCount, ¬ ((sch.state m).workers v).Parked) :
    ∃ n, ((sch.state n).workers w).pc = .exited := by
  by_cases h0 : ((sch.state n₁).workers w).pc = .exited
  · exact ⟨n₁, h0⟩
  have hready : ∀ m, n₁ ≤ m ∧ ((sch.state m).workers w).pc ≠ .exited →
      ((sch.state m).workers w).Ready := fun m hm => ⟨(hstop m hm.1).2 w hw, hm.2⟩
  refine (eventually_of_fair hfair
    (fun m => n₁ ≤ m ∧ ((sch.state m).workers w).pc ≠ .exited)
    (fun m => ((sch.state m).workers w).pc = .exited)
    (fun m => ((sch.state m).workers w).pc.exitDistance lineCount) ⟨le_rfl, h0⟩ hready
    fun m _ hm => ?_).imp fun _ h => h.2
  rcases sch.worker_cases hw m with ⟨hpc, hno⟩ | ⟨-, h⟩
  · exact .inr ⟨⟨by omega, hpc ▸ hm.2⟩, (congrArg (WorkerPc.exitDistance lineCount) hpc).le,
      fun hth => absurd (hready m hm) (hno hth)⟩
  · have hlt := h.exitDistance_lt (hstop m hm.1).1
    by_cases hx : ((sch.state (m + 1)).workers w).pc = .exited
    · exact .inl hx
    · exact .inr ⟨⟨by omega, hx⟩, hlt.le, fun _ => hlt⟩

/-- Every worker of the pool, scheduled fairly, leaves `thread_main` once `stop_requested_` is set
and no worker is parked on an un-notified token. -/
theorem all_exit {n₁ : Nat} (hfair : ∀ w < lineCount, sch.Fair (.worker w))
    (hstop : ∀ m, n₁ ≤ m → (sch.state m).stopRequested = true ∧
      ∀ v < lineCount, ¬ ((sch.state m).workers v).Parked) :
    ∃ n, Pool.Exited lineCount (sch.state n) := by
  have hkeep : ∀ {w n}, ((sch.state n).workers w).pc = .exited → ∀ m, n ≤ m →
      ((sch.state m).workers w).pc = .exited := fun h =>
    keep (P := fun s => (s.workers _).pc = .exited) (fun _ _ _ hx hs => hs.pc_exited hx) h
  suffices ∀ k ≤ lineCount, ∃ n, ∀ w < k, ((sch.state n).workers w).pc = .exited from
    this lineCount le_rfl
  intro k hk
  induction k with
  | zero => exact ⟨0, fun _ h => absurd h (Nat.not_lt_zero _)⟩
  | succ k ih =>
    obtain ⟨n, hn⟩ := ih (by omega)
    obtain ⟨n', hn'⟩ := sch.exits (by omega) (hfair k (by omega)) hstop
    refine ⟨max n n', fun w hw => ?_⟩
    rcases Nat.lt_succ_iff_lt_or_eq.mp hw with hw | rfl
    · exact hkeep (hn w hw) _ (le_max_left _ _)
    · exact hkeep hn' _ (le_max_right _ _)

/-- Once every worker has left `thread_main`, `join` in its joins, scheduled fairly, returns. -/
theorem returns {n₂ : Nat} (hfair : sch.Fair .joiner)
    (hx : ∀ m, n₂ ≤ m → Pool.Exited lineCount (sch.state m))
    (hj : (sch.state n₂).join = .joinThreads) : ∃ n, n₂ ≤ n ∧ (sch.state n).join = .done := by
  have hready : ∀ m, n₂ ≤ m ∧ (sch.state m).join = .joinThreads →
      (sch.state m).JoinReady lineCount := fun m hm =>
    ⟨by simp [hm.2], by simp [hm.2, JoinPc.InRange], fun _ => hx m hm.1⟩
  refine (eventually_of_fair hfair
    (fun m => n₂ ≤ m ∧ (sch.state m).join = .joinThreads) (fun m => (sch.state m).join = .done)
    (fun m => (sch.state m).join.remaining lineCount) ⟨le_rfl, hj⟩ hready fun m _ hm => ?_).imp
    fun _ h => ⟨h.1.le, h.2⟩
  rcases sch.join_cases m with ⟨hj', hno⟩ | ⟨-, h⟩
  · exact .inr ⟨⟨by omega, hj'.trans hm.2⟩, (congrArg (JoinPc.remaining lineCount) hj').le,
      fun hth => absurd (hready m hm) (hno hth)⟩
  · exact .inl (h.done_of_joinThreads hm.2)

/-- Once `join` has returned and every worker has left `thread_main`, no thread can step, and the
schedule stands still. -/
theorem still {n : Nat} (hd : (sch.state n).join = .done)
    (hx : Pool.Exited lineCount (sch.state n)) (m : Nat) (hm : n ≤ m) :
    sch.state m = sch.state n := by
  induction m, hm using Nat.le_induction with
  | base => rfl
  | succ m _ ih =>
    rcases sch.next m with h | ⟨-, -, h⟩
    · exfalso
      cases hth : sch.thread m with
      | worker w =>
        rw [hth] at h
        exact h.2.2.pc_ne_exited (ih ▸ hx w h.1)
      | joiner =>
        rw [hth] at h
        exact h.join_ne_done (ih ▸ hd)
    · rw [h, ih]

end JoinSchedule

/-- `join` returns under every fair schedule. From a reachable state where no call of `enqueue` or
`extract_task` is in progress, every schedule of the workers and of the thread in `join`, fair to
each of them, reaches a state where `join` has returned and every worker has left `thread_main`,
and stands still from then on. -/
theorem fair_join_returns {lineCount : Nat} (sch : JoinSchedule lineCount) {evs : List Event}
    (hr : Reachable lineCount evs (sch.state 0))
    (henq : ∀ c ∈ (sch.state 0).enqueues, c.pc = .done)
    (hext : ∀ x ∈ (sch.state 0).extracts, ∃ r, x.pc = .done r)
    (hfair : ∀ th, th.InPool lineCount → sch.Fair th) :
    ∃ n, (sch.state n).join = .done ∧ Pool.Exited lineCount (sch.state n) ∧
      ∀ m, n ≤ m → sch.state m = sch.state n := by
  have hreach := sch.reachable hr
  -- the loop of `try_notify(0)` ends
  obtain ⟨n₁, hj₁⟩ := sch.reaches_joins (hfair .joiner trivial) fun n =>
    let ⟨_, r⟩ := hreach n; r.joinInRange
  obtain ⟨evs₁, r₁⟩ := hreach n₁
  have hq : (sch.state n₁).Settled :=
    ⟨fun c hc => henq c ((sch.calls_eq n₁).1 ▸ hc), fun x hx => hext x ((sch.calls_eq n₁).2 ▸ hx),
      hj₁.elim (.inr ∘ .inl) (.inr ∘ .inr)⟩
  have hstop : (sch.state n₁).stopRequested = true :=
    r₁.joinInv.stop.mpr (by rcases hj₁ with h | h <;> simp [h])
  -- every worker leaves `thread_main`
  obtain ⟨n₂, hx₂⟩ := sch.all_exit (fun w hw => hfair (.worker w) hw)
    (JoinSchedule.keep (P := fun s => s.stopRequested = true ∧
      ∀ v < lineCount, ¬ (s.workers v).Parked)
      (fun _ _ _ ⟨hs, hp⟩ h => ⟨h.stopRequested hs, fun v hv => h.not_parked hs (hp v hv)⟩)
      ⟨hstop, r₁.awake_of_joined hq hj₁⟩)
  have hx : ∀ m, max n₁ n₂ ≤ m → Pool.Exited lineCount (sch.state m) := fun m hm =>
    JoinSchedule.keep (fun _ _ _ hx h => h.exited hx) hx₂ m (le_of_max_le_right hm)
  -- the joins return
  have hj₃ := JoinSchedule.keep (fun _ _ _ hj h => h.joined hj) hj₁ (max n₁ n₂) (le_max_left _ _)
  obtain ⟨n, hn, hd⟩ : ∃ n, max n₁ n₂ ≤ n ∧ (sch.state n).join = .done := by
    rcases hj₃ with h | h
    · exact sch.returns (hfair .joiner trivial) hx h
    · exact ⟨_, le_rfl, h⟩
  exact ⟨n, hd, hx n hn, sch.still hd (hx n hn)⟩

end Concore2full.ThreadPool
