import Concore2full.ThreadPool.Counter
import Concore2full.ThreadPool.Wakeup
import Mathlib.Algebra.Order.BigOperators.Group.Finset

/-! Wake-ups, in a state where no call of `enqueue` or `extract_task` is in progress and `join`,
if called, has finished its `try_notify` loop. On every run, once `stop_requested_` is set no worker
is parked on an un-notified token: `join` notifies every worker it reaches in `sleep`, or a
successful `try_notify` on it is on its way. On runs where no counter wraps around, no wake-up is
lost either: a worker is parked only when no line holds a task. The argument: a worker parked on an
un-notified token has `wake_requests_` at 0, since a successful `try_notify` would be in progress
otherwise; a worker on its way to such a park (`Worker.Dormant`) got there by reading `num_tasks_`
at 0, and every later increment of `num_tasks_` either starts a `try_notify` loop or found more
tasks than workers, which an earlier loop covers. When `wake_requests_` wraps around, a wake-up is
lost: the `try_notify` of an `enqueue` finds the wrapped 0 before the worker's token is stored. -/

namespace Concore2full.ThreadPool

open WorkLine Function

/-! ### Dormant workers -/

/-- A worker on its way to a park that nothing has interrupted: it read `num_tasks_` at 0, no
`fetch_add` reached it since, and its token was not notified. -/
def Worker.Dormant (W : Worker) : Prop :=
  (W.pc = .storeToken ∧ W.wakeRequests = 1) ∨
  (W.pc = .decRequests ∧ W.wakeRequests = 1 ∧ W.notified = false) ∨
  ((W.pc = .checkStop ∨ W.pc = .parked) ∧ W.wakeRequests = 0 ∧ W.notified = false)

instance (W : Worker) : Decidable W.Dormant := inferInstanceAs (Decidable (_ ∨ _))

section Dormant

variable {lineCount : Nat} {evs : List Event} {s s' : Pool} {e : Event} {w : Nat}

/-- A step of worker `w` after which it is dormant started from a dormant state, or was its load
of `num_tasks_` at 0. -/
theorem WorkerStep.dormant_back (hs : WorkerStep lineCount s w e s') (hd : (s'.workers w).Dormant) :
    (s.workers w).Dormant ∨ ((s.workers w).pc = .checkTasks ∧ s'.numTasks = 0) := by
  cases hs with
  | checkTasks hpc =>
    by_cases h0 : s.numTasks = 0
    · exact .inr ⟨hpc, h0⟩
    · simp [Worker.Dormant, h0] at hd
  | storeToken hpc => simp_all [Worker.Dormant]
  | decRequests hpc =>
    left
    simp only [Worker.Dormant, Pool.setWorker_workers, update_same] at hd ⊢
    split at hd <;> simp_all
  | checkStop hpc =>
    left
    simp only [Worker.Dormant, Pool.setWorker_workers, update_same] at hd ⊢
    split at hd <;> simp_all
  | sweepMiss hpc =>
    simp only [Worker.Dormant, Pool.setWorker_workers, update_same] at hd
    split at hd <;> simp at hd
  | loop hpc =>
    simp only [Worker.Dormant, Pool.setWorker_workers, update_same] at hd
    split at hd <;> simp at hd
  | _ hpc => simp [Worker.Dormant] at hd

/-- A notification of a worker dormant after it left it dormant. -/
theorem Worker.Dormant.of_notify {W : Worker} (hd : W.notify.Dormant) : W.Dormant := by
  simp only [Worker.Dormant, Worker.notify_pc, Worker.notify_wakeRequests,
    Worker.notify_notified, Bool.or_eq_false_iff] at hd
  rcases hd with h | ⟨h1, h2, -, h3⟩ | ⟨h1, h2, -, h3⟩
  · exact .inl h
  · exact .inr (.inl ⟨h1, h2, h3⟩)
  · exact .inr (.inr ⟨h1, h2, h3⟩)

/-- A `fetch_add` from below `INT_MAX` on a worker leaves it not dormant. -/
theorem WakeInv.fetchAdd_not_dormant {ops : List WakeOp} {due : LoopTop} {W : Worker}
    (h : WakeInv ops due W) (hfit : W.wakeRequests < 2 ^ 31 - 1) : ¬ W.fetchAdd.Dormant := by
  have h0 := h.nonneg
  simp only [Worker.Dormant, Worker.fetchAdd_pc, Worker.fetchAdd_wakeRequests,
    toInt32_eq_self (show -2 ^ 31 ≤ W.wakeRequests + 1 by omega) (by omega)]
  rintro (⟨hp, h1⟩ | ⟨hp, h1, -⟩ | ⟨-, h1, -⟩)
  · have := h.armed (by simp [hp, WorkerPc.afterFetchSub]); omega
  · have := h.armed (by simp [hp, WorkerPc.afterFetchSub]); omega
  · omega

/-- After a step, a dormant worker was dormant before, or the step was its load of `num_tasks_` at
0. A `fetch_add` on a worker leaves it not dormant. -/
theorem Step.dormant_back (hs : Step lineCount s e s') (hW : WorkerWake evs s w)
    (hfit : (s.workers w).wakeRequests < 2 ^ 31 - 1) (hd : (s'.workers w).Dormant) :
    (s.workers w).Dormant ∨ ((s.workers w).pc = .checkTasks ∧ s'.numTasks = 0) := by
  rcases hs.onWorker w with
    hw | ⟨hW', -, -⟩ | ⟨-, hW', -, -⟩ | ⟨-, ⟨hint, hW'⟩, -⟩ | ⟨-, hW'⟩
  · exact hw.dormant_back hd
  · exact .inl (hW' ▸ hd)
  · exact absurd (hW' ▸ hd) (hW.fetchAdd_not_dormant hfit)
  · rw [hW'] at hd; exact .inl hd
  · rw [hW'] at hd
    exact .inl hd.of_notify

/-- A call of `enqueue` about to run the `fetch_add` of a `try_notify`. -/
def EnqueuePc.atFetchAdd : EnqueuePc → Bool
  | .notify _ _ .fetchAdd => true
  | _ => false

/-- Some call of `enqueue` is about to run the `fetch_add` of a `try_notify`. -/
def Pool.wakingUp (s : Pool) : Bool := s.enqueues.any fun c => c.pc.atFetchAdd

/-- What a step does to `num_tasks_` and to the calls of `enqueue` in their `try_notify` loop: it
keeps or decrements the one and keeps the others; or it is the increment of a call of `enqueue`,
which starts its loop unless `num_tasks_` was above the number of workers; or it is a `fetch_add`
on a worker. -/
theorem Step.numTasks_cases (hs : Step lineCount s e s') :
    ((s'.numTasks = s.numTasks ∨ s'.numTasks = toInt32 (s.numTasks - 1)) ∧
      (s.wakingUp = true → s'.wakingUp = true)) ∨
    (s'.numTasks = toInt32 (s.numTasks + 1) ∧ (s.numTasks ≤ lineCount → s'.wakingUp = true) ∧
      (s.wakingUp = true → s'.wakingUp = true)) ∨
    (∃ k < lineCount, s'.workers k = (s.workers k).fetchAdd) := by
  cases hs with
  | worker _ hw => cases hw <;> exact .inl ⟨by simp, id⟩
  | enqueue he =>
    cases he with
    | @increment t line he =>
      refine .inr (.inl ⟨rfl, fun hle => ?_,
        any_set_of_imp he (by simp [EnqueuePc.atFetchAdd])⟩)
      simp only [Pool.wakingUp, Pool.setEnqueue_enqueues, hle, if_true]
      exact List.any_eq_true.mpr ⟨_, mem_set_self he _, rfl⟩
    | notifyAdd _ hk => exact .inr (.inr ⟨_, hk, by simp⟩)
    | _ he => exact .inl ⟨.inl rfl, any_set_of_imp he (by simp [EnqueuePc.atFetchAdd])⟩
  | extract hx => cases hx <;> exact .inl ⟨by simp, id⟩
  | join hj =>
    cases hj with
    | notifyAdd _ hk => exact .inr (.inr ⟨_, hk, by simp⟩)
    | _ => exact .inl ⟨.inl rfl, id⟩
  | startEnqueue t =>
    refine .inl ⟨.inl rfl, fun h => ?_⟩
    simp [Pool.wakingUp, List.any_append] at h ⊢
    exact .inl h
  | startExtract t => exact .inl ⟨.inl rfl, id⟩

/-- When every worker is dormant, `num_tasks_` is at most 0 or a call of `enqueue` is in its
`try_notify` loop. -/
def DormantInv (lineCount : Nat) (s : Pool) : Prop :=
  (∀ w < lineCount, (s.workers w).Dormant) → s.numTasks ≤ 0 ∨ s.wakingUp = true

theorem DormantInv.step (h : DormantInv lineCount s) (hwake : ∀ w, WorkerWake evs s w)
    (hfit : s.Fits) (hs : Step lineCount s e s') : DormantInv lineCount s' := by
  intro hall
  by_cases h0 : s'.numTasks = 0
  · exact .inl h0.le
  obtain ⟨hlo, hhi, hw⟩ := hfit
  have hall0 : ∀ w < lineCount, (s.workers w).Dormant := fun w hw' =>
    (hs.dormant_back (hwake w) (hw w) (hall w hw')).resolve_right fun hc => h0 hc.2
  rcases hs.numTasks_cases with ⟨hle, hp⟩ | ⟨hnum, hinc, hp⟩ | ⟨k, hk, hW⟩
  · have hle' : s'.numTasks ≤ s.numTasks := by
      rcases hle with hle | hle
      · exact hle.le
      · rw [hle, toInt32_eq_self (by omega) (by omega)]; omega
    rcases h hall0 with h1 | h1
    · exact .inl (hle'.trans h1)
    · exact .inr (hp h1)
  · by_cases hle : s.numTasks ≤ lineCount
    · exact .inr (hinc hle)
    · rcases h hall0 with h1 | h1
      · omega
      · exact .inr (hp h1)
  · exact absurd (hW ▸ hall k hk) ((hwake k).fetchAdd_not_dormant (hw k))

theorem SafeReachable.dormantInv {lineCount : Nat} {evs : List Event} {s : Pool}
    (hr : SafeReachable lineCount evs s) : DormantInv lineCount s := by
  induction hr with
  | refl => exact fun _ => .inl le_rfl
  | tail hr hs _ ih => exact ih.step (fun w => SafeReachable.workerWake hr w) hr.fits hs

end Dormant

/-! ### `join` -/

section Join

variable {lineCount : Nat} {evs : List Event} {s s' : Pool} {e : Event}

/-- The workers whose `wake_requests_` `join` has run its `fetch_add` on: those below this. -/
def JoinPc.reached (lineCount : Nat) : JoinPc → Nat
  | .idle | .setStop => 0
  | .notify k .fetchAdd => k
  | .notify k _ => k + 1
  | .joinThreads | .done => lineCount

theorem WorkerStep.join_eq {w : Nat} (hs : WorkerStep lineCount s w e s') :
    s'.join = s.join ∧ s'.stopRequested = s.stopRequested := by
  cases hs <;> exact ⟨rfl, rfl⟩

theorem EnqueueStep.join_eq {i : Nat} (hs : EnqueueStep lineCount s i e s') :
    s'.join = s.join ∧ s'.stopRequested = s.stopRequested := by
  cases hs <;> exact ⟨rfl, rfl⟩

theorem ExtractStep.join_eq {i : Nat} (hs : ExtractStep s i e s') :
    s'.join = s.join ∧ s'.stopRequested = s.stopRequested := by
  cases hs <;> exact ⟨rfl, rfl⟩

/-- A worker parked after a step was parked before, or the step was the worker's check of
`stop_requested_`, found unset. -/
theorem Step.parked_back (hs : Step lineCount s e s') (w : Nat)
    (hp : (s'.workers w).pc = .parked) :
    (s.workers w).pc = .parked ∨ ((s.workers w).pc = .checkStop ∧ s.stopRequested = false) := by
  rcases hs.onWorker w with
      hw | ⟨hW, -, -⟩ | ⟨-, hW, -, -⟩ | ⟨-, ⟨hint, hW⟩, -⟩ | ⟨-, hW⟩ <;>
    try (rw [hW] at hp; exact .inl (by simpa using hp))
  cases hw with
  | checkStop hpc =>
    simp only [Pool.setWorker_workers, update_same] at hp
    split at hp <;> simp_all
  | wake hpc => simp at hp
  | loop hpc =>
    simp only [Pool.setWorker_workers, update_same] at hp
    split at hp <;> simp at hp
  | checkTasks hpc =>
    simp only [Pool.setWorker_workers, update_same] at hp
    split at hp <;> simp at hp
  | decRequests hpc =>
    simp only [Pool.setWorker_workers, update_same] at hp
    split at hp <;> simp at hp
  | sweepMiss hpc =>
    simp only [Pool.setWorker_workers, update_same] at hp
    split at hp <;> simp at hp
  | _ => simp at hp

/-- A worker parked across a step that was notified, or had a successful `try_notify` on its way,
still is, or has: only the notify ends that `try_notify`, and it notifies the token the worker
holds. -/
theorem Step.notified_or_notifying (hs : Step lineCount s e s') {w : Nat}
    (hg : WakeGuard (s.workers w) (s.notifying w)) (hp : (s.workers w).pc = .parked)
    (h : (s.workers w).notified = true ∨ s.notifying w = true) :
    (s'.workers w).notified = true ∨ s'.notifying w = true := by
  rcases hs.onWorker w with
    hw | ⟨hW, -, hn⟩ | ⟨-, hW, hn, -⟩ | ⟨-, ⟨hint, hW⟩, hn⟩ | ⟨-, hW⟩
  · rw [hw.notifying_eq]
    cases hw <;> simp_all
  · rw [hW]; exact h.imp id hn
  · rw [hW]; simpa using h.imp id hn
  · exact .inr hn
  · rw [hW]
    simp [hg.token (by simp [hp, WorkerPc.holdsToken])]

/-- `join` sets `stop_requested_` before its loop, and a worker it has passed is parked only on a
notified token, or with a successful `try_notify` on its way. -/
structure JoinInv (lineCount : Nat) (s : Pool) : Prop where
  stop : s.stopRequested = true ↔ s.join ≠ .idle ∧ s.join ≠ .setStop
  reached : ∀ w < s.join.reached lineCount, (s.workers w).pc = .parked →
    (s.workers w).notified = true ∨ s.notifying w = true

theorem JoinInv.step (h : JoinInv lineCount s)
    (hg : ∀ w, WakeGuard (s.workers w) (s.notifying w)) (hs : Step lineCount s e s') :
    JoinInv lineCount s' := by
  have keep : ∀ w < s.join.reached lineCount, (s'.workers w).pc = .parked →
      (s'.workers w).notified = true ∨ s'.notifying w = true := fun w hw hp => by
    rcases hs.parked_back w hp with hp0 | ⟨-, hstop⟩
    · exact hs.notified_or_notifying (hg w) hp0 (h.reached w hw hp0)
    · have : s.stopRequested = true := h.stop.mpr ⟨fun h0 => by simp [h0, JoinPc.reached] at hw,
        fun h0 => by simp [h0, JoinPc.reached] at hw⟩
      simp [this] at hstop
  have frame : s'.join = s.join → s'.stopRequested = s.stopRequested →
      JoinInv lineCount s' := fun hj hst =>
    ⟨by rw [hj, hst]; exact h.stop, fun w hw hp => keep w (hj ▸ hw) hp⟩
  cases hs with
  | worker _ hw => exact frame hw.join_eq.1 hw.join_eq.2
  | enqueue he => exact frame he.join_eq.1 he.join_eq.2
  | extract hx => exact frame hx.join_eq.1 hx.join_eq.2
  | startEnqueue => exact frame rfl rfl
  | startExtract => exact frame rfl rfl
  | join hj =>
    have hstop := h.stop
    cases hj with
    | call hj =>
      refine ⟨by simp_all, fun w hw => by simp [JoinPc.reached] at hw⟩
    | setStop hj =>
      refine ⟨by split <;> simp, fun w hw => ?_⟩
      split at hw <;> simp_all [JoinPc.reached]
    | @notifyAdd k hj hk =>
      refine ⟨by simp [hj] at hstop; simp [hstop]; split <;> simp [joinNext]; split <;> simp,
        fun w hw hp => ?_⟩
      have hw' : w < k + 1 := by
        simp only [joinNext] at hw
        split at hw <;> [skip; split at hw] <;> simp [JoinPc.reached] at hw <;> omega
      rcases Nat.lt_succ_iff_lt_or_eq.mp hw' with hwk | rfl
      · exact keep w (by simp [hj, JoinPc.reached, hwk]) hp
      · simp only [Pool.setWorker_workers, update_same, Worker.fetchAdd_pc,
          Worker.fetchAdd_notified] at hp ⊢
        by_cases hz : (s.workers w).wakeRequests = 0
        · simp [Pool.notifying, hz, JoinPc.notifying, NotifyStep.pending]
        by_cases hn : (s.workers w).notified = true
        · exact .inl hn
        have := (hg w).obligation (.inr hp) hz (by simpa using hn)
        exact .inr (Pool.notifying_of_join (s := s) rfl
          (by simp [hj, JoinPc.notifying, NotifyStep.pending]) this)
    | @notifyStore k hj =>
      exact ⟨by simp [hj] at hstop; simp [hstop],
        fun w hw hp => keep w (by simpa [hj, JoinPc.reached] using hw) hp⟩
    | @notifyWake k hj =>
      refine ⟨by simp [hj] at hstop; simp [hstop, joinNext]; split <;> simp, fun w hw hp => ?_⟩
      have hw' : w < k + 1 := by
        simp only [joinNext] at hw
        split at hw <;> simp [JoinPc.reached] at hw <;> omega
      exact keep w (by simp [hj, JoinPc.reached]; omega) hp
    | joinThreads hj hexit =>
      exact ⟨by simp [hj] at hstop; simp [hstop],
        fun w hw hp => keep w (by simpa [hj, JoinPc.reached] using hw) hp⟩

theorem Reachable.joinInv {lineCount : Nat} {evs : List Event} {s : Pool}
    (hr : Reachable lineCount evs s) : JoinInv lineCount s := by
  induction hr with
  | refl => exact ⟨by simp [Pool.init], fun w hw => by simp [Pool.init, JoinPc.reached] at hw⟩
  | tail hr hs ih => exact ih.step (fun w => Reachable.wakeGuard hr w) hs

end Join

/-! ### Settled states -/

/-- No call of `enqueue` or `extract_task` is in progress, and `join`, if called, has finished its
loop of `try_notify`. -/
structure Pool.Settled (s : Pool) : Prop where
  enqueues : ∀ c ∈ s.enqueues, c.pc = .done
  extracts : ∀ x ∈ s.extracts, ∃ r, x.pc = .done r
  join : s.join = .idle ∨ s.join = .joinThreads ∨ s.join = .done

namespace Pool.Settled

variable {s : Pool} (hq : s.Settled)
include hq

theorem notifying_eq_false (w : Nat) : s.notifying w = false := by
  have hj : s.join.notifying w = false := by
    rcases hq.join with h | h | h <;> simp [h, JoinPc.notifying]
  simp only [Pool.notifying, hj, Bool.or_false, List.any_eq_false]
  intro c hc; simp [hq.enqueues c hc, EnqueuePc.notifying]

theorem wakingUp_eq_false : s.wakingUp = false := by
  simp only [Pool.wakingUp, List.any_eq_false]
  intro c hc; simp [hq.enqueues c hc, EnqueuePc.atFetchAdd]

/-- A worker parked on an un-notified token in a settled state has `wake_requests_` at 0: a
successful `try_notify` on it would still be in progress otherwise. -/
theorem wakeRequests_eq_zero {w : Nat} (hg : WakeGuard (s.workers w) (s.notifying w))
    (hp : (s.workers w).Parked) : (s.workers w).wakeRequests = 0 := by
  by_contra hz
  have := hg.obligation (.inr hp.1) hz hp.2
  simp [hq.notifying_eq_false] at this

theorem pendingIncrements_eq_zero : s.pendingIncrements = 0 :=
  List.countP_eq_zero.mpr fun c hc => by simp [hq.enqueues c hc, EnqueuePc.isIncrement]

/-- With no worker between its `try_pop` and its decrement, no decrement is pending. -/
theorem pendingDecrements_eq_zero {lineCount : Nat}
    (h : ∀ w < lineCount, (s.workers w).pc.isPopped = false) :
    s.pendingDecrements lineCount = 0 := by
  simp only [Pool.pendingDecrements, Nat.add_eq_zero]
  refine ⟨Finset.sum_eq_zero fun w hw => ?_, List.countP_eq_zero.mpr fun x hx => ?_⟩
  · simp [h w (Finset.mem_range.mp hw)]
  · obtain ⟨r, hr⟩ := hq.extracts x hx; simp [hr]

end Pool.Settled

theorem queued_pos {ls : Nat → List Nat} {lineCount L : Nat} (hL : L < lineCount)
    (hl : ls L ≠ []) : 0 < queued ls lineCount :=
  Nat.lt_of_lt_of_le (List.length_pos.mpr hl)
    (Finset.single_le_sum (f := fun L => (ls L).length) (fun _ _ => Nat.zero_le _)
      (Finset.mem_range.mpr hL))

/-- Once `join` has notified every worker, with no call of `enqueue` or `extract_task` in
progress, no worker is parked on an un-notified token. -/
theorem Reachable.awake_of_joined {lineCount : Nat} {evs : List Event} {s : Pool}
    (hr : Reachable lineCount evs s) (hq : s.Settled)
    (hj : s.join = .joinThreads ∨ s.join = .done) :
    ∀ w < lineCount, ¬ (s.workers w).Parked := fun w hw hp => by
  have hreach : w < s.join.reached lineCount := by
    rcases hj with h | h <;> simpa [h, JoinPc.reached]
  rcases hr.joinInv.reached w hreach hp.1 with hn | hn
  · simp [hp.2] at hn
  · simp [hq.notifying_eq_false] at hn

/-- Once `stop_requested_` is set, in a reachable state of a pool where no call of `enqueue` or
`extract_task` is in progress and `join` has finished its `try_notify` loop, no worker is parked
on an un-notified token, wrap-around of the counters or not. -/
theorem stop_leaves_none_parked {lineCount : Nat} {evs : List Event} {s : Pool}
    (hr : Reachable lineCount evs s) (hq : s.Settled) (hstop : s.stopRequested = true) :
    ∀ w < lineCount, ¬ (s.workers w).Parked :=
  hr.awake_of_joined hq <| by
    have := hr.joinInv.stop.mp hstop
    rcases hq.join with h | h | h
    · exact absurd h this.1
    · exact .inl h
    · exact .inr h

/-- The pool of two lines after worker 0 has parked and an `enqueue` of task 5 on line 0 has
notified it, and after `join` has been called: `join` passes both workers, worker 0 notified and
worker 1 at the top of its loop. -/
theorem stop_leaves_none_parked_after_join :
    ∃ evs s, Reachable 2 evs s ∧ s.Settled ∧ s.stopRequested = true ∧
      (s.workers 0).pc = .parked ∧ ∀ w < 2, ¬ (s.workers w).Parked := by
  have r := Run.tail (Run.refl Pool.init)
    (Step.worker (w := 0) (by decide : 0 < 2) (WorkerStep.loop rfl))
  have r := Run.tail r (Step.worker (w := 0) (by decide : 0 < 2) (WorkerStep.checkTasks rfl))
  have r := Run.tail r (Step.worker (w := 0) (by decide : 0 < 2) (WorkerStep.storeToken rfl))
  have r := Run.tail r (Step.worker (w := 0) (by decide : 0 < 2) (WorkerStep.decRequests rfl))
  have r := Run.tail r (Step.worker (w := 0) (by decide : 0 < 2) (WorkerStep.checkStop rfl))
  have r := Run.tail r (Step.join (JoinStep.call rfl))
  have r := Run.tail r (Step.join (JoinStep.setStop rfl))
  have r := Run.tail r (Step.join (JoinStep.notifyAdd rfl (by decide : 0 < 2)))
  have r := Run.tail r (Step.join (JoinStep.notifyStore rfl))
  have r := Run.tail r (Step.join (JoinStep.notifyWake rfl))
  have r := Run.tail r (Step.join (JoinStep.notifyAdd rfl (by decide : 1 < 2)))
  refine ⟨_, _, r, ?_, rfl, rfl, stop_leaves_none_parked r ?_ rfl⟩ <;>
    exact ⟨by decide, by decide, .inr (.inl rfl)⟩

/-- In a settled state reached without wrap-around, of a pool of at least one line, if a line
holds a task, some worker is not parked on an un-notified token. -/
theorem SafeReachable.awake {lineCount : Nat} (hN : 0 < lineCount) {evs : List Event} {s : Pool}
    (hr : SafeReachable lineCount evs s) (hq : s.Settled)
    (ht : ∃ L < lineCount, s.heap.tasksStack L ≠ none) :
    ∃ w < lineCount, ¬ (s.workers w).Parked := by
  obtain ⟨L, hL, ht⟩ := ht
  by_contra hall
  push_neg at hall
  have hzero := fun w => hq.wakeRequests_eq_zero (hr.reachable.wakeGuard w)
  have hdorm : ∀ w < lineCount, (s.workers w).Dormant := fun w hw =>
    .inr (.inr ⟨.inr (hall w hw).1, hzero w (hall w hw), (hall w hw).2⟩)
  have hnum : s.numTasks ≤ 0 := by
    rcases hr.dormantInv hdorm with h | h
    · exact h
    · simp [hq.wakingUp_eq_false] at h
  obtain ⟨ls, h, hb⟩ := hr.balanced hN
  have hdec : s.pendingDecrements lineCount = 0 :=
    hq.pendingDecrements_eq_zero fun w hw => by simp [(hall w hw).1, WorkerPc.isPopped]
  obtain ⟨t, hts⟩ := Option.ne_none_iff_exists'.mp ht
  have hmem := h.represents.mem_of_tasksStack hts
  have hq1 := queued_pos hL (List.ne_nil_of_mem hmem)
  rw [Pool.tally, hq.pendingIncrements_eq_zero, hdec] at hb
  omega

/-- No wake-up is lost while no counter wraps around. In a state reached by a run on which no
counter wraps around, of a pool of at least one line, where no call of `enqueue` or
`extract_task` is in progress and `join`, if called, has finished its `try_notify` loop: if a line
holds a task, some worker is not parked on an un-notified token; and if `stop_requested_` is set,
no worker is. -/
theorem no_lost_wakeup {lineCount : Nat} (hN : 0 < lineCount) {evs : List Event} {s : Pool}
    (hr : SafeReachable lineCount evs s) (hq : s.Settled) :
    ((∃ L < lineCount, s.heap.tasksStack L ≠ none) →
      ∃ w < lineCount, ¬ (s.workers w).Parked) ∧
    (s.stopRequested = true → ∀ w < lineCount, ¬ (s.workers w).Parked) := by
  refine ⟨hr.awake hN hq, fun hstop => hr.reachable.awake_of_joined hq ?_⟩
  have := hr.reachable.joinInv.stop.mp hstop
  rcases hq.join with h | h | h
  · exact absurd h this.1
  · exact .inl h
  · exact .inr h

/-- A pool of two lines where worker 0 has parked and an `enqueue` of task 5 has then pushed it on
line 0 and notified worker 0: the task is queued, and no worker is parked on an un-notified
token. -/
theorem no_lost_wakeup_after_enqueue :
    ∃ evs s, SafeReachable 2 evs s ∧ s.Settled ∧ s.heap.tasksStack 0 = some 5 ∧
      (s.workers 0).pc = .parked ∧
      (((∃ L < 2, s.heap.tasksStack L ≠ none) → ∃ w < 2, ¬ (s.workers w).Parked) ∧
        (s.stopRequested = true → ∀ w < 2, ¬ (s.workers w).Parked)) := by
  have r := Run.tail (Run.refl Pool.init)
    (Step.worker (w := 0) (by decide : 0 < 2) (WorkerStep.loop rfl))
  have r := Run.tail r (Step.worker (w := 0) (by decide : 0 < 2) (WorkerStep.checkTasks rfl))
  have r := Run.tail r (Step.worker (w := 0) (by decide : 0 < 2) (WorkerStep.storeToken rfl))
  have r := Run.tail r (Step.worker (w := 0) (by decide : 0 < 2) (WorkerStep.decRequests rfl))
  have r := Run.tail r (Step.worker (w := 0) (by decide : 0 < 2) (WorkerStep.checkStop rfl))
  have r := Run.tail r (Step.startEnqueue 5 rfl (by decide) (by decide))
  have r := Run.tail r (Step.enqueue (i := 0) (EnqueueStep.clearLinks rfl))
  have r := Run.tail r (Step.enqueue (i := 0) (EnqueueStep.fetchIndex rfl))
  have r := Run.tail r (Step.enqueue (i := 0) (EnqueueStep.probeHit rfl))
  have r := Run.tail r (Step.enqueue (i := 0) (EnqueueStep.increment rfl))
  have r := Run.tail r (Step.enqueue (i := 0) (EnqueueStep.notifyAdd rfl (by decide : 0 < 2)))
  have r := Run.tail r (Step.enqueue (i := 0) (EnqueueStep.notifyStore rfl))
  have r := Run.tail r (Step.enqueue (i := 0) (EnqueueStep.notifyWake rfl))
  have hr := (r.safe (m := 0) (Pool.margin_init (by decide)) (by decide)).1
  refine ⟨_, _, hr, ?_, rfl, rfl, no_lost_wakeup (by decide : 0 < 2) hr ?_⟩ <;>
    exact ⟨by decide, by decide, .inl rfl⟩

/-- A wake-up is lost once `wake_requests_` wraps around. On a pool of one line whose worker stays
at the top of its loop, `2^32 - 1` rounds of `enqueue` and `extract_task` bring its
`wake_requests_` to 0. The worker then reads `num_tasks_` at 0; the next `enqueue` pushes its
task, and its `try_notify` finds 0, succeeds and notifies the token before the worker stores it;
the worker's `fetch_sub` returns 1 and it parks. No call is in progress, a task is in the line, and
the only worker is parked on an un-notified token. -/
theorem lost_wakeup_after_wrap :
    ∃ evs s, Reachable 1 evs s ∧ s.Settled ∧ (∃ L < 1, s.heap.tasksStack L ≠ none) ∧
      ∀ w < 1, (s.workers w).Parked := by
  obtain ⟨evs, s, r, h⟩ := Idle.wrapped
  obtain ⟨evs', s', r', rep, henq, hext, hj, hpc, hn⟩ := h.parks
  refine ⟨_, s', r.append r', ⟨henq, hext, .inl hj⟩, ⟨0, Nat.one_pos, ?_⟩, fun w hw => ?_⟩
  · exact rep.tasksStack_ne_none (by simp)
  · obtain rfl : w = 0 := by omega
    exact ⟨hpc, hn⟩

end Concore2full.ThreadPool
