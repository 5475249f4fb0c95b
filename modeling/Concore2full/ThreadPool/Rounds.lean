import Concore2full.ThreadPool.Lines

/-! Long runs of a pool of one line whose worker stays at the top of its loop, as the thread of a
worker does while it runs a long task function. A call of `enqueue` followed by a call of
`extract_task` of the same task leaves the lines and `num_tasks_` as they were, and its
`try_notify` fails and raises the worker's `wake_requests_`: after `2^32 - 1` such rounds the
counter has wrapped around to 0, the value it has only inside `sleep` on runs without wrap-around.
Calls of `enqueue` of `2^31` distinct tasks raise `num_tasks_` until it wraps around to `INT_MIN`.
-/

namespace Concore2full.ThreadPool

open WorkLine Function

/-- A pool of one line where nothing runs: no call of `enqueue` or `extract_task` in progress,
`join` not called, `stop_requested_` clear, `num_tasks_` at `n`, the lists `ls` in the lines, and
the worker at the top of its loop, with no token and `wake_requests_` at `c`. -/
structure Idle (s : Pool) (ls : Nat → List Nat) (n c : Int) : Prop where
  represents : Represents s.heap ls
  numTasks : s.numTasks = n
  stop : s.stopRequested = false
  join : s.join = .idle
  enqueues : ∀ x ∈ s.enqueues, x.pc = .done
  extracts : ∀ x ∈ s.extracts, ∃ r, x.pc = .done r
  worker : s.workers 0 = ⟨.loop, 0, c, 0, false, false⟩

theorem Idle.init : Idle Pool.init (fun _ => []) 0 1 :=
  ⟨represents_empty, rfl, rfl, rfl, by simp [Pool.init], by simp [Pool.init], rfl⟩

section OneLine

variable {s : Pool} {ls : Nat → List Nat} {n c : Int} {t : Nat}

/-- `enqueue(t)` on a pool of one line, with no other thread stepping, up to the increment of
`num_tasks_` in `notify_one`: it pushes `t` on the line. -/
theorem Run.enqueuePush (ht : s.heap.workerData t = none)
    (hfree : ∀ c ∈ s.enqueues, c.task = t → c.pc = .done)
    (hlock : ∀ x ∈ s.extracts, x.task = t → x.pc.beforeLock = false) :
    ∃ evs, Run 1 s evs { s with
      heap := pushUnprotected ((s.heap.write (.next t) none).setPrevLink t none) 0 t
      numTasks := toInt32 (s.numTasks + 1)
      lineToPushTo := s.lineToPushTo + 1
      enqueues := s.enqueues ++
        [⟨t, if s.numTasks ≤ 1 then .notify 0 0 .fetchAdd else .done⟩] } := by
  have r := Run.tail (Run.refl s : Run 1 s [] s) (Step.startEnqueue t ht hfree hlock)
  have r := Run.tail r (Step.enqueue (i := s.enqueues.length)
    (EnqueueStep.clearLinks (t := t) (by simp)))
  dsimp only [Pool.setEnqueue] at r
  have r := Run.tail r (Step.enqueue (i := s.enqueues.length)
    (EnqueueStep.fetchIndex (t := t) (by simp)))
  dsimp only [Pool.setEnqueue] at r
  have r := Run.tail r (Step.enqueue (i := s.enqueues.length)
    (@EnqueueStep.probeHit _ _ _ t 0 0 (by simp [enqueueStart, Nat.mod_one])))
  dsimp only [Pool.setEnqueue] at r
  have r := Run.tail r (Step.enqueue (i := s.enqueues.length)
    (@EnqueueStep.increment _ _ _ t 0 (by simp [probeLine])))
  dsimp only [Pool.setEnqueue] at r
  exact ⟨_, by convert r using 2; simp [tryPush, probeLine]⟩

/-- The `try_notify` of `notify_one` on the worker of a pool of one line fails when its
`fetch_add` finds `wake_requests_` not 0: it raises the counter, and `enqueue` returns. -/
theorem Run.notifyMiss {i : Nat} (he : s.enqueues[i]? = some ⟨t, .notify 0 0 .fetchAdd⟩)
    (hw : (s.workers 0).wakeRequests ≠ 0) :
    Run 1 s [.wakeRequests 0 (.fetchAdd (s.workers 0).wakeRequests)] { s with
      workers := update s.workers 0 (s.workers 0).fetchAdd
      enqueues := s.enqueues.set i ⟨t, .done⟩ } := by
  simpa [hw, Pool.setWorker, Pool.setEnqueue] using
    Run.tail (Run.refl s) (Step.enqueue (EnqueueStep.notifyAdd he Nat.one_pos))

/-- `enqueue(t)` of a task in no line, on an idle pool of one line whose worker's `wake_requests_`
is not 0, runs to its return: `t` is in front of the line, `num_tasks_` one more, and when
`num_tasks_` was at most 1, `wake_requests_` one more. -/
theorem Idle.enqueue (h : Idle s ls n c) (ht : ∀ L, t ∉ ls L) (hc : c ≠ 0) :
    ∃ evs s', Run 1 s evs s' ∧ Idle s' (update ls 0 (t :: ls 0)) (toInt32 (n + 1))
      (if n ≤ 1 then toInt32 (c + 1) else c) := by
  have hwd := h.represents.workerData_eq_none_iff.mpr ht
  obtain ⟨evs, r⟩ := Run.enqueuePush hwd (fun x hx _ => h.enqueues x hx)
    fun x hx _ => by obtain ⟨b, hb⟩ := h.extracts x hx; simp [hb, ExtractPc.beforeLock]
  have rep := @Represents.pushUnprotected _ _ (h.represents.clearLinks hwd) 0 t (by simpa using hwd)
  have hdone : ∀ pc, ∀ x ∈ s.enqueues ++ [⟨t, pc⟩], pc = .done → x.pc = .done := by
    intro pc x hx hpc
    rcases List.mem_append.mp hx with hx | hx
    · exact h.enqueues x hx
    · simp only [List.mem_singleton] at hx; rw [hx]; exact hpc
  by_cases hn : n ≤ 1
  · have r' := Run.notifyMiss (i := s.enqueues.length) (t := t)
      (s := { s with
        heap := pushUnprotected ((s.heap.write (.next t) none).setPrevLink t none) 0 t
        numTasks := toInt32 (s.numTasks + 1)
        lineToPushTo := s.lineToPushTo + 1
        enqueues := s.enqueues ++
          [⟨t, if s.numTasks ≤ 1 then .notify 0 0 .fetchAdd else .done⟩] })
      (by simp [h.numTasks, hn]) (by simp [h.worker, hc])
    dsimp only at r'
    refine ⟨_, _, r.append r', rep, by simp [h.numTasks], h.stop, h.join, fun x hx => ?_,
      h.extracts, by simp [h.worker, hn, Worker.fetchAdd]⟩
    simp only [List.set_append_right _ _ (le_refl _), Nat.sub_self, List.set_cons_zero] at hx
    exact hdone _ x hx rfl
  · exact ⟨_, _, r, rep, by simp [h.numTasks], h.stop, h.join,
      fun x hx => hdone _ x hx (by simp [h.numTasks, hn]), h.extracts, by simp [h.worker, hn]⟩

/-- `extract_task(t)` of a task in the line, on an idle pool of one line, runs to its return with
`true`: `t` is erased from the line and `num_tasks_` is one less. -/
theorem Idle.extract (pre post : List Nat) (h : Idle s ls n c) (hl : ls 0 = pre ++ t :: post) :
    ∃ evs s', Run 1 s evs s' ∧ Idle s' (update ls 0 (pre ++ post)) (toInt32 (n - 1)) c := by
  have hwd :=
    h.represents.workerData_of_mem (hl ▸ List.mem_append_right pre (List.mem_cons_self t post))
  obtain ⟨hres, rep, -⟩ := h.represents.extractTask 0 hl
  have r := Run.tail (Run.refl s : Run 1 s [] s) (Step.startExtract t)
  have r := Run.tail r (Step.extract (i := s.extracts.length)
    (ExtractStep.readData (t := t) (by simp)))
  dsimp only [Pool.setExtract] at r
  have r := Run.tail r (Step.extract (i := s.extracts.length)
    (@ExtractStep.extract _ _ t 0 (by simp [hwd])))
  dsimp only [Pool.setExtract] at r
  have r := Run.tail r (Step.extract (i := s.extracts.length)
    (ExtractStep.decrement (t := t) (by simp [hres])))
  dsimp only [Pool.setExtract] at r
  refine ⟨_, _, r, rep, by simp [h.numTasks], h.stop, h.join, h.enqueues, fun x hx => ?_,
    h.worker⟩
  simp only [List.set_append_right _ _ (le_refl _), Nat.sub_self, List.set_cons_zero,
    List.mem_append, List.mem_singleton] at hx
  rcases hx with hx | rfl
  · exact h.extracts x hx
  · exact ⟨true, rfl⟩

/-- One round on an idle pool of one line with empty lines and `num_tasks_` at 0: `enqueue(0)`,
then `extract_task(0)`. Only the failed `try_notify` leaves a trace, on `wake_requests_`. -/
theorem Idle.round (h : Idle s (fun _ => []) 0 c) (hc : c ≠ 0) :
    ∃ evs s', Run 1 s evs s' ∧ Idle s' (fun _ => []) 0 (toInt32 (c + 1)) := by
  obtain ⟨evs, s₁, r₁, h₁⟩ := h.enqueue (t := 0) (fun _ => List.not_mem_nil 0) hc
  obtain ⟨evs', s₂, r₂, h₂⟩ := h₁.extract (t := 0) [] [] (by simp)
  refine ⟨_, s₂, r₁.append r₂, ?_⟩
  have hls : update (update (fun _ => ([] : List Nat)) 0 [0]) 0 ([] ++ []) = fun _ => [] := by
    simp
  rw [hls] at h₂
  simpa using h₂

/-- After `j` rounds from construction, `wake_requests_` of the worker is `1 + j` as an `int`. -/
theorem Idle.rounds (j : Nat) (hj : j < 2 ^ 32) :
    ∃ evs s, Reachable 1 evs s ∧ Idle s (fun _ => []) 0 (toInt32 (1 + j)) := by
  induction j with
  | zero => exact ⟨[], _, .refl _, Idle.init⟩
  | succ j ih =>
    obtain ⟨evs, s, r, h⟩ := ih (by omega)
    have hc : toInt32 (1 + j) ≠ 0 := fun h0 => by
      have := toInt32_eq_zero_iff.mp h0
      omega
    obtain ⟨evs', s', r', h'⟩ := h.round hc
    refine ⟨_, s', r.append r', ?_⟩
    simpa [add_assoc] using h'

/-- After `2^32 - 1` rounds `wake_requests_` has wrapped around to 0, with the worker at the top
of its loop. -/
theorem Idle.wrapped : ∃ evs s, Reachable 1 evs s ∧ Idle s (fun _ => []) 0 0 := by
  obtain ⟨evs, s, r, h⟩ := Idle.rounds (2 ^ 32 - 1) (by decide)
  exact ⟨evs, s, r, by simpa using h⟩

/-- After `enqueue` of the tasks `0, …, k - 1` from construction, they are on the line, newest
first, and `num_tasks_` is `k` as an `int`. -/
theorem Idle.pushes (k : Nat) (hk : k ≤ 2 ^ 31) :
    ∃ evs s, Reachable 1 evs s ∧
      Idle s (update (fun _ => []) 0 (List.range k).reverse) (toInt32 k) (1 + min k 2) := by
  induction k with
  | zero => exact ⟨[], _, .refl _, by simpa using Idle.init⟩
  | succ k ih =>
    obtain ⟨evs, s, r, h⟩ := ih (by omega)
    have hk' : toInt32 k = k := toInt32_eq_self (by omega) (by omega)
    obtain ⟨evs', s', r', h'⟩ := h.enqueue (t := k) (fun L hL => by
      rcases eq_or_ne L 0 with rfl | hL0
      · simp at hL
      · simp [hL0] at hL) (by omega)
    have hls : update (update (fun _ => []) 0 (List.range k).reverse) 0
        (k :: (update (fun _ => []) 0 (List.range k).reverse) 0) =
        update (fun _ => []) 0 (List.range (k + 1)).reverse := by simp [List.range_succ]
    have hn : toInt32 (toInt32 k + 1) = toInt32 (k + 1 : Nat) := by simp
    have hc : (if toInt32 k ≤ 1 then toInt32 (1 + ((min k 2 : Nat) : Int) + 1)
        else 1 + ((min k 2 : Nat) : Int)) = 1 + ((min (k + 1) 2 : Nat) : Int) := by
      rw [hk']
      split_ifs with h1
      · rw [toInt32_eq_self (by omega) (by omega)]; omega
      · omega
    rw [hls, hn, hc] at h'
    exact ⟨_, s', r.append r', h'⟩

/-- An idle pool of one line whose worker's `wake_requests_` has wrapped around to 0 loses a
wake-up. The worker reads `num_tasks_` at 0; `enqueue(0)` pushes task 0, its `try_notify` finds
`wake_requests_` at 0, succeeds, and notifies the token before the worker has stored it; the worker
then stores its token, its `fetch_sub` returns 1, and it parks on a token nobody will notify, with
task 0 in the line. -/
theorem Idle.parks (h : Idle s (fun _ => []) 0 0) :
    ∃ evs s', Run 1 s evs s' ∧ Represents s'.heap (update (fun _ => []) 0 [0]) ∧
      (∀ x ∈ s'.enqueues, x.pc = .done) ∧ (∀ x ∈ s'.extracts, ∃ r, x.pc = .done r) ∧
      s'.join = .idle ∧ (s'.workers 0).pc = .parked ∧ (s'.workers 0).notified = false := by
  have hwd : s.heap.workerData 0 = none := h.represents.workerData_eq_none_iff.mpr fun _ => by simp
  have r := Run.tail (Run.refl s) (Step.worker Nat.one_pos (WorkerStep.loop (w := 0)
    (by simp [h.worker])))
  have r := Run.tail r (Step.worker Nat.one_pos (WorkerStep.checkTasks (w := 0)
    (by simp [h.worker, h.stop])))
  have e : ((s.setWorker 0 { s.workers 0 with pc := if s.stopRequested then .exited
      else .checkTasks }).setWorker 0 { (s.setWorker 0 { s.workers 0 with
        pc := if s.stopRequested then .exited else .checkTasks }).workers 0 with
        pc := if (s.setWorker 0 { s.workers 0 with pc := if s.stopRequested then .exited
          else .checkTasks }).numTasks = 0 then .storeToken else .sweep 0 }) =
      { s with workers := update s.workers 0 ⟨.storeToken, 0, 0, 0, false, false⟩ } := by
    simp [Pool.setWorker, h.worker, h.stop, h.numTasks]
  rw [e] at r
  obtain ⟨_, r₁⟩ := Run.enqueuePush (t := 0)
    (s := { s with workers := update s.workers 0 ⟨.storeToken, 0, 0, 0, false, false⟩ }) hwd
    (fun x hx _ => h.enqueues x hx)
    fun x hx _ => by obtain ⟨b, hb⟩ := h.extracts x hx; simp [hb, ExtractPc.beforeLock]
  have r := r.append r₁
  dsimp only at r
  have r := Run.tail r (Step.enqueue (i := s.enqueues.length)
    (@EnqueueStep.notifyAdd _ _ _ 0 0 0 (by simp [h.numTasks]) Nat.one_pos))
  dsimp only [Pool.setWorker, Pool.setEnqueue] at r
  have r := Run.tail r (Step.enqueue (i := s.enqueues.length)
    (@EnqueueStep.notifyStore _ _ _ 0 0 0 (by simp)))
  dsimp only [Pool.setWorker, Pool.setEnqueue] at r
  have r := Run.tail r (Step.enqueue (i := s.enqueues.length)
    (@EnqueueStep.notifyWake _ _ _ 0 0 0 (by simp)))
  dsimp only [Pool.setWorker, Pool.setEnqueue] at r
  have r := Run.tail r (Step.worker Nat.one_pos (WorkerStep.storeToken (w := 0) (by simp)))
  dsimp only [Pool.setWorker] at r
  have r := Run.tail r (Step.worker Nat.one_pos (WorkerStep.decRequests (w := 0) (by simp)))
  dsimp only [Pool.setWorker] at r
  have r := Run.tail r (Step.worker Nat.one_pos (WorkerStep.checkStop (w := 0) (by simp)))
  dsimp only [Pool.setWorker] at r
  refine ⟨_, _, r, ?_, fun x hx => ?_, h.extracts, h.join, by simp [Worker.fetchAdd, h.stop],
    by simp⟩
  · simpa using
      @Represents.pushUnprotected _ _ (h.represents.clearLinks hwd) 0 0 (by simpa using hwd)
  · simp only [List.set_append_right _ _ (le_refl _), Nat.sub_self, List.set_cons_zero,
      List.mem_append, List.mem_singleton] at hx
    rcases hx with hx | rfl
    · exact h.enqueues x hx
    · rfl

end OneLine

end Concore2full.ThreadPool
