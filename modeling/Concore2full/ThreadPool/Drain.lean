import Concore2full.ThreadPool.Shutdown
import Concore2full.ThreadPool.Tasks

/-! The pool drains. From every state reached by a run on which no counter wraps around, where no
call of `enqueue`, `extract_task` or `join` is in progress and `stop_requested_` is clear, the
workers alone can run every task: some run of worker steps, none of them the wake-up of a worker
parked on a token nobody notified, calls the function of every task in a line and of every task a
worker holds, and ends with the lines empty and `num_tasks_` at 0. The run is built one worker at a
time. A worker that is not parked on an un-notified token either pops a task and runs it, or parks;
while a line holds a task some worker is not parked on an un-notified token
(`SafeReachable.awake`); and no worker step wraps a counter around, since it only lowers
`num_tasks_` after its own pop and `wake_requests_` from 0 or more. -/

namespace Concore2full.ThreadPool

open WorkLine Function

/-- Steps of workers of the pool, labelled `evs`, none of them the wake-up of a worker parked on
a token nobody notified. -/
inductive AwakeRun (lineCount : Nat) : Pool → List Event → Pool → Prop
  | refl (s : Pool) : AwakeRun lineCount s [] s
  | step {s s₁ s' : Pool} {w : Nat} {e : Event} {evs : List Event} (hw : w < lineCount)
      (hp : ¬ (s.workers w).Parked) (h : WorkerStep lineCount s w e s₁)
      (hr : AwakeRun lineCount s₁ evs s') : AwakeRun lineCount s (e :: evs) s'

/-- A state reached without wrap-around, with no call of `enqueue`, `extract_task` or `join` in
progress and `stop_requested_` clear. -/
structure Calm (lineCount : Nat) (s : Pool) : Prop where
  reachable : ∃ evs, SafeReachable lineCount evs s
  settled : s.Settled
  running : s.stopRequested = false

/-- No worker holds a task between its `try_pop` and the return of the task function. -/
def Pool.Free (lineCount : Nat) (s : Pool) : Prop :=
  ∀ w < lineCount, (s.workers w).pc.holds = none

/-- The workers that are not parked on an un-notified token. -/
def Pool.awake (lineCount : Nat) (s : Pool) : Finset Nat :=
  (Finset.range lineCount).filter fun w => ¬ (s.workers w).Parked

/-- The steps a worker at `pc` has left before its sweep, unless it parks, when `stop_requested_`
is clear and `num_tasks_` is not 0; 0 where it is not on its way to the sweep. -/
def WorkerPc.toSweep : WorkerPc → Nat
  | .storeToken => 7
  | .decRequests => 6
  | .checkStop => 5
  | .parked => 4
  | .invalidate => 3
  | .rearm | .loop => 2
  | .loadHint | .checkTasks => 1
  | _ => 0

section Runs

variable {lineCount : Nat} {s s' : Pool}

theorem AwakeRun.run {evs : List Event} (hr : AwakeRun lineCount s evs s') :
    Run lineCount s evs s' := by
  induction hr with
  | refl s => exact .refl s
  | step hw _ h _ ih => exact ih.head (.worker hw h)

theorem AwakeRun.append {s₁ : Pool} {evs evs' : List Event} (h₁ : AwakeRun lineCount s evs s₁)
    (h₂ : AwakeRun lineCount s₁ evs' s') : AwakeRun lineCount s (evs ++ evs') s' := by
  induction h₁ with
  | refl => exact h₂
  | step hw hp h _ ih => exact .step hw hp h (ih h₂)

theorem SoloRun.append {w : Nat} {s₁ : Pool} {evs evs' : List Event}
    (h₁ : SoloRun lineCount w s evs s₁) (h₂ : SoloRun lineCount w s₁ evs' s') :
    SoloRun lineCount w s (evs ++ evs') s' := by
  induction h₁ with
  | refl => exact h₂
  | step hp h _ ih => exact .step hp h (ih h₂)

theorem SoloRun.awakeRun {w : Nat} {evs : List Event} (hw : w < lineCount)
    (hr : SoloRun lineCount w s evs s') : AwakeRun lineCount s evs s' := by
  induction hr with
  | refl s => exact .refl s
  | step hp h _ ih => exact .step hw hp h ih

theorem WorkerStep.settled {w : Nat} {e : Event} (h : WorkerStep lineCount s w e s')
    (hq : s.Settled) : s'.Settled := by
  cases h <;> exact ⟨hq.1, hq.2, hq.3⟩

/-- A worker step keeps `num_tasks_`, or decrements it after the worker's pop. -/
theorem WorkerStep.numTasks_cases {w : Nat} {e : Event} (h : WorkerStep lineCount s w e s') :
    s'.numTasks = s.numTasks ∨
      (s.workers w).pc.isPopped = true ∧ s'.numTasks = toInt32 (s.numTasks - 1) := by
  cases h <;> simp [*, WorkerPc.isPopped]

/-- A worker step keeps every `wake_requests_`, or lowers the worker's own by its `fetch_sub`, or
re-arms it at 1. -/
theorem WorkerStep.wakeRequests_cases {w : Nat} {e : Event} (h : WorkerStep lineCount s w e s')
    (v : Nat) :
    (s'.workers v).wakeRequests = (s.workers v).wakeRequests ∨
      (s'.workers v).wakeRequests = toInt32 ((s.workers v).wakeRequests - 1) ∨
      (s'.workers v).wakeRequests = 1 := by
  rcases eq_or_ne v w with rfl | hv
  · cases h <;> simp
  · exact .inl (by rw [h.workers_ne hv])

theorem Pool.one_le_pendingDecrements {w : Nat} (hw : w < lineCount)
    (hp : (s.workers w).pc.isPopped = true) : 1 ≤ s.pendingDecrements lineCount := by
  have := Finset.single_le_sum (f := fun v => if (s.workers v).pc.isPopped then 1 else 0)
    (fun _ _ => Nat.zero_le _) (Finset.mem_range.mpr hw)
  simp only [hp, if_true] at this
  unfold Pool.pendingDecrements
  omega

/-- In a calm state `num_tasks_` counts the tasks in the lines and the pops not yet decremented. -/
theorem Calm.numTasks_eq_add (hN : 0 < lineCount) (hc : Calm lineCount s) :
    ∃ ls, PoolLines lineCount s ls ∧
      s.numTasks = queued ls lineCount + s.pendingDecrements lineCount := by
  obtain ⟨_, hr⟩ := hc.reachable
  obtain ⟨ls, h, hb⟩ := hr.balanced hN
  refine ⟨ls, h, ?_⟩
  rw [hb, Pool.tally, hc.settled.pendingIncrements_eq_zero]
  simp

/-- A worker step from a calm state wraps no counter around: it lowers `num_tasks_` only after its
own pop, which `num_tasks_` counts, and lowers its `wake_requests_` only from 0 or more. -/
theorem Calm.fits_step (hN : 0 < lineCount) (hc : Calm lineCount s) {w : Nat} {e : Event}
    (hw : w < lineCount) (h : WorkerStep lineCount s w e s') : s'.Fits := by
  obtain ⟨_, hr⟩ := hc.reachable
  obtain ⟨hlo, hhi, hwr⟩ := SafeRun.fits hr
  have hn : -2 ^ 31 < s'.numTasks ∧ s'.numTasks < 2 ^ 31 - 1 := by
    rcases h.numTasks_cases with hn | ⟨hp, hn⟩
    · exact hn ▸ ⟨hlo, hhi⟩
    · obtain ⟨ls, -, hb⟩ := hc.numTasks_eq_add hN
      have := Pool.one_le_pendingDecrements hw hp
      rw [hn, toInt32_eq_self (by omega) (by omega)]
      omega
  refine ⟨hn.1, hn.2, fun v => ?_⟩
  have h0 := WakeInv.nonneg (hr.workerWake v)
  have := hwr v
  rcases h.wakeRequests_cases v with h' | h' | h' <;> rw [h']
  · exact this
  · rw [toInt32_eq_self (by omega) (by omega)]
    omega
  · omega

theorem Calm.step (hN : 0 < lineCount) {w : Nat} {e : Event} (hc : Calm lineCount s)
    (hw : w < lineCount) (h : WorkerStep lineCount s w e s') : Calm lineCount s' :=
  ⟨let ⟨_, r⟩ := hc.reachable; ⟨_, SafeRun.tail r (.worker hw h) (hc.fits_step hN hw h)⟩,
    h.settled hc.settled, h.join_eq.2.trans hc.running⟩

theorem Calm.run (hN : 0 < lineCount) {evs : List Event} (hc : Calm lineCount s)
    (hr : AwakeRun lineCount s evs s') : Calm lineCount s' := by
  induction hr with
  | refl => exact hc
  | step hw _ h _ ih => exact ih (hc.step hN hw h)

/-- A worker returns from `thread_main` only after `stop_requested_` is set. -/
theorem WorkerStep.stop_of_exited {w : Nat} {e : Event} (h : WorkerStep lineCount s w e s')
    (hx : (s'.workers w).pc = .exited) : s.stopRequested = true := by
  cases h <;> simp only [Pool.setWorker_workers, update_same] at hx <;> (try split at hx) <;>
    first | assumption | cases hx

theorem Reachable.stop_of_exited {evs : List Event} (hr : Reachable lineCount evs s) {w : Nat}
    (hx : (s.workers w).pc = .exited) : s.stopRequested = true := by
  induction hr with
  | refl => simp [Pool.init, Worker.init] at hx
  | @tail s₁ s₂ _ e _ hs ih =>
    by_cases hw : WorkerStep lineCount s₁ w e s₂
    · exact hs.stopRequested (hw.stop_of_exited hx)
    · exact hs.stopRequested (ih ((hs.pc_eq hw).symm.trans hx))

/-- A sweep stops after its `2 * work_line_count` tries. -/
theorem WorkerStep.sweep_lt {w i : Nat} {e : Event} (hN : 0 < lineCount)
    (h : WorkerStep lineCount s w e s') (hi : (s'.workers w).pc = .sweep i) :
    i < 2 * lineCount := by
  cases h <;> simp only [Pool.setWorker_workers, update_same] at hi <;> (try split at hi) <;>
    (try cases hi) <;> omega

theorem Reachable.sweep_lt {evs : List Event} (hN : 0 < lineCount)
    (hr : Reachable lineCount evs s) {w i : Nat} (hi : (s.workers w).pc = .sweep i) :
    i < 2 * lineCount := by
  induction hr with
  | refl => simp [Pool.init, Worker.init] at hi
  | @tail s₁ s₂ _ e _ hs ih =>
    by_cases hw : WorkerStep lineCount s₁ w e s₂
    · exact hw.sweep_lt hN hi
    · exact ih ((hs.pc_eq hw).symm.trans hi)

end Runs

/-! ### One worker -/

section Worker

variable {lineCount : Nat} {s : Pool}

@[simp] theorem Pool.setWorker_self (s : Pool) (w : Nat) : s.setWorker w (s.workers w) = s := by
  simp [Pool.setWorker]

/-- On its way to the sweep a worker changes only itself, and each step brings it closer. -/
theorem WorkerStep.approach {w : Nat} {e : Event} {s' : Pool} (hstop : s.stopRequested = false)
    (hnum : s.numTasks ≠ 0) (h : WorkerStep lineCount s w e s')
    (hd : 0 < (s.workers w).pc.toSweep) :
    ∃ W, s' = s.setWorker w W ∧ (W.pc = .sweep 0 ∨
      0 < W.pc.toSweep ∧ W.pc.toSweep < (s.workers w).pc.toSweep) := by
  cases h <;> first
    | (simp [*, WorkerPc.toSweep] at hd; done)
    | (refine ⟨_, rfl, ?_⟩; simp [*, WorkerPc.toSweep]; done)
    | (refine ⟨_, rfl, ?_⟩; split <;> simp [*, WorkerPc.toSweep])

/-- A worker on its way to the sweep, not parked on an un-notified token, runs alone to the start
of its sweep, or parks. -/
theorem soloRun_approach {w : Nat} (hstop : s.stopRequested = false) (hnum : s.numTasks ≠ 0)
    (d : Nat) : ∀ W : Worker, W.pc.toSweep ≤ d → 0 < W.pc.toSweep → ¬ W.Parked →
    ∃ evs W', SoloRun lineCount w (s.setWorker w W) evs (s.setWorker w W') ∧
      (W'.pc = .sweep 0 ∨ W'.Parked) := by
  induction d with
  | zero => intro W hle hd; omega
  | succ d ih =>
    intro W hle hd hp
    have hp' : ¬ ((s.setWorker w W).workers w).Parked := by simpa using hp
    obtain ⟨e, s₁, h⟩ : ∃ e s₁, WorkerStep lineCount (s.setWorker w W) w e s₁ :=
      WorkerStep.enabled fun hx => by simp only [Pool.setWorker_workers, update_same] at hx
                                      simp [hx, WorkerPc.toSweep] at hd
    obtain ⟨W₁, rfl, hW₁⟩ := h.approach (by simpa) (by simpa) (by simpa)
    rw [Pool.setWorker_setWorker] at h
    simp only [Pool.setWorker_workers, update_same] at hW₁
    rcases hW₁ with h0 | ⟨hd₁, hlt⟩
    · exact ⟨_, W₁, .step hp' h (.refl _), .inl h0⟩
    by_cases hp₁ : W₁.Parked
    · exact ⟨_, W₁, .step hp' h (.refl _), .inr hp₁⟩
    · obtain ⟨evs, W', r, hW'⟩ := ih W₁ (by omega) hd₁ hp₁
      exact ⟨_, W', .step hp' h r, hW'⟩

/-- A worker holding a task decrements `num_tasks_` if it has not yet, and calls the task's
function. -/
theorem soloRun_finish {w t line : Nat} (hpc : (s.workers w).pc.holds = some (t, line)) :
    ∃ evs s', SoloRun lineCount w s evs s' ∧ s'.heap = s.heap ∧
      (s'.workers w).pc = .loop ∧ (∀ v ≠ w, s'.workers v = s.workers v) ∧
      (s'.numTasks = s.numTasks ∨ s'.numTasks = toInt32 (s.numTasks - 1)) ∧
      Event.execute w t line ∈ evs := by
  cases hw : (s.workers w).pc <;> simp only [hw, WorkerPc.holds, reduceCtorEq,
    Option.some.injEq, Prod.mk.injEq] at hpc
  case popped t' l' =>
    obtain ⟨rfl, rfl⟩ := hpc
    exact ⟨_, _, .step (fun h => nomatch hw.symm.trans h.1) (.decrement hw)
      (.step (fun h => by simp [Worker.Parked] at h)
        (@WorkerStep.execute lineCount _ w t' l' (by simp)) (.refl _)), rfl,
      by simp, fun v hv => by simp [update_noteq hv], .inr rfl, by simp⟩
  case execute =>
    obtain ⟨rfl, rfl⟩ := hpc
    exact ⟨_, _, .step (fun h => nomatch hw.symm.trans h.1) (.execute hw) (.refl _), rfl,
      by simp, fun v hv => by simp [update_noteq hv], .inl rfl, by simp⟩

end Worker

/-! ### A worker in a calm pool -/

section Calm

variable {lineCount : Nat} {s : Pool}

theorem Calm.beyond (hN : 0 < lineCount) (hc : Calm lineCount s) {ls : Nat → List Nat}
    (r : Represents s.heap ls) : ∀ L, lineCount ≤ L → ls L = [] := by
  obtain ⟨_, hr⟩ := hc.reachable
  obtain ⟨ls', h⟩ := hr.reachable.poolLines hN
  rw [r.unique h.represents]
  exact h.beyond

theorem Calm.hint (hN : 0 < lineCount) (hc : Calm lineCount s) {w : Nat} (hw : w < lineCount) :
    0 ≤ (s.workers w).hint :=
  let ⟨_, hr⟩ := hc.reachable
  ((hr.reachable.hintInv hN).workers w hw).1

theorem Calm.not_exited (hc : Calm lineCount s) (w : Nat) : (s.workers w).pc ≠ .exited :=
  fun hx => by
    obtain ⟨_, hr⟩ := hc.reachable
    simpa [hc.running] using hr.reachable.stop_of_exited hx

/-- With no worker holding a task, `num_tasks_` counts the tasks in the lines. -/
theorem Calm.numTasks_eq (hN : 0 < lineCount) (hc : Calm lineCount s) (hf : s.Free lineCount)
    {ls : Nat → List Nat} (r : Represents s.heap ls) : s.numTasks = queued ls lineCount := by
  obtain ⟨ls', h, hb⟩ := hc.numTasks_eq_add hN
  have hdec := hc.settled.pendingDecrements_eq_zero fun w hw => by
    have := hf w hw
    revert this
    cases (s.workers w).pc <;> simp [WorkerPc.holds, WorkerPc.isPopped]
  rw [hb, hdec, r.unique h.represents]
  simp

/-- A worker that has just popped task `t`, the head of line `L`, calls the task's function and
goes back to its loop. -/
theorem soloRun_popped {w t L : Nat} {ls : Nat → List Nat} {rest : List Nat}
    (r : Represents s.heap ls) (hl : ls L = t :: rest) :
    ∃ evs s', SoloRun lineCount w ({ s with heap := (tryPop s.heap L true).2 }.setWorker w
        { s.workers w with pc := .popped t L }) evs s' ∧
      Represents s'.heap (update ls L rest) ∧ (s'.workers w).pc = .loop ∧
      (∀ v ≠ w, s'.workers v = s.workers v) ∧ Event.execute w t L ∈ evs := by
  obtain ⟨evs, s', run, hheap, hloop, hv, -, hex⟩ := @soloRun_finish lineCount
    ({ s with heap := (tryPop s.heap L true).2 }.setWorker w
      { s.workers w with pc := .popped t L }) w t L (by simp [WorkerPc.holds])
  refine ⟨evs, s', run, ?_, hloop, fun v hvw => by rw [hv v hvw]; simp [update_noteq hvw], hex⟩
  simp only [hheap, Pool.setWorker_heap, r.tryPop_cons hl]
  exact (r.popUnprotected hl).2.1

/-- A worker at the start of its sweep, run alone while a line holds a task, pops the head of a
line and calls its function. -/
theorem soloRun_sweep_execute {w : Nat} {ls : Nat → List Nat} (hN : 0 < lineCount)
    (r : Represents s.heap ls) (h0 : 0 ≤ (s.workers w).hint) (hpc : (s.workers w).pc = .sweep 0)
    (hne : ∃ L < lineCount, ls L ≠ []) :
    ∃ evs s' L t rest, SoloRun lineCount w s evs s' ∧ ls L = t :: rest ∧
      Represents s'.heap (update ls L rest) ∧ (s'.workers w).pc = .loop ∧
      (∀ v ≠ w, s'.workers v = s.workers v) ∧ Event.execute w t L ∈ evs := by
  obtain ⟨evs, ⟨t, L, rest, -, hl, -, run⟩ | ⟨hnil, -⟩⟩ :=
    soloRun_sweep_zero r h0 hN hpc
  · obtain ⟨evs', s', run', hrep, hloop, hv, hex⟩ :
        ∃ evs' s', SoloRun lineCount w _ evs' s' ∧ _ := soloRun_popped r hl
    exact ⟨_, s', L, t, rest, run.append run', hl, hrep, hloop, hv,
      List.mem_append_right _ hex⟩
  · obtain ⟨L, hL, hne⟩ := hne
    exact absurd (hnil L hL) hne

/-- What worker `w` does alone from `s`, `ls` being the lists of the lines: it changes no other
worker, and it pops the head of a line and calls the task's function, or it parks. -/
def Progressed (w : Nat) (ls : Nat → List Nat) (s : Pool) (evs : List Event) (s' : Pool) :
    Prop :=
  (∀ v ≠ w, s'.workers v = s.workers v) ∧
    ((∃ L t rest, ls L = t :: rest ∧ Represents s'.heap (update ls L rest) ∧
        (s'.workers w).pc = .loop ∧ Event.execute w t L ∈ evs) ∨
      ((s'.workers w).Parked ∧ s'.heap = s.heap))

theorem Progressed.prepend {w : Nat} {ls : Nat → List Nat} {s₁ s' : Pool}
    {evs₁ evs : List Event} (h : Progressed w ls s₁ evs s')
    (hv : ∀ v ≠ w, s₁.workers v = s.workers v)
    (hheap : s₁.heap = s.heap) : Progressed w ls s (evs₁ ++ evs) s' := by
  refine ⟨fun v hvw => (h.1 v hvw).trans (hv v hvw), ?_⟩
  rcases h.2 with ⟨L, t, rest, hl, hrep, hloop, hex⟩ | ⟨hpk, hh⟩
  · exact .inl ⟨L, t, rest, hl, hrep, hloop, List.mem_append_right _ hex⟩
  · exact .inr ⟨hpk, hh.trans hheap⟩

/-- A worker on its way to its sweep, not parked on an un-notified token, while a line holds a
task: it parks, or it sweeps, pops a task and runs it. -/
theorem Calm.progress_approach (hN : 0 < lineCount) (hc : Calm lineCount s) {w : Nat}
    (hw : w < lineCount) (hp : ¬ (s.workers w).Parked) {ls : Nat → List Nat}
    (r : Represents s.heap ls) (hne : ∃ L < lineCount, ls L ≠ []) (hnum : s.numTasks ≠ 0)
    (hd : 0 < (s.workers w).pc.toSweep) :
    ∃ evs s', SoloRun lineCount w s evs s' ∧ Progressed w ls s evs s' := by
  obtain ⟨evs, W, run, hW⟩ : ∃ evs W', SoloRun lineCount w (s.setWorker w (s.workers w)) evs
      (s.setWorker w W') ∧ (W'.pc = .sweep 0 ∨ W'.Parked) :=
    soloRun_approach hc.running hnum _ _ le_rfl hd hp
  rw [Pool.setWorker_self] at run
  rcases hW with h0 | hpk
  · have hc₁ := hc.run hN (run.awakeRun hw)
    obtain ⟨evs', s', L, t, rest, run', hl, hrep, hloop, hv, hex⟩ :=
      soloRun_sweep_execute hN (by simpa using r) (hc₁.hint hN hw) (by simpa using h0) hne
    refine ⟨_, s', run.append run', ?_⟩
    exact Progressed.prepend ⟨hv, .inl ⟨L, t, rest, hl, hrep, hloop, hex⟩⟩
      (fun v hvw => by simp [update_noteq hvw]) rfl
  · exact ⟨_, _, run, fun v hvw => by simp [update_noteq hvw],
      .inr ⟨by simpa using hpk, rfl⟩⟩

/-- A worker in its sweep, in a calm pool where a line holds a task: it pops a task and runs it,
or, if the rest of its sweep misses, it goes round its loop to its next sweep or parks. -/
theorem Calm.progress_sweep (hN : 0 < lineCount) (hc : Calm lineCount s) {w i : Nat}
    (hw : w < lineCount) (hpc : (s.workers w).pc = .sweep i) {ls : Nat → List Nat}
    (r : Represents s.heap ls) (hne : ∃ L < lineCount, ls L ≠ []) (hnum : s.numTasks ≠ 0) :
    ∃ evs s', SoloRun lineCount w s evs s' ∧ Progressed w ls s evs s' := by
  cases i with
  | zero =>
    obtain ⟨evs, s', L, t, rest, run, hl, hrep, hloop, hv, hex⟩ :=
      soloRun_sweep_execute hN r (hc.hint hN hw) hpc hne
    exact ⟨evs, s', run, hv, .inl ⟨L, t, rest, hl, hrep, hloop, hex⟩⟩
  | succ i =>
    obtain ⟨_, hr⟩ := hc.reachable
    have hi := hr.reachable.sweep_lt hN hpc
    obtain ⟨evs, run⟩ : ∃ evs, SoloRun lineCount w s evs (sweepAlone lineCount s w (i + 1)) :=
      soloRun_sweepAlone (2 * lineCount - (i + 2)) s (i + 1) (hc.hint hN hw) (by omega) hpc
    simp only [sweepAlone, sweep_eq_findSome r] at run
    split at run
    next t L hft =>
      obtain ⟨rest, hl⟩ := (firstTask_some hft).2
      obtain ⟨evs', s', run', hrep, hloop, hv, hex⟩ :
          ∃ evs' s', SoloRun lineCount w _ evs' s' ∧ _ := soloRun_popped r hl
      exact ⟨_, s', run.append run', hv,
        .inl ⟨L, t, rest, hl, hrep, hloop, List.mem_append_right _ hex⟩⟩
    next =>
      have hc₁ := hc.run hN (run.awakeRun hw)
      obtain ⟨evs', s', run', hpr⟩ := hc₁.progress_approach hN hw (by simp [Worker.Parked])
        (by simpa using r) hne (by simpa using hnum) (by simp [WorkerPc.toSweep])
      exact ⟨_, s', run.append run', hpr.prepend (fun v hvw => by simp [update_noteq hvw]) rfl⟩

/-- A worker not parked on an un-notified token in a calm pool where no worker holds a task, while
a line holds a task: it parks, or it pops a task and runs it. -/
theorem Calm.progress (hN : 0 < lineCount) (hc : Calm lineCount s) (hf : s.Free lineCount)
    {w : Nat} (hw : w < lineCount) (hp : ¬ (s.workers w).Parked) {ls : Nat → List Nat}
    (r : Represents s.heap ls) (hne : ∃ L < lineCount, ls L ≠ []) :
    ∃ evs s', SoloRun lineCount w s evs s' ∧ Progressed w ls s evs s' := by
  have hnum : s.numTasks ≠ 0 := by
    obtain ⟨L, hL, hl⟩ := hne
    have := queued_pos hL hl
    rw [hc.numTasks_eq hN hf r]
    omega
  cases hpc : (s.workers w).pc <;> first
    | (refine hc.progress_approach hN hw hp r hne hnum ?_; simp [hpc, WorkerPc.toSweep]; done)
    | exact hc.progress_sweep hN hw hpc r hne hnum
    | (have h := hf w hw; simp [hpc, WorkerPc.holds] at h; done)
    | exact absurd hpc (hc.not_exited w)

end Calm

/-! ### The whole pool -/

/-- What a run labelled `evs` from `s` to `s'` has done when it drained the pool, `ls` being the
lists of the lines in `s`. -/
structure Drained (lineCount : Nat) (s : Pool) (ls : Nat → List Nat) (evs : List Event)
    (s' : Pool) : Prop where
  /-- every line is empty -/
  empty : ∀ L, s'.heap.tasksStack L = none
  /-- `num_tasks_` is back at 0 -/
  numTasks : s'.numTasks = 0
  /-- no worker holds a task -/
  free : s'.Free lineCount
  /-- the function of every task that was in a line has been called -/
  ran_queued : ∀ L t, t ∈ ls L → ∃ w line, Event.execute w t line ∈ evs
  /-- and the function of every task a worker held, by that worker -/
  ran_held : ∀ w < lineCount, ∀ t line, (s.workers w).pc.holds = some (t, line) →
    Event.execute w t line ∈ evs

section Drain

variable {lineCount : Nat} {s : Pool}

/-- While the lines hold a task, a line holds one and some worker is awake. -/
theorem Calm.awake_of_queued (hN : 0 < lineCount) (hc : Calm lineCount s)
    {ls : Nat → List Nat} (r : Represents s.heap ls) (hq : queued ls lineCount ≠ 0) :
    (∃ L < lineCount, ls L ≠ []) ∧ ∃ w < lineCount, ¬ (s.workers w).Parked := by
  obtain ⟨L, hL, hl⟩ := Finset.exists_ne_zero_of_sum_ne_zero hq
  have hl : ls L ≠ [] := fun h => hl (by simp [h])
  obtain ⟨_, hr⟩ := hc.reachable
  exact ⟨⟨L, Finset.mem_range.mp hL, hl⟩,
    hr.awake hN hc.settled ⟨L, Finset.mem_range.mp hL, Represents.tasksStack_ne_none r hl⟩⟩

end Drain

end Concore2full.ThreadPool
