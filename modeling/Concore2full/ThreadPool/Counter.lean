import Concore2full.ThreadPool.Rounds

/-! `num_tasks_`. An `enqueue` increments it in `notify_one` after its push, a worker decrements it
after its `try_pop`, and `thread_pool::extract_task` after a successful `work_line::extract_task`,
each as a step of its own. So the counter tracks the number of queued tasks less the increments and
plus the decrements still to come, its tally, as an `int`: equal to it modulo `2^32`, and equal to
it outright on runs where it does not wrap around. When none is pending and fewer than `2^31`
tasks are queued it is their number, never negative, and the check of `~thread_pool` stops the
program exactly when tasks are left; at `2^31` queued tasks it is `INT_MIN`, and the check lets the
pool be destroyed with the tasks in its lines. -/

namespace Concore2full.ThreadPool

open WorkLine Function

/-- A worker that has popped a task and not yet decremented `num_tasks_`. -/
def WorkerPc.isPopped : WorkerPc → Bool
  | .popped _ _ => true
  | _ => false

/-- A call of `enqueue` that has pushed its task and not yet incremented `num_tasks_`. -/
def EnqueuePc.isIncrement : EnqueuePc → Bool
  | .increment _ => true
  | _ => false

/-- The increments of `num_tasks_` still to come: calls of `enqueue` between push and increment. -/
def Pool.pendingIncrements (s : Pool) : Nat := s.enqueues.countP fun c => c.pc.isIncrement

/-- The decrements of `num_tasks_` still to come: pops and successful extractions before their
decrement. -/
def Pool.pendingDecrements (s : Pool) (lineCount : Nat) : Nat :=
  (∑ w in Finset.range lineCount, if (s.workers w).pc.isPopped then 1 else 0) +
    s.extracts.countP fun x => x.pc == .decrement

/-- `~thread_pool`: `std::terminate()` when `num_tasks_.load() > 0`, else `join()`. -/
def terminatesOnDestroy (s : Pool) : Bool := decide (0 < s.numTasks)

/-! ### Counting -/

theorem countP_set_add {α : Type} (p : α → Bool) {l : List α} {i : Nat} {a b : α}
    (hi : l[i]? = some a) :
    (l.set i b).countP p + (if p a then 1 else 0) = l.countP p + (if p b then 1 else 0) := by
  obtain ⟨hlt, rfl⟩ := List.getElem?_eq_some_iff.mp hi
  rw [List.countP_set p l i b hlt]
  have : (if p l[i] then 1 else 0) ≤ l.countP p := by
    split_ifs with hp
    · exact List.countP_pos_iff.mpr ⟨_, List.getElem_mem hlt, hp⟩
    · exact Nat.zero_le _
  omega

namespace Pool

variable (s : Pool) (lineCount : Nat)

theorem pendingDecrements_setWorker {w : Nat} (hw : w < lineCount) (W : Worker) :
    (s.setWorker w W).pendingDecrements lineCount + (if (s.workers w).pc.isPopped then 1 else 0) =
      s.pendingDecrements lineCount + (if W.pc.isPopped then 1 else 0) := by
  have := sum_range_update (fun W : Worker => if W.pc.isPopped then 1 else 0) s.workers hw W
  simp only [pendingDecrements, setWorker_workers, setWorker_extracts] at this ⊢
  omega

theorem pendingDecrements_setWorker_of_eq {w : Nat} {W : Worker}
    (hW : W.pc.isPopped = (s.workers w).pc.isPopped) :
    (s.setWorker w W).pendingDecrements lineCount = s.pendingDecrements lineCount := by
  simp only [pendingDecrements, setWorker_workers, setWorker_extracts,
    sum_range_update_of_eq (fun W : Worker => if W.pc.isPopped then 1 else 0) s.workers lineCount w
      (a := W) (by simp only [hW])]

@[simp] theorem pendingIncrements_setWorker (w : Nat) (W : Worker) :
    (s.setWorker w W).pendingIncrements = s.pendingIncrements := rfl

@[simp] theorem pendingIncrements_setExtract (i : Nat) (x : Extract) :
    (s.setExtract i x).pendingIncrements = s.pendingIncrements := rfl

@[simp] theorem pendingDecrements_setEnqueue (i : Nat) (c : Enqueue) :
    (s.setEnqueue i c).pendingDecrements lineCount = s.pendingDecrements lineCount := rfl

theorem pendingIncrements_setEnqueue {i : Nat} {c : Enqueue} (hi : s.enqueues[i]? = some c)
    (c' : Enqueue) :
    (s.setEnqueue i c').pendingIncrements + (if c.pc.isIncrement then 1 else 0) =
      s.pendingIncrements + (if c'.pc.isIncrement then 1 else 0) :=
  countP_set_add _ hi

theorem pendingDecrements_setExtract {i : Nat} {x : Extract} (hi : s.extracts[i]? = some x)
    (x' : Extract) :
    (s.setExtract i x').pendingDecrements lineCount + (if x.pc == .decrement then 1 else 0) =
      s.pendingDecrements lineCount + (if x'.pc == .decrement then 1 else 0) := by
  have := countP_set_add (fun x : Extract => x.pc == .decrement) (b := x') hi
  simp only [pendingDecrements, setExtract_workers, setExtract_extracts] at this ⊢
  omega

end Pool

/-! ### The tally of `num_tasks_` -/

/-- The tasks in the lists `ls` of the lines, less the increments and plus the decrements of
`num_tasks_` still to come: what `num_tasks_` counts. -/
def Pool.tally (lineCount : Nat) (s : Pool) (ls : Nat → List Nat) : Int :=
  (queued ls lineCount : Int) - s.pendingIncrements + s.pendingDecrements lineCount

/-- What a step does to `num_tasks_` and to its tally: changes neither, or increments
`num_tasks_` and adds one to the tally, or decrements it and takes one from the tally. -/
def CounterMove (lineCount : Nat) (s s' : Pool) (ls ls' : Nat → List Nat) : Prop :=
  (s'.numTasks = s.numTasks ∧ s'.tally lineCount ls' = s.tally lineCount ls) ∨
  (s'.numTasks = toInt32 (s.numTasks + 1) ∧ s'.tally lineCount ls' = s.tally lineCount ls + 1) ∨
  (s'.numTasks = toInt32 (s.numTasks - 1) ∧ s'.tally lineCount ls' = s.tally lineCount ls - 1)

theorem PoolLines.lists_eq {lineCount : Nat} {s s' : Pool} {ls ls' : Nat → List Nat}
    (h : PoolLines lineCount s ls) (h' : PoolLines lineCount s' ls') (hheap : s'.heap = s.heap) :
    ls' = ls :=
  h'.represents.unique (hheap ▸ h.represents)

section Step

variable {lineCount : Nat} {s s' : Pool} {ls ls' : Nat → List Nat}

/-- A step that changes neither the counter, nor the lines, nor what is pending. -/
theorem CounterMove.of_eq (hnum : s'.numTasks = s.numTasks)
    (hinc : s'.pendingIncrements = s.pendingIncrements)
    (hdec : s'.pendingDecrements lineCount = s.pendingDecrements lineCount) :
    CounterMove lineCount s s' ls ls :=
  .inl ⟨hnum, by simp only [Pool.tally, hinc, hdec]⟩

theorem Pool.pendingIncrements_setEnqueue_of_eq {i : Nat} {c c' : Enqueue}
    (hi : s.enqueues[i]? = some c) (hc : c'.pc.isIncrement = c.pc.isIncrement) :
    (s.setEnqueue i c').pendingIncrements = s.pendingIncrements := by
  have := s.pendingIncrements_setEnqueue hi c'
  rw [hc] at this
  omega

theorem Pool.pendingDecrements_setExtract_of_eq {i : Nat} {x x' : Extract}
    (hi : s.extracts[i]? = some x) (hx : (x'.pc == .decrement) = (x.pc == .decrement)) :
    (s.setExtract i x').pendingDecrements lineCount = s.pendingDecrements lineCount := by
  have := s.pendingDecrements_setExtract lineCount hi x'
  rw [hx] at this
  omega

theorem EnqueuePc.isIncrement_of_beforePush {pc : EnqueuePc} (h : pc.beforePush) :
    pc.isIncrement = false := by
  cases pc <;> first | rfl | cases h

/-- The push of a call of `enqueue` adds a queued task and an increment to come. -/
theorem CounterMove.push {i t L : Nat} {pc : EnqueuePc} (hi : s.enqueues[i]? = some ⟨t, pc⟩)
    (hb0 : pc.beforePush) (hL : L < lineCount) :
    CounterMove lineCount s ({ s with heap := pushUnprotected s.heap L t }.setEnqueue i
      ⟨t, .increment L⟩) ls (update ls L (t :: ls L)) := by
  have hq := queued_update ls hL (t :: ls L)
  have hinc := s.pendingIncrements_setEnqueue hi ⟨t, .increment L⟩
  rw [EnqueuePc.isIncrement_of_beforePush hb0] at hinc
  simp only [EnqueuePc.isIncrement, List.length_cons, if_true, if_false, Bool.false_eq_true]
    at hq hinc
  refine .inl ⟨rfl, ?_⟩
  simp only [Pool.tally]
  show (queued (update ls L (t :: ls L)) lineCount : Int) -
    (s.setEnqueue i ⟨t, .increment L⟩).pendingIncrements + s.pendingDecrements lineCount = _
  omega

/-- Every step moves `num_tasks_` and its tally together. -/
theorem Step.counterMove (hN : 0 < lineCount) (h : PoolLines lineCount s ls) {e : Event}
    (hs : Step lineCount s e s') (h' : PoolLines lineCount s' ls') :
    CounterMove lineCount s s' ls ls' := by
  cases hs with
  | @worker _ _ w hw hstep =>
    cases hstep with
    | @sweepHit i t acquired hpc hpop =>
      obtain ⟨rest, hl, r⟩ := h.represents.tryPop_some hpop
      obtain rfl := h'.represents.unique r
      have hL : (s.workers w).sweepLine lineCount i < lineCount := by
        by_contra hc; rw [h.beyond _ (by omega)] at hl; cases hl
      have hq := queued_update ls hL rest
      have hd := Pool.pendingDecrements_setWorker s lineCount hw
        { s.workers w with pc := .popped t ((s.workers w).sweepLine lineCount i) }
      simp only [hpc, hl, WorkerPc.isPopped, List.length_cons, Bool.false_eq_true, if_true,
        if_false] at hq hd
      refine .inl ⟨rfl, ?_⟩
      simp only [Pool.tally]
      show (_ : Int) - (s.pendingIncrements : Int) +
        ((s.setWorker w _).pendingDecrements lineCount : Int) = _
      omega
    | @decrement t line hpc =>
      obtain rfl := h.lists_eq h' rfl
      have hd := Pool.pendingDecrements_setWorker s lineCount hw
        { s.workers w with pc := .execute t line }
      simp only [hpc, WorkerPc.isPopped, Bool.false_eq_true, if_true, if_false] at hd
      refine .inr (.inr ⟨rfl, ?_⟩)
      simp only [Pool.tally]
      show (_ : Int) - (s.pendingIncrements : Int) +
        ((s.setWorker w _).pendingDecrements lineCount : Int) = _
      omega
    | _ =>
      obtain rfl := h.lists_eq h' rfl
      refine CounterMove.of_eq rfl rfl (Pool.pendingDecrements_setWorker_of_eq _ _ ?_)
      dsimp only; rw [‹(s.workers w).pc = _›]; first | rfl | (split <;> rfl)
  | @enqueue _ _ i he =>
    cases he with
    | clearLinks he =>
      obtain rfl := h'.represents.unique (h.represents.clearLinks (h.unpushed _ _ he rfl))
      exact CounterMove.of_eq rfl (Pool.pendingIncrements_setEnqueue_of_eq he rfl) rfl
    | @probeHit t index j he =>
      obtain rfl := h'.represents.unique (h.represents.pushUnprotected (h.unpushed _ _ he rfl))
      exact CounterMove.push he rfl (Nat.mod_lt _ hN)
    | @forcePush t index he =>
      obtain rfl := h'.represents.unique (h.represents.pushUnprotected (h.unpushed _ _ he rfl))
      exact CounterMove.push he rfl (Nat.mod_lt _ hN)
    | @increment t line he =>
      obtain rfl := h.lists_eq h' rfl
      have hif : (if s.numTasks ≤ lineCount then EnqueuePc.notify line 0 .fetchAdd
        else .done).isIncrement = false := by split <;> rfl
      generalize (if s.numTasks ≤ lineCount then EnqueuePc.notify line 0 .fetchAdd
        else .done) = pc' at hif ⊢
      have hi := s.pendingIncrements_setEnqueue he ⟨t, pc'⟩
      rw [hif] at hi
      simp only [EnqueuePc.isIncrement, if_true, if_false, Bool.false_eq_true] at hi
      refine .inr (.inl ⟨rfl, ?_⟩)
      simp only [Pool.tally]
      show (_ : Int) - ((s.setEnqueue i ⟨t, pc'⟩).pendingIncrements : Int) +
        (s.pendingDecrements lineCount : Int) = _
      omega
    | fetchIndex he =>
      obtain rfl := h.lists_eq h' rfl
      exact CounterMove.of_eq rfl (Pool.pendingIncrements_setEnqueue_of_eq he rfl) rfl
    | probeMiss he =>
      obtain rfl := h.lists_eq h' rfl
      exact CounterMove.of_eq rfl (Pool.pendingIncrements_setEnqueue_of_eq he (by split <;> rfl))
        rfl
    | notifyAdd he =>
      obtain rfl := h.lists_eq h' rfl
      exact CounterMove.of_eq rfl
        (Pool.pendingIncrements_setEnqueue_of_eq he (by split_ifs <;> rfl))
        (by rw [Pool.pendingDecrements_setEnqueue]; exact s.pendingDecrements_setWorker_of_eq _ rfl)
    | notifyStore he =>
      obtain rfl := h.lists_eq h' rfl
      exact CounterMove.of_eq rfl (Pool.pendingIncrements_setEnqueue_of_eq he rfl)
        (by rw [Pool.pendingDecrements_setEnqueue]; exact s.pendingDecrements_setWorker_of_eq _ rfl)
    | notifyWake he =>
      obtain rfl := h.lists_eq h' rfl
      exact CounterMove.of_eq rfl (Pool.pendingIncrements_setEnqueue_of_eq he rfl)
        (by rw [Pool.pendingDecrements_setEnqueue]
            exact s.pendingDecrements_setWorker_of_eq _ (by simp))
  | @extract _ _ i hx =>
    cases hx with
    | readData hx =>
      obtain rfl := h.lists_eq h' rfl
      exact CounterMove.of_eq rfl rfl
        (Pool.pendingDecrements_setExtract_of_eq hx (by split <;> rfl))
    | @extract t line hx =>
      cases hw : s.heap.workerData t with
      | none =>
        rw [extractTask_of_workerData_none hw] at h' ⊢
        obtain rfl := h.lists_eq h' rfl
        exact CounterMove.of_eq rfl rfl (Pool.pendingDecrements_setExtract_of_eq hx rfl)
      | some L =>
        obtain ⟨pre, post, hl, hres, r⟩ := h.represents.extract_some line hw
        obtain rfl := h'.represents.unique r
        have hL : L < lineCount := by
          by_contra hc; rw [h.beyond L (by omega)] at hl; simp at hl
        have hq := queued_update ls hL (pre ++ post)
        have hd := s.pendingDecrements_setExtract lineCount hx ⟨t, .decrement⟩
        rw [hl] at hq
        simp only [List.length_append, List.length_cons] at hq
        simp only [beq_self_eq_true, if_true, reduceCtorEq, beq_iff_eq, if_false] at hd
        rw [hres]
        refine .inl ⟨rfl, ?_⟩
        simp only [Pool.tally]
        show (queued (update ls L (pre ++ post)) lineCount : Int) - s.pendingIncrements +
          (s.setExtract i ⟨t, .decrement⟩).pendingDecrements lineCount = _
        omega
    | @decrement t hx =>
      obtain rfl := h.lists_eq h' rfl
      have hd := s.pendingDecrements_setExtract lineCount hx ⟨t, .done true⟩
      simp only [beq_self_eq_true, if_true, reduceCtorEq, beq_iff_eq, if_false] at hd
      refine .inr (.inr ⟨rfl, ?_⟩)
      simp only [Pool.tally]
      show (_ : Int) - (s.pendingIncrements : Int) +
        ((s.setExtract i ⟨t, .done true⟩).pendingDecrements lineCount : Int) = _
      omega
  | join hj =>
    cases hj <;> obtain rfl := h.lists_eq h' rfl
    case notifyAdd => exact CounterMove.of_eq rfl rfl (s.pendingDecrements_setWorker_of_eq _ rfl)
    case notifyStore => exact CounterMove.of_eq rfl rfl (s.pendingDecrements_setWorker_of_eq _ rfl)
    case notifyWake =>
      exact CounterMove.of_eq rfl rfl (s.pendingDecrements_setWorker_of_eq _ (by simp))
    all_goals exact CounterMove.of_eq rfl rfl rfl
  | startEnqueue t =>
    obtain rfl := h.lists_eq h' rfl
    exact CounterMove.of_eq rfl (by simp [Pool.pendingIncrements, EnqueuePc.isIncrement]) rfl
  | startExtract t =>
    obtain rfl := h.lists_eq h' rfl
    exact CounterMove.of_eq rfl rfl (by simp [Pool.pendingDecrements])

end Step

theorem Pool.tally_init (lineCount : Nat) : Pool.init.tally lineCount (fun _ => []) = 0 := by
  simp [Pool.tally, Pool.init, queued, Pool.pendingIncrements, Pool.pendingDecrements,
    Worker.init, WorkerPc.isPopped]

/-- In every reachable state of a pool of at least one line, `num_tasks_` is its tally as an
`int`. -/
theorem Reachable.balanced {lineCount : Nat} (hN : 0 < lineCount) {evs : List Event} {s : Pool}
    (hr : Reachable lineCount evs s) :
    ∃ ls, PoolLines lineCount s ls ∧ s.numTasks = toInt32 (s.tally lineCount ls) := by
  induction hr with
  | refl => exact ⟨_, PoolLines.init, by rw [Pool.tally_init]; rfl⟩
  | tail _ hs ih =>
    obtain ⟨ls, h, hb⟩ := ih
    obtain ⟨ls', h'⟩ := h.step hN hs
    refine ⟨ls', h', ?_⟩
    rcases (hs.counterMove hN h h') with ⟨h1, h2⟩ | ⟨h1, h2⟩ | ⟨h1, h2⟩ <;>
      simp [h1, h2, hb]

/-- On a run where no counter wraps around, `num_tasks_` is its tally. -/
theorem SafeReachable.balanced {lineCount : Nat} (hN : 0 < lineCount) {evs : List Event}
    {s : Pool} (hr : SafeReachable lineCount evs s) :
    ∃ ls, PoolLines lineCount s ls ∧ s.numTasks = s.tally lineCount ls := by
  induction hr with
  | refl => exact ⟨_, PoolLines.init, by rw [Pool.tally_init]; rfl⟩
  | tail hr hs _ ih =>
    obtain ⟨ls, h, hb⟩ := ih
    obtain ⟨ls', h'⟩ := h.step hN hs
    obtain ⟨hlo, hhi, -⟩ := hr.fits
    refine ⟨ls', h', ?_⟩
    rcases (hs.counterMove hN h h') with ⟨h1, h2⟩ | ⟨h1, h2⟩ | ⟨h1, h2⟩
    · rw [h1, h2, hb]
    · rw [h1, h2, toInt32_eq_self (by omega) (by omega), hb]
    · rw [h1, h2, toInt32_eq_self (by omega) (by omega), hb]

/-- What `num_tasks_` says about the lists `ls` of the lines of a pool. -/
structure NumTasksSpec (lineCount : Nat) (s : Pool) (ls : Nat → List Nat) : Prop where
  represents : Represents s.heap ls
  beyond : ∀ L, lineCount ≤ L → ls L = []
  /-- the queued tasks, less the increments and plus the decrements still to come, as an `int` -/
  balance : s.numTasks = toInt32 ((queued ls lineCount : Int) - s.pendingIncrements +
    s.pendingDecrements lineCount)
  /-- with nothing pending and fewer than `2^31` tasks queued: the queued tasks, never negative,
  and `~thread_pool` terminates exactly when some are left -/
  settled : s.pendingIncrements = 0 → s.pendingDecrements lineCount = 0 →
    queued ls lineCount < 2 ^ 31 →
    s.numTasks = queued ls lineCount ∧ 0 ≤ s.numTasks ∧
      (terminatesOnDestroy s = true ↔ 0 < queued ls lineCount)

/-- `num_tasks_` in every reachable state of a pool of at least one line. -/
theorem num_tasks_balance {lineCount : Nat} (hN : 0 < lineCount) {evs : List Event} {s : Pool}
    (hr : Reachable lineCount evs s) : ∃ ls, NumTasksSpec lineCount s ls := by
  obtain ⟨ls, h, hb⟩ := hr.balanced hN
  refine ⟨ls, h.represents, h.beyond, hb, fun hi hd hq => ?_⟩
  have hn : s.numTasks = queued ls lineCount := by
    have hz : (queued ls lineCount : Int) - ((0 : Nat) : Int) + ((0 : Nat) : Int) =
        queued ls lineCount := by omega
    rw [hb, Pool.tally, hi, hd, hz]
    exact toInt32_eq_self (by omega) (by omega)
  refine ⟨hn, by omega, ?_⟩
  simp [terminatesOnDestroy, hn]

theorem Idle.pendingIncrements_eq_zero {s : Pool} {ls : Nat → List Nat} {n c : Int}
    (h : Idle s ls n c) : s.pendingIncrements = 0 :=
  List.countP_eq_zero.mpr fun x hx => by simp [h.enqueues x hx, EnqueuePc.isIncrement]

theorem Idle.pendingDecrements_eq_zero {s : Pool} {ls : Nat → List Nat} {n c : Int}
    (h : Idle s ls n c) : s.pendingDecrements 1 = 0 := by
  simp only [Pool.pendingDecrements, Finset.sum_range_one, h.worker, WorkerPc.isPopped,
    Bool.false_eq_true, if_false, Nat.zero_add]
  exact List.countP_eq_zero.mpr fun x hx => by
    obtain ⟨r, hr⟩ := h.extracts x hx; simp [hr]

/-- Tasks 5 and 6 enqueued on lines 0 and 1 of a pool of two lines, both calls returned; worker 1
has popped 6 and not yet decremented `num_tasks_`. -/
theorem twoTasks_popped : ∃ evs s, Reachable 2 evs s ∧ evs.length < 2 ^ 30 ∧
    (∀ c ∈ s.enqueues, c.pc = .done) ∧ s.extracts = [] ∧ s.join = .idle ∧
    s.stopRequested = false ∧ (s.workers 1).pc = .popped 6 1 ∧ s.heap.tasksStack 0 = some 5 ∧
    s.numTasks = 2 ∧ s.pendingDecrements 2 = 1 ∧ (s.workers 0).pc = .loop := by
  have r := Run.tail (Run.refl Pool.init : Run 2 Pool.init [] Pool.init)
    (Step.startEnqueue 5 rfl (by simp [Pool.init]) (by simp [Pool.init]))
  have r := Run.tail r (Step.enqueue (i := 0) (EnqueueStep.clearLinks rfl))
  have r := Run.tail r (Step.enqueue (i := 0) (EnqueueStep.fetchIndex rfl))
  have r := Run.tail r (Step.enqueue (i := 0) (EnqueueStep.probeHit rfl))
  have r := Run.tail r (Step.enqueue (i := 0) (EnqueueStep.increment rfl))
  have r := Run.tail r (Step.enqueue (i := 0) (EnqueueStep.notifyAdd rfl (by decide : 0 < 2)))
  have r := Run.tail r (Step.enqueue (i := 0) (EnqueueStep.notifyAdd rfl (by decide : 1 < 2)))
  have r := Run.tail r (Step.startEnqueue 6 rfl (by decide) (by decide))
  have r := Run.tail r (Step.enqueue (i := 1) (EnqueueStep.clearLinks rfl))
  have r := Run.tail r (Step.enqueue (i := 1) (EnqueueStep.fetchIndex rfl))
  have r := Run.tail r (Step.enqueue (i := 1) (EnqueueStep.probeHit rfl))
  have r := Run.tail r (Step.enqueue (i := 1) (EnqueueStep.increment rfl))
  have r := Run.tail r (Step.enqueue (i := 1) (EnqueueStep.notifyAdd rfl (by decide : 0 < 2)))
  have r := Run.tail r (Step.enqueue (i := 1) (EnqueueStep.notifyAdd rfl (by decide : 1 < 2)))
  have r := Run.tail r (Step.worker (w := 1) (by decide : 1 < 2) (WorkerStep.loop rfl))
  have r := Run.tail r (Step.worker (w := 1) (by decide : 1 < 2) (WorkerStep.checkTasks rfl))
  have r := Run.tail r
    (Step.worker (w := 1) (by decide : 1 < 2) (@WorkerStep.sweepHit _ _ _ _ _ true rfl rfl))
  exact ⟨_, _, r, by decide, by decide, rfl, rfl, rfl, rfl, rfl, rfl, by decide, rfl⟩

/-- The pool of `twoTasks_popped`: `num_tasks_` is 2, one task queued and one decrement to come. -/
theorem num_tasks_balance_after_pop : ∃ evs s, Reachable 2 evs s ∧ s.numTasks = 2 ∧
    s.pendingDecrements 2 = 1 ∧ ∃ ls, NumTasksSpec 2 s ls := by
  obtain ⟨evs, s, r, -, -, -, -, -, -, -, hn, hd, -⟩ := twoTasks_popped
  exact ⟨evs, s, r, hn, hd, num_tasks_balance (by decide) r⟩

/-- `num_tasks_` wraps around: after `enqueue` of `2^31` tasks on a pool of one line, with nothing
pending, `num_tasks_` is `INT_MIN` while `2^31` tasks are queued, and the check of `~thread_pool`
does not stop the program. -/
theorem num_tasks_wraps :
    ∃ evs s ls, Reachable 1 evs s ∧ Represents s.heap ls ∧ queued ls 1 = 2 ^ 31 ∧
      s.pendingIncrements = 0 ∧ s.pendingDecrements 1 = 0 ∧ s.numTasks = -2 ^ 31 ∧
      terminatesOnDestroy s = false := by
  obtain ⟨evs, s, r, h⟩ := Idle.pushes (2 ^ 31) le_rfl
  refine ⟨evs, s, _, r, h.represents, by simp [queued], h.pendingIncrements_eq_zero,
    h.pendingDecrements_eq_zero, by rw [h.numTasks]; rfl, ?_⟩
  simp [terminatesOnDestroy, h.numTasks]
  decide

end Concore2full.ThreadPool
