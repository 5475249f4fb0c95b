import Concore2full.ThreadPool.Counter

/-! What the pool does with one task. A call of `enqueue` pushes its task on one line, by
`try_push` or by the fallback `push`; the task then leaves that line at most once, by the
`try_pop` of one worker, which goes on to call its task function, or by a successful
`thread_pool::extract_task`; and `work_line::extract_task` succeeds exactly when the task is in a
line. A run is counted by its events, the pushes, pops, successful extractions and calls of the task
function of each task, against the calls of `enqueue` past their push, the lists of the lines and
the workers that hold the task. -/

namespace Concore2full.ThreadPool

open WorkLine Function

/-! ### The events and the state that name a task -/

/-- A push of task `t`, by `try_push` or by the fallback `push`. -/
def Event.pushes (t : Nat) : Event → Bool
  | .push u _ => u == t
  | _ => false

/-- A `try_pop` that returned task `t`. -/
def Event.pops (t : Nat) : Event → Bool
  | .pop _ u _ => u == t
  | _ => false

/-- A `work_line::extract_task` of task `t` that returned true. -/
def Event.extracts (t : Nat) : Event → Bool
  | .extracted u r => u == t && r
  | _ => false

/-- A call of the task function of task `t`. -/
def Event.executes (t : Nat) : Event → Bool
  | .execute _ u _ => u == t
  | _ => false

/-- Whether an event changes the task a worker holds: a pop, or the call of the task function. -/
def Event.changesHolds : Event → Bool
  | .pop _ _ _ | .execute _ _ _ => true
  | _ => false

/-- A call of `enqueue` on task `t` that has pushed it. -/
def Enqueue.pushed (t : Nat) (c : Enqueue) : Bool := c.task == t && !c.pc.beforePush

/-- How many times task `t` is in the lines below `lineCount`. -/
def inLines (ls : Nat → List Nat) (lineCount t : Nat) : Nat :=
  ∑ L in Finset.range lineCount, (ls L).count t

/-- The task a worker holds, with its line, from its `try_pop` to the return of the task
function. -/
def WorkerPc.holds : WorkerPc → Option (Nat × Nat)
  | .popped t line | .execute t line => some (t, line)
  | _ => none

/-- How many workers below `lineCount` hold task `t`. -/
def held (W : Nat → Worker) (lineCount t : Nat) : Nat :=
  ∑ w in Finset.range lineCount, if (W w).pc.holds.map Prod.fst = some t then 1 else 0

theorem Event.of_changesLines {e : Event} (he : e.changesLines = false) (t : Nat) :
    e.pushes t = false ∧ e.pops t = false ∧ e.extracts t = false := by
  cases e <;> simp_all [Event.changesLines, Event.pushes, Event.pops, Event.extracts]

theorem Event.of_changesHolds {e : Event} (he : e.changesHolds = false) (t : Nat) :
    e.pops t = false ∧ e.executes t = false := by
  cases e <;> simp_all [Event.changesHolds, Event.pops, Event.executes]

theorem countP_concat {α : Type} (p : α → Bool) (l : List α) (a : α) :
    (l ++ [a]).countP p = l.countP p + if p a then 1 else 0 := by
  simp [List.countP_append, List.countP_cons]

theorem sum_range_of_ne (f f' : Nat → Nat) {n k : Nat} (hk : k < n)
    (hf : ∀ v ≠ k, f' v = f v) :
    ∑ v in Finset.range n, f' v + f k = ∑ v in Finset.range n, f v + f' k := by
  have hmem := Finset.mem_range.mpr hk
  have hrest : ∑ v in Finset.range n \ {k}, f' v = ∑ v in Finset.range n \ {k}, f v :=
    Finset.sum_congr rfl fun v hv => hf v fun e =>
      (Finset.mem_sdiff.mp hv).2 (Finset.mem_singleton.mpr e)
  rw [Finset.sum_eq_add_sum_diff_singleton hmem (fun v => f' v),
    Finset.sum_eq_add_sum_diff_singleton hmem (fun v => f v), hrest]
  omega

/-! ### What a step does to the calls of `enqueue` past their push -/

section Step

variable {lineCount : Nat} {s s' : Pool} {e : Event}

theorem countP_pushed_set {l : List Enqueue} {i t u : Nat} {pc pc' : EnqueuePc}
    (hi : l[i]? = some ⟨u, pc⟩) (hb : pc'.beforePush = pc.beforePush) :
    (l.set i ⟨u, pc'⟩).countP (Enqueue.pushed t) = l.countP (Enqueue.pushed t) := by
  have := countP_set_add (Enqueue.pushed t) (b := ⟨u, pc'⟩) hi
  simp only [Enqueue.pushed, hb] at this
  omega

theorem countP_pushed_push {l : List Enqueue} {i t u L : Nat} {pc : EnqueuePc}
    (hi : l[i]? = some ⟨u, pc⟩) (hb : pc.beforePush) :
    (l.set i ⟨u, .increment L⟩).countP (Enqueue.pushed t) =
      l.countP (Enqueue.pushed t) + if u == t then 1 else 0 := by
  have := countP_set_add (Enqueue.pushed t) (b := ⟨u, .increment L⟩) hi
  have hL : (EnqueuePc.increment L).beforePush = false := rfl
  simp only [Enqueue.pushed, hb, hL, Bool.not_true, Bool.and_false, Bool.not_false,
    Bool.and_true, Bool.false_eq_true, if_false] at this
  omega

/-- A step adds a call of `enqueue` past its push exactly when it pushes. -/
theorem Step.pushed_count (hs : Step lineCount s e s') (t : Nat) :
    s'.enqueues.countP (Enqueue.pushed t) =
      s.enqueues.countP (Enqueue.pushed t) + if e.pushes t then 1 else 0 := by
  cases hs with
  | worker _ hw => cases hw <;> rfl
  | enqueue he =>
    cases he with
    | probeHit he => exact countP_pushed_push he rfl
    | forcePush he => exact countP_pushed_push he rfl
    | probeMiss he => exact countP_pushed_set he (by split <;> rfl)
    | increment he => exact countP_pushed_set he (by split <;> rfl)
    | notifyAdd he => exact countP_pushed_set he (by split_ifs <;> rfl)
    | _ he => exact countP_pushed_set he rfl
  | extract hx => cases hx <;> rfl
  | join hj => cases hj <;> rfl
  | startEnqueue u => simp [List.countP_append, Enqueue.pushed, EnqueuePc.beforePush, Event.pushes]
  | startExtract u => rfl

/-! ### What a step does to the lines and to the tasks the workers hold -/

/-- A step puts task `t` in a line when it pushes it, and takes it off when it pops it or
extracts it. -/
theorem LinesChange.inLines {ls ls' : Nat → List Nat} (hc : LinesChange lineCount ls e ls')
    (t : Nat) :
    inLines ls' lineCount t + (if e.pops t then 1 else 0) + (if e.extracts t then 1 else 0) =
      inLines ls lineCount t + if e.pushes t then 1 else 0 := by
  cases hc with
  | keep he => obtain ⟨h1, h2, h3⟩ := Event.of_changesLines he t; simp [h1, h2, h3]
  | @push u L hL _ =>
    have := sum_range_update (fun l => l.count t) ls hL (u :: ls L)
    simp only [ThreadPool.inLines, List.count_cons, Event.pushes, Event.pops, Event.extracts,
      beq_iff_eq, Bool.false_eq_true, if_false] at this ⊢
    split_ifs at this ⊢ <;> omega
  | @pop w u L rest hL hl =>
    have := sum_range_update (fun l => l.count t) ls hL rest
    simp only [ThreadPool.inLines, hl, List.count_cons, Event.pushes, Event.pops, Event.extracts,
      beq_iff_eq, Bool.false_eq_true, if_false] at this ⊢
    split_ifs at this ⊢ <;> omega
  | @extract u L pre post hL hl =>
    have := sum_range_update (fun l => l.count t) ls hL (pre ++ post)
    simp only [ThreadPool.inLines, hl, List.count_append, List.count_cons, Event.pushes,
      Event.pops, Event.extracts, beq_iff_eq, Bool.and_true, Bool.false_eq_true, if_false]
      at this ⊢
    split_ifs at this ⊢ <;> omega

/-- What one step does to the tasks the workers `W` hold, with its event. -/
inductive HoldChange (lineCount : Nat) (W : Nat → Worker) : Event → (Nat → Worker) → Prop
  | keep {e : Event} {W' : Nat → Worker} (he : e.changesHolds = false)
      (hW : ∀ v, (W' v).pc.holds = (W v).pc.holds) : HoldChange lineCount W e W'
  | pop {w t L : Nat} {W' : Nat → Worker} (hw : w < lineCount) (h0 : (W w).pc.holds = none)
      (h1 : (W' w).pc.holds = some (t, L)) (hv : ∀ v ≠ w, (W' v).pc.holds = (W v).pc.holds) :
      HoldChange lineCount W (.pop w t L) W'
  | execute {w t L : Nat} {W' : Nat → Worker} (hw : w < lineCount)
      (h0 : (W w).pc.holds = some (t, L)) (h1 : (W' w).pc.holds = none)
      (hv : ∀ v ≠ w, (W' v).pc.holds = (W v).pc.holds) :
      HoldChange lineCount W (.execute w t L) W'

theorem holds_update {W : Nat → Worker} {k : Nat} {V : Worker}
    (hV : V.pc.holds = (W k).pc.holds) (v : Nat) :
    (update W k V v).pc.holds = (W v).pc.holds := by
  rcases eq_or_ne v k with rfl | hv
  · simpa using hV
  · rw [update_noteq hv]

/-- A worker takes a task by its `try_pop` and lets it go when the task function returns; no other
step changes what the workers hold. -/
theorem Step.holdChange (hs : Step lineCount s e s') :
    HoldChange lineCount s.workers e s'.workers := by
  cases hs with
  | @worker _ _ w hw hstep =>
    have hv {V : Worker} (v : Nat) (hvw : v ≠ w) :
        (update s.workers w V v).pc.holds = (s.workers v).pc.holds := by rw [update_noteq hvw]
    cases hstep with
    | sweepHit hpc => exact .pop hw (by simp [hpc, WorkerPc.holds]) (by simp [WorkerPc.holds]) hv
    | execute hpc => exact .execute hw (by simp [hpc, WorkerPc.holds]) (by simp [WorkerPc.holds]) hv
    | decrement hpc => exact .keep rfl (holds_update (by simp [hpc, WorkerPc.holds]))
    | _ hpc => exact .keep rfl (holds_update (by rw [hpc]; first | rfl | (split <;> rfl)))
  | enqueue he =>
    cases he
    case notifyAdd => exact .keep rfl (holds_update (by simp))
    case notifyStore => exact .keep rfl (holds_update rfl)
    case notifyWake => exact .keep rfl (holds_update (by simp))
    all_goals exact .keep rfl fun _ => rfl
  | extract hx => cases hx <;> exact .keep rfl fun _ => rfl
  | join hj =>
    cases hj
    case notifyAdd => exact .keep rfl (holds_update (by simp))
    case notifyStore => exact .keep rfl (holds_update rfl)
    case notifyWake => exact .keep rfl (holds_update (by simp))
    all_goals exact .keep rfl fun _ => rfl
  | startEnqueue => exact .keep rfl fun _ => rfl
  | startExtract => exact .keep rfl fun _ => rfl

theorem held_add_of_ne {W W' : Nat → Worker} {w : Nat} (hw : w < lineCount)
    (hv : ∀ v ≠ w, (W' v).pc.holds = (W v).pc.holds) (t : Nat) :
    held W' lineCount t + (if (W w).pc.holds.map Prod.fst = some t then 1 else 0) =
      held W lineCount t + if (W' w).pc.holds.map Prod.fst = some t then 1 else 0 :=
  sum_range_of_ne (fun v => if (W v).pc.holds.map Prod.fst = some t then 1 else 0)
    (fun v => if (W' v).pc.holds.map Prod.fst = some t then 1 else 0) hw
    fun v hvw => by simp only [hv v hvw]

/-- A worker comes to hold task `t` when it pops it, and stops when it calls its task function. -/
theorem HoldChange.held {W W' : Nat → Worker} (hc : HoldChange lineCount W e W') (t : Nat) :
    held W' lineCount t + (if e.executes t then 1 else 0) =
      held W lineCount t + if e.pops t then 1 else 0 := by
  cases hc with
  | keep he hW =>
    obtain ⟨h1, h2⟩ := Event.of_changesHolds he t
    simp only [h1, h2, ThreadPool.held, hW]
  | pop hw h0 h1 hv | execute hw h0 h1 hv =>
    have := held_add_of_ne hw hv t
    simp only [h0, h1, Option.map_none', Option.map_some', reduceCtorEq, Option.some.injEq,
      if_false] at this
    simp only [Event.pops, Event.executes, beq_iff_eq, Bool.false_eq_true, if_false]
    split_ifs at this ⊢ <;> omega

end Step

/-! ### The invariant of one task -/

/-- What the run `evs` to `s` did with task `t`, `ls` being the lists of the lines of `s`. -/
structure TaskInv (lineCount : Nat) (evs : List Event) (s : Pool) (ls : Nat → List Nat)
    (t : Nat) : Prop where
  pushed : evs.countP (Event.pushes t) = s.enqueues.countP (Enqueue.pushed t)
  leaves : evs.countP (Event.pops t) + evs.countP (Event.extracts t) + inLines ls lineCount t =
    evs.countP (Event.pushes t)
  executes : evs.countP (Event.executes t) + held s.workers lineCount t =
    evs.countP (Event.pops t)
  pushedTo : ∀ L, t ∈ ls L → .push t L ∈ evs
  poppedFrom : ∀ w L, .pop w t L ∈ evs → .push t L ∈ evs
  heldFrom : ∀ w L, (s.workers w).pc.holds = some (t, L) → .pop w t L ∈ evs
  executedBy : ∀ w L, .execute w t L ∈ evs → .pop w t L ∈ evs

section Step

variable {lineCount : Nat} {evs : List Event} {s s' : Pool} {e : Event}
  {ls ls' : Nat → List Nat} {t : Nat}

theorem TaskInv.init (lineCount t : Nat) : TaskInv lineCount [] Pool.init (fun _ => []) t where
  pushed := rfl
  leaves := by simp [inLines]
  executes := by simp [held, Pool.init, Worker.init, WorkerPc.holds]
  pushedTo _ h := by cases h
  poppedFrom _ _ h := by cases h
  heldFrom _ _ h := by simp [Pool.init, Worker.init, WorkerPc.holds] at h
  executedBy _ _ h := by cases h

/-- A task is in a line after a step only if it was, or the step pushed it there. -/
theorem LinesChange.mem (hc : LinesChange lineCount ls e ls') {L : Nat} (ht : t ∈ ls' L) :
    t ∈ ls L ∨ e = .push t L := by
  cases hc with
  | keep => exact .inl ht
  | @push u L' =>
    rcases eq_or_ne L L' with rfl | hL
    · simp only [update_same, List.mem_cons] at ht
      exact ht.elim (fun h => .inr (h ▸ rfl)) .inl
    · exact .inl (by simpa [hL] using ht)
  | @pop _ _ L' rest _ hl => exact .inl (PoolLines.mem_update_of_sub (by simp [hl]; tauto) ht)
  | @extract _ L' pre post _ hl => exact .inl (PoolLines.mem_update_of_sub (by simp [hl]; tauto) ht)

/-- Every step keeps the invariant of every task. -/
theorem TaskInv.step (hN : 0 < lineCount) (h : PoolLines lineCount s ls)
    (h' : PoolLines lineCount s' ls') (hs : Step lineCount s e s')
    (hi : TaskInv lineCount evs s ls t) : TaskInv lineCount (evs ++ [e]) s' ls' t := by
  have hc := h.linesChange hN hs h'
  have hh := hs.holdChange
  have hl := hc.inLines t
  have hw := hh.held t
  have hp := hs.pushed_count t
  have hleaves := hi.leaves
  have hexec := hi.executes
  refine ⟨?_, ?_, ?_, fun L hL => ?_, fun w L hL => ?_, fun w L hL => ?_, fun w L hL => ?_⟩
  · rw [countP_concat, hi.pushed, hp]
  · simp only [countP_concat]
    omega
  · simp only [countP_concat]
    omega
  · rcases hc.mem hL with hL | rfl
    · exact List.mem_append_left _ (hi.pushedTo L hL)
    · exact List.mem_append_right _ (List.mem_singleton_self _)
  · rcases List.mem_append.mp hL with hL | hL
    · exact List.mem_append_left _ (hi.poppedFrom w L hL)
    · rw [List.mem_singleton] at hL
      subst hL
      cases hc with
      | keep he => simp [Event.changesLines] at he
      | pop _ hl0 => exact List.mem_append_left _ (hi.pushedTo L (hl0 ▸ List.mem_cons_self _ _))
  · refine List.mem_append.mpr ?_
    cases hh with
    | keep _ hW => exact .inl (hi.heldFrom w L ((hW w).symm.trans hL))
    | @pop v u L' _ _ _ h1 hv =>
      rcases eq_or_ne w v with rfl | hwv
      · rw [h1] at hL
        cases hL
        exact .inr (List.mem_singleton_self _)
      · exact .inl (hi.heldFrom w L ((hv w hwv).symm.trans hL))
    | @execute v u L' _ _ _ h1 hv =>
      rcases eq_or_ne w v with rfl | hwv
      · rw [h1] at hL
        cases hL
      · exact .inl (hi.heldFrom w L ((hv w hwv).symm.trans hL))
  · rcases List.mem_append.mp hL with hL | hL
    · exact List.mem_append_left _ (hi.executedBy w L hL)
    · rw [List.mem_singleton] at hL
      subst hL
      cases hh with
      | keep he => simp [Event.changesHolds] at he
      | execute _ h0 => exact List.mem_append_left _ (hi.heldFrom w L h0)

end Step

/-- Every reachable state of a pool of at least one line keeps the invariant of every task. -/
theorem Reachable.taskInv {lineCount : Nat} (hN : 0 < lineCount) {evs : List Event} {s : Pool}
    (hr : Reachable lineCount evs s) (t : Nat) :
    ∃ ls, PoolLines lineCount s ls ∧ TaskInv lineCount evs s ls t := by
  induction hr with
  | refl => exact ⟨_, PoolLines.init, TaskInv.init lineCount t⟩
  | tail _ hs ih =>
    obtain ⟨ls, h, hi⟩ := ih
    obtain ⟨ls', h'⟩ := h.step hN hs
    exact ⟨ls', h', hi.step hN h h' hs⟩

/-- The locked section of `work_line::extract_task` returns true exactly when the task is in a
line. -/
theorem PoolLines.extracted_iff {lineCount : Nat} {s s' : Pool} {ls : Nat → List Nat}
    (h : PoolLines lineCount s ls) {t : Nat} {r : Bool}
    (hs : Step lineCount s (.extracted t r) s') : r = true ↔ ∃ L < lineCount, t ∈ ls L := by
  cases hs with
  | worker _ hw => cases hw
  | enqueue he => cases he
  | join hj => cases hj
  | extract hx =>
    cases hx with
    | @extract _ line _ =>
      cases hw : s.heap.workerData t with
      | none =>
        rw [extractTask_of_workerData_none hw]
        simpa using fun L _ => h.represents.not_mem hw L
      | some L =>
        obtain ⟨pre, post, hl, hres, -⟩ := h.represents.extract_some line hw
        have hmem := h.represents.owner t L hw
        simpa [hres] using ⟨L, h.lt_of_mem hmem, hmem⟩

/-- What a run did with a task `t` passed to `enqueue` at most once, `ls` being the lists of the
lines it leaves. -/
structure TaskSpec (lineCount : Nat) (evs : List Event) (s : Pool) (ls : Nat → List Nat)
    (t : Nat) : Prop where
  represents : Represents s.heap ls
  /-- `enqueue` pushed `t` on a line at most once, by `try_push` or by the fallback `push` -/
  pushed_once : evs.countP (Event.pushes t) ≤ 1
  /-- and did push it once, once its call is past its push -/
  pushed : ∀ c ∈ s.enqueues, c.task = t → c.pc.beforePush = false →
    evs.countP (Event.pushes t) = 1
  /-- `t` is in the lines as often as it was pushed and did not leave them -/
  leaves : evs.countP (Event.pops t) + evs.countP (Event.extracts t) + inLines ls lineCount t =
    evs.countP (Event.pushes t)
  /-- no two `try_pop`s returned `t`, nor a `try_pop` and a successful extraction -/
  left_once : evs.countP (Event.pops t) + evs.countP (Event.extracts t) ≤ 1
  /-- a `try_pop` took `t` from the line it was pushed on, and `t` stays on that line -/
  popped_from : ∀ w L, .pop w t L ∈ evs → .push t L ∈ evs
  stays : ∀ L, t ∈ ls L → .push t L ∈ evs
  /-- the worker that popped `t` has called its task function or holds it still, and called it
  at most once -/
  executes : evs.countP (Event.executes t) + held s.workers lineCount t =
    evs.countP (Event.pops t)
  executed_by : ∀ w L, .execute w t L ∈ evs → .pop w t L ∈ evs
  /-- the locked section of `work_line::extract_task` run now returns true exactly when `t` is in
  a line -/
  extract_iff : ∀ r s', Step lineCount s (.extracted t r) s' →
    (r = true ↔ ∃ L < lineCount, t ∈ ls L)

theorem task_handoff {lineCount : Nat} (hN : 0 < lineCount) {evs : List Event} {s : Pool}
    (hr : Reachable lineCount evs s) (t : Nat)
    (hone : s.enqueues.countP (fun c => c.task == t) ≤ 1) :
    ∃ ls, TaskSpec lineCount evs s ls t := by
  obtain ⟨ls, h, hi⟩ := hr.taskInv hN t
  have hle : s.enqueues.countP (Enqueue.pushed t) ≤ s.enqueues.countP (fun c => c.task == t) :=
    List.countP_mono_left fun c _ hc => by simp_all [Enqueue.pushed]
  have hone' : evs.countP (Event.pushes t) ≤ 1 := by rw [hi.pushed]; omega
  refine ⟨ls, h.represents, hone', fun c hc hct hcb => ?_, hi.leaves, by have := hi.leaves; omega,
    hi.poppedFrom, hi.pushedTo, hi.executes, hi.executedBy, fun _ _ => h.extracted_iff⟩
  have : 0 < s.enqueues.countP (Enqueue.pushed t) :=
    List.countP_pos_iff.mpr ⟨c, hc, by simp [Enqueue.pushed, hct, hcb]⟩
  rw [hi.pushed]
  omega

/-- Tasks 5, 6 and 7 enqueued on a pool of two lines, 5 and 7 on line 0 with 7 in front, and 6 on
line 1, the three calls returned; worker 1 pops 6 and calls its function; a call of `extract_task`
of 5, behind 7 on its line, then reaches its locked section. -/
theorem threeTasks_run : ∃ evs s, Reachable 2 evs s ∧ .pop 1 6 1 ∈ evs ∧ .execute 1 6 1 ∈ evs ∧
    s.enqueues.countP (fun c => c.task == 5) ≤ 1 ∧ s.enqueues.countP (fun c => c.task == 6) ≤ 1 ∧
    s.extracts[0]? = some ⟨5, .extract 0⟩ ∧ s.heap.tasksStack 0 = some 7 := by
  have r := Run.tail (Run.refl Pool.init : Run 2 Pool.init [] Pool.init)
    (Step.startEnqueue 5 rfl (by simp [Pool.init]) (by simp [Pool.init]))
  have r := Run.tail r (Step.enqueue (i := 0) (EnqueueStep.clearLinks rfl))
  have r := Run.tail r (Step.enqueue (i := 0) (EnqueueStep.fetchIndex rfl))
  have r := Run.tail r (Step.enqueue (i := 0) (EnqueueStep.probeHit rfl))
  have r := Run.tail r (Step.enqueue (i := 0) (EnqueueStep.increment rfl))
  have r := Run.tail r (Step.enqueue (i := 0) (EnqueueStep.notifyAdd rfl (by decide : 0 < 2)))
  have r := Run.tail r (Step.enqueue (i := 0) (EnqueueStep.notifyAdd rfl (by decide : 1 < 2)))
  have r := Run.tail r (Step.startEnqueue 6 rfl (by decide) (by decide))
  have r := Run.tail r (Step.enqueue (i := 1) (EnqueueStep.clearLinks rfl))
  have r := Run.tail r (Step.enqueue (i := 1) (EnqueueStep.fetchIndex rfl))
  have r := Run.tail r (Step.enqueue (i := 1) (EnqueueStep.probeHit rfl))
  have r := Run.tail r (Step.enqueue (i := 1) (EnqueueStep.increment rfl))
  have r := Run.tail r (Step.enqueue (i := 1) (EnqueueStep.notifyAdd rfl (by decide : 0 < 2)))
  have r := Run.tail r (Step.enqueue (i := 1) (EnqueueStep.notifyAdd rfl (by decide : 1 < 2)))
  have r := Run.tail r (Step.startEnqueue 7 rfl (by decide) (by decide))
  have r := Run.tail r (Step.enqueue (i := 2) (EnqueueStep.clearLinks rfl))
  have r := Run.tail r (Step.enqueue (i := 2) (EnqueueStep.fetchIndex rfl))
  have r := Run.tail r (Step.enqueue (i := 2) (EnqueueStep.probeHit rfl))
  have r := Run.tail r (Step.enqueue (i := 2) (EnqueueStep.increment rfl))
  have r := Run.tail r (Step.enqueue (i := 2) (EnqueueStep.notifyAdd rfl (by decide : 0 < 2)))
  have r := Run.tail r (Step.enqueue (i := 2) (EnqueueStep.notifyAdd rfl (by decide : 1 < 2)))
  have r := Run.tail r (Step.worker (w := 1) (by decide : 1 < 2) (WorkerStep.loop rfl))
  have r := Run.tail r (Step.worker (w := 1) (by decide : 1 < 2) (WorkerStep.checkTasks rfl))
  have r := Run.tail r
    (Step.worker (w := 1) (by decide : 1 < 2) (@WorkerStep.sweepHit _ _ _ _ _ true rfl rfl))
  have r := Run.tail r (Step.worker (w := 1) (by decide : 1 < 2) (WorkerStep.decrement rfl))
  have r := Run.tail r (Step.worker (w := 1) (by decide : 1 < 2) (WorkerStep.execute rfl))
  have r := Run.tail r (Step.startExtract 5)
  have r := Run.tail r (Step.extract (i := 0) (ExtractStep.readData rfl))
  exact ⟨_, _, r, by decide, by decide, by decide, by decide, rfl, rfl⟩

/-- Task 6 of `threeTasks_run`, pushed on line 1 and popped by worker 1, whose call of its
function has returned. -/
theorem task_handoff_after_execute : ∃ evs s, Reachable 2 evs s ∧ .pop 1 6 1 ∈ evs ∧
    .execute 1 6 1 ∈ evs ∧ s.enqueues.countP (fun c => c.task == 6) ≤ 1 ∧
    ∃ ls, TaskSpec 2 evs s ls 6 := by
  obtain ⟨evs, s, r, hpop, hex, -, h6, -⟩ := threeTasks_run
  exact ⟨evs, s, r, hpop, hex, h6, task_handoff (by decide) r 6 h6⟩

/-! ### The assertions of `work_line::extract_task` in the pool -/

section Extract

variable {lineCount : Nat} {evs : List Event} {s s' : Pool} {e : Event}

theorem countP_task_set {l : List Enqueue} {i t u : Nat} {pc : EnqueuePc}
    (hi : l[i]? = some ⟨u, pc⟩) (pc' : EnqueuePc) :
    (l.set i ⟨u, pc'⟩).countP (fun c => c.task == t) = l.countP (fun c => c.task == t) := by
  have := countP_set_add (fun c : Enqueue => c.task == t) (b := ⟨u, pc'⟩) hi
  simp only at this
  omega

/-- The calls of `enqueue` on a task only grow in number. -/
theorem Step.countP_task_le (hs : Step lineCount s e s') (t : Nat) :
    s.enqueues.countP (fun c => c.task == t) ≤ s'.enqueues.countP (fun c => c.task == t) := by
  cases hs with
  | worker _ hw => cases hw <;> exact le_rfl
  | enqueue he => cases he <;> exact (countP_task_set ‹_› _).ge
  | extract hx => cases hx <;> exact le_rfl
  | join hj => cases hj <;> exact le_rfl
  | startEnqueue u => simp [List.countP_append]
  | startExtract u => exact le_rfl

/-- A call of `thread_pool::extract_task` at its locked section on line `line` read that line from
the task's `worker_data_` in an earlier step that left the heap as it was. -/
theorem Step.extract_origin (hs : Step lineCount s e s') {j line : Nat} {x : Extract}
    (hx : s'.extracts[j]? = some x) (hpc : x.pc = .extract line) :
    s.extracts[j]? = some x ∨ (s'.heap = s.heap ∧ s.heap.workerData x.task = some line) := by
  cases hs with
  | extract hx' =>
    cases hx' with
    | readData hi =>
      rcases getElem?_set_eq_some hx with ⟨-, rfl⟩ | ⟨-, h1⟩
      · refine .inr ⟨rfl, ?_⟩
        revert hpc
        split <;> simp_all
      · exact .inl h1
    | extract hi =>
      rcases getElem?_set_eq_some hx with ⟨-, rfl⟩ | ⟨-, h1⟩
      · revert hpc; split <;> simp
      · exact .inl h1
    | decrement hi =>
      rcases getElem?_set_eq_some hx with ⟨-, rfl⟩ | ⟨-, h1⟩
      · simp at hpc
      · exact .inl h1
  | startExtract u =>
    rcases getElem?_concat_eq_some hx with ⟨-, rfl⟩ | ⟨-, h1⟩
    · simp at hpc
    · exact .inl h1
  | worker _ hw => cases hw <;> exact .inl hx
  | enqueue he => cases he <;> exact .inl hx
  | join hj => cases hj <;> exact .inl hx
  | startEnqueue => exact .inl hx

/-- A task with a line in its `worker_data_` was pushed by a call of `enqueue` now past its
push. -/
theorem Reachable.pushed_of_workerData (hN : 0 < lineCount) (hr : Reachable lineCount evs s)
    {t L : Nat} (hw : s.heap.workerData t = some L) :
    0 < s.enqueues.countP (Enqueue.pushed t) := by
  obtain ⟨ls, h, hi⟩ := hr.taskInv hN t
  rw [← hi.pushed]
  exact List.countP_pos_iff.mpr ⟨_, hi.pushedTo L (h.represents.owner t L hw),
    by simp [Event.pushes]⟩

/-- A call of `thread_pool::extract_task` at its locked section, on a task passed to `enqueue` at
most once: a call of `enqueue` pushed the task, and its `worker_data_` is null or the line the
call read. -/
def ExtractLineInv (s : Pool) : Prop :=
  ∀ (j : Nat) (x : Extract) (line : Nat), s.extracts[j]? = some x → x.pc = .extract line →
    s.enqueues.countP (fun c => c.task == x.task) ≤ 1 →
    0 < s.enqueues.countP (Enqueue.pushed x.task) ∧
      (s.heap.workerData x.task = none ∨ s.heap.workerData x.task = some line)

theorem ExtractLineInv.step (hN : 0 < lineCount) {ls ls' : Nat → List Nat}
    (h : PoolLines lineCount s ls) (h' : PoolLines lineCount s' ls') (hs : Step lineCount s e s')
    (hpush : ∀ t L, s.heap.workerData t = some L → 0 < s.enqueues.countP (Enqueue.pushed t))
    (hinv : ExtractLineInv s) : ExtractLineInv s' := by
  unfold ExtractLineInv
  intro j x line hx hpc hone
  have hp := hs.pushed_count x.task
  rcases hs.extract_origin hx hpc with hx0 | ⟨hheap, hw⟩
  · obtain ⟨hpos, hwd⟩ := hinv j x line hx0 hpc ((hs.countP_task_le x.task).trans hone)
    refine ⟨by omega, ?_⟩
    cases hw' : s'.heap.workerData x.task with
    | none => exact .inl rfl
    | some L =>
      refine .inr ?_
      rcases (h.linesChange hN hs h').mem (h'.represents.owner _ L hw') with hm | rfl
      · rw [h.represents.workerData_of_mem hm] at hwd
        simpa using hwd
      · have hle : s'.enqueues.countP (Enqueue.pushed x.task) ≤
            s'.enqueues.countP (fun c => c.task == x.task) :=
          List.countP_mono_left fun c _ hc => by simp_all [Enqueue.pushed]
        simp [Event.pushes] at hp
        omega
  · exact ⟨by have := hpush _ _ hw; omega, .inr (hheap ▸ hw)⟩

theorem Reachable.extractLineInv (hN : 0 < lineCount) (hr : Reachable lineCount evs s) :
    ExtractLineInv s := by
  induction hr with
  | refl => intro j x line hx; simp [Pool.init] at hx
  | tail hr hs ih =>
    obtain ⟨ls, h⟩ := Reachable.poolLines hN hr
    obtain ⟨ls', h'⟩ := h.step hN hs
    exact ih.step hN h h' hs fun t L hw => Reachable.pushed_of_workerData hN hr hw

end Extract

/-- When a call of `thread_pool::extract_task` runs its locked section on a task passed to
`enqueue` at most once, the assertions of `work_line::extract_task` hold: `check_list` and the
head's `prev_link_` before and after, `worker_data_` null or the line it was called on, and the
task's `prev_link_` pointing at it. -/
theorem extract_asserts {lineCount : Nat} (hN : 0 < lineCount) {evs : List Event} {s : Pool}
    (hr : Reachable lineCount evs s) {j line : Nat} {x : Extract} (hx : s.extracts[j]? = some x)
    (hpc : x.pc = .extract line) (hone : s.enqueues.countP (fun c => c.task == x.task) ≤ 1) :
    ExtractTaskAsserts s.heap line x.task := by
  obtain ⟨ls, h⟩ := hr.poolLines hN
  exact h.represents.extractTaskAsserts (hr.extractLineInv hN j x line hx hpc hone).2

/-- The call of `extract_task` of task 5 in `threeTasks_run`, at its locked section. -/
theorem extract_asserts_after_pop : ∃ evs s, Reachable 2 evs s ∧
    s.extracts[0]? = some ⟨5, .extract 0⟩ ∧ s.enqueues.countP (fun c => c.task == 5) ≤ 1 ∧
    s.heap.tasksStack 0 = some 7 ∧ ExtractTaskAsserts s.heap 0 5 := by
  obtain ⟨evs, s, r, -, -, h5, -, hx, h7⟩ := threeTasks_run
  exact ⟨evs, s, r, hx, h5, h7,
    extract_asserts (j := 0) (x := ⟨5, .extract 0⟩) (by decide : 0 < 2) r hx rfl h5⟩

end Concore2full.ThreadPool
