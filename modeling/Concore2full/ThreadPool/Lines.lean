import Concore2full.ThreadPool.Step
import Concore2full.WorkLine.Invariant
import Mathlib.Algebra.BigOperators.Group.Finset

/-! The work lines of a running pool. Every reachable state represents lists of tasks, one per line
(`WorkLine.Represents`), lines from `lineCount` on stay empty, and a call of `enqueue` that has not
pushed its task yet holds a task that is in no line and in no other call in progress. The steps that
touch the lines do to the lists what `WorkLine` proves of the line operations: a push puts the task
in front, a pop takes the head, an extraction erases the task. -/

namespace Concore2full.WorkLine.Represents

open Function

/-! ### The line operations of the pool on the abstract lists -/

variable {h : Heap} {ls : Nat → List Nat}

theorem workerData_eq_none_iff (r : Represents h ls) {u : Nat} :
    h.workerData u = none ↔ ∀ L, u ∉ ls L := by
  refine ⟨fun hu => r.not_mem hu, fun hu => ?_⟩
  cases hw : h.workerData u with
  | none => rfl
  | some L => exact absurd (r.owner u L hw) (hu L)

/-- A task that is in no line stays so across a change of the lists that adds no line to it. -/
theorem workerData_eq_none {h' : Heap} {ls' : Nat → List Nat} (r : Represents h ls)
    (r' : Represents h' ls') {u : Nat} (hsub : ∀ L, u ∈ ls' L → u ∈ ls L)
    (hu : h.workerData u = none) : h'.workerData u = none :=
  r'.workerData_eq_none_iff.mpr fun L hL => r.workerData_eq_none_iff.mp hu L (hsub L hL)

/-- `task->next_ = nullptr; task->prev_link_ = nullptr;` on a task in no line keeps every line. -/
theorem clearLinks (r : Represents h ls) {t : Nat} (ht : h.workerData t = none) :
    Represents ((h.write (.next t) none).setPrevLink t none) ls := by
  refine ⟨fun L => r.chain_of_agree (by simp) fun u hu => ?_, r.nodup, fun u L hu => ?_⟩
  · have hut : u ≠ t := fun e => r.not_mem ht L (e ▸ hu)
    simp [Heap.read_write, hut]
  · exact r.owner u L (by simpa using hu)

/-- A `try_pop` that returns a task took the head of the line's list. -/
theorem tryPop_some (r : Represents h ls) {line t : Nat} {acquired : Bool}
    (hpop : (tryPop h line acquired).1 = some t) :
    ∃ rest, ls line = t :: rest ∧
      Represents (tryPop h line acquired).2 (update ls line rest) := by
  cases acquired with
  | false => simp [tryPop] at hpop
  | true =>
    cases hl : ls line with
    | nil => simp [r.tryPop_none (.inr hl)] at hpop
    | cons t' rest =>
      have hp := r.popUnprotected hl
      rw [r.tryPop_cons hl, hp.1] at hpop
      rw [r.tryPop_cons hl]
      cases hpop
      exact ⟨rest, rfl, hp.2.1⟩

/-- A `try_pop` that returns no task changes nothing. -/
theorem tryPop_snd (r : Represents h ls) {line : Nat} {acquired : Bool}
    (hpop : (tryPop h line acquired).1 = none) : (tryPop h line acquired).2 = h := by
  cases acquired with
  | false => rfl
  | true =>
    cases hl : ls line with
    | nil => simp [r.tryPop_none (.inr hl)]
    | cons t rest => simp [r.tryPop_cons hl, (r.popUnprotected hl).1] at hpop

/-- `work_line::extract_task` of a task that is in line `L` erases it there, whichever line it is
called on. -/
theorem extract_some (r : Represents h ls) (line : Nat) {t L : Nat}
    (hw : h.workerData t = some L) :
    ∃ pre post, ls L = pre ++ t :: post ∧ (WorkLine.extractTask h line t).1 = true ∧
      Represents (WorkLine.extractTask h line t).2 (update ls L (pre ++ post)) := by
  obtain ⟨pre, post, hl⟩ := List.append_of_mem (r.owner t L hw)
  have he := r.extractTask line hl
  exact ⟨pre, post, hl, he.1, he.2.1⟩

theorem tasksStack_ne_none (r : Represents h ls) {L : Nat} (hl : ls L ≠ []) :
    h.tasksStack L ≠ none := fun hn => by
  have := r.tryPop_fst L
  simp only [tryPop, hn, Option.isSome_none, Bool.and_false] at this
  exact hl (List.head?_eq_none_iff.mp (by simpa using this.symm))

end Concore2full.WorkLine.Represents

namespace Concore2full.ThreadPool

open WorkLine Function

/-- The number of tasks in the lines below `lineCount`. -/
def queued (ls : Nat → List Nat) (lineCount : Nat) : Nat :=
  ∑ L in Finset.range lineCount, (ls L).length

theorem sum_range_update {α : Type} (g : α → Nat) (f : Nat → α) {n k : Nat} (hk : k < n)
    (a : α) : ∑ v in Finset.range n, g (update f k a v) + g (f k) =
      ∑ v in Finset.range n, g (f v) + g a := by
  have hmem : k ∈ Finset.range n := Finset.mem_range.mpr hk
  have hg : ∀ v, g (update f k a v) = update (fun v => g (f v)) k (g a) v :=
    fun v => by rcases eq_or_ne v k with rfl | hv <;> simp [*]
  simp only [hg]
  rw [Finset.sum_update_of_mem hmem, Finset.sum_eq_add_sum_diff_singleton hmem]
  omega

theorem sum_range_update_of_eq {α : Type} (g : α → Nat) (f : Nat → α) (n k : Nat) {a : α}
    (ha : g a = g (f k)) :
    ∑ v in Finset.range n, g (update f k a v) = ∑ v in Finset.range n, g (f v) :=
  Finset.sum_congr rfl fun v _ => by rcases eq_or_ne v k with rfl | hv <;> simp [*]

theorem queued_update (ls : Nat → List Nat) {lineCount L : Nat} (hL : L < lineCount)
    (l : List Nat) :
    queued (update ls L l) lineCount + (ls L).length = queued ls lineCount + l.length :=
  sum_range_update List.length ls hL l

/-! ### Calls in progress -/

theorem getElem?_set_eq_some {α : Type} {l : List α} {i j : Nat} {a c : α}
    (h : (l.set i a)[j]? = some c) : (j = i ∧ c = a) ∨ (j ≠ i ∧ l[j]? = some c) := by
  rw [List.getElem?_set] at h
  split_ifs at h with h1
  · exact .inl ⟨h1.symm, (Option.some.inj h).symm⟩
  · exact .inr ⟨Ne.symm h1, h⟩

theorem getElem?_concat_eq_some {α : Type} {l : List α} {j : Nat} {a c : α}
    (h : (l ++ [a])[j]? = some c) :
    (j = l.length ∧ c = a) ∨ (j < l.length ∧ l[j]? = some c) := by
  rw [List.getElem?_append] at h
  split_ifs at h with h1
  · exact .inr ⟨h1, h⟩
  · have hj : j - l.length < 1 := by
      by_contra hc; rw [List.getElem?_eq_none (by simp; omega)] at h; cases h
    have hj' : j = l.length := by omega
    subst hj'
    simp at h
    exact .inl ⟨rfl, h.symm⟩

/-- A call of `enqueue` that has not pushed its task yet. -/
def EnqueuePc.beforePush : EnqueuePc → Bool
  | .clearLinks | .fetchIndex | .probe _ _ | .forcePush _ => true
  | _ => false

/-- The invariant of the lines of a pool of `lineCount` lines holding the lists `ls`. -/
structure PoolLines (lineCount : Nat) (s : Pool) (ls : Nat → List Nat) : Prop where
  represents : Represents s.heap ls
  beyond : ∀ L, lineCount ≤ L → ls L = []
  /-- a call of `enqueue` that has not pushed holds a task in no line -/
  unpushed : ∀ (j : Nat) (c : Enqueue), s.enqueues[j]? = some c → c.pc.beforePush →
    s.heap.workerData c.task = none
  /-- no two calls of `enqueue` in progress hold one task -/
  single : ∀ (j j' : Nat) (c c' : Enqueue), s.enqueues[j]? = some c →
    s.enqueues[j']? = some c' → c.pc ≠ .done → c'.pc ≠ .done → c.task = c'.task → j = j'

/-- Whether an event changes the lines: a push, a pop or a successful extraction. -/
def Event.changesLines : Event → Bool
  | .push _ _ | .pop _ _ _ => true
  | .extracted _ r => r
  | _ => false

/-- What one step does to the lists `ls` of the lines, with the event that goes with it. -/
inductive LinesChange (lineCount : Nat) (ls : Nat → List Nat) :
    Event → (Nat → List Nat) → Prop
  | keep {e : Event} (he : e.changesLines = false) : LinesChange lineCount ls e ls
  | push {t L : Nat} (hL : L < lineCount) (ht : ∀ L', t ∉ ls L') :
      LinesChange lineCount ls (.push t L) (update ls L (t :: ls L))
  | pop {w t L : Nat} {rest : List Nat} (hL : L < lineCount) (hl : ls L = t :: rest) :
      LinesChange lineCount ls (.pop w t L) (update ls L rest)
  | extract {t L : Nat} {pre post : List Nat} (hL : L < lineCount) (hl : ls L = pre ++ t :: post) :
      LinesChange lineCount ls (.extracted t true) (update ls L (pre ++ post))

namespace PoolLines

variable {lineCount : Nat} {s : Pool} {ls : Nat → List Nat}

theorem init : PoolLines lineCount Pool.init fun _ => [] :=
  ⟨represents_empty, fun _ _ => rfl, fun _ _ h => by simp [Pool.init] at h,
    fun _ _ _ _ h => by simp [Pool.init] at h⟩

/-- A step that changes neither the lines nor the calls of `enqueue` keeps the invariant. -/
theorem frame (h : PoolLines lineCount s ls) {s' : Pool} (hheap : s'.heap = s.heap)
    (henq : s'.enqueues = s.enqueues) : PoolLines lineCount s' ls :=
  ⟨hheap ▸ h.represents, h.beyond, hheap ▸ henq ▸ h.unpushed, henq ▸ h.single⟩

/-- A call of `enqueue` moves forward: it is before its push only if it was, and in progress only
if it was. -/
theorem advance (h : PoolLines lineCount s ls) {s' : Pool} {i t : Nat} {pc pc' : EnqueuePc}
    (hheap : s'.heap = s.heap) (henq : s'.enqueues = s.enqueues.set i ⟨t, pc'⟩)
    (hi : s.enqueues[i]? = some ⟨t, pc⟩) (hb : pc'.beforePush → pc.beforePush)
    (hd : pc' ≠ .done → pc ≠ .done) : PoolLines lineCount s' ls := by
  refine ⟨hheap ▸ h.represents, h.beyond, fun j c hc hcb => ?_,
    fun j j' c c' hc hc' hcd hcd' ht => ?_⟩ <;> rw [henq] at hc
  · rcases getElem?_set_eq_some hc with ⟨rfl, rfl⟩ | ⟨-, h1⟩
    · exact hheap ▸ h.unpushed j ⟨t, pc⟩ hi (hb hcb)
    · exact hheap ▸ h.unpushed j c h1 hcb
  · rw [henq] at hc'
    rcases getElem?_set_eq_some hc with ⟨rfl, rfl⟩ | ⟨-, h1⟩ <;>
      rcases getElem?_set_eq_some hc' with ⟨rfl, rfl⟩ | ⟨-, h2⟩
    · rfl
    · exact h.single _ _ ⟨t, pc⟩ _ hi h2 (hd hcd) hcd' ht
    · exact h.single _ _ _ ⟨t, pc⟩ h1 hi hcd (hd hcd') ht
    · exact h.single _ _ _ _ h1 h2 hcd hcd' ht

/-- A change of the heap that only takes tasks off lines keeps the invariant. -/
theorem shrink (h : PoolLines lineCount s ls) {h' : Heap} {ls' : Nat → List Nat}
    (r : Represents h' ls') (hsub : ∀ L u, u ∈ ls' L → u ∈ ls L) :
    PoolLines lineCount { s with heap := h' } ls' :=
  ⟨r, fun L hL => List.eq_nil_iff_forall_not_mem.mpr fun u hu => by
      simpa [h.beyond L hL] using hsub L u hu,
    fun j c hc hb => h.represents.workerData_eq_none r (hsub · _) (h.unpushed j c hc hb),
    h.single⟩

/-- The push of the `i`-th call of `enqueue` on a line below `lineCount`. -/
theorem push (h : PoolLines lineCount s ls) {s' : Pool} {i t L : Nat} {pc pc' : EnqueuePc}
    (hheap : s'.heap = pushUnprotected s.heap L t)
    (henq : s'.enqueues = s.enqueues.set i ⟨t, pc'⟩)
    (hi : s.enqueues[i]? = some ⟨t, pc⟩) (hb : pc.beforePush) (hb' : pc'.beforePush = false)
    (hL : L < lineCount) : PoolLines lineCount s' (update ls L (t :: ls L)) := by
  have hd0 : pc ≠ .done := by rintro rfl; cases hb
  refine ⟨hheap ▸ h.represents.pushUnprotected (h.unpushed i _ hi hb), fun L' hL' => ?_,
    fun j c hc hcb => ?_, fun j j' c c' hc hc' hcd hcd' ht => ?_⟩
  · rw [update_noteq (by omega), h.beyond L' hL']
  · rw [henq] at hc
    rcases getElem?_set_eq_some hc with ⟨rfl, rfl⟩ | ⟨hj, h1⟩
    · simp [hb'] at hcb
    · have hct : c.task ≠ t := fun e =>
        hj (h.single _ _ _ ⟨t, pc⟩ h1 hi (by rintro h'; simp [h', EnqueuePc.beforePush] at hcb)
          hd0 e)
      simpa [hheap, hct] using h.unpushed j c h1 hcb
  · rw [henq] at hc hc'
    rcases getElem?_set_eq_some hc with ⟨rfl, rfl⟩ | ⟨-, h1⟩ <;>
      rcases getElem?_set_eq_some hc' with ⟨rfl, rfl⟩ | ⟨-, h2⟩
    · rfl
    · exact h.single _ _ ⟨t, pc⟩ _ hi h2 hd0 hcd' ht
    · exact h.single _ _ _ ⟨t, pc⟩ h1 hi hcd hd0 ht
    · exact h.single _ _ _ _ h1 h2 hcd hcd' ht

/-- A new call of `enqueue`, on a task in no line and in no other call in progress. -/
theorem startEnqueue (h : PoolLines lineCount s ls) {t : Nat} (ht : s.heap.workerData t = none)
    (hfree : ∀ c ∈ s.enqueues, c.task = t → c.pc = .done) :
    PoolLines lineCount { s with enqueues := s.enqueues ++ [⟨t, .clearLinks⟩] } ls := by
  refine ⟨h.represents, h.beyond, fun j c hc hb => ?_, fun j j' c c' hc hc' hd hd' hct => ?_⟩
  · rcases getElem?_concat_eq_some hc with ⟨-, rfl⟩ | ⟨-, h1⟩
    · exact ht
    · exact h.unpushed j c h1 hb
  · rcases getElem?_concat_eq_some hc with ⟨rfl, rfl⟩ | ⟨-, h1⟩ <;>
      rcases getElem?_concat_eq_some hc' with ⟨rfl, rfl⟩ | ⟨-, h2⟩
    · rfl
    · exact absurd (hfree c' (List.getElem?_mem h2) hct.symm) hd'
    · exact absurd (hfree c (List.getElem?_mem h1) hct) hd
    · exact h.single _ _ _ _ h1 h2 hd hd' hct

theorem mem_update_of_sub {ls : Nat → List Nat} {L : Nat} {l : List Nat}
    (hl : ∀ u ∈ l, u ∈ ls L) {L' u : Nat} (hu : u ∈ update ls L l L') : u ∈ ls L' := by
  rcases eq_or_ne L' L with rfl | hL
  · exact hl u (by simpa using hu)
  · simpa [hL] using hu

theorem lt_of_mem (h : PoolLines lineCount s ls) {L u : Nat} (hu : u ∈ ls L) : L < lineCount := by
  by_contra hL
  rw [h.beyond L (by omega)] at hu
  cases hu

/-- Every step keeps the invariant, with the lists its line operation leaves. -/
theorem step_change (hN : 0 < lineCount) (h : PoolLines lineCount s ls) {e : Event} {s' : Pool}
    (hs : Step lineCount s e s') :
    ∃ ls', PoolLines lineCount s' ls' ∧ LinesChange lineCount ls e ls' := by
  cases hs with
  | worker _ hw =>
    cases hw with
    | sweepHit _ hpop =>
      obtain ⟨rest, hl, r⟩ := h.represents.tryPop_some hpop
      exact ⟨_, (h.shrink r fun L u => mem_update_of_sub fun u hu => by simp [hl, hu]).frame
        rfl rfl, .pop (h.lt_of_mem (hl ▸ List.mem_cons_self _ _)) hl⟩
    | _ => exact ⟨ls, h.frame rfl rfl, .keep rfl⟩
  | enqueue he =>
    cases he with
    | clearLinks he =>
      have hc := h.shrink (h.represents.clearLinks (h.unpushed _ _ he rfl)) fun _ _ => id
      exact ⟨ls, hc.advance rfl rfl he (fun _ => rfl) (by simp), .keep rfl⟩
    | probeHit he =>
      exact ⟨_, h.push rfl rfl he rfl rfl (Nat.mod_lt _ hN),
        .push (Nat.mod_lt _ hN) (h.represents.workerData_eq_none_iff.mp (h.unpushed _ _ he rfl))⟩
    | forcePush he =>
      exact ⟨_, h.push rfl rfl he rfl rfl (Nat.mod_lt _ hN),
        .push (Nat.mod_lt _ hN) (h.represents.workerData_eq_none_iff.mp (h.unpushed _ _ he rfl))⟩
    | increment he =>
      exact ⟨ls, h.advance rfl rfl he (by split <;> simp [EnqueuePc.beforePush]) (by simp),
        .keep rfl⟩
    | notifyAdd he =>
      exact ⟨ls, h.advance rfl rfl he (by split_ifs <;> simp [EnqueuePc.beforePush]) (by simp),
        .keep rfl⟩
    | _ he =>
      exact ⟨ls, h.advance rfl rfl he (by simp [EnqueuePc.beforePush]) (by simp), .keep rfl⟩
  | extract hx =>
    cases hx with
    | @extract t line _ =>
      cases hw : s.heap.workerData t with
      | none =>
        rw [extractTask_of_workerData_none hw]
        exact ⟨ls, h.frame rfl rfl, .keep rfl⟩
      | some L =>
        obtain ⟨pre, post, hl, hres, r⟩ := h.represents.extract_some line hw
        rw [hres]
        exact ⟨_, (h.shrink r fun L u => mem_update_of_sub (by simp [hl]; tauto)).frame rfl rfl,
          .extract (h.lt_of_mem (hl ▸ List.mem_append_right _ (List.mem_cons_self _ _))) hl⟩
    | _ => exact ⟨ls, h.frame rfl rfl, .keep rfl⟩
  | join hj => cases hj <;> exact ⟨ls, h.frame rfl rfl, .keep rfl⟩
  | startEnqueue t ht hfree => exact ⟨ls, h.startEnqueue ht hfree, .keep rfl⟩
  | startExtract _ => exact ⟨ls, h.frame rfl rfl, .keep rfl⟩

theorem step (hN : 0 < lineCount) (h : PoolLines lineCount s ls) {e : Event} {s' : Pool}
    (hs : Step lineCount s e s') : ∃ ls', PoolLines lineCount s' ls' :=
  (h.step_change hN hs).imp fun _ h' => h'.1

/-- The lists of the lines after a step are those its `LinesChange` gives. -/
theorem linesChange (hN : 0 < lineCount) (h : PoolLines lineCount s ls) {e : Event} {s' : Pool}
    {ls' : Nat → List Nat} (hs : Step lineCount s e s') (h' : PoolLines lineCount s' ls') :
    LinesChange lineCount ls e ls' := by
  obtain ⟨ls'', h'', hc⟩ := h.step_change hN hs
  rwa [h'.represents.unique h''.represents]

end PoolLines

/-- Every reachable state of a pool of at least one line holds lists of tasks that satisfy the
invariant of the lines. -/
theorem Reachable.poolLines {lineCount : Nat} (hN : 0 < lineCount) {evs : List Event} {s : Pool}
    (hr : Reachable lineCount evs s) : ∃ ls, PoolLines lineCount s ls := by
  induction hr with
  | refl => exact ⟨_, PoolLines.init⟩
  | tail _ hs ih => obtain ⟨ls, h⟩ := ih; exact h.step hN hs

/-- The work lines of a reachable pool, for the lists `ls` they hold: the work-line invariant with
the assertions of `check_list` and `work_line::extract_task`, no task on the lines from `lineCount`
on, and every next step changes the lists only by a push of a task that is in no line, a pop of a
line's head, or the erasure of a task by a successful extraction. -/
structure PoolLinesSpec (lineCount : Nat) (s : Pool) (ls : Nat → List Nat) : Prop where
  invariant : LinesInvariant s.heap ls
  beyond : ∀ L, lineCount ≤ L → ls L = []
  step : ∀ e s', Step lineCount s e s' →
    ∃ ls', Represents s'.heap ls' ∧ LinesChange lineCount ls e ls'

theorem pool_lines {lineCount : Nat} (hN : 0 < lineCount) {evs : List Event} {s : Pool}
    (hr : Reachable lineCount evs s) : ∃ ls, PoolLinesSpec lineCount s ls := by
  obtain ⟨ls, h⟩ := hr.poolLines hN
  refine ⟨ls, h.represents.linesInvariant, h.beyond, fun e s' hs => ?_⟩
  obtain ⟨ls', h', hc⟩ := h.step_change hN hs
  exact ⟨ls', h'.represents, hc⟩

/-- Tasks 5 and 6 enqueued on lines 0 and 1 of a pool of two lines; worker 1 pops 6, and a call of
`extract_task` erases 5: the lines are empty again, each step having changed them as
`LinesChange` says. -/
theorem pool_lines_after_extract : ∃ evs s, Reachable 2 evs s ∧ (s.workers 1).pc = .popped 6 1 ∧
    s.extracts[0]? = some ⟨5, .decrement⟩ ∧ s.heap.tasksStack 0 = none ∧
    ∃ ls, PoolLinesSpec 2 s ls := by
  have r := Run.tail (Run.refl Pool.init : Run 2 Pool.init [] Pool.init)
    (Step.startEnqueue 5 rfl (by simp [Pool.init]) (by simp [Pool.init]))
  have r := Run.tail r (Step.enqueue (i := 0) (EnqueueStep.clearLinks rfl))
  have r := Run.tail r (Step.enqueue (i := 0) (EnqueueStep.fetchIndex rfl))
  have r := Run.tail r (Step.enqueue (i := 0) (EnqueueStep.probeHit rfl))
  have r := Run.tail r (Step.enqueue (i := 0) (EnqueueStep.increment rfl))
  have r := Run.tail r (Step.startEnqueue 6 rfl (by decide) (by decide))
  have r := Run.tail r (Step.enqueue (i := 1) (EnqueueStep.clearLinks rfl))
  have r := Run.tail r (Step.enqueue (i := 1) (EnqueueStep.fetchIndex rfl))
  have r := Run.tail r (Step.enqueue (i := 1) (EnqueueStep.probeHit rfl))
  have r := Run.tail r (Step.enqueue (i := 1) (EnqueueStep.increment rfl))
  have r := Run.tail r (Step.worker (w := 1) (by decide : 1 < 2) (WorkerStep.loop rfl))
  have r := Run.tail r (Step.worker (w := 1) (by decide : 1 < 2) (WorkerStep.checkTasks rfl))
  have r := Run.tail r
    (Step.worker (w := 1) (by decide : 1 < 2) (@WorkerStep.sweepHit _ _ _ _ _ true rfl rfl))
  have r := Run.tail r (Step.startExtract 5)
  have r := Run.tail r (Step.extract (i := 0) (ExtractStep.readData rfl))
  have r := Run.tail r (Step.extract (i := 0) (ExtractStep.extract rfl))
  exact ⟨_, _, r, rfl, rfl, rfl, pool_lines (by decide) r⟩

end Concore2full.ThreadPool
