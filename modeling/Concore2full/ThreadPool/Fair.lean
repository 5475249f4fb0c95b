import Concore2full.ThreadPool.Drain

/-! The pool drains under every fair schedule of its workers. A schedule is an infinite sequence of
steps of the workers alone, with no new call of `enqueue`, `extract_task` or `join` and no worker
waking before its token is notified; it stands still only when no worker can step. It is fair when
a worker that can step from some time on does step, and, from some time on, every `try_pop` on a
line that holds a task gets the line's lock (`std::mutex::try_lock` may fail spuriously, so this is
an assumption on the schedule). From a state reached by a run on which no counter wraps around,
where no call is in progress and `stop_requested_` is clear, such a schedule reaches a state with
every line empty, no task held and `num_tasks_` at 0, and stays there. The proof is by a rank:
every queued task, every task held, and every worker not parked on an un-notified token weighs in
it; a pop, a decrement of `num_tasks_`, a call of a task function and a worker that parks lower it,
and every other step leaves it as it is.
While some task is queued or held, fairness forces a step that lowers it. -/

namespace Concore2full.ThreadPool

open WorkLine Function

/-- Weak fairness at work. Let a thread run at some time after every time from which it is
ready at every time (`hfair`). Let `Inv` hold at time `n`, keep the thread ready, and last from
each time to the next unless `G` happens then; let `f` never rise meanwhile and fall at each time
the thread runs. Then `G` happens. -/
theorem eventually_of_fair {ready runs : Nat → Prop}
    (hfair : ∀ n, (∀ m, n ≤ m → ready m) → ∃ m, n ≤ m ∧ runs m) (Inv G : Nat → Prop)
    (f : Nat → Nat) {n : Nat} (hn : Inv n) (hready : ∀ m, Inv m → ready m)
    (hstep : ∀ m, n ≤ m → Inv m → G (m + 1) ∨
      (Inv (m + 1) ∧ f (m + 1) ≤ f m ∧ (runs m → f (m + 1) < f m))) :
    ∃ m, n < m ∧ G m := by
  by_contra hG
  push_neg at hG
  have hnext : ∀ m, n ≤ m → Inv m →
      Inv (m + 1) ∧ f (m + 1) ≤ f m ∧ (runs m → f (m + 1) < f m) := fun m hm hi =>
    (hstep m hm hi).resolve_left (hG _ (by omega))
  have hinv : ∀ m, n ≤ m → Inv m := fun m hm =>
    Nat.le_induction hn (fun k hk ih => (hnext k hk ih).1) m hm
  have hmono : ∀ m, n ≤ m → ∀ k, m ≤ k → f k ≤ f m := fun m hm k hk =>
    Nat.le_induction le_rfl (fun j hj ih => (hnext j (by omega) (hinv j (by omega))).2.1.trans ih)
      k hk
  have hdesc : ∀ d m, n ≤ m → f m < d → False := by
    intro d
    induction d with
    | zero => intro m _ h; omega
    | succ d ih =>
      intro m hm hd
      obtain ⟨m', hm', hw⟩ := hfair m fun k hk => hready k (hinv k (by omega))
      have hlt := (hnext m' (by omega) (hinv m' (by omega))).2.2 hw
      exact ih (m' + 1) (by omega) (by have := hmono m hm m' hm'; omega)
  exact hdesc (f n + 1) n le_rfl (by omega)

/-- A worker that can take a step other than a spurious wake-up: it is neither parked on an
un-notified token nor out of `thread_main`. -/
def Worker.Ready (W : Worker) : Prop := ¬ W.Parked ∧ W.pc ≠ .exited

instance (W : Worker) : Decidable W.Ready := inferInstanceAs (Decidable (_ ∧ _))

/-- An infinite schedule of the workers of a pool of `lineCount` lines, with no call of `enqueue`,
`extract_task` or `join`: at each time `n` worker `worker n`, not parked on an un-notified token,
takes the step labelled `event n`; or, when no worker is ready, nothing happens. -/
structure Schedule (lineCount : Nat) where
  state : Nat → Pool
  worker : Nat → Nat
  event : Nat → Event
  worker_lt : ∀ n, worker n < lineCount
  next : ∀ n, (¬ ((state n).workers (worker n)).Parked ∧
      WorkerStep lineCount (state n) (worker n) (event n) (state (n + 1))) ∨
    ((∀ w < lineCount, ¬ ((state n).workers w).Ready) ∧ event n = .silent ∧
      state (n + 1) = state n)

namespace Schedule

variable {lineCount : Nat} (sch : Schedule lineCount)

/-- Weak fairness to worker `w`: a worker ready at every time from some time on steps at some time
after it. -/
def Fair (w : Nat) : Prop :=
  ∀ n, (∀ m, n ≤ m → ((sch.state m).workers w).Ready) →
    ∃ m, n ≤ m ∧ sch.worker m = w

/-- From time `n₀` on, every `try_pop` of the schedule on a line that holds a task gets the line's
lock, and so pops. -/
def PopsLock (n₀ : Nat) : Prop :=
  ∀ n, n₀ ≤ n → ∀ i, ((sch.state n).workers (sch.worker n)).pc = .sweep i →
    (sch.state n).heap.tasksStack
      (((sch.state n).workers (sch.worker n)).sweepLine lineCount i) ≠ none →
    ∃ t, sch.event n =
      .pop (sch.worker n) t (((sch.state n).workers (sch.worker n)).sweepLine lineCount i)

variable {sch}

/-- A worker other than the one that steps keeps its state. -/
theorem workers_eq {n w : Nat} (hw : sch.worker n ≠ w) :
    (sch.state (n + 1)).workers w = (sch.state n).workers w := by
  rcases sch.next n with ⟨-, h⟩ | ⟨-, -, h⟩
  · exact h.workers_ne (Ne.symm hw)
  · rw [h]

/-- A ready worker scheduled at time `n` takes a step of its own then. -/
theorem step_of_ready {n w : Nat} (hr : ((sch.state n).workers w).Ready) (hw : sch.worker n = w) :
    ¬ ((sch.state n).workers w).Parked ∧
      WorkerStep lineCount (sch.state n) w (sch.event n) (sch.state (n + 1)) := by
  subst hw
  rcases sch.next n with h | ⟨hno, -⟩
  · exact h
  · exact absurd hr (hno _ (sch.worker_lt n))

/-- Every state of a schedule from a calm state is calm. -/
theorem calm (hN : 0 < lineCount) (hc : Calm lineCount (sch.state 0)) (n : Nat) :
    Calm lineCount (sch.state n) := by
  induction n with
  | zero => exact hc
  | succ n ih =>
    rcases sch.next n with ⟨-, h⟩ | ⟨-, -, h⟩
    · exact ih.step hN (sch.worker_lt n) h
    · rwa [h]

end Schedule

/-! ### The rank -/

/-- What a worker owes on the task it holds: the decrement of `num_tasks_` and the call of the
task function after its pop, the call alone after the decrement. -/
def WorkerPc.owed : WorkerPc → Nat
  | .popped _ _ => 2
  | .execute _ _ => 1
  | _ => 0

/-- A worker's part of the rank: what it owes, above whether it is awake. -/
def Worker.cost (lineCount : Nat) (W : Worker) : Nat :=
  W.pc.owed * (lineCount + 1) + if W.Parked then 0 else 1

/-- The rank of a state whose lines hold `ls`: three owed units for each queued task, and the
parts of the workers. -/
def rank (lineCount : Nat) (s : Pool) (ls : Nat → List Nat) : Nat :=
  3 * (lineCount + 1) * queued ls lineCount +
    ∑ w in Finset.range lineCount, (s.workers w).cost lineCount

theorem WorkerPc.holds_eq_none {pc : WorkerPc} : pc.holds = none ↔ pc.owed = 0 := by
  cases pc <;> simp [WorkerPc.holds, WorkerPc.owed]

section Rank

variable {lineCount : Nat} {s s' : Pool} {v : Nat} {e : Event}

/-- A step of worker `v` changes the rank by what it does to the lines and to `v`'s part. -/
theorem WorkerStep.rank_add (hv : v < lineCount) (h : WorkerStep lineCount s v e s')
    (ls ls' : Nat → List Nat) :
    rank lineCount s' ls' + (s.workers v).cost lineCount +
        3 * (lineCount + 1) * queued ls lineCount =
      rank lineCount s ls + (s'.workers v).cost lineCount +
        3 * (lineCount + 1) * queued ls' lineCount := by
  have hw : s'.workers = update s.workers v (s'.workers v) := funext fun u => by
    rcases eq_or_ne u v with rfl | hu
    · simp
    · rw [update_noteq hu, h.workers_ne hu]
  have := sum_range_update (Worker.cost lineCount) s.workers hv (s'.workers v)
  rw [← hw] at this
  simp only [rank]
  omega

/-- A step of a worker lowers the rank, or keeps the lines, `num_tasks_`, what the worker owes,
and the worker awake. The steps that lower it are a pop, a decrement of `num_tasks_`, a call of a
task function, and a worker that parks. -/
theorem WorkerStep.rank_lt_or_neutral {ls ls' : Nat → List Nat} (hv : v < lineCount)
    (h : WorkerStep lineCount s v e s') (hc : LinesChange lineCount ls e ls') :
    rank lineCount s' ls' < rank lineCount s ls ∨
      (s'.heap = s.heap ∧ ls' = ls ∧ s'.numTasks = s.numTasks ∧
        (s'.workers v).pc.owed = (s.workers v).pc.owed ∧ ¬ (s'.workers v).Parked) := by
  have hr := h.rank_add hv ls ls'
  cases h with
  | @sweepHit i t _ hpc hpop =>
    cases hc with
    | keep he => simp [Event.changesLines] at he
    | @pop _ _ _ rest hL hl =>
      have hq := queued_update ls hL rest
      rw [hl, List.length_cons] at hq
      rw [show queued ls lineCount = queued (update ls ((s.workers v).sweepLine lineCount i) rest)
        lineCount + 1 by omega, Nat.mul_succ] at hr
      simp [Worker.cost, WorkerPc.owed, Worker.Parked, hpc] at hr ⊢
      omega
  | decrement hpc | execute hpc =>
    cases hc
    simp [Worker.cost, WorkerPc.owed, Worker.Parked, hpc] at hr ⊢
    omega
  | checkStop hpc =>
    cases hc
    by_cases hk : ({ s.workers v with pc := if s.stopRequested then .invalidate else .parked } :
        Worker).Parked
    · have hk' : (s.workers v).notified = false ∧ s.stopRequested = false := by
        revert hk
        split <;> simp_all [Worker.Parked]
      simp [Worker.cost, WorkerPc.owed, Worker.Parked, hpc, hk'] at hr ⊢
      omega
    · exact .inr ⟨rfl, rfl, rfl, by split <;> simp [hpc, WorkerPc.owed], by simpa using hk⟩
  | _ =>
    cases hc
    refine .inr ⟨rfl, rfl, rfl, ?_, ?_⟩ <;> (try split) <;>
      simp [*, WorkerPc.owed, Worker.Parked]

/-- One step of a worker not parked on an un-notified token lowers the rank, or is neutral: it
keeps the rank, the lines, `num_tasks_`, what the worker owes, and the worker awake. -/
theorem WorkerStep.rank_cases {ls ls' : Nat → List Nat} (hv : v < lineCount)
    (hp : ¬ (s.workers v).Parked) (h : WorkerStep lineCount s v e s')
    (hc : LinesChange lineCount ls e ls') :
    rank lineCount s' ls' < rank lineCount s ls ∨
      (rank lineCount s' ls' = rank lineCount s ls ∧ s'.heap = s.heap ∧ ls' = ls ∧
        s'.numTasks = s.numTasks ∧ (s'.workers v).pc.owed = (s.workers v).pc.owed ∧
        ¬ (s'.workers v).Parked) := by
  rcases h.rank_lt_or_neutral hv hc with hlt | ⟨hh, hls, hn, ho, hp'⟩
  · exact .inl hlt
  · subst hls
    have hr := h.rank_add hv ls' ls'
    simp only [Worker.cost, ho, hp, hp', if_false] at hr
    exact .inr ⟨by omega, hh, rfl, hn, ho, hp'⟩

end Rank

/-! ### The distance of an awake worker to its next pop -/

/-- The tries a sweep that tries line `line i` at its `i`-th try has left from its `i`-th, within
`fuel` tries, until it meets a line of `ls` that holds a task, that one included; `none` if it meets
none. -/
def triesToTask (ls : Nat → List Nat) (line : Nat → Nat) : Nat → Nat → Option Nat
  | 0, _ => none
  | fuel + 1, i =>
    if ls (line i) = [] then (triesToTask ls line fuel (i + 1)).map (· + 1) else some 1

/-- The steps worker `W` has left before it pops a task, while the lines hold `ls` and do not
change, `num_tasks_` is not 0, `stop_requested_` is clear and every `try_pop` on a line that holds a
task gets its lock: in its sweep, its tries to the first line that holds a task, or its misses to
the end of the sweep and then its loop again; elsewhere on its way to the sweep, its steps to the
sweep and a whole sweep. -/
def Worker.distance (lineCount : Nat) (ls : Nat → List Nat) (W : Worker) : Nat :=
  match W.pc with
  | .sweep i =>
    match triesToTask ls (W.sweepLine lineCount) (2 * lineCount - i) i with
    | some k => k
    | none => 2 * lineCount - i + (WorkerPc.loop.toSweep + 2 * lineCount + 1)
  | pc => pc.toSweep + 2 * lineCount + 1

section Distance

variable {ls : Nat → List Nat} {line : Nat → Nat}

theorem triesToTask_le : ∀ {fuel i k : Nat}, triesToTask ls line fuel i = some k → k ≤ fuel
  | 0, _, _, h => by cases h
  | fuel + 1, i, k, h => by
    simp only [triesToTask] at h
    split at h
    · obtain ⟨k', hk', rfl⟩ := Option.map_eq_some'.mp h
      have := triesToTask_le hk'
      omega
    · cases h
      omega

theorem triesToTask_eq_none : ∀ {fuel i : Nat},
    triesToTask ls line fuel i = none ↔ ∀ j < fuel, ls (line (i + j)) = []
  | 0, _ => by simp [triesToTask]
  | fuel + 1, i => by
    simp only [triesToTask]
    split
    · rw [Option.map_eq_none', triesToTask_eq_none]
      constructor
      · intro h j hj
        rcases j with _ | j
        · assumption
        · rw [show i + (j + 1) = i + 1 + j by omega]
          exact h j (by omega)
      · intro h j hj
        rw [show i + 1 + j = i + (j + 1) by omega]
        exact h (j + 1) (by omega)
    · simp only [reduceCtorEq, false_iff, not_forall]
      exact ⟨0, by omega, by simpa⟩

/-- A whole sweep from a hint that is not negative meets every line. -/
theorem triesToTask_sweep {W : Worker} {lineCount L : Nat} (h0 : 0 ≤ W.hint) (hL : L < lineCount)
    (hl : ls L ≠ []) : triesToTask ls (W.sweepLine lineCount) (2 * lineCount) 0 ≠ none := by
  rw [Ne, triesToTask_eq_none]
  intro h
  have hmem : L ∈ (List.range (2 * lineCount)).map (W.sweepLine lineCount) := by
    rw [Worker.sweep_lines h0]
    exact List.mem_append_left _ (mem_cyclic.mpr hL)
  obtain ⟨j, hj, rfl⟩ := List.mem_map.mp hmem
  exact hl (by simpa using h j (List.mem_range.mp hj))

theorem Worker.distance_of_toSweep {W : Worker} {lineCount : Nat} (h : 0 < W.pc.toSweep) :
    W.distance lineCount ls = W.pc.toSweep + 2 * lineCount + 1 := by
  unfold Worker.distance
  split
  · simp_all [WorkerPc.toSweep]
  · rfl

/-- A miss of a sweep on an empty line takes the worker one step closer. -/
theorem Worker.distance_miss {W : Worker} {lineCount i : Nat} (hpc : W.pc = .sweep i)
    (hi : i < 2 * lineCount) (hempty : ls (W.sweepLine lineCount i) = []) :
    W.distance lineCount ls = ({ W with pc := if i + 1 < 2 * lineCount then .sweep (i + 1)
      else .loop } : Worker).distance lineCount ls + 1 := by
  obtain ⟨f, hf⟩ : ∃ f, 2 * lineCount - i = f + 1 := ⟨2 * lineCount - i - 1, by omega⟩
  have hsl : ∀ pc, ({ W with pc := pc } : Worker).sweepLine lineCount = W.sweepLine lineCount :=
    fun _ => rfl
  split
  · simp only [Worker.distance, hpc, hf, triesToTask, hempty, if_true, hsl,
      show 2 * lineCount - (i + 1) = f by omega]
    cases triesToTask ls (W.sweepLine lineCount) f (i + 1)
    · simp
      omega
    · simp
  · obtain rfl : f = 0 := by omega
    simp [Worker.distance, hpc, hf, triesToTask, hempty, WorkerPc.toSweep]
    omega

end Distance

section Approach

variable {lineCount : Nat} {s s' : Pool} {w : Nat} {e : Event} {ls : Nat → List Nat}

/-- While the lines hold `ls` and a task, `num_tasks_` is not 0 and no worker holds a task, each
step of an awake worker in a calm pool that is not a pop brings it closer to its next pop, when
its `try_pop` on a line that holds a task gets the lock. -/
theorem WorkerStep.distance_lt (hN : 0 < lineCount) (hc : Calm lineCount s) (hw : w < lineCount)
    (h : WorkerStep lineCount s w e s') (r : Represents s.heap ls)
    (hf : (s.workers w).pc.holds = none) (hnum : s.numTasks ≠ 0)
    (hne : ∃ L < lineCount, ls L ≠ []) (hpop : ∀ t L, e ≠ .pop w t L)
    (hlock : ∀ i, (s.workers w).pc = .sweep i →
      s.heap.tasksStack ((s.workers w).sweepLine lineCount i) ≠ none →
      ∃ t, e = .pop w t ((s.workers w).sweepLine lineCount i)) :
    (s'.workers w).distance lineCount ls < (s.workers w).distance lineCount ls := by
  have h0 := (hc.step hN hw h).hint hN hw
  by_cases hd : 0 < (s.workers w).pc.toSweep
  · obtain ⟨W, rfl, hW⟩ := h.approach hc.running hnum hd
    simp only [Pool.setWorker_workers, update_same] at h0 ⊢
    rw [Worker.distance_of_toSweep hd]
    rcases hW with h0' | ⟨hd', hlt⟩
    · obtain ⟨L, hL, hl⟩ := hne
      obtain ⟨k, hk⟩ := Option.ne_none_iff_exists'.mp (triesToTask_sweep h0 hL hl)
      have := triesToTask_le hk
      simp only [Worker.distance, h0', Nat.sub_zero, hk]
      omega
    · rw [Worker.distance_of_toSweep hd']
      omega
  · obtain ⟨_, hr⟩ := hc.reachable
    cases hpc : (s.workers w).pc with
    | sweep i =>
      have hi := hr.reachable.sweep_lt hN hpc
      have hempty : ls ((s.workers w).sweepLine lineCount i) = [] := by
        by_contra hl
        obtain ⟨t, ht⟩ := hlock i hpc (Represents.tasksStack_ne_none r hl)
        exact hpop _ _ ht
      cases h with
      | sweepHit => exact absurd rfl (hpop _ _)
      | @sweepMiss j _ hpc' _ =>
        obtain rfl : i = j := by rw [hpc] at hpc'; exact WorkerPc.sweep.inj hpc'
        have hm := Worker.distance_miss hpc hi hempty
        simp only [Pool.setWorker_workers, update_same] at hm ⊢
        omega
      | _ => simp_all
    | popped | execute => simp [hpc, WorkerPc.holds] at hf
    | exited => exact absurd hpc (hc.not_exited w)
    | _ => simp [hpc, WorkerPc.toSweep] at hd

end Approach

/-! ### Progress under fairness -/

/-- A drained pool: every line empty, `num_tasks_` at 0, and no worker holding a task. -/
structure Pool.Drained (lineCount : Nat) (s : Pool) : Prop where
  empty : ∀ L, s.heap.tasksStack L = none
  numTasks : s.numTasks = 0
  free : s.Free lineCount

section Progress

variable {lineCount : Nat} {sch : Schedule lineCount}

/-- A worker step keeps a drained pool drained: no line holds a task to pop, and no worker a task
to count down or run. -/
theorem WorkerStep.drained {s s' : Pool} {v : Nat} {e : Event} (hd : s.Drained lineCount)
    (hv : v < lineCount) (h : WorkerStep lineCount s v e s') : s'.Drained lineCount := by
  cases h with
  | sweepHit _ hpop => simp [tryPop, hd.empty] at hpop
  | decrement hpc => simpa [hpc, WorkerPc.holds] using hd.free v hv
  | execute hpc => simpa [hpc, WorkerPc.holds] using hd.free v hv
  | _ =>
    refine ⟨hd.empty, hd.numTasks, fun u hu => ?_⟩
    rcases eq_or_ne u v with rfl | huv
    · simp only [Pool.setWorker_workers, update_same]
      try split
      all_goals rfl
    · simpa [update_noteq huv] using hd.free u hu

/-- Once drained, a schedule stays drained. -/
theorem Schedule.drained_from {n : Nat} (hd : (sch.state n).Drained lineCount) (m : Nat)
    (hm : n ≤ m) : (sch.state m).Drained lineCount :=
  Nat.le_induction hd (fun j _ ih => (sch.next j).elim
    (fun ⟨_, hs⟩ => hs.drained ih (sch.worker_lt j)) fun ⟨_, _, heq⟩ => heq ▸ ih) m hm

theorem WorkerPc.ready_of_owed {W : Worker} (h : 0 < W.pc.owed) : W.Ready := by
  constructor <;> cases hpc : W.pc <;> simp_all [Worker.Parked, WorkerPc.owed]

/-- A step of a worker that owes something changes what it owes: the decrement, or the call. -/
theorem WorkerStep.owed_ne {s s' : Pool} {v : Nat} {e : Event} (hpos : 0 < (s.workers v).pc.owed)
    (h : WorkerStep lineCount s v e s') :
    (s'.workers v).pc.owed ≠ (s.workers v).pc.owed := by
  cases h <;> simp_all [WorkerPc.owed]

/-- A pop changes the lists of the lines. -/
theorem LinesChange.ne_of_pop {ls ls' : Nat → List Nat} {w t L : Nat}
    (hc : LinesChange lineCount ls (.pop w t L) ls') : ls' ≠ ls := by
  cases hc with
  | keep he => simp [Event.changesLines] at he
  | @pop _ _ _ rest _ hl =>
    intro heq
    have := congrFun heq L
    rw [update_same, hl] at this
    exact List.cons_ne_self _ _ this.symm

/-- One time step of a schedule from a calm state lowers the rank, or is neutral: it keeps the
rank, the lines, `num_tasks_`, what each worker owes, and each awake worker awake. -/
theorem Schedule.rank_step (hN : 0 < lineCount) (n : Nat) {ls ls' : Nat → List Nat}
    (h : PoolLines lineCount (sch.state n) ls) (h' : PoolLines lineCount (sch.state (n + 1)) ls') :
    rank lineCount (sch.state (n + 1)) ls' < rank lineCount (sch.state n) ls ∨
      (rank lineCount (sch.state (n + 1)) ls' = rank lineCount (sch.state n) ls ∧
        (sch.state (n + 1)).heap = (sch.state n).heap ∧ ls' = ls ∧
        ∀ w, ((sch.state (n + 1)).workers w).pc.owed = ((sch.state n).workers w).pc.owed ∧
          (¬ ((sch.state n).workers w).Parked → ¬ ((sch.state (n + 1)).workers w).Parked)) := by
  rcases sch.next n with ⟨hp, hs⟩ | ⟨-, -, heq⟩
  · have hch := h.linesChange hN (.worker (sch.worker_lt n) hs) h'
    rcases hs.rank_cases (sch.worker_lt n) hp hch with hlt | ⟨hr, hh, hls, -, ho, hp'⟩
    · exact .inl hlt
    · refine .inr ⟨hr, hh, hls, fun w => ?_⟩
      rcases eq_or_ne w (sch.worker n) with rfl | hw
      · exact ⟨ho, fun _ => hp'⟩
      · rw [hs.workers_ne hw]
        exact ⟨rfl, id⟩
  · rw [heq] at h' ⊢
    obtain rfl := h'.represents.unique h.represents
    exact .inr ⟨rfl, rfl, rfl, fun _ => ⟨rfl, id⟩⟩

/-- A calm state where no line holds a task and no worker holds one is drained. -/
theorem Calm.drained (hN : 0 < lineCount) {s : Pool} {ls : Nat → List Nat} (hc : Calm lineCount s)
    (r : Represents s.heap ls) (hq : queued ls lineCount = 0) (hf : s.Free lineCount) :
    s.Drained lineCount := by
  have hnil : ∀ L, ls L = [] := fun L => by
    rcases lt_or_le L lineCount with hL | hL
    · exact List.length_eq_zero.mp (Finset.sum_eq_zero_iff.mp hq L (Finset.mem_range.mpr hL))
    · exact hc.beyond hN r L hL
  refine ⟨fun L => r.tasksStack_eq_none (hnil L), ?_, hf⟩
  rw [hc.numTasks_eq hN hf r, hq]
  rfl

variable (hN : 0 < lineCount) {L : Nat → Nat → List Nat}
  (hL : ∀ m, PoolLines lineCount (sch.state m) (L m))
include hN hL

/-- A worker holding a task, scheduled fairly, lowers the rank: its next step is the decrement or
the call. -/
theorem Schedule.progress_held {n w : Nat} (hfair : sch.Fair w)
    (hpos : 0 < ((sch.state n).workers w).pc.owed) :
    ∃ m, n < m ∧ rank lineCount (sch.state m) (L m) < rank lineCount (sch.state n) (L n) := by
  refine eventually_of_fair hfair
    (fun m => rank lineCount (sch.state m) (L m) = rank lineCount (sch.state n) (L n) ∧
      0 < ((sch.state m).workers w).pc.owed) _ (fun _ => 0) ⟨rfl, hpos⟩
    (fun m hi => WorkerPc.ready_of_owed hi.2) fun m _ ⟨hr, hp⟩ => ?_
  rcases sch.rank_step hN m (hL m) (hL (m + 1)) with hlt | ⟨hr', -, -, ho⟩
  · exact .inl (hr ▸ hlt)
  · refine .inr ⟨⟨hr'.trans hr, (ho w).1 ▸ hp⟩, le_rfl, fun hw => absurd (ho w).1 ?_⟩
    exact ((sch.step_of_ready (WorkerPc.ready_of_owed hp) hw).2.owed_ne hp)

/-- An awake worker, scheduled fairly in a pool where no worker holds a task and a line holds one,
lowers the rank or lets another worker lower it, once every `try_pop` on a line that holds a task
gets its lock. -/
theorem Schedule.progress_queued {n₀ n w : Nat} (hc : ∀ m, Calm lineCount (sch.state m))
    (hlock : sch.PopsLock n₀) (hn : n₀ ≤ n) (hfair : sch.Fair w) (hw : w < lineCount)
    (hp : ¬ ((sch.state n).workers w).Parked) (hf : (sch.state n).Free lineCount)
    (hne : ∃ L' < lineCount, L n L' ≠ []) :
    ∃ m, n < m ∧ rank lineCount (sch.state m) (L m) < rank lineCount (sch.state n) (L n) := by
  refine eventually_of_fair hfair
    (fun m => rank lineCount (sch.state m) (L m) = rank lineCount (sch.state n) (L n) ∧
      L m = L n ∧ (sch.state m).Free lineCount ∧ ¬ ((sch.state m).workers w).Parked) _
    (fun m => ((sch.state m).workers w).distance lineCount (L n)) ⟨rfl, rfl, hf, hp⟩
    (fun m hi => ⟨hi.2.2.2, (hc m).not_exited w⟩)
    fun m hm ⟨hr, hl, hfm, hpm⟩ => ?_
  rcases sch.rank_step hN m (hL m) (hL (m + 1)) with hlt | ⟨hr', -, hls, ho⟩
  · exact .inl (hr ▸ hlt)
  · have hl' : L (m + 1) = L n := hls.trans hl
    have hdec : sch.worker m = w →
        ((sch.state (m + 1)).workers w).distance lineCount (L n) <
          ((sch.state m).workers w).distance lineCount (L n) := fun hsw => by
      obtain ⟨-, hs⟩ := sch.step_of_ready ⟨hpm, (hc m).not_exited w⟩ hsw
      have r : Represents (sch.state m).heap (L n) := hl ▸ (hL m).represents
      refine hs.distance_lt hN (hc m) hw r (hfm w hw) ?_ hne ?_ ?_
      · obtain ⟨L', hL', hl'⟩ := hne
        have := queued_pos hL' hl'
        rw [(hc m).numTasks_eq hN hfm r]
        omega
      · intro t L' he
        have hch := (hL m).linesChange hN (.worker hw hs) (hL (m + 1))
        rw [he] at hch
        exact hch.ne_of_pop hls
      · intro i hpc hne'
        subst hsw
        exact hlock m (by omega) i hpc hne'
    refine .inr ⟨⟨hr'.trans hr, hl', fun v hv => ?_, (ho w).2 hpm⟩, ?_, hdec⟩
    · rw [WorkerPc.holds_eq_none, (ho v).1, ← WorkerPc.holds_eq_none]
      exact hfm v hv
    · by_cases hsw : sch.worker m = w
      · exact le_of_lt (hdec hsw)
      · show ((sch.state (m + 1)).workers w).distance lineCount (L n) ≤ _
        rw [sch.workers_eq hsw]

/-- While a task is queued or held, a fair schedule lowers the rank. -/
theorem Schedule.progress {n₀ n : Nat} (hc : ∀ m, Calm lineCount (sch.state m))
    (hfair : ∀ w < lineCount, sch.Fair w) (hlock : sch.PopsLock n₀) (hn : n₀ ≤ n)
    (hd : ¬ (queued (L n) lineCount = 0 ∧ (sch.state n).Free lineCount)) :
    ∃ m, n < m ∧ rank lineCount (sch.state m) (L m) < rank lineCount (sch.state n) (L n) := by
  by_cases hf : (sch.state n).Free lineCount
  · obtain ⟨hne, w, hw, hp⟩ :=
      (hc n).awake_of_queued hN (hL n).represents fun h => hd ⟨h, hf⟩
    exact sch.progress_queued hN hL hc hlock hn (hfair w hw) hw hp hf hne
  · obtain ⟨w, hw, hh⟩ : ∃ w < lineCount, ((sch.state n).workers w).pc.holds ≠ none := by
      simpa [Pool.Free] using hf
    exact sch.progress_held hN hL (hfair w hw)
      (Nat.pos_of_ne_zero (mt WorkerPc.holds_eq_none.mpr hh))

/-- A fair schedule in which every `try_pop` on a line that holds a task gets its lock from `n₀` on
empties the lines and leaves no task held: by induction on a bound of the rank, which a later state
lowers while a task is queued or held. -/
theorem Schedule.reaches_free {n₀ : Nat} (hc : ∀ m, Calm lineCount (sch.state m))
    (hfair : ∀ w < lineCount, sch.Fair w) (hlock : sch.PopsLock n₀) :
    ∃ m, queued (L m) lineCount = 0 ∧ (sch.state m).Free lineCount := by
  suffices ∀ k n, n₀ ≤ n → rank lineCount (sch.state n) (L n) < k →
      ∃ m, queued (L m) lineCount = 0 ∧ (sch.state m).Free lineCount from
    this _ n₀ le_rfl (Nat.lt_succ_self _)
  intro k
  induction k with
  | zero => intro n _ h; omega
  | succ k ih =>
    intro n hn hk
    by_cases hd : queued (L n) lineCount = 0 ∧ (sch.state n).Free lineCount
    · exact ⟨n, hd⟩
    · obtain ⟨m, hm, hlt⟩ := sch.progress hN hL hc hfair hlock hn hd
      exact ih m (by omega) (by omega)

end Progress

/-! ### Where a task goes -/

/-- A task in a line stays in a line, unless the step pops it or extracts it. -/
theorem LinesChange.mem_or {lineCount : Nat} {ls ls' : Nat → List Nat} {e : Event} {t L : Nat}
    (hc : LinesChange lineCount ls e ls') (ht : t ∈ ls L) :
    (∃ L', t ∈ ls' L') ∨ (∃ w, e = .pop w t L) ∨ e = .extracted t true := by
  cases hc with
  | keep => exact .inl ⟨L, ht⟩
  | @push u L' _ _ =>
    refine .inl ⟨L, ?_⟩
    rcases eq_or_ne L L' with rfl | hL
    · simp [ht]
    · rwa [update_noteq hL]
  | @pop w u L' rest _ hl =>
    rcases eq_or_ne L L' with rfl | hL
    · rw [hl, List.mem_cons] at ht
      rcases ht with rfl | ht
      · exact .inr (.inl ⟨w, rfl⟩)
      · exact .inl ⟨L, by simpa using ht⟩
    · exact .inl ⟨L, by rwa [update_noteq hL]⟩
  | @extract u L' pre post _ hl =>
    rcases eq_or_ne L L' with rfl | hL
    · rw [hl, List.mem_append, List.mem_cons] at ht
      by_cases htu : t = u
      · exact .inr (.inr (by rw [htu]))
      · exact .inl ⟨L, by simp only [update_same, List.mem_append]; tauto⟩
    · exact .inl ⟨L, by rwa [update_noteq hL]⟩

section Track

variable {lineCount : Nat} {sch : Schedule lineCount} (hN : 0 < lineCount)
  {L : Nat → Nat → List Nat} (hL : ∀ m, PoolLines lineCount (sch.state m) (L m))
include hN hL

/-- Along a schedule a task is in a line, or held by a worker, or its function has been called:
it leaves a line only by a pop, and a worker lets it go only by calling it. -/
theorem Schedule.track (t k : Nat)
    (h : (∃ L', t ∈ L k L') ∨ (∃ v < lineCount, ∃ line,
      ((sch.state k).workers v).pc.holds = some (t, line)) ∨
      ∃ j < k, ∃ v line, sch.event j = .execute v t line) :
    (∃ L', t ∈ L (k + 1) L') ∨ (∃ v < lineCount, ∃ line,
      ((sch.state (k + 1)).workers v).pc.holds = some (t, line)) ∨
      ∃ j < k + 1, ∃ v line, sch.event j = .execute v t line := by
  have hran : (∃ j < k, ∃ v line, sch.event j = .execute v t line) →
      ∃ j < k + 1, ∃ v line, sch.event j = .execute v t line :=
    fun ⟨j, hj, he⟩ => ⟨j, by omega, he⟩
  rcases sch.next k with ⟨-, hs⟩ | ⟨-, -, heq⟩
  · have hs' := Step.worker (sch.worker_lt k) hs
    have hlc := (hL k).linesChange hN hs' (hL (k + 1))
    have hhc := hs'.holdChange
    rcases h with ⟨L', ht⟩ | ⟨v, hv, line, hh⟩ | h
    · rcases hlc.mem_or ht with h | ⟨w, he⟩ | he
      · exact .inl h
      · rw [he] at hhc
        cases hhc with
        | keep he' => simp [Event.changesHolds] at he'
        | pop hw _ h1 => exact .inr (.inl ⟨w, hw, L', h1⟩)
      · rw [he] at hs
        cases hs
    · generalize he : sch.event k = e at hhc
      cases hhc with
      | keep _ hW => exact .inr (.inl ⟨v, hv, line, (hW v).trans hh⟩)
      | @pop w _ _ _ _ h0 _ hv' =>
        rcases eq_or_ne v w with rfl | hvw
        · simp [h0] at hh
        · exact .inr (.inl ⟨v, hv, line, (hv' v hvw).trans hh⟩)
      | @execute w u L' _ _ h0 _ hv' =>
        rcases eq_or_ne v w with rfl | hvw
        · rw [h0, Option.some.injEq, Prod.mk.injEq] at hh
          obtain ⟨rfl, rfl⟩ := hh
          exact .inr (.inr ⟨k, by omega, v, _, he⟩)
        · exact .inr (.inl ⟨v, hv, line, (hv' v hvw).trans hh⟩)
    · exact .inr (.inr (hran h))
  · have hls : L (k + 1) = L k :=
      (hL (k + 1)).represents.unique (by rw [heq]; exact (hL k).represents)
    rw [hls, heq]
    rcases h with h | h | h
    · exact .inl h
    · exact .inr (.inl h)
    · exact .inr (.inr (hran h))

/-- A task in a line or held by a worker at the start, and in no line and held by no worker at
time `n`, has had its function called before `n`. -/
theorem Schedule.ran_of_drained {n : Nat} (hd : (sch.state n).Drained lineCount) (t : Nat)
    (h0 : (∃ L', t ∈ L 0 L') ∨ ∃ v < lineCount, ∃ line,
      ((sch.state 0).workers v).pc.holds = some (t, line)) :
    ∃ j < n, ∃ v line, sch.event j = .execute v t line := by
  have hall : ∀ k, (∃ L', t ∈ L k L') ∨ (∃ v < lineCount, ∃ line,
      ((sch.state k).workers v).pc.holds = some (t, line)) ∨
      ∃ j < k, ∃ v line, sch.event j = .execute v t line := by
    intro k
    induction k with
    | zero => exact h0.elim .inl (.inr ∘ .inl)
    | succ k ih => exact sch.track hN hL t k ih
  rcases hall n with ⟨L', ht⟩ | ⟨v, hv, line, hh⟩ | h
  · have hnil : L n L' = [] := by
      by_contra hne
      exact Represents.tasksStack_ne_none (hL n).represents hne (hd.empty L')
    simp [hnil] at ht
  · simp [hd.free v hv] at hh
  · exact h

end Track

/-! ### The drain -/

/-- What schedule `sch` has done by time `n` with the tasks of its first state, whose lines hold
`ls`: from `n` on the pool is drained, and before `n` the function of every task that was in a line
or held by a worker has been called. -/
structure Schedule.DrainedBy {lineCount : Nat} (sch : Schedule lineCount) (ls : Nat → List Nat)
    (n : Nat) : Prop where
  drained : ∀ m, n ≤ m → (sch.state m).Drained lineCount
  ran_queued : ∀ L t, t ∈ ls L → ∃ j < n, ∃ w line, sch.event j = .execute w t line
  ran_held : ∀ w < lineCount, ∀ t line, ((sch.state 0).workers w).pc.holds = some (t, line) →
    ∃ j < n, ∃ v line', sch.event j = .execute v t line'

/-- The pool drains under every fair schedule. From a state of a pool of at least one line reached
by a run on which no counter wraps around, where no call of `enqueue`, `extract_task` or `join` is
in progress and `stop_requested_` is clear, every schedule of the workers alone that is weakly fair
to each worker, and in which from some time on every `try_pop` on a line that holds a task gets its
lock, calls the function of every task in a line or held by a worker, and from some time on keeps
every line empty, no task held and `num_tasks_` at 0. -/
theorem fair_schedule_drains {lineCount : Nat} (hN : 0 < lineCount) (sch : Schedule lineCount)
    {evs : List Event} (hr : SafeReachable lineCount evs (sch.state 0))
    (hq : (sch.state 0).Settled)
    (hstop : (sch.state 0).stopRequested = false) (hfair : ∀ w < lineCount, sch.Fair w)
    (hlock : ∃ n₀, sch.PopsLock n₀) :
    ∃ ls, Represents (sch.state 0).heap ls ∧ ∃ n, sch.DrainedBy ls n := by
  obtain ⟨n₀, hlock⟩ := hlock
  have hc := sch.calm hN ⟨⟨evs, hr⟩, hq, hstop⟩
  have hex : ∀ m, ∃ ls, PoolLines lineCount (sch.state m) ls := fun m =>
    let ⟨_, hr⟩ := (hc m).reachable
    hr.reachable.poolLines hN
  choose L hL using hex
  obtain ⟨n, hq0, hf⟩ := sch.reaches_free hN hL hc hfair hlock
  have hd := (hc n).drained hN (hL n).represents hq0 hf
  exact ⟨L 0, (hL 0).represents, n, sch.drained_from hd,
    fun L' t ht => sch.ran_of_drained hN hL hd t (.inl ⟨L', ht⟩),
    fun w hw t line hh => sch.ran_of_drained hN hL hd t (.inr ⟨w, hw, line, hh⟩)⟩

end Concore2full.ThreadPool
