import Concore2full.ThreadPool.Lines
import Concore2full.ThreadPool.Index
import Concore2full.ThreadPool.Wakeup

/-! The indices of the lines in a running pool. Every hint a worker sweeps from is a line: it is
the worker's own index, or what `sleep` loads from `work_line_start_index_`, which starts at 0 and
which only `try_notify` writes, with the line `enqueue` pushed to or `join`'s 0. Together with the
index arithmetic of `Index`: `enqueue` tries every line once in cyclic order before its fallback
push on the line it started from, and the sweep goes twice round the lines from its hint and pops
the head of the first non-empty line. -/

namespace Concore2full.ThreadPool

open WorkLine Function

/-- The line a call of `enqueue` passes to `notify_one`, once it has pushed. -/
def EnqueuePc.hintLine : EnqueuePc → Option Nat
  | .increment line | .notify line _ _ => some line
  | _ => none

/-- The worker's hint and its `work_line_start_index_` are lines. -/
def Worker.InRange (lineCount : Nat) (W : Worker) : Prop :=
  0 ≤ W.hint ∧ W.hint < lineCount ∧ 0 ≤ W.startIndex ∧ W.startIndex < lineCount

/-- The hints of the workers, their `work_line_start_index_` and the lines the calls of `enqueue`
pass to `notify_one` are lines. -/
structure HintInv (lineCount : Nat) (s : Pool) : Prop where
  workers : ∀ w < lineCount, (s.workers w).InRange lineCount
  line : ∀ c ∈ s.enqueues, ∀ line, c.pc.hintLine = some line → line < lineCount

section Step

variable {lineCount : Nat} {s s' : Pool} {e : Event}

theorem HintInv.of_eq (h : HintInv lineCount s)
    (hW : ∀ w < lineCount, (s'.workers w).InRange lineCount)
    (henq : ∀ c ∈ s'.enqueues, c ∈ s.enqueues ∨
      ∀ line, c.pc.hintLine = some line → line < lineCount) : HintInv lineCount s' :=
  ⟨hW, fun c hc => (henq c hc).elim (h.line c) id⟩

/-- A call of `enqueue` moved to a pc whose line, if any, is a line. -/
theorem HintInv.of_set (h : HintInv lineCount s)
    (hW : ∀ w < lineCount, (s'.workers w).InRange lineCount) {i : Nat} {c : Enqueue}
    (henq : s'.enqueues = s.enqueues.set i c)
    (hc : ∀ line, c.pc.hintLine = some line → line < lineCount) : HintInv lineCount s' :=
  h.of_eq hW fun _ h' =>
    (List.mem_or_eq_of_mem_set (henq ▸ h')).imp_right (by rintro rfl; exact hc)

theorem inRange_update {W : Nat → Worker} (hW : ∀ w < lineCount, (W w).InRange lineCount)
    {k : Nat} {V : Worker} (hV : k < lineCount → V.InRange lineCount) :
    ∀ w < lineCount, (update W k V w).InRange lineCount := by
  intro w hw
  rcases eq_or_ne w k with rfl | hwk
  · simpa using hV hw
  · simpa [update_noteq hwk] using hW w hw

/-- A worker's step changes no `work_line_start_index_`, and its hint only to that index. -/
theorem WorkerStep.inRange {v : Nat} (hs : WorkerStep lineCount s v e s') {w : Nat}
    (h : (s.workers w).InRange lineCount) : (s'.workers w).InRange lineCount := by
  rcases eq_or_ne w v with rfl | hwv
  · cases hs <;> simp [Worker.InRange] at h ⊢ <;> omega
  · cases hs <;> simpa [update_noteq hwv] using h

theorem WorkerStep.enqueues_eq {v : Nat} (hs : WorkerStep lineCount s v e s') :
    s'.enqueues = s.enqueues := by
  cases hs <;> rfl

theorem inRange_fetchAdd {W : Worker} (h : W.InRange lineCount) :
    W.fetchAdd.InRange lineCount := by
  simpa [Worker.InRange] using h

theorem inRange_notify {W : Worker} (h : W.InRange lineCount) : W.notify.InRange lineCount := by
  simpa [Worker.InRange] using h

theorem HintInv.step (hN : 0 < lineCount) (h : HintInv lineCount s) (hs : Step lineCount s e s') :
    HintInv lineCount s' := by
  cases hs with
  | worker _ hw =>
    exact h.of_eq (fun w hv => hw.inRange (h.workers w hv)) fun c hc => .inl (hw.enqueues_eq ▸ hc)
  | @enqueue _ _ i he =>
    have hold {t pc} (he : s.enqueues[i]? = some ⟨t, pc⟩) := h.line _ (List.getElem?_mem he)
    cases he with
    | clearLinks => exact h.of_set h.workers rfl (by simp [EnqueuePc.hintLine])
    | fetchIndex => exact h.of_set h.workers rfl (by simp [EnqueuePc.hintLine])
    | probeHit => exact h.of_set h.workers rfl (by simpa [EnqueuePc.hintLine] using probeLine_lt hN)
    | probeMiss => exact h.of_set h.workers rfl (by split <;> simp [EnqueuePc.hintLine])
    | forcePush =>
      exact h.of_set h.workers rfl (by simpa [EnqueuePc.hintLine] using Nat.mod_lt _ hN)
    | @increment t line he =>
      have hl := hold he line rfl
      exact h.of_set h.workers rfl (by split <;> simp [EnqueuePc.hintLine, hl])
    | @notifyAdd t line k he =>
      have hl := hold he line rfl
      refine h.of_set (inRange_update h.workers fun hk => inRange_fetchAdd (h.workers _ hk)) rfl ?_
      split <;> [skip; split] <;> simp [EnqueuePc.hintLine, hl]
    | @notifyStore t line k he =>
      have hl := hold he line rfl
      refine h.of_set (inRange_update h.workers fun hk => ?_) rfl (by simpa using hold he)
      have := h.workers k hk
      simp only [Worker.InRange] at this ⊢
      omega
    | notifyWake => 
      exact h.of_set (inRange_update h.workers fun hk => inRange_notify (h.workers _ hk)) rfl
        (by simp [EnqueuePc.hintLine])
  | extract hx => cases hx <;> exact h.of_eq h.workers fun c hc => .inl hc
  | join hj =>
    cases hj with
    | notifyAdd => 
      exact h.of_eq (inRange_update h.workers fun hk => inRange_fetchAdd (h.workers _ hk))
        fun c hc => .inl hc
    | @notifyStore k =>
      refine h.of_eq (inRange_update h.workers fun hk => ?_) fun c hc => .inl hc
      have := h.workers k hk
      simp only [Worker.InRange] at this ⊢
      omega
    | notifyWake =>
      exact h.of_eq (inRange_update h.workers fun hk => inRange_notify (h.workers _ hk))
        fun c hc => .inl hc
    | _ => exact h.of_eq h.workers fun c hc => .inl hc
  | startEnqueue t =>
    refine h.of_eq h.workers fun c hc => ?_
    rcases List.mem_append.mp hc with hc | hc
    · exact .inl hc
    · simp at hc; subst hc; exact .inr fun l hl => by simp [EnqueuePc.hintLine] at hl
  | startExtract t => exact h.of_eq h.workers fun c hc => .inl hc

/-- The hints stay lines over every run of a pool of at least one line. -/
theorem Reachable.hintInv (hN : 0 < lineCount) {evs : List Event} (hr : Reachable lineCount evs s) :
    HintInv lineCount s := by
  induction hr with
  | refl =>
    refine ⟨fun w hw => ?_, by simp [Pool.init]⟩
    simp only [Pool.init, Worker.init, Worker.InRange]
    omega
  | tail _ hs ih => exact ih.step hN hs

end Step

/-! ## The lines `enqueue` and the sweep try -/

/-- The `uint32_t` sums of `enqueue` do not wrap: it tries the lines in cyclic order from its
start. -/
theorem probe_lines {lineCount start : Nat} (hN : lineCount ≤ 2 ^ 31) (hs : start < lineCount) :
    (List.range lineCount).map (probeLine start · lineCount) = cyclic start lineCount :=
  List.map_congr_left fun _ hi => probeLine_eq hN hs (List.mem_range.mp hi)

theorem Worker.sweepLine_eq {W : Worker} {lineCount i : Nat} (h0 : 0 ≤ W.hint) :
    W.sweepLine lineCount i = (i + W.hint.toNat) % lineCount := by
  rw [Worker.sweepLine, ThreadPool.sweepLine_eq h0, Int.toNat_ofNat]

/-- From a hint that is not negative the sweep goes twice round the lines from the hint. -/
theorem Worker.sweep_lines {W : Worker} {lineCount : Nat} (h0 : 0 ≤ W.hint) :
    (List.range (2 * lineCount)).map (W.sweepLine lineCount) =
      cyclic W.hint.toNat lineCount ++ cyclic W.hint.toNat lineCount := by
  rw [← ThreadPool.sweep_lines]
  exact List.map_congr_left fun _ _ => Worker.sweepLine_eq h0

/-! ## The sweep of a worker run alone -/

/-- Steps of worker `w` alone. -/
inductive WorkerRun (lineCount w : Nat) : Pool → Pool → Prop
  | refl (s : Pool) : WorkerRun lineCount w s s
  | step {s s₁ s' : Pool} {e : Event} (h : WorkerStep lineCount s w e s₁)
      (hr : WorkerRun lineCount w s₁ s') : WorkerRun lineCount w s s'

/-- Steps of a worker alone are a run of the pool. -/
theorem WorkerRun.run {lineCount w : Nat} {s s' : Pool} (hw : w < lineCount)
    (hr : WorkerRun lineCount w s s') : ∃ evs, Run lineCount s evs s' := by
  induction hr with
  | refl s => exact ⟨[], .refl s⟩
  | step h _ ih =>
    obtain ⟨evs, r⟩ := ih
    exact ⟨_, r.head (.worker hw h)⟩

/-- Where worker `w`'s sweep from its `i`-th `try_pop` ends when no other thread steps and every
`try_pop` gets its lock: as the sequential `sweep` says, at the task it pops, or back at the top of
its loop. -/
def sweepAlone (lineCount : Nat) (s : Pool) (w i : Nat) : Pool :=
  match sweep s.heap (s.workers w).hint.toNat lineCount (2 * lineCount - i) i with
  | some (t, line) =>
    { s with heap := (tryPop s.heap line true).2 }.setWorker w
      { s.workers w with pc := .popped t line }
  | none => s.setWorker w { s.workers w with pc := .loop }

@[simp] theorem Pool.setWorker_setWorker (s : Pool) (w : Nat) (W W' : Worker) :
    (s.setWorker w W).setWorker w W' = s.setWorker w W' := by
  simp [Pool.setWorker]

theorem sweepAlone_miss {lineCount w i : Nat} {s : Pool} (hi : i + 1 < 2 * lineCount)
    (hpop : (tryPop s.heap ((i + (s.workers w).hint.toNat) % lineCount) true).1 = none) :
    sweepAlone lineCount (s.setWorker w { s.workers w with pc := .sweep (i + 1) }) w (i + 1) =
      sweepAlone lineCount s w i := by
  obtain ⟨k, hk⟩ : ∃ k, 2 * lineCount - i = k + 1 := ⟨2 * lineCount - i - 1, by omega⟩
  have hk' : 2 * lineCount - (i + 1) = k := by omega
  simp only [sweepAlone, Pool.setWorker_workers, update_same, Pool.setWorker_heap, hk, hk',
    sweep, hpop]
  split <;> simp [Pool.setWorker]

/-- Steps of worker `w` alone, labelled `evs`, none of them the wake-up of a worker parked on a
token nobody notified. -/
inductive SoloRun (lineCount w : Nat) : Pool → List Event → Pool → Prop
  | refl (s : Pool) : SoloRun lineCount w s [] s
  | step {s s₁ s' : Pool} {e : Event} {evs : List Event} (hp : ¬ (s.workers w).Parked)
      (h : WorkerStep lineCount s w e s₁) (hr : SoloRun lineCount w s₁ evs s') :
      SoloRun lineCount w s (e :: evs) s'

/-- Worker `w`'s sweep from its `i`-th `try_pop` to where it leaves the sweep, no other thread
stepping and every `try_pop` getting its lock: the steps `sweepHit` and `sweepMiss` of
`WorkerStep` with `acquired` set. -/
inductive LockedSweep (lineCount w : Nat) : Pool → Pool → Prop
  | hit {s : Pool} {i t : Nat} (hpc : (s.workers w).pc = .sweep i)
      (hpop : (tryPop s.heap ((s.workers w).sweepLine lineCount i) true).1 = some t) :
      LockedSweep lineCount w s
        ({ s with heap := (tryPop s.heap ((s.workers w).sweepLine lineCount i) true).2 }.setWorker w
          { s.workers w with pc := .popped t ((s.workers w).sweepLine lineCount i) })
  | last {s : Pool} {i : Nat} (hpc : (s.workers w).pc = .sweep i)
      (hpop : (tryPop s.heap ((s.workers w).sweepLine lineCount i) true).1 = none)
      (hi : ¬ i + 1 < 2 * lineCount) :
      LockedSweep lineCount w s (s.setWorker w { s.workers w with pc := .loop })
  | miss {s s' : Pool} {i : Nat} (hpc : (s.workers w).pc = .sweep i)
      (hpop : (tryPop s.heap ((s.workers w).sweepLine lineCount i) true).1 = none)
      (hi : i + 1 < 2 * lineCount)
      (hr : LockedSweep lineCount w (s.setWorker w { s.workers w with pc := .sweep (i + 1) }) s') :
      LockedSweep lineCount w s s'

section Locked

variable {lineCount w : Nat}

/-- A sweep with every lock taken is a run of the worker alone. -/
theorem LockedSweep.soloRun {s s' : Pool} (h : LockedSweep lineCount w s s') :
    ∃ evs, SoloRun lineCount w s evs s' := by
  induction h with
  | hit hpc hpop =>
    exact ⟨_, .step (fun h => nomatch hpc.symm.trans h.1) (.sweepHit hpc hpop) (.refl _)⟩
  | last hpc hpop hi =>
    have h : WorkerStep lineCount _ w _ _ := .sweepMiss hpc hpop
    rw [if_neg hi] at h
    exact ⟨_, .step (fun h => nomatch hpc.symm.trans h.1) h (.refl _)⟩
  | miss hpc hpop hi _ ih =>
    obtain ⟨evs, r⟩ := ih
    have h : WorkerStep lineCount _ w _ _ := .sweepMiss hpc hpop
    rw [if_pos hi] at h
    exact ⟨_, .step (fun h => nomatch hpc.symm.trans h.1) h r⟩

theorem sweepAlone_hit {i t : Nat} {s : Pool} (h0 : 0 ≤ (s.workers w).hint)
    (hi : i < 2 * lineCount)
    (hpop : (tryPop s.heap ((s.workers w).sweepLine lineCount i) true).1 = some t) :
    sweepAlone lineCount s w i =
      { s with heap := (tryPop s.heap ((s.workers w).sweepLine lineCount i) true).2 }.setWorker w
        { s.workers w with pc := .popped t ((s.workers w).sweepLine lineCount i) } := by
  obtain ⟨k, hk⟩ : ∃ k, 2 * lineCount - i = k + 1 := ⟨2 * lineCount - i - 1, by omega⟩
  rw [Worker.sweepLine_eq h0] at hpop ⊢
  simp only [sweepAlone, hk, sweep, hpop]

theorem sweepAlone_last {i : Nat} {s : Pool} (h0 : 0 ≤ (s.workers w).hint)
    (hi : i < 2 * lineCount) (hi1 : ¬ i + 1 < 2 * lineCount)
    (hpop : (tryPop s.heap ((s.workers w).sweepLine lineCount i) true).1 = none) :
    sweepAlone lineCount s w i = s.setWorker w { s.workers w with pc := .loop } := by
  rw [Worker.sweepLine_eq h0] at hpop
  simp only [sweepAlone, show 2 * lineCount - i = 0 + 1 by omega, sweep, hpop]

/-- A sweep with every lock taken ends where the sequential sweep says. -/
theorem LockedSweep.eq_sweepAlone {s s' : Pool} (h : LockedSweep lineCount w s s') :
    0 ≤ (s.workers w).hint → ∀ i, (s.workers w).pc = .sweep i → i < 2 * lineCount →
      s' = sweepAlone lineCount s w i := by
  induction h with
  | hit hpc hpop =>
    intro h0 i hi hlt
    cases hpc.symm.trans hi
    exact (sweepAlone_hit h0 hlt hpop).symm
  | last hpc hpop hi1 =>
    intro h0 i hi hlt
    cases hpc.symm.trans hi
    exact (sweepAlone_last h0 hlt hi1 hpop).symm
  | miss hpc hpop hi1 _ ih =>
    intro h0 i hi _
    cases hpc.symm.trans hi
    rw [Worker.sweepLine_eq h0] at hpop
    rw [ih (by simpa using h0) _ (by simp) hi1, sweepAlone_miss hi1 hpop]

/-- One locked `try_pop` of the sweep, the rest of the sweep being locked after a miss. -/
theorem lockedSweep_step {i : Nat} {s : Pool} (h0 : 0 ≤ (s.workers w).hint)
    (hpc : (s.workers w).pc = .sweep i) (hi : i < 2 * lineCount)
    (hnext : i + 1 < 2 * lineCount →
      LockedSweep lineCount w (s.setWorker w { s.workers w with pc := .sweep (i + 1) })
        (sweepAlone lineCount (s.setWorker w { s.workers w with pc := .sweep (i + 1) }) w
          (i + 1))) :
    LockedSweep lineCount w s (sweepAlone lineCount s w i) := by
  cases hpop : (tryPop s.heap ((s.workers w).sweepLine lineCount i) true).1 with
  | some t => rw [sweepAlone_hit h0 hi hpop]; exact .hit hpc hpop
  | none =>
    by_cases hi1 : i + 1 < 2 * lineCount
    · rw [← sweepAlone_miss hi1 (by rwa [Worker.sweepLine_eq h0] at hpop)]
      exact .miss hpc hpop hi1 (hnext hi1)
    · rw [sweepAlone_last h0 hi hi1 hpop]
      exact .last hpc hpop hi1

/-- From the `i`-th `try_pop`, the sweep with every lock taken reaches where the sequential sweep
says. -/
theorem lockedSweep_sweepAlone :
    ∀ k (s : Pool) i, 0 ≤ (s.workers w).hint → i + (k + 1) = 2 * lineCount →
      (s.workers w).pc = .sweep i → LockedSweep lineCount w s (sweepAlone lineCount s w i) := by
  intro k
  induction k with
  | zero => exact fun s i h0 hk hpc => lockedSweep_step h0 hpc (by omega) fun _ => by omega
  | succ k ih =>
    exact fun s i h0 hk hpc => lockedSweep_step h0 hpc (by omega) fun _ =>
      ih _ _ (by simpa using h0) (by omega) (by simp)

theorem soloRun_sweepAlone (k : Nat) (s : Pool) (i : Nat) (h0 : 0 ≤ (s.workers w).hint)
    (hk : i + (k + 1) = 2 * lineCount) (hpc : (s.workers w).pc = .sweep i) :
    ∃ evs, SoloRun lineCount w s evs (sweepAlone lineCount s w i) :=
  (lockedSweep_sweepAlone k s i h0 hk hpc).soloRun

end Locked

/-- The head of the first non-empty line, and its line. -/
theorem firstTask_some {ls : Nat → List Nat} {lines : List Nat} {t line : Nat}
    (h : firstTask ls lines = some (t, line)) :
    line ∈ lines ∧ ∃ rest, ls line = t :: rest := by
  obtain ⟨l, hl, hf⟩ := List.exists_of_findSome?_eq_some h
  obtain ⟨t', ht', he⟩ := Option.map_eq_some'.mp hf
  cases he
  exact ⟨hl, List.head?_eq_some_iff.mp ht'⟩

/-- Where the sequential sweep from the start ends, `ls` being the lists of the lines: at the head
of the first non-empty line in cyclic order from the hint, or back at the top of the loop with
every line empty. -/
theorem sweepAlone_zero (lineCount w : Nat) {s : Pool} {ls : Nat → List Nat}
    (r : Represents s.heap ls) :
    (∃ t line rest, firstTask ls (cyclic (s.workers w).hint.toNat lineCount) = some (t, line) ∧
        ls line = t :: rest ∧ Represents (tryPop s.heap line true).2 (update ls line rest) ∧
        sweepAlone lineCount s w 0 = { s with heap := (tryPop s.heap line true).2 }.setWorker w
          { s.workers w with pc := .popped t line }) ∨
      ((∀ line < lineCount, ls line = []) ∧
        sweepAlone lineCount s w 0 = s.setWorker w { s.workers w with pc := .loop }) := by
  simp only [sweepAlone, Nat.sub_zero, sweep_eq_firstTask r]
  cases hft : firstTask ls (cyclic (s.workers w).hint.toNat lineCount) with
  | none => exact .inr ⟨firstTask_cyclic_eq_none.mp hft, rfl⟩
  | some p =>
    obtain ⟨t, line⟩ := p
    obtain ⟨rest, hl⟩ := (firstTask_some hft).2
    refine .inl ⟨t, line, rest, rfl, hl, ?_, rfl⟩
    rw [r.tryPop_cons hl]
    exact (r.popUnprotected hl).2.1

/-- A sweep from the start run alone, `ls` being the lists of the lines: it pops the head of the
first non-empty line in cyclic order from the hint, or it is back at the top of its loop and every
line is empty. -/
theorem soloRun_sweep_zero {lineCount w : Nat} {s : Pool} {ls : Nat → List Nat}
    (r : Represents s.heap ls) (h0 : 0 ≤ (s.workers w).hint) (hN : 0 < lineCount)
    (hpc : (s.workers w).pc = .sweep 0) :
    ∃ evs, (∃ t line rest, firstTask ls (cyclic (s.workers w).hint.toNat lineCount) =
        some (t, line) ∧ ls line = t :: rest ∧
        Represents (tryPop s.heap line true).2 (update ls line rest) ∧
        SoloRun lineCount w s evs ({ s with heap := (tryPop s.heap line true).2 }.setWorker w
          { s.workers w with pc := .popped t line })) ∨
      ((∀ line < lineCount, ls line = []) ∧
        SoloRun lineCount w s evs (s.setWorker w { s.workers w with pc := .loop })) := by
  obtain ⟨evs, run⟩ : ∃ evs, SoloRun lineCount w s evs (sweepAlone lineCount s w 0) :=
    soloRun_sweepAlone (2 * lineCount - 1) s 0 h0 (by omega) hpc
  refine ⟨evs, ?_⟩
  rcases sweepAlone_zero lineCount w r with
    ⟨t, line, rest, hft, hl, hrep, he⟩ | ⟨hnil, he⟩
  · exact .inl ⟨t, line, rest, hft, hl, hrep, he ▸ run⟩
  · exact .inr ⟨hnil, he ▸ run⟩

/-- What worker `w`'s sweep from its start does in `s` when no other thread steps and every
`try_pop` gets its lock, `ls` being the lists of the lines: such a sweep exists, and every such
sweep is a run of the worker alone that pops the head of the first non-empty line in cyclic order
from its hint, or ends back at the top of its loop with every line empty. -/
def SweepOutcome (lineCount : Nat) (s : Pool) (w : Nat) (ls : Nat → List Nat) : Prop :=
  (∃ s', LockedSweep lineCount w s s') ∧ ∀ s', LockedSweep lineCount w s s' →
    (∃ evs, SoloRun lineCount w s evs s') ∧
    ((∃ t line rest, firstTask ls (cyclic (s.workers w).hint.toNat lineCount) = some (t, line) ∧
        ls line = t :: rest ∧ Represents (tryPop s.heap line true).2 (update ls line rest) ∧
        s' = { s with heap := (tryPop s.heap line true).2 }.setWorker w
          { s.workers w with pc := .popped t line }) ∨
      ((∀ line < lineCount, ls line = []) ∧
        s' = s.setWorker w { s.workers w with pc := .loop }))

/-- A worker of a running pool at the start of its sweep, running it alone with every `try_pop`
getting its lock, does what the sequential sweep does. -/
theorem sweep_alone {lineCount : Nat} (hN : 0 < lineCount) {evs : List Event} {s : Pool}
    (hr : Reachable lineCount evs s) {w : Nat} (hw : w < lineCount)
    (hpc : (s.workers w).pc = .sweep 0) :
    ∃ ls, Represents s.heap ls ∧ SweepOutcome lineCount s w ls := by
  obtain ⟨ls, h⟩ := hr.poolLines hN
  have h0 := ((hr.hintInv hN).workers w hw).1
  refine ⟨ls, h.represents,
    ⟨_, lockedSweep_sweepAlone (2 * lineCount - 1) s 0 h0 (by omega) hpc⟩,
    fun s' hs => ⟨hs.soloRun, ?_⟩⟩
  rw [hs.eq_sweepAlone h0 0 hpc (by omega)]
  exact sweepAlone_zero lineCount w h.represents

/-- Task 5 enqueued on line 0 of a pool of two lines; worker 1, whose hint is line 1, then reads
`stop_requested_` unset and `num_tasks_` at 1, and starts its sweep: it misses on line 1 and pops
task 5 from line 0. -/
theorem sweep_alone_after_push : ∃ s, Reachable 2 [.silent, .silent, .silent, .push 5 0, .silent,
    .readStop 1 false, .readTasks 1 1] s ∧ (s.workers 1).pc = .sweep 0 ∧
    (s.workers 1).hint = 1 ∧ (∃ ls, Represents s.heap ls ∧ SweepOutcome 2 s 1 ls) ∧
    ∃ s', LockedSweep 2 1 s s' ∧ (s'.workers 1).pc = .popped 5 0 := by
  have r := Run.tail (Run.refl Pool.init : Run 2 Pool.init [] Pool.init)
    (Step.startEnqueue 5 rfl (by simp [Pool.init]) (by simp [Pool.init]))
  have r := Run.tail r (Step.enqueue (i := 0) (EnqueueStep.clearLinks rfl))
  have r := Run.tail r (Step.enqueue (i := 0) (EnqueueStep.fetchIndex rfl))
  have r := Run.tail r (Step.enqueue (i := 0) (EnqueueStep.probeHit rfl))
  have r := Run.tail r (Step.enqueue (i := 0) (EnqueueStep.increment rfl))
  have r := Run.tail r (Step.worker (w := 1) (by decide) (WorkerStep.loop rfl))
  have r := Run.tail r (Step.worker (w := 1) (by decide) (WorkerStep.checkTasks rfl))
  exact ⟨_, r, rfl, rfl, sweep_alone (by decide) r (by decide) rfl,
    _, .miss rfl rfl (by decide) (.hit rfl rfl), rfl⟩

/-- What the index arithmetic of `enqueue` and `thread_main` guarantees in a pool of `lineCount`
lines. -/
structure IndexSpec (lineCount : Nat) : Prop where
  /-- The cyclic order from any start has every line, once. -/
  cyclic_once : ∀ start, (cyclic start lineCount).Nodup ∧
    ∀ line, line ∈ cyclic start lineCount ↔ line < lineCount
  /-- Whatever `fetch_add` returned, `enqueue` tries the lines in cyclic order from its start,
  and its fallback `push` is on the start. -/
  probe_cyclic : ∀ counter,
    (List.range lineCount).map (probeLine (enqueueStart counter lineCount) · lineCount) =
      cyclic (enqueueStart counter lineCount) lineCount ∧
    enqueueStart counter lineCount % lineCount = enqueueStart counter lineCount
  /-- In every run the hints, the start indices and the lines `enqueue` notifies with are
  lines. -/
  hint_lines : ∀ evs s, Reachable lineCount evs s → HintInv lineCount s
  /-- In every run the `int` sums of the sweep do not overflow, and the sweep goes twice round
  the lines from the hint. -/
  sweep_twice : ∀ evs s, Reachable lineCount evs s → ∀ w < lineCount,
    (∀ i < 2 * lineCount, (i : Int) + (s.workers w).hint < 2 ^ 31) ∧
    (List.range (2 * lineCount)).map ((s.workers w).sweepLine lineCount) =
      cyclic (s.workers w).hint.toNat lineCount ++ cyclic (s.workers w).hint.toNat lineCount
  /-- With every `try_pop` getting its lock, the sweep pops the head of the first non-empty line
  in cyclic order from the hint, and finds nothing only when every line is empty. -/
  sweep_first : ∀ h ls, Represents h ls → ∀ hint,
    sweep h hint lineCount (2 * lineCount) 0 = firstTask ls (cyclic hint lineCount) ∧
    (sweep h hint lineCount (2 * lineCount) 0 = none ↔ ∀ line < lineCount, ls line = [])

theorem index_arithmetic {lineCount : Nat} (h1 : 1 ≤ lineCount) (h2 : lineCount ≤ 2 ^ 29) :
    IndexSpec lineCount where
  cyclic_once _ := ⟨cyclic_nodup _ _, fun _ => mem_cyclic⟩
  probe_cyclic _ := ⟨probe_lines (by omega) (enqueueStart_lt h1),
    Nat.mod_eq_of_lt (enqueueStart_lt h1)⟩
  hint_lines _ _ hr := hr.hintInv h1
  sweep_twice _ _ hr w hw := by
    obtain ⟨h0, hlt, -⟩ := (hr.hintInv h1).workers w hw
    exact ⟨fun i hi => by omega, Worker.sweep_lines h0⟩
  sweep_first _ _ r hint := by
    rw [sweep_eq_firstTask r]
    exact ⟨rfl, firstTask_cyclic_eq_none⟩

/-- Three lines: a `fetch_add` that returned 7 starts `enqueue` on line 1. -/
theorem index_arithmetic_three : 1 ≤ 3 ∧ 3 ≤ 2 ^ 29 ∧ IndexSpec 3 ∧
    cyclic (enqueueStart 7 3) 3 = [1, 2, 0] :=
  ⟨by decide, by decide, index_arithmetic (by decide) (by decide), by decide⟩

end Concore2full.ThreadPool
