import Concore2full.WorkLine.Abstraction
import Mathlib.Data.Int.Defs
import Mathlib.Data.Nat.ModEq

/-! The index arithmetic of `thread_pool.cpp`. `enqueue` reads the round-robin counter as a
`uint32_t` and tries the lines `(index + i) % work_line_count` in `uint32_t`; the sweep of
`thread_main` tries the lines `(i + work_line_hint) % work_line_count` in `int`, for `i` below twice
the number of lines. With fewer than `2^31` lines none of these sums wraps; both walks go round the
lines in cyclic order, the probe once and the sweep twice. Over lines that do not change while it
runs, with no `try_pop` failing on a contended lock, the sweep finds the head of the first
non-empty line from the hint. -/

namespace Concore2full.ThreadPool

open WorkLine

/-- `line_to_push_to_.fetch_add(1) % work_line_count` read as `uint32_t`: where `enqueue` starts. -/
def enqueueStart (counter lineCount : Nat) : Nat := counter % 2 ^ 32 % lineCount

/-- `(index + i) % work_line_count` in `uint32_t`: the line of the `i`-th `try_push` of
`enqueue`. -/
def probeLine (index i lineCount : Nat) : Nat := (index + i) % 2 ^ 32 % lineCount

/-- `(i + work_line_hint) % work_line_count` in `int`: the line of the `i`-th `try_pop` of the
sweep in `thread_main`. -/
def sweepLine (i : Nat) (hint : Int) (lineCount : Nat) : Int := ((i : Int) + hint).tmod lineCount

/-- The sweep of `thread_main` from its `i`-th `try_pop`, over lines that do not change while it
runs and with every `try_pop` getting its lock: the task it pops and the line. -/
def sweep (h : Heap) (hint lineCount : Nat) : Nat → Nat → Option (Nat × Nat)
  | 0, _ => none
  | fuel + 1, i =>
    match (tryPop h ((i + hint) % lineCount) true).1 with
    | some t => some (t, (i + hint) % lineCount)
    | none => sweep h hint lineCount fuel (i + 1)

/-- The head of the first non-empty list among the lines `lines`, with its line. -/
def firstTask (ls : Nat → List Nat) (lines : List Nat) : Option (Nat × Nat) :=
  lines.findSome? fun line => (ls line).head?.map (·, line)

/-- The lines from `start` in cyclic order: `start % N, (start + 1) % N, …`, `N` of them. -/
def cyclic (start lineCount : Nat) : List Nat :=
  (List.range lineCount).map fun i => (start + i) % lineCount

theorem enqueueStart_lt {counter lineCount : Nat} (hN : 0 < lineCount) :
    enqueueStart counter lineCount < lineCount := Nat.mod_lt _ hN

theorem probeLine_lt {index i lineCount : Nat} (hN : 0 < lineCount) :
    probeLine index i lineCount < lineCount := Nat.mod_lt _ hN

theorem probeLine_eq {index i lineCount : Nat} (hN : lineCount ≤ 2 ^ 31)
    (hidx : index < lineCount) (hi : i < lineCount) :
    probeLine index i lineCount = (index + i) % lineCount := by
  have : index + i < 2 ^ 32 := by omega
  rw [probeLine, Nat.mod_eq_of_lt this]

theorem sweepLine_eq {i lineCount : Nat} {hint : Int} (h0 : 0 ≤ hint) :
    sweepLine i hint lineCount = ((i + hint.toNat) % lineCount : Nat) := by
  rw [sweepLine, Int.tmod_eq_emod (by omega) (Int.natCast_nonneg _), Int.natCast_mod]
  congr 1
  omega

/-- The cyclic order from any start goes through every line once. -/
theorem cyclic_nodup (start lineCount : Nat) : (cyclic start lineCount).Nodup := by
  refine (List.nodup_range lineCount).map_on fun i hi j hj hij => ?_
  have h2 : i % lineCount = j % lineCount := Nat.ModEq.add_left_cancel' start hij
  rw [List.mem_range] at hi hj
  rwa [Nat.mod_eq_of_lt hi, Nat.mod_eq_of_lt hj] at h2

theorem mem_cyclic {start lineCount line : Nat} :
    line ∈ cyclic start lineCount ↔ line < lineCount := by
  constructor
  · rw [cyclic, List.mem_map]
    rintro ⟨i, hi, rfl⟩
    exact Nat.mod_lt _ (by rw [List.mem_range] at hi; omega)
  · intro hl
    rw [cyclic, List.mem_map]
    have hr := Nat.mod_lt start (show 0 < lineCount by omega)
    refine ⟨if start % lineCount ≤ line then line - start % lineCount
      else line + lineCount - start % lineCount, by rw [List.mem_range]; split <;> omega, ?_⟩
    rw [Nat.add_mod, Nat.mod_eq_of_lt (show (if start % lineCount ≤ line then
      line - start % lineCount else line + lineCount - start % lineCount) < lineCount by
        split <;> omega)]
    split
    · rw [show start % lineCount + (line - start % lineCount) = line by omega,
        Nat.mod_eq_of_lt hl]
    · rw [show start % lineCount + (line + lineCount - start % lineCount) = line + lineCount by
        omega, Nat.add_mod_right, Nat.mod_eq_of_lt hl]

theorem count_cyclic {start lineCount line : Nat} (hl : line < lineCount) :
    (cyclic start lineCount).count line = 1 :=
  List.count_eq_one_of_mem (cyclic_nodup _ _) (mem_cyclic.mpr hl)

/-- The lines the sweep tries: twice round the lines from the hint. -/
theorem sweep_lines (hint lineCount : Nat) :
    (List.range (2 * lineCount)).map (fun i => (i + hint) % lineCount) =
      cyclic hint lineCount ++ cyclic hint lineCount := by
  rw [two_mul, List.range_add, List.map_append, List.map_map]
  congr 1
  · simp only [cyclic, Nat.add_comm]
  · simp only [cyclic, Function.comp_def]
    congr 1
    funext i
    rw [show lineCount + i + hint = hint + i + lineCount by omega, Nat.add_mod_right]

/-- Each try of the sweep pops the head of the line it tries, when there is one. -/
theorem sweep_eq_findSome {h : Heap} {ls : Nat → List Nat} (r : Represents h ls)
    (hint lineCount : Nat) :
    ∀ fuel i, sweep h hint lineCount fuel i =
      firstTask ls ((List.range fuel).map fun j => (i + j + hint) % lineCount) := by
  intro fuel
  induction fuel with
  | zero => intro i; rfl
  | succ fuel ih =>
    intro i
    rw [sweep, r.tryPop_fst, List.range_succ_eq_map, List.map_cons, List.map_map, firstTask,
      List.findSome?_cons, ih (i + 1)]
    simp only [Nat.add_zero, firstTask, Function.comp_def]
    cases (ls ((i + hint) % lineCount)).head? with
    | some t => rfl
    | none =>
      simp only [Option.map_none']
      congr 2
      funext j
      rw [show i + 1 + j = i + (j + 1) by omega]

/-- The whole sweep finds the head of the first non-empty line in cyclic order from the hint: the
second round only repeats the first. -/
theorem sweep_eq_firstTask {h : Heap} {ls : Nat → List Nat} (r : Represents h ls)
    (hint lineCount : Nat) :
    sweep h hint lineCount (2 * lineCount) 0 = firstTask ls (cyclic hint lineCount) := by
  have hl := sweep_lines hint lineCount
  simp only [Nat.zero_add] at hl ⊢
  rw [sweep_eq_findSome r, show (fun j => (0 + j + hint) % lineCount) =
    fun j => (j + hint) % lineCount by funext j; rw [Nat.zero_add], hl]
  unfold firstTask
  rw [List.findSome?_append]
  cases List.findSome? (fun line => (ls line).head?.map (·, line)) (cyclic hint lineCount) <;> rfl

theorem firstTask_cyclic_eq_none {ls : Nat → List Nat} {start lineCount : Nat} :
    firstTask ls (cyclic start lineCount) = none ↔ ∀ line < lineCount, ls line = [] := by
  simp only [firstTask, List.findSome?_eq_none_iff, Option.map_eq_none', List.head?_eq_none_iff]
  exact ⟨fun h line hl => h line (mem_cyclic.mpr hl),
    fun h line hl => h line (mem_cyclic.mp hl)⟩

end Concore2full.ThreadPool
