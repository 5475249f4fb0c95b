import Concore2full.WorkLine.Abstraction

/-! The work lines over every sequence of operations. From empty lines, any sequence of
`push_unprotected` (of a task in no line), `pop_unprotected` and `work_line::extract_task` (of a
task whose `worker_data_` is null or this line) keeps `Represents`, so `check_list` ends without a
failed assertion and the assertions of `extract_task` hold. The second part states the work line as
an implementation of a stack of tasks with removal: what each operation does to the represented
lists. -/

namespace Concore2full.WorkLine

open Heap Function

/-- An operation on a work line, as `thread_pool.cpp` calls it under the line's lock. -/
inductive LineOp
  /-- `push_unprotected`, through `try_push` or `push` -/
  | push (line task : Nat)
  /-- `pop_unprotected`, through `try_pop` -/
  | pop (line : Nat)
  /-- `work_line::extract_task` -/
  | extract (line task : Nat)
  deriving DecidableEq, Repr

/-- What the callers of an operation guarantee: a pushed task is in no line, and a task is
extracted from the line its `worker_data_` names, if any. -/
def LineOp.Allowed (h : Heap) : LineOp → Prop
  | .push _ task => h.workerData task = none
  | .pop _ => True
  | .extract line task => h.workerData task = none ∨ h.workerData task = some line

/-- The heap after an operation. -/
def LineOp.apply (h : Heap) : LineOp → Heap
  | .push line task => pushUnprotected h line task
  | .pop line => (popUnprotected h line).2
  | .extract line task => (extractTask h line task).2

/-- The heaps reached from empty lines by allowed operations. -/
inductive LineReachable : Heap → Prop
  | empty : LineReachable Heap.empty
  | step {h : Heap} {op : LineOp} : LineReachable h → op.Allowed h → LineReachable (op.apply h)

namespace Represents

variable {h : Heap} {ls : Nat → List Nat}

theorem checkListHolds (r : Represents h ls) (line : Nat) :
    CheckListHolds h line (h.tasksStack line) :=
  ⟨(ls line).length + 1, r.checkList_eq line _ (Nat.lt_succ_self _)⟩

/-- The operations keep the invariant. -/
theorem apply (r : Represents h ls) {op : LineOp} (hop : op.Allowed h) :
    ∃ ls', Represents (op.apply h) ls' := by
  cases op with
  | push line t => exact ⟨_, r.pushUnprotected hop⟩
  | pop line =>
    cases hl : ls line with
    | nil =>
      exact ⟨ls, by
        simpa [LineOp.apply, WorkLine.popUnprotected, r.tasksStack_eq_none hl] using r⟩
    | cons t rest => exact ⟨_, (r.popUnprotected hl).2.1⟩
  | extract line t =>
    cases hw : h.workerData t with
    | none => exact ⟨ls, by simpa [LineOp.apply, extractTask_of_workerData_none hw] using r⟩
    | some L =>
      obtain ⟨pre, post, hl⟩ := List.append_of_mem (r.owner t L hw)
      exact ⟨_, (r.extractTask line hl).2.1⟩

/-- The assertions of `work_line::extract_task` hold when the task's `worker_data_` is null or
the line. -/
theorem extractTaskAsserts (r : Represents h ls) {line t : Nat}
    (ht : h.workerData t = none ∨ h.workerData t = some line) : ExtractTaskAsserts h line t := by
  refine ⟨r.checkListHolds line, r.headLinked line, fun hne => ?_⟩
  have hw : h.workerData t = some line := ht.resolve_left hne
  obtain ⟨pre, post, hl⟩ := List.append_of_mem (r.owner t line hw)
  have hc := r.chain line
  rw [hl, chain_append, chain_cons] at hc
  obtain ⟨-, r', hwd, -⟩ := r.extractTask line hl
  refine ⟨hw, ⟨_, hc.2.2.1, hc.2.1⟩, fun htop => ?_, r'.headLinked line,
    r'.checkListHolds line⟩
  have := r'.workerData_of_mem (r'.mem_of_tasksStack htop)
  rw [hwd] at this
  cases this

end Represents

/-- The work-line invariant for the lists `ls`, with what follows from it for the assertions of
`thread_pool.cpp`: each line's chain ends after finitely many distinct tasks, each task's
`prev_link_` points at the slot before it and its `worker_data_` at the line, no task is on two
chains, and a task has a non-null `worker_data_` exactly when it is on a chain; `check_list` ends
without a failed assertion on every line, and the assertions of `work_line::extract_task` hold for
the tasks it may be called with. -/
structure LinesInvariant (h : Heap) (ls : Nat → List Nat) : Prop where
  represents : Represents h ls
  disjoint : ∀ t l1 l2, t ∈ ls l1 → t ∈ ls l2 → l1 = l2
  workerData_ne_none : ∀ t, h.workerData t ≠ none ↔ ∃ line, t ∈ ls line
  checkList : ∀ line, CheckListHolds h line (h.tasksStack line)
  extractTask_asserts : ∀ line t, h.workerData t = none ∨ h.workerData t = some line →
    ExtractTaskAsserts h line t

theorem Represents.linesInvariant {h : Heap} {ls : Nat → List Nat} (r : Represents h ls) :
    LinesInvariant h ls := by
  refine ⟨r, fun t l1 l2 => r.line_eq, fun t => ?_, r.checkListHolds,
    fun _ _ => r.extractTaskAsserts⟩
  constructor
  · intro hne
    obtain ⟨line, hline⟩ := Option.ne_none_iff_exists'.mp hne
    exact ⟨line, r.owner t line hline⟩
  · rintro ⟨line, hm⟩
    simp [r.workerData_of_mem hm]

/-- Every heap reached from empty lines by allowed operations satisfies the work-line invariant. -/
theorem lineReachable_invariant {h : Heap} (hr : LineReachable h) :
    ∃ ls, LinesInvariant h ls := by
  induction hr with
  | empty => exact ⟨_, represents_empty.linesInvariant⟩
  | step _ hop ih =>
    obtain ⟨ls, hi⟩ := ih
    obtain ⟨ls', r'⟩ := hi.represents.apply hop
    exact ⟨ls', r'.linesInvariant⟩

/-- Tasks 1 to 5 pushed on line 0 and 6 and 7 on line 1; line 0 popped, then tasks 4, 2 and 1
extracted from its head, middle and tail; line 1 popped, an extraction of task 9, in no line,
and task 5 pushed back on line 0: the lines hold 5, 3 and 6 and satisfy the invariant. -/
theorem lineReachable_invariant_ops : ∃ h, LineReachable h ∧ h.tasksStack 0 = some 5 ∧
    h.next 5 = some 3 ∧ h.next 3 = none ∧ h.tasksStack 1 = some 6 ∧ ∃ ls, LinesInvariant h ls := by
  have r := @LineReachable.step _ (.push 0 1) .empty rfl
  have r := @LineReachable.step _ (.push 0 2) r rfl
  have r := @LineReachable.step _ (.push 0 3) r rfl
  have r := @LineReachable.step _ (.push 0 4) r rfl
  have r := @LineReachable.step _ (.push 0 5) r rfl
  have r := @LineReachable.step _ (.push 1 6) r rfl
  have r := @LineReachable.step _ (.push 1 7) r rfl
  have r := @LineReachable.step _ (.pop 0) r trivial
  have r := @LineReachable.step _ (.extract 0 4) r (.inr rfl)
  have r := @LineReachable.step _ (.extract 0 2) r (.inr rfl)
  have r := @LineReachable.step _ (.extract 0 1) r (.inr rfl)
  have r := @LineReachable.step _ (.pop 1) r trivial
  have r := @LineReachable.step _ (.extract 1 9) r (.inl rfl)
  have r := @LineReachable.step _ (.push 0 5) r rfl
  exact ⟨_, r, rfl, rfl, rfl, rfl, lineReachable_invariant r⟩

/-! ### The work line as a stack with removal -/

/-- What the operations on line `line` do to the lists `ls` a heap represents, for a task `t` that
the callers may pass: each result is stated as the new lists, so the other lines keep theirs. -/
structure StackSpec (h : Heap) (ls : Nat → List Nat) (line t : Nat) : Prop where
  /-- `push`, or a `try_push` that gets the lock, of a task in no line puts it in front. -/
  push : h.workerData t = none →
    Represents (push h line t) (update ls line (t :: ls line)) ∧
      tryPush h line t true = (true, push h line t)
  /-- A `try_push` that does not get the lock changes nothing. -/
  tryPush_contended : tryPush h line t false = (false, h)
  /-- `try_pop` returns null and changes nothing when contended or when the list is empty. -/
  tryPop_none : ∀ acquired, acquired = false ∨ ls line = [] →
    tryPop h line acquired = (none, h)
  /-- Otherwise it returns the head, with its back-pointers cleared, and leaves the tail. -/
  tryPop_head : ∀ top rest, ls line = top :: rest →
    (tryPop h line true).1 = some top ∧
      Represents (tryPop h line true).2 (update ls line rest) ∧
      (tryPop h line true).2.workerData top = none ∧ (tryPop h line true).2.prevLink top = none
  /-- `extract_task` of a task whose `worker_data_` is null or the line returns whether the task is
  in the list, removes it keeping the others in order, and clears its back-pointers. -/
  extract : h.workerData t = none ∨ h.workerData t = some line →
    ((extractTask h line t).1 = true ↔ t ∈ ls line) ∧
    (t ∈ ls line →
      Represents (extractTask h line t).2 (update ls line ((ls line).erase t)) ∧
      (extractTask h line t).2.workerData t = none ∧
        (extractTask h line t).2.prevLink t = none) ∧
    (t ∉ ls line → extractTask h line t = (false, h))

/-- Under the work-line invariant the intrusive list of a line implements a stack of tasks with
removal of any element, for the tasks the callers may pass. -/
theorem work_line_ops_refine_stack {h : Heap} {ls : Nat → List Nat} (r : Represents h ls)
    (line t : Nat) : StackSpec h ls line t := by
  refine ⟨fun ht => ⟨r.pushUnprotected ht, rfl⟩, rfl, fun acquired hc => ?_,
    fun top rest hl => ?_, fun ht => ?_⟩
  · exact r.tryPop_none hc
  · simpa [r.tryPop_cons hl] using r.popUnprotected hl
  · cases hw : h.workerData t with
    | none =>
      have hnm := r.not_mem hw line
      simp [extractTask_of_workerData_none hw, hnm]
    | some L =>
      obtain rfl : L = line := by simpa [hw] using ht
      have hm : t ∈ ls L := r.owner t L hw
      obtain ⟨pre, post, hl⟩ := List.append_of_mem hm
      obtain ⟨h1, r', h3, h4⟩ := r.extractTask L hl
      have hnd := r.nodup L
      rw [hl, List.nodup_append] at hnd
      have htpre : t ∉ pre := fun e => hnd.2.2 e (List.mem_cons_self _ _)
      have herase : (ls L).erase t = pre ++ post := by
        rw [hl, List.erase_append_right _ htpre, List.erase_cons_head]
      simp [h1, hm, herase, r', h3, h4]

/-- Tasks 1, 2 and 3 pushed on line 0: the operations on line 0 with task 2, in the middle of its
list, do what `StackSpec` says. -/
theorem work_line_ops_refine_stack_middle : ∃ h ls, Represents h ls ∧ ls 0 = [3, 2, 1] ∧
    StackSpec h ls 0 2 := by
  have r := @Represents.pushUnprotected _ _ represents_empty 0 1 rfl
  have r := @Represents.pushUnprotected _ _ r 0 2 rfl
  have r := @Represents.pushUnprotected _ _ r 0 3 rfl
  exact ⟨_, _, r, by simp, work_line_ops_refine_stack r 0 2⟩

/-- `work_line::extract_task` called on line 0 for the task 5 of line 1 returns `true`, though 5
is not in the list of line 0, and it empties line 1. -/
theorem extractTask_from_other_line :
    Represents (pushUnprotected Heap.empty 1 5) (update (fun _ => []) 1 [5]) ∧
      (extractTask (pushUnprotected Heap.empty 1 5) 0 5).1 = true ∧
      5 ∉ update (fun _ => ([] : List Nat)) 1 [5] 0 ∧
      Represents (extractTask (pushUnprotected Heap.empty 1 5) 0 5).2 (fun _ => []) := by
  have r : Represents (pushUnprotected Heap.empty 1 5) (update (fun _ => []) 1 [5]) :=
    represents_empty.pushUnprotected rfl
  have hl : update (fun _ => ([] : List Nat)) 1 [5] 1 = [] ++ 5 :: [] := rfl
  obtain ⟨h1, r', -⟩ := r.extractTask 0 hl
  refine ⟨r, h1, by simp, ?_⟩
  convert r' using 1
  funext L
  by_cases hL : L = 1 <;> simp [hL]

end Concore2full.WorkLine
