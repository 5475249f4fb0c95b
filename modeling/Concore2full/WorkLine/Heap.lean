import Mathlib.Logic.Function.Basic

/-! The intrusive task lists of `thread_pool::work_line`: the fields `next_`, `prev_link_` and
`worker_data_` of `concore2full_task`, the head `tasks_stack_` of every work line, and the
operations of `thread_pool.cpp` that change them while the line's lock is held. A task pointer is
the task's number and a `work_line*` is the line's index in `work_lines_`. A `prev_link_`, of type
`concore2full_task**`, points either at a line's `tasks_stack_` or at a task's `next_`: a `Slot`.
The operations are those of a release build; their assertions are the predicates `checkList` and
`ExtractTaskAsserts`, which the invariant of `WorkLine.Invariant` shows to hold. -/

namespace Concore2full.WorkLine

/-- The place a `prev_link_` points to. -/
inductive Slot
  | head (line : Nat)
  | next (task : Nat)
  deriving DecidableEq, Repr

/-- The fields of every task and the head of every work line. -/
structure Heap where
  /-- `concore2full_task::next_` -/
  next : Nat → Option Nat
  /-- `concore2full_task::prev_link_` -/
  prevLink : Nat → Option Slot
  /-- `concore2full_task::worker_data_`: the line that holds the task. -/
  workerData : Nat → Option Nat
  /-- `work_line::tasks_stack_` -/
  tasksStack : Nat → Option Nat

namespace Heap

/-- Empty lines, and tasks whose fields are all null. -/
def empty : Heap := ⟨fun _ => none, fun _ => none, fun _ => none, fun _ => none⟩

/-- `*slot` -/
def read (h : Heap) : Slot → Option Nat
  | .head line => h.tasksStack line
  | .next task => h.next task

/-- `*slot = v` -/
def write (h : Heap) : Slot → Option Nat → Heap
  | .head line, v => { h with tasksStack := Function.update h.tasksStack line v }
  | .next task, v => { h with next := Function.update h.next task v }

/-- `task->prev_link_ = v` -/
def setPrevLink (h : Heap) (task : Nat) (v : Option Slot) : Heap :=
  { h with prevLink := Function.update h.prevLink task v }

/-- `task->worker_data_ = v` -/
def setWorkerData (h : Heap) (task : Nat) (v : Option Nat) : Heap :=
  { h with workerData := Function.update h.workerData task v }

@[simp] theorem read_head (h : Heap) (line : Nat) : h.read (.head line) = h.tasksStack line := rfl

@[simp] theorem read_next (h : Heap) (task : Nat) : h.read (.next task) = h.next task := rfl

@[simp] theorem write_prevLink (h : Heap) (s : Slot) (v : Option Nat) :
    (h.write s v).prevLink = h.prevLink := by cases s <;> rfl

@[simp] theorem write_workerData (h : Heap) (s : Slot) (v : Option Nat) :
    (h.write s v).workerData = h.workerData := by cases s <;> rfl

@[simp] theorem write_head_tasksStack (h : Heap) (line : Nat) (v : Option Nat) :
    (h.write (.head line) v).tasksStack = Function.update h.tasksStack line v := rfl

@[simp] theorem write_head_next (h : Heap) (line : Nat) (v : Option Nat) :
    (h.write (.head line) v).next = h.next := rfl

@[simp] theorem write_next_tasksStack (h : Heap) (task : Nat) (v : Option Nat) :
    (h.write (.next task) v).tasksStack = h.tasksStack := rfl

@[simp] theorem write_next_next (h : Heap) (task : Nat) (v : Option Nat) :
    (h.write (.next task) v).next = Function.update h.next task v := rfl

/-- Writing a task's own `next_` back to a slot leaves that `next_` as it was. -/
@[simp] theorem write_next_self (h : Heap) (s : Slot) (t : Nat) :
    (h.write s (h.next t)).next t = h.next t := by
  cases s <;> simp [write, Function.update_apply]

theorem read_write (h : Heap) (s s' : Slot) (v : Option Nat) :
    (h.write s v).read s' = if s' = s then v else h.read s' := by
  cases s <;> cases s' <;> simp [read, write, Function.update_apply]

@[simp] theorem setPrevLink_read (h : Heap) (t : Nat) (v : Option Slot) :
    (h.setPrevLink t v).read = h.read := by
  funext s; cases s <;> rfl

@[simp] theorem setPrevLink_next (h : Heap) (t : Nat) (v : Option Slot) :
    (h.setPrevLink t v).next = h.next := rfl

@[simp] theorem setPrevLink_tasksStack (h : Heap) (t : Nat) (v : Option Slot) :
    (h.setPrevLink t v).tasksStack = h.tasksStack := rfl

@[simp] theorem setPrevLink_workerData (h : Heap) (t : Nat) (v : Option Slot) :
    (h.setPrevLink t v).workerData = h.workerData := rfl

@[simp] theorem setPrevLink_prevLink (h : Heap) (t : Nat) (v : Option Slot) :
    (h.setPrevLink t v).prevLink = Function.update h.prevLink t v := rfl

@[simp] theorem setWorkerData_read (h : Heap) (t : Nat) (v : Option Nat) :
    (h.setWorkerData t v).read = h.read := by
  funext s; cases s <;> rfl

@[simp] theorem setWorkerData_next (h : Heap) (t : Nat) (v : Option Nat) :
    (h.setWorkerData t v).next = h.next := rfl

@[simp] theorem setWorkerData_tasksStack (h : Heap) (t : Nat) (v : Option Nat) :
    (h.setWorkerData t v).tasksStack = h.tasksStack := rfl

@[simp] theorem setWorkerData_prevLink (h : Heap) (t : Nat) (v : Option Nat) :
    (h.setWorkerData t v).prevLink = h.prevLink := rfl

@[simp] theorem setWorkerData_workerData (h : Heap) (t : Nat) (v : Option Nat) :
    (h.setWorkerData t v).workerData = Function.update h.workerData t v := rfl

end Heap

open Heap

/-- `work_line::push_unprotected`: `task` goes in front of the list of `line`. -/
def pushUnprotected (h : Heap) (line task : Nat) : Heap :=
  let h := h.setWorkerData task (some line)
  let h := h.write (.next task) (h.tasksStack line)
  let h := match h.tasksStack line with
    | some top => h.setPrevLink top (some (.next task))
    | none => h
  let h := h.setPrevLink task (some (.head line))
  h.write (.head line) (some task)

/-- `work_line::pop_unprotected`: the first task of `line` comes off its list. -/
def popUnprotected (h : Heap) (line : Nat) : Option Nat × Heap :=
  match h.tasksStack line with
  | none => (none, h)
  | some res =>
    let h := h.write (.head line) (h.next res)
    let h := match h.tasksStack line with
      | some top => h.setPrevLink top (some (.head line))
      | none => h
    let h := h.setPrevLink res none
    (some res, h.setWorkerData res none)

/-- `work_line::try_push`; `acquired` is whether `std::try_to_lock` got the lock. -/
def tryPush (h : Heap) (line task : Nat) (acquired : Bool) : Bool × Heap :=
  if acquired then (true, pushUnprotected h line task) else (false, h)

/-- `work_line::push`, which waits for the lock. -/
def push (h : Heap) (line task : Nat) : Heap := pushUnprotected h line task

/-- `work_line::try_pop`; `acquired` is whether `std::try_to_lock` got the lock. -/
def tryPop (h : Heap) (line : Nat) (acquired : Bool) : Option Nat × Heap :=
  if acquired && (h.tasksStack line).isSome then popUnprotected h line else (none, h)

/-- `work_line::extract_task` on the line `_line`, as a release build runs it. With the assertions
compiled out, nothing compares `task->worker_data_` with the line: the line only names the lock
taken, which is the caller's step, and the body is the same whatever line it is called on. A null
`prev_link_` is never written through: the assertion `task->prev_link_` before the write excludes
it. -/
def extractTask (h : Heap) (_line task : Nat) : Bool × Heap :=
  match h.workerData task with
  | none => (false, h)
  | some _ =>
    let h := match h.prevLink task with
      | some slot => h.write slot (h.next task)
      | none => h
    let h := match h.next task with
      | some nxt => h.setPrevLink nxt (h.prevLink task)
      | none => h
    let h := h.setWorkerData task none
    (true, h.setPrevLink task none)

/-- `check_list(head, data)` with its loop bounded by `fuel`: `none` when the fuel runs out before
the end of the list, `some false` when one of its assertions fails. -/
def checkList (h : Heap) (data : Nat) : Nat → Option Nat → Option Bool
  | _, none => some true
  | 0, some _ => none
  | fuel + 1, some cur =>
    match h.prevLink cur with
    | none => some false
    | some slot =>
      if h.read slot = some cur ∧ h.workerData cur = some data then
        checkList h data fuel (h.next cur)
      else some false

/-- The tasks met by following `next_` from `start`, at most `fuel` of them. -/
def follow (h : Heap) : Nat → Option Nat → List Nat
  | 0, _ => []
  | _ + 1, none => []
  | fuel + 1, some t => t :: follow h fuel (h.next t)

/-- `!tasks_stack_ || tasks_stack_->prev_link_ == &tasks_stack_` -/
def headLinked (h : Heap) (line : Nat) : Prop :=
  ∀ top, h.tasksStack line = some top → h.prevLink top = some (.head line)

/-- `check_list` returns, every assertion in it holding. -/
def CheckListHolds (h : Heap) (data : Nat) (start : Option Nat) : Prop :=
  ∃ fuel, checkList h data fuel start = some true

/-- The assertions of `work_line::extract_task`, before and after the task is unlinked. -/
def ExtractTaskAsserts (h : Heap) (line task : Nat) : Prop :=
  CheckListHolds h line (h.tasksStack line) ∧ headLinked h line ∧
    (h.workerData task ≠ none →
      h.workerData task = some line ∧
      (∃ slot, h.prevLink task = some slot ∧ h.read slot = some task) ∧
      (let h' := (extractTask h line task).2
       h'.tasksStack line ≠ some task ∧ headLinked h' line ∧
       CheckListHolds h' line (h'.tasksStack line)))

end Concore2full.WorkLine
