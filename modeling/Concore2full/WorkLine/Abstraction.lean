import Concore2full.WorkLine.Chain

/-! The representation invariant of the work lines and what each operation does to the lists it
represents. `Represents h ls` says that the chain of every line `line` holds `ls line`; since a slot
holds at most one chain (`Chain.unique`), `ls` is a function of the heap: it is `abs` of the spec,
the list reached by following `next_` from `tasks_stack_` (`Represents.follow_eq`). -/

namespace Concore2full.WorkLine

open Heap Function

/-- The work-line invariant: the chain of each line holds `ls line` without repeating a task, and
a task has a non-null `worker_data_` only when it is on the chain of that line. -/
structure Represents (h : Heap) (ls : Nat → List Nat) : Prop where
  chain : ∀ line, Chain h line (.head line) (ls line)
  nodup : ∀ line, (ls line).Nodup
  owner : ∀ task line, h.workerData task = some line → task ∈ ls line

theorem represents_empty : Represents Heap.empty (fun _ => []) :=
  ⟨fun _ => by simp [Heap.empty], fun _ => List.nodup_nil,
    fun _ _ h => by simp [Heap.empty] at h⟩

namespace Represents

variable {h : Heap} {ls : Nat → List Nat}

theorem workerData_of_mem (r : Represents h ls) {t line : Nat} (ht : t ∈ ls line) :
    h.workerData t = some line :=
  (r.chain line).1.workerData t ht

theorem mem_iff (r : Represents h ls) {t line : Nat} :
    t ∈ ls line ↔ h.workerData t = some line :=
  ⟨r.workerData_of_mem, r.owner t line⟩

theorem not_mem (r : Represents h ls) {t : Nat} (ht : h.workerData t = none) (line : Nat) :
    t ∉ ls line := fun hm => by simp [r.workerData_of_mem hm] at ht

/-- No task is on two lines. -/
theorem line_eq (r : Represents h ls) {t l1 l2 : Nat} (h1 : t ∈ ls l1) (h2 : t ∈ ls l2) :
    l1 = l2 :=
  Option.some.inj ((r.workerData_of_mem h1).symm.trans (r.workerData_of_mem h2))

/-- The lists are determined by the heap. -/
theorem unique (r : Represents h ls) {ls' : Nat → List Nat} (r' : Represents h ls') : ls = ls' :=
  funext fun line => (r.chain line).unique (r'.chain line)

/-- `ls line` is the list reached by following `next_` from the line's `tasks_stack_`. -/
theorem follow_eq (r : Represents h ls) (line fuel : Nat) (hf : (ls line).length ≤ fuel) :
    follow h fuel (h.tasksStack line) = ls line :=
  (r.chain line).follow hf

/-- `check_list` on any line ends and none of its assertions fails. -/
theorem checkList_eq (r : Represents h ls) (line fuel : Nat) (hf : (ls line).length < fuel) :
    checkList h line fuel (h.tasksStack line) = some true :=
  (r.chain line).checkList hf

theorem headLinked (r : Represents h ls) (line : Nat) : headLinked h line := by
  intro top htop
  have hc := r.chain line
  cases hl : ls line with
  | nil => rw [hl, chain_nil, read_head] at hc; simp [hc] at htop
  | cons t l =>
    rw [hl, chain_cons] at hc
    obtain rfl : t = top := Option.some.inj (hc.1.symm.trans htop)
    exact hc.2.1

/-- The chain of a line is unchanged by a heap that agrees on the line's head and on the fields of
its tasks. -/
theorem chain_of_agree (r : Represents h ls) {h' : Heap} {line : Nat}
    (hs : h'.read (.head line) = h.read (.head line))
    (hf : ∀ u ∈ ls line, h'.read (.next u) = h.read (.next u) ∧
      h'.prevLink u = h.prevLink u ∧ h'.workerData u = h.workerData u) :
    Chain h' line (.head line) (ls line) := by
  refine (Chain.congr ?_ fun u hu => ⟨(hf u hu).2.1, (hf u hu).2.2⟩).mpr (r.chain line)
  simp only [List.mem_cons, List.mem_map]
  rintro x (rfl | ⟨u, hu, rfl⟩)
  · exact hs
  · exact (hf u hu).1

end Represents

namespace Represents

variable {h : Heap} {ls : Nat → List Nat}

theorem mem_of_tasksStack (r : Represents h ls) {line t : Nat} (ht : h.tasksStack line = some t) :
    t ∈ ls line := by
  have hc := r.chain line
  cases hl : ls line with
  | nil => rw [hl, chain_nil, read_head, ht] at hc; cases hc
  | cons u l => rw [hl, chain_cons, read_head, ht] at hc; simp [Option.some.inj hc.1]

theorem tasksStack_eq_none (r : Represents h ls) {line : Nat} (hl : ls line = []) :
    h.tasksStack line = none := by
  simpa [hl] using r.chain line

/-- A `try_pop` on a line with an empty list, or one that does not get the lock, does nothing. -/
theorem tryPop_none (r : Represents h ls) {line : Nat} {acquired : Bool}
    (hc : acquired = false ∨ ls line = []) : tryPop h line acquired = (none, h) := by
  rcases hc with rfl | hl
  · simp [tryPop]
  · simp [tryPop, r.tasksStack_eq_none hl]

theorem tryPop_cons (r : Represents h ls) {line t : Nat} {rest : List Nat}
    (hl : ls line = t :: rest) : tryPop h line true = popUnprotected h line := by
  have hc := r.chain line
  rw [hl, chain_cons, read_head] at hc
  simp [tryPop, hc.1]

end Represents

/-! ### `push_unprotected` -/

section Push

variable (h : Heap) (line t : Nat)

@[simp] theorem pushUnprotected_tasksStack :
    (pushUnprotected h line t).tasksStack = update h.tasksStack line (some t) := by
  cases hs : h.tasksStack line <;> simp [pushUnprotected, hs]

@[simp] theorem pushUnprotected_next :
    (pushUnprotected h line t).next = update h.next t (h.tasksStack line) := by
  cases hs : h.tasksStack line <;> simp [pushUnprotected, hs]

@[simp] theorem pushUnprotected_workerData :
    (pushUnprotected h line t).workerData = update h.workerData t (some line) := by
  cases hs : h.tasksStack line <;> simp [pushUnprotected, hs]

@[simp] theorem pushUnprotected_prevLink :
    (pushUnprotected h line t).prevLink = update
      (fun u => if h.tasksStack line = some u then some (.next t) else h.prevLink u) t
      (some (.head line)) := by
  cases hs : h.tasksStack line <;> funext u <;> simp [pushUnprotected, hs, update_apply, eq_comm]

end Push

/-- `push_unprotected` of a task in no line puts it in front of its line's list. -/
theorem Represents.pushUnprotected {h : Heap} {ls : Nat → List Nat} (r : Represents h ls)
    {line t : Nat} (ht : h.workerData t = none) :
    Represents (pushUnprotected h line t) (update ls line (t :: ls line)) := by
  have hnot := r.not_mem ht
  refine ⟨fun L => ?_, fun L => ?_, fun u L hu => ?_⟩
  · by_cases hL : L = line
    · subst hL
      have hc := r.chain L
      simp only [update_same, chain_cons, read_head, pushUnprotected_tasksStack,
        pushUnprotected_prevLink, pushUnprotected_workerData, update_same, true_and]
      cases hl : ls L with
      | nil =>
        rw [hl, chain_nil] at hc
        simpa using hc
      | cons top rest =>
        rw [hl, chain_cons, read_head] at hc
        have htop : top ≠ t := fun e => hnot L (by simp [hl, e])
        have hrest : t ∉ rest := fun e => hnot L (by simp [hl, e])
        have hnd := r.nodup L
        rw [hl, List.nodup_cons] at hnd
        rw [chain_cons]
        refine ⟨by simp [hc.1], by simp [htop, hc.1], by simp [htop, hc.2.2.1], ?_⟩
        refine (Chain.congr ?_ fun u hu => ?_).mpr hc.2.2.2
        · simp only [List.mem_cons, List.mem_map]
          rintro x (rfl | ⟨u, hu, rfl⟩)
          · simp [htop]
          · simp [show u ≠ t from fun e => hrest (e ▸ hu)]
        · have hut : u ≠ t := fun e => hrest (e ▸ hu)
          have hs : h.tasksStack L ≠ some u := by
            rw [hc.1]; exact fun e => hnd.1 (Option.some.inj e ▸ hu)
          simp [hut, hs]
    · simp only [update_noteq hL]
      refine r.chain_of_agree (by simp [hL]) fun u hu => ?_
      have hut : u ≠ t := fun e => hnot L (e ▸ hu)
      have hs : h.tasksStack line ≠ some u := by
        intro e
        have hc := r.chain line
        cases hl : ls line with
        | nil => rw [hl, chain_nil] at hc; simp_all
        | cons top rest =>
          rw [hl, chain_cons] at hc
          exact hL (r.line_eq hu (by rw [hl]; simp [Option.some.inj (hc.1.symm.trans e)]))
      simp [hut, hs, hL]
  · by_cases hL : L = line
    · subst hL; simpa [hnot L] using r.nodup L
    · simpa [hL] using r.nodup L
  · by_cases hut : u = t
    · subst hut
      simp at hu
      subst hu
      simp
    · simp only [pushUnprotected_workerData, update_noteq hut] at hu
      have := r.owner u L hu
      by_cases hL : L = line
      · subst hL; simp [this]
      · simpa [hL] using this


/-! ### `pop_unprotected` -/

section Pop

variable {h : Heap} {line res : Nat} (hs : h.tasksStack line = some res)
include hs

theorem popUnprotected_fst : (popUnprotected h line).1 = some res := by
  simp [popUnprotected, hs]

theorem popUnprotected_tasksStack :
    (popUnprotected h line).2.tasksStack = update h.tasksStack line (h.next res) := by
  cases hn : h.next res <;> simp [popUnprotected, hs, hn]

theorem popUnprotected_next : (popUnprotected h line).2.next = h.next := by
  cases hn : h.next res <;> simp [popUnprotected, hs, hn]

theorem popUnprotected_workerData :
    (popUnprotected h line).2.workerData = update h.workerData res none := by
  cases hn : h.next res <;> simp [popUnprotected, hs, hn]

theorem popUnprotected_prevLink :
    (popUnprotected h line).2.prevLink = update
      (fun u => if h.next res = some u then some (.head line) else h.prevLink u) res none := by
  cases hn : h.next res <;> funext u <;> simp [popUnprotected, hs, hn, update_apply, eq_comm]

end Pop

/-- `pop_unprotected` on a line whose list is `res :: rest` returns `res`, leaves `rest`, and clears
the back-pointers of `res`. -/
theorem Represents.popUnprotected {h : Heap} {ls : Nat → List Nat} (r : Represents h ls)
    {line res : Nat} {rest : List Nat} (hl : ls line = res :: rest) :
    (popUnprotected h line).1 = some res ∧
      Represents (popUnprotected h line).2 (update ls line rest) ∧
      (popUnprotected h line).2.workerData res = none ∧
      (popUnprotected h line).2.prevLink res = none := by
  have hc := r.chain line
  rw [hl, chain_cons, read_head] at hc
  have hnd := r.nodup line
  rw [hl, List.nodup_cons] at hnd
  have hs := hc.1
  have hnext : ∀ u, h.next res = some u → u ∈ rest := fun u hu => by
    cases rest with
    | nil => simp [chain_nil] at hc; simp [hc.2.2.2] at hu
    | cons v rest => simp only [chain_cons, read_next, hu] at hc; simp [Option.some.inj hc.2.2.2.1]
  refine ⟨popUnprotected_fst hs, ⟨fun L => ?_, fun L => ?_, fun u L hu => ?_⟩, by
    simp [popUnprotected_workerData hs], by simp [popUnprotected_prevLink hs]⟩
  · by_cases hL : L = line
    · subst hL
      simp only [update_same]
      cases rest with
      | nil =>
        simp only [chain_nil, read_head, popUnprotected_tasksStack hs, update_same]
        simpa using hc.2.2.2
      | cons top rest =>
        have hc' := hc.2.2.2
        rw [chain_cons, read_next] at hc'
        rw [List.nodup_cons, List.mem_cons, not_or] at hnd
        rw [chain_cons]
        refine ⟨by simp [popUnprotected_tasksStack hs, hc'.1], by
          simp [popUnprotected_prevLink hs, hc'.1, Ne.symm hnd.1.1], by
          simp [popUnprotected_workerData hs, Ne.symm hnd.1.1, hc'.2.2.1], ?_⟩
        refine (Chain.congr ?_ fun u hu => ?_).mpr hc'.2.2.2
        · simp only [List.mem_cons, List.mem_map]
          rintro x (rfl | ⟨u, -, rfl⟩) <;> simp [popUnprotected_next hs]
        · have hur : u ≠ res := fun e => hnd.1.2 (e ▸ hu)
          have hut : h.next res ≠ some u := by
            rw [hc'.1]; exact fun e => hnd.2.1 (Option.some.inj e ▸ hu)
          simp [popUnprotected_prevLink hs, popUnprotected_workerData hs, hur, hut]
    · rw [update_noteq hL]
      refine r.chain_of_agree (by simp [popUnprotected_tasksStack hs, hL]) fun u hu => ?_
      have hur : u ≠ res := fun e => hL (r.line_eq hu (by rw [hl, e]; simp))
      have hut : h.next res ≠ some u := fun e =>
        hL (r.line_eq hu (by rw [hl]; exact List.mem_cons_of_mem _ (hnext u e)))
      simp [popUnprotected_next hs, popUnprotected_prevLink hs, popUnprotected_workerData hs,
        hur, hut]
  · by_cases hL : L = line
    · subst hL; simpa using hnd.2
    · simpa [hL] using r.nodup L
  · have hur : u ≠ res := by rintro rfl; simp [popUnprotected_workerData hs] at hu
    rw [popUnprotected_workerData hs, update_noteq hur] at hu
    have := r.owner u L hu
    by_cases hL : L = line
    · subst hL; rw [hl] at this; simpa [hur] using this
    · simpa [hL] using this


/-- A `try_pop` that gets its lock returns the head of the line's list, if there is one. -/
theorem Represents.tryPop_fst {h : Heap} {ls : Nat → List Nat} (r : Represents h ls)
    (line : Nat) :
    (tryPop h line true).1 = (ls line).head? := by
  cases hl : ls line with
  | nil => simp [r.tryPop_none (.inr hl)]
  | cons t rest => simp [r.tryPop_cons hl, (r.popUnprotected hl).1]

/-! ### `work_line::extract_task` -/

section Extract

variable {h : Heap} (line : Nat) {t L : Nat} {slot : Slot} (hw : h.workerData t = some L)
  (hp : h.prevLink t = some slot)
include hw hp

theorem extractTask_fst : (extractTask h line t).1 = true := by
  simp [extractTask, hw, hp]

theorem extractTask_read :
    (extractTask h line t).2.read = fun x => if x = slot then h.next t else h.read x := by
  funext x
  simp only [extractTask, hw, hp, write_next_self]
  cases h.next t <;> simp [read_write]

theorem extractTask_prevLink :
    (extractTask h line t).2.prevLink = update
      (fun u => if h.next t = some u then some slot else h.prevLink u) t none := by
  simp only [extractTask, hw, hp, write_next_self]
  cases h.next t <;> funext u <;> simp [update_apply, eq_comm, hp]

theorem extractTask_workerData :
    (extractTask h line t).2.workerData = update h.workerData t none := by
  simp only [extractTask, hw, hp, write_next_self]
  cases h.next t <;> simp

end Extract

theorem extractTask_of_workerData_none {h : Heap} {line t : Nat} (ht : h.workerData t = none) :
    extractTask h line t = (false, h) := by
  simp [extractTask, ht]

/-- `work_line::extract_task` of a task on the list `pre ++ t :: post` of a line `L` returns
`true`, leaves `pre ++ post` there, clears the back-pointers of `t`, and keeps the other lines. It
unlinks `t` through `prev_link_`, so it does so whichever line it is called on. -/
theorem Represents.extractTask {h : Heap} {ls : Nat → List Nat} (r : Represents h ls)
    (line : Nat) {L t : Nat} {pre post : List Nat} (hl : ls L = pre ++ t :: post) :
    (extractTask h line t).1 = true ∧
      Represents (extractTask h line t).2 (update ls L (pre ++ post)) ∧
      (extractTask h line t).2.workerData t = none ∧
      (extractTask h line t).2.prevLink t = none := by
  have hc := r.chain L
  rw [hl, chain_append, chain_cons] at hc
  obtain ⟨hpre, -, hp, hw, hpost⟩ := hc
  set slot := lastSlot (.head L) pre
  have hnd := r.nodup L
  rw [hl, List.nodup_append, List.nodup_cons] at hnd
  obtain ⟨hndpre, ⟨htpost, hndpost⟩, hdisj⟩ := hnd
  have htpre : t ∉ pre := fun e => hdisj e (List.mem_cons_self _ _)
  have hnext : ∀ u, h.next t = some u → u ∈ post := fun u hu => by
    cases post with
    | nil => simp [chain_nil] at hpost; simp [hpost] at hu
    | cons v post =>
      simp only [chain_cons, read_next, hu] at hpost; simp [Option.some.inj hpost.1]
  have hslot : ∀ u, u ∉ pre → slot ≠ .next u := fun u hu e => by
    rcases lastSlot_eq (.head L) pre with h1 | ⟨p, hp, h1⟩
    · exact absurd (e.symm.trans h1) (by simp)
    · exact hu (Slot.next.inj (e.symm.trans h1) ▸ hp)
  have hslotL : ∀ L', L' ≠ L → slot ≠ .head L' := fun L' hL' e => by
    rcases lastSlot_eq (.head L) pre with h1 | ⟨p, -, h1⟩
    · exact hL' (Slot.head.inj (e.symm.trans h1))
    · exact absurd (e.symm.trans h1) (by simp)
  have hread := extractTask_read line hw hp
  have hr : ∀ x, x ≠ slot → (WorkLine.extractTask h line t).2.read x = h.read x :=
    fun x hx => by rw [hread]; simp [hx]
  have hprev := extractTask_prevLink line hw hp
  have hwd := extractTask_workerData line hw hp
  refine ⟨extractTask_fst line hw hp, ⟨fun L' => ?_, fun L' => ?_, fun u L' hu => ?_⟩, by
    simp [hwd], by simp [hprev]⟩
  · by_cases hL : L' = L
    · subst hL
      rw [update_same, chain_append]
      constructor
      · refine (Links.congr (fun x hx => hr x ?_) fun u hu => ?_).mpr hpre
        · rintro rfl; exact lastSlot_not_mem_readSlots hndpre L' hx
        · have hut : u ≠ t := fun e => htpre (e ▸ hu)
          have hnu : h.next t ≠ some u := fun e => hdisj hu (List.mem_cons_of_mem _ (hnext u e))
          simp [hprev, hwd, hut, hnu]
      · cases post with
        | nil => simpa [hread] using hpost
        | cons u post =>
          rw [chain_cons, read_next] at hpost
          rw [List.mem_cons, not_or] at htpost
          have hut : u ≠ t := Ne.symm htpost.1
          rw [chain_cons]
          refine ⟨by simp [hread, hpost.1], by simp [hprev, hut, hpost.1],
            by simp [hwd, hut, hpost.2.2.1], ?_⟩
          rw [List.nodup_cons] at hndpost
          refine (Chain.congr (fun x hx => ?_) fun v hv => ?_).mpr hpost.2.2.2
          · simp only [List.mem_cons, List.mem_map] at hx
            rcases hx with rfl | ⟨v, hv, rfl⟩
            · exact hr _ (hslot u fun e => hdisj e (by simp)).symm
            · exact hr _ (hslot v fun e => hdisj e (by simp [hv])).symm
          · have hvt : v ≠ t := fun e => htpost.2 (e ▸ hv)
            have hnv : h.next t ≠ some v := by
              rw [hpost.1]; exact fun e => hndpost.1 (Option.some.inj e ▸ hv)
            simp [hprev, hwd, hvt, hnv]
    · rw [update_noteq hL]
      have hout : ∀ u ∈ ls L', u ∉ ls L := fun u hu hu' => hL (r.line_eq hu hu')
      refine r.chain_of_agree (hr _ (hslotL L' hL).symm) fun u hu => ?_
      have hu' := hout u hu
      rw [hl] at hu'
      simp only [List.mem_append, List.mem_cons, not_or] at hu'
      have hnu : h.next t ≠ some u := fun e => hu'.2.2 (hnext u e)
      exact ⟨hr _ (hslot u hu'.1).symm, by simp [hprev, hu'.2.1, hnu], by simp [hwd, hu'.2.1]⟩
  · by_cases hL : L' = L
    · subst hL; simpa using List.nodup_append.mpr ⟨hndpre, hndpost,
        fun a ha hb => hdisj ha (List.mem_cons_of_mem _ hb)⟩
    · simpa [hL] using r.nodup L'
  · have hut : u ≠ t := by rintro rfl; simp [hwd] at hu
    rw [hwd, update_noteq hut] at hu
    have := r.owner u L' hu
    by_cases hL : L' = L
    · subst hL; rw [hl] at this; simpa [hut] using this
    · simpa [hL] using this

end Concore2full.WorkLine
