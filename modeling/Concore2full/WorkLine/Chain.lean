import Concore2full.WorkLine.Heap
import Mathlib.Data.List.Nodup

/-! What it means for a work line to hold a list of tasks: from the line's `tasks_stack_`, each
task is read from the slot before it, points back at that slot with `prev_link_` and names the line
in `worker_data_`, and the slot after the last task is null. The lemmas here are the ones every
operation needs: splitting a chain, the slots a chain reads (its frame), uniqueness, and the runs of
`check_list` and of a walk along `next_` over a chain. -/

namespace Concore2full.WorkLine

open Heap

/-- The tasks `l` hang one after another from `slot`: each is read from the slot before it, points
back at that slot, and has `line` as its `worker_data_`. -/
def Links (h : Heap) (line : Nat) : Slot → List Nat → Prop
  | _, [] => True
  | slot, t :: l => h.read slot = some t ∧ h.prevLink t = some slot ∧
      h.workerData t = some line ∧ Links h line (.next t) l

/-- The slot after the last task of `l`. -/
def lastSlot : Slot → List Nat → Slot
  | slot, [] => slot
  | _, t :: l => lastSlot (.next t) l

/-- The slots that `Links` reads: the one before each task of `l`. -/
def readSlots : Slot → List Nat → List Slot
  | _, [] => []
  | slot, t :: l => slot :: readSlots (.next t) l

/-- The list hanging from `slot` is exactly `l`: linked, then a null pointer. -/
def Chain (h : Heap) (line : Nat) (slot : Slot) (l : List Nat) : Prop :=
  Links h line slot l ∧ h.read (lastSlot slot l) = none

@[simp] theorem links_nil (h : Heap) (line : Nat) (s : Slot) : Links h line s [] := trivial

@[simp] theorem links_cons (h : Heap) (line : Nat) (s : Slot) (t : Nat) (l : List Nat) :
    Links h line s (t :: l) ↔ h.read s = some t ∧ h.prevLink t = some s ∧
      h.workerData t = some line ∧ Links h line (.next t) l := Iff.rfl

@[simp] theorem lastSlot_nil (s : Slot) : lastSlot s [] = s := rfl

@[simp] theorem lastSlot_cons (s : Slot) (t : Nat) (l : List Nat) :
    lastSlot s (t :: l) = lastSlot (.next t) l := rfl

theorem links_append {h : Heap} {line : Nat} (a : List Nat) :
    ∀ {s : Slot} {b : List Nat},
      Links h line s (a ++ b) ↔ Links h line s a ∧ Links h line (lastSlot s a) b := by
  induction a with
  | nil => simp
  | cons t a ih => simp [ih, and_assoc]

theorem lastSlot_append (a : List Nat) : ∀ (s : Slot) (b : List Nat),
    lastSlot s (a ++ b) = lastSlot (lastSlot s a) b := by
  induction a with
  | nil => simp
  | cons t a ih => simp [ih]

/-- The slots a chain reads are the one it starts from and the `next_` of each task. -/
theorem readSlots_append_lastSlot (l : List Nat) : ∀ (s : Slot),
    readSlots s l ++ [lastSlot s l] = s :: l.map Slot.next := by
  induction l with
  | nil => simp [readSlots]
  | cons t l ih => intro s; simp [readSlots, ih]

theorem mem_readSlots {s x : Slot} {l : List Nat} (hx : x ∈ readSlots s l) :
    x = s ∨ ∃ u ∈ l, x = .next u := by
  have : x ∈ s :: l.map Slot.next := by
    rw [← readSlots_append_lastSlot]; exact List.mem_append_left _ hx
  simpa [eq_comm] using this

theorem lastSlot_eq (s : Slot) (l : List Nat) :
    lastSlot s l = s ∨ ∃ u ∈ l, lastSlot s l = .next u := by
  have : lastSlot s l ∈ s :: l.map Slot.next := by
    rw [← readSlots_append_lastSlot]; simp
  simpa [eq_comm] using this

theorem Links.workerData {h : Heap} {line : Nat} {l : List Nat} :
    ∀ {s : Slot}, Links h line s l → ∀ t ∈ l, h.workerData t = some line := by
  induction l with
  | nil => simp
  | cons u l ih =>
    rintro s ⟨-, -, hu, hl⟩ t ht
    rcases List.mem_cons.mp ht with rfl | ht
    · exact hu
    · exact ih hl t ht

/-- The frame of `Links`: it only reads the slots `readSlots` and the fields of its own tasks. -/
theorem Links.congr {h h' : Heap} {line : Nat} {l : List Nat} :
    ∀ {s : Slot}, (∀ x ∈ readSlots s l, h'.read x = h.read x) →
      (∀ t ∈ l, h'.prevLink t = h.prevLink t ∧ h'.workerData t = h.workerData t) →
      (Links h' line s l ↔ Links h line s l) := by
  induction l with
  | nil => simp
  | cons t l ih =>
    intro s hr hf
    have ht := hf t (by simp)
    rw [links_cons, links_cons, hr s (by simp [readSlots]), ht.1, ht.2,
      ih (fun x hx => hr x (by simp [readSlots, hx])) (fun u hu => hf u (by simp [hu]))]

/-- The frame of `Chain`: it reads its first slot, the `next_` of its tasks and their fields. -/
theorem Chain.congr {h h' : Heap} {line : Nat} {s : Slot} {l : List Nat}
    (hr : ∀ x ∈ s :: l.map Slot.next, h'.read x = h.read x)
    (hf : ∀ t ∈ l, h'.prevLink t = h.prevLink t ∧ h'.workerData t = h.workerData t) :
    Chain h' line s l ↔ Chain h line s l := by
  rw [← readSlots_append_lastSlot] at hr
  unfold Chain
  rw [Links.congr (fun x hx => hr x (List.mem_append_left _ hx)) hf,
    hr _ (List.mem_append_right _ (List.mem_singleton_self _))]

@[simp] theorem chain_nil {h : Heap} {line : Nat} {s : Slot} :
    Chain h line s [] ↔ h.read s = none := by simp [Chain]

@[simp] theorem chain_cons {h : Heap} {line : Nat} {s : Slot} {t : Nat} {l : List Nat} :
    Chain h line s (t :: l) ↔ h.read s = some t ∧ h.prevLink t = some s ∧
      h.workerData t = some line ∧ Chain h line (.next t) l := by
  simp [Chain, and_assoc]

theorem chain_append {h : Heap} {line : Nat} {s : Slot} {a b : List Nat} :
    Chain h line s (a ++ b) ↔ Links h line s a ∧ Chain h line (lastSlot s a) b := by
  simp [Chain, links_append, lastSlot_append, and_assoc]

/-- The slots of a chain without repeated tasks are all different. -/
theorem lastSlot_not_mem_readSlots {l : List Nat} (hl : l.Nodup) (line : Nat) :
    lastSlot (.head line) l ∉ readSlots (.head line) l := by
  have hnd : (readSlots (.head line) l ++ [lastSlot (.head line) l]).Nodup := by
    rw [readSlots_append_lastSlot]
    exact List.nodup_cons.mpr ⟨by simp, List.Nodup.map (fun _ _ h => Slot.next.inj h) hl⟩
  intro hm
  exact (List.nodup_append.mp hnd).2.2 hm (List.mem_singleton_self _)

/-- A slot holds at most one list. -/
theorem Chain.unique {h : Heap} {line : Nat} {l : List Nat} :
    ∀ {s : Slot} {l' : List Nat}, Chain h line s l → Chain h line s l' → l = l' := by
  induction l with
  | nil =>
    rintro s (_ | ⟨t, l'⟩) h1 h2
    · rfl
    · simp only [chain_nil, chain_cons] at h1 h2; simp [h1] at h2
  | cons t l ih =>
    rintro s (_ | ⟨t', l'⟩) h1 h2
    · simp only [chain_nil, chain_cons] at h1 h2; simp [h2] at h1
    · simp only [chain_cons] at h1 h2
      obtain rfl : t = t' := Option.some.inj (h1.1.symm.trans h2.1)
      rw [ih h1.2.2.2 h2.2.2.2]

/-- Over a chain, `check_list` returns `true` once its fuel exceeds the length. -/
theorem Chain.checkList {h : Heap} {line : Nat} {l : List Nat} :
    ∀ {s : Slot} {fuel : Nat}, Chain h line s l → l.length < fuel →
      checkList h line fuel (h.read s) = some true := by
  induction l with
  | nil => intro s fuel hc _; simp only [chain_nil] at hc; rw [hc]; cases fuel <;> rfl
  | cons t l ih =>
    rintro s (_ | fuel) hc hlen
    · simp at hlen
    · simp only [chain_cons] at hc
      simp only [hc.1, WorkLine.checkList, hc.2.1, hc.2.2.1, and_self, if_true]
      exact ih hc.2.2.2 (by simpa using hlen)

/-- Over a chain, following `next_` with enough fuel gives back the list. -/
theorem Chain.follow {h : Heap} {line : Nat} {l : List Nat} :
    ∀ {s : Slot} {fuel : Nat}, Chain h line s l → l.length ≤ fuel →
      follow h fuel (h.read s) = l := by
  induction l with
  | nil => intro s fuel hc _; simp only [chain_nil] at hc; rw [hc]; cases fuel <;> rfl
  | cons t l ih =>
    rintro s (_ | fuel) hc hlen
    · simp at hlen
    · simp only [chain_cons] at hc
      simp only [hc.1, WorkLine.follow]
      exact congrArg _ (ih hc.2.2.2 (by simpa using hlen))

end Concore2full.WorkLine
