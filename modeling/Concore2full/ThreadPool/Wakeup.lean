import Concore2full.ThreadPool.Rounds
import Mathlib.Data.List.Basic

/-! The `wake_requests_` protocol between a worker and the `try_notify` calls on it. A worker
arms it at 1; `sleep` takes it with a `fetch_sub` and parks only when that returned 1; a
`try_notify` succeeds only when its `fetch_add` finds 0, and then stores the hint and notifies the
token. On every run a worker holds a valid token while it is in `sleep`, and a worker in `sleep`
whose counter is not 0 and whose token is not notified has a successful `try_notify` still to
notify it (`WakeGuard`). On runs where no counter wraps around, `wake_requests_` is 0 exactly while
the last access to it was a `fetch_sub` that returned 1, and then the worker is inside `sleep`;
every successful `fetch_add` comes right after such a `fetch_sub`; and a worker that a
`try_notify` has reached, and that has not run the top of its loop since, is parked on an
un-notified token only while a successful `try_notify` on it has still to notify (`WakeInv`,
`WakeSpec`). Runs of fewer than `2^30` steps do not wrap around; but `2^32 - 1` failed
`try_notify` calls on a worker that does not sleep bring its counter to 0 outside `sleep`, and the
next `try_notify` succeeds there. -/

namespace Concore2full.ThreadPool

open WorkLine Function

/-- Inside `sleep`, after the `fetch_sub` of `wake_requests_` and before the re-arm store. -/
def WorkerPc.afterFetchSub : WorkerPc → Bool
  | .checkStop | .parked | .invalidate | .rearm => true
  | _ => false

/-- The worker holds the token it stored in `sleep` and has not invalidated it. -/
def WorkerPc.holdsToken : WorkerPc → Bool
  | .decRequests | .checkStop | .parked | .invalidate => true
  | _ => false

/-- Blocked in `sleep_helper::sleep` on a token that has not been notified. -/
def Worker.Parked (W : Worker) : Prop := W.pc = .parked ∧ W.notified = false

instance (W : Worker) : Decidable W.Parked := inferInstanceAs (Decidable (_ ∧ _))

/-! ### The accesses to `wake_requests_` -/

/-- The access to the `wake_requests_` of worker `w` that an event is, if it is one. -/
def Event.wakeOp (w : Nat) : Event → Option WakeOp
  | .wakeRequests v op => if v = w then some op else none
  | _ => none

/-- The accesses to the `wake_requests_` of worker `w` in a run, in order. -/
def wakeOps (w : Nat) (evs : List Event) : List WakeOp := evs.filterMap (Event.wakeOp w)

@[simp] theorem wakeOps_nil (w : Nat) : wakeOps w [] = [] := rfl

theorem wakeOps_concat (w : Nat) (evs : List Event) (e : Event) :
    wakeOps w (evs ++ [e]) = wakeOps w evs ++ (e.wakeOp w).toList := by
  cases h : e.wakeOp w <;> simp [wakeOps, List.filterMap_append, h]

/-! ### The top of the loop after a `fetch_add` -/

/-- How far worker `w` is in running the top of its loop since the last `fetch_add` on its
`wake_requests_`. -/
inductive LoopTop
  /-- it ran it, or no `fetch_add` came yet -/
  | clear
  /-- it has to load `stop_requested_`, then `num_tasks_` -/
  | readStop
  /-- it has loaded `stop_requested_` and has to load `num_tasks_` -/
  | readTasks
  deriving DecidableEq, Repr

/-- One event on the way of worker `w` to the top of its loop. -/
def LoopTop.next (w : Nat) (d : LoopTop) : Event → LoopTop
  | .wakeRequests v (.fetchAdd _) => if v = w then .readStop else d
  | .readStop v false => if v = w ∧ d = .readStop then .readTasks else d
  | .readTasks v _ => if v = w ∧ d = .readTasks then .clear else d
  | _ => d

/-- Where worker `w` is in running the top of its loop after the last `fetch_add` of a run. -/
def loopTopDue (w : Nat) (evs : List Event) : LoopTop := evs.foldl (LoopTop.next w) .clear

@[simp] theorem loopTopDue_nil (w : Nat) : loopTopDue w [] = .clear := rfl

theorem loopTopDue_concat (w : Nat) (evs : List Event) (e : Event) :
    loopTopDue w (evs ++ [e]) = (loopTopDue w evs).next w e := by
  simp [loopTopDue]

/-- An event of worker `w` itself, or an access to its `wake_requests_`. -/
def Event.ofWorker (w : Nat) : Event → Bool
  | .readStop v _ | .readTasks v _ | .wakeRequests v _ => v == w
  | _ => false

theorem Event.wakeOp_of_ofWorker {w : Nat} {e : Event} (h : e.ofWorker w = false) :
    e.wakeOp w = none := by
  cases e <;> simp_all [ofWorker, wakeOp]

theorem LoopTop.next_of_ofWorker {w : Nat} {e : Event} (h : e.ofWorker w = false) (d : LoopTop) :
    d.next w e = d := by
  cases e with
  | readStop v b => cases b <;> simp_all [Event.ofWorker, next]
  | wakeRequests v op => cases op <;> simp_all [Event.ofWorker, next]
  | _ => simp_all [Event.ofWorker, next]

/-! ### `try_notify` calls that still have to notify -/

/-- After the successful `fetch_add`, before `wakeup_token_.notify()` returned. -/
def NotifyStep.pending : NotifyStep → Bool
  | .fetchAdd => false
  | _ => true

/-- A call of `enqueue` whose `try_notify` on worker `w` succeeded and has still to notify. -/
def EnqueuePc.notifying (w : Nat) : EnqueuePc → Bool
  | .notify _ k st => k == w && st.pending
  | _ => false

/-- `join` at a `try_notify` on worker `w` that succeeded and has still to notify. -/
def JoinPc.notifying (w : Nat) : JoinPc → Bool
  | .notify k st => k == w && st.pending
  | _ => false

/-- Some `try_notify` on worker `w` succeeded and has still to notify. -/
def Pool.notifying (s : Pool) (w : Nat) : Bool :=
  s.enqueues.any (fun c => c.pc.notifying w) || s.join.notifying w

theorem mem_set_of_ne {α : Type} {l : List α} {i : Nat} {x c : α} (hx : x ∈ l)
    (hi : l[i]? = some c) (hne : x ≠ c) (c' : α) : x ∈ l.set i c' := by
  obtain ⟨j, hj⟩ := List.mem_iff_getElem?.mp hx
  have hji : i ≠ j := by rintro rfl; exact hne (Option.some.inj (hj.symm.trans hi))
  exact List.getElem?_mem (by rw [List.getElem?_set_ne hji, hj])

theorem mem_set_self {α : Type} {l : List α} {i : Nat} {c : α} (hi : l[i]? = some c) (c' : α) :
    c' ∈ l.set i c' :=
  List.getElem?_mem (List.getElem?_set_self (List.getElem?_eq_some_iff.mp hi).1)

/-- An entry that satisfies `p` after a change of one entry that keeps `p`. -/
theorem any_set_of_imp {α : Type} {p : α → Bool} {l : List α} {i : Nat} {c c' : α}
    (hi : l[i]? = some c) (hc : p c = true → p c' = true) (h : l.any p = true) :
    (l.set i c').any p = true := by
  rw [List.any_eq_true] at h ⊢
  obtain ⟨x, hx, hpx⟩ := h
  by_cases hp : p c' = true
  · exact ⟨c', mem_set_self hi c', hp⟩
  · exact ⟨x, mem_set_of_ne hx hi (by rintro rfl; exact hp (hc hpx)) c', hpx⟩

namespace Pool

variable {s : Pool} {w : Nat}

/-- A call of `enqueue` that was notifying `w` goes on doing so: no other call stops. -/
theorem notifying_setEnqueue {i : Nat} {c c' : Enqueue} (hi : s.enqueues[i]? = some c)
    (hc : c.pc.notifying w = true → c'.pc.notifying w = true) (hn : s.notifying w = true) :
    (s.setEnqueue i c').notifying w = true := by
  simp only [notifying, Bool.or_eq_true, setEnqueue_enqueues, setEnqueue_join] at hn ⊢
  exact hn.imp (any_set_of_imp hi hc) id

theorem notifying_setEnqueue_self {i : Nat} {c c' : Enqueue} (hi : s.enqueues[i]? = some c)
    (hc' : c'.pc.notifying w = true) : (s.setEnqueue i c').notifying w = true := by
  simp only [notifying, Bool.or_eq_true, List.any_eq_true, setEnqueue_enqueues]
  exact .inl ⟨c', mem_set_self hi c', hc'⟩

theorem notifying_of_join {s' : Pool} (henq : s'.enqueues = s.enqueues)
    (hj : s.join.notifying w = true → s'.join.notifying w = true) (hn : s.notifying w = true) :
    s'.notifying w = true := by
  simp only [notifying, Bool.or_eq_true, henq] at hn ⊢
  exact hn.imp id hj

end Pool

/-! ### A step as worker `w` sees it -/

section View

variable {lineCount : Nat} {s s' : Pool} {e : Event}

/-- What a step does to worker `w`: it is a step of `w` itself, or it leaves `w` alone, or it is
the `fetch_add`, the store of the hint or the notify of a `try_notify` on `w`. A step that leaves
`w` alone keeps every `try_notify` on `w` that has still to notify. -/
theorem Step.onWorker (hs : Step lineCount s e s') (w : Nat) :
    WorkerStep lineCount s w e s' ∨
    (s'.workers w = s.workers w ∧ e.ofWorker w = false ∧
      (s.notifying w = true → s'.notifying w = true)) ∨
    (e = .wakeRequests w (.fetchAdd (s.workers w).wakeRequests) ∧
      s'.workers w = (s.workers w).fetchAdd ∧ (s.notifying w = true → s'.notifying w = true) ∧
      ((s.workers w).wakeRequests = 0 → s'.notifying w = true)) ∨
    (e = .silent ∧ (∃ hint, s'.workers w = { s.workers w with startIndex := hint }) ∧
      s'.notifying w = true) ∨
    (e = .silent ∧ s'.workers w = (s.workers w).notify) := by
  cases hs with
  | @worker _ _ v _ h =>
    by_cases hvw : v = w
    · subst hvw; exact .inl h
    · refine .inr (.inl ?_)
      cases h <;>
        exact ⟨by simp [update_noteq (Ne.symm hvw)], by simp [Event.ofWorker, hvw], id⟩
  | enqueue he =>
    cases he with
    | @notifyAdd t line k he hk =>
      by_cases hkw : k = w
      · subst hkw
        refine .inr (.inr (.inl ⟨rfl, by simp, Pool.notifying_setEnqueue he
          (by simp [EnqueuePc.notifying, NotifyStep.pending]), fun h0 =>
            Pool.notifying_setEnqueue_self he (by simp [h0, EnqueuePc.notifying,
              NotifyStep.pending])⟩))
      · refine .inr (.inl ⟨by simp [update_noteq (Ne.symm hkw)], by simp [Event.ofWorker, hkw],
          Pool.notifying_setEnqueue he (by simp [EnqueuePc.notifying, NotifyStep.pending])⟩)
    | @notifyStore t line k he =>
      by_cases hkw : k = w
      · subst hkw
        exact .inr (.inr (.inr (.inl ⟨rfl, ⟨line, by simp⟩, Pool.notifying_setEnqueue_self he
          (by simp [EnqueuePc.notifying, NotifyStep.pending])⟩)))
      · refine .inr (.inl ⟨by simp [update_noteq (Ne.symm hkw)], rfl,
          Pool.notifying_setEnqueue he (by simp [EnqueuePc.notifying, hkw])⟩)
    | @notifyWake t line k he =>
      by_cases hkw : k = w
      · subst hkw; exact .inr (.inr (.inr (.inr ⟨rfl, by simp⟩)))
      · refine .inr (.inl ⟨by simp [update_noteq (Ne.symm hkw)], rfl,
          Pool.notifying_setEnqueue he (by simp [EnqueuePc.notifying, hkw])⟩)
    | _ he =>
      exact .inr (.inl ⟨rfl, rfl, Pool.notifying_setEnqueue he (by simp [EnqueuePc.notifying])⟩)
  | extract hx => cases hx <;> exact .inr (.inl ⟨rfl, rfl, id⟩)
  | join hj =>
    cases hj with
    | @notifyAdd k hj hk =>
      by_cases hkw : k = w
      · subst hkw
        refine .inr (.inr (.inl ⟨rfl, by simp, Pool.notifying_of_join rfl
          (by simp [hj, JoinPc.notifying, NotifyStep.pending]), fun h0 => ?_⟩))
        simp [Pool.notifying, h0, JoinPc.notifying, NotifyStep.pending]
      · refine .inr (.inl ⟨by simp [update_noteq (Ne.symm hkw)], by simp [Event.ofWorker, hkw],
          Pool.notifying_of_join rfl (by simp [hj, JoinPc.notifying, hkw])⟩)
    | @notifyStore k hj =>
      by_cases hkw : k = w
      · subst hkw
        exact .inr (.inr (.inr (.inl ⟨rfl, ⟨0, by simp⟩, by
          simp [Pool.notifying, JoinPc.notifying, NotifyStep.pending]⟩)))
      · exact .inr (.inl ⟨by simp [update_noteq (Ne.symm hkw)], rfl,
          Pool.notifying_of_join rfl (by simp [hj, JoinPc.notifying, hkw])⟩)
    | @notifyWake k hj =>
      by_cases hkw : k = w
      · subst hkw; exact .inr (.inr (.inr (.inr ⟨rfl, by simp⟩)))
      · exact .inr (.inl ⟨by simp [update_noteq (Ne.symm hkw)], rfl,
          Pool.notifying_of_join rfl (by simp [hj, JoinPc.notifying, hkw])⟩)
    | _ hj =>
      exact .inr (.inl ⟨rfl, rfl, Pool.notifying_of_join rfl (by simp [hj, JoinPc.notifying])⟩)
  | startEnqueue t =>
    refine .inr (.inl ⟨rfl, rfl, fun h => ?_⟩)
    simp only [Pool.notifying, List.any_append, Bool.or_eq_true] at h ⊢
    exact h.imp .inl id
  | startExtract t => exact .inr (.inl ⟨rfl, rfl, id⟩)

end View

/-! ### The counters on a step -/

section Counters

variable {lineCount : Nat} {s s' : Pool} {e : Event}

/-- What a step does to `num_tasks_`: nothing, an increment or a decrement. -/
theorem Step.numTasks_eq (hs : Step lineCount s e s') :
    s'.numTasks = s.numTasks ∨ s'.numTasks = toInt32 (s.numTasks + 1) ∨
      s'.numTasks = toInt32 (s.numTasks - 1) := by
  cases hs with
  | worker _ h => cases h <;> simp only [Pool.setWorker_numTasks, true_or, or_true]
  | enqueue h =>
    cases h <;> simp only [Pool.setEnqueue_numTasks, Pool.setWorker_numTasks, true_or, or_true]
  | extract h => cases h <;> simp only [Pool.setExtract_numTasks, true_or, or_true]
  | join h => cases h <;> simp only [Pool.setWorker_numTasks, true_or]
  | startEnqueue | startExtract => exact .inl rfl

/-- What a step does to the `wake_requests_` of worker `w`: nothing, an increment, a decrement,
or the re-arm store of 1. -/
theorem Step.wakeRequests_eq (hs : Step lineCount s e s') (w : Nat) :
    ((s'.workers w).wakeRequests = (s.workers w).wakeRequests ∨
      (s'.workers w).wakeRequests = toInt32 ((s.workers w).wakeRequests + 1) ∨
      (s'.workers w).wakeRequests = toInt32 ((s.workers w).wakeRequests - 1)) ∨
    (s'.workers w).wakeRequests = 1 := by
  rcases hs.onWorker w with hw | ⟨hW, -⟩ | ⟨-, hW, -⟩ | ⟨-, ⟨hint, hW⟩, -⟩ | ⟨-, hW⟩
  · cases hw <;> simp
  all_goals simp [hW]

theorem near_of_step {x y : Int} (h1 : -2 ^ 31 < x) (h2 : x < 2 ^ 31 - 1)
    (h : y = x ∨ y = toInt32 (x + 1) ∨ y = toInt32 (x - 1)) : x - 1 ≤ y ∧ y ≤ x + 1 := by
  rcases h with rfl | rfl | rfl
  · omega
  · rw [toInt32_eq_self (by omega) (by omega)]; omega
  · rw [toInt32_eq_self (by omega) (by omega)]; omega

/-- Every counter is more than `m` steps away from an end of `int`. -/
def Pool.Margin (m : Nat) (s : Pool) : Prop :=
  -2 ^ 31 + m < s.numTasks ∧ s.numTasks + m < 2 ^ 31 - 1 ∧
    ∀ w, -2 ^ 31 + m < (s.workers w).wakeRequests ∧ (s.workers w).wakeRequests + m < 2 ^ 31 - 1

theorem Pool.Margin.fits {m : Nat} (h : s.Margin m) : s.Fits :=
  ⟨by have := h.1; omega, by have := h.2.1; omega, fun w => by have := (h.2.2 w).2; omega⟩

theorem Pool.margin_init {m : Nat} (hm : m < 2 ^ 30) : Pool.init.Margin m :=
  ⟨by simp [Pool.init]; omega, by simp [Pool.init]; omega,
    fun w => by simp [Pool.init, Worker.init]; omega⟩

/-- A step moves every counter by at most one, or re-arms `wake_requests_` at 1. -/
theorem Step.margin (hs : Step lineCount s e s') {m : Nat} (hm : s.Margin (m + 1))
    (hsmall : m < 2 ^ 30) : s'.Margin m := by
  obtain ⟨h1, h2, h3⟩ := hm
  have hn := near_of_step (by omega) (by omega) hs.numTasks_eq
  refine ⟨by omega, by omega, fun w => ?_⟩
  have := h3 w
  rcases hs.wakeRequests_eq w with h | h
  · have := near_of_step (by omega) (by omega) h; omega
  · rw [h]; omega

theorem Run.safe {evs : List Event} (hr : Run lineCount s evs s') {m : Nat}
    (hm : s.Margin (m + evs.length)) (hsmall : m + evs.length < 2 ^ 30) :
    SafeRun lineCount s evs s' ∧ s'.Margin m := by
  induction hr generalizing m with
  | refl => exact ⟨.refl hm.fits, by simpa using hm⟩
  | @tail _ _ evs e _ h ih =>
    have hlen : (evs ++ [e]).length = evs.length + 1 := by simp
    rw [hlen] at hm hsmall
    obtain ⟨hsafe, hm'⟩ := ih (m := m + 1) (by rwa [Nat.add_right_comm]) (by omega)
    have hm'' := h.margin hm' (by omega)
    exact ⟨hsafe.tail h hm''.fits, hm''⟩

/-- No counter wraps around on a run from construction of fewer than `2^30` steps. -/
theorem Reachable.safe {evs : List Event} (hr : Reachable lineCount evs s)
    (hlen : evs.length < 2 ^ 30) : SafeReachable lineCount evs s :=
  (Run.safe hr (m := 0) (Pool.margin_init (by omega)) (by omega)).1

end Counters

/-! ### What every run keeps -/

/-- What holds of a worker `W` on every run, wrap-around or not, with `notifying` whether a
successful `try_notify` on it has still to notify it. -/
structure WakeGuard (W : Worker) (notifying : Bool) : Prop where
  /-- in `sleep` the worker holds a token it has not invalidated -/
  token : W.pc.holdsToken = true → W.tokenValid = true
  /-- a worker in `sleep`'s window with `wake_requests_` not 0 and its token not notified has a
  successful `try_notify` on its way -/
  obligation : (W.pc = .checkStop ∨ W.pc = .parked) → W.wakeRequests ≠ 0 →
    W.notified = false → notifying = true

namespace WakeGuard

variable {W : Worker} {n : Bool}

theorem init (w : Nat) : WakeGuard (Worker.init w) false :=
  ⟨by simp [Worker.init, WorkerPc.holdsToken], by simp [Worker.init]⟩

/-- The `fetch_add` of a `try_notify` on the worker. -/
theorem fetchAdd (h : WakeGuard W n) {n' : Bool} (hn : n = true → n' = true)
    (hn0 : W.wakeRequests = 0 → n' = true) : WakeGuard W.fetchAdd n' := by
  refine ⟨by simpa using h.token, fun hp _ hn' => ?_⟩
  by_cases hz : W.wakeRequests = 0
  · exact hn0 hz
  · exact hn (h.obligation (by simpa using hp) hz (by simpa using hn'))

/-- The store of the hint of a successful `try_notify` on the worker. -/
theorem storeHint (h : WakeGuard W n) (hint : Int) : WakeGuard { W with startIndex := hint } true :=
  ⟨h.token, fun _ _ _ => rfl⟩

/-- The notify of a successful `try_notify` on the worker: a worker in `sleep` is notified. -/
theorem notify (h : WakeGuard W n) {n' : Bool} : WakeGuard W.notify n' := by
  refine ⟨by simpa using h.token, fun hp _ hn' => ?_⟩
  simp only [Worker.notify_pc, Worker.notify_notified, Bool.or_eq_false_iff] at hp hn'
  have : W.pc.holdsToken = true := by rcases hp with hp | hp <;> simp [hp, WorkerPc.holdsToken]
  simp [h.token this] at hn'

end WakeGuard

section Guard

variable {lineCount : Nat} {s s' : Pool} {w : Nat} {e : Event}

theorem WorkerStep.notifying_eq (hs : WorkerStep lineCount s w e s') (v : Nat) :
    s'.notifying v = s.notifying v := by
  cases hs <;> rfl

/-- Every step of worker `w` keeps its guard. -/
theorem WorkerStep.wakeGuard {n : Bool} (hs : WorkerStep lineCount s w e s')
    (h : WakeGuard (s.workers w) n) : WakeGuard (s'.workers w) n := by
  have ht := h.token
  have ho := h.obligation
  cases hs with
  | decRequests hpc =>
    refine ⟨fun _ => by simpa using ht (by simp [hpc, WorkerPc.holdsToken]), fun hp hz _ => ?_⟩
    simp only [Pool.setWorker_workers, update_same] at hp hz
    split at hp <;> simp_all
  | checkStop hpc =>
    refine ⟨fun _ => by simpa using ht (by simp [hpc, WorkerPc.holdsToken]), fun _ hz hn =>
      ho (.inl hpc) (by simpa using hz) (by simpa using hn)⟩
  | wake hpc => exact ⟨fun _ => by simpa using ht (by simp [hpc, WorkerPc.holdsToken]), by simp⟩
  | loop hpc =>
    constructor <;> simp only [Pool.setWorker_workers, update_same] <;> split <;>
      simp [WorkerPc.holdsToken]
  | checkTasks hpc =>
    constructor <;> simp only [Pool.setWorker_workers, update_same] <;> split <;>
      simp [WorkerPc.holdsToken]
  | sweepMiss hpc =>
    constructor <;> simp only [Pool.setWorker_workers, update_same] <;> split <;>
      simp [WorkerPc.holdsToken]
  | _ hpc => constructor <;> simp [WorkerPc.holdsToken]

/-- Every step keeps the guard of every worker. -/
theorem Step.wakeGuard (hs : Step lineCount s e s') (h : WakeGuard (s.workers w) (s.notifying w)) :
    WakeGuard (s'.workers w) (s'.notifying w) := by
  rcases hs.onWorker w with
    hw | ⟨hW, -, hn⟩ | ⟨-, hW, hn, hn0⟩ | ⟨-, ⟨hint, hW⟩, hn⟩ | ⟨-, hW⟩
  · rw [hw.notifying_eq]; exact hw.wakeGuard h
  · rw [hW]; exact ⟨h.token, fun hp hz hn' => hn (h.obligation hp hz hn')⟩
  · rw [hW]; exact h.fetchAdd hn hn0
  · rw [hW, hn]; exact h.storeHint hint
  · rw [hW]; exact h.notify

/-- The guard of every worker in every reachable state. -/
theorem Reachable.wakeGuard {evs : List Event} (hr : Reachable lineCount evs s) (w : Nat) :
    WakeGuard (s.workers w) (s.notifying w) := by
  induction hr with
  | refl => exact WakeGuard.init w
  | tail _ hs ih => exact hs.wakeGuard ih

end Guard

/-! ### The invariant of one worker on runs without wrap-around -/

/-- Every `fetch_add` that found 0 comes right after a `fetch_sub` that returned 1. -/
def SuccessAfterFetchSub (ops : List WakeOp) : Prop :=
  ∀ pre post, ops = pre ++ .fetchAdd 0 :: post → pre.getLast? = some (.fetchSub 1)

theorem SuccessAfterFetchSub.concat {ops : List WakeOp} (h : SuccessAfterFetchSub ops)
    {op : WakeOp} (hop : op = .fetchAdd 0 → ops.getLast? = some (.fetchSub 1)) :
    SuccessAfterFetchSub (ops ++ [op]) := by
  intro pre post heq
  rcases post.eq_nil_or_concat with rfl | ⟨post, x, rfl⟩
  · obtain ⟨rfl, hx⟩ := List.append_inj' heq rfl
    exact hop (List.singleton_inj.mp hx)
  · rw [List.concat_eq_append, ← List.cons_append, ← List.append_assoc] at heq
    exact h pre post (List.append_inj' heq rfl).1

/-- A worker's program counter outside `sleep` and the top of its loop. -/
def WorkerPc.free : WorkerPc → Bool
  | .loop | .loadHint | .sweep _ | .popped _ _ | .execute _ _ | .exited => true
  | _ => false

/-- The invariant of a worker `W` on a run without wrap-around, with `ops` the accesses to its
`wake_requests_` so far and `due` where it is in running the top of its loop since the last
`fetch_add`. -/
structure WakeInv (ops : List WakeOp) (due : LoopTop) (W : Worker) : Prop where
  nonneg : 0 ≤ W.wakeRequests
  /-- outside `sleep`'s window `wake_requests_` is at least 1 -/
  armed : W.pc.afterFetchSub = false → 1 ≤ W.wakeRequests
  zero_iff : W.wakeRequests = 0 ↔ ops.getLast? = some (.fetchSub 1)
  history : SuccessAfterFetchSub ops
  dueStop : due = .readStop →
    ((W.pc = .checkTasks ∨ W.pc = .storeToken ∨ W.pc = .decRequests) →
      2 ≤ W.wakeRequests) ∧
    ((W.pc = .checkStop ∨ W.pc = .parked) → 1 ≤ W.wakeRequests)
  dueTasks : due = .readTasks → W.pc = .checkTasks

namespace WakeInv

variable {ops : List WakeOp} {due : LoopTop} {W : Worker}

theorem init (w : Nat) : WakeInv [] .clear (Worker.init w) := by
  refine ⟨?_, ?_, ?_, ?_, ?_, ?_⟩ <;> simp [Worker.init, SuccessAfterFetchSub]

/-- The `fetch_add` of a `try_notify` on the worker, from below `INT_MAX`. -/
theorem fetchAdd (h : WakeInv ops due W) (hfit : W.wakeRequests < 2 ^ 31 - 1) :
    WakeInv (ops ++ [.fetchAdd W.wakeRequests]) .readStop W.fetchAdd := by
  have h0 := h.nonneg
  have he : W.fetchAdd.wakeRequests = W.wakeRequests + 1 := by
    rw [Worker.fetchAdd_wakeRequests, toInt32_eq_self (by omega) (by omega)]
  have hpc : ∀ p : WorkerPc, W.pc = p → p.afterFetchSub = false → 1 ≤ W.wakeRequests :=
    fun p hp hf => h.armed (hp ▸ hf)
  refine ⟨by rw [he]; omega, fun _ => by rw [he]; omega, by rw [he]; simp; omega,
    h.history.concat fun hop => h.zero_iff.mp (by injection hop),
    fun _ => ⟨fun hp => ?_, fun _ => by rw [he]; omega⟩, by simp⟩
  simp only [Worker.fetchAdd_pc] at hp
  rw [he]
  rcases hp with hp | hp | hp <;> have := hpc _ hp rfl <;> omega

/-- The store of the hint of a successful `try_notify` on the worker. -/
theorem storeHint (h : WakeInv ops due W) (hint : Int) :
    WakeInv ops due { W with startIndex := hint } :=
  ⟨h.nonneg, h.armed, h.zero_iff, h.history, h.dueStop, h.dueTasks⟩

/-- The notify of a successful `try_notify` on the worker. -/
theorem notify (h : WakeInv ops due W) : WakeInv ops due W.notify :=
  ⟨by simpa using h.nonneg, by simpa using h.armed, by simpa using h.zero_iff, h.history,
    by simpa using h.dueStop, by simpa using h.dueTasks⟩

/-! The worker's own steps. -/

/-- A step between program counters outside `sleep` and the top of the loop. -/
theorem free (h : WakeInv ops due W) {W' : Worker} (hf : W.pc.free = true)
    (hf' : W'.pc.free = true) (hr : W'.wakeRequests = W.wakeRequests) : WakeInv ops due W' := by
  have hout : ∀ p : WorkerPc, p.free = true →
      p.afterFetchSub = false ∧ ¬ (p = .checkStop ∨ p = .parked) ∧
        ¬ (p = .checkTasks ∨ p = .storeToken ∨ p = .decRequests) := by
    intro p hp
    cases p <;> simp [WorkerPc.free, WorkerPc.afterFetchSub] at hp ⊢
  obtain ⟨ha, -, hc⟩ := hout _ hf
  obtain ⟨-, hp', hc'⟩ := hout _ hf'
  exact ⟨hr ▸ h.nonneg, fun _ => hr ▸ h.armed ha, hr ▸ h.zero_iff, h.history,
    fun _ => ⟨fun hp => absurd hp hc', fun hp => absurd hp hp'⟩,
    fun hd => absurd (.inl (h.dueTasks hd)) hc⟩

theorem loop (h : WakeInv ops due W) (hpc : W.pc = .loop) (w : Nat) (stop : Bool) :
    WakeInv ops (due.next w (.readStop w stop))
      { W with pc := if stop then .exited else .checkTasks } := by
  have ha := h.armed (by simp [hpc, WorkerPc.afterFetchSub])
  cases stop
  · refine ⟨h.nonneg, fun _ => ha, h.zero_iff, h.history, fun hd => ?_, fun _ => rfl⟩
    by_cases hds : due = .readStop <;> simp_all [LoopTop.next]
  · refine ⟨h.nonneg, fun _ => ha, h.zero_iff, h.history, by simp, fun hd => ?_⟩
    simp only [LoopTop.next] at hd
    simp [h.dueTasks hd] at hpc

theorem checkTasks (h : WakeInv ops due W) (hpc : W.pc = .checkTasks) (w : Nat) (k : Int) :
    WakeInv ops (due.next w (.readTasks w k))
      { W with pc := if k = 0 then .storeToken else .sweep 0 } := by
  have ha := h.armed (by simp [hpc, WorkerPc.afterFetchSub])
  have hpc' : ∀ p, (if k = 0 then WorkerPc.storeToken else .sweep 0) = p →
      p = .storeToken ∨ p = .sweep 0 := by intro p hp; split at hp <;> simp [← hp]
  refine ⟨h.nonneg, fun _ => ha, h.zero_iff, h.history, fun hd => ?_, fun hd => ?_⟩
  · by_cases hdt : due = .readTasks
    · simp [LoopTop.next, hdt] at hd
    · have hd' : due = .readStop := by simpa [LoopTop.next, hdt] using hd
      have h2 := (h.dueStop hd').1 (.inl hpc)
      refine ⟨fun _ => h2, fun hp => ?_⟩
      rcases hpc' _ rfl with hq | hq <;> simp [hq] at hp
  · by_cases hdt : due = .readTasks <;> simp [LoopTop.next, hdt] at hd

theorem storeToken (h : WakeInv ops due W) (hpc : W.pc = .storeToken) :
    WakeInv ops due { W with pc := .decRequests, tokenValid := true, notified := false } :=
  ⟨h.nonneg, fun _ => h.armed (by simp [hpc, WorkerPc.afterFetchSub]), h.zero_iff, h.history,
    fun hd => ⟨fun _ => (h.dueStop hd).1 (.inr (.inl hpc)), by simp⟩,
    fun hd => by simp [h.dueTasks hd] at hpc⟩

/-- The `fetch_sub` of `sleep`, from below `INT_MAX`. -/
theorem decRequests (h : WakeInv ops due W) (hpc : W.pc = .decRequests)
    (hfit : W.wakeRequests < 2 ^ 31 - 1) :
    WakeInv (ops ++ [.fetchSub W.wakeRequests]) due { W with
      pc := if W.wakeRequests = 1 then .checkStop else .invalidate
      wakeRequests := toInt32 (W.wakeRequests - 1) } := by
  have ha := h.armed (by simp [hpc, WorkerPc.afterFetchSub])
  rw [toInt32_eq_self (by omega) (by omega)]
  refine ⟨by simp; omega, fun hf => ?_, by simp; omega, h.history.concat (by simp), fun hd => ?_,
    fun hd => by simp [h.dueTasks hd] at hpc⟩
  · split at hf <;> simp [WorkerPc.afterFetchSub] at hf
  · have h2 := (h.dueStop hd).1 (.inr (.inr hpc))
    have h1 : W.wakeRequests ≠ 1 := by omega
    simp [h1]

theorem checkStop (h : WakeInv ops due W) (hpc : W.pc = .checkStop) (stop : Bool) :
    WakeInv ops due { W with pc := if stop then .invalidate else .parked } := by
  refine ⟨h.nonneg, fun hf => ?_, h.zero_iff, h.history,
    fun hd => ⟨fun hp => ?_, fun _ => (h.dueStop hd).2 (.inl hpc)⟩,
    fun hd => by simp [h.dueTasks hd] at hpc⟩
  · cases stop <;> simp [WorkerPc.afterFetchSub] at hf
  · cases stop <;> simp at hp

theorem wake (h : WakeInv ops due W) (hpc : W.pc = .parked) :
    WakeInv ops due { W with pc := .invalidate } :=
  ⟨h.nonneg, fun hf => by simp [WorkerPc.afterFetchSub] at hf, h.zero_iff, h.history, by simp,
    fun hd => by simp [h.dueTasks hd] at hpc⟩

theorem invalidate (h : WakeInv ops due W) (hpc : W.pc = .invalidate) :
    WakeInv ops due { W with pc := .rearm, tokenValid := false } :=
  ⟨h.nonneg, fun hf => by simp [WorkerPc.afterFetchSub] at hf, h.zero_iff, h.history, by simp,
    fun hd => by simp [h.dueTasks hd] at hpc⟩

theorem rearm (h : WakeInv ops due W) (hpc : W.pc = .rearm) :
    WakeInv (ops ++ [.store]) due { W with pc := .loadHint, wakeRequests := 1 } :=
  ⟨by simp, fun _ => le_rfl, by simp, h.history.concat (by simp), by simp,
    fun hd => by simp [h.dueTasks hd] at hpc⟩

end WakeInv

/-- The invariant of worker `w` in the state `s` after the events `evs`. -/
def WorkerWake (evs : List Event) (s : Pool) (w : Nat) : Prop :=
  WakeInv (wakeOps w evs) (loopTopDue w evs) (s.workers w)

section Step

variable {lineCount : Nat} {evs : List Event} {s s' : Pool} {w : Nat} {e : Event}

/-- Every step of worker `w` from below `INT_MAX` keeps its invariant. -/
theorem WorkerStep.workerWake (hs : WorkerStep lineCount s w e s')
    (hfit : (s.workers w).wakeRequests < 2 ^ 31 - 1) (h : WorkerWake evs s w) :
    WorkerWake (evs ++ [e]) s' w := by
  unfold WorkerWake at *
  rw [wakeOps_concat, loopTopDue_concat]
  cases hs with
  | loop hpc => simpa [Event.wakeOp] using h.loop hpc w s.stopRequested
  | checkTasks hpc => simpa [Event.wakeOp] using h.checkTasks hpc w s.numTasks
  | storeToken hpc => simpa [Event.wakeOp, LoopTop.next] using h.storeToken hpc
  | decRequests hpc => simpa [Event.wakeOp, LoopTop.next] using h.decRequests hpc hfit
  | checkStop hpc => simpa [Event.wakeOp, LoopTop.next] using h.checkStop hpc s.stopRequested
  | wake hpc => simpa [Event.wakeOp, LoopTop.next] using h.wake hpc
  | invalidate hpc => simpa [Event.wakeOp, LoopTop.next] using h.invalidate hpc
  | rearm hpc => simpa [Event.wakeOp, LoopTop.next] using h.rearm hpc
  | sweepMiss hpc =>
    simp only [Event.wakeOp, Option.toList, List.append_nil, LoopTop.next, Pool.setWorker_workers,
      update_same]
    exact h.free (by simp [hpc, WorkerPc.free]) (by split <;> rfl) rfl
  | _ hpc =>
    simp only [Event.wakeOp, Option.toList, List.append_nil, LoopTop.next, Pool.setWorker_workers,
      update_same]
    exact h.free (by simp [hpc, WorkerPc.free]) rfl rfl

/-- Every step from a state where no counter is at an end of `int` keeps the invariant of every
worker. -/
theorem Step.workerWake (hs : Step lineCount s e s') (hfit : s.Fits) (h : WorkerWake evs s w) :
    WorkerWake (evs ++ [e]) s' w := by
  unfold WorkerWake at *
  rcases hs.onWorker w with
    hw | ⟨hW, he, -⟩ | ⟨rfl, hW, -⟩ | ⟨rfl, ⟨hint, hW⟩, -⟩ | ⟨rfl, hW⟩
  · exact hw.workerWake (hfit.2.2 w) h
  · rw [wakeOps_concat, loopTopDue_concat, Event.wakeOp_of_ofWorker he,
      LoopTop.next_of_ofWorker he, hW]
    simpa using h
  · rw [wakeOps_concat, loopTopDue_concat, hW]
    simpa [Event.wakeOp, LoopTop.next] using h.fetchAdd (hfit.2.2 w)
  · rw [wakeOps_concat, loopTopDue_concat, hW]
    simpa [Event.wakeOp, LoopTop.next] using h.storeHint hint
  · rw [wakeOps_concat, loopTopDue_concat, hW]
    simpa [Event.wakeOp, LoopTop.next] using h.notify

/-- The invariant of every worker in every state reached without wrap-around. -/
theorem SafeReachable.workerWake {evs : List Event} {s : Pool}
    (hr : SafeReachable lineCount evs s) (w : Nat) : WorkerWake evs s w := by
  induction hr with
  | refl => exact WakeInv.init w
  | tail hr hs _ ih => exact hs.workerWake hr.fits ih

/-- The value a `fetch_add` on worker `w` reads is its `wake_requests_`. -/
theorem Step.fetchAdd_old (hs : Step lineCount s (.wakeRequests w (.fetchAdd v)) s') :
    v = (s.workers w).wakeRequests := by
  rcases hs.onWorker w with hw | ⟨-, he, -⟩ | ⟨he, -⟩ | ⟨he, -⟩ | ⟨he, -⟩
  · cases hw
  · simp [Event.ofWorker] at he
  · injection he with _ he; injection he
  · cases he
  · cases he

end Step

/-! ### The protocol -/

/-- The `wake_requests_` protocol of worker `w` in a state `s` reached by the events `evs`. -/
structure WakeSpec (lineCount : Nat) (evs : List Event) (s : Pool) (w : Nat) : Prop where
  /-- `wake_requests_` is 0 exactly when the last access to it was a `fetch_sub` that returned 1:
  no `fetch_add` and no re-arm store came since -/
  zero_iff : (s.workers w).wakeRequests = 0 ↔ (wakeOps w evs).getLast? = some (.fetchSub 1)
  /-- and then the worker is inside `sleep`, between that `fetch_sub` and its re-arm store -/
  zero_inside : (s.workers w).wakeRequests = 0 → (s.workers w).pc.afterFetchSub = true
  /-- every `fetch_add` that returns 0 comes right after a `fetch_sub` that returned 1, so at most
  one `try_notify` succeeds per call of `sleep` -/
  success_after : SuccessAfterFetchSub (wakeOps w evs)
  /-- and it happens while the worker is inside that call -/
  success_inside : ∀ s', Step lineCount s (.wakeRequests w (.fetchAdd 0)) s' →
    (s.workers w).pc.afterFetchSub = true
  /-- a worker that has not run the top of its loop since the last `fetch_add` on it is parked on
  an un-notified token only while a successful `try_notify` on it has still to notify it -/
  parked_notifying : (s.workers w).Parked → loopTopDue w evs ≠ .clear → s.notifying w = true

/-- The `wake_requests_` protocol holds for every worker in every state reached by a run on which
no counter wraps around. -/
theorem wake_requests_protocol {lineCount : Nat} {evs : List Event} {s : Pool}
    (hr : SafeReachable lineCount evs s) (w : Nat) : WakeSpec lineCount evs s w := by
  have h := hr.workerWake w
  have g := hr.reachable.wakeGuard w
  have hz : (s.workers w).wakeRequests = 0 → (s.workers w).pc.afterFetchSub = true := fun hz => by
    by_contra hf; have := h.armed (by simpa using hf); omega
  refine ⟨h.zero_iff, hz, h.history, fun s' hs => hz (hs.fetchAdd_old).symm,
    fun ⟨hp, hn⟩ hd => ?_⟩
  have hdue : loopTopDue w evs = .readStop := by
    cases hd' : loopTopDue w evs with
    | clear => exact absurd hd' hd
    | readStop => rfl
    | readTasks => simp [h.dueTasks hd'] at hp
  have := (h.dueStop hdue).2 (.inr hp)
  exact g.obligation (.inr hp) (by omega) hn

/-- On a pool of two lines, a `try_notify` on worker 0 whose `fetch_add` falls between the worker's
`fetch_sub` and its check of `stop_requested_`: the worker then parks on a token nobody has
notified yet, and it has not run the top of its loop since that `fetch_add`; the protocol holds
there, the notify of the `try_notify` being still to come. -/
theorem wake_requests_protocol_parked :
    ∃ evs s, SafeReachable 2 evs s ∧ (s.workers 0).Parked ∧ loopTopDue 0 evs = .readStop ∧
      WakeSpec 2 evs s 0 := by
  have r := Run.tail (Run.refl Pool.init)
    (Step.worker (w := 0) (by decide : 0 < 2) (WorkerStep.loop rfl))
  have r := Run.tail r (Step.worker (w := 0) (by decide : 0 < 2) (WorkerStep.checkTasks rfl))
  have r := Run.tail r (Step.worker (w := 0) (by decide : 0 < 2) (WorkerStep.storeToken rfl))
  have r := Run.tail r (Step.worker (w := 0) (by decide : 0 < 2) (WorkerStep.decRequests rfl))
  have r := Run.tail r (Step.startEnqueue 5 rfl (by decide) (by decide))
  have r := Run.tail r (Step.enqueue (i := 0) (EnqueueStep.clearLinks rfl))
  have r := Run.tail r (Step.enqueue (i := 0) (EnqueueStep.fetchIndex rfl))
  have r := Run.tail r (Step.enqueue (i := 0) (EnqueueStep.probeHit rfl))
  have r := Run.tail r (Step.enqueue (i := 0) (EnqueueStep.increment rfl))
  have r := Run.tail r (Step.enqueue (i := 0) (EnqueueStep.notifyAdd rfl (by decide : 0 < 2)))
  have r := Run.tail r (Step.worker (w := 0) (by decide : 0 < 2) (WorkerStep.checkStop rfl))
  have hr := Reachable.safe r (by decide)
  exact ⟨_, _, hr, ⟨rfl, rfl⟩, rfl, wake_requests_protocol hr 0⟩

/-- `wake_requests_` wraps around outside `sleep`. On a pool of one line whose worker stays at the
top of its loop, `2^32 - 1` rounds of `enqueue` and `extract_task` bring the worker's
`wake_requests_` to 0 without any `fetch_sub`, and the `try_notify` of the next `enqueue` finds 0
and succeeds while the worker is not in `sleep`. -/
theorem wake_requests_wrap :
    ∃ evs s s', Reachable 1 evs s ∧ (s.workers 0).pc = .loop ∧ (s.workers 0).wakeRequests = 0 ∧
      Step 1 s (.wakeRequests 0 (.fetchAdd 0)) s' ∧ s'.notifying 0 = true := by
  obtain ⟨evs, s, r, h⟩ := Idle.wrapped
  have hwd : s.heap.workerData 0 = none :=
    h.represents.workerData_eq_none_iff.mpr fun _ => List.not_mem_nil 0
  obtain ⟨_, r₁⟩ := Run.enqueuePush (t := 0) hwd (fun x hx _ => h.enqueues x hx)
    fun x hx _ => by obtain ⟨b, hb⟩ := h.extracts x hx; simp [hb, ExtractPc.beforeLock]
  have hw0 : (s.workers 0).wakeRequests = 0 := by simp [h.worker]
  exact ⟨_, _, _, r.append r₁, by simp [h.worker], hw0, by
    rw [← hw0]
    exact Step.enqueue (i := s.enqueues.length)
      (@EnqueueStep.notifyAdd _ _ _ 0 0 0 (by simp [h.numTasks]) Nat.one_pos),
    by simp [Pool.notifying, Pool.setEnqueue, EnqueuePc.notifying, NotifyStep.pending, hw0]⟩

end Concore2full.ThreadPool
