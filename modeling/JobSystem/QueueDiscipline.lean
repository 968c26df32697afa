import JobSystem.Library.Deque
import JobSystem.Mutex

/-! The discipline of one `JobQueue` over whole histories of `Push`, `Pop` and `Steal`, and that
the steps of all threads act on each queue by these three operations only. -/
namespace JobSystem
open TransitionSystem Deque
variable {n : ℕ} {m : WaitMode} {k : Fin n} {s t : State n} {a : Action n}

/-- A call on the queue, its critical section taken as one step. -/
def JobQueue.apply (q : JobQueue) : Op JobId → JobQueue
  | .push j => q.push j
  | .pop => q.pop.2
  | .steal => q.steal.2

/-- The queue after the calls of all threads, in the order in which they took its mutex. -/
def JobQueue.after (ops : List (Op JobId)) : JobQueue := ops.foldl JobQueue.apply {}

theorem deque_apply (q : JobQueue) (o : Op JobId) : (q.apply o).deque = o.apply q.deque := by
  cases o <;> rfl

theorem deque_after (ops : List (Op JobId)) :
    (JobQueue.after ops).deque = ops.foldl Op.apply [] := by
  induction ops using List.reverseRecOn with
  | nil => rfl
  | append_singleton ops o ih =>
    rw [JobQueue.after, List.foldl_append, List.foldl_append, ← ih]
    exact deque_apply _ o

theorem deque_eq_present (ops : List (Op JobId)) :
    (JobQueue.after ops).deque = (Tracked.run ops).present.map Prod.fst := by
  rw [deque_after, Tracked.present_run]

/-- `Pop` returns the entry at the back, `Steal` the one at the front. -/
theorem pop_after (ops : List (Op JobId)) :
    (JobQueue.after ops).pop.1 = (Tracked.run ops).present.getLast?.map Prod.fst := by
  rw [JobQueue.pop, deque_eq_present, List.getLast?_map]

theorem steal_after (ops : List (Op JobId)) :
    (JobQueue.after ops).steal.1 = (Tracked.run ops).present.head?.map Prod.fst := by
  rw [JobQueue.steal, deque_eq_present, List.head?_map]

/-- Queue discipline, for every history: the entries removed by `Pop`, those removed by `Steal` and
those present are the entries pushed, none of them twice; what is stolen comes out in the order
of the pushes; a `Pop` takes the latest entry that remains and a `Steal` the earliest, and
either returns null exactly when none remains. -/
theorem queue_discipline (ops : List (Op JobId)) :
    let q := JobQueue.after ops
    let t := Tracked.run ops
    t.pushes = ops.filterMap Op.pushee ∧ q.deque = t.present.map Prod.fst ∧
      (t.popped ++ t.stolen ++ t.present).Perm t.pushed ∧
      (t.popped ++ t.stolen ++ t.present).Nodup ∧ t.stolen.Pairwise (·.2 < ·.2) ∧
      (∀ j, q.pop.1 = some j → ∃ e, e.1 = j ∧ t.Remains e ∧ (∀ e', t.Remains e' → e'.2 ≤ e.2) ∧
        (Tracked.run (ops ++ [.pop])).popped = t.popped ++ [e]) ∧
      (∀ j, q.steal.1 = some j → ∃ e, e.1 = j ∧ t.Remains e ∧ (∀ e', t.Remains e' → e.2 ≤ e'.2) ∧
        (Tracked.run (ops ++ [.steal])).stolen = t.stolen ++ [e]) ∧
      (q.pop.1 = none ↔ ∀ e ∈ t.pushed, e ∈ t.removed) ∧
      (q.steal.1 = none ↔ ∀ e ∈ t.pushed, e ∈ t.removed) := by
  intro q t
  have h : t.Sound := Tracked.sound_run ops
  refine ⟨Tracked.pushes_run ops, deque_eq_present ops, h.partition, h.nodup, h.stolen_ordered,
    fun j hj => ?_, fun j hj => ?_, ?_, ?_⟩
  · rw [pop_after, Option.map_eq_some_iff] at hj
    obtain ⟨e, he, rfl⟩ := hj
    obtain ⟨hr, hlast⟩ := h.getLast_latest he
    refine ⟨e, rfl, hr, hlast, ?_⟩
    rw [Tracked.run_concat, Tracked.step, he]
    rfl
  · rw [steal_after, Option.map_eq_some_iff] at hj
    obtain ⟨e, he, rfl⟩ := hj
    obtain ⟨hr, hfirst⟩ := h.head_earliest he
    refine ⟨e, rfl, hr, hfirst, ?_⟩
    rw [Tracked.run_concat, Tracked.step, he]
    rfl
  · rw [pop_after, Option.map_eq_none_iff, List.getLast?_eq_none_iff]
    exact h.present_eq_nil
  · rw [steal_after, Option.map_eq_none_iff, List.head?_eq_none_iff]
    exact h.present_eq_nil

/-- A queue by itself, under any calls. -/
def queueSystem : System (List JobId) (Op JobId) where
  init l := l = []
  step l o l' := l' = o.apply l

theorem reachable_queue {l : List JobId} (h : queueSystem.Reachable l) :
    ∃ ops, l = (JobQueue.after ops).deque := by
  induction h with
  | init h => exact ⟨[], h⟩
  | @step _ o _ _ ht ih =>
    obtain ⟨ops, rfl⟩ := ih
    refine ⟨ops ++ [o], ht.trans ?_⟩
    rw [deque_after, deque_after, List.foldl_append]
    rfl

theorem WorkerStep.deque (h : WorkerStep m k s t) :
    (t.queues k).deque = (s.queues k).deque ∨
      ∃ o : Op JobId, (t.queues k).deque = o.apply (s.queues k).deque := by
  cases h with
  | getJob => exact .inr ⟨.pop, by simp [JobQueue.pop, Op.apply]⟩
  | @pushBack site j => exact .inr ⟨.push j, by simp [JobQueue.push, Op.apply]⟩
  | steal => exact .inr ⟨.steal, by simp [JobQueue.steal, Op.apply]⟩
  | pushLock | pushUnlock => exact .inl (by simp)
  | _ => exact .inl rfl

/-- Every step of the system acts on a queue by one of its three operations or not at all. -/
theorem refines_queue [NeZero n] (k : Fin n) :
    (jobSystem n m).Refinement queueSystem fun s => (s.queues k).deque where
  init s hs := by subst hs; rfl
  step s a t _ ht := by
    cases step_cases ht with
    | @worker k' _ _ h =>
      by_cases hk : k = k'
      · subst hk; exact h.deque
      · exact .inl (by rw [h.queues_of_ne hk])
    | frame h =>
      cases h with
      | @pushBack j q hp =>
        by_cases hq : k = q
        · subst hq; exact .inr ⟨.push j, by simp [JobQueue.push, queueSystem, Op.apply]⟩
        · exact .inl (by simp [hq])
      | @pushLock j q | @pushUnlock j q =>
        refine .inl ?_
        by_cases hq : k = q
        · subst hq; simp
        · simp [hq]
      | _ => exact .inl rfl
    | @addDependency d x => exact .inl (by rw [(addDependency_onlyJobs s d x).queues])
    | _ => exact .inl rfl

/-- In every run, what a queue holds is what a history of calls on it has left. -/
theorem reachable_queue_history [NeZero n] (h : (jobSystem n m).Reachable s) (k : Fin n) :
    ∃ ops, (s.queues k).deque = (JobQueue.after ops).deque :=
  reachable_queue ((refines_queue k).reachable h)

end JobSystem
