import JobSystem.History

/-! Where a submitted job is: one position of one queue, the hands of one worker, or deleted. -/
namespace JobSystem
open TransitionSystem
variable {n : ℕ} {m : WaitMode} {k k' : Fin n} {j : JobId} {i i' : ℕ} {s : State n}

inductive Place (n : ℕ) where
  | queue (k : Fin n) (i : ℕ)
  | hands (k : Fin n)
  | deleted
  deriving DecidableEq

namespace State

def At (s : State n) (j : JobId) : Place n → Prop
  | .queue k i => (s.queues k).deque[i]? = some j
  | .hands k => (s.worker k).hand = some j
  | .deleted => s.lifecycle j = .finished

/-- `AddJob` has been called for the job and has done its `push_back`. -/
def Pushed (s : State n) (j : JobId) : Prop := s.Submitted j ∧ s.frame.hand ≠ some j

instance (s : State n) (j : JobId) : Decidable (s.Pushed j) :=
  inferInstanceAs (Decidable (_ ∧ _))

instance (s : State n) (j : JobId) : ∀ p, Decidable (s.At j p)
  | .queue k i => inferInstanceAs (Decidable ((s.queues k).deque[i]? = some j))
  | .hands k => inferInstanceAs (Decidable ((s.worker k).hand = some j))
  | .deleted => inferInstanceAs (Decidable (s.lifecycle j = .finished))

end State

namespace Ownership

theorem queue_nodup (h : Ownership s) (k : Fin n) : (s.queues k).deque.Nodup :=
  (List.nodup_append.mp (h.nodup k)).1

theorem not_deleted_of_queue (h : Ownership s) (hq : s.At j (.queue k i)) :
    ¬ s.At j .deleted := by
  intro hd
  have hl := h.queued (List.mem_of_getElem? hq)
  simp [State.At, hl] at hd

/-- A job is at one place at most. -/
theorem place_unique (h : Ownership s) {p p' : Place n} (hp : s.At j p) (hp' : s.At j p') :
    p = p' := by
  cases p with
  | queue k i =>
    have hm : j ∈ (s.queues k).deque := List.mem_of_getElem? hp
    cases p' with
    | queue k' i' =>
      have hm' : j ∈ (s.queues k').deque := List.mem_of_getElem? hp'
      obtain rfl := h.exclusive (mem_holdings_of_queue hm) (mem_holdings_of_queue hm')
      obtain ⟨hi, -⟩ := List.getElem?_eq_some_iff.mp hp
      obtain rfl := List.getElem?_inj hi (h.queue_nodup k) |>.mp (hp.trans hp'.symm)
      rfl
    | hands k' => exact absurd hm (h.not_mem_queue_of_hand hp')
    | deleted => exact absurd hp' (h.not_deleted_of_queue hp)
  | hands k =>
    cases p' with
    | queue k' i' => exact absurd (List.mem_of_getElem? hp') (h.not_mem_queue_of_hand hp)
    | hands k' => exact congrArg Place.hands (h.hand_unique hp hp')
    | deleted => exact absurd hp' (h.not_finished_of_hand hp)
  | deleted =>
    cases p' with
    | queue k' i' => exact absurd hp (h.not_deleted_of_queue hp')
    | hands k' => exact absurd hp (h.not_finished_of_hand hp')
    | deleted => rfl

/-- A pushed job is not lost. -/
theorem exists_place (h : Ownership s) (hj : s.Pushed j) : ∃ p, s.At j p := by
  obtain ⟨⟨hu, hc⟩, hf⟩ := hj
  have hloc (hl : s.lifecycle j = .submitted ∨ s.lifecycle j = .running) : ∃ p, s.At j p := by
    obtain ⟨k, hk⟩ := (h.located hl).resolve_left hf
    rcases mem_holdings.mp hk with hq | hh
    · obtain ⟨i, hi⟩ := List.getElem?_of_mem hq
      exact ⟨.queue k i, hi⟩
    · exact ⟨.hands k, hh⟩
  cases hl : s.lifecycle j with
  | unallocated => exact absurd hl hu
  | created => exact absurd hl hc
  | submitted => exact hloc (.inl hl)
  | running => exact hloc (.inr hl)
  | finished => exact ⟨.deleted, hl⟩

end Ownership

/-- Single ownership: a pushed job is in exactly one place, the queues hold no job twice, a
job is started and deleted at most once, and a queued job names the queue it lies in. -/
theorem reachable_single_ownership [NeZero n] (h : (jobSystem n m).Reachable s) :
    (∀ j, s.Pushed j → ∃! p, s.At j p) ∧
      (∀ k, (s.queues k).deque.Nodup) ∧
      (∀ k k', k ≠ k' → (s.queues k).deque.Disjoint (s.queues k').deque) ∧
      (∀ j, s.starts j ≤ 1 ∧ s.deletes j ≤ 1) ∧
      ∀ k, ∀ j ∈ (s.queues k).deque, (s.jobs j).queue = some k := by
  have ho := reachable_ownership h
  have hr := reachable_recorded h
  refine ⟨fun j hj => ?_, ho.queue_nodup, fun k k' hk j hj hj' => ?_,
    fun j => ⟨(hr.starts j).le_one, ?_⟩, fun k j hj => ho.queue (mem_holdings_of_queue hj)⟩
  · obtain ⟨p, hp⟩ := ho.exists_place hj
    exact ⟨p, hp, fun p' hp' => ho.place_unique hp' hp⟩
  · exact hk (ho.exclusive (mem_holdings_of_queue hj) (mem_holdings_of_queue hj'))
  · have hd := (hr.deletes j).le_one
    exact hd

/-- Two workers, three jobs: one still queued, one running, one deleted. -/
theorem single_ownership_three_jobs : ∃ s : State 2,
    (s.At 0 (.queue 0 0) ∧ s.At 1 (.hands 1) ∧ s.At 2 .deleted) ∧ (∃! p, s.At 0 p) ∧
      (∃! p, s.At 1 p) ∧ (∃! p, s.At 2 p) ∧ s.starts 1 ≤ 1 ∧ s.deletes 2 ≤ 1 := by
  obtain ⟨s, hr, hat, h0, h1, h2⟩ := exists_of_execute (n := 2) (m := .conditionVariable)
    (l := [.call (.createJob 0), .call (.createJob 1), .call (.createJob 2)] ++ addJobActions 0 ++
      addJobActions 1 ++ addJobActions 2 ++ workerActions 0 9 ++ workerActions 1 7)
    (p := fun s => (s.At 0 (.queue 0 0) ∧ s.At 1 (.hands 1) ∧ s.At 2 .deleted) ∧
      s.Pushed 0 ∧ s.Pushed 1 ∧ s.Pushed 2) (by decide +kernel)
  obtain ⟨hplace, -, -, honce, -⟩ := reachable_single_ownership hr
  exact ⟨s, hat, hplace 0 h0, hplace 1 h1, hplace 2 h2, (honce 1).1, (honce 2).2⟩

end JobSystem
