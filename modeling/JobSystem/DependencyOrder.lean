import JobSystem.History
import JobSystem.Library.Precedence

/-! Seen through its starts, returns and declared dependencies, a run is a log of the abstract
scheduler: a job starts only after all it depends on has returned. -/
namespace JobSystem
open TransitionSystem
variable {n : ℕ} {m : WaitMode} {k : Fin n} {j d x : JobId} {i : ℕ} {s t : State n}
  {e : Event n} {pre post : List (Event n)}

/-- What the abstract scheduler sees of an event. -/
def Event.order : Event n → Option (Precedence.Event JobId)
  | .addDependency d x => some (.link d x)
  | .start _ j => some (.start j)
  | .ret _ j => some (.ret j)
  | _ => none

def State.order (s : State n) : List (Precedence.Event JobId) := s.history.filterMap Event.order

/-- `AddDependency(j, x)` has been called. -/
def State.DependsOn (s : State n) (j x : JobId) : Prop := .addDependency j x ∈ s.history

theorem link_mem_order {l : List (Event n)} :
    .link d x ∈ l.filterMap Event.order ↔ .addDependency d x ∈ l := by
  rw [List.mem_filterMap]
  constructor
  · rintro ⟨e, he, ho⟩
    cases e <;> simp_all [Event.order]
  · exact fun he => ⟨_, he, rfl⟩

theorem exists_ret_of_mem_order {l : List (Event n)} (h : .ret x ∈ l.filterMap Event.order) :
    ∃ k, .ret k x ∈ l := by
  obtain ⟨e, he, ho⟩ := List.mem_filterMap.mp h
  cases e with
  | ret k j => obtain rfl : j = x := by simpa [Event.order] using ho
               exact ⟨k, he⟩
  | _ => simp [Event.order] at ho

theorem start_mem_order (h : .start k j ∈ s.history) : .start j ∈ s.order :=
  List.mem_filterMap.mpr ⟨_, h, rfl⟩

theorem order_eq_start : e.order = some (.start j) ↔ e.startOf j = true := by
  cases e <;> simp [Event.order, Event.startOf]

theorem order_eq_ret : e.order = some (.ret j) ↔ e.returnOf j = true := by
  cases e <;> simp [Event.order, Event.returnOf]

theorem Recorded.start_mem_order (h : Recorded s) : .start j ∈ s.order ↔ s.Started j := by
  rw [State.order, List.mem_filterMap, (h.starts j).iff_exists]
  simp only [order_eq_start]

theorem Recorded.ret_mem_order (h : Recorded s) : .ret j ∈ s.order ↔ s.Returned j := by
  rw [State.order, List.mem_filterMap, (h.returns j).iff_exists]
  simp only [order_eq_ret]

/-- An edge that is not pending comes from a job that has returned. -/
theorem returned_of_not_pending (h : ¬ s.Pending (x, i)) : s.Returned x := by
  by_cases hf : s.lifecycle x = .finished
  · exact .inl hf
  · obtain ⟨k, hk⟩ : ∃ k, i < (s.worker k).decremented x := by
      simpa [State.Pending, hf] using h
    exact .inr ⟨k, returnedJob_of_decremented (by omega)⟩

/-- The job that a worker is about to start depends on returned jobs only. -/
theorem returned_of_cleared [NeZero n] (h : (jobSystem n m).Reachable s) (hf : s.FewEdges)
    (hc : s.Cleared j) (hd : s.DependsOn j x) : s.Returned x := by
  obtain ⟨i, hi⟩ := (reachable_recorded h).links.mp hd
  refine returned_of_not_pending (i := i) fun hp => ?_
  have hempty := reachable_cleared h hf hc
  have hmem : (x, i) ∈ s.pendingEdges j := mem_pendingEdges.mpr ⟨hi, hp⟩
  simp [hempty] at hmem

/-- Every step is one of the abstract scheduler, or none. -/
theorem refines_scheduler [NeZero n] :
    ((jobSystem n m).restrict fun s _ => s.FewEdges).Refinement (Precedence.scheduler JobId)
      State.order where
  init s hs := hs ▸ rfl
  step s a t hr ht := by
    obtain ⟨hf, ht⟩ := ht
    have hr := hr.of_restrict
    have ho := reachable_ownership hr
    have hrec := reachable_recorded hr
    have hlog {e : Event n} (hh : t.history = e :: s.history) (he : e.order = none) :
        t.order = s.order := by simp [State.order, hh, he]
    have hnew {e : Event n} {e'} (hh : t.history = e :: s.history) (he : e.order = some e') :
        t.order = e' :: s.order := by simp [State.order, hh, he]
    have hjob := (step_cases ht).jobStep
    cases hjob with
    | quiet hq => exact .inl (congrArg (List.filterMap _) hq.history)
    | ready | createJob | addJob => exact .inl rfl
    | decrement | delete => exact .inl (hlog rfl rfl)
    | @start k j hp =>
      refine .inr ⟨.start j, ⟨?_, fun x hx => ?_⟩, hnew rfl rfl⟩
      · have hl := ho.submitted_of_hand (k := k) (j := j) (by simp [hp, WorkerPc.hand])
          (by simp [hp, WorkerPc.startedJob])
        simp [hrec.start_mem_order, State.Started, hl]
      · exact hrec.ret_mem_order.mpr
          (returned_of_cleared hr hf (.inl ⟨k, hp⟩) (link_mem_order.mp hx))
    | @ret k j hp =>
      have hl := ho.running_of_startedJob (k := k) (j := j) (by simp [hp, WorkerPc.startedJob])
      refine .inr ⟨.ret j, ⟨hrec.start_mem_order.mpr (.inl hl), fun hret => ?_⟩, hnew rfl rfl⟩
      rcases hrec.ret_mem_order.mp hret with hfin | ⟨k', hk'⟩
      · simp [hl] at hfin
      · have hand : (s.worker k).hand = some j := by simp [hp, WorkerPc.hand]
        obtain rfl := ho.hand_unique hand (hand_of_returnedJob hk')
        simp [hp, WorkerPc.returnedJob] at hk'
    | @addDependency d x hd hx hm =>
      refine .inr ⟨.link d x, ?_, hnew (e := .addDependency d x) ?_ rfl⟩
      · change .start d ∉ s.order
        simp [hrec.start_mem_order, State.Started, hd]
      · exact addDependency_history hm

/-- Edges are never removed, so a state with few edges comes from states with few edges. -/
theorem reachable_restrict_fewEdges [NeZero n] (h : (jobSystem n m).Reachable s)
    (hf : s.FewEdges) : ((jobSystem n m).restrict fun s _ => s.FewEdges).Reachable s := by
  induction h with
  | init hi => exact .init hi
  | step hr ht ih =>
    have hfs := hf.of_step (step_cases ht).jobStep (reachable_ownership hr)
    exact .step (ih hfs) ⟨hfs, ht⟩

theorem reachable_order [NeZero n] (h : (jobSystem n m).Reachable s) (hf : s.FewEdges) :
    (Precedence.scheduler JobId).Reachable s.order :=
  refines_scheduler.reachable (reachable_restrict_fewEdges h hf)

theorem dependsOn_order : Precedence.DependsOn s.order = s.DependsOn := by
  funext j x
  exact propext link_mem_order

theorem Ownership.started_of_returned (ho : Ownership s) (hj : s.Returned j) : s.Started j := by
  obtain hl | ⟨k, hk⟩ := hj
  · exact .inr hl
  · exact .inl (ho.running_of_startedJob (startedJob_of_returnedJob hk))

theorem returned_of_started [NeZero n] (h : (jobSystem n m).Reachable s) (hf : s.FewEdges)
    (hs : s.Started j) (hd : Relation.TransGen s.DependsOn j x) : s.Returned x := by
  have hr := reachable_recorded h
  rw [← dependsOn_order] at hd
  exact hr.ret_mem_order.mp
    (Precedence.ret_of_start (reachable_order h hf) (hr.start_mem_order.mpr hs) hd)

/-- Dependency order: when a worker starts a job, everything the job depends on, directly or
not, has returned. -/
theorem reachable_dependency_order [NeZero n] (h : (jobSystem n m).Reachable s) (hf : s.FewEdges)
    (hs : s.history = post ++ .start k j :: pre) (hd : Relation.TransGen s.DependsOn j x) :
    ∃ k', .ret k' x ∈ pre := by
  have ho := reachable_order h hf
  rw [← dependsOn_order] at hd
  have hsplit : s.order = post.filterMap Event.order ++ .start j :: pre.filterMap Event.order := by
    simp [State.order, hs, Event.order]
  rw [hsplit] at ho hd
  exact exists_ret_of_mem_order (Precedence.transitive_ret_before_start ho hd)

/-- Two workers and a chain of three jobs, the last of which starts on the second worker. -/
theorem dependency_order_chain : ∃ (s : State 2) (post pre : List (Event 2)),
    s.history = post ++ .start 1 2 :: pre ∧ ∃ k, .ret k 0 ∈ pre := by
  obtain ⟨s, hr, hfew, hd, hd', hh⟩ := exists_of_execute (n := 2) (m := .conditionVariable)
    (l := [.call (.createJob 0), .call (.createJob 1), .call (.createJob 2),
      .call (.addDependency 1 0), .call (.addDependency 2 1)] ++ addJobActions 1 ++
      addJobActions 2 ++ addJobActions 0 ++ workerActions 0 32 ++ workerActions 1 7)
    (p := fun s => s.nextJob * maxDependentCount < 2 ^ 32 ∧ .addDependency 1 0 ∈ s.history ∧
      .addDependency 2 1 ∈ s.history ∧
      s.history = [] ++ .start 1 2 :: s.history.tail) (by decide +kernel)
  have hdep : Relation.TransGen s.DependsOn 2 0 := .head hd' (.single hd)
  exact ⟨s, [], s.history.tail, hh,
    reachable_dependency_order hr (fewEdges_of_nextJob hfew) hh hdep⟩

end JobSystem
