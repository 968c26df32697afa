import JobSystem.Places

/-! A pushed job never leaves the queue that `AddJob` chose for it: `StealJob` takes the jobs it
moves from the worker's own queue. -/
namespace JobSystem
open TransitionSystem
variable {n : ℕ} {m : WaitMode} {k q : Fin n} {r : JobId} {s t : State n} {a : Action n}

theorem WorkerStep.pushed (h : WorkerStep m k s t) (hr : s.Pushed r) : t.Pushed r := by
  obtain ⟨⟨hu, hc⟩, hf⟩ := hr
  cases h with
  | @start j | @delete j =>
    by_cases hj : r = j
    · subst hj; exact ⟨by simp [State.Submitted], hf⟩
    · exact ⟨by simpa [State.Submitted, hj] using ⟨hu, hc⟩, hf⟩
  | notifyFrame | exitNotify => exact ⟨⟨hu, hc⟩, by simpa [Ownership.notifyAll_hand] using hf⟩
  | _ => exact ⟨⟨hu, hc⟩, hf⟩

theorem FrameStep.pushed (h : FrameStep s t) (hr : s.Pushed r) : t.Pushed r := by
  obtain ⟨hs, hf⟩ := hr
  cases h with
  | control hp hc => exact ⟨hs, by cases hc <;> simp [FramePc.hand]⟩
  | write hp | pushLock hp => exact ⟨hs, by simpa [FramePc.hand, hp] using hf⟩
  | _ => exact ⟨hs, by simp [FramePc.hand]⟩

theorem StepCase.pushed (h : StepCase m s a t) (ho : Ownership s) (hr : s.Pushed r) :
    t.Pushed r := by
  cases h with
  | worker h => exact h.pushed hr
  | frame h => exact h.pushed hr
  | createJob f hi =>
    have hne : r ≠ s.nextJob := fun he => hr.1.1 (ho.unallocated.mpr (Nat.le_of_eq he.symm))
    exact ⟨by simpa [State.Submitted, callStep, hne] using hr.1,
      by simp [callStep, hi, FramePc.hand]⟩
  | @addDependency d x hi _ _ hm =>
    have hl := (addDependency_onlyJobs s d x).lifecycle
    refine ⟨by simpa [State.Submitted, hl] using hr.1, ?_⟩
    obtain hf | hf := callStep_frame hi (.addDependency d x)
    · simp [hf, FramePc.hand]
    · simp_all [FramePc.hand]
  | @addJob j hi hj =>
    have hne : r ≠ j := by rintro rfl; exact hr.1.2 hj
    exact ⟨by simpa [State.Submitted, callStep, hne] using hr.1,
      by simpa [callStep, FramePc.hand] using hne.symm⟩
  | exit | waitForAllJobs | joinJobs => exact ⟨hr.1, by simp [FramePc.hand]⟩
  | wakeFrame => exact ⟨hr.1, by simp [FramePc.hand]⟩
  | quit | wakeWorker => exact hr

theorem WorkerStep.queue_field (h : WorkerStep m k s t) (ho : Ownership s) :
    (t.jobs r).queue = (s.jobs r).queue := by
  cases h with
  | @decrement j i d =>
    by_cases hd : r = d
    · subst hd; simp
    · simp [hd]
  | @stealWrite j hp =>
    by_cases hj : r = j
    · subst hj
      have hk := ho.queue (mem_holdings_of_hand (k := k) (j := r) (by rw [hp]; rfl))
      simp [hk]
    · simp [hj]
  | _ => rfl

theorem addDependency_queue (s : State n) (d x r : JobId) :
    ((callStep s (.addDependency d x)).jobs r).queue = (s.jobs r).queue := by
  obtain hm | hm := Nat.lt_or_ge (s.jobs x).dependentCount maxDependentCount
  · rw [callStep_addDependency hm]
    by_cases hd : r = d <;> by_cases hx : r = x <;> simp_all
  · rw [callStep_exit hm, State.gotoFrame_jobs]

/-- The queue that a pushed job names is never overwritten by another one. -/
theorem StepCase.queue_field (h : StepCase m s a t) (ho : Ownership s) (hr : s.Pushed r) :
    (t.jobs r).queue = (s.jobs r).queue := by
  cases h with
  | worker h => exact h.queue_field ho
  | frame h =>
    cases h with
    | @write j hp =>
      have hne : r ≠ j := by rintro rfl; exact hr.2 (by rw [hp]; rfl)
      simp [hne]
    | _ => rfl
  | createJob f hi =>
    have hne : r ≠ s.nextJob := fun he => hr.1.1 (ho.unallocated.mpr (Nat.le_of_eq he.symm))
    simp [callStep, hne]
  | @addDependency d x _ _ _ hm => exact addDependency_queue s d x r
  | _ => rfl

/-- Only the worker whose queue a job names starts it. -/
theorem StepCase.start_mem (h : StepCase m s a t) (ho : Ownership s)
    (hs : .start k r ∈ t.history) : .start k r ∈ s.history ∨ (s.jobs r).queue = some k := by
  obtain he | ⟨e, he, hstart⟩ := h.history
  · exact .inl (he ▸ hs)
  · rw [he] at hs
    obtain hs | hs := List.mem_cons.mp hs
    · obtain ⟨hp, -⟩ := hstart k r hs.symm
      exact .inr (ho.queue (mem_holdings_of_hand (by rw [hp]; rfl)))
    · exact .inl hs

/-- The job belongs to another queue than `k`'s, and worker `k` has not started it. -/
structure Foreign (s : State n) (k : Fin n) (r : JobId) : Prop where
  pushed : s.Pushed r
  queue : (s.jobs r).queue ≠ some k
  not_started : .start k r ∉ s.history

theorem Foreign.step (h : Foreign s k r) (ho : Ownership s) (ht : StepCase m s a t) :
    Foreign t k r where
  pushed := ht.pushed ho h.pushed
  queue := by rw [ht.queue_field ho h.pushed]; exact h.queue
  not_started hs := (ht.start_mem ho hs).elim h.not_started h.queue

theorem Foreign.path [NeZero n] {A : Action n → Prop} (h : Foreign s k r)
    (hr : (jobSystem n m).Reachable s) (hp : (jobSystem n m).Path A s t) : Foreign t k r := by
  refine hp.invariant (I := fun u => Foreign u k r) ?_ hr h
  intro u a v hu hf _ ht
  exact hf.step (reachable_ownership hu) (step_cases ht)

/-- Worker `k` is in its loop without a job and its queue is empty, while the workable job `r` lies
in queue `q` of another worker. -/
structure IdleBeside (s : State n) (k q : Fin n) (r : JobId) : Prop where
  isRunning : s.isRunning = true
  stopped : s.stopped = false
  empty : (s.queues k).deque = []
  hand : (s.worker k).hand = none
  other : q ≠ k
  queued : r ∈ (s.queues q).deque
  workable : (s.jobs r).dependencyCount = 0

theorem IdleBeside.foreign [NeZero n] (hi : IdleBeside s k q r)
    (h : (jobSystem n m).Reachable s) : Foreign s k r := by
  have ho := reachable_ownership h
  have hl := ho.queued hi.queued
  have hm := mem_holdings_of_queue hi.queued
  refine ⟨⟨by simp [State.Submitted, hl], fun hf => (ho.frame hf).2 q hm⟩, ?_, fun hs => ?_⟩
  · rw [ho.queue hm]
    simpa using hi.other
  · have hst : s.Started r :=
      ((reachable_recorded h).starts r).iff_exists.mpr ⟨_, hs, by simp [Event.startOf]⟩
    simp [State.Started, hl] at hst

/-- The idle worker never executes the job, whatever the other threads do, what else is added and
what `rand()` draws. -/
theorem idle_never_executes_foreign [NeZero n] (h : (jobSystem n m).Reachable s)
    (hi : IdleBeside s k q r) (A : Action n → Prop) :
    ¬ ∃ t, (jobSystem n m).Path A s t ∧ .start k r ∈ t.history := by
  rintro ⟨t, hp, hs⟩
  exact ((hi.foreign h).path h hp).not_started hs

/-- Two workers and one job in the queue of the first. -/
theorem exists_idleBeside : ∃ s : State 2, (jobSystem 2 .conditionVariable).Reachable s ∧
    IdleBeside s 1 0 0 := by
  obtain ⟨s, hr, h1, h2, h3, h4, h5, h6⟩ := exists_of_execute (n := 2) (m := .conditionVariable)
    (l := .call (.createJob 0) :: addJobActions 0)
    (p := fun s => s.isRunning = true ∧ s.stopped = false ∧ (s.queues 1).deque = [] ∧
      (s.worker 1).hand = none ∧ 0 ∈ (s.queues 0).deque ∧ (s.jobs 0).dependencyCount = 0)
    (by decide +kernel)
  exact ⟨s, hr, h1, h2, h3, h4, by decide, h5, h6⟩

theorem idle_never_executes_foreign_two_workers : ∃ s : State 2, IdleBeside s 1 0 0 ∧
    ¬ ∃ t, (jobSystem 2 .conditionVariable).Path (fun _ => True) s t ∧ .start 1 0 ∈ t.history := by
  obtain ⟨s, hr, hi⟩ := exists_idleBeside
  exact ⟨s, hi, idle_never_executes_foreign hr hi _⟩

/-- Without any further `AddJob` there is no continuation in which the idle worker executes the
job. -/
theorem idle_takeover_fails : ∃ s : State 2, (jobSystem 2 .conditionVariable).Reachable s ∧
    IdleBeside s 1 0 0 ∧
    ¬ ∃ t, (jobSystem 2 .conditionVariable).Path (fun a => ∀ j, a ≠ .call (.addJob j)) s t ∧
      .start 1 0 ∈ t.history := by
  obtain ⟨s, hr, hi⟩ := exists_idleBeside
  refine ⟨s, hr, hi, ?_⟩
  rintro ⟨t, hp, hs⟩
  exact ((hi.foreign hr).path hr hp).not_started hs

end JobSystem
