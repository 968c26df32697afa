import JobSystem.History
import JobSystem.Moves

/-! Which steps touch which job, and when the touched job may already be deleted. Between a
decrement in `~Job` and the last read of the dependent in that loop iteration, another worker can
pop, run and delete the dependent. -/
namespace JobSystem
open TransitionSystem
variable {n : ℕ} {m : WaitMode} {k k' : Fin n} {j d x : JobId} {i : ℕ} {e : JobId × ℕ}
  {s t : State n} {a : Action n}

/-- The pair `(x, i)` when the destructor of `x` has decremented `dependents[i]` and goes on to
read its counter and its queue. The `NotifyOne` that may follow reads the queue only, which is not
deleted. -/
def WorkerPc.rereading : WorkerPc n → Option (JobId × ℕ)
  | .reread j i | .readQueue j i | .rereadQueue j i => some (j, i)
  | _ => none

namespace State

def rereadDependent (s : State n) (k : Fin n) : Option JobId :=
  (s.worker k).rereading.bind fun e => (s.jobs e.1).dependentAt e.2

/-- The job whose memory the next step of worker `k` reads or writes: in `CanExecuteJob`,
`Execute`, the write of `StealJob`, and the three accesses to `dependents[i]` in `~Job`. -/
def touched (s : State n) (k : Fin n) : Option JobId :=
  match s.worker k with
  | .canExecute _ job => job
  | .execute j | .stealWrite j => some j
  | .destroy j i => if i < (s.jobs j).dependentCount then (s.jobs j).dependentAt i else none
  | _ => s.rereadDependent k

def Touches (s : State n) : Action n → JobId → Prop
  | .worker k _, j => s.touched k = some j
  | .call (.addDependency d x), j => j = d ∨ j = x
  | .frame, j => s.frame = .addJobWrite j
  | _, _ => False

/-- The step deletes a job that some worker has decremented and is still about to read. -/
def Overtakes (s : State n) : Action n → Prop
  | .worker k _ =>
    match s.worker k with
    | .destroy j i => (s.jobs j).dependentCount ≤ i ∧ ∃ k', s.rereadDependent k' = some j
    | _ => False
  | _ => False

instance (s : State n) : (a : Action n) → Decidable (s.Overtakes a)
  | .worker k _ => by
    dsimp only [Overtakes]
    cases s.worker k <;> infer_instance
  | .call _ | .frame | .quit | .wakeWorker _ | .wakeFrame => inferInstanceAs (Decidable False)

/-- No worker is about to read a deleted job. -/
def RereadsLive (s : State n) : Prop :=
  ∀ k j, s.rereadDependent k = some j → s.lifecycle j ≠ .finished

end State

theorem WorkerStep.rereading (h : WorkerStep m k s t) (he : (t.worker k).rereading = some e) :
    (s.worker k).rereading = some e ∨
      s.worker k = .destroy e.1 e.2 ∧ e.2 < (s.jobs e.1).dependentCount := by
  cases h with
  | control hp hc =>
    refine .inl ?_
    rw [State.goto_self] at he
    cases hc with
    | noJob a => cases a <;> simp [Attempt.failed, WorkerPc.rereading] at he
    | workable | hasQueue => simpa [hp, WorkerPc.rereading] using he
    | _ => simp [WorkerPc.rereading] at he
  | decrement hp hi =>
    obtain rfl : _ = e := by simpa [WorkerPc.rereading] using he
    exact .inr ⟨hp, hi⟩
  | @pushUnlock site =>
    rw [State.goto_self] at he
    cases site with
    | repush a => cases a <;> simp [PushSite.done, Attempt.failed, WorkerPc.rereading] at he
    | steal => simp [PushSite.done, WorkerPc.rereading] at he
  | steal =>
    rw [State.goto_self] at he
    cases hs : (s.queues k).steal.1 <;> simp [hs, WorkerPc.rereading] at he
  | _ => simp [WorkerPc.rereading] at he

/-- A job is deleted by the worker whose destructor has reached the end of its loop. -/
theorem StepCase.deletes (h : StepCase m s a t)
    (hj : t.lifecycle j = .finished) : s.lifecycle j = .finished ∨
      ∃ k c i, a = .worker k c ∧ s.worker k = .destroy j i ∧ (s.jobs j).dependentCount ≤ i := by
  cases h with
  | @worker k c _ h =>
    cases h with
    | @start j' hp =>
      refine .inl ?_
      have hne : j ≠ j' := by rintro rfl; simp at hj
      simpa [hne] using hj
    | @delete j' i hp hi =>
      by_cases hne : j = j'
      · subst hne
        exact .inr ⟨k, c, i, rfl, hp, hi⟩
      · exact .inl (by simpa [hne] using hj)
    | _ => exact .inl hj
  | frame h => cases h <;> exact .inl hj
  | createJob f =>
    have hne : j ≠ s.nextJob := by rintro rfl; simp [callStep] at hj
    exact .inl (by simpa [callStep, hne] using hj)
  | @addDependency d x => exact .inl ((addDependency_onlyJobs s d x).lifecycle ▸ hj)
  | @addJob j' hi hc =>
    have hne : j ≠ j' := by rintro rfl; simp [callStep] at hj
    exact .inl (by simpa [callStep, hne] using hj)
  | _ => exact .inl hj

/-- An entry of an array of dependents is written once. -/
theorem JobStep.dependentAt (h : JobStep s t) (hl : Linked s)
    (hi : i < (s.jobs x).dependentCount) : (t.jobs x).dependentAt i = (s.jobs x).dependentAt i := by
  cases h with
  | quiet hq => exact dependentAt_congr (hq.links x).dependents i
  | ready | start | ret | delete | addJob => rfl
  | @decrement k j i' d =>
    refine dependentAt_congr ?_ i
    by_cases hx : x = d <;> simp [hx]
  | createJob f =>
    have hne : x ≠ s.nextJob := by
      rintro rfl
      simp [hl.fresh le_rfl] at hi
    simp [callStep, hne]
  | @addDependency d y _ _ hm =>
    rw [(addDependency_jobs (d := d) hm x).2.1, if_neg]
    rintro ⟨rfl, rfl⟩
    exact lt_irrefl _ hi

theorem Linked.rereading_lt (h : Linked s) (he : (s.worker k).rereading = some e) :
    e.2 < (s.jobs e.1).dependentCount := by
  have hp := h.progress k e.1
  cases hw : s.worker k <;> simp_all [WorkerPc.rereading, WorkerPc.decremented] <;> grind

theorem rereadDependent_eq_some : s.rereadDependent k = some j ↔
    ∃ x i, (s.worker k).rereading = some (x, i) ∧ (s.jobs x).dependentAt i = some j := by
  simp [State.rereadDependent, Option.bind_eq_some_iff]

/-- The dependent that a destructor decrements next is not deleted. -/
theorem not_finished_of_destroy [NeZero n] (h : (jobSystem n m).Reachable s) (hf : s.FewEdges)
    (hp : s.worker k = .destroy x i) (hi : i < (s.jobs x).dependentCount)
    (hd : (s.jobs x).dependentAt i = some d) : s.lifecycle d ≠ .finished := by
  intro hfin
  have hempty := reachable_cleared h hf (.inr (.inr hfin))
  have hmem := (pendingEdges_decrement (reachable_ownership h) (reachable_linked h) hp hi hd).1
  simp [hempty] at hmem

/-- One step that does not overtake a worker leaves no worker in front of a deleted job. -/
theorem State.RereadsLive.step [NeZero n] (h : s.RereadsLive) (hr : (jobSystem n m).Reachable s)
    (hf : s.FewEdges) (ha : ¬ s.Overtakes a) (ht : StepCase m s a t) : t.RereadsLive := by
  intro k j hj hfin
  have hl := reachable_linked hr
  obtain ⟨x, i, hw, hd⟩ := rereadDependent_eq_some.mp hj
  have hback : (s.worker k).rereading = some (x, i) ∨
      s.worker k = .destroy x i ∧ i < (s.jobs x).dependentCount ∧ ∃ c, a = .worker k c := by
    obtain he | ⟨-, he⟩ | ⟨c, ha, hs⟩ := ht.worker_moves k
    · exact .inl (he ▸ hw)
    · simp [he, WorkerPc.rereading] at hw
    · exact (hs.rereading hw).imp_right fun hp => ⟨hp.1, hp.2, c, ha⟩
  have hi : i < (s.jobs x).dependentCount := hback.elim hl.rereading_lt (·.2.1)
  rw [ht.jobStep.dependentAt hl hi] at hd
  have hlive : s.lifecycle j ≠ .finished := by
    rcases hback with hw | ⟨hp, -⟩
    · exact h k j (rereadDependent_eq_some.mpr ⟨x, i, hw, hd⟩)
    · exact not_finished_of_destroy hr hf hp hi hd
  obtain hfin | ⟨k', c, i', hk', hp', hle⟩ := ht.deletes hfin
  · exact hlive hfin
  · rcases hback with hw | ⟨hp, -, c', hk⟩
    · subst hk'
      have hread := rereadDependent_eq_some.mpr ⟨x, i, hw, hd⟩
      exact ha (by simpa [State.Overtakes, hp'] using ⟨hle, k, hread⟩)
    · obtain rfl : k' = k := by cases hk'.symm.trans hk; rfl
      obtain ⟨rfl, rfl⟩ : x = j ∧ i = i' := by simpa [hp'] using hp.symm
      omega

theorem reachable_rereadsLive [NeZero n]
    (h : ((jobSystem n m).restrict fun s a => ¬ s.Overtakes a).Reachable s) (hf : s.FewEdges) :
    s.RereadsLive := by
  induction h with
  | init hi =>
    subst hi
    intro k j hj
    simp [init, State.rereadDependent, WorkerPc.rereading] at hj
  | step hr ht ih =>
    have hr := hr.of_restrict
    have hs := step_cases ht.2
    have hfs := hf.of_step hs.jobStep (reachable_ownership hr)
    exact (ih hfs).step hr hfs ht.1 hs

theorem State.RereadsLive.of_touches [NeZero n] (h : s.RereadsLive)
    (hr : (jobSystem n m).Reachable s) (hf : s.FewEdges) (ht : (jobSystem n m).step s a t)
    (hj : s.Touches a j) : s.lifecycle j ≠ .finished := by
  have ho := reachable_ownership hr
  have hs := step_cases ht
  cases a with
  | worker k c =>
    have hhand (hh : (s.worker k).hand = some j) := ho.not_finished_of_hand hh
    have hlive := h k j
    change s.touched k = some j at hj
    unfold State.touched at hj
    cases hp : s.worker k with
    | canExecute | execute | stealWrite => exact hhand (by simpa [hp, WorkerPc.hand] using hj)
    | destroy x i =>
      obtain ⟨hi, hd⟩ : i < (s.jobs x).dependentCount ∧ (s.jobs x).dependentAt i = some j := by
        simpa [hp] using hj
      exact not_finished_of_destroy hr hf hp hi hd
    | _ => exact hlive (by simpa [hp] using hj)
  | frame => simp [(ho.frame (j := j) (by rw [show s.frame = .addJobWrite j from hj]; rfl)).1]
  | call c =>
    cases hs with
    | addDependency _ hd hx | exit _ hd hx => rcases hj with rfl | rfl <;> simp [hd, hx]
    | _ => simp [State.Touches] at hj
  | _ => exact absurd hj id

/-- Where no worker is overtaken, no step touches a deleted job. -/
theorem touched_not_finished [NeZero n]
    (h : ((jobSystem n m).restrict fun s a => ¬ s.Overtakes a).Reachable s) (hf : s.FewEdges)
    (ht : (jobSystem n m).step s a t) (hj : s.Touches a j) : s.lifecycle j ≠ .finished :=
  (reachable_rereadsLive h hf).of_touches h.of_restrict hf ht hj

/-- Two workers on a chain of two jobs, the first of which reads the counter of the second while
that runs. -/
theorem touched_live_chain : ∃ s : State 2, s.Touches (.worker 0 {}) 1 ∧
    s.lifecycle 1 ≠ .finished := by
  obtain ⟨s, hr, hn, hs, ht⟩ := exists_of_executeWithin (n := 2) (m := .conditionVariable)
    (G := fun s a => ¬ s.Overtakes a)
    (l := [.call (.createJob 0), .call (.createJob 1), .call (.addDependency 1 0)] ++
      addJobActions 0 ++ addJobActions 1 ++ workerActions 0 9 ++ workerActions 1 8)
    (p := fun s => s.nextJob * maxDependentCount < 2 ^ 32 ∧
      (next .conditionVariable s (.worker 0 {})).isSome ∧ s.touched 0 = some 1)
    (by decide +kernel)
  obtain ⟨t, hst⟩ := exists_step (m := .conditionVariable) (a := .worker 0 {}) trivial hs
  exact ⟨s, ht, touched_not_finished hr (fewEdges_of_nextJob hn) hst ht⟩

/-- A lone worker is never overtaken. -/
theorem not_overtakes_of_one {s : State 1} {a : Action 1} : ¬ s.Overtakes a := by
  intro h
  cases a with
  | worker k c =>
    unfold State.Overtakes at h
    cases hp : s.worker k with
    | destroy j i =>
      obtain ⟨-, k', hk'⟩ := by simpa only [hp] using h
      obtain rfl := Subsingleton.elim k k'
      simp [State.rereadDependent, hp, WorkerPc.rereading] at hk'
    | _ => simp [hp] at h
  | _ => exact h

/-- With one worker no step touches a deleted job. -/
theorem one_worker_touched_not_finished {s t : State 1} {a : Action 1}
    (h : (jobSystem 1 m).Reachable s) (hf : s.FewEdges) (ht : (jobSystem 1 m).step s a t)
    (hj : s.Touches a j) : s.lifecycle j ≠ .finished := by
  have hr : ((jobSystem 1 m).restrict fun s a => ¬ s.Overtakes a).Reachable s :=
    h.restrict fun _ _ _ _ _ => not_overtakes_of_one
  exact (reachable_rereadsLive hr hf).of_touches h hf ht hj

theorem touched_of_rereadDependent (h : s.rereadDependent k = some j) : s.touched k = some j := by
  obtain ⟨x, i, hw, -⟩ := rereadDependent_eq_some.mp h
  unfold State.touched
  cases hp : s.worker k <;> simp_all [WorkerPc.rereading]

/-- The condition leaves out nothing else: after a step that overtakes a worker, the next step
of that worker touches a deleted job. -/
theorem touched_of_overtakes (hs : StepCase m s a t) (ha : s.Overtakes a) :
    ∃ k j, t.touched k = some j ∧ t.lifecycle j = .finished := by
  cases hs with
  | @worker k c t h =>
    unfold State.Overtakes at ha
    cases hp : s.worker k with
    | destroy j i =>
      obtain ⟨hi, k', hk'⟩ := by simpa only [hp] using ha
      obtain rfl := h.eq_of_end hp hi
      have hne : k' ≠ k := by
        rintro rfl
        simp [State.rereadDependent, hp, WorkerPc.rereading] at hk'
      refine ⟨k', j, touched_of_rereadDependent ?_, by simp⟩
      simpa [State.rereadDependent, hne] using hk'
    | _ => simp [hp] at ha
  | _ => exact absurd ha id

/-- The second worker runs and deletes the dependent between the decrement and the re-read of
its counter. -/
theorem overtaken_worker_touches_deleted : ∃ (s t : State 2) (a : Action 2) (j : JobId),
    (jobSystem 2 .conditionVariable).Reachable s ∧ s.FewEdges ∧
      (jobSystem 2 .conditionVariable).step s a t ∧ s.Touches a j ∧ s.lifecycle j = .finished := by
  obtain ⟨s, hr, hn, hs, ht, hf⟩ := exists_of_execute (n := 2) (m := .conditionVariable)
    (l := [.call (.createJob 0), .call (.createJob 1), .call (.addDependency 1 0)] ++
      addJobActions 0 ++ addJobActions 1 ++ workerActions 0 9 ++ workerActions 1 9)
    (p := fun s => s.nextJob * maxDependentCount < 2 ^ 32 ∧
      (next .conditionVariable s (.worker 0 {})).isSome ∧ s.touched 0 = some 1 ∧
      s.lifecycle 1 = .finished) (by decide +kernel)
  obtain ⟨t, hst⟩ := exists_step (m := .conditionVariable) (a := .worker 0 {}) trivial hs
  exact ⟨s, t, .worker 0 {}, 1, hr, fewEdges_of_nextJob hn, hst, ht, hf⟩

/-- Nor does the bound on the edges go too far: with `2 ^ 32` of them the counter of job 0 is 0
again, the job is executed and deleted, and the destructor of a job that it depends on decrements
it. -/
theorem wrapped_counter_touches_deleted : ∃ (s t : State 2) (a : Action 2) (j : JobId),
    ((jobSystem 2 .conditionVariable).restrict fun s a => ¬ s.Overtakes a).Reachable s ∧
      (jobSystem 2 .conditionVariable).step s a t ∧ s.Touches a j ∧ s.lifecycle j = .finished := by
  obtain ⟨s, hr, hs, ht, hf⟩ := exists_of_runWithin (m := .conditionVariable)
    (reachable_fanIn (G := fun s a => ¬ s.Overtakes a) (fun _ _ => id) (2 ^ 32))
    (l := addJobActions 0 ++ workerActions 0 9 ++ addJobActions 1 ++ workerActions 1 8)
    (p := fun s => (next .conditionVariable s (.worker 1 {})).isSome ∧ s.touched 1 = some 0 ∧
      s.lifecycle 0 = .finished) (by decide +kernel)
  obtain ⟨t, hst⟩ := exists_step (m := .conditionVariable) (a := .worker 1 {}) trivial hs
  exact ⟨s, t, .worker 1 {}, 0, hr, hst, ht, hf⟩

end JobSystem
