import JobSystem.RoundRobin
import JobSystem.WakeUp

/-! `WaitForJob` against the guarded step that its predicate describes. Whoever blocks, misses a
notification or is woken for nothing is still in front of its guard: with that forgotten, the runs
with condition variables are those in which each worker awaits its predicate. -/
namespace JobSystem
open TransitionSystem
variable {n : ℕ} {m : WaitMode} {k : Fin n} {s t : State n} {a : Action n} {c : Choice n}

/-- A worker in `WaitForJob` is in front of the predicate. -/
def WorkerPc.collapse : WorkerPc n → WorkerPc n
  | .waitBlock | .blocked | .notified => .waitPredicate
  | pc => pc

@[simps] def State.collapse (s : State n) : State n :=
  { s with worker := fun k => (s.worker k).collapse }

theorem collapse_goto (s : State n) (k : Fin n) (pc : WorkerPc n) :
    (s.goto k pc).collapse = s.collapse.goto k pc.collapse := by
  unfold State.goto State.collapse
  congr 1
  funext k'
  exact Function.apply_update (fun _ => WorkerPc.collapse) s.worker k pc k'

theorem collapse_goto_of_eq {pc : WorkerPc n} (h : pc.collapse = (s.worker k).collapse) :
    (s.goto k pc).collapse = s.collapse := by
  rw [collapse_goto, h]
  exact congrArg (fun w => { s.collapse with worker := w }) (Function.update_eq_self k _)

/-- A notification of a queue is not seen. -/
theorem collapse_notifyOne (s : State n) (q : Fin n) : (s.notifyOne q).collapse = s.collapse := by
  have hw : (fun k => ((s.notifyOne q).worker k).collapse) = fun k => (s.worker k).collapse := by
    funext k
    obtain he | ⟨hb, hn⟩ := notifyOne_worker s q k
    · rw [he]
    · rw [hb, hn]
      rfl
  exact congrArg (fun w => { s with worker := w }) hw

theorem notifyOne_collapse (s : State n) (q : Fin n) : s.collapse.notifyOne q = s.collapse := by
  have hq : s.collapse.worker q ≠ .blocked := by
    rw [State.collapse_worker]
    cases s.worker q <;> simp [WorkerPc.collapse]
  unfold State.notifyOne
  rw [if_neg hq]

theorem collapse_pushStep (s : State n) (q : Fin n) (j : JobId) (stage : PushStage) :
    s.collapse.pushStep q j stage = (s.pushStep q j stage).map State.collapse := by
  cases stage with
  | lock => unfold State.pushStep; simp only [State.collapse_queues]; split <;> rfl
  | notify => simp [State.pushStep, notifyOne_collapse, collapse_notifyOne]
  | pushBack | unlock => rfl

/-- Nobody is notified by himself. -/
theorem WorkerStep.ne_notified (h : WorkerStep m k s t) : t.worker k ≠ .notified := by
  cases h with
  | control hp hc =>
    cases hc with
    | noJob x => cases x <;> simp [Attempt.failed]
    | _ => simp
  | @pushUnlock site => obtain (_ | _) | _ := site <;> simp [PushSite.done, Attempt.failed]
  | steal => cases (s.queues k).steal.1 <;> simp
  | _ => simp

theorem collapse_of_ne {p : WorkerPc n} (h : p.collapse ≠ .waitPredicate) : p.collapse = p := by
  cases p with
  | waitBlock | blocked | notified => exact absurd rfl h
  | _ => rfl

theorem readCount_collapse (s : State n) (c : Choice n) (d : JobId) :
    s.collapse.readCount c d = s.readCount c d := rfl

theorem readQueue_collapse (s : State n) (c : Choice n) (d : JobId) :
    s.collapse.readQueue c d = s.readQueue c d := rfl

theorem collapse_failed (x : Attempt) : (x.failed : WorkerPc n).collapse = x.failed := by
  cases x <;> rfl

theorem collapse_done (site : PushSite) : (site.done : WorkerPc n).collapse = site.done := by
  cases site with
  | repush x => exact collapse_failed x
  | steal => rfl

/-- Outside `WaitForJob` a worker goes on as before. -/
theorem workerStep_collapse (m' : WaitMode) (hk : (s.worker k).collapse ≠ .waitPredicate) :
    workerStep m' c k s.collapse = (workerStep m c k s).map State.collapse := by
  have hc : s.collapse.worker k = s.worker k := collapse_of_ne hk
  unfold workerStep
  rw [hc]
  cases hp : s.worker k with
  | waitPredicate | waitBlock | blocked | notified => exact absurd (by rw [hp]; rfl) hk
  | exited => rfl
  | loopTop | waitStopped | workStopped | stealIndex | rereadJobsToDo =>
    simp only [Option.map_some, collapse_goto, State.collapse_isRunning, State.collapse_stopped,
      State.collapse_jobsToDo]
    split <;> rfl
  | getJob x =>
    simp only [State.collapse_queues]
    split
    · rfl
    · simp only [Option.map_some, collapse_goto]
      rfl
  | steal =>
    simp only [State.collapse_queues]
    split
    · rfl
    · simp only [Option.map_some, collapse_goto]
      cases (s.queues k).steal.1 <;> rfl
  | canExecute x job =>
    cases job with
    | none => simp only [Option.map_some, collapse_goto, collapse_failed]
    | some j =>
      simp only [Option.map_some, collapse_goto, State.collapse_jobs]
      split <;> rfl
  | push site j stage =>
    have hend : WorkerPc.collapse (n := n)
        (stage.next.elim site.done fun stage' => .push site j stage') =
        stage.next.elim site.done fun stage' => .push site j stage' := by
      cases stage with
      | unlock => exact collapse_done site
      | lock | pushBack | notify => rfl
    simp only [collapse_pushStep, Option.map_map, Function.comp_def, collapse_goto, hend]
  | destroy j i =>
    simp only [State.collapse_jobs]
    split
    · cases (s.jobs j).dependentAt i with
      | none => rfl
      | some d =>
        simp only [Option.map_some, collapse_goto]
        rfl
    · simp only [Option.map_some, collapse_goto]
      rfl
  | reread j i =>
    simp only [State.collapse_jobs]
    cases (s.jobs j).dependentAt i with
    | none => rfl
    | some d =>
      by_cases hz : s.readCount c d = 0 <;>
        simp [collapse_goto, readCount_collapse, hz, WorkerPc.collapse]
  | readQueue j i =>
    simp only [State.collapse_jobs]
    cases (s.jobs j).dependentAt i with
    | none => rfl
    | some d =>
      cases hq : s.readQueue c d <;>
        simp [collapse_goto, readQueue_collapse, hq, WorkerPc.collapse]
  | rereadQueue j i =>
    simp only [State.collapse_jobs]
    cases (s.jobs j).dependentAt i with
    | none => rfl
    | some d =>
      simp only [Option.map_some, collapse_goto, readQueue_collapse]
      cases s.readQueue c d <;> rfl
  | notifyQueue j i q =>
    simp only [Option.map_some, collapse_goto, notifyOne_collapse, collapse_notifyOne]
    rfl
  | execute j | running j | countDown j | notifyFrame | stealWrite j | exitNotify =>
    simp only [Option.map_some, collapse_goto]
    rfl

theorem frameStep_collapse (s : State n) :
    frameStep s.collapse = (frameStep s).map State.collapse := by
  unfold frameStep
  rw [State.collapse_frame]
  cases hp : s.frame with
  | addJobPush j q stage =>
    simp only [collapse_pushStep, Option.map_map, Function.comp_def]
    rfl
  | wakeAll i =>
    by_cases h : i < n
    · simp only [h, dif_pos, notifyOne_collapse, Option.map_some]
      exact congrArg (fun s => some (State.gotoFrame s _)) (collapse_notifyOne s ⟨i, h⟩).symm
    · simp only [h, dif_neg, not_false_iff]
      rfl
  | join i =>
    by_cases h : i < n
    · have hexit : (s.worker ⟨i, h⟩).collapse = .exited ↔ s.worker ⟨i, h⟩ = .exited := by
        cases s.worker ⟨i, h⟩ <;> simp [WorkerPc.collapse]
      simp only [h, dif_pos, State.collapse_worker, hexit]
      split <;> rfl
    · simp only [h, dif_neg, not_false_iff]
      rfl
  | idle | blocked | exiting | addJobWrite | addJobIndex | waitPredicate | waitBlock | notified
  | joinStop => rfl

theorem callStep_collapse (s : State n) (c : Call) :
    callStep s.collapse c = (callStep s c).collapse := by
  cases c with
  | addDependency d x =>
    simp only [callStep, State.collapse_jobs]
    split <;> rfl
  | createJob | addJob | waitForAllJobs | joinJobs => rfl

/-- The guarded step is one way through `WaitForJob`. -/
theorem workerStep_guarded (h : workerStep .predicate c k s = some t) :
    workerStep .conditionVariable c k s = some t := by
  unfold workerStep at h ⊢
  cases hp : s.worker k with
  | waitPredicate =>
    simp only [hp] at h ⊢
    split at h
    · next ha => rw [if_pos ha, h]
    · simp at h
  | canExecute x job =>
    rw [hp] at h
    cases job <;> exact h
  | _ =>
    rw [hp] at h
    exact h

section
variable [NeZero n]

/-- A step of a worker, or its being woken for nothing. -/
def Action.ofWorker : Action n → Bool
  | .worker _ _ | .wakeWorker _ => true
  | .call _ | .frame | .quit | .wakeFrame => false

/-- In `WaitForJob` only the step past the predicate is seen. -/
theorem waitStep_collapse (hk : (s.worker k).collapse = .waitPredicate)
    (h : workerStep m c k s = some t) :
    t.collapse = s.collapse ∨
      (jobSystem n .predicate).step s.collapse (.worker k c) t.collapse := by
  unfold workerStep at h
  cases hp : s.worker k with
  | waitPredicate =>
    simp only [hp] at h
    by_cases ha : s.jobsAvailable k = true
    · rw [if_pos ha] at h
      cases h
      refine .inr ⟨trivial, ?_⟩
      show workerStep .predicate c k s.collapse = some (s.goto k .workStopped).collapse
      unfold workerStep
      rw [State.collapse_worker, hk, collapse_goto]
      exact if_pos ha
    · rw [if_neg ha] at h
      obtain ⟨-, h⟩ := Option.ite_none_right_eq_some.mp h
      cases h
      exact .inl (collapse_goto_of_eq (by rw [hp]; rfl))
  | waitBlock | notified =>
    simp only [hp] at h
    cases h
    exact .inl (collapse_goto_of_eq (by rw [hp]; rfl))
  | blocked =>
    simp only [hp] at h
    cases h
  | _ =>
    rw [hp] at hk
    cases hk

/-- A step is seen as a step, or as nothing if it is one of a worker in `WaitForJob`. -/
theorem collapse_step (h : (jobSystem n m).step s a t) :
    a.ofWorker = true ∧ t.collapse = s.collapse ∨
      (jobSystem n .predicate).step s.collapse a t.collapse := by
  obtain ⟨hrule, hnext⟩ := h
  cases a with
  | worker k c =>
    have hstep : workerStep m c k s = some t := hnext
    by_cases hk : (s.worker k).collapse = .waitPredicate
    · exact (waitStep_collapse hk hstep).imp_left fun he => ⟨rfl, he⟩
    · refine .inr ⟨trivial, ?_⟩
      show workerStep .predicate c k s.collapse = some t.collapse
      rw [workerStep_collapse (m := m) .predicate hk, hstep]
      rfl
  | call c =>
    obtain ⟨hc, ht⟩ := Option.ite_none_right_eq_some.mp hnext
    cases ht
    exact .inr ⟨hrule, by rw [← callStep_collapse]; exact if_pos hc⟩
  | frame =>
    refine .inr ⟨trivial, ?_⟩
    show frameStep s.collapse = some t.collapse
    rw [frameStep_collapse, show frameStep s = some t from hnext]
    rfl
  | quit =>
    cases hnext
    exact .inr ⟨trivial, rfl⟩
  | wakeWorker k =>
    obtain ⟨hb, ht⟩ := Option.ite_none_right_eq_some.mp hnext
    cases ht
    exact .inl ⟨rfl, collapse_goto_of_eq (by rw [hb]; rfl)⟩
  | wakeFrame =>
    obtain ⟨hb, ht⟩ := Option.ite_none_right_eq_some.mp hnext
    cases ht
    exact .inr ⟨trivial, if_pos hb⟩

/-- Where waiting is one step, no worker is anywhere else in `WaitForJob`. -/
theorem reachable_collapse (h : (jobSystem n .predicate).Reachable s) : s.collapse = s := by
  have hne : ∀ k, s.worker k ≠ .notified := by
    refine h.invariant (I := fun s => ∀ k, s.worker k ≠ .notified) (fun s hs k => ?_)
      fun s a t hr hi ht k => ?_
    · rw [show s = init from hs]
      simp [init]
    · obtain he | ⟨hb, -⟩ | ⟨c, -, hw⟩ := (step_cases ht).worker_moves k
      · exact he ▸ hi k
      · exact absurd (.inr hb) (reachable_awake hr k)
      · exact hw.ne_notified
  have hw : (fun k => (s.worker k).collapse) = s.worker := by
    funext k
    have hk := reachable_awake h k
    cases hp : s.worker k with
    | waitBlock => exact absurd (.inl hp) hk
    | blocked => exact absurd (.inr hp) hk
    | notified => exact absurd hp (hne k)
    | _ => rfl
  exact congrArg (fun w => { s with worker := w }) hw

/-- `WaitForJob` is worth a guarded step: the runs with such steps are runs with condition
variables, and every run with condition variables, however its notifications come and whoever is
woken for nothing, is one of them without the steps that nobody sees, which are steps of workers. -/
theorem guarded_wait :
    (∀ {t : State n} {l}, (jobSystem n .predicate).traced.Reachable (t, l) →
      (jobSystem n .conditionVariable).traced.Reachable (t, l) ∧ t.collapse = t) ∧
    ∀ {s : State n} {l}, (jobSystem n .conditionVariable).traced.Reachable (s, l) →
      ∃ l', l'.Sublist l ∧ l'.filter (!·.ofWorker) = l.filter (!·.ofWorker) ∧
        (jobSystem n .predicate).traced.Reachable (s.collapse, l') := by
  refine ⟨fun h => ⟨?_, reachable_collapse h.of_traced⟩, fun h => ?_⟩
  · refine h.mono (U := (jobSystem n .conditionVariable).traced) (fun _ hi => hi) ?_
    rintro p a q ⟨⟨hrule, hnext⟩, hl⟩
    refine ⟨⟨hrule, ?_⟩, hl⟩
    cases a with
    | worker k c => exact workerStep_guarded hnext
    | call | frame | quit | wakeWorker | wakeFrame => exact hnext
  · apply h.traced_image (fun s hs => ?_) fun s a t ht => collapse_step ht
    rw [show s = init from hs]
    rfl

end

/-- The worker sleeps with a job in its queue; seen as a guarded step, it can go on. -/
theorem guarded_wait_lostWakeUp : ∃ s : State 2, s.worker 0 = .blocked ∧ (s.queues 0).deque = [0] ∧
    ∃ l', (jobSystem 2 .predicate).traced.Reachable (s.collapse, l') ∧
      ∃ t, (jobSystem 2 .predicate).step s.collapse (.worker 0 {}) t := by
  have hrun : (execute (n := 2) .conditionVariable
      (workerActions 0 3 ++ [.call (.createJob 0)] ++ addJobActions 0 ++ workerActions 0 1)).any
      (fun s => s.worker 0 = .blocked ∧ (s.queues 0).deque = [0] ∧
        (next .predicate s.collapse (.worker 0 {})).isSome = true) = true := by decide +kernel
  obtain ⟨s, hs, hp⟩ := (Option.any_eq_true _ _).mp hrun
  obtain ⟨hb, hd, hnext⟩ := of_decide_eq_true hp
  obtain ⟨l', -, -, hr⟩ := guarded_wait.2 (traced_of_run (.init ⟨rfl, rfl⟩) hs)
  exact ⟨s, hb, hd, l', hr, exists_step trivial hnext⟩

end JobSystem
