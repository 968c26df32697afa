import JobSystem.SameWork

/-! The steps that change a dependency, a counter, the lifecycle of a job or how far its
worker is with it. All others are quiet, whatever they do to queues and flags. -/
namespace JobSystem
variable {n : ℕ} {m : WaitMode} {k : Fin n} {s t u : State n} {p p' : WorkerPc n}

structure WorkerPc.SameProgress (p p' : WorkerPc n) : Prop where
  startedJob : p'.startedJob = p.startedJob
  returnedJob : p'.returnedJob = p.returnedJob
  decremented : p'.decremented = p.decremented
  execute : ∀ {j}, p' = .execute j → p = .execute j

structure Job.SameLinks (x y : Job n) : Prop where
  dependencyCount : y.dependencyCount = x.dependencyCount
  dependentCount : y.dependentCount = x.dependentCount
  dependents : y.dependents = x.dependents

structure Quiet (s t : State n) : Prop where
  progress : ∀ k, (s.worker k).SameProgress (t.worker k)
  links : ∀ x, (s.jobs x).SameLinks (t.jobs x)
  lifecycle : t.lifecycle = s.lifecycle
  nextJob : t.nextJob = s.nextJob
  history : t.history = s.history

inductive JobStep (s : State n) : State n → Prop
  | quiet {t : State n} : Quiet s t → JobStep s t
  | ready {k : Fin n} {a j} : s.worker k = .canExecute a (some j) → (s.jobs j).dependencyCount = 0 →
      JobStep s (s.goto k (.execute j))
  | start {k : Fin n} {j} : s.worker k = .execute j →
      JobStep s (((s.setLifecycle j .running).log (.start k j)).goto k (.running j))
  | ret {k : Fin n} {j} : s.worker k = .running j →
      JobStep s ((s.log (.ret k j)).goto k (.destroy j 0))
  | decrement {k : Fin n} {j i d} : s.worker k = .destroy j i → i < (s.jobs j).dependentCount →
      (s.jobs j).dependentAt i = some d →
      JobStep s (((s.setJob d
        { s.jobs d with dependencyCount := (s.jobs d).dependencyCount - 1 }).log
        (.decrement j i)).goto k (.reread j i))
  | delete {k : Fin n} {j i} : s.worker k = .destroy j i → (s.jobs j).dependentCount ≤ i →
      JobStep s (((s.setLifecycle j .finished).log (.delete j)).goto k (.countDown j))
  | createJob (f) : JobStep s (callStep s (.createJob f))
  | addDependency {d x} : s.lifecycle d = .created → s.lifecycle x = .created →
      (s.jobs x).dependentCount < maxDependentCount →
      JobStep s (callStep s (.addDependency d x))
  | addJob {j} : s.frame = .idle → s.lifecycle j = .created → JobStep s (callStep s (.addJob j))

theorem WorkerPc.SameProgress.rfl : p.SameProgress p := ⟨.refl _, .refl _, .refl _, id⟩

theorem WorkerPc.SameWork.sameProgress (h : p.SameWork p')
    (he : ∀ j, p' ≠ .execute j) : p.SameProgress p' :=
  ⟨h.startedJob, h.returnedJob, h.decremented, fun hj => absurd hj (he _)⟩

theorem Job.SameLinks.rfl {x : Job n} : x.SameLinks x := ⟨.refl _, .refl _, .refl _⟩

theorem notifyOne_sameProgress (s : State n) (q k : Fin n) :
    (s.worker k).SameProgress ((s.notifyOne q).worker k) := by
  by_cases hb : s.worker k = .blocked
  · refine (notifyOne_sameWork s q k).sameProgress fun j hj => ?_
    unfold State.notifyOne at hj
    by_cases hq : s.worker q = .blocked <;> by_cases hk : k = q <;> simp_all
  · rw [notifyOne_worker_of_ne hb]
    exact .rfl

theorem Quiet.of_goto (hu : ∀ k, (s.worker k).SameProgress (u.worker k))
    (hp : (s.worker k).SameProgress p) (hj : ∀ x, (s.jobs x).SameLinks (u.jobs x))
    (hl : u.lifecycle = s.lifecycle) (hn : u.nextJob = s.nextJob) (hh : u.history = s.history) :
    Quiet s (u.goto k p) := by
  refine ⟨fun k' => ?_, hj, hl, hn, hh⟩
  by_cases hk : k' = k
  · subst hk; simpa using hp
  · simpa [hk] using hu k'

/-- Steps of worker `k` that leave the other workers and the jobs alone. -/
theorem Quiet.of_position (hu : u.worker = s.worker) (hj : u.jobs = s.jobs)
    (hp : (s.worker k).SameProgress p) (hl : u.lifecycle = s.lifecycle)
    (hn : u.nextJob = s.nextJob) (hh : u.history = s.history) : Quiet s (u.goto k p) :=
  .of_goto (fun k' => congrFun hu k' ▸ .rfl) hp (fun x => congrFun hj x ▸ .rfl) hl hn hh

theorem failed_ne_execute (a : Attempt) (j : JobId) : (a.failed : WorkerPc n) ≠ .execute j := by
  cases a <;> simp [Attempt.failed]

theorem done_ne_execute (site : PushSite) (j : JobId) :
    (site.done : WorkerPc n) ≠ .execute j := by
  cases site with
  | repush a => exact failed_ne_execute a j
  | steal => simp [PushSite.done]

theorem Control.sameProgress (h : Control s k p p') : p.SameProgress p' := by
  refine h.sameWork.sameProgress fun j => ?_
  cases h with
  | noJob a => exact failed_ne_execute a j
  | _ => simp

theorem WorkerStep.jobStep (h : WorkerStep m k s t) : JobStep s t := by
  cases h with
  | control hp hc => exact .quiet (.of_position rfl rfl (hp ▸ hc.sameProgress) rfl rfl rfl)
  | ready hp hc => exact .ready hp hc
  | start hp => exact .start hp
  | ret hp => exact .ret hp
  | decrement hp hi hd => exact .decrement hp hi hd
  | delete hp hi => exact .delete hp hi
  | leave hp | sleep hp | block hp | getJob hp | pushLock hp | pushBack hp | countDown hp
  | notifyFrame hp | exitNotify hp =>
    refine .quiet (.of_position rfl rfl ?_ rfl rfl rfl)
    rw [hp]
    constructor <;> first | rfl | simp
  | @pushUnlock site j hp =>
    refine .quiet (.of_position rfl rfl ?_ rfl rfl rfl)
    rw [hp]
    have hi : (WorkerPc.push site j .unlock : WorkerPc n).Idle := by constructor <;> rfl
    exact (hi.sameWork (idle_done site)).sameProgress (done_ne_execute site)
  | pushNotify hp | notifyQueue hp =>
    refine .quiet (.of_goto (notifyOne_sameProgress s _) ?_ (fun _ => .rfl) rfl rfl rfl)
    rw [hp]
    constructor <;> first | rfl | simp
  | steal hp =>
    refine .quiet (.of_position rfl rfl ?_ rfl rfl rfl)
    rw [hp]
    cases (s.queues k).steal.1 <;> constructor <;> first | rfl | simp
  | @stealWrite j hp =>
    refine .quiet (.of_goto (fun _ => .rfl) ?_ (fun x => ?_) rfl rfl rfl)
    · rw [hp]
      constructor <;> first | rfl | simp
    · by_cases hx : x = j
      · subst hx; constructor <;> simp
      · simp only [State.setJob_jobs, ne_eq, hx, not_false_eq_true, Function.update_of_ne]
        exact .rfl

theorem FrameStep.quiet (h : FrameStep s t) : Quiet s t := by
  cases h with
  | control | pushLock | pushBack | pushUnlock | index | stop | joined =>
    exact ⟨fun _ => .rfl, fun _ => .rfl, rfl, rfl, rfl⟩
  | pushNotify | wakeOne =>
    exact ⟨notifyOne_sameProgress s _, fun _ => .rfl, rfl, rfl, rfl⟩
  | @write j hp =>
    refine ⟨fun _ => .rfl, fun x => ?_, rfl, rfl, rfl⟩
    by_cases hx : x = j
    · subst hx; constructor <;> simp
    · simp only [State.gotoFrame_jobs, State.setJob_jobs, ne_eq, hx, not_false_eq_true,
        Function.update_of_ne]
      exact .rfl

theorem StepCase.jobStep {a : Action n} (h : StepCase m s a t) : JobStep s t := by
  cases h with
  | worker h => exact h.jobStep
  | frame h => exact .quiet h.quiet
  | createJob f => exact .createJob f
  | addDependency _ hd hx hm => exact .addDependency hd hx hm
  | addJob hi hj => exact .addJob hi hj
  | exit | waitForAllJobs | joinJobs | quit | wakeFrame =>
    exact .quiet ⟨fun _ => .rfl, fun _ => .rfl, rfl, rfl, rfl⟩
  | wakeWorker hb =>
    refine .quiet (.of_position rfl rfl ?_ rfl rfl rfl)
    rw [hb]
    constructor <;> first | rfl | simp

end JobSystem
