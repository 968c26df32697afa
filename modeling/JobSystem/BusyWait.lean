import JobSystem.SearchOrder
import JobSystem.Shutdown

/-! Whether a worker whose jobs are all blocked comes to rest. The predicate that it sleeps on asks
whether its queue is empty, not whether it holds a workable job. -/
namespace JobSystem
open TransitionSystem
variable {n : ℕ} {m : WaitMode} {k : Fin n} {s t : State n}

/-- The steps of worker `k`, whatever `rand()` returns. -/
def Action.Of (k : Fin n) (a : Action n) : Prop := ∃ c, a = .worker k c

/-- Worker `k`, left alone, takes finitely many steps only. -/
def ComesToRest [NeZero n] (m : WaitMode) (k : Fin n) (s : State n) : Prop :=
  ¬ ∃ f, f 0 = s ∧ (jobSystem n m).InfiniteRun (Action.Of k) f

/-- A worker outside its iteration, after `isRunning` has become false. -/
structure Leaving (k : Fin n) (s : State n) : Prop where
  isRunning : s.isRunning = false
  position : s.worker k = .loopTop ∨ s.worker k = .exitNotify ∨ s.worker k = .exited

/-- A worker that gets to its condition variable because its queue is empty, or to the mutex of the
queue because somebody else holds it. -/
structure Stopping (k : Fin n) (s : State n) : Prop where
  isRunning : s.isRunning = true
  stopped : s.stopped = false
  position : s.worker k = .loopTop ∨ s.worker k = .waitStopped ∨ s.worker k = .waitPredicate ∨
    s.worker k = .waitBlock ∨ s.worker k = .blocked ∨
    (s.worker k = .workStopped ∨ s.worker k = .getJob .first) ∧ (s.queues k).locked = true
  queue : (s.queues k).deque = [] ∨ (s.queues k).locked = true

/-- The steps that are left at most before such a worker rests. -/
def WorkerPc.untilRest : WorkerPc n → ℕ
  | .loopTop => 5
  | .waitStopped => 4
  | .waitPredicate => 3
  | .waitBlock | .workStopped | .exitNotify => 2
  | .blocked | .getJob _ => 1
  | _ => 0

theorem Leaving.step (h : Leaving k s) (ht : WorkerStep m k s t) :
    Leaving k t ∧ (t.worker k).untilRest < (s.worker k).untilRest := by
  obtain ⟨hrun, hpos⟩ := h
  have hr := ht.flags.1.trans hrun
  cases ht with
  | control hp hc => cases hc <;> simp_all
  | leave hp => exact ⟨⟨hr, by simp⟩, by simp [hp, WorkerPc.untilRest]⟩
  | exitNotify hp => exact ⟨⟨hr, by simp⟩, by simp [hp, WorkerPc.untilRest]⟩
  | _ => simp_all

theorem Stopping.step (h : Stopping k s) (ht : WorkerStep m k s t) :
    Stopping k t ∧ (t.worker k).untilRest < (s.worker k).untilRest := by
  obtain ⟨hrun, hstop, hpos, hq⟩ := h
  have hr := ht.flags.1.trans hrun
  have hs := ht.flags.2.trans hstop
  cases ht with
  | control hp hc =>
    cases hc with
    | isRunning | lockWait => exact ⟨⟨hr, hs, by simp, hq⟩, by simp [hp, WorkerPc.untilRest]⟩
    | available ha =>
      have hl : (s.queues k).locked = true := by
        refine hq.resolve_left fun hd => ?_
        simp [State.jobsAvailable, JobQueue.isEmpty, hrun, hd] at ha
      exact ⟨⟨hr, hs, by simp [hl], hq⟩, by simp [hp, WorkerPc.untilRest]⟩
    | tryToWork =>
      exact ⟨⟨hr, hs, by simpa [hp] using hpos, hq⟩, by simp [hp, WorkerPc.untilRest]⟩
    | _ => simp_all
  | sleep hp | block hp => exact ⟨⟨hr, hs, by simp, hq⟩, by simp [hp, WorkerPc.untilRest]⟩
  | _ => simp_all

theorem comesToRest_of_measure [NeZero n] {I : State n → Prop}
    (hstep : ∀ s t, I s → WorkerStep m k s t →
      I t ∧ (t.worker k).untilRest < (s.worker k).untilRest) (hs : I s) : ComesToRest m k s := by
  rintro ⟨f, rfl, hf⟩
  refine hf.not_decreasing (I := I) Nat.lt_wfRel.wf (fun s => (s.worker k).untilRest) ?_ 0 hs
  rintro s _ t hi ⟨c, rfl⟩ ht
  exact hstep s t hi (workerStep_of_step ht)

/-- Over a queue of blocked jobs the worker goes round and round. -/
theorem exists_infiniteRun_of_blocked [NeZero n] (h : (jobSystem n m).Reachable s)
    (hloop : s.worker k = .loopTop) (hrun : s.isRunning = true)
    (hne : (s.queues k).deque ≠ []) (hl : (s.queues k).locked = false)
    (hb : ∀ j ∈ (s.queues k).deque, (s.jobs j).dependencyCount > 0) :
    ∃ f, f 0 = s ∧ (jobSystem n m).InfiniteRun (Action.Of k) f := by
  have hstop := (reachable_shutdown h).not_stopped hrun
  have hfree : s.frame.holdsLock k = false := by
    have hlocked := (reachable_mutex h).locked k
    rw [hl, hloop] at hlocked
    simpa [WorkerPc.holdsLock] using hlocked.symm
  refine System.exists_infiniteRun (I := fun u => ∃ log, SearchRun m k s log u ∧
    u.frame.holdsLock k = false) ?_ ⟨{}, .start, hfree⟩
  rintro u ⟨log, hu, hf⟩
  have hexec : log.executed = none := by
    obtain hinv | ⟨x, hinv⟩ := hu.invariant hloop hrun hstop hne
    · exact hinv.executed
    · obtain ⟨hx, h0⟩ := hinv.exists_ready
      exact absurd h0 (UInt32.pos_iff_ne_zero.mp (hb x hx))
  obtain ⟨v, hv⟩ := hu.exists_step h hloop hrun hstop hne hf {}
  exact ⟨.worker k {}, v, ⟨{}, rfl⟩, hv, _, hu.worker (.inl hexec) hv,
    ((workerStep_of_step hv).frame_holdsLock k).trans hf⟩

/-- A worker at the top of its loop, all of whose jobs are blocked, comes to rest exactly when the
program is ending, when it has no jobs, or when the mutex of its queue is held. -/
theorem comesToRest_iff [NeZero n] (h : (jobSystem n m).Reachable s)
    (hloop : s.worker k = .loopTop)
    (hb : ∀ j ∈ (s.queues k).deque, (s.jobs j).dependencyCount > 0) :
    ComesToRest m k s ↔ s.isRunning = false ∨ (s.queues k).deque = [] ∨
      (s.queues k).locked = true := by
  constructor
  · intro hrest
    by_contra hbusy
    push Not at hbusy
    obtain ⟨hrun, hne, hl⟩ := hbusy
    exact hrest (exists_infiniteRun_of_blocked h hloop (by simpa using hrun) hne (by simpa using hl)
      hb)
  · intro hcond
    by_cases hrun : s.isRunning = true
    · have hstop := (reachable_shutdown h).not_stopped hrun
      exact comesToRest_of_measure (fun _ _ => Stopping.step)
        ⟨hrun, hstop, .inl hloop, hcond.resolve_left (by simp [hrun])⟩
    · exact comesToRest_of_measure (fun _ _ => Leaving.step) ⟨by simpa using hrun, .inl hloop⟩

/-- After a quit the worker leaves its loop, although the only job of its queue is blocked. -/
theorem comesToRest_blocked_quit : ∃ s : State 2, (jobSystem 2 .conditionVariable).Reachable s ∧
    s.worker 0 = .loopTop ∧ (s.queues 0).deque = [0] ∧ (s.jobs 0).dependencyCount > 0 ∧
    ComesToRest .conditionVariable 0 s := by
  obtain ⟨s, hr, hloop, hrun, hd, hb⟩ := exists_of_execute (n := 2) (m := .conditionVariable)
    (l := [.call (.createJob 0), .call (.createJob 1), .call (.addDependency 0 1)] ++
      addJobActions 0 ++ [.quit])
    (p := fun s => s.worker 0 = .loopTop ∧ s.isRunning = false ∧ (s.queues 0).deque = [0] ∧
      (s.jobs 0).dependencyCount > 0) (by decide +kernel)
  have hblocked : ∀ j ∈ (s.queues 0).deque, (s.jobs j).dependencyCount > 0 := by
    simpa [hd] using hb
  exact ⟨s, hr, hloop, hd, hb, (comesToRest_iff hr hloop hblocked).mpr (.inl hrun)⟩

/-- While one worker runs a job, the other one keeps turning over the job that depends on it. -/
theorem busy_waiting : ∃ s : State 2, (jobSystem 2 .conditionVariable).Reachable s ∧
    s.worker 0 = .loopTop ∧ (s.queues 0).deque = [0] ∧ (s.jobs 0).dependencyCount > 0 ∧
    s.worker 1 = .running 1 ∧ ¬ ComesToRest .conditionVariable 0 s := by
  obtain ⟨s, hr, hloop, hrun, hd, hl, hb, h1⟩ := exists_of_execute (n := 2)
    (m := .conditionVariable)
    (l := [.call (.createJob 0), .call (.createJob 1), .call (.addDependency 0 1)] ++
      addJobActions 0 ++ addJobActions 1 ++ workerActions 1 7)
    (p := fun s => s.worker 0 = .loopTop ∧ s.isRunning = true ∧ (s.queues 0).deque = [0] ∧
      (s.queues 0).locked = false ∧ (s.jobs 0).dependencyCount > 0 ∧ s.worker 1 = .running 1)
    (by decide +kernel)
  refine ⟨s, hr, hloop, hd, hb, h1, not_not.mpr ?_⟩
  exact exists_infiniteRun_of_blocked hr hloop hrun (by simp [hd]) hl (by simpa [hd] using hb)

end JobSystem
