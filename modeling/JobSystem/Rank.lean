import JobSystem.Counters
import JobSystem.Mutex
import Mathlib.Algebra.Order.BigOperators.Group.Finset

/-! How many steps a worker is at most away from the top of its loop. Every step of a worker
lowers that number, but for the step that begins an iteration and the one that goes to sleep;
and a worker that is neither asleep nor ended always has a step, once nobody else pushes onto
its queue. -/
namespace JobSystem
open TransitionSystem
variable {n : ℕ} {m : WaitMode} {k : Fin n} {j : JobId} {i : ℕ} {s t : State n}
  {p p' : WorkerPc n} {dc : JobId → ℕ}

def PushStage.rank : PushStage → ℕ
  | .lock => 4
  | .pushBack => 3
  | .notify => 2
  | .unlock => 1

/-- Bounds on the way from a position to `exited`, when no further iteration begins; `dc j` is
the number of dependents of `j`, at most 13. -/
def Attempt.failedRank : Attempt → ℕ
  | .first => 82
  | .second => 2

def PushSite.rank : PushSite → ℕ
  | .repush a => a.failedRank
  | .steal => 75

def WorkerPc.rank (dc : JobId → ℕ) : WorkerPc n → ℕ
  | .exited => 0
  | .exitNotify => 1
  | .loopTop => 2
  | .notifyFrame => 3
  | .rereadJobsToDo => 4
  | .countDown _ => 5
  | .destroy j i => 6 + 5 * (dc j - i)
  | .notifyQueue j i _ => 7 + 5 * (dc j - (i + 1))
  | .rereadQueue j i => 8 + 5 * (dc j - (i + 1))
  | .readQueue j i => 9 + 5 * (dc j - (i + 1))
  | .reread j i => 10 + 5 * (dc j - (i + 1))
  | .running j => 7 + 5 * dc j
  | .execute j => 8 + 5 * dc j
  | .canExecute .second _ => 74
  | .getJob .second => 75
  | .stealWrite _ => 80
  | .steal => 81
  | .stealIndex => 82
  | .push site _ stage => site.rank + stage.rank
  | .canExecute .first _ => 87
  | .getJob .first => 88
  | .workStopped => 89
  | .waitPredicate => 90
  | .notified => 91
  | .waitStopped => 91
  | .blocked => 92
  | .waitBlock => 93

def State.rank (s : State n) (k : Fin n) : ℕ :=
  (s.worker k).rank fun j => (s.jobs j).dependentCount

@[simp] theorem rank_failed (a : Attempt) : (a.failed : WorkerPc n).rank dc = a.failedRank := by
  cases a <;> rfl

@[simp] theorem rank_done (site : PushSite) : (site.done : WorkerPc n).rank dc = site.rank := by
  cases site with
  | repush a => exact rank_failed a
  | steal => rfl

/-- The steps that do not lower the rank: a new iteration begins, or the worker goes to sleep. -/
def State.Renews (s : State n) (k : Fin n) : Prop :=
  (s.worker k = .loopTop ∧ s.isRunning = true) ∨
    (s.worker k = .waitPredicate ∧ s.jobsAvailable k = false)

theorem Control.rank_lt (h : Control s k p p') (hr : p = .loopTop → s.isRunning = false) :
    p'.rank dc < p.rank dc := by
  cases h with
  | isRunning hs => simp [hr rfl] at hs
  | noJob a =>
    rw [rank_failed]
    cases a <;> simp [WorkerPc.rank, Attempt.failedRank]
  | blockedJob a =>
    cases a <;> simp [WorkerPc.rank, PushSite.rank, Attempt.failedRank, PushStage.rank]
  | _ => simp [WorkerPc.rank]

theorem WorkerStep.dependentCount (h : WorkerStep m k s t) (x : JobId) :
    (t.jobs x).dependentCount = (s.jobs x).dependentCount := by
  cases h with
  | @decrement j i d => by_cases hx : x = d <;> simp [hx]
  | @stealWrite j => by_cases hx : x = j <;> simp [hx]
  | _ => rfl

/-- Every step of a worker within an iteration brings it closer to the end of the iteration, for
any upper bounds on the numbers of dependents. -/
theorem WorkerStep.rank_lt_of_bound (h : WorkerStep m k s t)
    (hlo : ∀ j, (s.jobs j).dependentCount ≤ dc j) (hhi : ∀ j, dc j ≤ 13) (hr : ¬ s.Renews k) :
    (t.worker k).rank dc < (s.worker k).rank dc := by
  cases h with
  | control hp hc =>
    rw [State.goto_self, hp]
    refine hc.rank_lt fun hp' => ?_
    by_contra hrun
    exact hr (.inl ⟨hp.trans hp', by simpa using hrun⟩)
  | sleep hp ha => exact absurd (.inr ⟨hp, ha⟩) hr
  | @ready a j hp =>
    have := hhi j
    cases a <;> simp [hp, WorkerPc.rank] <;> omega
  | @getJob a hp => cases a <;> simp [hp, WorkerPc.rank]
  | steal hp => cases (s.queues k).steal.1 <;> simp [hp, WorkerPc.rank]
  | pushUnlock hp =>
    rw [State.goto_self, hp, rank_done]
    exact Nat.lt_succ_self _
  | @decrement j i d hp hi =>
    have := hlo j
    simp [hp, WorkerPc.rank]
    omega
  | delete hp hi => simp [hp, WorkerPc.rank]; omega
  | leave hp | block hp | pushLock hp | pushBack hp | pushNotify hp | start hp
  | ret hp | notifyQueue hp | countDown hp | notifyFrame hp | stealWrite hp | exitNotify hp =>
    simp [hp, WorkerPc.rank, PushStage.rank, PushSite.rank]

theorem WorkerStep.rank_lt (h : WorkerStep m k s t) (hl : Linked s) (hr : ¬ s.Renews k) :
    t.rank k < s.rank k := by
  unfold State.rank
  simp only [h.dependentCount]
  exact h.rank_lt_of_bound (fun _ => le_rfl) hl.bound hr

/-- A step of worker `k` raises no other rank. -/
theorem WorkerStep.rank_le (h : WorkerStep m k s t) {k' : Fin n} (hk : k' ≠ k) :
    t.rank k' ≤ s.rank k' := by
  unfold State.rank
  simp only [h.dependentCount]
  obtain he | ⟨hb, hn⟩ := h.worker_of_ne hk
  · rw [he]
  · simp [hb, hn, WorkerPc.rank]

theorem WorkerStep.sum_rank_lt (h : WorkerStep m k s t) (hl : Linked s) (hr : ¬ s.Renews k) :
    ∑ k, t.rank k < ∑ k, s.rank k := by
  apply Finset.sum_lt_sum
  · intro k' _
    by_cases hk : k' = k
    · exact hk ▸ (h.rank_lt hl hr).le
    · exact h.rank_le hk
  · exact ⟨k, Finset.mem_univ k, h.rank_lt hl hr⟩

/-- The position of a worker that cannot move on by itself. -/
def State.Waits (s : State n) (k : Fin n) : Prop :=
  s.worker k = .blocked ∨ s.worker k = .exited

/-- Every other worker has a step, whatever `rand()` returns, unless the frame thread holds the
mutex of its queue. -/
theorem exists_workerStep_of_unlocked [NeZero n] (h : (jobSystem n m).Reachable s) (c : Choice n)
    (hw : ¬ s.Waits k) (hf : s.frame.holdsLock k = false)
    (ha : m = .predicate → s.worker k = .waitPredicate → s.jobsAvailable k = true) :
    ∃ t, (jobSystem n m).step s (.worker k c) t := by
  have hl := reachable_linked h
  have hm := reachable_mutex h
  have hfree (hk : (s.worker k).holdsLock = false) : (s.queues k).locked = false := by
    rw [hm.locked, hk, hf]
    rfl
  have hentry {j i} (hi : i < (s.jobs j).dependentCount) :
      ∃ d, (s.jobs j).dependentAt i = some d := (hl.entries hi).imp fun _ hd => hd.1
  refine exists_step trivial ?_
  change (workerStep m c k s).isSome
  unfold workerStep
  cases hp : s.worker k with
  | blocked => exact absurd (.inl hp) hw
  | exited => exact absurd (.inr hp) hw
  | waitPredicate =>
    cases m with
    | predicate => simp [ha rfl hp]
    | conditionVariable => cases s.jobsAvailable k <;> simp
  | getJob | steal => simp [hfree (by rw [hp]; rfl)]
  | canExecute a job => cases job <;> simp
  | push site j stage =>
    cases stage with
    | lock => simp [State.pushStep, hfree (by rw [hp]; rfl)]
    | _ => simp [State.pushStep]
  | destroy j i =>
    by_cases hi : i < (s.jobs j).dependentCount
    · obtain ⟨d, hd⟩ := hentry hi
      simp [hi, hd]
    · simp [hi]
  | reread j i | readQueue j i | rereadQueue j i =>
    have hi : i < (s.jobs j).dependentCount := by
      have := hl.progress k j
      simp only [hp, WorkerPc.decremented, ↓reduceIte] at this
      omega
    obtain ⟨d, hd⟩ := hentry hi
    simp [hd]
  | _ => simp

theorem exists_workerStep [NeZero n] (h : (jobSystem n m).Reachable s) (c : Choice n)
    (hw : ¬ s.Waits k) (hf : s.frame.addingJob = false)
    (ha : m = .predicate → s.worker k = .waitPredicate → s.jobsAvailable k = true) :
    ∃ t, (jobSystem n m).step s (.worker k c) t := by
  refine exists_workerStep_of_unlocked h c hw ?_ ha
  cases hp : s.frame <;> simp_all [FramePc.holdsLock, FramePc.addingJob]

end JobSystem
