import JobSystem.Completion
import JobSystem.Progress

/-! When the workers come to rest. Where no job waits for another any more, every interleaving
executes all jobs and puts all workers to sleep; and they sleep, if none of them misses a
notification, only when all is done. A frame thread that has missed its own notification is then
left behind. -/
namespace JobSystem
open TransitionSystem
variable {n : ℕ} {m : WaitMode} {k k' : Fin n} {s t : State n} {a : Action n}

def PushSite.untilAsleep : PushSite → ℕ
  | .repush .first => 8
  | .repush .second => 4
  | .steal => 6

/-- The steps that are left at most before a worker without jobs sleeps. -/
def WorkerPc.untilAsleep : WorkerPc n → ℕ
  | .waitBlock | .exitNotify => 1
  | .waitPredicate => 2
  | .notified | .waitStopped => 3
  | .loopTop => 4
  | .canExecute .second _ | .notifyFrame => 5
  | .getJob .second | .rereadJobsToDo => 6
  | .steal | .countDown _ => 7
  | .stealIndex => 8
  | .canExecute .first _ => 9
  | .getJob .first => 10
  | .workStopped => 11
  | .push site _ .unlock => site.untilAsleep + 1
  | .push site _ .notify => site.untilAsleep + 2
  | _ => 0

theorem untilAsleep_done (site : PushSite) :
    (site.done : WorkerPc n).untilAsleep = site.untilAsleep := by
  obtain (_ | _) | _ := site <;> rfl

/-- The positions from which a worker with a job comes to the top of its loop before it executes
that job, unless it meets it in its second attempt. -/
def WorkerPc.late : WorkerPc n → Bool
  | .loopTop | .notifyFrame | .rereadJobsToDo | .countDown _ | .canExecute _ none => true
  | .push _ _ _ | .stealIndex | .steal | .stealWrite _ | .getJob .second => true
  | _ => false

namespace State

/-- No job in a queue or in hand waits for another. -/
def AllReady (s : State n) : Prop := ∀ k, ∀ j ∈ s.holdings k, s.pendingEdges j = ∅

/-- What is left of a worker's way to its next delete, or to its sleep if it has no job. A step on
the first may wake a worker, which is why it counts for more. -/
def untilRest (s : State n) (k : Fin n) : ℕ :=
  if s.holdings k = [] then (s.worker k).untilAsleep
  else 4 * (s.rank k + if (s.worker k).late then 100 else 0)

end State

theorem hand_of_jobless (h : s.holdings k = []) : (s.worker k).hand = none :=
  Option.toList_eq_nil_iff.mp (List.append_eq_nil_iff.mp h).2

theorem WorkerStep.untilAsleep_lt (h : WorkerStep m k s t) (hw : s.Working)
    (hs : s.holdings k = []) : (t.worker k).untilAsleep < (s.worker k).untilAsleep := by
  have hrun := hw.isRunning
  have hstop := hw.stopped
  have hq : (s.queues k).deque = [] := (List.append_eq_nil_iff.mp hs).1
  have hnone {p : WorkerPc n} {j : JobId} (hp : s.worker k = p) (hj : p.hand = some j) : False := by
    have hhand := hand_of_jobless hs
    rw [hp, hj] at hhand
    cases hhand
  cases h with
  | control hp hc =>
    rw [State.goto_self, hp]
    cases hc with
    | noJob a => cases a <;> simp [Attempt.failed, WorkerPc.untilAsleep]
    | isRunning | lockWait | wake | tryToWork | noMoreJobs | moreJobs | foreign | own =>
      simp [WorkerPc.untilAsleep]
    | stopped hs | skipWork hs => simp [hstop] at hs
    | available ha => simp [State.jobsAvailable, hrun, hq, JobQueue.isEmpty] at ha
    | blockedJob | workable | stillBlocked | hasQueue | noQueue | toNotify | lostQueue =>
      exact (hnone hp rfl).elim
  | leave _ hr => simp [hrun] at hr
  | sleep hp | block hp | notifyFrame hp | exitNotify hp | countDown hp =>
    simp [hp, WorkerPc.untilAsleep]
  | @getJob a hp =>
    rw [State.goto_self, hp]
    cases a <;> simp [WorkerPc.untilAsleep]
  | steal hp =>
    have hempty : (s.queues k).steal.1 = none := by simp [JobQueue.steal, hq]
    rw [State.goto_self, hp, hempty]
    simp [WorkerPc.untilAsleep]
  | pushNotify hp =>
    rw [State.goto_self, hp]
    exact Nat.lt_succ_self _
  | pushUnlock hp =>
    rw [State.goto_self, hp, untilAsleep_done]
    exact Nat.lt_succ_self _
  | ready hp | pushLock hp | pushBack hp | start hp | ret hp | decrement hp | delete hp
  | notifyQueue hp | stealWrite hp => exact (hnone hp rfl).elim

/-- A worker with ready jobs that is on its way to one does not turn back before it has executed
it. -/
theorem WorkerStep.late (h : WorkerStep m k s t) (hw : s.Working) (hs : s.holdings k ≠ [])
    (hready : ∀ j, (s.worker k).hand = some j → (s.jobs j).dependencyCount = 0)
    (hat : ¬ s.AtDelete k) (hl : (s.worker k).late = false) : (t.worker k).late = false := by
  cases h with
  | control hp hc =>
    rw [State.goto_self]
    rw [hp] at hl hready
    cases hc with
    | stopped hs | skipWork hs => simp [hw.stopped] at hs
    | blockedJob a j hc => exact absurd (hready j rfl) hc
    | isRunning | noJob | noMoreJobs | moreJobs | foreign | own => simp [WorkerPc.late] at hl
    | lockWait | available | wake | workable | stillBlocked | hasQueue | noQueue | toNotify
    | lostQueue | tryToWork => rfl
  | @getJob a hp =>
    rw [hp] at hl
    rw [State.goto_self]
    cases a with
    | first =>
      have hd : (s.queues k).deque ≠ [] := by
        intro hnil
        simp [State.holdings, hp, hnil, WorkerPc.hand] at hs
      obtain ⟨j, hj⟩ := Option.ne_none_iff_exists'.mp
        (fun hnone => hd (List.getLast?_eq_none_iff.mp hnone))
      have hpop : (s.queues k).pop.1 = some j := hj
      rw [hpop]
      rfl
    | second => simp [WorkerPc.late] at hl
  | delete hp hi => exact absurd ⟨_, _, hp, hi⟩ hat
  | leave hp | pushLock hp | pushBack hp | pushNotify hp | pushUnlock hp | countDown hp
  | notifyFrame hp | steal hp | stealWrite hp => simp [hp, WorkerPc.late] at hl
  | sleep | block | ready | start | ret | decrement | notifyQueue | exitNotify =>
    rw [State.goto_self]
    rfl

theorem WorkerStep.holdings_of_ne (h : WorkerStep m k s t) (hk : k' ≠ k) :
    t.holdings k' = s.holdings k' := by
  have hhand : (t.worker k').hand = (s.worker k').hand := by
    obtain he | ⟨hb, hn⟩ := h.worker_of_ne hk
    · rw [he]
    · rw [hb, hn]; rfl
  unfold State.holdings
  rw [h.queues_of_ne hk, hhand]

/-- No worker comes by a job. -/
theorem WorkerStep.mem_holdings_of_step (h : WorkerStep m k s t) {j : JobId}
    (hj : j ∈ t.holdings k') : j ∈ s.holdings k' := by
  by_cases hk : k' = k
  · subst hk
    cases h.holdings with
    | same he => exact he ▸ hj
    | steal _ _ hs ht => simpa [hs, ht, or_comm] using hj
    | delete _ hs => simp [hs, hj]
  · exact h.holdings_of_ne hk ▸ hj

/-- A worker is rid of its jobs only by finishing one. -/
theorem WorkerStep.holdings_eq_nil (h : WorkerStep m k s t) (hat : ¬ s.AtDelete k) :
    t.holdings k' = [] ↔ s.holdings k' = [] := by
  by_cases hk : k' = k
  · subst hk
    cases h.holdings with
    | same he => rw [he]
    | steal _ _ hs ht => simp [hs, ht]
    | delete hd => exact absurd hd hat
  · rw [h.holdings_of_ne hk]

theorem WorkerStep.untilRest_lt (h : WorkerStep m k s t) (hl : Linked s) (hw : s.Working)
    (hready : ∀ j, (s.worker k).hand = some j → (s.jobs j).dependencyCount = 0)
    (hat : ¬ s.AtDelete k) : t.untilRest k + (if s.holdings k = [] then 1 else 4) ≤
      s.untilRest k := by
  have hnil : t.holdings k = [] ↔ s.holdings k = [] := h.holdings_eq_nil hat
  unfold State.untilRest
  by_cases hs : s.holdings k = []
  · simp only [hs, hnil, ↓reduceIte]
    exact h.untilAsleep_lt hw hs
  · simp only [hs, hnil, ↓reduceIte]
    have hlate := h.late hw hs hready hat
    by_cases htop : s.worker k = .loopTop
    · have ht : t.rank k ≤ 91 ∧ (t.worker k).late = false := by
        cases h with
        | control hp hc =>
          obtain rfl := hp.symm.trans htop
          cases hc
          simp [State.rank, WorkerPc.rank, WorkerPc.late]
        | leave _ hr => simp [hw.isRunning] at hr
        | _ => simp_all
      have hs' : (s.worker k).late = true := by rw [htop]; rfl
      simp only [ht.2, hs', ↓reduceIte, Bool.false_eq_true]
      omega
    · have hrank : t.rank k < s.rank k := by
        apply h.rank_lt hl
        rintro (⟨hp, -⟩ | ⟨hp, ha⟩)
        · exact htop hp
        · obtain ⟨j, hj⟩ := List.exists_mem_of_ne_nil _ hs
          simp [available_of_holdings hj hp] at ha
      cases hs' : (s.worker k).late with
      | false =>
        simp only [hlate hs', Bool.false_eq_true, ↓reduceIte]
        omega
      | true =>
        simp only [↓reduceIte]
        split <;> omega

/-- A step wakes at most one other worker, and only with a job in hand. -/
theorem WorkerStep.exists_notified (h : WorkerStep m k s t) :
    (∀ k' ≠ k, t.worker k' = s.worker k') ∨
      s.holdings k ≠ [] ∧ ∃ q, ∀ k' ≠ k, k' ≠ q → t.worker k' = s.worker k' := by
  cases h with
  | @notifyQueue j i q hp =>
    refine .inr ⟨List.ne_nil_of_mem (mem_holdings_of_hand (j := j) (by rw [hp]; rfl)), q, ?_⟩
    intro k' hk hq
    rw [State.goto_worker, Function.update_of_ne hk]
    unfold State.notifyOne
    by_cases hb : s.worker q = .blocked <;> simp [hb, hq]
  | pushNotify =>
    refine .inl fun k' hk => ?_
    rw [State.goto_worker, Function.update_of_ne hk]
    unfold State.notifyOne
    by_cases hb : s.worker k = .blocked <;> simp [hb, hk]
  | _ => exact .inl fun k' hk => by simp [hk]

theorem WorkerStep.untilRest_of_ne (h : WorkerStep m k s t) (hat : ¬ s.AtDelete k) (hk : k' ≠ k) :
    (t.worker k' = s.worker k' → t.untilRest k' = s.untilRest k') ∧
      t.untilRest k' ≤ s.untilRest k' + 3 := by
  have hnil : t.holdings k' = [] ↔ s.holdings k' = [] := h.holdings_eq_nil hat
  have hsame (he : t.worker k' = s.worker k') : t.untilRest k' = s.untilRest k' := by
    unfold State.untilRest State.rank
    simp only [hnil, he, h.dependentCount]
  refine ⟨hsame, ?_⟩
  obtain he | ⟨hb, hn⟩ := h.worker_of_ne hk
  · rw [hsame he]
    exact Nat.le_add_right _ 3
  · unfold State.untilRest
    simp only [hnil, hb, hn, WorkerPc.untilAsleep, WorkerPc.late, State.rank, WorkerPc.rank]
    split <;> simp

theorem WorkerStep.sum_untilRest_lt (h : WorkerStep m k s t) (hl : Linked s) (hw : s.Working)
    (hready : ∀ j, (s.worker k).hand = some j → (s.jobs j).dependencyCount = 0)
    (hat : ¬ s.AtDelete k) : ∑ k, t.untilRest k < ∑ k, s.untilRest k := by
  have hown := h.untilRest_lt hl hw hready hat
  rcases h.exists_notified with hsame | ⟨hs, q, hsame⟩
  · apply Finset.sum_lt_sum
    · intro k' _
      by_cases hk : k' = k
      · subst hk
        split at hown <;> omega
      · exact ((h.untilRest_of_ne hat hk).1 (hsame k' hk)).le
    · refine ⟨k, Finset.mem_univ k, ?_⟩
      split at hown <;> omega
  · rw [if_neg hs] at hown
    have hsum : ∑ k', (t.untilRest k' + if k' = k then 4 else 0) ≤
        ∑ k', (s.untilRest k' + if k' = q then 3 else 0) := by
      apply Finset.sum_le_sum
      intro k' _
      by_cases hk : k' = k
      · subst hk
        simp only [↓reduceIte]
        omega
      · have hne := h.untilRest_of_ne hat hk
        by_cases hq : k' = q
        · rw [if_neg hk, if_pos hq]
          exact hne.2
        · rw [if_neg hk, if_neg hq]
          exact (hne.1 (hsame k' hk hq)).le
    simp only [Finset.sum_add_distrib, Finset.sum_ite_eq', Finset.mem_univ, ↓reduceIte] at hsum
    omega

namespace State.AllReady

theorem step [NeZero n] (h : s.AllReady) (hr : (jobSystem n m).Reachable s) {c : Choice n}
    (ht : (jobSystem n m).step s (.worker k c) t) : t.AllReady := by
  have ho := reachable_ownership hr
  intro k' j hj
  have hjs := (workerStep_of_step ht).mem_holdings_of_step hj
  have hcreated : s.lifecycle j ≠ .created := by
    rcases ho.held hjs with hl | hl <;> simp [hl]
  have hsub := (step_cases ht).jobStep.pendingEdges_subset ho (reachable_linked hr) hcreated
  rw [h k' j hjs] at hsub
  exact Finset.subset_empty.mp hsub

theorem free [NeZero n] (h : s.AllReady) (hr : (jobSystem n m).Reachable s) {j : JobId}
    (hj : (s.worker k).hand = some j) : (s.jobs j).dependencyCount = 0 := by
  have hcount := reachable_counted hr j
  rw [h k j (mem_holdings_of_hand hj)] at hcount
  exact UInt32.toNat_inj.mp hcount

end State.AllReady

/-- Where no job waits for another, every interleaving puts all workers to sleep: every step of a
worker finishes a job or brings the worker nearer to its next delete or its sleep. -/
theorem inevitable_asleep [NeZero n] (h : (jobSystem n .conditionVariable).Reachable s)
    (hw : s.Working) (hready : s.AllReady) :
    (jobSystem n .conditionVariable).Inevitable Action.IsWorker
      (fun t => ∀ k, t.worker k = .blocked) s := by
  apply System.inevitable_of_decreasing (I := fun s =>
    (jobSystem n .conditionVariable).Reachable s ∧ s.Working ∧ s.AllReady) wellFounded_lt
    (fun s => toLex (s.unfinished.card, ∑ k, s.untilRest k))
  · rintro s ⟨hr, hw, -⟩ hp
    obtain ⟨k, hk⟩ := not_forall.mp hp
    have hwait : ¬ s.Waits k := by
      rintro (hb | he)
      · exact hk hb
      · have hrun := (reachable_shutdown hr).exit (.inr he)
        simp [hw.isRunning] at hrun
    obtain ⟨t, ht⟩ := exists_workerStep hr {} hwait hw.addingJob nofun
    exact ⟨_, t, ⟨k, {}, rfl⟩, ht⟩
  · rintro s _ t ⟨hr, hw, hready⟩ - ⟨k, c, rfl⟩ ht
    have hstep := workerStep_of_step ht
    refine ⟨⟨hr.step ht, hstep.workerFrame.working hw, hready.step hr ht⟩, ?_⟩
    apply Prod.Lex.toLex_lt_toLex.mpr
    rcases hstep.unfinished (reachable_ownership hr) (reachable_ownership (hr.step ht)) with
      ⟨hat, hu⟩ | ⟨-, j, hj, hu⟩
    · refine .inr ⟨congrArg Finset.card hu, ?_⟩
      exact hstep.sum_untilRest_lt (reachable_linked hr) hw (fun j hj => hready.free hr hj) hat
    · apply Or.inl
      rw [hu]
      exact Finset.card_erase_lt_of_mem hj
  · exact ⟨h, hw, hready⟩

/-- If no notification came too early, the workers do not sleep while a job is open. -/
theorem openJobs_eq_empty_of_asleep [NeZero n]
    (h : ((jobSystem n .conditionVariable).restrict fun s a => ¬ s.MissesPush a).Reachable s)
    (hw : s.Working) (hs : ∀ k, s.worker k = .blocked) : s.openJobs = ∅ := by
  have hadd := hw.addingJob
  have hframe : s.frame.hand = none := by
    cases hp : s.frame <;> simp_all [FramePc.hand, FramePc.addingJob]
  have hqueue (k) : (s.queues k).deque = [] := by
    by_contra hne
    obtain ⟨j, hj⟩ := reachable_watched h k (.inr (hs k)) hne
    simp [hj, FramePc.addingJob] at hadd
  have hidle (k) : (s.worker k).hand = none ∧ (s.worker k).countingDown = none := by
    rw [hs k]
    exact ⟨rfl, rfl⟩
  apply Finset.card_eq_zero.mp
  rw [(reachable_ownership h.of_restrict).openJobs_eq_queued hframe hidle]
  simp [hqueue]

/-- What the steps of workers keep in a run in which no notification came too early. -/
theorem inTime_step [NeZero n] (ht : (jobSystem n m).step s a t) (ha : a.IsWorker)
    (h : ((jobSystem n m).restrict fun s a => ¬ s.MissesPush a).Reachable s ∧ s.Working) :
    ((jobSystem n m).restrict fun s a => ¬ s.MissesPush a).Reachable t ∧ t.Working := by
  obtain ⟨k, c, rfl⟩ := ha
  exact ⟨h.1.step ⟨id, ht⟩, (workerStep_of_step ht).workerFrame.working h.2⟩

theorem Ownership.open_of_holdings (h : Ownership s) {j : JobId} (hj : j ∈ s.holdings k) :
    j ∈ s.openJobs := by
  apply h.mem_openJobs.mpr
  rcases h.held hj with hl | hl
  · exact .inl hl
  · exact .inr (.inl hl)

/-- Jobs that wait for nothing need no fairness: if no open job waits for any job, be that one
submitted or not, and no worker has missed a notification, every interleaving of the workers,
however unfair, executes all submitted jobs and ends with all workers asleep. -/
theorem ready_jobs_complete [NeZero n]
    (h : ((jobSystem n .conditionVariable).restrict fun s a => ¬ s.MissesPush a).Reachable s)
    (hw : s.Working) (hready : ∀ j ∈ s.openJobs, s.pendingEdges j = ∅) :
    (jobSystem n .conditionVariable).Inevitable Action.IsWorker
      (fun t => (∀ k, t.worker k = .blocked) ∧ t.jobsToDo = 0 ∧ ∀ j, s.Submitted j → t.Done j)
      s := by
  have ho := reachable_ownership h.of_restrict
  have hasleep := inevitable_asleep h.of_restrict hw
    fun k j hj => hready j (ho.open_of_holdings hj)
  apply hasleep.trans (I := fun t =>
    (((jobSystem n .conditionVariable).restrict fun s a => ¬ s.MissesPush a).Reachable t ∧
      t.Working) ∧ ∀ j, s.Submitted j → t.Submitted j)
  · rintro u a t ⟨hu, hsub⟩ ha ht
    refine ⟨inTime_step ht ha hu, fun j hj => ?_⟩
    obtain ⟨k, c, rfl⟩ := ha
    exact (workerStep_of_step ht).workerFrame.submitted (hsub j hj)
  · rintro t ⟨⟨hr, hwt⟩, hsub⟩ hp
    have hempty := openJobs_eq_empty_of_asleep hr hwt hp
    have hot := reachable_ownership hr.of_restrict
    refine .now ⟨hp, UInt32.toNat_inj.mp ?_, fun j hj => ?_⟩
    · have hcount := reachable_openCounted hr.of_restrict
      rw [State.OpenCounted, hempty] at hcount
      exact hcount
    · apply (reachable_recorded hr.of_restrict).done_of_closed _ (hsub j hj)
      intro hopen
      have hmem := hot.mem_openJobs.mpr hopen
      simp [hempty] at hmem
  · exact ⟨⟨h, hw⟩, fun j hj => hj⟩

/-- A job whose predecessor has just decremented it, in the queue of the other worker. -/
theorem ready_jobs_complete_chain : ∃ s : State 2, s.openJobs = {0, 1} ∧ s.DependsOn 1 0 ∧
    (jobSystem 2 .conditionVariable).Inevitable Action.IsWorker (fun t =>
      (∀ k, t.worker k = .blocked) ∧ t.jobsToDo = 0 ∧ ∀ j, s.Submitted j → t.Done j) s := by
  obtain ⟨s, hr, hrun, hstop, hadd, hready, hopen, hd⟩ :=
    exists_of_executeWithin (n := 2) (m := .conditionVariable) (G := fun s a => ¬ s.MissesPush a)
    (l := [.call (.createJob 0), .call (.createJob 1), .call (.addDependency 1 0)] ++
      addJobActions 0 ++ addJobActions 1 ++ workerActions 0 9)
    (p := fun s => s.isRunning = true ∧ s.stopped = false ∧ s.frame.addingJob = false ∧
      (∀ j ∈ s.openJobs, s.pendingEdges j = ∅) ∧ s.openJobs = {0, 1} ∧
      .addDependency 1 0 ∈ s.history) (by decide +kernel)
  exact ⟨s, hopen, hd, ready_jobs_complete hr ⟨hrun, hstop, hadd⟩ hready⟩

/-- The workers come to rest exactly if all the work gets done: if none of them has missed the
notification of an `AddJob`, all interleavings put all of them to sleep if and only if all
interleavings execute all open jobs. -/
theorem rests_iff_done [NeZero n]
    (h : ((jobSystem n .conditionVariable).restrict fun s a => ¬ s.MissesPush a).Reachable s)
    (hw : s.Working) :
    (jobSystem n .conditionVariable).Inevitable Action.IsWorker
        (fun t => ∀ k, t.worker k = .blocked) s ↔
      (jobSystem n .conditionVariable).Inevitable Action.IsWorker
        (fun t => t.openJobs = ∅) s := by
  constructor
  · intro hi
    apply hi.trans (fun s a t hs ha ht => inTime_step ht ha hs)
    · exact fun t ht hp => .now (openJobs_eq_empty_of_asleep ht.1 ht.2 hp)
    · exact ⟨h, hw⟩
  · intro hi
    apply hi.trans (fun s a t hs ha ht => inTime_step ht ha hs)
    · intro t ht hp
      apply inevitable_asleep ht.1.of_restrict ht.2
      intro k j hj
      have hmem := (reachable_ownership ht.1.of_restrict).open_of_holdings hj
      simp [hp] at hmem
    · exact ⟨h, hw⟩

/-- A job waits in front of a worker for another job, which is the other worker's. -/
theorem rests_iff_done_chain : ∃ s : State 2, s.openJobs = {0, 1} ∧ s.pendingEdges 0 ≠ ∅ ∧
    ((jobSystem 2 .conditionVariable).Inevitable Action.IsWorker
        (fun t => ∀ k, t.worker k = .blocked) s ↔
      (jobSystem 2 .conditionVariable).Inevitable Action.IsWorker
        (fun t => t.openJobs = ∅) s) := by
  obtain ⟨s, hr, hrun, hstop, hadd, hopen, hedge⟩ :=
    exists_of_executeWithin (n := 2) (m := .conditionVariable) (G := fun s a => ¬ s.MissesPush a)
    (l := [.call (.createJob 0), .call (.createJob 1), .call (.addDependency 0 1)] ++
      addJobActions 0 ++ addJobActions 1)
    (p := fun s => s.isRunning = true ∧ s.stopped = false ∧ s.frame.addingJob = false ∧
      s.openJobs = {0, 1} ∧ s.pendingEdges 0 ≠ ∅) (by decide +kernel)
  exact ⟨s, hopen, hedge, rests_iff_done hr ⟨hrun, hstop, hadd⟩⟩

/-- With nothing open, all workers can fall asleep while the frame thread is about to block. -/
theorem exists_asleep_of_waitBlock [NeZero n] (h : (jobSystem n .conditionVariable).Reachable s)
    (hf : s.frame = .waitBlock) (hrun : s.isRunning = true) (hempty : s.openJobs = ∅) :
    ∃ t, (jobSystem n .conditionVariable).Path Action.IsWorker s t ∧ t.frame = .waitBlock ∧
      t.openJobs = ∅ ∧ ∀ k, t.worker k = .blocked := by
  have hstop := (reachable_shutdown h).not_stopped hrun
  obtain ⟨t, hpath, hb⟩ := (inevitable_asleep h ⟨hrun, hstop, by rw [hf]; rfl⟩ fun k j hj => by
    have hmem := (reachable_ownership h).open_of_holdings hj
    simp [hempty] at hmem).exists_path
  obtain ⟨hft, hopen⟩ := hpath.invariant
    (I := fun t => t.frame = .waitBlock ∧ t.openJobs ⊆ s.openJobs)
    (fun u a t hr hu ha ht => by
      obtain ⟨k, c, rfl⟩ := ha
      exact ⟨(workerStep_of_step ht).frame_waitBlock hu.1,
        ((step_cases ht).openJobs_subset (reachable_ownership hr)
          (reachable_ownership (hr.step ht)) (by simp)).trans hu.2⟩) h ⟨hf, subset_rfl⟩
  exact ⟨t, hpath, hft, Finset.subset_empty.mp (hopen.trans_eq hempty), hb⟩

/-- After a quit, all workers can come to rest while the frame thread is about to block. -/
theorem exists_waits_of_waitBlock [NeZero n] (h : (jobSystem n .conditionVariable).Reachable s)
    (hf : s.frame = .waitBlock) (hrun : s.isRunning = false) :
    ∃ t, (jobSystem n .conditionVariable).Path Action.IsWorker s t ∧ t.frame = .waitBlock ∧
      t.isRunning = false ∧ ∀ k, t.Waits k := by
  obtain ⟨t, hpath, ⟨-, hft, hstop⟩, hw⟩ := System.exists_path_of_decreasing
    (T := jobSystem n .conditionVariable) (A := Action.IsWorker)
    (I := fun s => (jobSystem n .conditionVariable).Reachable s ∧ s.frame = .waitBlock ∧
      s.isRunning = false) (P := fun s => ∀ k, s.Waits k) wellFounded_lt (fun s => ∑ k, s.rank k)
    (fun s hs hp => by
      obtain ⟨hr, hf, hrun⟩ := hs
      obtain ⟨k, hk⟩ := not_forall.mp hp
      obtain ⟨t, ht⟩ := exists_workerStep hr {} hk (by rw [hf]; rfl) nofun
      have hs := workerStep_of_step ht
      refine ⟨_, t, ⟨k, {}, rfl⟩, ht, ⟨hr.step ht, hs.frame_waitBlock hf,
        hs.flags.1.trans hrun⟩, hs.sum_rank_lt (reachable_linked hr) fun hfree => ?_⟩
      cases hfree with
      | inl hprep => simp [hrun] at hprep
      | inr hprep => simp [State.jobsAvailable, hrun] at hprep) s ⟨h, hf, hrun⟩
  exact ⟨t, hpath, hft, hstop, hw⟩

/-- With nothing open, or after a quit, all workers can come to rest while the frame thread is about
to block. -/
theorem exists_rest_of_waitBlock [NeZero n] (h : (jobSystem n .conditionVariable).Reachable s)
    (hf : s.frame = .waitBlock) (hdone : s.allJobsDone = true) (hcard : s.openJobs.card < 2 ^ 32) :
    ∃ t, (jobSystem n .conditionVariable).Path Action.IsWorker s t ∧ t.frame = .waitBlock ∧
      t.allJobsDone = true ∧ ∀ k, t.Waits k := by
  by_cases hrun : s.isRunning = true
  · have h0 : s.jobsToDo = 0 := by simpa [State.allJobsDone, hrun] using hdone
    have hcount := (reachable_openCounted h).exact hcard
    rw [h0] at hcount
    obtain ⟨t, hpath, hft, hempty, hb⟩ :=
      exists_asleep_of_waitBlock h hf hrun (Finset.card_eq_zero.mp hcount.symm)
    have hcount := reachable_openCounted (hpath.reachable h)
    rw [State.OpenCounted, hempty] at hcount
    have h0t : t.jobsToDo = 0 := UInt32.toNat_inj.mp hcount
    exact ⟨t, hpath, hft, by simp [State.allJobsDone, h0t], fun k => .inl (hb k)⟩
  · obtain ⟨t, hpath, hft, hstop, hw⟩ :=
      exists_waits_of_waitBlock h hf (Bool.eq_false_of_not_eq_true hrun)
    exact ⟨t, hpath, hft, by simp [State.allJobsDone, hstop], hw⟩

/-- A notification that the frame thread misses when it has nothing to wait for any more, `jobsToDo`
being the number of open jobs, can leave it behind for good: the workers come to rest, and then it
blocks. -/
theorem exists_frameLost_of_missesFrame [NeZero n]
    (h : (jobSystem n .conditionVariable).Reachable s) (hcard : s.openJobs.card < 2 ^ 32)
    (ha : s.MissesFrame a) (hdone : s.allJobsDone = true)
    (ht : (jobSystem n .conditionVariable).step s a t) :
    ∃ u, (jobSystem n .conditionVariable).Path Action.IsThread t u ∧ u.FrameLost := by
  obtain ⟨hf, hd⟩ := ha.step ht
  have hworker (j) : a ≠ .call (.addJob j) := by
    rintro rfl
    exact ha
  have hsub := (step_cases ht).openJobs_subset (reachable_ownership h)
    (reachable_ownership (h.step ht)) hworker
  obtain ⟨u, hpath, hfu, hdu, hw⟩ := exists_rest_of_waitBlock (h.step ht) hf (hd.trans hdone)
    ((Finset.card_le_card hsub).trans_lt hcard)
  have hstep : (jobSystem n .conditionVariable).step u .frame (u.gotoFrame .blocked) := by
    refine ⟨trivial, ?_⟩
    simp [ofNext, next, frameStep, hfu]
  have hthread : (jobSystem n .conditionVariable).Path Action.IsThread t u :=
    hpath.mono (by rintro _ ⟨k, c, rfl⟩; trivial)
  have hframe : (.frame : Action n).IsThread := trivial
  exact ⟨u.gotoFrame .blocked, hthread.trans (.head hframe hstep (.refl _)), rfl, hdu,
    fun k => (hw k).symm⟩

end JobSystem
