import JobSystem.Completion

/-! A single worker has nobody to steal from and meets the jobs of its queue from the back to the
front. A job that waits for one in front of it is popped and pushed back for ever, so that
everything is finished exactly when there is no such job and the worker does not sleep in
front of its queue. -/
namespace JobSystem
open TransitionSystem
variable {n : ℕ} {m : WaitMode} {k : Fin n} {j x : JobId} {e : JobId × ℕ} {s t : State n}

namespace State

/-- The jobs that worker `k` comes to before `j`, if it takes them from the back. -/
def behind (s : State n) (k : Fin n) (j : JobId) : List JobId :=
  (s.holdings k).drop ((s.holdings k).idxOf j + 1)

/-- The pending edges into `j`, but for those out of jobs behind it. -/
def aheadEdges (s : State n) (k : Fin n) (j : JobId) : Finset (JobId × ℕ) :=
  (s.pendingEdges j).filter fun e => e.1 ∉ s.behind k j

/-- Not started, and with a counter that is not 0 even when all jobs behind are done: the job waits
for itself, for one in front of it or for one that is not submitted. -/
def Stuck (s : State n) (k : Fin n) (j : JobId) : Prop :=
  s.lifecycle j = .submitted ∧ (s.aheadEdges k j).card % 2 ^ 32 ≠ 0

instance (s : State n) (k : Fin n) (j : JobId) : Decidable (s.Stuck k j) :=
  inferInstanceAs (Decidable (_ ∧ _))

/-- A job is stuck, or the worker sleeps, or is about to, in front of one. -/
def Hopeless (s : State n) (k : Fin n) : Prop :=
  (∃ j, s.Stuck k j) ∨ (s.worker k).Asleep ∧ (s.queues k).deque ≠ []

/-- Everything submitted is done, and `WaitForAllJobs` finds its predicate true. -/
def AllDone (s : State n) : Prop := (∀ j, s.Submitted j → s.Done j) ∧ s.jobsToDo = 0

end State

theorem drop_idxOf_concat {l : List JobId} (hj : j ∈ l) :
    (l ++ [x]).drop ((l ++ [x]).idxOf j + 1) = l.drop (l.idxOf j + 1) ++ [x] := by
  rw [List.idxOf_append_of_mem hj]
  exact List.drop_append_of_le_length (List.idxOf_lt_length_of_mem hj)

/-- The job in hand is behind every queued one. -/
theorem mem_behind_of_hand (hx : (s.worker k).hand = some x) (hj : j ∈ (s.queues k).deque) :
    x ∈ s.behind k j := by
  unfold State.behind State.holdings
  rw [hx, Option.toList_some, drop_idxOf_concat hj]
  exact List.mem_append_right _ (List.mem_singleton_self x)

/-- Nothing is behind the job in hand. -/
theorem Ownership.aheadEdges_of_hand (h : Ownership s) (hh : (s.worker k).hand = some j) :
    s.aheadEdges k j = s.pendingEdges j := by
  have hb : s.behind k j = [] := by
    unfold State.behind State.holdings
    rw [hh, Option.toList_some, List.idxOf_append_of_notMem (h.not_mem_queue_of_hand hh)]
    simp
  simp [State.aheadEdges, hb]

/-- The job in hand is stuck when its counter is not 0. -/
theorem Ownership.stuck_of_hand (h : Ownership s) (hc : Counted s)
    (hh : (s.worker k).hand = some j) (hs : (s.worker k).startedJob = none) :
    s.Stuck k j ↔ (s.jobs j).dependencyCount ≠ 0 := by
  unfold State.Stuck
  rw [h.aheadEdges_of_hand hh, ← hc j, and_iff_right (h.submitted_of_hand hh hs)]
  exact not_congr (UInt32.toNat_inj (b := 0))

/-- A destructor runs only for a job that was started before the step. -/
theorem WorkerStep.started_of_returned (h : WorkerStep m k s t)
    (hx : (t.worker k).returnedJob = some x) : (s.worker k).startedJob = some x := by
  cases h with
  | control hp hc =>
    rw [State.goto_self] at hx
    rw [hp, ← hc.sameWork.startedJob]
    exact startedJob_of_returnedJob hx
  | @pushUnlock site =>
    rw [State.goto_self, (idle_done site).returnedJob] at hx
    simp [WorkerPc.returnedJob] at hx
  | steal =>
    rw [State.goto_self] at hx
    cases hs : (s.queues k).steal.1 <;> simp [hs, WorkerPc.returnedJob] at hx
  | _ => simp_all [WorkerPc.returnedJob, WorkerPc.startedJob]

/-- A worker step ends no pending edge but those out of the job that its worker has started. -/
theorem WorkerStep.pending (h : WorkerStep m k s t) (hs : (s.worker k).startedJob ≠ some e.1)
    (he : s.Pending e) : t.Pending e := by
  refine ⟨fun hf => ?_, fun k' => ?_⟩
  · cases h with
    | @start j =>
      by_cases hj : e.1 = j
      · simp [hj] at hf
      · exact he.1 (by simpa [hj] using hf)
    | @delete j i hp =>
      have hj : e.1 ≠ j := by rintro rfl; exact hs (by simp [hp, WorkerPc.startedJob])
      exact he.1 (by simpa [hj] using hf)
    | _ => exact he.1 hf
  · by_cases hk : k' = k
    · subst hk
      by_contra hlt
      exact hs (h.started_of_returned (returnedJob_of_decremented (by omega)))
    · obtain hw | ⟨-, hw⟩ := h.worker_of_ne hk
      · exact hw ▸ he.2 k'
      · simp [hw, WorkerPc.decremented]

/-- Unless it steals, a worker leaves what is ahead of its jobs as it is: it takes jobs from
the back only, and ends edges out of the job at the back only. -/
theorem WorkerStep.aheadEdges (h : WorkerStep m k s t) (ho : Ownership s) (hl : Linked s)
    (hne : s.worker k ≠ .steal) (hj : j ∈ s.holdings k) (hsub : s.lifecycle j = .submitted) :
    t.aheadEdges k j = s.aheadEdges k j := by
  have hpend := h.jobStep.pendingEdges_subset ho hl (j := j) (by simp [hsub])
  have hkeep {e} (he : e ∈ s.pendingEdges j) (hs : (s.worker k).startedJob ≠ some e.1) :
      e ∈ t.pendingEdges j := by
    obtain ⟨hedge, hp⟩ := mem_pendingEdges.mp he
    exact mem_pendingEdges.mpr ⟨h.jobStep.edges_subset ho j hedge, h.pending hs hp⟩
  have hahead {e : JobId × ℕ} (he : e.1 ∉ s.behind k j) :
      (s.worker k).startedJob ≠ some e.1 := by
    intro hs
    refine he (mem_behind_of_hand (hand_of_startedJob hs) ?_)
    refine (mem_holdings.mp hj).resolve_right fun hh => ?_
    obtain rfl : e.1 = j := Option.some.inj ((hand_of_startedJob hs).symm.trans hh)
    simp [ho.running_of_startedJob hs] at hsub
  unfold State.aheadEdges
  cases h.holdings with
  | same heq =>
    have hb : t.behind k j = s.behind k j := by unfold State.behind; rw [heq]
    rw [hb]
    refine Finset.Subset.antisymm (Finset.filter_subset_filter _ hpend) fun e he => ?_
    obtain ⟨hp, hb⟩ := Finset.mem_filter.mp he
    exact Finset.mem_filter.mpr ⟨hkeep hp (hahead hb), hb⟩
  | steal hs => exact absurd hs hne
  | @delete x hat heq =>
    obtain ⟨y, i, hp, hi⟩ := hat
    obtain rfl : y = x := by
      have hlast := congrArg List.getLast? heq
      simpa [State.holdings, hp, WorkerPc.hand] using hlast
    have hrun := ho.running_of_startedJob (k := k) (j := y) (by simp [hp, WorkerPc.startedJob])
    have hjt : j ∈ t.holdings k := by
      rw [heq, List.mem_append, List.mem_singleton] at hj
      refine hj.resolve_right ?_
      rintro rfl
      simp [hrun] at hsub
    have hb : s.behind k j = t.behind k j ++ [y] := by
      unfold State.behind
      rw [heq, drop_idxOf_concat hjt]
    obtain rfl := h.eq_of_end hp hi
    ext e
    rw [Finset.mem_filter, Finset.mem_filter]
    constructor
    · rintro ⟨he, hbt⟩
      have hy : e.1 ≠ y := fun hy => (mem_pendingEdges.mp he).2.1 (by simp [hy])
      exact ⟨hpend he, by simp [hb, hbt, hy]⟩
    · rintro ⟨he, hbs⟩
      exact ⟨hkeep he (hahead hbs), fun hbt => hbs (by simp [hb, hbt])⟩

/-- A worker step makes no job submitted, and starts the one it is about to execute. -/
theorem WorkerStep.submitted_iff (h : WorkerStep m k s t) (ho : Ownership s) :
    t.lifecycle j = .submitted ↔ s.lifecycle j = .submitted ∧ s.worker k ≠ .execute j := by
  cases h with
  | @start i hp => by_cases hi : j = i <;> simp [hp, hi, eq_comm]
  | @delete i _ hp =>
    have hrun := ho.running_of_startedJob (k := k) (j := i) (by simp [hp, WorkerPc.startedJob])
    by_cases hi : j = i <;> simp [hp, hi, hrun]
  | control hp hc => rw [hp]; cases hc <;> simp
  | _ => simp_all

/-- 0 when a worker that finds a ready job comes to its delete before the next iteration. -/
def WorkerPc.turn : WorkerPc n → ℕ
  | .waitStopped | .waitPredicate | .notified | .workStopped | .getJob .first => 0
  | .canExecute .first (some _) | .execute _ | .running _ => 0
  | .destroy _ _ | .reread _ _ | .readQueue _ _ | .rereadQueue _ _ | .notifyQueue _ _ _ => 0
  | _ => 1

theorem turn_le_one (p : WorkerPc n) : p.turn ≤ 1 := by
  unfold WorkerPc.turn
  split <;> simp

/-- A worker whose jobs are all ready begins no second iteration before it has deleted one. -/
theorem WorkerStep.turn (h : WorkerStep m k s t) (hw : s.Working)
    (hhold : (s.worker k).turn = 0 → s.holdings k ≠ [])
    (hready : ∀ a j, s.worker k = .canExecute a (some j) → (s.jobs j).dependencyCount = 0) :
    s.AtDelete k ∨ (t.worker k).turn < (s.worker k).turn ∨
      (t.worker k).turn ≤ (s.worker k).turn ∧ ¬ s.Renews k := by
  have stay (hp : (s.worker k).turn = 1) (hr : ¬ s.Renews k) : s.AtDelete k ∨
      (t.worker k).turn < (s.worker k).turn ∨
      (t.worker k).turn ≤ (s.worker k).turn ∧ ¬ s.Renews k :=
    .inr (.inr ⟨hp ▸ turn_le_one _, hr⟩)
  have hdeque (hp : (s.worker k).turn = 0) (hh : (s.worker k).hand = none) :
      (s.queues k).deque ≠ [] := by
    simpa [State.holdings, hh] using hhold hp
  cases h with
  | control hp hc =>
    cases hc with
    | isRunning => exact .inr (.inl (by simp [hp, WorkerPc.turn]))
    | stopped hs | skipWork hs => simp [hw.stopped] at hs
    | blockedJob a j hc => exact absurd (hready a j hp) hc
    | available ha =>
      exact .inr (.inr ⟨by simp [hp, WorkerPc.turn], by simp [State.Renews, hp, ha]⟩)
    | noJob a => cases a <;> exact stay (by simp [hp, WorkerPc.turn]) (by simp [State.Renews, hp])
    | noMoreJobs | moreJobs | foreign | own =>
      exact stay (by simp [hp, WorkerPc.turn]) (by simp [State.Renews, hp])
    | lockWait | wake | tryToWork | workable | stillBlocked | hasQueue | noQueue | toNotify
    | lostQueue => exact .inr (.inr ⟨by simp [hp, WorkerPc.turn], by simp [State.Renews, hp]⟩)
  | leave hp hr => simp [hw.isRunning] at hr
  | sleep hp ha =>
    have hne := hdeque (by simp [hp, WorkerPc.turn]) (by simp [hp, WorkerPc.hand])
    simp [State.jobsAvailable, JobQueue.isEmpty, hne] at ha
  | @getJob a hp =>
    cases a with
    | first =>
      have hne := hdeque (by simp [hp, WorkerPc.turn]) (by simp [hp, WorkerPc.hand])
      have hpop : (s.queues k).pop.1 = some ((s.queues k).deque.getLast hne) :=
        List.getLast?_eq_some_getLast hne
      exact .inr (.inr ⟨by simp [hp, hpop, WorkerPc.turn], by simp [State.Renews, hp]⟩)
    | second => exact stay (by simp [hp, WorkerPc.turn]) (by simp [State.Renews, hp])
  | delete hp hi => exact .inl ⟨_, _, hp, hi⟩
  | @ready a j hp =>
    refine .inr (.inr ⟨?_, by simp [State.Renews, hp]⟩)
    rw [State.goto_self]
    exact Nat.zero_le _
  | start hp | ret hp | decrement hp | notifyQueue hp =>
    exact .inr (.inr ⟨by simp [hp, WorkerPc.turn], by simp [State.Renews, hp]⟩)
  | block hp | pushLock hp | pushBack hp | pushNotify hp | pushUnlock hp | countDown hp
  | notifyFrame hp | steal hp | stealWrite hp | exitNotify hp =>
    exact stay (by simp [hp, WorkerPc.turn]) (by simp [State.Renews, hp])

/-- A worker that is asleep takes no step but to block. -/
theorem WorkerStep.eq_block (h : WorkerStep m k s t) (hs : (s.worker k).Asleep) :
    t = s.goto k .blocked := by
  unfold WorkerPc.Asleep at hs
  cases h with
  | control hp hc => cases hc <;> simp [hp] at hs
  | block => rfl
  | _ => simp_all

theorem Ownership.not_allDone_of_hopeless (ho : Ownership s) (h : s.Hopeless k) :
    ¬ s.AllDone := by
  rintro ⟨hdone, -⟩
  have hnone {j} (hl : s.lifecycle j = .submitted) : False := by
    have := (hdone j ⟨by simp [hl], by simp [hl]⟩).lifecycle
    simp [hl] at this
  obtain ⟨j, hj⟩ | ⟨-, hd⟩ := h
  · exact hnone hj.1
  · obtain ⟨j, hj⟩ := List.exists_mem_of_ne_nil _ hd
    exact hnone (ho.queued hj)

theorem allDone_of_closed [NeZero n] (hr : (jobSystem n m).Reachable s)
    (h : ∀ j, ¬ s.Open j) : s.AllDone := by
  refine ⟨fun j hj => (reachable_recorded hr).done_of_closed (h j) hj, ?_⟩
  have hcount := reachable_openCounted hr
  rw [State.OpenCounted, State.openJobs, Finset.filter_false_of_mem fun j _ => h j] at hcount
  exact UInt32.toNat_inj.mp hcount

section One
variable {s t : State 1} {a : Action 1}

/-- Every index that the only worker draws is its own. -/
theorem reachable_not_steal (h : (jobSystem 1 m).Reachable s) : s.worker 0 ≠ .steal := by
  refine h.invariant (I := fun s => s.worker 0 ≠ .steal) (fun _ hs => ?_)
    fun s a t _ hi ht hk => ?_
  · subst hs
    simp [init]
  · obtain he | ⟨-, hn⟩ | ⟨c, -, hw⟩ := (step_cases ht).worker_moves 0
    · exact hi (he ▸ hk)
    · simp [hn] at hk
    · obtain ⟨r, hr⟩ := hw.entry.steal hk
      exact hr (Nat.mod_one r)

/-- The counter of a job stays 0 until its execution, with no other worker to decrement it. -/
theorem reachable_execute (h : (jobSystem 1 m).Reachable s) (hp : s.worker 0 = .execute j) :
    (s.jobs j).dependencyCount = 0 := by
  refine h.invariant (I := fun s => s.worker 0 = .execute j → (s.jobs j).dependencyCount = 0)
    (fun _ hs => ?_) (fun s a t hr hi ht hk => ?_) hp
  · subst hs
    simp [init]
  have ho := reachable_ownership hr
  have hsub (hw : s.worker 0 = .execute j) : s.lifecycle j = .submitted :=
    ho.submitted_of_hand (k := 0) (by simp [hw, WorkerPc.hand]) (by simp [hw, WorkerPc.startedJob])
  cases (step_cases ht).jobStep with
  | quiet hq => exact (hq.links j).dependencyCount.trans (hi ((hq.progress 0).execute hk))
  | @ready k a i hp h0 =>
    obtain rfl := Subsingleton.elim k 0
    obtain rfl : i = j := by simpa using hk
    exact h0
  | @start k | @ret k | @decrement k | @delete k =>
    obtain rfl := Subsingleton.elim k 0
    simp at hk
  | createJob f =>
    have hne : j ≠ s.nextJob := (ho.lt_nextJob (by simp [hsub hk])).ne
    simpa [callStep, hne] using hi hk
  | @addDependency d x hd hx hm =>
    rw [(addDependency_onlyJobs s d x).worker] at hk
    have hne : j ≠ d := by rintro rfl; simp [hsub hk] at hd
    rw [(addDependency_jobs hm j).2.2, if_neg hne, hi hk]
    rfl
  | addJob => exact hi hk

/-- No step of the only worker gets a job stuck, and none frees one that is. -/
theorem WorkerStep.stuck_iff (h : WorkerStep m 0 s t) (hr : (jobSystem 1 m).Reachable s)
    (hadd : s.frame.addingJob = false) : t.Stuck 0 j ↔ s.Stuck 0 j := by
  have ho := reachable_ownership hr
  have hahead (hsub : s.lifecycle j = .submitted) : t.aheadEdges 0 j = s.aheadEdges 0 j := by
    obtain ⟨k, hk⟩ := ho.located_worker hadd (.inl hsub)
    obtain rfl := Subsingleton.elim k 0
    exact h.aheadEdges ho (reachable_linked hr) (reachable_not_steal hr) hk hsub
  constructor
  · rintro ⟨hl, hc⟩
    have hsub := ((h.submitted_iff ho).mp hl).1
    exact ⟨hsub, hahead hsub ▸ hc⟩
  · intro hs
    refine ⟨(h.submitted_iff ho).mpr ⟨hs.1, fun hp => ?_⟩, (hahead hs.1).symm ▸ hs.2⟩
    have hstuck := ho.stuck_of_hand (k := 0) (j := j) (reachable_counted hr)
      (by simp [hp, WorkerPc.hand]) (by simp [hp, WorkerPc.startedJob])
    exact hstuck.mp hs (reachable_execute hr hp)

theorem WorkerStep.hopeless_iff (h : WorkerStep m 0 s t) (hr : (jobSystem 1 m).Reachable s)
    (hw : s.Working) : t.Hopeless 0 ↔ s.Hopeless 0 := by
  refine or_congr (exists_congr fun j => h.stuck_iff hr hw.addingJob) ⟨?_, ?_⟩
  · rintro ⟨hs, hd⟩
    obtain ⟨⟨p, rfl⟩, hs | ⟨-, ha, -⟩⟩ := h.asleep hs
    · exact ⟨hs, hd⟩
    · rw [State.goto_queues] at hd
      simp [State.jobsAvailable, JobQueue.isEmpty, hd] at ha
  · rintro ⟨hs, hd⟩
    obtain rfl := h.eq_block hs
    exact ⟨.inr (by simp), hd⟩

theorem Ownership.open_cases (h : Ownership s) (hadd : s.frame.addingJob = false)
    (hx : s.Open x) : x ∈ s.holdings 0 ∨ s.worker 0 = .countDown x := by
  have hmem (hl : s.lifecycle x = .submitted ∨ s.lifecycle x = .running) : x ∈ s.holdings 0 := by
    obtain ⟨k, hk⟩ := h.located_worker hadd hl
    exact Subsingleton.elim k 0 ▸ hk
  rcases hx with hl | hl | ⟨k, hk⟩
  · exact .inl (hmem (.inl hl))
  · exact .inl (hmem (.inr hl))
  · obtain rfl := Subsingleton.elim k 0
    cases hp : s.worker 0 <;> simp_all [WorkerPc.countingDown]

/-- While a job is open and there is hope, the worker is awake. -/
theorem Ownership.awake_of_open (h : Ownership s) (hadd : s.frame.addingJob = false)
    (hx : s.Open x) (hh : ¬ s.Hopeless 0) : ¬ (s.worker 0).Asleep := by
  intro hs
  rcases h.open_cases hadd hx with hm | hp
  · have hhand : (s.worker 0).hand = none := by rcases hs with hs | hs <;> rw [hs] <;> rfl
    have hd : x ∈ (s.queues 0).deque := by simpa [mem_holdings, hhand] using hm
    exact hh (.inr ⟨hs, List.ne_nil_of_mem hd⟩)
  · simp [WorkerPc.Asleep, hp] at hs

/-- The steps still to go: first the jobs to finish, then the iterations until the next one, then
the steps of the current iteration. -/
def turnRank (s : State 1) : ℕ ×ₗ ℕ ×ₗ ℕ :=
  toLex (s.unfinished.card, toLex ((s.worker 0).turn, s.rank 0))

theorem WorkerStep.turnRank_lt (h : WorkerStep m 0 s t) (hr : (jobSystem 1 m).Reachable s)
    (ht : Ownership t) (hw : s.Working) (hx : s.Open x) (hh : ¬ s.Hopeless 0) :
    turnRank t < turnRank s := by
  have ho := reachable_ownership hr
  rcases h.unfinished ho ht with ⟨hat, hu⟩ | ⟨-, j, hj, hu⟩
  · refine Prod.Lex.toLex_lt_toLex.mpr (.inr ⟨congrArg Finset.card hu, ?_⟩)
    refine Prod.Lex.toLex_lt_toLex.mpr ?_
    have hhold (hp : (s.worker 0).turn = 0) : s.holdings 0 ≠ [] := by
      rcases ho.open_cases hw.addingJob hx with hm | hp'
      · exact List.ne_nil_of_mem hm
      · simp [hp', WorkerPc.turn] at hp
    have hready (a j) (hp : s.worker 0 = .canExecute a (some j)) :
        (s.jobs j).dependencyCount = 0 := by
      by_contra hc
      refine hh (.inl ⟨j, (ho.stuck_of_hand (k := 0) (reachable_counted hr) ?_ ?_).mpr hc⟩) <;>
        rw [hp] <;> rfl
    obtain hd | hlt | ⟨hle, hren⟩ := h.turn hw hhold hready
    · exact absurd hd hat
    · exact .inl hlt
    · exact hle.lt_or_eq.imp_right fun he => ⟨he, h.rank_lt (reachable_linked hr) hren⟩
  · refine Prod.Lex.toLex_lt_toLex.mpr (.inl ?_)
    rw [hu]
    exact Finset.card_erase_lt_of_mem hj

theorem not_inevitable_of_hopeless (hr : (jobSystem 1 m).Reachable s) (hw : s.Working)
    (hh : s.Hopeless 0) : ¬ (jobSystem 1 m).Inevitable Action.IsWorker State.AllDone s := by
  intro hin
  refine hin.not_closed (B := fun s => (jobSystem 1 m).Reachable s ∧ s.Working ∧ s.Hopeless 0)
    (fun s ⟨hr, _, hh⟩ => (reachable_ownership hr).not_allDone_of_hopeless hh) ?_ ⟨hr, hw, hh⟩
  rintro s a t ⟨hr, hw, hh⟩ ⟨k, c, rfl⟩ ht
  obtain rfl := Subsingleton.elim k 0
  have hwork := workerStep_of_step ht
  exact ⟨hr.step ht, hwork.workerFrame.working hw, (hwork.hopeless_iff hr hw).mpr hh⟩

theorem inevitable_of_not_hopeless (hr : (jobSystem 1 m).Reachable s) (hw : s.Working)
    (hh : ¬ s.Hopeless 0) : (jobSystem 1 m).Inevitable Action.IsWorker State.AllDone s := by
  have hopen {s : State 1} (hr : (jobSystem 1 m).Reachable s) (hd : ¬ s.AllDone) :
      ∃ x, s.Open x := by
    by_contra hc
    exact hd (allDone_of_closed hr (not_exists.mp hc))
  apply System.inevitable_of_decreasing
    (I := fun s => (jobSystem 1 m).Reachable s ∧ s.Working ∧ ¬ s.Hopeless 0) wellFounded_lt turnRank
  · rintro s ⟨hr, hw, hh⟩ hd
    obtain ⟨x, hx⟩ := hopen hr hd
    have ho := reachable_ownership hr
    have hwait := hw.not_waits hr (ho.awake_of_open hw.addingJob hx hh)
    obtain ⟨t, ht⟩ := exists_workerStep hr {} hwait hw.addingJob fun _ hp => by
      rcases ho.open_cases hw.addingJob hx with hm | hp'
      · exact available_of_holdings hm hp
      · simp [hp] at hp'
    exact ⟨_, t, ⟨0, {}, rfl⟩, ht⟩
  · rintro s a t ⟨hr, hw, hh⟩ hd ⟨k, c, rfl⟩ ht
    obtain rfl := Subsingleton.elim k 0
    obtain ⟨x, hx⟩ := hopen hr hd
    have hwork := workerStep_of_step ht
    refine ⟨⟨hr.step ht, hwork.workerFrame.working hw, mt (hwork.hopeless_iff hr hw).mp hh⟩, ?_⟩
    exact hwork.turnRank_lt hr (reachable_ownership (hr.step ht)) hw hx hh
  · exact ⟨hr, hw, hh⟩

/-- A single worker finishes everything, whatever `rand()` returns, if and only if no job is stuck
and the worker does not sleep, or go to sleep, in front of its queue. -/
theorem single_worker_completes (h : (jobSystem 1 m).Reachable s) (hrun : s.isRunning = true)
    (hst : s.stopped = false) (hadd : s.frame.addingJob = false) :
    (jobSystem 1 m).Inevitable Action.IsWorker State.AllDone s ↔
      (∀ j, ¬ s.Stuck 0 j) ∧ ((s.worker 0).Asleep → (s.queues 0).deque = []) := by
  have hw : s.Working := ⟨hrun, hst, hadd⟩
  have hhope : ¬ s.Hopeless 0 ↔
      (∀ j, ¬ s.Stuck 0 j) ∧ ((s.worker 0).Asleep → (s.queues 0).deque = []) := by
    rw [State.Hopeless, not_or, not_exists, not_and, not_not]
  rw [← hhope]
  exact ⟨fun hin hh => not_inevitable_of_hopeless h hw hh hin, inevitable_of_not_hopeless h hw⟩

/-- Job 1 depends on job 0 and is submitted first. -/
theorem single_worker_completes_chain : ∃ s : State 1, s.lifecycle 0 = .submitted ∧
    s.lifecycle 1 = .submitted ∧ s.DependsOn 1 0 ∧
    (jobSystem 1 .conditionVariable).Inevitable Action.IsWorker State.AllDone s := by
  obtain ⟨s, hr, hrun, hst, hadd, hl0, hl1, hh, hs, hp⟩ := exists_of_execute (n := 1)
    (m := .conditionVariable)
    (l := [.call (.createJob 0), .call (.createJob 1), .call (.addDependency 1 0)] ++
      addJobActions 1 ++ addJobActions 0)
    (p := fun s => s.isRunning = true ∧ s.stopped = false ∧ s.frame.addingJob = false ∧
      s.lifecycle 0 = .submitted ∧ s.lifecycle 1 = .submitted ∧
      .addDependency 1 0 ∈ s.history ∧ (∀ j < s.nextJob, ¬ s.Stuck 0 j) ∧
      s.worker 0 = .loopTop) (by decide +kernel)
  refine ⟨s, hl0, hl1, hh, (single_worker_completes hr hrun hst hadd).mpr ⟨fun j hj => ?_, ?_⟩⟩
  · exact hs j ((reachable_ownership hr).lt_nextJob (by simp [hj.1])) hj
  · rw [hp]
    simp [WorkerPc.Asleep]

/-- Job 1 depends on job 0 and is submitted last: the worker pops it and pushes it back for
ever. -/
theorem single_worker_stuck : ∃ s : State 1, (jobSystem 1 .conditionVariable).Reachable s ∧
    s.isRunning = true ∧ s.stopped = false ∧ s.frame = .idle ∧
    (∀ x, ¬ Relation.TransGen s.DependsOn x x) ∧ (∀ j < s.nextJob, s.Submitted j) ∧
    ¬ (jobSystem 1 .conditionVariable).Inevitable Action.IsWorker State.AllDone s := by
  obtain ⟨s, hr, hrun, hst, hf, hsub, hh, hs⟩ := exists_of_execute (n := 1)
    (m := .conditionVariable)
    (l := [.call (.createJob 0), .call (.createJob 1), .call (.addDependency 1 0)] ++
      addJobActions 0 ++ addJobActions 1)
    (p := fun s => s.isRunning = true ∧ s.stopped = false ∧ s.frame = .idle ∧
      (∀ j < s.nextJob, s.Submitted j) ∧ s.history = [.addDependency 1 0] ∧ s.Stuck 0 1)
    (by decide +kernel)
  refine ⟨s, hr, hrun, hst, hf, fun x hx => ?_, hsub,
    not_inevitable_of_hopeless hr ⟨hrun, hst, by rw [hf]; rfl⟩ (.inl ⟨1, hs⟩)⟩
  have hdep (d x) : s.DependsOn d x ↔ d = 1 ∧ x = 0 := by simp [State.DependsOn, hh]
  obtain ⟨y, hxy, -⟩ := Relation.TransGen.head'_iff.mp hx
  obtain ⟨z, -, hzx⟩ := Relation.TransGen.tail'_iff.mp hx
  have h1 := ((hdep _ _).mp hxy).1
  simp [h1, hdep] at hzx

end One

end JobSystem
