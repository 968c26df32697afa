import JobSystem.History
import JobSystem.Shutdown
import Mathlib.Algebra.Order.BigOperators.Group.Finset

/-! `jobsToDo` counts the open jobs: those counted by `AddJob` and not yet counted down by
`Finish`. What a frame may rely on when it has read 0 follows from that. -/
namespace JobSystem
open TransitionSystem
variable {n : ℕ} {m : WaitMode} {k : Fin n} {j : JobId} {s t u : State n} {a : Action n}
  {p : WorkerPc n}

namespace State

/-- `jobsToDo` is the number of open jobs, as a 32-bit number. -/
def OpenCounted (s : State n) : Prop := s.jobsToDo.toNat = s.openJobs.card % 2 ^ 32

/-- 1 when the worker holds a job whose jobFunction has not ended. -/
def unended (s : State n) (k : Fin n) : ℕ :=
  if (s.worker k).hand.isSome ∧ (s.worker k).returnedJob = none then 1 else 0

/-- The job has run to its end once, has decremented each of its dependents once and has been
deleted once. -/
structure Done (s : State n) (j : JobId) : Prop where
  lifecycle : s.lifecycle j = .finished
  starts : s.starts j = 1
  returns : s.returns j = 1
  decrements : ∀ i < (s.jobs j).dependentCount, s.decrements j i = 1
  deletes : s.deletes j = 1

end State

theorem Ownership.mem_openJobs (h : Ownership s) : j ∈ s.openJobs ↔ s.Open j := by
  simp only [State.openJobs, Finset.mem_filter, Finset.mem_range, and_iff_right_iff_imp]
  rintro (hl | hl | ⟨k, hk⟩)
  · exact h.lt_nextJob (by simp [hl])
  · exact h.lt_nextJob (by simp [hl])
  · exact h.lt_nextJob (by simp [h.countingDown hk])

theorem Ownership.openJobs_congr (h : Ownership s) (h' : Ownership t)
    (ho : ∀ j, t.Open j ↔ s.Open j) : t.openJobs = s.openJobs := by
  ext j
  rw [h.mem_openJobs, h'.mem_openJobs, ho]

theorem open_congr (hl : t.lifecycle = s.lifecycle)
    (hc : ∀ k, (t.worker k).countingDown = (s.worker k).countingDown) (j : JobId) :
    t.Open j ↔ s.Open j := by
  simp only [State.Open, hl, hc]

/-- How one step changes the open jobs and their counter. -/
inductive OpenStep (s : State n) : State n → Prop
  | same {t : State n} : t.openJobs = s.openJobs → t.jobsToDo = s.jobsToDo → OpenStep s t
  | opens {t : State n} {j : JobId} : j ∉ s.openJobs → t.openJobs = insert j s.openJobs →
      t.jobsToDo = s.jobsToDo + 1 → OpenStep s t
  | closes {t : State n} {j : JobId} : j ∈ s.openJobs → t.openJobs = s.openJobs.erase j →
      t.jobsToDo = s.jobsToDo - 1 → OpenStep s t

theorem State.OpenCounted.step (h : s.OpenCounted) (ht : OpenStep s t) : t.OpenCounted := by
  unfold State.OpenCounted at *
  cases ht with
  | same ho hc => rw [ho, hc, h]
  | opens hj ho hc =>
    rw [ho, hc, Finset.card_insert_of_notMem hj, UInt32.toNat_add, h, UInt32.toNat_one]
    omega
  | closes hj ho hc =>
    have hpos := Finset.card_pos.mpr ⟨_, hj⟩
    rw [ho, hc, Finset.card_erase_of_mem hj, UInt32.toNat_sub, h, UInt32.toNat_one]
    omega

/-- Steps of worker `k` that neither delete a job nor count one down. -/
theorem OpenStep.of_goto (ho : Ownership s) (ho' : Ownership (u.goto k p))
    (hu : ∀ k', (u.worker k').countingDown = (s.worker k').countingDown)
    (hp : p.countingDown = (s.worker k).countingDown) (hl : u.lifecycle = s.lifecycle)
    (hc : u.jobsToDo = s.jobsToDo) : OpenStep s (u.goto k p) := by
  refine .same (ho.openJobs_congr ho' (open_congr hl fun k' => ?_)) hc
  by_cases hk : k' = k
  · subst hk; simpa using hp
  · simpa [hk] using hu k'

theorem OpenStep.of_delete {i : ℕ} (ho : Ownership s)
    (ho' : Ownership (((s.setLifecycle j .finished).log (.delete j)).goto k (.countDown j)))
    (hp : s.worker k = .destroy j i) :
    OpenStep s (((s.setLifecycle j .finished).log (.delete j)).goto k (.countDown j)) := by
  have hj : s.lifecycle j = .running := ho.running_of_startedJob (k := k)
    (by simp [hp, WorkerPc.startedJob])
  refine .same (ho.openJobs_congr ho' fun x => ?_) rfl
  by_cases hx : x = j
  · subst hx
    exact iff_of_true (.inr (.inr ⟨k, by simp [WorkerPc.countingDown]⟩)) (.inr (.inl hj))
  · exact or_congr (by simp [hx]) (or_congr (by simp [hx])
      (State.exists_worker_goto (A := (·.countingDown = some x))
        (s := (s.setLifecycle j .finished).log (.delete j))
        (by simp [hp, WorkerPc.countingDown, Ne.symm hx])))

theorem OpenStep.of_countDown (ho : Ownership s)
    (ho' : Ownership ((s.setJobsToDo (s.jobsToDo - 1)).goto k .rereadJobsToDo))
    (hp : s.worker k = .countDown j) :
    OpenStep s ((s.setJobsToDo (s.jobsToDo - 1)).goto k .rereadJobsToDo) := by
  have hcd : (s.worker k).countingDown = some j := by rw [hp]; rfl
  have hj := ho.countingDown hcd
  refine .closes (j := j) (ho.mem_openJobs.mpr (.inr (.inr ⟨k, hcd⟩))) ?_ rfl
  ext x
  rw [Finset.mem_erase, ho.mem_openJobs, ho'.mem_openJobs]
  by_cases hx : x = j
  · subst hx
    refine iff_of_false ?_ (by simp)
    rintro (hl | hl | ⟨k', hk'⟩)
    · simp [hj] at hl
    · simp [hj] at hl
    · have hk : k' ≠ k := by rintro rfl; simp [WorkerPc.countingDown] at hk'
      exact hk (ho.countingDown_unique (by simpa [hk] using hk') hcd)
  · rw [and_iff_right hx]
    exact or_congr Iff.rfl (or_congr Iff.rfl
      (State.exists_worker_goto (A := (·.countingDown = some x))
        (s := s.setJobsToDo (s.jobsToDo - 1)) (by simp [hp, WorkerPc.countingDown, Ne.symm hx])))

theorem OpenStep.of_worker (h : WorkerStep m k s t) (ho : Ownership s) (ho' : Ownership t) :
    OpenStep s t := by
  cases h with
  | control hp hc => exact .of_goto ho ho' (fun _ => rfl) (hp ▸ hc.sameWork.countingDown) rfl rfl
  | @start j hp =>
    have hj := ho.submitted_of_hand (k := k) (j := j) (by simp [hp, WorkerPc.hand])
      (by simp [hp, WorkerPc.startedJob])
    refine .same (ho.openJobs_congr ho' fun x => ?_) rfl
    have hcd : (∃ k', ((((s.setLifecycle j .running).log (.start k j)).goto k
        (.running j)).worker k').countingDown = some x) ↔
        ∃ k', (s.worker k').countingDown = some x :=
      State.exists_worker_goto (A := (·.countingDown = some x))
        (s := (s.setLifecycle j .running).log (.start k j)) (by simp [hp, WorkerPc.countingDown])
    by_cases hx : x = j
    · subst hx; exact iff_of_true (.inr (.inl (by simp))) (.inl hj)
    · exact or_congr (by simp [hx]) (or_congr (by simp [hx]) hcd)
  | delete hp => exact .of_delete ho ho' hp
  | countDown hp => exact .of_countDown ho ho' hp
  | pushNotify hp | notifyQueue hp =>
    exact .of_goto ho ho' (fun k' => (notifyOne_sameWork s _ k').countingDown) (by rw [hp]; rfl)
      rfl rfl
  | @pushUnlock site _ hp =>
    exact .of_goto ho ho' (fun _ => rfl) (by rw [hp]; exact (idle_done site).countingDown) rfl rfl
  | steal hp =>
    refine .of_goto ho ho' (fun _ => rfl) ?_ rfl rfl
    rw [hp]
    cases (s.queues k).steal.1 <;> rfl
  | leave hp | sleep hp | block hp | getJob hp | ready hp | pushLock hp | pushBack hp | ret hp
  | decrement hp | notifyFrame hp | stealWrite hp | exitNotify hp =>
    exact .of_goto ho ho' (fun _ => rfl) (by rw [hp]; rfl) rfl rfl

theorem OpenStep.of_frame (h : FrameStep s t) (ho : Ownership s) (ho' : Ownership t) :
    OpenStep s t := by
  cases h with
  | pushNotify | wakeOne =>
    exact .same (ho.openJobs_congr ho' (open_congr rfl
      fun k => (notifyOne_sameWork s _ k).countingDown)) rfl
  | _ => exact .same (ho.openJobs_congr ho' (open_congr rfl fun _ => rfl)) rfl

theorem OpenStep.of_call (c : Call) (hc : ∀ j, c = .addJob j → s.lifecycle j = .created)
    (ho : Ownership s) (ho' : Ownership (callStep s c)) : OpenStep s (callStep s c) := by
  cases c with
  | createJob f =>
    have hfresh : s.lifecycle s.nextJob = .unallocated := ho.unallocated.mpr le_rfl
    refine .same (ho.openJobs_congr ho' fun x => ?_) rfl
    by_cases hx : x = s.nextJob
    · subst hx
      exact or_congr (by simp [callStep, hfresh]) (or_congr (by simp [callStep, hfresh]) Iff.rfl)
    · exact or_congr (by simp [callStep, hx]) (or_congr (by simp [callStep, hx]) Iff.rfl)
  | addDependency d x =>
    have hrest := addDependency_onlyJobs s d x
    exact .same (ho.openJobs_congr ho' (open_congr hrest.lifecycle fun k => by rw [hrest.worker]))
      hrest.jobsToDo
  | addJob j =>
    have hj := hc j rfl
    have hnot (k) : (s.worker k).countingDown ≠ some j := fun hk => by
      simp [ho.countingDown hk] at hj
    refine .opens (j := j) ?_ ?_ rfl
    · rw [ho.mem_openJobs]
      rintro (hl | hl | ⟨k, hk⟩)
      · simp [hj] at hl
      · simp [hj] at hl
      · exact hnot k hk
    · ext x
      rw [Finset.mem_insert, ho.mem_openJobs, ho'.mem_openJobs]
      by_cases hx : x = j
      · subst hx
        exact iff_of_true (.inl (by simp [callStep])) (.inl rfl)
      · simp [State.Open, callStep, hx]
  | waitForAllJobs | joinJobs =>
    exact .same (ho.openJobs_congr ho' (open_congr rfl fun _ => rfl)) rfl

/-- One step opens a job and counts it, closes one and counts it down, or does neither. -/
theorem StepCase.openStep (h : StepCase m s a t) (ho : Ownership s) (ho' : Ownership t) :
    OpenStep s t := by
  cases h with
  | worker h => exact .of_worker h ho ho'
  | frame h => exact .of_frame h ho ho'
  | createJob f => exact .of_call (.createJob f) (by simp) ho ho'
  | @addDependency d x => exact .of_call (.addDependency d x) (by simp) ho ho'
  | addJob _ hj => exact .of_call (.addJob _) (by rintro _ ⟨⟩; exact hj) ho ho'
  | exit | quit | wakeFrame | waitForAllJobs | joinJobs =>
    exact .same (ho.openJobs_congr ho' (open_congr rfl fun _ => rfl)) rfl
  | wakeWorker hb => exact .of_goto ho ho' (fun _ => rfl) (by rw [hb]; rfl) rfl rfl

/-- Only `AddJob` opens a job. -/
theorem StepCase.openJobs_subset (h : StepCase m s a t) (ho : Ownership s) (ho' : Ownership t)
    (ha : ∀ j, a ≠ .call (.addJob j)) : t.openJobs ⊆ s.openJobs := by
  cases h.openStep ho ho' with
  | same he => exact he.subset
  | closes _ he => exact he ▸ Finset.erase_subset _ _
  | opens _ _ hc =>
    have hcount : t.jobsToDo = s.jobsToDo ∨ t.jobsToDo = s.jobsToDo - 1 := by
      cases h with
      | worker hs =>
        cases hs with
        | countDown => exact .inr rfl
        | _ => exact .inl rfl
      | frame hs => cases hs <;> exact .inl rfl
      | @addDependency d x => exact .inl (addDependency_onlyJobs s d x).jobsToDo
      | addJob => exact absurd rfl (ha _)
      | _ => exact .inl rfl
    grind

theorem reachable_openCounted [NeZero n] (h : (jobSystem n m).Reachable s) : s.OpenCounted := by
  refine h.invariant (fun _ hs => ?_) fun _ _ _ hr hi ht => ?_
  · subst hs
    have hempty : (init : State n).openJobs = ∅ := rfl
    rw [State.OpenCounted, hempty]
    rfl
  · have hs := step_cases ht
    exact hi.step (hs.openStep (reachable_ownership hr) (reachable_ownership (hr.step ht)))

theorem State.OpenCounted.exact (h : s.OpenCounted) (hf : s.openJobs.card < 2 ^ 32) :
    s.jobsToDo.toNat = s.openJobs.card := h.trans (Nat.mod_eq_of_lt hf)

/-- What the queues and the workers hold is open. -/
theorem Ownership.card_holdings (h : Ownership s) :
    (Finset.univ.biUnion fun k => (s.holdings k).toFinset) ⊆ s.openJobs ∧
      (Finset.univ.biUnion fun k => (s.holdings k).toFinset).card =
        ∑ k, (s.holdings k).length := by
  refine ⟨fun j hj => ?_, ?_⟩
  · obtain ⟨k, -, hk⟩ := Finset.mem_biUnion.mp hj
    rcases h.held (List.mem_toFinset.mp hk) with hl | hl
    · exact h.mem_openJobs.mpr (.inl hl)
    · exact h.mem_openJobs.mpr (.inr (.inl hl))
  · rw [Finset.card_biUnion]
    · exact Finset.sum_congr rfl fun k _ => List.toFinset_card_of_nodup (h.nodup k)
    · intro k _ k' _ hne
      refine Finset.disjoint_left.mpr fun j hj hj' => hne ?_
      exact h.exclusive (List.mem_toFinset.mp hj) (List.mem_toFinset.mp hj')

theorem unended_le_hand (s : State n) (k : Fin n) :
    s.unended k ≤ (s.worker k).hand.toList.length := by
  unfold State.unended
  split
  next h => obtain ⟨j, hj⟩ := Option.isSome_iff_exists.mp h.1
            simp [hj]
  next => exact Nat.zero_le _

theorem Recorded.done_of_finished (h : Recorded s) (hj : s.lifecycle j = .finished) : s.Done j :=
  ⟨hj, (h.starts j).1 (.inr hj), (h.returns j).1 (.inl hj),
    fun i hi => (h.decrements j i).1 (.inl ⟨hj, hi⟩), (h.deletes j).1 hj⟩

theorem State.Submitted.cases (h : s.Submitted j) :
    s.lifecycle j = .submitted ∨ s.lifecycle j = .running ∨ s.lifecycle j = .finished := by
  cases hl : s.lifecycle j with
  | unallocated => exact absurd hl h.1
  | created => exact absurd hl h.2
  | submitted => exact .inl rfl
  | running => exact .inr (.inl rfl)
  | finished => exact .inr (.inr rfl)

/-- Without open jobs, everything submitted is done. -/
theorem Recorded.done_of_closed (h : Recorded s) (hopen : ¬ s.Open j) (hj : s.Submitted j) :
    s.Done j := by
  rcases hj.cases with hl | hl | hl
  · exact absurd (.inl hl) hopen
  · exact absurd (.inr (.inl hl)) hopen
  · exact h.done_of_finished hl

/-- A deleted job stays deleted. -/
theorem finished_of_step [NeZero n] (h : (jobSystem n m).Reachable s)
    (ht : (jobSystem n m).step s a t) (hj : s.lifecycle j = .finished) :
    t.lifecycle j = .finished := by
  obtain ⟨e, he, hp⟩ := ((reachable_recorded h).deletes j).iff_exists.mp hj
  refine ((reachable_recorded (h.step ht)).deletes j).iff_exists.mpr ⟨e, ?_, hp⟩
  obtain hh | ⟨e', hh, -⟩ := (step_cases ht).history
  · exact hh ▸ he
  · exact hh ▸ List.mem_cons_of_mem e' he

/-- Where no worker holds a job and no `AddJob` is under way, the open jobs are the queued ones. -/
theorem Ownership.openJobs_eq_queued (h : Ownership s) (hf : s.frame.hand = none)
    (hk : ∀ k, (s.worker k).hand = none ∧ (s.worker k).countingDown = none) :
    s.openJobs.card = ∑ k, (s.queues k).deque.length := by
  obtain ⟨hsub, hcard⟩ := h.card_holdings
  have hhold (k) : s.holdings k = (s.queues k).deque := by simp [State.holdings, (hk k).1]
  simp only [hhold] at hsub hcard
  rw [← hcard]
  refine congrArg _ (subset_antisymm (fun j hj => ?_) hsub)
  have hloc (hl : s.lifecycle j = .submitted ∨ s.lifecycle j = .running) :
      j ∈ Finset.univ.biUnion fun k => (s.queues k).deque.toFinset := by
    obtain hh | ⟨k, hm⟩ := h.located hl
    · simp [hf] at hh
    · exact Finset.mem_biUnion.mpr ⟨k, Finset.mem_univ k, List.mem_toFinset.mpr (hhold k ▸ hm)⟩
  rcases h.mem_openJobs.mp hj with hl | hl | ⟨k, hc⟩
  · exact hloc (.inl hl)
  · exact hloc (.inr hl)
  · simp [(hk k).2] at hc

/-- The wait barrier: `jobsToDo` is the number of open jobs, it bounds the jobs that are queued
or in hand and not ended, it is not 0 at a decrement, once it is 0 everything submitted is
done, and after `JoinJobs` it is the number of queued jobs. -/
theorem reachable_open_jobs [NeZero n] (h : (jobSystem n m).Reachable s)
    (hf : s.openJobs.card < 2 ^ 32) :
    s.jobsToDo.toNat = s.openJobs.card ∧
      ∑ k, ((s.queues k).deque.length + s.unended k) ≤ s.jobsToDo.toNat ∧
      (∀ k j, s.worker k = .countDown j → s.jobsToDo ≠ 0) ∧
      (s.jobsToDo = 0 → ∀ j, s.Submitted j → s.Done j) ∧
      (s.joined = true → s.frame.hand = none →
        s.jobsToDo.toNat = ∑ k, (s.queues k).deque.length) := by
  have ho := reachable_ownership h
  have hcount := (reachable_openCounted h).exact hf
  have hzero (h0 : s.jobsToDo = 0) : s.openJobs = ∅ := by
    rw [h0] at hcount
    exact Finset.card_eq_zero.mp hcount.symm
  refine ⟨hcount, ?_, fun k j hk h0 => ?_, fun h0 j hj => ?_, fun hj hh => ?_⟩
  · obtain ⟨hsub, hcard⟩ := ho.card_holdings
    calc ∑ k, ((s.queues k).deque.length + s.unended k)
        ≤ ∑ k, (s.holdings k).length := by
          refine Finset.sum_le_sum fun k _ => ?_
          rw [State.holdings, List.length_append]
          exact Nat.add_le_add_left (unended_le_hand s k) _
      _ ≤ s.openJobs.card := hcard ▸ Finset.card_le_card hsub
      _ = s.jobsToDo.toNat := hcount.symm
  · have hmem := ho.mem_openJobs.mpr (.inr (.inr ⟨k, by rw [hk]; rfl⟩) : s.Open j)
    simp [hzero h0] at hmem
  · refine (reachable_recorded h).done_of_closed (fun hopen => ?_) hj
    have hmem := ho.mem_openJobs.mpr hopen
    simp [hzero h0] at hmem
  · rw [hcount]
    refine ho.openJobs_eq_queued hh fun k => ?_
    rw [((reachable_shutdown h).joined hj).2 k]
    exact ⟨rfl, rfl⟩

/-- Two jobs, the second depending on the first, at the moment the frame reads 0. -/
theorem open_jobs_after_frame : ∃ s : State 2, s.frame = .waitPredicate ∧ s.jobsToDo = 0 ∧
    s.Done 0 ∧ s.Done 1 := by
  obtain ⟨s, hr, hf, hw, h0, hs0, hs1⟩ := exists_of_execute (n := 2) (m := .conditionVariable)
    (l := [.call (.createJob 0), .call (.createJob 1), .call (.addDependency 1 0)] ++
      addJobActions 0 ++ addJobActions 1 ++ [.call .waitForAllJobs] ++ workerActions 0 15 ++
      workerActions 1 11)
    (p := fun s => s.openJobs.card < 2 ^ 32 ∧ s.frame = .waitPredicate ∧ s.jobsToDo = 0 ∧
      s.Submitted 0 ∧ s.Submitted 1) (by decide +kernel)
  have hdone := (reachable_open_jobs hr hf).2.2.2.1 h0
  exact ⟨s, hw, h0, hdone 0 hs0, hdone 1 hs1⟩

end JobSystem
