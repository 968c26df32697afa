import JobSystem.FairWait
import JobSystem.Frames
import JobSystem.Progress

/-! What becomes of `main_runner` once the main thread has stored `isRunning = false`: wherever its
call of `UpdateParallel` is, it comes to the end of `JoinJobs`, provided that no notification comes
too early. -/
namespace JobSystem
open TransitionSystem
variable {n : ℕ} {m : WaitMode} {F P : ℕ} {M N : Runner n} {k : Fin n} {s t : State n}
  {a : Action n} {c : Call} {l : List Call}

/-- The steps that are left of `JoinJobs`. -/
def FramePc.untilJoined : FramePc n → ℕ
  | .joinStop => 2 * n + 3
  | .wakeAll i => (n - i) + n + 2
  | .join i => (n - i) + 1
  | _ => 0

/-- How far the frame thread is from the end of its call when `isRunning` is false. -/
def FramePc.rank (p : FramePc n) : ℕ := p.untilAdded + p.untilReturn + p.untilJoined

theorem FrameStep.rank_lt (h : FrameStep s t) (hrun : s.isRunning = false) :
    t.frame.rank < s.frame.rank := by
  unfold FramePc.rank
  cases h with
  | control hp hc =>
    rw [hp]
    cases hc with
    | sleep hd => simp [State.allJobsDone, hrun] at hd
    | wokenAll hi =>
      simp only [State.gotoFrame_frame, FramePc.untilAdded, FramePc.untilReturn,
        FramePc.untilJoined]
      omega
    | joinOne hi =>
      simp only [State.gotoFrame_frame, FramePc.untilAdded, FramePc.untilReturn,
        FramePc.untilJoined]
      omega
    | done | block | wake =>
      simp [FramePc.untilAdded, FramePc.untilReturn, FramePc.untilJoined]
  | wakeOne hi hp =>
    rw [hp]
    simp only [State.gotoFrame_frame, FramePc.untilAdded, FramePc.untilReturn, FramePc.untilJoined]
    omega
  | write hp | pushLock hp | pushBack hp | pushNotify hp | pushUnlock hp | index hp | stop hp
  | joined _ hp =>
    rw [hp]
    simp [FramePc.untilAdded, FramePc.untilReturn, FramePc.untilJoined]
    try omega

/-- Every step of an `AddJob` brings it closer to its end. -/
theorem FrameStep.untilAdded_lt (h : FrameStep s t) (hadd : s.frame.addingJob = true) :
    t.frame.untilAdded < s.frame.untilAdded ∧ (t.frame = .idle ∨ t.frame.addingJob = true) := by
  cases h with
  | control hp hc =>
    rw [hp] at hadd
    cases hc <;> cases hadd
  | write hp | pushLock hp | pushBack hp | pushNotify hp | pushUnlock hp =>
    rw [hp]
    exact ⟨by simp [FramePc.untilAdded], .inr rfl⟩
  | index hp =>
    rw [hp]
    exact ⟨by simp [FramePc.untilAdded], .inl rfl⟩
  | stop hp | wakeOne _ hp | joined _ hp => simp [hp, FramePc.addingJob] at hadd

/-- Within `AddJob` the frame thread can go on unless it waits for the mutex of the queue. -/
theorem exists_frameStep_of_adding (hadd : s.frame.addingJob = true)
    (hfree : ∀ j q, s.frame = .addJobPush j q .lock → (s.queues q).locked = false) :
    ∃ t, frameStep s = some t := by
  refine Option.isSome_iff_exists.mp ?_
  unfold frameStep
  cases hp : s.frame with
  | addJobWrite | addJobIndex => rfl
  | addJobPush j q stage =>
    cases stage with
    | lock => simp [State.pushStep, hfree j q hp]
    | pushBack | notify | unlock => rfl
  | _ => simp [hp, FramePc.addingJob] at hadd

/-- How many steps the threads have left at most, when `isRunning` is false and no call follows. -/
def State.stepsLeft (s : State n) : ℕ := s.frame.rank + ∑ k, s.rank k

/-- Where no worker makes a step, none gets further away from its end. -/
theorem sum_rank_le (hw : ∀ k, t.worker k = s.worker k ∨
      s.worker k = .blocked ∧ t.worker k = .notified)
    (hd : ∀ x, (t.jobs x).dependentCount = (s.jobs x).dependentCount) :
    ∑ k, t.rank k ≤ ∑ k, s.rank k := by
  apply Finset.sum_le_sum
  intro k _
  unfold State.rank
  simp only [hd]
  obtain he | ⟨hb, hn⟩ := hw k
  · rw [he]
  · rw [hb, hn]
    simp [WorkerPc.rank]

theorem StepCase.stepsLeft_lt (h : StepCase m s a t) (hl : Linked s) (hrun : s.isRunning = false)
    (ha : ∀ c, a ≠ .call c) (hq : a ≠ .quit) : t.stepsLeft < s.stepsLeft := by
  have hmoves {k : Fin n} (hk : ∀ c, a ≠ .worker k c) : t.worker k = s.worker k ∨
      s.worker k = .blocked ∧ t.worker k = .notified := by
    obtain he | hb | ⟨c, hc, -⟩ := h.worker_moves k
    · exact .inl he
    · exact .inr hb
    · exact absurd hc (hk c)
  unfold State.stepsLeft
  cases h with
  | @worker k c _ hw =>
    have hlt := hw.sum_rank_lt hl (by
      rintro (⟨-, hr⟩ | ⟨-, hj⟩)
      · simp [hrun] at hr
      · simp [State.jobsAvailable, hrun] at hj)
    have hle : t.frame.rank ≤ s.frame.rank := by
      obtain he | ⟨hb, hn⟩ | ⟨hf, -⟩ | ⟨c, hc, -⟩ := (StepCase.worker (c := c) hw).frame_moves
      · rw [he]
      · rw [hb, hn]
        simp [FramePc.rank, FramePc.untilAdded, FramePc.untilReturn, FramePc.untilJoined]
      · cases hf
      · cases hc
    omega
  | frame hf =>
    have hlt := hf.rank_lt hrun
    have hle := sum_rank_le (fun k => hmoves (k := k) (by simp))
      fun x => (hf.quiet.links x).dependentCount
    omega
  | @wakeWorker k hb =>
    have hlt : ∑ i, (s.goto k .notified).rank i < ∑ i, s.rank i := by
      apply Finset.sum_lt_sum
      · intro i _
        unfold State.rank
        by_cases hi : i = k
        · subst hi
          rw [State.goto_self, hb]
          simp [WorkerPc.rank]
        · rw [State.goto_worker, Function.update_of_ne hi]
          exact Nat.le_refl _
      · refine ⟨k, Finset.mem_univ k, ?_⟩
        unfold State.rank
        rw [State.goto_self, hb]
        simp [WorkerPc.rank]
    exact Nat.add_lt_add_left hlt _
  | wakeFrame hb =>
    have hlt : (s.gotoFrame .notified).frame.rank < s.frame.rank := by
      rw [hb]
      simp [FramePc.rank, FramePc.untilAdded, FramePc.untilReturn, FramePc.untilJoined]
    exact Nat.add_lt_add_right hlt _
  | quit => exact absurd rfl hq
  | createJob | addDependency | exit | addJob | waitForAllJobs | joinJobs => exact absurd rfl (ha _)

/-- `JoinJobs` goes on until it has joined all workers. -/
theorem StepCase.joins (h : StepCase m s a t) (hs : s.frame.joining = true) :
    t.frame.joining = true ∨ t.joined = true := by
  obtain he | ⟨hb, -⟩ | ⟨-, hf⟩ | ⟨c, -, hi, -⟩ := h.frame_moves
  · exact .inl (he ▸ hs)
  · simp [hb, FramePc.joining] at hs
  · cases hf with
    | control hp hc =>
      rw [hp] at hs
      cases hc <;> first | exact .inl rfl | cases hs
    | stop | wakeOne => exact .inl rfl
    | joined => exact .inr rfl
    | write hp | pushLock hp | pushBack hp | pushNotify hp | pushUnlock hp | index hp =>
      simp [hp, FramePc.joining] at hs
  · simp [hi, FramePc.joining] at hs

theorem StepCase.joined_mono (h : StepCase m s a t) (hs : s.joined = true) : t.joined = true :=
  h.joined.elim (·.trans hs) (·.1)

namespace Runner

/-- A step of a thread, as opposed to one of the environment. -/
def IsThread : RunnerAction n → Prop
  | .inside a => a.IsThread
  | .call | .loop => True

/-- No notification of the step comes too early. -/
def InTime (M : Runner n) : RunnerAction n → Prop
  | .inside a => M.system.AllInTime a
  | .call | .loop => True

instance (M : Runner n) : (r : RunnerAction n) → Decidable (M.InTime r)
  | .inside a => inferInstanceAs (Decidable (M.system.AllInTime a))
  | .call | .loop => inferInstanceAs (Decidable True)

section
variable [NeZero n]

theorem of_inside (h : (mainRunner n m F P).step M (.inside a) N) :
    (∀ c, a ≠ .call c) ∧ ∃ t, next m M.system a = some t ∧ N = { M with system := t } := by
  change runnerNext m F P M (.inside a) = some N at h
  cases a with
  | call c => cases h
  | worker | frame | quit | wakeWorker | wakeFrame =>
    simp only [runnerNext, Option.map_eq_some_iff] at h
    obtain ⟨t, ht, rfl⟩ := h
    exact ⟨by simp, t, ht, rfl⟩

theorem of_loop (h : (mainRunner n m F P).step M .loop N) :
    M.calls = [] ∧ M.system.frame = .idle ∧ M.left = false ∧
      (M.system.isRunning = true ∧
          N = { M with calls := updateParallel F P M.system.nextJob, passes := M.passes + 1 } ∨
        M.system.isRunning = false ∧ N = { M with calls := [.joinJobs], left := true }) := by
  change runnerNext m F P M .loop = some N at h
  obtain ⟨⟨hc, hi, hl⟩, h⟩ := Option.ite_none_right_eq_some.mp h
  refine ⟨hc, hi, hl, ?_⟩
  cases hr : M.system.isRunning <;> simp only [hr] at h <;> cases h
  · exact .inr ⟨rfl, rfl⟩
  · exact .inl ⟨rfl, rfl⟩

theorem of_call (h : (mainRunner n m F P).step M .call N) : ∃ c l, M.calls = c :: l ∧
    M.system.frame = .idle ∧ (c = .joinJobs → M.system.joined = false) ∧
      N = { M with system := callStep M.system c, calls := l } := by
  change runnerNext m F P M .call = some N at h
  cases hc : M.calls with
  | nil => simp [runnerNext, hc] at h
  | cons c l =>
    simp only [runnerNext, hc] at h
    obtain ⟨t, ht, rfl⟩ := Option.map_eq_some_iff.mp h
    obtain ⟨⟨hi, hj⟩, ht⟩ := Option.ite_none_right_eq_some.mp ht
    cases ht
    exact ⟨c, l, rfl, hi, hj, rfl⟩

/-- Behind the loop there is `JoinJobs` and nothing else. -/
structure Leaves (M : Runner n) : Prop where
  call : .joinJobs ∈ M.calls → M.left = true ∧ M.system.joined = false
  joins : M.left = true → M.calls = [.joinJobs] ∨
    M.calls = [] ∧ (M.system.frame.joining = true ∨ M.system.joined = true)
  left : M.system.frame.joining = true ∨ M.system.joined = true → M.left = true

namespace Leaves

theorem inside (h : M.Leaves) (hM : M.Orderly m F P) (ha : ∀ c, a ≠ .call c)
    (ht : next m M.system a = some t) : Leaves { M with system := t } := by
  have hs := step_cases (Orderly.step_inside ha ht)
  refine ⟨fun hj => ⟨(h.call hj).1, ?_⟩, fun hl => ?_, fun hj => h.left ?_⟩
  · obtain he | ⟨-, i, -, hi⟩ := hs.joined
    · exact he.trans (h.call hj).2
    · have hc := hM.placed.joining (by rw [hi]; rfl)
      rw [show M.calls = [] from hc] at hj
      cases hj
  · obtain hc | ⟨hc, hj | hj⟩ := h.joins hl
    · exact .inl hc
    · exact .inr ⟨hc, hs.joins hj⟩
    · exact .inr ⟨hc, .inr (hs.joined_mono hj)⟩
  · obtain hj | hj := hj
    · exact .inl ((hs.phase ha).joining hj)
    · obtain he | ⟨-, i, -, hi⟩ := hs.joined
      · exact .inr (he.symm.trans hj)
      · exact .inl (by rw [hi]; rfl)

theorem step_call (h : M.Leaves) (hM : M.Orderly m F P) (hc : M.calls = c :: l)
    (hi : M.system.frame = .idle) :
    Leaves { M with system := callStep M.system c, calls := l } := by
  have hallow := (hM.allows hc).1
  have hjoined : (callStep M.system c).joined = M.system.joined := by
    cases c with
    | addDependency d x => exact (addDependency_onlyJobs M.system d x).joined
    | _ => rfl
  -- a call that is not `JoinJobs` is made within the loop
  have hloop (hne : c ≠ .joinJobs) : M.left ≠ true := fun hl => by
    obtain hl | ⟨hl, -⟩ := h.joins hl <;> rw [hc] at hl
    · exact hne (List.cons.inj hl).1
    · cases hl
  have hleft (hj : (callStep M.system c).joined = true) : M.left = true :=
    h.left (.inr (hjoined.symm.trans hj))
  have hrem := hM.placed.remaining
  rw [hc] at hrem
  cases hrem with
  | wait =>
    refine ⟨by simp, fun hl => absurd hl (hloop (by simp)), fun hj => ?_⟩
    exact hleft (hj.resolve_left (by simp [callStep, FramePc.joining]))
  | join =>
    have hcall := h.call (by rw [hc]; exact List.mem_cons_self)
    exact ⟨by simp, fun _ => .inr ⟨rfl, .inl rfl⟩, fun _ => hcall.1⟩
  | setUp hsets =>
    have hne : c ≠ .joinJobs := by rintro rfl; exact hsets
    refine ⟨fun hj => ?_, fun hl => absurd hl (hloop hne), fun hj => ?_⟩
    · obtain ⟨hl, hj'⟩ := h.call (by rw [hc]; exact List.mem_cons_of_mem c hj)
      exact ⟨hl, hjoined.trans hj'⟩
    · refine hleft (hj.resolve_left ?_)
      obtain hf | ⟨j, hf⟩ := hsets.frame hi hallow <;> rw [hf] <;> simp [FramePc.joining]

end Leaves

theorem reachable_leaves (hP : P ≤ 12) (h : (mainRunner n m F P).Reachable M) : M.Leaves := by
  refine h.invariant (fun M hi => ?_) fun M r N hr hM hN => ?_
  · obtain rfl : M = _ := hi
    constructor <;> simp [init, FramePc.joining]
  have hord := reachable_orderly hP hr
  cases r with
  | inside a =>
    obtain ⟨ha, t, ht, rfl⟩ := of_inside hN
    exact hM.inside hord ha ht
  | call =>
    obtain ⟨c, l, hc, hi, -, rfl⟩ := of_call hN
    exact hM.step_call hord hc hi
  | loop =>
    obtain ⟨hc, hi, hl, ⟨-, rfl⟩ | ⟨-, rfl⟩⟩ := of_loop hN
    · refine ⟨fun hj => ?_, fun hl' => absurd (hl.symm.trans hl') (by simp), hM.left⟩
      obtain hj | hj := List.mem_append.mp hj
      · exact (setsUp_of_mem_frames F P _ _ hj).elim
      · simp at hj
    · refine ⟨fun _ => ⟨rfl, ?_⟩, fun _ => .inl rfl, fun _ => rfl⟩
      exact Bool.eq_false_of_not_eq_true fun hj =>
        absurd (hl.symm.trans (hM.left (.inr hj))) (by simp)

theorem reachable_allInTime (hP : P ≤ 12)
    (h : ((mainRunner n m F P).restrict InTime).Reachable M) :
    ((jobSystem n m).restrict State.AllInTime).Reachable M.system := by
  induction h with
  | init hi => exact hi ▸ .init rfl
  | @step M r N hr ht ih =>
    have hord := reachable_orderly hP hr.of_restrict
    obtain ⟨hin, hN⟩ := ht
    cases r with
    | inside a =>
      obtain ⟨ha, t, ht, rfl⟩ := of_inside hN
      exact ih.step ⟨hin, Orderly.step_inside ha ht⟩
    | call =>
      obtain ⟨c, l, hc, hi, hj, rfl⟩ := of_call hN
      exact ih.step ⟨⟨⟨id, id⟩, id⟩, hord.step_next_call hc hi hj⟩
    | loop =>
      obtain ⟨-, -, -, ⟨-, rfl⟩ | ⟨-, rfl⟩⟩ := of_loop hN <;> exact ih

/-- `JoinJobs` has returned, and all workers have ended. -/
structure Ended (M : Runner n) : Prop where
  left : M.left = true
  calls : M.calls = []
  joined : M.system.joined = true
  exited : ∀ k, M.system.worker k = .exited

theorem ended_of_joined (hP : P ≤ 12) (h : (mainRunner n m F P).Reachable M)
    (hj : M.system.joined = true) : M.Ended := by
  have hleaves := reachable_leaves hP h
  have hl := hleaves.left (.inr hj)
  refine ⟨hl, ?_, hj, ((reachable_shutdown (reachable_orderly hP h).reachable).joined hj).2⟩
  obtain hc | ⟨hc, -⟩ := hleaves.joins hl
  · have := (hleaves.call (by simp [hc])).2
    simp [hj] at this
  · exact hc

/-- Until `JoinJobs` has returned, some thread can go on. -/
theorem exists_step_of_quit (hP : P ≤ 12)
    (h : ((mainRunner n m F P).restrict InTime).Reachable M) (hrun : M.system.isRunning = false)
    (hend : ¬ M.Ended) :
    ∃ r N, IsThread r ∧ ((mainRunner n m F P).restrict InTime).step M r N := by
  have hr := h.of_restrict
  have hord := reachable_orderly hP hr
  have hleaves := reachable_leaves hP hr
  have hsys := reachable_allInTime hP h
  have hjoined : M.system.joined = false :=
    Bool.eq_false_of_not_eq_true fun hj => hend (ended_of_joined hP hr hj)
  by_cases hstuck : M.system.FrameStuck ∧ ∀ k, M.system.Waits k
  · obtain ⟨hi | hb | hx | ⟨k, hj, hb⟩, hw⟩ := hstuck
    · cases hc : M.calls with
      | nil =>
        have hl : M.left = false := Bool.eq_false_of_not_eq_true fun hl => by
          obtain hl | ⟨-, hj | hj⟩ := hleaves.joins hl
          · simp [hc] at hl
          · simp [hi, FramePc.joining] at hj
          · simp [hjoined] at hj
        refine ⟨.loop, { M with calls := [.joinJobs], left := true }, trivial, trivial, ?_⟩
        show runnerNext m F P M .loop = _
        simp [runnerNext, hc, hi, hl, hrun]
      | cons c l =>
        refine ⟨.call, { M with system := callStep M.system c, calls := l }, trivial, trivial, ?_⟩
        show runnerNext m F P M .call = _
        simp [runnerNext, hc, next, hi, hjoined]
    · have hlost : ¬ M.system.FrameLost :=
        frame_not_lost (hsys.mono (fun _ hi => hi) fun _ _ _ ht => ⟨ht.1.1, ht.2⟩)
      exact absurd ⟨hb, by simp [State.allJobsDone, hrun], fun k => (hw k).symm⟩ hlost
    · exact absurd hx (by simp [hord.placed.exiting])
    · have hwoken : M.system.AllWoken :=
        reachable_allWoken (hsys.mono (fun _ hi => hi) fun _ _ _ ht => ⟨ht.1.2, ht.2⟩)
      exact absurd (.inr hb) (hwoken k (.inr (.inl ⟨k, hj⟩)))
  · obtain ⟨a, t, ha, hin, ht⟩ := exists_threadStep hord.reachable
      (fun _ _ _ => by simp [State.jobsAvailable, hrun]) hstuck
    refine ⟨.inside a, { M with system := t }, ha, hin, ?_⟩
    have hnext : next m M.system a = some t := ht.2
    show runnerNext m F P M (.inside a) = _
    cases a with
    | call c => exact ha.elim
    | worker | frame | quit | wakeWorker | wakeFrame => simp [runnerNext, hnext]

/-- What is left of `main_runner` at most, when `isRunning` is false: the loop, the calls, and the
steps of the threads. -/
def remaining (M : Runner n) : ℕ ×ₗ ℕ ×ₗ ℕ :=
  toLex (if M.left then 0 else 1, toLex (M.calls.length, M.system.stepsLeft))

theorem isRunning_of_step (hP : P ≤ 12) (h : (mainRunner n m F P).Reachable M)
    (hrun : M.system.isRunning = false) {r : RunnerAction n}
    (ht : (mainRunner n m F P).step M r N) : N.system.isRunning = false := by
  obtain he | ⟨a, hs⟩ := (reachable_orderly hP h).system_step (runner_cases ht)
  · exact (congrArg _ he).trans hrun
  · exact (step_cases hs).isRunning hrun

theorem remaining_lt (hP : P ≤ 12) (h : (mainRunner n m F P).Reachable M)
    (hrun : M.system.isRunning = false) {r : RunnerAction n} (hq : r ≠ .inside .quit)
    (ht : (mainRunner n m F P).step M r N) : N.remaining < M.remaining := by
  have hord := reachable_orderly hP h
  apply Prod.Lex.toLex_lt_toLex.mpr
  cases r with
  | inside a =>
    obtain ⟨ha, t, hs, rfl⟩ := of_inside ht
    refine .inr ⟨rfl, Prod.Lex.toLex_lt_toLex.mpr (.inr ⟨rfl, ?_⟩)⟩
    exact (step_cases (Orderly.step_inside ha hs)).stepsLeft_lt
      (reachable_linked hord.reachable) hrun ha (by rintro rfl; exact hq rfl)
  | call =>
    obtain ⟨c, l, hc, -, -, rfl⟩ := of_call ht
    refine .inr ⟨rfl, Prod.Lex.toLex_lt_toLex.mpr (.inl ?_)⟩
    rw [hc]
    exact Nat.lt_succ_self _
  | loop =>
    obtain ⟨-, -, hl, ⟨hr, -⟩ | ⟨-, rfl⟩⟩ := of_loop ht
    · simp [hrun] at hr
    · exact .inl (by simp [hl])

/-- Quitting works: once the main thread has stored `isRunning = false`, and wherever `main_runner`
and the workers are, every way to go on comes to the end of `JoinJobs` and of all workers. The
threads bring this about themselves; notifications that come out of nowhere do no harm. -/
theorem quit_ends_main_runner (hP : P ≤ 12)
    (h : ((mainRunner n m F P).restrict InTime).Reachable M) (hrun : M.system.isRunning = false) :
    ((mainRunner n m F P).restrict InTime).Driven IsThread (· ≠ .inside .quit) Ended M := by
  apply System.driven_of_decreasing
    (I := fun M => ((mainRunner n m F P).restrict InTime).Reachable M ∧ M.system.isRunning = false)
    wellFounded_lt remaining
  · rintro M ⟨hr, hrun⟩ hend
    exact exists_step_of_quit hP hr hrun hend
  · rintro M r N ⟨hr, hrun⟩ - hq ht
    exact ⟨⟨hr.step ht, isRunning_of_step hP hr.of_restrict hrun ht.2⟩,
      remaining_lt hP hr.of_restrict hrun hq ht.2⟩
  · exact ⟨h, hrun⟩

/-- The main thread quits while `main_runner` is blocked in `WaitForAllJobs`. -/
theorem quit_ends_blocked_frame : ∃ M : Runner 2, M.system.frame = .blocked ∧
    M.system.isRunning = false ∧ ((mainRunner 2 .conditionVariable 1 1).restrict InTime).Driven
      IsThread (· ≠ .inside .quit) Ended M := by
  have hrun : (run (guarded InTime (runnerNext .conditionVariable 1 1))
      ({ system := init, calls := [], left := false, passes := 0 } : Runner 2)
      (.loop :: callActions (updateParallel 1 1 0) ++
        [.inside .frame, .inside .frame, .inside .quit])).any
      (fun M => M.system.frame = .blocked ∧ M.system.isRunning = false) = true := by
    decide +kernel
  obtain ⟨M, hM, hp⟩ := (Option.any_eq_true _ _).mp hrun
  obtain ⟨hb, hoff⟩ := of_decide_eq_true hp
  have hr : ((mainRunner 2 .conditionVariable 1 1).restrict InTime).Reachable M :=
    reachable_of_run (.init rfl) hM
  exact ⟨M, hb, hoff, quit_ends_main_runner (by decide) hr hoff⟩

end

end Runner

end JobSystem
