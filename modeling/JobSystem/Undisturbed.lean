import JobSystem.MainRunner

/-! `main_runner` at work while the workers have not begun: it makes all calls of `UpdateParallel`
and `jobsToDo` has counted all their jobs, as a 32-bit number. -/
namespace JobSystem
open TransitionSystem
variable {n : ℕ} {m : WaitMode} {F P : ℕ} {M N : Runner n} {j : JobId} {s t : State n} {c : Call}
  {l r : List Call}

/-- The steps that are left of an `AddJob`. -/
def FramePc.untilAdded : FramePc n → ℕ
  | .addJobWrite _ => 6
  | .addJobPush _ _ .lock => 5
  | .addJobPush _ _ .pushBack => 4
  | .addJobPush _ _ .notify => 3
  | .addJobPush _ _ .unlock => 2
  | .addJobIndex => 1
  | _ => 0

/-- No worker has done a step yet. -/
structure Calm (s : State n) : Prop where
  worker : ∀ k, s.worker k = .loopTop
  unstarted : ∀ k j, .start k j ∉ s.history

theorem Calm.init [NeZero n] : Calm (init : State n) := ⟨fun _ => rfl, fun _ _ => List.not_mem_nil⟩

theorem Calm.congr (h : Calm s) (hw : t.worker = s.worker)
    (hh : t.history = s.history ∨ ∃ d x, t.history = .addDependency d x :: s.history) : Calm t := by
  refine ⟨fun k => congrFun hw k ▸ h.worker k, fun k j hj => ?_⟩
  obtain he | ⟨d, x, he⟩ := hh
  · exact h.unstarted k j (he ▸ hj)
  · rw [he] at hj
    exact h.unstarted k j (by simpa using hj)

/-- Within `AddJob` the frame thread can go on, since no worker has taken a mutex. -/
theorem Calm.exists_frameStep (h : Calm s) (hm : Mutex s) (hadd : s.frame.addingJob = true) :
    ∃ t, frameStep s = some t := by
  refine Option.isSome_iff_exists.mp ?_
  unfold frameStep
  cases hp : s.frame with
  | addJobWrite | addJobIndex => rfl
  | addJobPush j q stage =>
    cases stage with
    | lock =>
      have hfree : (s.queues q).locked = false := by
        rw [hm.locked, hp, h.worker]
        simp [FramePc.holdsLock, WorkerPc.holdsLock]
      simp [State.pushStep, hfree]
    | pushBack | notify | unlock => rfl
  | _ => simp [hp, FramePc.addingJob] at hadd

theorem Calm.frameStep (h : Calm s) (ht : FrameStep s t) (hadd : s.frame.addingJob = true) :
    Calm t ∧ t.jobsToDo = s.jobsToDo ∧ t.frame.untilAdded < s.frame.untilAdded ∧
      (t.frame = .idle ∨ t.frame.addingJob = true) := by
  cases ht with
  | control hp hc =>
    rw [hp] at hadd
    cases hc <;> cases hadd
  | write hp | pushLock hp | pushBack hp | pushUnlock hp =>
    refine ⟨h.congr rfl (.inl rfl), rfl, ?_, .inr rfl⟩
    rw [hp]
    simp [FramePc.untilAdded]
  | @pushNotify j q hp =>
    have hw : (s.notifyOne q).worker = s.worker := by simp [State.notifyOne, h.worker]
    refine ⟨h.congr hw (.inl rfl), rfl, ?_, .inr rfl⟩
    rw [hp]
    simp [FramePc.untilAdded]
  | index hp =>
    refine ⟨h.congr rfl (.inl rfl), rfl, ?_, .inl rfl⟩
    rw [hp]
    simp [FramePc.untilAdded]
  | stop hp | wakeOne _ hp | joined _ hp => simp [hp, FramePc.addingJob] at hadd

def Call.isAddJob : Call → Bool
  | .addJob _ => true
  | _ => false

theorem Calm.callStep {plan : Plan} (h : Calm s) (hc : c.SetsUp) (hallow : s.book.Allows plan c) :
    Calm (callStep s c) ∧
      (callStep s c).jobsToDo = s.jobsToDo + if c.isAddJob then 1 else 0 := by
  cases c with
  | createJob f => exact ⟨h.congr rfl (.inl rfl), (UInt32.add_zero _).symm⟩
  | addDependency d x =>
    have hm : (s.jobs x).dependentCount < maxDependentCount := hallow.2.2.1
    rw [callStep_addDependency hm]
    exact ⟨h.congr rfl (.inr ⟨d, x, rfl⟩), (UInt32.add_zero _).symm⟩
  | addJob j => exact ⟨h.congr rfl (.inl rfl), rfl⟩
  | waitForAllJobs | joinJobs => exact hc.elim

section
variable [NeZero n]

/-- `M` can go on to `N` by steps of `main_runner` alone. -/
theorem exists_added (hP : P ≤ 12) (h : (mainRunner n m F P).Reachable M) (hs : Calm M.system)
    (hadd : M.system.frame = .idle ∨ M.system.frame.addingJob = true) :
    ∃ N, (mainRunner n m F P).Reachable N ∧ Calm N.system ∧ N.system.frame = .idle ∧
      N.calls = M.calls ∧ N.passes = M.passes ∧ N.system.jobsToDo = M.system.jobsToDo := by
  obtain ⟨N, -, ⟨hN, hcalm, -, hrest⟩, hi⟩ := System.exists_path_of_decreasing
    (T := mainRunner n m F P) (A := fun _ => True)
    (I := fun N => (mainRunner n m F P).Reachable N ∧ Calm N.system ∧
      (N.system.frame = .idle ∨ N.system.frame.addingJob = true) ∧
      N.calls = M.calls ∧ N.passes = M.passes ∧ N.system.jobsToDo = M.system.jobsToDo)
    (P := fun N => N.system.frame = .idle) wellFounded_lt (fun N => N.system.frame.untilAdded)
    (fun N hN hi => by
      obtain ⟨hr, hc, hf, hcalls, hpasses, hcount⟩ := hN
      have hf := hf.resolve_left hi
      have hm := reachable_mutex (Runner.reachable_orderly hP hr).reachable
      obtain ⟨t, ht⟩ := hc.exists_frameStep hm hf
      obtain ⟨hc', hcount', hlt, hf'⟩ := hc.frameStep (.of_frameStep ht) hf
      have hstep : (mainRunner n m F P).step N (.inside .frame) { N with system := t } := by
        show runnerNext m F P N (.inside .frame) = _
        simp [runnerNext, next, ht]
      exact ⟨_, _, trivial, hstep,
        ⟨hr.step hstep, hc', hf', hcalls, hpasses, hcount'.trans hcount⟩, hlt⟩)
    M ⟨h, hs, hadd, rfl, rfl, rfl⟩
  exact ⟨N, hN, hcalm, hi, hrest⟩

theorem exists_calls (hP : P ≤ 12) (h : (mainRunner n m F P).Reachable M) (hs : Calm M.system)
    (hi : M.system.frame = .idle) (hl : ∀ c ∈ l, c.SetsUp) (hc : M.calls = l ++ r) :
    ∃ N, (mainRunner n m F P).Reachable N ∧ Calm N.system ∧ N.system.frame = .idle ∧
      N.calls = r ∧ N.passes = M.passes ∧
      N.system.jobsToDo = M.system.jobsToDo + .ofNat (l.countP Call.isAddJob) := by
  induction l generalizing M with
  | nil => exact ⟨M, h, hs, hi, hc, rfl, (UInt32.add_zero _).symm⟩
  | cons c l ih =>
    obtain ⟨hsets, hl⟩ := List.forall_mem_cons.mp hl
    have hallow := ((Runner.reachable_orderly hP h).allows hc).1
    have hj : c ≠ .joinJobs := by rintro rfl; exact hsets
    have hstep : (mainRunner n m F P).step M .call
        { M with system := callStep M.system c, calls := l ++ r } := by
      show runnerNext m F P M .call = _
      simp [runnerNext, hc, next, hi, hj]
    obtain ⟨hcalm, hcount⟩ := hs.callStep hsets hallow
    have hadd : (callStep M.system c).frame = .idle ∨
        (callStep M.system c).frame.addingJob = true := by
      obtain hf | ⟨j, hf⟩ := hsets.frame hi hallow
      · exact .inl hf
      · exact .inr (by rw [hf]; rfl)
    obtain ⟨N, hN, hcalmN, hiN, hcN, hpN, hjN⟩ := exists_added hP (h.step hstep) hcalm hadd
    obtain ⟨N', hN', hcalmN', hiN', hcN', hpN', hjN'⟩ := ih hN hcalmN hiN hl hcN
    refine ⟨N', hN', hcalmN', hiN', hcN', hpN'.trans hpN, ?_⟩
    rw [hjN', hjN]
    show (callStep M.system c).jobsToDo + _ = _
    rw [hcount, List.countP_cons, Nat.add_comm, UInt32.ofNat_add, UInt32.add_assoc]
    cases c.isAddJob <;> rfl

theorem countP_isAddJob (F P : ℕ) (b : JobId) :
    ((List.range F).flatMap fun i => frameCalls P (b + i * (7 + P))).countP Call.isAddJob =
      F * (7 + P) := by
  have hframe (B : JobId) : (frameCalls P B).countP Call.isAddJob = 7 + P := by
    have hparticle (i : ℕ) : (particleCalls B i).countP Call.isAddJob = 1 := rfl
    have hstart : (frameStart B).countP Call.isAddJob = 0 := rfl
    have hadds : ((frameAdds B).map .addJob).countP Call.isAddJob = 7 := rfl
    rw [frameCalls_eq, List.countP_append, List.countP_append, hstart, hadds, List.countP_flatMap]
    simp [Function.comp_def, hparticle, Nat.add_comm]
  induction F with
  | zero => simp
  | succ F ih => simp [List.range_succ, ih, hframe, Nat.succ_mul]

/-- Without a step of a worker `main_runner` comes to the wait of its first call. -/
theorem exists_calm_wait (n : ℕ) [NeZero n] (m : WaitMode) (F : ℕ) (hP : P ≤ 12) :
    ∃ M, (mainRunner n m F P).Reachable M ∧ Calm M.system ∧ M.system.frame = .waitPredicate ∧
      M.passes = 1 ∧ M.system.jobsToDo = .ofNat (F * (7 + P)) := by
  let M : Runner n := { system := init, calls := [], left := false, passes := 0 }
  have hloop : (mainRunner n m F P).step M .loop
      { M with calls := updateParallel F P 0, passes := 1 } := rfl
  obtain ⟨N, hN, hcalm, hi, hc, hpasses, hcount⟩ := exists_calls hP
    (.step (.init rfl) hloop) Calm.init rfl (setsUp_of_mem_frames F P 0) rfl
  have hwait : (mainRunner n m F P).step N .call
      { N with system := N.system.gotoFrame .waitPredicate, calls := [] } := by
    show runnerNext m F P N .call = _
    simp [runnerNext, hc, next, hi, callStep]
  refine ⟨_, hN.step hwait, hcalm.congr rfl (.inl rfl), rfl, hpasses, ?_⟩
  show N.system.jobsToDo = _
  rw [hcount, countP_isAddJob]
  exact UInt32.zero_add _

end

end JobSystem
