import JobSystem.FrameWait

/-! When no thread can go on. The mutexes of the queues never are the reason: either all threads
sleep or have ended, or the frame thread waits for a worker that sleeps. -/
namespace JobSystem
open TransitionSystem
variable {n : ℕ} {m : WaitMode} {k : Fin n} {s t : State n} {a : Action n}

/-- A step of a worker, or of the call that the frame thread is in. -/
def Action.IsThread : Action n → Prop
  | .worker _ _ | .frame => True
  | _ => False

namespace State

/-- No notification of the step comes too early. -/
def AllInTime (s : State n) (a : Action n) : Prop := s.NotifiesInTime a ∧ ¬ s.MissesWake a

instance (s : State n) (a : Action n) : Decidable (s.AllInTime a) :=
  inferInstanceAs (Decidable (_ ∧ _))

/-- The frame thread is between two calls, sleeps, has ended the process, or joins a worker that
sleeps. -/
def FrameStuck (s : State n) : Prop :=
  s.frame = .idle ∨ s.frame = .blocked ∨ s.frame.inExit = true ∨
    ∃ k : Fin n, s.frame = .join k ∧ s.worker k = .blocked

end State

/-- Where no `NotifyOne` is due, a step of the frame thread is in time. -/
theorem allInTime_frame
    (hpush : ∀ j q, s.frame = .addJobPush j q .notify → s.worker q ≠ .waitBlock)
    (hwake : ∀ q : Fin n, s.frame = .wakeAll q → s.worker q ≠ .waitBlock) :
    s.AllInTime .frame := by
  refine ⟨⟨fun hm => ?_, id⟩, fun hm => ?_⟩
  · unfold State.MissesPush at hm
    cases hp : s.frame with
    | addJobPush j q stage =>
      cases stage <;> simp only [hp] at hm
      exact hpush j q hp hm
    | _ => simp [hp] at hm
  · unfold State.MissesWake at hm
    cases hp : s.frame with
    | wakeAll i =>
      simp only [hp] at hm
      obtain ⟨q, rfl, hw⟩ := hm
      exact hwake q hp hw
    | _ => simp [hp] at hm

theorem allInTime_worker {c : Choice n} (hf : s.frame ≠ .waitBlock) : s.AllInTime (.worker k c) :=
  ⟨⟨id, fun hm => hf hm.2⟩, id⟩

theorem frame_step [NeZero n] (h : (frameStep s).isSome) : ∃ t, (jobSystem n m).step s .frame t :=
  exists_step trivial h

/-- Unless all threads are stuck, one of them can go on, and with no notification too early. -/
theorem exists_threadStep [NeZero n] (h : (jobSystem n m).Reachable s)
    (ha : ∀ k, m = .predicate → s.worker k = .waitPredicate → s.jobsAvailable k = true)
    (hs : ¬ (s.FrameStuck ∧ ∀ k, s.Waits k)) :
    ∃ a t, a.IsThread ∧ s.AllInTime a ∧ (jobSystem n m).step s a t := by
  have hm := reachable_mutex h
  have frame (hpush : ∀ j q, s.frame = .addJobPush j q .notify → s.worker q ≠ .waitBlock)
      (hwake : ∀ q : Fin n, s.frame = .wakeAll q → s.worker q ≠ .waitBlock)
      (hstep : (frameStep s).isSome) :
      ∃ a t, a.IsThread ∧ s.AllInTime a ∧ (jobSystem n m).step s a t := by
    obtain ⟨t, ht⟩ := frame_step (m := m) hstep
    exact ⟨.frame, t, trivial, allInTime_frame hpush hwake, ht⟩
  by_cases hblock : s.frame = .waitBlock
  · exact frame (by simp [hblock]) (by simp [hblock]) (by simp [frameStep, hblock])
  by_cases hk : ∃ k, ¬ s.Waits k ∧ (s.frame.holdsLock k = false ∨ s.worker k = .waitBlock)
  · obtain ⟨k, hk, hfree⟩ := hk
    obtain ⟨t, ht⟩ : ∃ t, (jobSystem n m).step s (.worker k {}) t := by
      obtain hfree | hwait := hfree
      · exact exists_workerStep_of_unlocked h {} hk hfree (ha k)
      · refine exists_step trivial ?_
        show (workerStep m {} k s).isSome
        simp [workerStep, hwait]
    exact ⟨.worker k {}, t, trivial, allInTime_worker hblock, ht⟩
  -- only the frame thread is left, and it holds the mutex of every worker that could go on
  have hawake {k} (hw : s.worker k = .waitBlock) : False :=
    hk ⟨k, by simp [State.Waits, hw], .inr hw⟩
  have hrest {k} (hfree : s.frame.holdsLock k = false) : s.Waits k := by
    by_contra hw
    exact hk ⟨k, hw, .inl hfree⟩
  have hstuck (hfree : ∀ k, s.frame.holdsLock k = false) : ¬ s.FrameStuck := fun hf =>
    hs ⟨hf, fun k => hrest (hfree k)⟩
  apply frame (fun _ _ _ hw => hawake hw) (fun _ _ hw => hawake hw)
  unfold frameStep
  cases hp : s.frame with
  | idle => exact absurd (.inl hp) (hstuck fun k => by rw [hp]; rfl)
  | blocked => exact absurd (.inr (.inl hp)) (hstuck fun k => by rw [hp]; rfl)
  | exiting =>
    exact absurd (.inr (.inr (.inl (by rw [hp]; rfl)))) (hstuck fun k => by rw [hp]; rfl)
  | addJobPush j q stage =>
    cases stage with
    | lock =>
      have hfree : s.frame.holdsLock q = false := by rw [hp]; simp [FramePc.holdsLock]
      have hlock : (s.queues q).locked = false := by
        rw [hm.locked, hfree]
        rcases hrest hfree with hw | hw <;> rw [hw] <;> rfl
      simp [State.pushStep, hlock]
    | pushBack | notify | unlock => rfl
  | wakeAll i => by_cases hi : i < n <;> simp [hi]
  | join i =>
    by_cases hi : i < n
    · have hfree : ∀ k, s.frame.holdsLock k = false := fun k => by rw [hp]; rfl
      have hexit : s.worker ⟨i, hi⟩ = .exited := (hrest (hfree _)).resolve_left fun hb =>
        hstuck hfree (.inr (.inr (.inr ⟨⟨i, hi⟩, hp, hb⟩)))
      simp [hi, hexit]
    · simp [hi]
  | _ => rfl

/-- The only deadlocks are those of sleeping threads: no thread can go on exactly when all workers
sleep or have ended and the frame thread has no call to make, sleeps too, or waits in `join` for a
worker that sleeps. -/
theorem deadlock_iff [NeZero n] (h : (jobSystem n .conditionVariable).Reachable s) :
    (¬ ∃ a t, a.IsThread ∧ (jobSystem n .conditionVariable).step s a t) ↔
      s.FrameStuck ∧ ∀ k, s.Waits k := by
  constructor
  · intro hnone
    by_contra hs
    obtain ⟨a, t, ha, -, ht⟩ := exists_threadStep h (fun _ hm => by cases hm) hs
    exact hnone ⟨a, t, ha, ht⟩
  · rintro ⟨hf, hw⟩ ⟨a, t, ha, ht⟩
    cases step_cases ht with
    | @worker k _ _ hs =>
      rcases hw k with hb | he
      · cases hs with
        | control hp hc => rw [hb] at hp; subst hp; cases hc
        | _ => simp_all
      · exact hs.not_exited he
    | frame hs =>
      have hstep : frameStep s = some t := ht.2
      unfold frameStep at hstep
      obtain hi | hb | hx | ⟨k, hj, hb⟩ := hf
      · simp [hi] at hstep
      · simp [hb] at hstep
      · simp [hs.not_inExit.1] at hx
      · simp [hj, hb] at hstep
    | _ => exact ha

/-- A worker that has missed its notification keeps `JoinJobs` for ever. -/
theorem deadlock_in_join : ∃ s : State 1, s.frame = .join 0 ∧
    ¬ ∃ a t, a.IsThread ∧ (jobSystem 1 .conditionVariable).step s a t := by
  obtain ⟨s, hr, hf, hw⟩ := exists_of_execute (n := 1) (m := .conditionVariable)
    (l := workerActions 0 3 ++ [.call .joinJobs, .frame, .frame, .frame] ++ workerActions 0 1)
    (p := fun s => s.frame = .join 0 ∧ s.worker 0 = .blocked) (by decide +kernel)
  refine ⟨s, hf, (deadlock_iff hr).mpr ⟨.inr (.inr (.inr ⟨0, hf, hw⟩)), fun k => .inl ?_⟩⟩
  exact Subsingleton.elim k 0 ▸ hw

end JobSystem
