import JobSystem.SameWork

/-! Who moves a thread: its own steps, and for a sleeping thread a notification. -/
namespace JobSystem
variable {n : ℕ} {m : WaitMode} {k k' : Fin n} {j : JobId} {i : ℕ} {s t : State n} {a : Action n}

theorem notifyOne_worker (s : State n) (q k : Fin n) :
    (s.notifyOne q).worker k = s.worker k ∨
      s.worker k = .blocked ∧ (s.notifyOne q).worker k = .notified := by
  by_cases hb : s.worker k = .blocked
  · by_cases hk : k = q
    · subst hk; exact .inr ⟨hb, by simp [State.notifyOne, hb]⟩
    · refine .inl ?_
      unfold State.notifyOne
      by_cases hq : s.worker q = .blocked <;> simp [hq, hk]
  · exact .inl (notifyOne_worker_of_ne hb)

theorem notifyAll_frame (s : State n) : s.notifyAll.frame = s.frame ∨
    s.frame = .blocked ∧ s.notifyAll.frame = .notified := by
  unfold State.notifyAll
  by_cases hb : s.frame = .blocked <;> simp [hb]

/-- What does not tell a blocked frame thread from a notified one is not changed by a
notification. -/
theorem notifyAll_congr {α : Type*} (f : FramePc n → α) (hf : f .notified = f .blocked)
    (s : State n) : f s.notifyAll.frame = f s.frame := by
  obtain h | ⟨hb, hn⟩ := notifyAll_frame s
  · rw [h]
  · rw [hn, hb, hf]

/-- A step of worker `k` moves the others only by a notification. -/
theorem WorkerStep.worker_of_ne (h : WorkerStep m k s t) (hk : k' ≠ k) :
    t.worker k' = s.worker k' ∨ s.worker k' = .blocked ∧ t.worker k' = .notified := by
  cases h with
  | pushNotify | notifyQueue => simpa [hk] using notifyOne_worker s _ k'
  | _ => exact .inl (by simp [hk])

/-- At the end of the loop of `~Job` the one step of a worker is the delete. -/
theorem WorkerStep.eq_of_end (h : WorkerStep m k s t) (hp : s.worker k = .destroy j i)
    (hi : (s.jobs j).dependentCount ≤ i) :
    t = ((s.setLifecycle j .finished).log (.delete j)).goto k (.countDown j) := by
  cases h with
  | control hp' hc => obtain rfl := hp'.symm.trans hp; cases hc
  | delete hp' => obtain ⟨rfl, rfl⟩ : _ = j ∧ _ = i := by simpa using hp'.symm.trans hp
                  rfl
  | decrement hp' hi' =>
    obtain ⟨rfl, rfl⟩ : _ = j ∧ _ = i := by simpa using hp'.symm.trans hp
    omega
  | _ => simp_all

/-- How a step of worker `k` comes to a steal, to the condition variable or out of the loop. -/
structure WorkerEntry (m : WaitMode) (k : Fin n) (s t : State n) : Prop where
  steal : t.worker k = .steal → ∃ r, r % n ≠ k
  waitBlock : t.worker k = .waitBlock → t = s.goto k .waitBlock ∧ s.worker k = .waitPredicate ∧
    s.jobsAvailable k = false ∧ m = .conditionVariable
  blocked : t.worker k = .blocked → t = s.goto k .blocked ∧ s.worker k = .waitBlock
  exitNotify : t.worker k = .exitNotify → s.isRunning = false
  exited : t.worker k = .exited → s.worker k = .exitNotify

theorem WorkerStep.entry (h : WorkerStep m k s t) : WorkerEntry m k s t := by
  cases h with
  | control hp hc =>
    cases hc with
    | foreign hr => exact ⟨fun _ => ⟨_, hr⟩, by simp, by simp, by simp, by simp⟩
    | noJob a => cases a <;> constructor <;> simp [Attempt.failed]
    | _ => constructor <;> simp
  | leave _ hr => constructor <;> simp [hr]
  | sleep hp ha hm => constructor <;> simp [hp, ha, hm]
  | block hp => constructor <;> simp [hp]
  | exitNotify hp => constructor <;> simp [hp]
  | @pushUnlock site =>
    obtain (_ | _) | _ := site <;> constructor <;> simp [PushSite.done, Attempt.failed]
  | steal =>
    cases hd : (s.queues k).steal.1 <;> constructor <;> simp
  | _ => constructor <;> simp

theorem StepCase.worker_moves (h : StepCase m s a t) (k : Fin n) :
    t.worker k = s.worker k ∨ s.worker k = .blocked ∧ t.worker k = .notified ∨
      ∃ c, a = .worker k c ∧ WorkerStep m k s t := by
  cases h with
  | @worker k' c _ h =>
    by_cases hk : k = k'
    · exact .inr (.inr ⟨c, by rw [hk], hk ▸ h⟩)
    · exact (h.worker_of_ne hk).imp_right .inl
  | frame h =>
    cases h with
    | pushNotify | wakeOne => exact (notifyOne_worker s _ k).imp_right .inl
    | _ => exact .inl rfl
  | @wakeWorker k' hb =>
    by_cases hk : k = k'
    · subst hk; exact .inr (.inl ⟨hb, by simp⟩)
    · exact .inl (by simp [hk])
  | @addDependency d x => exact .inl (congrFun (addDependency_onlyJobs s d x).worker k)
  | _ => exact .inl rfl

theorem StepCase.frame_moves (h : StepCase m s a t) :
    t.frame = s.frame ∨ s.frame = .blocked ∧ t.frame = .notified ∨
      a = .frame ∧ FrameStep s t ∨ ∃ c, a = .call c ∧ s.frame = .idle ∧ t = callStep s c := by
  cases h with
  | worker h =>
    cases h with
    | notifyFrame | exitNotify => exact (notifyAll_frame s).imp_right .inl
    | _ => exact .inl rfl
  | frame h => exact .inr (.inr (.inl ⟨rfl, h⟩))
  | quit | wakeWorker => exact .inl rfl
  | wakeFrame hb => exact .inr (.inl ⟨hb, rfl⟩)
  | createJob _ hi | addDependency hi | addJob hi | waitForAllJobs hi | joinJobs hi =>
    exact .inr (.inr (.inr ⟨_, rfl, hi, rfl⟩))
  | @exit d x hi _ _ hm =>
    exact .inr (.inr (.inr ⟨_, rfl, hi, (callStep_exit hm).symm⟩))

/-- A step logs one event at most, and a start only for the job that the worker is about to
execute. -/
theorem StepCase.history (h : StepCase m s a t) : t.history = s.history ∨
    ∃ e, t.history = e :: s.history ∧
      ∀ k j, e = .start k j → s.worker k = .execute j ∧ t.worker k = .running j := by
  cases h with
  | worker h =>
    cases h with
    | @start i hp =>
      refine .inr ⟨_, rfl, fun k j he => ?_⟩
      obtain ⟨rfl, rfl⟩ := Event.start.inj he
      exact ⟨hp, by simp⟩
    | ret | decrement | delete => exact .inr ⟨_, rfl, fun _ _ he => by cases he⟩
    | _ => exact .inl rfl
  | frame h => cases h <;> exact .inl rfl
  | @addDependency d x _ _ _ hm =>
    exact .inr ⟨_, addDependency_history hm, fun _ _ he => by cases he⟩
  | _ => exact .inl rfl

/-- The frame thread comes to `exit` by a call only, and takes no step there. -/
theorem FrameStep.not_inExit (h : FrameStep s t) :
    s.frame.inExit = false ∧ t.frame.inExit = false := by
  cases h with
  | control hp hc =>
    rw [hp]
    cases hc <;> exact ⟨rfl, rfl⟩
  | write hp | pushLock hp | pushBack hp | pushNotify hp | pushUnlock hp | index hp | stop hp
  | wakeOne _ hp | joined _ hp => exact ⟨by rw [hp]; rfl, rfl⟩

/-- Where a call leads the frame thread. -/
theorem callStep_frame (hi : s.frame = .idle) (c : Call) :
    (callStep s c).frame = .idle ∨ (callStep s c).frame = .exiting 1 dependentsMessage ∨
      (∃ j, c = .addJob j ∧ (callStep s c).frame = .addJobWrite j) ∨
      c = .waitForAllJobs ∧ (callStep s c).frame = .waitPredicate ∨
      c = .joinJobs ∧ (callStep s c).frame = .joinStop := by
  cases c with
  | createJob f => exact .inl hi
  | addDependency d x =>
    obtain hm | hm := Nat.lt_or_ge (s.jobs x).dependentCount maxDependentCount
    · rw [callStep_addDependency hm]
      exact .inl hi
    · rw [callStep_exit hm]
      exact .inr (.inl rfl)
  | addJob j => exact .inr (.inr (.inl ⟨j, rfl, rfl⟩))
  | waitForAllJobs => exact .inr (.inr (.inr (.inl ⟨rfl, rfl⟩)))
  | joinJobs => exact .inr (.inr (.inr (.inr ⟨rfl, rfl⟩)))

end JobSystem
