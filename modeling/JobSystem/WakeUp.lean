import JobSystem.Rank
import JobSystem.Shutdown

/-! A notification reaches a worker that is blocked, and is lost on one that has found its
predicate false and is about to block. What holds when no notification is lost that way: no
worker sleeps in front of a job, and after `WakeAll` no worker sleeps at all. -/
namespace JobSystem
open TransitionSystem
variable {n : ℕ} {m : WaitMode} {k q : Fin n} {j : JobId} {s t : State n} {a : Action n}

/-- Behind a false predicate in `WaitForJob`, with no notification delivered. -/
def WorkerPc.Asleep (p : WorkerPc n) : Prop := p = .waitBlock ∨ p = .blocked

/-- A worker falls asleep without touching anything. -/
theorem WorkerStep.asleep (h : WorkerStep m k s t) (ht : (t.worker k).Asleep) :
    (∃ p, t = s.goto k p) ∧ ((s.worker k).Asleep ∨
      s.worker k = .waitPredicate ∧ s.jobsAvailable k = false ∧ m = .conditionVariable) := by
  obtain ht | ht := ht
  · obtain ⟨he, hp⟩ := h.entry.waitBlock ht
    exact ⟨⟨_, he⟩, .inr hp⟩
  · obtain ⟨he, hp⟩ := h.entry.blocked ht
    exact ⟨⟨_, he⟩, .inl (.inl hp)⟩

/-- A step after which worker `k` sleeps leaves it where it was, or is its own. -/
theorem StepCase.asleep (h : StepCase m s a t) (ht : (t.worker k).Asleep) :
    t.worker k = s.worker k ∧ (∀ c, a ≠ .worker k c) ∨ (∃ p, t = s.goto k p) ∧
      ((s.worker k).Asleep ∨
        s.worker k = .waitPredicate ∧ s.jobsAvailable k = false ∧ m = .conditionVariable) := by
  by_cases hk : ∃ c, a = .worker k c
  · obtain ⟨c, rfl⟩ := hk
    cases h with
    | worker h => exact .inr (h.asleep ht)
  · obtain he | ⟨-, hn⟩ | ⟨c, hc, -⟩ := h.worker_moves k
    · exact .inl ⟨he, fun c hc => hk ⟨c, hc⟩⟩
    · rw [hn] at ht
      rcases ht with ht | ht <;> simp at ht
    · exact absurd ⟨c, hc⟩ hk

/-- Where waiting is one step, no worker ever sleeps. -/
theorem reachable_awake [NeZero n] (h : (jobSystem n .predicate).Reachable s) (k : Fin n) :
    ¬ (s.worker k).Asleep := by
  refine h.invariant (I := fun s => ¬ (s.worker k).Asleep) (fun _ hs => ?_)
    fun s a t _ hi ht hk => ?_
  · subst hs
    rintro (hk | hk) <;> simp [init] at hk
  · obtain ⟨hw, -⟩ | ⟨-, hs | ⟨-, -, hm⟩⟩ := (step_cases ht).asleep hk
    · exact hi (hw ▸ hk)
    · exact hi hs
    · simp at hm

/-- The deque of a queue is changed by its worker, and by the `push_back` of `AddJob`. -/
theorem StepCase.deque (h : StepCase m s a t) (k : Fin n) (hk : ∀ c, a ≠ .worker k c) :
    (t.queues k).deque = (s.queues k).deque ∨
      ∃ j, s.frame = .addJobPush j k .pushBack ∧ t.frame = .addJobPush j k .notify := by
  cases h with
  | @worker k' c _ h =>
    have hne : k ≠ k' := by rintro rfl; exact hk c rfl
    rw [h.queues_of_ne hne]
    exact .inl rfl
  | frame h =>
    cases h with
    | @pushBack j q hp =>
      by_cases hq : k = q
      · subst hq; exact .inr ⟨j, hp, rfl⟩
      · exact .inl (by simp [hq])
    | @pushLock j q => exact .inl (setLocked_deque s q true k)
    | @pushUnlock j q => exact .inl (setLocked_deque s q false k)
    | _ => exact .inl rfl
  | @addDependency d x => exact .inl (by rw [(addDependency_onlyJobs s d x).queues])
  | _ => exact .inl rfl

namespace State

/-- A thread is between `push_back` and `notify_one` of a `Push` on queue `k`. -/
def Pushing (s : State n) (k : Fin n) : Prop :=
  (∃ j, s.frame = .addJobPush j k .notify) ∨ ∃ site j, s.worker k = .push site j .notify

/-- Worker `k` is blocked in front of a job, and nobody is about to notify it. -/
def LostWakeUp (s : State n) (k : Fin n) : Prop :=
  s.worker k = .blocked ∧ (s.queues k).deque ≠ [] ∧ ¬ s.Pushing k

/-- The `notify_one` of `AddJob` meets a worker that has evaluated its predicate and is about to
block. -/
def MissesPush (s : State n) : Action n → Prop
  | .frame =>
    match s.frame with
    | .addJobPush _ q .notify => s.worker q = .waitBlock
    | _ => False
  | _ => False

instance (s : State n) : (a : Action n) → Decidable (s.MissesPush a)
  | .frame => by
    dsimp only [MissesPush]
    cases s.frame with
    | addJobPush j q stage => cases stage <;> infer_instance
    | _ => infer_instance
  | .worker _ _ | .call _ | .quit | .wakeWorker _ | .wakeFrame => inferInstanceAs (Decidable False)

/-- A sleeping worker with a job in front of it is about to be notified. -/
def Watched (s : State n) : Prop :=
  ∀ k, (s.worker k).Asleep → (s.queues k).deque ≠ [] → ∃ j, s.frame = .addJobPush j k .notify

end State

/-- The `notify_one` of `AddJob` wakes a blocked worker. -/
theorem FrameStep.notified (h : FrameStep s t) (hj : s.frame = .addJobPush j k .notify)
    (hb : s.worker k = .blocked) : t.worker k = .notified := by
  cases h with
  | control hp hc =>
    rw [hj] at hp
    subst hp
    cases hc
  | pushNotify hp =>
    obtain ⟨-, rfl⟩ : _ = j ∧ _ = k := by simpa [hj] using hp.symm
    simp [State.notifyOne, hb]
  | _ => simp_all

theorem State.Watched.step (h : s.Watched) (ha : ¬ s.MissesPush a) (ht : StepCase m s a t) :
    t.Watched := by
  intro k hk hd
  obtain ⟨hw, hown⟩ | ⟨⟨p, rfl⟩, hs⟩ := ht.asleep hk
  · obtain he | ⟨j, -, hp⟩ := ht.deque k hown
    · obtain ⟨j, hj⟩ := h k (hw ▸ hk) (he ▸ hd)
      refine ⟨j, ?_⟩
      obtain he | ⟨hb, -⟩ | ⟨rfl, hfs⟩ | ⟨-, -, hi, -⟩ := ht.frame_moves
      · exact he.trans hj
      · simp [hj] at hb
      · -- the notification of this very `Push` has woken the worker
        have hb : s.worker k = .blocked := by
          rcases hw ▸ hk with hb | hb
          · exact absurd (by simpa [State.MissesPush, hj] using hb) ha
          · exact hb
        have hn := hfs.notified hj hb
        rw [hn] at hw
        simp [hb] at hw
      · simp [hj] at hi
    · exact ⟨j, hp⟩
  · rw [State.goto_queues] at hd
    rcases hs with hs | ⟨-, ha, -⟩
    · exact h k hs hd
    · simp [State.jobsAvailable, JobQueue.isEmpty, hd] at ha

theorem reachable_watched [NeZero n]
    (h : ((jobSystem n m).restrict fun s a => ¬ s.MissesPush a).Reachable s) : s.Watched := by
  refine h.invariant (fun _ hs => ?_) fun _ _ _ _ hi ht => hi.step ht.1 (step_cases ht.2)
  subst hs
  intro k hk
  rcases hk with hk | hk <;> simp [init] at hk

/-- Where no `notify_one` of `AddJob` falls between the predicate and the block of its worker, no
worker is left asleep in front of a job. -/
theorem no_lost_wakeUp [NeZero n]
    (h : ((jobSystem n m).restrict fun s a => ¬ s.MissesPush a).Reachable s) (k : Fin n) :
    ¬ s.LostWakeUp k := by
  rintro ⟨hb, hd, hp⟩
  exact hp (.inl (reachable_watched h k (.inr hb) hd))

/-- A job pushed onto the queue of a blocked worker, with the notification delivered. -/
theorem no_lost_wakeUp_blocked : ∃ s : State 2, s.worker 0 = .notified ∧
    (s.queues 0).deque = [0] ∧ ¬ s.LostWakeUp 0 := by
  obtain ⟨s, hr, hw, hd⟩ := exists_of_executeWithin (n := 2) (m := .conditionVariable)
    (G := fun s a => ¬ s.MissesPush a)
    (l := workerActions 0 4 ++ [.call (.createJob 0)] ++ addJobActions 0)
    (p := fun s => s.worker 0 = .notified ∧ (s.queues 0).deque = [0]) (by decide +kernel)
  exact ⟨s, hw, hd, no_lost_wakeUp hr 0⟩

/-- The condition leaves out nothing else: a worker that misses a `Push` blocks in its next step,
in front of the pushed job. -/
theorem lostWakeUp_of_missesPush [NeZero n] (h : (jobSystem n m).Reachable s)
    (ha : s.MissesPush a) (ht : (jobSystem n m).step s a t) :
    ∃ k u, (jobSystem n m).step t (.worker k {}) u ∧ u.LostWakeUp k := by
  cases a with
  | frame =>
    cases hp : s.frame with
    | addJobPush j q stage =>
      cases stage with
      | notify =>
        have hw : s.worker q = .waitBlock := by simpa [State.MissesPush, hp] using ha
        have hmem := (reachable_mutex h).pushed hp (.inl rfl)
        obtain ⟨hq, hf, hwt⟩ : t.queues = s.queues ∧ t.frame = .addJobPush j q .unlock ∧
            t.worker q = .waitBlock := by
          have hn := ht.2
          simp only [ofNext, next, frameStep, hp, State.pushStep] at hn
          cases hn
          exact ⟨rfl, rfl, (notifyOne_worker_of_ne (by simp [hw])).trans hw⟩
        refine ⟨q, t.goto q .blocked, ⟨trivial, ?_⟩, by simp, ?_, ?_⟩
        · simp [ofNext, next, workerStep, hwt]
        · rw [State.goto_queues, hq]
          exact List.ne_nil_of_mem hmem
        · rintro (⟨i, hi⟩ | ⟨site, i, hi⟩)
          · simp [hf] at hi
          · simp at hi
      | _ => simp [State.MissesPush, hp] at ha
    | _ => simp [State.MissesPush, hp] at ha
  | _ => exact absurd ha id

/-- The worker evaluates its predicate, the job is pushed and the notification sent, and then the
worker blocks. -/
theorem lostWakeUp_after_push : ∃ s : State 2, (jobSystem 2 .conditionVariable).Reachable s ∧
    s.isRunning = true ∧ s.LostWakeUp 0 := by
  obtain ⟨s, hr, hrun, hw, hd, hf⟩ := exists_of_execute (n := 2) (m := .conditionVariable)
    (l := workerActions 0 3 ++ [.call (.createJob 0)] ++ addJobActions 0 ++ workerActions 0 1)
    (p := fun s => s.isRunning = true ∧ s.worker 0 = .blocked ∧ (s.queues 0).deque = [0] ∧
      s.frame = .idle) (by decide +kernel)
  refine ⟨s, hr, hrun, hw, by simp [hd], ?_⟩
  rintro (⟨j, hj⟩ | ⟨site, j, hj⟩)
  · simp [hf] at hj
  · simp [hw] at hj

namespace State

/-- The `NotifyOne` of `WakeAll` on queue `k` is done. -/
def Woken (s : State n) (k : Fin n) : Prop :=
  (∃ i, s.frame = .wakeAll i ∧ k < i) ∨ (∃ i, s.frame = .join i) ∨ s.joined = true

/-- A `NotifyOne` of `WakeAll` meets a worker that has evaluated its predicate and is about to
block. -/
def MissesWake (s : State n) : Action n → Prop
  | .frame =>
    match s.frame with
    | .wakeAll i => ∃ q : Fin n, q = i ∧ s.worker q = .waitBlock
    | _ => False
  | _ => False

instance (s : State n) : (a : Action n) → Decidable (s.MissesWake a)
  | .frame => by
    dsimp only [MissesWake]
    cases s.frame <;> infer_instance
  | .worker _ _ | .call _ | .quit | .wakeWorker _ | .wakeFrame => inferInstanceAs (Decidable False)

end State

theorem Shutdown.not_running_of_woken (h : Shutdown s) (hk : s.Woken k) : s.isRunning = false := by
  obtain ⟨i, hi, -⟩ | ⟨i, hi⟩ | hj := hk
  · exact h.joining (by rw [hi]; rfl)
  · exact h.joining (by rw [hi]; rfl)
  · exact h.stopped (h.joined hj).1

theorem StepCase.woken (h : StepCase m s a t) (hk : t.Woken k) : s.Woken k ∨
    a = .frame ∧ s.frame = .wakeAll k ∧ (s.worker k = .blocked → t.worker k = .notified) := by
  obtain ⟨i, hi, hlt⟩ | ⟨i, hi⟩ | hj := hk
  · obtain he | ⟨-, he⟩ | ⟨rfl, hf⟩ | ⟨c, -, hidle, rfl⟩ := h.frame_moves
    · exact .inl (.inl ⟨i, he ▸ hi, hlt⟩)
    · simp [he] at hi
    · cases hf with
      | @control p p' hp hc =>
        obtain rfl : p' = .wakeAll i := hi
        cases hc
      | stop =>
        obtain rfl : 0 = i := by simpa using hi
        exact absurd hlt (Nat.not_lt_zero _)
      | @wakeOne i' hlt' hp =>
        obtain rfl : i' + 1 = i := by simpa using hi
        rcases Nat.lt_succ_iff_lt_or_eq.mp hlt with hlt | rfl
        · exact .inl (.inl ⟨i', hp, hlt⟩)
        · exact .inr ⟨rfl, hp, fun hb => by simp [State.notifyOne, hb]⟩
      | _ => simp at hi
    · obtain he | he | ⟨j, -, he⟩ | ⟨-, he⟩ | ⟨-, he⟩ := callStep_frame hidle c <;> simp [he] at hi
  · obtain hs | ⟨-, i', hle, hs⟩ | ⟨i', -, hs, -⟩ := h.join hi
    · exact .inl (.inr (.inl ⟨i, hs⟩))
    · exact .inl (.inl ⟨i', hs, k.isLt.trans_le hle⟩)
    · exact .inl (.inr (.inl ⟨i', hs⟩))
  · obtain he | ⟨-, i, -, hs⟩ := h.joined
    · exact .inl (.inr (.inr (he ▸ hj)))
    · exact .inl (.inr (.inl ⟨i, hs⟩))

/-- No worker whose `NotifyOne` is done sleeps. -/
def State.AllWoken (s : State n) : Prop := ∀ k, s.Woken k → ¬ (s.worker k).Asleep

theorem State.AllWoken.step (h : s.AllWoken) (hsh : Shutdown t) (ha : ¬ s.MissesWake a)
    (ht : StepCase m s a t) : t.AllWoken := by
  intro k hk hsleep
  have hrun := hsh.not_running_of_woken hk
  obtain ⟨hw, hown⟩ | ⟨⟨p, rfl⟩, hs | ⟨-, ha, -⟩⟩ := ht.asleep hsleep
  · rcases ht.woken hk with hks | ⟨rfl, hp, hn⟩
    · exact h k hks (hw ▸ hsleep)
    · rcases hw ▸ hsleep with hb | hb
      · exact ha (by simpa [State.MissesWake, hp] using ⟨k, rfl, hb⟩)
      · simp [hw, hb] at hn
  · exact h k hk hs
  · have hrun : s.isRunning = false := hrun
    simp [State.jobsAvailable, hrun] at ha

theorem reachable_allWoken [NeZero n]
    (h : ((jobSystem n m).restrict fun s a => ¬ s.MissesWake a).Reachable s) : s.AllWoken := by
  refine h.invariant (fun _ hs => ?_) fun _ _ _ hr hi ht =>
    hi.step (reachable_shutdown (hr.of_restrict.step ht.2)) ht.1 (step_cases ht.2)
  subst hs
  intro k _ hk
  rcases hk with hk | hk <;> simp [init] at hk

/-- While `JoinJobs` waits for its workers, every step of a worker that is not asleep brings the
end of all workers closer. -/
theorem inevitable_exited [NeZero n] (h : (jobSystem n m).Reachable s) {i : ℕ}
    (hf : s.frame = .join i) (hs : ∀ k, ¬ (s.worker k).Asleep) :
    (jobSystem n m).Inevitable Action.IsWorker (fun t => ∀ k, t.worker k = .exited) s := by
  apply System.inevitable_of_decreasing (I := fun s => (jobSystem n m).Reachable s ∧
    s.frame = .join i ∧ ∀ k, ¬ (s.worker k).Asleep) wellFounded_lt (fun s => ∑ k, s.rank k)
  · rintro s ⟨hr, hf, hs⟩ hp
    obtain ⟨k, hk⟩ := not_forall.mp hp
    have hwait : ¬ s.Waits k := fun hw => hw.elim (fun hb => hs k (.inr hb)) hk
    have hrun := (reachable_shutdown hr).joining (by rw [hf]; rfl)
    obtain ⟨t, ht⟩ := exists_workerStep hr {} hwait (by rw [hf]; rfl)
      fun _ _ => by simp [State.jobsAvailable, hrun]
    exact ⟨_, t, ⟨k, {}, rfl⟩, ht⟩
  · rintro s a t ⟨hr, hf, hs⟩ - ⟨k, c, rfl⟩ ht
    have hrun := (reachable_shutdown hr).joining (by rw [hf]; rfl)
    have hcase := step_cases ht
    have hft : t.frame = .join i := by
      obtain he | ⟨hb, -⟩ | ⟨ha, -⟩ | ⟨c, ha, -⟩ := hcase.frame_moves
      · exact he.trans hf
      · simp [hf] at hb
      · simp at ha
      · simp at ha
    refine ⟨⟨hr.step ht, hft, fun k' hk' => ?_⟩, ?_⟩
    · obtain ⟨hw, -⟩ | ⟨-, hw | ⟨-, ha, -⟩⟩ := hcase.asleep hk'
      · exact hs k' (hw ▸ hk')
      · exact hs k' hw
      · simp [State.jobsAvailable, hrun] at ha
    · cases hcase with
      | worker hw =>
        refine hw.sum_rank_lt (reachable_linked hr) ?_
        rintro (⟨-, hrun'⟩ | ⟨-, ha⟩)
        · simp [hrun] at hrun'
        · simp [State.jobsAvailable, hrun] at ha
  · exact ⟨h, hf, hs⟩

/-- Where no `NotifyOne` of `WakeAll` falls between the predicate and the block of its worker, no
worker is blocked after `WakeAll`, and all workers end, so that each join returns. -/
theorem shutdown_wakes_workers [NeZero n]
    (h : ((jobSystem n m).restrict fun s a => ¬ s.MissesWake a).Reachable s)
    (hw : (∃ i, s.frame = .join i) ∨ s.joined = true) : (∀ k, s.worker k ≠ .blocked) ∧
      (jobSystem n m).Inevitable Action.IsWorker (fun t => ∀ k, t.worker k = .exited) s := by
  have hs (k) : ¬ (s.worker k).Asleep := reachable_allWoken h k (.inr hw)
  refine ⟨fun k hk => hs k (.inr hk), ?_⟩
  obtain ⟨i, hi⟩ | hj := hw
  · exact inevitable_exited h.of_restrict hi hs
  · exact .now ((reachable_shutdown h.of_restrict).joined hj).2

/-- Two workers, one of them blocked when `JoinJobs` is called. -/
theorem shutdown_wakes_two_workers : ∃ s : State 2, s.frame = .join 0 ∧
    s.worker 0 = .notified ∧ (jobSystem 2 .conditionVariable).Inevitable Action.IsWorker
      (fun t => ∀ k, t.worker k = .exited) s := by
  obtain ⟨s, hr, hf, hw⟩ := exists_of_executeWithin (n := 2) (m := .conditionVariable)
    (G := fun s a => ¬ s.MissesWake a)
    (l := workerActions 0 4 ++ workerActions 1 3 ++ [.call .joinJobs, .frame, .frame] ++
      workerActions 1 1 ++ [.frame, .frame])
    (p := fun s => s.frame = .join 0 ∧ s.worker 0 = .notified) (by decide +kernel)
  exact ⟨s, hf, hw, (shutdown_wakes_workers hr (.inl ⟨0, hf⟩)).2⟩

/-- The condition leaves out nothing else: a worker that misses its `NotifyOne` blocks in its next
step, with that notification behind it. -/
theorem blocked_of_missesWake [NeZero n] (ha : s.MissesWake a)
    (ht : (jobSystem n m).step s a t) :
    ∃ k u, (jobSystem n m).step t (.worker k {}) u ∧ u.Woken k ∧ u.worker k = .blocked := by
  cases a with
  | frame =>
    cases hp : s.frame with
    | wakeAll i =>
      obtain ⟨q, rfl, hw⟩ : ∃ q : Fin n, q = i ∧ s.worker q = .waitBlock := by
        simpa only [State.MissesWake, hp] using ha
      obtain ⟨hf, hwt⟩ : t.frame = .wakeAll (q + 1) ∧ t.worker q = .waitBlock := by
        have hn := ht.2
        simp only [ofNext, next, frameStep, hp, q.isLt, ↓reduceDIte, Fin.eta] at hn
        cases hn
        exact ⟨rfl, (notifyOne_worker_of_ne (by simp [hw])).trans hw⟩
      refine ⟨q, t.goto q .blocked, ⟨trivial, ?_⟩, .inl ⟨_, hf, Nat.lt_succ_self _⟩, by simp⟩
      simp [ofNext, next, workerStep, hwt]
    | _ => simp [State.MissesWake, hp] at ha
  | _ => exact absurd ha id

/-- The only worker evaluates its predicate, `JoinJobs` sets its flags and notifies, and then the
worker blocks. -/
theorem blocked_after_wakeAll : ∃ s : State 1, (jobSystem 1 .conditionVariable).Reachable s ∧
    s.frame = .join 0 ∧ s.worker 0 = .blocked :=
  exists_of_execute (n := 1)
    (l := workerActions 0 3 ++ [.call .joinJobs, .frame, .frame, .frame] ++ workerActions 0 1)
    (p := fun s => s.frame = .join 0 ∧ s.worker 0 = .blocked) (by decide +kernel)

end JobSystem
