import JobSystem.OpenJobs
import JobSystem.WakeUp

/-! The frame thread in `WaitForAllJobs`: while it sleeps, some worker is still going to notify
it, unless a notification has fallen between a predicate and the block that follows it. -/
namespace JobSystem
open TransitionSystem
variable {n : ℕ} {m : WaitMode} {k : Fin n} {s t : State n} {a : Action n}

/-- Behind a false predicate in `WaitForAllJobs`, with no notification delivered. -/
def FramePc.Asleep (p : FramePc n) : Prop := p = .waitBlock ∨ p = .blocked

namespace State

/-- The frame thread is blocked although it need not wait, and nobody is left to notify it. -/
def FrameLost (s : State n) : Prop :=
  s.frame = .blocked ∧ s.allJobsDone = true ∧ ∀ k, s.worker k = .exited ∨ s.worker k = .blocked

/-- The `notify_all` of `Finish` or of the end of a worker meets a frame thread that has evaluated
its predicate and is about to block. -/
def MissesFrame (s : State n) : Action n → Prop
  | .worker k _ => (s.worker k = .notifyFrame ∨ s.worker k = .exitNotify) ∧ s.frame = .waitBlock
  | _ => False

instance (s : State n) : (a : Action n) → Decidable (s.MissesFrame a)
  | .worker _ _ => inferInstanceAs (Decidable (_ ∧ _))
  | .call _ | .frame | .quit | .wakeWorker _ | .wakeFrame => inferInstanceAs (Decidable False)

/-- What a sleeping frame thread may count on: no worker has ended, and when the jobs are done
some worker is about to see that and to notify. -/
structure FrameWatched (s : State n) : Prop where
  exited : s.frame.Asleep → ∀ k, s.worker k ≠ .exited
  notifier : s.frame.Asleep → s.jobsToDo = 0 →
    ∃ k, s.worker k = .rereadJobsToDo ∨ s.worker k = .notifyFrame

end State

/-- The frame thread falls asleep by itself, in front of a false predicate. -/
theorem StepCase.frame_asleep (h : StepCase m s a t) (ht : t.frame.Asleep) :
    t.frame = s.frame ∨ (∃ p, t = s.gotoFrame p) ∧
      (s.frame.Asleep ∨ s.frame = .waitPredicate ∧ s.allJobsDone = false) := by
  unfold FramePc.Asleep at *
  obtain he | ⟨-, he⟩ | ⟨-, hf⟩ | ⟨c, -, hi, rfl⟩ := h.frame_moves
  · exact .inl he
  · simp [he] at ht
  · refine .inr ?_
    cases hf with
    | @control p p' hp hc =>
      change p' = .waitBlock ∨ p' = .blocked at ht
      cases hc with
      | sleep hd => exact ⟨⟨_, rfl⟩, .inr ⟨hp, hd⟩⟩
      | block => exact ⟨⟨_, rfl⟩, .inl (.inl hp)⟩
      | _ => simp at ht
    | _ => simp at ht
  · obtain he | he | ⟨j, -, he⟩ | ⟨-, he⟩ | ⟨-, he⟩ := callStep_frame hi c <;> simp [he] at ht

/-- Outside `AddJob` the counter of open jobs changes by a `jobsToDo--` only. -/
theorem StepCase.jobsToDo (h : StepCase m s a t) (hi : s.frame ≠ .idle) :
    t.jobsToDo = s.jobsToDo ∨ ∃ k, t.worker k = .rereadJobsToDo := by
  cases h with
  | @worker k _ _ h =>
    cases h with
    | countDown => exact .inr ⟨k, by simp⟩
    | _ => exact .inl rfl
  | frame h => cases h <;> exact .inl rfl
  | addJob hidle | addDependency hidle => exact absurd hidle hi
  | _ => exact .inl rfl

/-- `notify_all` wakes a blocked frame thread. -/
theorem WorkerStep.frame_notified (h : WorkerStep m k s t)
    (hk : s.worker k = .notifyFrame ∨ s.worker k = .exitNotify) (hb : s.frame = .blocked) :
    t.frame = .notified := by
  cases h with
  | control hp hc => rw [hp] at hk; cases hc <;> simp at hk
  | notifyFrame | exitNotify => simp [State.notifyAll, hb]
  | _ => simp_all

/-- The worker that reads `jobsToDo` as 0 goes on to notify the frame thread. -/
theorem WorkerStep.notifyFrame_of_zero (h : WorkerStep m k s t)
    (hk : s.worker k = .rereadJobsToDo) (h0 : s.jobsToDo = 0) : t.worker k = .notifyFrame := by
  cases h with
  | control hp hc =>
    rw [hk] at hp
    subst hp
    cases hc with
    | noMoreJobs => simp
    | moreJobs hne => exact absurd h0 hne
  | _ => simp_all

namespace State.FrameWatched

/-- A notification that is not missed wakes a sleeping frame thread. -/
theorem not_asleep_of_notify (ha : ¬ s.MissesFrame a) (ht : StepCase m s a t) {c : Choice n}
    (hc : a = .worker k c) (hk : s.worker k = .notifyFrame ∨ s.worker k = .exitNotify)
    (hs : s.frame.Asleep) : ¬ t.frame.Asleep := by
  subst hc
  cases ht with
  | worker h =>
    rcases hs with hb | hb
    · exact absurd ⟨hk, hb⟩ ha
    · rw [h.frame_notified hk hb]
      rintro (hn | hn) <;> simp at hn

theorem step (h : s.FrameWatched) (hsh : Shutdown s) (ha : ¬ s.MissesFrame a)
    (ht : StepCase m s a t) : t.FrameWatched := by
  refine ⟨fun hf k hk => ?_, fun hf h0 => ?_⟩
  · obtain he | ⟨⟨p, rfl⟩, hs | ⟨-, hd⟩⟩ := ht.frame_asleep hf
    · have hs : s.frame.Asleep := he ▸ hf
      obtain hw | ⟨-, hn⟩ | ⟨c, hc, hw⟩ := ht.worker_moves k
      · exact h.exited hs k (hw ▸ hk)
      · simp [hk] at hn
      · exact not_asleep_of_notify ha ht hc (.inr (hw.entry.exited hk)) hs hf
    · exact h.exited hs k hk
    · have hrun := hsh.exit (k := k) (.inr hk)
      simp [State.allJobsDone, hrun] at hd
  · obtain he | ⟨⟨p, rfl⟩, hs | ⟨-, hd⟩⟩ := ht.frame_asleep hf
    · have hs : s.frame.Asleep := he ▸ hf
      have hidle : s.frame ≠ .idle := by rcases hs with hs | hs <;> simp [hs]
      obtain hj | ⟨k, hk⟩ := ht.jobsToDo hidle
      · rw [hj] at h0
        obtain ⟨k, hk⟩ := h.notifier hs h0
        obtain hw | ⟨hb, -⟩ | ⟨c, hc, hw⟩ := ht.worker_moves k
        · exact ⟨k, by rwa [hw]⟩
        · rcases hk with hk | hk <;> simp [hk] at hb
        · rcases hk with hk | hk
          · exact ⟨k, .inr (hw.notifyFrame_of_zero hk h0)⟩
          · exact absurd hf (not_asleep_of_notify ha ht hc (.inl hk) hs)
      · exact ⟨k, .inl hk⟩
    · exact h.notifier hs h0
    · have h0 : s.jobsToDo = 0 := h0
      simp [State.allJobsDone, h0] at hd

end State.FrameWatched

/-- No notification falls between a predicate and the block that follows it, neither one of
`AddJob` to a worker nor one of a worker to the frame thread. -/
def State.NotifiesInTime (s : State n) (a : Action n) : Prop :=
  ¬ s.MissesPush a ∧ ¬ s.MissesFrame a

instance (s : State n) (a : Action n) : Decidable (s.NotifiesInTime a) :=
  inferInstanceAs (Decidable (_ ∧ _))

theorem reachable_frameWatched [NeZero n]
    (h : ((jobSystem n m).restrict State.NotifiesInTime).Reachable s) : s.FrameWatched := by
  refine h.invariant (fun _ hs => ?_) fun _ _ _ hr hi ht =>
    hi.step (reachable_shutdown hr.of_restrict) ht.1.2 (step_cases ht.2)
  subst hs
  constructor <;> simp [init, FramePc.Asleep]

/-- When every worker is asleep behind an empty queue, no job is open. -/
theorem jobsToDo_eq_zero_of_blocked [NeZero n] (h : (jobSystem n m).Reachable s)
    (hf : s.frame.hand = none) (hk : ∀ k, s.worker k = .blocked ∧ (s.queues k).deque = []) :
    s.jobsToDo = 0 := by
  have hcard := (reachable_ownership h).openJobs_eq_queued hf fun k => by
    rw [(hk k).1]; exact ⟨rfl, rfl⟩
  have hcount := reachable_openCounted h
  simp only [(hk _).2, List.length_nil, Finset.sum_const_zero] at hcard
  rw [State.OpenCounted, hcard] at hcount
  exact UInt32.toNat_inj.mp hcount

/-- Where no notification comes too early, the frame thread is not left blocked with nobody to
notify it. -/
theorem frame_not_lost [NeZero n]
    (h : ((jobSystem n m).restrict State.NotifiesInTime).Reachable s) : ¬ s.FrameLost := by
  rintro ⟨hb, -, hk⟩
  have hw := reachable_frameWatched h
  have hs : s.frame.Asleep := .inr hb
  have hblocked (k) : s.worker k = .blocked := (hk k).resolve_left (hw.exited hs k)
  have hpush : s.Watched := reachable_watched
    (h.mono (fun _ hi => hi) fun _ _ _ ht => ⟨ht.1.1, ht.2⟩)
  have hempty (k) : (s.queues k).deque = [] := by
    by_contra hd
    obtain ⟨j, hj⟩ := hpush k (.inr (hblocked k)) hd
    simp [hb] at hj
  have h0 := jobsToDo_eq_zero_of_blocked h.of_restrict (by rw [hb]; rfl)
    fun k => ⟨hblocked k, hempty k⟩
  obtain ⟨k, hk⟩ := hw.notifier hs h0
  rcases hk with hk | hk <;> simp [hblocked k] at hk

/-- The frame thread blocks, and the end of the only job wakes it. -/
theorem frame_not_lost_one_job : ∃ s : State 1, s.frame = .notified ∧ s.worker 0 = .blocked ∧
    ¬ s.FrameLost := by
  obtain ⟨s, hr, hf, hw⟩ := exists_of_executeWithin (n := 1) (m := .conditionVariable)
    (G := State.NotifiesInTime)
    (l := [.call (.createJob 0)] ++ addJobActions 0 ++ [.call .waitForAllJobs, .frame, .frame] ++
      workerActions 0 16)
    (p := fun s => s.frame = .notified ∧ s.worker 0 = .blocked) (by decide +kernel)
  exact ⟨s, hf, hw, frame_not_lost hr⟩

/-- A worker does not move a frame thread that is about to block. -/
theorem WorkerStep.frame_waitBlock (h : WorkerStep m k s t) (hf : s.frame = .waitBlock) :
    t.frame = .waitBlock := by
  cases h with
  | notifyFrame | exitNotify => simp [State.notifyAll, hf]
  | _ => exact hf

theorem State.MissesFrame.step [NeZero n] (ha : s.MissesFrame a) (ht : (jobSystem n m).step s a t) :
    t.frame = .waitBlock ∧ t.allJobsDone = s.allJobsDone := by
  cases a with
  | worker k c =>
    obtain ⟨hk, hf⟩ := ha
    have hs := workerStep_of_step ht
    refine ⟨hs.frame_waitBlock hf, ?_⟩
    cases hs with
    | control hp hc => rw [hp] at hk; cases hc <;> simp at hk
    | notifyFrame | exitNotify => rfl
    | _ => simp_all
  | _ => exact ha.elim

/-- A frame thread that misses a notification blocks in its next step, and if it had nothing to wait
for any more when it was notified, it does so with its predicate true. -/
theorem blocked_of_missesFrame [NeZero n] (ha : s.MissesFrame a)
    (ht : (jobSystem n m).step s a t) :
    ∃ u, (jobSystem n m).step t .frame u ∧ u.frame = .blocked ∧
      u.allJobsDone = s.allJobsDone := by
  obtain ⟨hf, hd⟩ := ha.step ht
  refine ⟨t.gotoFrame .blocked, ⟨trivial, ?_⟩, rfl, hd⟩
  simp [ofNext, next, frameStep, hf]

/-- The frame thread reads `jobsToDo` as 1, the only job ends and `Finish` notifies, and then the
frame thread blocks. -/
theorem frameLost_after_finish : ∃ s : State 1, (jobSystem 1 .conditionVariable).Reachable s ∧
    s.FrameLost := by
  obtain ⟨s, hr, hf, hd, hw⟩ := exists_of_execute (n := 1) (m := .conditionVariable)
    (l := [.call (.createJob 0)] ++ addJobActions 0 ++ [.call .waitForAllJobs, .frame] ++
      workerActions 0 16 ++ [.frame])
    (p := fun s => s.frame = .blocked ∧ s.allJobsDone = true ∧ ∀ k, s.worker k = .blocked)
    (by decide +kernel)
  exact ⟨s, hr, hf, hd, fun k => .inr (hw k)⟩

end JobSystem
