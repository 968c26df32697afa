import JobSystem.Moves

/-! The stop flags and the end of the workers: what `JoinJobs` has done once it has got so far,
and what a worker that has left its loop implies. -/
namespace JobSystem
open TransitionSystem
variable {n : ℕ} {m : WaitMode} {k : Fin n} {s t : State n} {a : Action n}

/-- In `JoinJobs`, behind `isRunning = false`. -/
def FramePc.joining : FramePc n → Bool
  | .joinStop | .wakeAll _ | .join _ => true
  | _ => false

/-- In `JoinJobs`, behind `stopped = true`. -/
def FramePc.stopping : FramePc n → Bool
  | .wakeAll _ | .join _ => true
  | _ => false

structure Shutdown (s : State n) : Prop where
  joining : s.frame.joining = true → s.isRunning = false
  stopping : s.frame.stopping = true → s.stopped = true
  stopped : s.stopped = true → s.isRunning = false
  exit : ∀ {k}, s.worker k = .exitNotify ∨ s.worker k = .exited → s.isRunning = false
  join : ∀ {i}, s.frame = .join i → ∀ k : Fin n, k < i → s.worker k = .exited
  joined : s.joined = true → s.stopped = true ∧ ∀ k, s.worker k = .exited

/-- `isRunning` is never set again. -/
theorem StepCase.isRunning (h : StepCase m s a t) (hs : s.isRunning = false) :
    t.isRunning = false := by
  cases h with
  | worker h => cases h <;> exact hs
  | frame h => cases h <;> exact hs
  | @addDependency d x => exact (addDependency_onlyJobs s d x).isRunning.trans hs
  | joinJobs | quit => rfl
  | _ => exact hs

/-- Only the store of the main thread and `JoinJobs` change `isRunning`. -/
theorem StepCase.isRunning_eq (h : StepCase m s a t) (hq : a ≠ .quit) (hj : a ≠ .call .joinJobs) :
    t.isRunning = s.isRunning := by
  cases h with
  | worker h => cases h <;> rfl
  | frame h => cases h <;> rfl
  | @addDependency d x => exact (addDependency_onlyJobs s d x).isRunning
  | quit => exact absurd rfl hq
  | joinJobs => exact absurd rfl hj
  | _ => rfl

theorem StepCase.stopped (h : StepCase m s a t) :
    t.stopped = s.stopped ∨ t.stopped = true ∧ s.frame = .joinStop := by
  cases h with
  | worker h => cases h <;> exact .inl rfl
  | frame h =>
    cases h with
    | stop hp => exact .inr ⟨rfl, hp⟩
    | _ => exact .inl rfl
  | @addDependency d x => exact .inl (addDependency_onlyJobs s d x).stopped
  | _ => exact .inl rfl

theorem StepCase.joined (h : StepCase m s a t) :
    t.joined = s.joined ∨ t.joined = true ∧ ∃ i, n ≤ i ∧ s.frame = .join i := by
  cases h with
  | worker h => cases h <;> exact .inl rfl
  | frame h =>
    cases h with
    | joined hi hp => exact .inr ⟨rfl, _, hi, hp⟩
    | _ => exact .inl rfl
  | @addDependency d x => exact .inl (addDependency_onlyJobs s d x).joined
  | _ => exact .inl rfl

theorem WorkerStep.not_exited (h : WorkerStep m k s t) : s.worker k ≠ .exited := by
  cases h with
  | control hp hc => rw [hp]; cases hc <;> simp
  | _ => simp_all

/-- A worker that has ended stays where it is. -/
theorem StepCase.exited (h : StepCase m s a t) (hk : s.worker k = .exited) :
    t.worker k = .exited := by
  obtain he | ⟨hb, -⟩ | ⟨c, -, hw⟩ := h.worker_moves k
  · exact he.trans hk
  · simp [hk] at hb
  · exact absurd hk hw.not_exited

theorem WorkerStep.exit (h : WorkerStep m k s t)
    (hk : t.worker k = .exitNotify ∨ t.worker k = .exited) :
    s.isRunning = false ∨ s.worker k = .exitNotify := by
  obtain hk | hk := hk
  · exact .inl (h.entry.exitNotify hk)
  · exact .inr (h.entry.exited hk)

theorem callStep_joining (hi : s.frame = .idle) (c : Call) :
    (callStep s c).frame.stopping = false ∧ (∀ i, (callStep s c).frame ≠ .join i) ∧
      ((callStep s c).frame.joining = true → (callStep s c).isRunning = false) := by
  obtain he | he | ⟨j, -, he⟩ | ⟨-, he⟩ | ⟨rfl, he⟩ := callStep_frame hi c <;> rw [he] <;>
    simp [FramePc.joining, FramePc.stopping]
  rfl

theorem StepCase.joining (h : StepCase m s a t) (hj : t.frame.joining = true) :
    s.frame.joining = true ∨ t.isRunning = false := by
  rcases h.frame_moves with he | ⟨-, he⟩ | ⟨-, hf⟩ | ⟨c, -, hi, rfl⟩
  · exact .inl (he ▸ hj)
  · simp [he, FramePc.joining] at hj
  · cases hf with
    | control hp hc => rw [hp]; cases hc <;> simp_all [FramePc.joining]
    | stop hp | wakeOne _ hp => simp [hp, FramePc.joining]
    | _ => simp [FramePc.joining] at hj
  · exact .inr ((callStep_joining hi c).2.2 hj)

theorem StepCase.stopping (h : StepCase m s a t) (hj : t.frame.stopping = true) :
    s.frame.stopping = true ∨ t.stopped = true := by
  rcases h.frame_moves with he | ⟨-, he⟩ | ⟨-, hf⟩ | ⟨c, -, hi, rfl⟩
  · exact .inl (he ▸ hj)
  · simp [he, FramePc.stopping] at hj
  · cases hf with
    | control hp hc => rw [hp]; cases hc <;> simp_all [FramePc.stopping]
    | stop => exact .inr rfl
    | wakeOne _ hp => simp [hp, FramePc.stopping]
    | _ => simp [FramePc.stopping] at hj
  · simp [(callStep_joining hi c).1] at hj

/-- The frame thread goes on to the next worker when it has joined one. -/
theorem StepCase.join {i : ℕ} (h : StepCase m s a t) (hj : t.frame = .join i) :
    s.frame = .join i ∨ (i = 0 ∧ ∃ i', n ≤ i' ∧ s.frame = .wakeAll i') ∨
      ∃ i' : Fin n, i = i' + 1 ∧ s.frame = .join i' ∧ s.worker i' = .exited := by
  rcases h.frame_moves with he | ⟨-, he⟩ | ⟨-, hf⟩ | ⟨c, -, hi, rfl⟩
  · exact .inl (he ▸ hj)
  · simp [he] at hj
  · cases hf with
    | control hp hc =>
      obtain rfl : _ = FramePc.join i := hj
      cases hc with
      | wokenAll hi => exact .inr (.inl ⟨rfl, _, hi, hp⟩)
      | joinOne hi he => exact .inr (.inr ⟨⟨_, hi⟩, rfl, hp, he⟩)
    | _ => simp at hj
  · exact absurd hj ((callStep_joining hi c).2.1 i)

namespace Shutdown

theorem init [NeZero n] : Shutdown (init : State n) := by
  constructor <;> simp [JobSystem.init, FramePc.joining, FramePc.stopping]

theorem step (h : Shutdown s) (ht : StepCase m s a t) : Shutdown t where
  joining hj := (ht.joining hj).elim (fun hs => ht.isRunning (h.joining hs)) id
  stopping hj := (ht.stopping hj).elim
    (fun hs => ht.stopped.elim (·.trans (h.stopping hs)) (·.1)) id
  stopped hst := by
    refine ht.isRunning (ht.stopped.elim (fun he => h.stopped (he ▸ hst)) fun hj => ?_)
    exact h.joining (by simp [hj.2, FramePc.joining])
  exit {k} hk := by
    refine ht.isRunning ?_
    obtain he | ⟨-, he⟩ | ⟨c, -, hw⟩ := ht.worker_moves k
    · exact h.exit (he ▸ hk)
    · simp [he] at hk
    · exact (hw.exit hk).elim id fun hp => h.exit (.inl hp)
  join {i} hi k hk := by
    obtain hs | ⟨rfl, -⟩ | ⟨i', rfl, hs, he⟩ := ht.join hi
    · exact ht.exited (h.join hs k hk)
    · exact absurd hk (Nat.not_lt_zero _)
    · refine ht.exited ?_
      rcases Nat.lt_succ_iff_lt_or_eq.mp hk with hlt | heq
      · exact h.join hs k hlt
      · exact Fin.ext heq ▸ he
  joined hj := by
    obtain he | ⟨-, i, hi, hs⟩ := ht.joined
    · obtain ⟨hst, hex⟩ := h.joined (he ▸ hj)
      exact ⟨ht.stopped.elim (·.trans hst) (·.1), fun k => ht.exited (hex k)⟩
    · have hst := h.stopping (by simp [hs, FramePc.stopping])
      exact ⟨ht.stopped.elim (·.trans hst) (·.1),
        fun k => ht.exited (h.join hs k (k.isLt.trans_le hi))⟩

end Shutdown

theorem Shutdown.not_stopped (h : Shutdown s) (hrun : s.isRunning = true) :
    s.stopped = false := by
  by_contra hs
  rw [h.stopped (Bool.eq_true_of_not_eq_false hs)] at hrun
  cases hrun

theorem reachable_shutdown [NeZero n] (h : (jobSystem n m).Reachable s) : Shutdown s :=
  h.invariant (fun _ hs => hs ▸ .init) fun _ _ _ _ hi ht => hi.step (step_cases ht)

end JobSystem
