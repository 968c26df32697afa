import JobSystem.OpenJobs
import JobSystem.Places

/-! What is left when `isRunning` has become false: each worker finishes the iteration it is in, and
every pushed job has then been worked completely or not been touched. -/
namespace JobSystem
open TransitionSystem
variable {n : ℕ} {m : WaitMode} {k : Fin n} {j : JobId} {s t : State n} {a : Action n}

/-- How many jobs the worker can still start before it reads `isRunning` again. -/
def WorkerPc.budget : WorkerPc n → ℕ
  | .loopTop | .push (.repush .second) _ _ => 0
  | .running _ | .destroy _ _ | .reread _ _ | .readQueue _ _ | .rereadQueue _ _ => 0
  | .notifyQueue _ _ _ | .countDown _ | .rereadJobsToDo | .notifyFrame => 0
  | .exitNotify | .exited => 0
  | _ => 1

theorem WorkerPc.budget_le_one (p : WorkerPc n) : p.budget ≤ 1 := by
  unfold budget
  split <;> omega

theorem WorkerStep.budget_le (h : WorkerStep m k s t) (hs : s.isRunning = false) :
    (t.worker k).budget ≤ (s.worker k).budget := by
  cases h with
  | control hp hc =>
    rw [hp, State.goto_self]
    cases hc with
    | isRunning hr => simp [hs] at hr
    | noJob a => cases a <;> simp [Attempt.failed, WorkerPc.budget]
    | blockedJob a => cases a <;> simp [WorkerPc.budget]
    | _ => simp [WorkerPc.budget]
  | @pushUnlock site j hp =>
    rw [hp]
    obtain (_ | _) | _ := site <;> simp [PushSite.done, Attempt.failed, WorkerPc.budget]
  | @pushLock site j hp | @pushBack site j hp | @pushNotify site j hp =>
    rw [hp]
    obtain (_ | _) | _ := site <;> simp [WorkerPc.budget]
  | @getJob a hp => rw [hp]; cases a <;> simp [WorkerPc.budget]
  | steal hp => rw [hp]; exact WorkerPc.budget_le_one _
  | _ => simp_all [WorkerPc.budget]

theorem StepCase.budget_le (h : StepCase m s a t) (hs : s.isRunning = false) (k : Fin n) :
    (t.worker k).budget ≤ (s.worker k).budget := by
  obtain he | ⟨hb, hn⟩ | ⟨c, -, hw⟩ := h.worker_moves k
  · exact Nat.le_of_eq (congrArg _ he)
  · rw [hb, hn]
    exact Nat.le_refl _
  · exact hw.budget_le hs

def Event.startBy (k : Fin n) : Event n → Bool
  | .start i _ => i = k
  | _ => false

/-- The jobFunctions that worker `k` has started. -/
def State.startsBy (s : State n) (k : Fin n) : ℕ := s.history.countP (Event.startBy k)

/-- A start uses up the budget of its worker. -/
theorem StepCase.startsBy (h : StepCase m s a t) (hs : s.isRunning = false) (k : Fin n) :
    t.startsBy k + (t.worker k).budget ≤ s.startsBy k + (s.worker k).budget := by
  have hb := h.budget_le hs k
  unfold State.startsBy
  obtain he | ⟨e, he, hstart⟩ := h.history
  · rw [he]
    omega
  · rw [he, List.countP_cons]
    split
    · next hk =>
      obtain ⟨j, rfl⟩ : ∃ j, e = .start k j := by
        cases e <;> simp_all [Event.startBy]
      obtain ⟨hp, hp'⟩ := hstart k j rfl
      rw [hp, hp']
      exact Nat.le_refl _
    · omega

theorem path_startsBy [NeZero n] {A : Action n → Prop} (h : (jobSystem n m).Path A s t)
    (hr : (jobSystem n m).Reachable s) (hs : s.isRunning = false) (k : Fin n) :
    t.startsBy k ≤ s.startsBy k + 1 := by
  have hinv := h.invariant
    (I := fun u => u.isRunning = false ∧
      u.startsBy k + (u.worker k).budget ≤ s.startsBy k + (s.worker k).budget)
    (fun u a v _ hu _ ht => ⟨(step_cases ht).isRunning hu.1,
      ((step_cases ht).startsBy hu.1 k).trans hu.2⟩) hr ⟨hs, Nat.le_refl _⟩
  have hb := (s.worker k).budget_le_one
  omega

/-- The worker is behind its loop. -/
def WorkerPc.HasLeft (p : WorkerPc n) : Prop := p = .exitNotify ∨ p = .exited

namespace State

/-- Worked to the end: started, ended and deleted once, each of its edges decremented once and
pending no more, and counted down. -/
structure CompletelyDone (s : State n) (j : JobId) : Prop where
  done : s.Done j
  decrements : ∀ i, s.decrements j i = if i < (s.jobs j).dependentCount then 1 else 0
  not_pending : ∀ d, ∀ e ∈ s.pendingEdges d, e.1 ≠ j
  countedDown : j ∉ s.openJobs

/-- Never begun: lying in one queue once, with all its edges pending. -/
structure Untouched (s : State n) (j : JobId) : Prop where
  starts : s.starts j = 0
  returns : s.returns j = 0
  decrements : ∀ i, s.decrements j i = 0
  deletes : s.deletes j = 0
  pending : ∀ d, ∀ e ∈ s.edges d, e.1 = j → e ∈ s.pendingEdges d
  queued : ∃ k i, s.At j (.queue k i) ∧ ∀ p, s.At j p → p = .queue k i

end State

theorem WorkerPc.HasLeft.hand {p : WorkerPc n} (h : p.HasLeft) : p.hand = none := by
  obtain rfl | rfl := h <;> rfl

theorem WorkerPc.HasLeft.countingDown {p : WorkerPc n} (h : p.HasLeft) :
    p.countingDown = none := by
  obtain rfl | rfl := h <;> rfl

/-- A deleted job that no worker has still to count down. -/
theorem Recorded.completelyDone (h : Recorded s) (ho : Ownership s)
    (hl : s.lifecycle j = .finished) (hk : ∀ k, (s.worker k).countingDown ≠ some j) :
    s.CompletelyDone j where
  done := h.done_of_finished hl
  decrements i := by
    by_cases hi : i < (s.jobs j).dependentCount
    · rw [if_pos hi]
      exact (h.decrements j i).1 (.inl ⟨hl, hi⟩)
    · have hdec (k : Fin n) : (s.worker k).decremented j = 0 :=
        ho.decremented_of_not_running (by simp [hl]) k
      rw [if_neg hi]
      exact (h.decrements j i).2 (by simp [State.Decremented, hi, hdec])
  not_pending d e he hj := by
    obtain ⟨-, hp, -⟩ := mem_pendingEdges.mp he
    exact hp (hj ▸ hl)
  countedDown := by
    rw [ho.mem_openJobs]
    simp [State.Open, hl, hk]

/-- A job in a queue. -/
theorem Recorded.untouched (h : Recorded s) (ho : Ownership s) {i : ℕ}
    (hq : s.At j (.queue k i)) : s.Untouched j := by
  have hl := ho.queued (List.mem_of_getElem? hq)
  have hdec (k' : Fin n) : (s.worker k').decremented j = 0 :=
    ho.decremented_of_not_running (by simp [hl]) k'
  have hret (k' : Fin n) : (s.worker k').returnedJob ≠ some j := fun hret =>
    ho.not_mem_queue_of_hand (hand_of_returnedJob hret) (List.mem_of_getElem? hq)
  constructor
  · exact (h.starts j).2 (by simp [State.Started, hl])
  · exact (h.returns j).2 (by simp [State.Returned, hl, hret])
  · exact fun i' => (h.decrements j i').2 (by simp [State.Decremented, hl, hdec])
  · exact (h.deletes j).2 (by simp [hl])
  · rintro d e he rfl
    exact mem_pendingEdges.mpr ⟨he, by simp [hl], fun k' => by simp [hdec]⟩
  · exact ⟨k, i, hq, fun p hp => ho.place_unique hp hq⟩

/-- Clean-cut shutdown: once `isRunning` is false each worker starts at most one more job, and when
all workers have left their loops, every pushed job is completely done or untouched. -/
theorem clean_cut [NeZero n] (h : (jobSystem n m).Reachable s) :
    (s.isRunning = false → ∀ t, (jobSystem n m).Path (fun _ => True) s t →
      t.isRunning = false ∧ ∀ k, t.startsBy k ≤ s.startsBy k + 1) ∧
    ((∀ k, (s.worker k).HasLeft) → Counted s ∧ s.OpenCounted ∧
      ∀ j, s.Pushed j → s.CompletelyDone j ∨ s.Untouched j) := by
  have ho := reachable_ownership h
  have hr := reachable_recorded h
  refine ⟨fun hrun t hp => ?_, fun hleft => ⟨reachable_counted h, reachable_openCounted h,
    fun j hj => ?_⟩⟩
  · have hoff := hp.invariant (I := fun u => u.isRunning = false)
      (fun _ _ _ _ hu _ ht => (step_cases ht).isRunning hu) h hrun
    exact ⟨hoff, path_startsBy hp h hrun⟩
  · obtain ⟨p, hp⟩ := ho.exists_place hj
    cases p with
    | queue k i => exact .inr (hr.untouched ho hp)
    | hands k =>
      have hh : (s.worker k).hand = some j := hp
      rw [(hleft k).hand] at hh
      exact absurd hh (by simp)
    | deleted =>
      refine .inl (hr.completelyDone ho hp fun k => ?_)
      rw [(hleft k).countingDown]
      simp

/-- Of two dependent jobs the first is worked before the program quits and the second is left in
its queue. -/
theorem clean_cut_half_chain : ∃ s : State 2, (∀ k, s.worker k = .exited) ∧
    (∀ t, (jobSystem 2 .conditionVariable).Path (fun _ => True) s t →
      t.isRunning = false ∧ ∀ k, t.startsBy k ≤ s.startsBy k + 1) ∧
    s.CompletelyDone 0 ∧ s.Untouched 1 := by
  obtain ⟨s, hr, hrun, hexit, h0, h1, hs0, hs1⟩ := exists_of_execute (n := 2)
    (m := .conditionVariable)
    (l := [.call (.createJob 0), .call (.createJob 1), .call (.addDependency 1 0)] ++
      addJobActions 0 ++ addJobActions 1 ++ workerActions 0 16 ++ .quit :: workerActions 0 2 ++
      workerActions 1 2)
    (p := fun s => s.isRunning = false ∧ (∀ k, s.worker k = .exited) ∧ s.Pushed 0 ∧ s.Pushed 1 ∧
      s.starts 0 = 1 ∧ s.starts 1 = 0) (by decide +kernel)
  obtain ⟨hpath, hcut⟩ := clean_cut hr
  obtain ⟨-, -, hall⟩ := hcut fun k => .inr (hexit k)
  refine ⟨s, hexit, hpath hrun, (hall 0 h0).resolve_right fun hu => ?_,
    (hall 1 h1).resolve_left fun hd => ?_⟩
  · exact absurd (hs0.symm.trans hu.starts) (by decide)
  · exact absurd (hs1.symm.trans hd.done.starts) (by decide)

end JobSystem
