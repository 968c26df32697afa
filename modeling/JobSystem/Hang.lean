import JobSystem.Quit
import JobSystem.Undisturbed

/-! `main_runner` can hang in its first frame, however many workers, frames and particle jobs there
are: while the frame is set up all workers are on their way to sleep, and none of them hears a
notification. -/
namespace JobSystem
open TransitionSystem
variable {n : ℕ} {m : WaitMode} {F P : ℕ} {M N : Runner n} {k : Fin n} {p q : WorkerPc n}
  {s t : State n} {c : Call}

/-- All workers are behind a false predicate. -/
structure Parked (s : State n) : Prop where
  worker : ∀ k, s.worker k = .waitBlock
  isRunning : s.isRunning = true
  unstarted : ∀ k j, .start k j ∉ s.history

theorem Parked.congr (h : Parked s) (hw : t.worker = s.worker) (hr : t.isRunning = s.isRunning)
    (hh : t.history = s.history ∨ ∃ d x, t.history = .addDependency d x :: s.history) :
    Parked t := by
  refine ⟨fun k => congrFun hw k ▸ h.worker k, hr.trans h.isRunning, fun k j hj => ?_⟩
  obtain he | ⟨d, x, he⟩ := hh
  · exact h.unstarted k j (he ▸ hj)
  · rw [he] at hj
    exact h.unstarted k j (by simpa using hj)

/-- What an `AddJob` leaves alone while no worker is blocked. -/
structure Unheard (s t : State n) : Prop where
  worker : t.worker = s.worker
  isRunning : t.isRunning = s.isRunning
  history : t.history = s.history
  jobsToDo : t.jobsToDo = s.jobsToDo

theorem FrameStep.unheard (h : FrameStep s t) (hw : ∀ k, s.worker k ≠ .blocked)
    (hadd : s.frame.addingJob = true) : Unheard s t := by
  cases h with
  | control | write | pushLock | pushBack | pushUnlock | index => exact ⟨rfl, rfl, rfl, rfl⟩
  | pushNotify =>
    exact ⟨funext fun k => notifyOne_worker_of_ne (hw k), rfl, rfl, rfl⟩
  | stop hp | wakeOne _ hp | joined _ hp => simp [hp, FramePc.addingJob] at hadd

/-- Within `AddJob` the frame thread can go on, since no worker has taken a mutex. -/
theorem Parked.exists_frameStep (h : Parked s) (hm : Mutex s) (hadd : s.frame.addingJob = true) :
    ∃ t, frameStep s = some t := by
  apply exists_frameStep_of_adding hadd
  intro j q hp
  rw [hm.locked, hp, h.worker]
  simp [FramePc.holdsLock, WorkerPc.holdsLock]

theorem Parked.callStep {plan : Plan} (h : Parked s) (hc : c.SetsUp)
      (hallow : s.book.Allows plan c) :
    Parked (callStep s c) ∧
      (callStep s c).jobsToDo = s.jobsToDo + if c.isAddJob then 1 else 0 := by
  cases c with
  | createJob f => exact ⟨h.congr rfl rfl (.inl rfl), (UInt32.add_zero _).symm⟩
  | addDependency d x =>
    have hm : (s.jobs x).dependentCount < maxDependentCount := hallow.2.2.1
    rw [callStep_addDependency hm]
    exact ⟨h.congr rfl rfl (.inr ⟨d, x, rfl⟩), (UInt32.add_zero _).symm⟩
  | addJob j => exact ⟨h.congr rfl rfl (.inl rfl), rfl⟩
  | waitForAllJobs | joinJobs => exact hc.elim

/-- The state with all workers at one position. -/
def State.allAt (s : State n) (p : WorkerPc n) : State n := { s with worker := fun _ => p }

namespace Runner
variable [NeZero n]

/-- If a worker can go from `p` to `q` wherever the others are, all can, one after the other. -/
theorem reachable_allAt (h : (mainRunner n m F P).Reachable { M with system := M.system.allAt p })
    (hstep : ∀ w k, w k = p → workerStep m {} k { M.system with worker := w } =
      some ({ M.system with worker := w }.goto k q)) :
    (mainRunner n m F P).Reachable { M with system := M.system.allAt q } := by
  have hsome (S : Finset (Fin n)) : (mainRunner n m F P).Reachable { M with
      system := { M.system with worker := fun k => if k ∈ S then q else p } } := by
    induction S using Finset.induction_on with
    | empty => simpa [State.allAt] using h
    | insert k S hk ih =>
      have hnext := hstep (fun i => if i ∈ S then q else p) k (if_neg hk)
      have hworker : Function.update (fun i => if i ∈ S then q else p) k q =
          fun i => if i ∈ insert k S then q else p := by
        funext i
        by_cases hi : i = k
        · subst hi
          simp
        · simp [hi]
      have hgoto : (State.goto { M.system with worker := fun i => if i ∈ S then q else p } k q) =
          { M.system with worker := fun i => if i ∈ insert k S then q else p } := by
        rw [← hworker]
        rfl
      rw [hgoto] at hnext
      refine ih.step (a := .inside (.worker k {})) ?_
      show runnerNext m F P _ _ = _
      simp only [runnerNext, next, hnext, Option.map_some]
  simpa [State.allAt] using hsome Finset.univ

/-- Before the first call all workers can look into their empty queues. -/
theorem reachable_parked (n F P : ℕ) [NeZero n] : (mainRunner n .conditionVariable F P).Reachable
    { system := (init : State n).allAt .waitBlock, calls := [], left := false, passes := 0 } := by
  let M : Runner n := { system := init, calls := [], left := false, passes := 0 }
  have h : (mainRunner n .conditionVariable F P).Reachable
      { M with system := M.system.allAt .loopTop } := .init rfl
  have h := reachable_allAt (q := .waitStopped) h fun w k hk => by
    simp [workerStep, hk, M, init]
  have h := reachable_allAt (q := .waitPredicate) h fun w k hk => by
    simp [workerStep, hk, M, init]
  exact reachable_allAt (q := .waitBlock) h fun w k hk => by
    simp [workerStep, hk, M, init, State.jobsAvailable, JobQueue.isEmpty]

/-- What the frame thread keeps while it sets up its frame before parked workers. -/
structure SetsUpUnheard (m : WaitMode) (F P : ℕ) (M : Runner n) : Prop where
  reachable : (mainRunner n m F P).Reachable M
  parked : Parked M.system
  frame : M.system.frame = .idle ∨ M.system.frame.addingJob = true
  calls : ∃ l, (∀ c ∈ l, c.SetsUp) ∧ M.calls = l ++ [.waitForAllJobs]
  jobsToDo : M.system.jobsToDo + .ofNat (M.calls.countP Call.isAddJob) = .ofNat (F * (7 + P))

namespace SetsUpUnheard

/-- A step within `AddJob`. -/
theorem adds (h : M.SetsUpUnheard m F P) (hP : P ≤ 12) (hi : M.system.frame ≠ .idle) :
    ∃ N, (mainRunner n m F P).step M (.inside .frame) N ∧ N.SetsUpUnheard m F P ∧
      N.calls = M.calls ∧ N.system.frame.untilAdded < M.system.frame.untilAdded := by
  have hadd := h.frame.resolve_left hi
  have hm := reachable_mutex (reachable_orderly hP h.reachable).reachable
  obtain ⟨t, ht⟩ := h.parked.exists_frameStep hm hadd
  have hf := FrameStep.of_frameStep ht
  have hu := hf.unheard (fun k => by simp [h.parked.worker k]) hadd
  obtain ⟨hlt, hframe⟩ := hf.untilAdded_lt hadd
  have hstep : (mainRunner n m F P).step M (.inside .frame) { M with system := t } := by
    show runnerNext m F P M (.inside .frame) = _
    simp [runnerNext, next, ht]
  refine ⟨_, hstep, ⟨h.reachable.step hstep, h.parked.congr hu.worker hu.isRunning
    (.inl hu.history), hframe, h.calls, ?_⟩, rfl, hlt⟩
  show t.jobsToDo + _ = _
  rw [hu.jobsToDo]
  exact h.jobsToDo

/-- The next call. -/
theorem call (h : M.SetsUpUnheard m F P) (hP : P ≤ 12) (hi : M.system.frame = .idle)
    (hc : M.calls ≠ [.waitForAllJobs]) :
    ∃ N, (mainRunner n m F P).step M .call N ∧ N.SetsUpUnheard m F P ∧
      N.calls.length + 1 = M.calls.length ∧ N.system.frame.untilAdded ≤ 6 := by
  obtain ⟨l, hl, hcalls⟩ := h.calls
  cases l with
  | nil => exact absurd hcalls hc
  | cons c l =>
    obtain ⟨hsets, hl⟩ := List.forall_mem_cons.mp hl
    have hallow := ((reachable_orderly hP h.reachable).allows hcalls).1
    have hj : c ≠ .joinJobs := by rintro rfl; exact hsets
    have hstep : (mainRunner n m F P).step M .call
        { M with system := callStep M.system c, calls := l ++ [.waitForAllJobs] } := by
      show runnerNext m F P M .call = _
      simp [runnerNext, hcalls, next, hi, hj]
    obtain ⟨hparked, hcount⟩ := h.parked.callStep hsets hallow
    have hframe := hsets.frame hi hallow
    refine ⟨_, hstep, ⟨h.reachable.step hstep, hparked, ?_, ⟨l, hl, rfl⟩, ?_⟩, ?_, ?_⟩
    · obtain hf | ⟨j, hf⟩ := hframe
      · exact .inl hf
      · exact .inr (by rw [hf]; rfl)
    · show (JobSystem.callStep M.system c).jobsToDo + _ = _
      rw [hcount, ← h.jobsToDo, hcalls, List.cons_append, List.countP_cons, Nat.add_comm,
        UInt32.ofNat_add, UInt32.add_assoc]
      cases c.isAddJob <;> rfl
    · rw [hcalls]
      rfl
    · obtain hf | ⟨j, hf⟩ := hframe <;> rw [hf] <;> simp [FramePc.untilAdded]

/-- All calls up to the wait can be made. -/
theorem exists_wait (h : M.SetsUpUnheard m F P) (hP : P ≤ 12) :
    ∃ N : Runner n, N.SetsUpUnheard m F P ∧ N.system.frame = .idle ∧
      N.calls = [.waitForAllJobs] := by
  obtain ⟨N, -, hN, hidle, hwait⟩ := System.exists_path_of_decreasing
    (T := mainRunner n m F P) (A := fun _ => True) (I := fun N => N.SetsUpUnheard m F P)
    (P := fun N => N.system.frame = .idle ∧ N.calls = [.waitForAllJobs]) wellFounded_lt
    (fun N => 7 * N.calls.length + N.system.frame.untilAdded)
    (fun N hN hnot => by
      by_cases hi : N.system.frame = .idle
      · obtain ⟨N', hstep, hN', hlen, huntil⟩ := hN.call hP hi fun hc => hnot ⟨hi, hc⟩
        have hzero : N.system.frame.untilAdded = 0 := by rw [hi]; rfl
        exact ⟨_, N', trivial, hstep, hN', by show _ < _; omega⟩
      · obtain ⟨N', hstep, hN', hcalls, huntil⟩ := hN.adds hP hi
        exact ⟨_, N', trivial, hstep, hN', by show _ < _; rw [hcalls]; omega⟩) M h
  exact ⟨N, hN, hidle, hwait⟩

/-- `WaitForAllJobs` comes to its block, and then all workers come to theirs. -/
theorem all_asleep (h : M.SetsUpUnheard m F P) (hi : M.system.frame = .idle)
    (hc : M.calls = [.waitForAllJobs]) (hpos : M.system.jobsToDo ≠ 0) :
    (mainRunner n m F P).Reachable
      { M with system := (M.system.gotoFrame .blocked).allAt .blocked, calls := [] } := by
  let N (f : FramePc n) : Runner n := { M with system := M.system.gotoFrame f, calls := [] }
  have hcall : (mainRunner n m F P).step M .call (N .waitPredicate) := by
    show runnerNext m F P M .call = _
    simp [runnerNext, hc, next, hi, JobSystem.callStep, N]
  have hsleep : (mainRunner n m F P).step (N .waitPredicate) (.inside .frame) (N .waitBlock) := by
    show runnerNext m F P _ _ = _
    simp only [runnerNext, next, frameStep, State.allJobsDone, N, State.gotoFrame_frame,
      State.gotoFrame_isRunning, State.gotoFrame_jobsToDo, h.parked.isRunning, hpos, Bool.not_true,
      Bool.false_or, beq_iff_eq, ↓reduceIte, Option.map_some]
    rfl
  have hblock : (mainRunner n m F P).step (N .waitBlock) (.inside .frame) (N .blocked) := rfl
  have hr := ((h.reachable.step hcall).step hsleep).step hblock
  have hpark : (N .blocked).system.allAt .waitBlock = (N .blocked).system := by
    have hworker : M.system.worker = fun _ => .waitBlock := funext h.parked.worker
    simp [State.allAt, N, State.gotoFrame, ← hworker]
  apply reachable_allAt (M := N .blocked) (p := .waitBlock)
  · rw [hpark]
    exact hr
  · intro w k hk
    simp [workerStep, hk]

end SetsUpUnheard

/-- The first call of `UpdateParallel` behind parked workers. -/
theorem setsUpUnheard_first (n F P : ℕ) [NeZero n] :
    SetsUpUnheard .conditionVariable F P
      { system := (init : State n).allAt .waitBlock, calls := updateParallel F P 0, left := false,
        passes := 1 } where
  reachable := by
    refine (reachable_parked n F P).step (a := .loop) ?_
    rfl
  parked := ⟨fun _ => rfl, rfl, fun _ _ => List.not_mem_nil⟩
  frame := .inl rfl
  calls := ⟨_, setsUp_of_mem_frames F P 0, rfl⟩
  jobsToDo := by
    show 0 + UInt32.ofNat ((updateParallel F P 0).countP Call.isAddJob) = _
    rw [updateParallel, List.countP_append, countP_isAddJob]
    exact UInt32.zero_add _

/-- However many workers, frames and particle jobs there are, the first call of `UpdateParallel` can
end in a deadlock: nobody has told the program to quit, all jobs are added, none is started, and
all threads are asleep. -/
theorem can_hang (n : ℕ) [NeZero n] (F : ℕ) (hP : P ≤ 12) (hN : ¬ 2 ^ 32 ∣ F * (7 + P)) :
    ∃ M : Runner n, (mainRunner n .conditionVariable F P).Reachable M ∧
      M.system.isRunning = true ∧ M.system.jobsToDo = .ofNat (F * (7 + P)) ∧
      (∀ k j, .start k j ∉ M.system.history) ∧
      (∀ k, M.system.worker k = .blocked) ∧ M.system.frame = .blocked ∧
      ¬ ∃ r N, IsThread r ∧ (mainRunner n .conditionVariable F P).step M r N := by
  obtain ⟨N, hN', hidle, hcalls⟩ := (setsUpUnheard_first n F P).exists_wait hP
  have hcount : N.system.jobsToDo = .ofNat (F * (7 + P)) := by
    have hsum := hN'.jobsToDo
    rw [hcalls] at hsum
    exact (UInt32.add_zero _).symm.trans hsum
  have hpos : N.system.jobsToDo ≠ 0 := by
    rw [hcount, ne_eq, ← UInt32.toNat_inj, UInt32.toNat_ofNat']
    exact fun hz => hN (Nat.dvd_of_mod_eq_zero hz)
  refine ⟨_, hN'.all_asleep hidle hcalls hpos, hN'.parked.isRunning, hcount, hN'.parked.unstarted,
    fun _ => rfl, rfl, ?_⟩
  rintro ⟨r, N', hr, hstep⟩
  cases r with
  | inside a =>
    obtain ⟨-, t, ht, -⟩ := of_inside hstep
    cases a with
    | worker k c => cases ht
    | frame => cases ht
    | call | quit | wakeWorker | wakeFrame => exact hr
  | call => cases hstep
  | loop => cases hstep

/-- The configuration of `Settings.h` on three workers. -/
theorem can_hang_default : ∃ M : Runner 3, (mainRunner 3 .conditionVariable 1 1).Reachable M ∧
    M.system.jobsToDo = 8 ∧ ∀ k, M.system.worker k = .blocked := by
  obtain ⟨M, hM, -, hcount, -, hblocked, -⟩ := can_hang 3 1 (P := 1) (by decide) (by decide)
  exact ⟨M, hM, hcount, hblocked⟩

end Runner

end JobSystem
