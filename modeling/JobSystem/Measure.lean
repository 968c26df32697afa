import JobSystem.Frames

/-! `MeasureAverageFrameTime` (`main.cpp`) as a second user of the job system: it makes a given
number of calls of `UpdateParallel` and then calls `JoinJobs`. The store to `isRunning` that ends
`main_runner` does not reach it, since it has a flag of its own. -/
namespace JobSystem
open TransitionSystem
variable {n : ℕ} {m : WaitMode} {F P frameCount : ℕ} {M N : Runner n} {k : Fin n} {j x : JobId}
  {s t : State n} {a : Action n} {c : Call} {l : List Call}

/-- Whether `frame < frameCount`, with `frame` the number of the calls made. In the source `frame`
is an `int`, so that this is the loop for a `frameCount` below `2 ^ 31`. -/
def measureNext (m : WaitMode) (F P frameCount : ℕ) (M : Runner n) :
    RunnerAction n → Option (Runner n)
  | .inside (.call _) | .inside .quit => none
  | .inside a => (next m M.system a).map fun s => { M with system := s }
  | .call =>
    match M.calls with
    | [] => none
    | c :: l => (next m M.system (.call c)).map fun s => { M with system := s, calls := l }
  | .loop =>
    if M.calls = [] ∧ M.system.frame = .idle ∧ M.left = false then
      if M.passes < frameCount then
        some { M with calls := updateParallel F P M.system.nextJob, passes := M.passes + 1 }
      else some { M with calls := [.joinJobs], left := true }
    else none

/-- `MeasureAverageFrameTime` with `SIMULATENOUS_FRAME_COUNT` `F` and `PARTICLE_JOB_COUNT` `P`. -/
def measureRunner (n : ℕ) [NeZero n] (m : WaitMode) (F P frameCount : ℕ) :
    System (Runner n) (RunnerAction n) :=
  ofNext { system := init, calls := [], left := false, passes := 0 }
    (measureNext m F P frameCount)

inductive MeasureCase (m : WaitMode) (F P frameCount : ℕ) (M : Runner n) : Runner n → Prop
  | inside {a : Action n} {t : State n} : (∀ c, a ≠ .call c) → a ≠ .quit →
      next m M.system a = some t → MeasureCase m F P frameCount M { M with system := t }
  | call {c : Call} {l : List Call} : M.calls = c :: l → M.system.frame = .idle →
      (c = .joinJobs → M.system.joined = false) →
      MeasureCase m F P frameCount M { M with system := callStep M.system c, calls := l }
  | pass : M.calls = [] → M.system.frame = .idle → M.left = false → M.passes < frameCount →
      MeasureCase m F P frameCount M
        { M with calls := updateParallel F P M.system.nextJob, passes := M.passes + 1 }
  | leave : M.calls = [] → M.system.frame = .idle → M.left = false → frameCount ≤ M.passes →
      MeasureCase m F P frameCount M { M with calls := [.joinJobs], left := true }

theorem measure_cases [NeZero n] {r : RunnerAction n}
    (h : (measureRunner n m F P frameCount).step M r N) : MeasureCase m F P frameCount M N := by
  change measureNext m F P frameCount M r = some N at h
  cases r with
  | inside a =>
    cases a with
    | call c => exact absurd h (by simp [measureNext])
    | quit => exact absurd h (by simp [measureNext])
    | worker | frame | wakeWorker | wakeFrame =>
      simp only [measureNext, Option.map_eq_some_iff] at h
      obtain ⟨t, ht, rfl⟩ := h
      exact .inside (by simp) (by simp) ht
  | call =>
    cases hl : M.calls with
    | nil => simp [measureNext, hl] at h
    | cons c l =>
      simp only [measureNext, hl] at h
      obtain ⟨t, ht, rfl⟩ := Option.map_eq_some_iff.mp h
      obtain ⟨⟨hi, hj⟩, ht⟩ := Option.ite_none_right_eq_some.mp ht
      cases ht
      exact .call hl hi hj
  | loop =>
    obtain ⟨⟨hc, hi, hl⟩, h⟩ := Option.ite_none_right_eq_some.mp h
    by_cases hlt : M.passes < frameCount <;> simp only [hlt, ↓reduceIte] at h <;> cases h
    · exact .pass hc hi hl hlt
    · exact .leave hc hi hl (Nat.le_of_not_lt hlt)

namespace Runner

/-- Within the loop the job system runs, and behind it everything is settled. -/
inductive Measuring (frameCount : ℕ) (M : Runner n) : Prop
  | inLoop : M.left = false → M.system.isRunning = true → .joinJobs ∉ M.calls →
      M.passes ≤ frameCount → Measuring frameCount M
  | behind : M.left = true → M.calls = [] ∨ M.calls = [.joinJobs] → M.passes = frameCount →
      (∀ x < M.system.nextJob, M.system.Settled x) → Measuring frameCount M

variable [NeZero n]

theorem measure_orderly (hP : P ≤ 12) (hN : F * (7 + P) < 2 ^ 32)
    (h : (measureRunner n m F P frameCount).Reachable M) :
    M.Orderly m F P ∧ M.Measuring frameCount := by
  refine h.invariant (I := fun M => M.Orderly m F P ∧ M.Measuring frameCount) (fun _ hi => ?_)
    fun M r N hr ⟨hM, hmeas⟩ hN' => ?_
  · exact hi ▸ ⟨.init, .inLoop rfl rfl List.not_mem_nil (Nat.zero_le _)⟩
  cases measure_cases hN' with
  | @inside a t ha hq ht =>
    refine ⟨hM.inside ha ht, ?_⟩
    have hs := step_cases (Orderly.step_inside ha ht)
    cases hmeas with
    | inLoop hl hrun hc hp =>
      exact .inLoop hl ((hs.isRunning_eq hq (ha _)).trans hrun) hc hp
    | behind hl hc hp hset =>
      have hnext : t.nextJob = M.system.nextJob :=
        congrArg Book.nextJob (hs.book (reachable_ownership hM.reachable) ha)
      exact .behind hl hc hp fun x hx => hM.settled_step hs (hset x (hnext ▸ hx))
  | @call c l hc hi hj =>
    refine ⟨hM.call hc hi hj, ?_⟩
    have hs := step_cases (hM.step_next_call hc hi hj)
    cases hmeas with
    | inLoop hl hrun hnot hp =>
      have hne : c ≠ .joinJobs := by
        rintro rfl
        exact hnot (hc ▸ List.mem_cons_self)
      refine .inLoop hl ((hs.isRunning_eq (by simp) (by simpa using hne)).trans hrun) ?_ hp
      exact fun hm => hnot (hc ▸ List.mem_cons_of_mem c hm)
    | behind hl hcalls hp hset =>
      obtain hnil | hjoin := hcalls
      · rw [hc] at hnil
        cases hnil
      · rw [hc] at hjoin
        obtain ⟨rfl, rfl⟩ := List.cons.inj hjoin
        exact .behind hl (.inl rfl) hp fun x hx => hM.settled_step hs (hset x hx)
  | pass hc hi hl hlt =>
    cases hmeas with
    | inLoop _ hrun =>
      refine ⟨hM.pass hP hc hi hrun, .inLoop hl hrun (fun hm => ?_) hlt⟩
      obtain hm | hm := List.mem_append.mp hm
      · exact (setsUp_of_mem_frames F P _ _ hm).elim
      · simp at hm
    | behind hl' => exact absurd (hl.symm.trans hl') (by simp)
  | leave hc hi hl hle =>
    refine ⟨hM.leave hc hi, ?_⟩
    cases hmeas with
    | inLoop _ hrun _ hp =>
      exact .behind rfl (.inr rfl) (le_antisymm hp hle) (hM.rest hN hc hi hrun)
    | behind hl' => exact absurd (hl.symm.trans hl') (by simp)

/-- A measurement is one of whole frames: when the loop has been left, each of the `frameCount`
calls of `UpdateParallel` has run every function of its `F` frames to the end, the queues are
empty, and `JoinJobs` leaves no job behind. -/
theorem measure_leaves_nothing (hF : 0 < F) (hP : P ≤ 12) (hN : F * (7 + P) < 2 ^ 32)
    (h : (measureRunner n m F P frameCount).Reachable M) (hleft : M.left = true) :
    M.passes = frameCount ∧ M.system.jobsToDo = 0 ∧ (∀ k, M.system.holdings k = []) ∧
      (∀ j < M.system.nextJob, M.system.Done j) ∧
      ∀ call < frameCount, ∀ f : UpdateFunction,
        (M.system.ranIn Event.started (F * (7 + P)) call).count f.address = F * f.times P ∧
        (M.system.ranIn Event.returned (F * (7 + P)) call).count f.address = F * f.times P := by
  obtain ⟨hM, hmeas⟩ := measure_orderly hP hN h
  have ho := reachable_ownership hM.reachable
  have hr := reachable_recorded hM.reachable
  cases hmeas with
  | inLoop hl => exact absurd (hl.symm.trans hleft) (by simp)
  | behind _ hcalls hp hset =>
    have hdone {j : JobId} (hj : j < M.system.nextJob) : M.system.Done j :=
      hr.done_of_finished (hset j hj).finished
    have hnext : M.system.nextJob = M.passes * (F * (7 + P)) := by
      rw [← hM.numbered]
      obtain hc | hc := hcalls <;> rw [hc] <;> rfl
    refine ⟨hp, ?_, fun k => ?_, fun j hj => hdone hj, fun call hcall f => ?_⟩
    · have hclosed : M.system.openJobs = ∅ := by
        apply Finset.eq_empty_of_forall_notMem
        intro x hx
        have hlt := Finset.mem_range.mp (Finset.mem_filter.mp hx).1
        exact (hset x hlt).not_open (ho.mem_openJobs.mp hx)
      have hcount := reachable_openCounted hM.reachable
      rw [State.OpenCounted, hclosed] at hcount
      exact UInt32.toNat_inj.mp hcount
    · apply List.eq_nil_iff_forall_not_mem.mpr
      intro x hx
      have hl := ho.held hx
      have hlt : x < M.system.nextJob := ho.lt_nextJob (by rcases hl with hl | hl <;> simp [hl])
      rcases hl with hl | hl <;> exact absurd ((hset x hlt).finished.symm.trans hl) (by decide)
    · have hlt : call < M.passes := hp ▸ hcall
      have hfun : ∀ j < M.system.nextJob, _ := fun j hj => hM.functions hj
      refine ⟨count_ranIn hF hnext hlt hfun (fun j hj => ?_) f,
        count_ranIn hF hnext hlt hfun (fun j hj => ?_) f⟩
      · rw [← (hdone hj).starts, State.starts]
        exact List.countP_congr fun e _ => by rw [decide_eq_true_iff, startOf_iff]
      · rw [← (hdone hj).returns, State.returns]
        exact List.countP_congr fun e _ => by rw [decide_eq_true_iff, returnOf_iff]

/-- One frame is measured on eight workers. -/
theorem measure_leaves_nothing_one_frame : ∃ M : Runner 8, M.left = true ∧ M.passes = 1 ∧
    M.system.jobsToDo = 0 ∧ ∀ k, M.system.holdings k = [] := by
  have hrun : (run (guarded (fun _ _ => True) (measureNext .conditionVariable 1 1 1))
      ({ system := init, calls := [], left := false, passes := 0 } : Runner 8)
      (.loop :: callActions (updateParallel 1 1 0) ++
        [(4, 16), (2, 21), (5, 21), (3, 13), (6, 13), (0, 16), (1, 11), (7, 11)].flatMap (fun e =>
          .replicate e.2 (.inside (.worker e.1 {}))) ++ [.inside .frame, .loop])).any
      (fun M => M.left) = true := by decide +kernel
  obtain ⟨M, hM, hleft⟩ := (Option.any_eq_true _ _).mp hrun
  have hr : (measureRunner 8 .conditionVariable 1 1 1).Reachable M :=
    (reachable_of_run (.init rfl) hM).of_restrict
  obtain ⟨hp, h0, hempty, -⟩ :=
    measure_leaves_nothing (by decide) (by decide) (by decide) hr hleft
  exact ⟨M, hleft, hp, h0, hempty⟩

end Runner

end JobSystem
