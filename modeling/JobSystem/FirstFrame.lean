import JobSystem.Buried
import JobSystem.GuardedWait
import JobSystem.Hang
import JobSystem.MainLoop
import JobSystem.ThreadCount

/-! When `main_runner` can render at all: whether some interleaving starts the rendering job of the
first frame is decided by the number of workers that the constructor starts and by the number of
particle jobs. -/
namespace JobSystem
open TransitionSystem
variable {n : ℕ} {m : WaitMode} {F F' P P' : ℕ} {M N : Runner n} {r : RunnerAction n} {j : JobId}
  {s t : State n} {l : List (RunnerAction n)}

/-- A step within a call does not see what is to be called behind it. -/
theorem runnerNext_append (tail : List Call) (hr : r ≠ .loop)
    (h : runnerNext m F P M r = some N) :
    runnerNext m F' P' { M with calls := M.calls ++ tail } r =
      some { N with calls := N.calls ++ tail } := by
  cases r with
  | inside a =>
    cases a with
    | call c => exact absurd h (by simp [runnerNext])
    | worker | frame | quit | wakeWorker | wakeFrame =>
      simp only [runnerNext, Option.map_eq_some_iff] at h ⊢
      obtain ⟨t, ht, rfl⟩ := h
      exact ⟨t, ht, rfl⟩
  | call =>
    cases hc : M.calls with
    | nil => simp [runnerNext, hc] at h
    | cons c l =>
      simp only [runnerNext, hc, Option.map_eq_some_iff] at h
      obtain ⟨t, ht, rfl⟩ := h
      simp [runnerNext, ht]
  | loop => exact absurd rfl hr

/-- A call, or the loop, does not see where in `WaitForJob` the workers are. -/
theorem runnerNext_collapse (m' : WaitMode) (hr : ∀ a, r ≠ .inside a) :
    runnerNext m' F P { M with system := M.system.collapse } r =
      (runnerNext m F P M r).map fun N => { N with system := N.system.collapse } := by
  cases r with
  | inside a => exact absurd rfl (hr a)
  | call =>
    cases hc : M.calls with
    | nil => simp [runnerNext, hc]
    | cons c l =>
      simp only [runnerNext, hc, next, State.collapse_frame, State.collapse_joined,
        callStep_collapse]
      split <;> rfl
  | loop =>
    simp only [runnerNext, State.collapse_frame, State.collapse_isRunning, State.collapse_nextJob]
    split
    · split <;> rfl
    · rfl

namespace Runner

/-- The next `AddJob`, as a whole. -/
def addNext : List (RunnerAction n) := .call :: .replicate 6 (.inside .frame)

/-- The next `i` steps of worker `k`. -/
def work (k : Fin n) (i : ℕ) : List (RunnerAction n) := (workerActions k i).map .inside

/-- The worker holds the particle job while the rendering job is pushed, and later the physics job
while the animation job is pushed; what is pushed meanwhile comes to lie in front of it. -/
def renderingActions (k : Fin n) : ℕ → List (RunnerAction n)
  | 0 => .replicate 13 .call ++ addNext ++ addNext ++ work k 5 ++ addNext ++ work k 5 ++ addNext ++
      work k 30 ++ addNext ++ addNext ++ work k 52
  | _ => .replicate 16 .call ++ addNext ++ work k 5 ++ addNext ++ work k 5 ++ addNext ++ work k 2 ++
      addNext ++ work k 5 ++ addNext ++ work k 33 ++ addNext ++ addNext ++ work k 70

theorem rendering_of_renderingActions (hP : P ≤ 1) :
    (run (runnerNext (n := 1) .predicate 1 P)
      { system := init, calls := frameCalls P 0, left := false, passes := 1 }
      (renderingActions 0 P)).any (fun M => .start 0 5 ∈ M.system.history) = true := by
  obtain rfl | rfl := Nat.le_one_iff_eq_zero_or_eq_one.mp hP <;> decide +kernel

theorem loop_not_mem_renderingActions (k : Fin n) (P : ℕ) : .loop ∉ renderingActions k P := by
  cases P <;> simp only [renderingActions, addNext, work, List.mem_append, List.mem_cons,
    List.mem_replicate, List.mem_map] <;> simp

variable [NeZero n]

/-- What is reached within the calls is reached with more of them behind. -/
theorem reachable_of_run_append (tail : List Call) (hl : .loop ∉ l)
    (hM : (mainRunner n m F' P').Reachable { M with calls := M.calls ++ tail })
    (h : run (runnerNext m F P) M l = some N) :
    (mainRunner n m F' P').Reachable { N with calls := N.calls ++ tail } := by
  induction l generalizing M with
  | nil =>
    obtain rfl := Option.some.inj h
    exact hM
  | cons r l ih =>
    obtain ⟨hr, hl⟩ := List.ne_and_not_mem_of_not_mem_cons hl
    obtain ⟨L, hL, h⟩ := Option.bind_eq_some_iff.mp h
    exact ih hl (hM.step (runnerNext_append tail hr.symm hL)) h

/-- `main_runner` over workers that wait in one step does nothing that it does not do over
condition variables. -/
theorem reachable_of_guarded (h : (mainRunner n .predicate F P).Reachable M) :
    (mainRunner n m F P).Reachable M := by
  cases m with
  | predicate => exact h
  | conditionVariable =>
    refine h.mono (fun _ hi => hi) fun M r N hN => ?_
    have hnext : runnerNext .predicate F P M r = some N := hN
    show runnerNext .conditionVariable F P M r = some N
    cases r with
    | inside a =>
      cases a with
      | worker k c =>
        obtain ⟨t, ht, rfl⟩ := Option.map_eq_some_iff.mp hnext
        exact Option.map_eq_some_iff.mpr ⟨t, workerStep_guarded ht, rfl⟩
      | call | frame | quit | wakeWorker | wakeFrame => exact hnext
    | call | loop => exact hnext

/-- And with the waiting of the workers forgotten, nothing less. -/
theorem reachable_guarded (h : (mainRunner n m F P).Reachable M) :
    (mainRunner n .predicate F P).Reachable { M with system := M.system.collapse } := by
  refine h.invariant (I := fun M => (mainRunner n .predicate F P).Reachable
    { M with system := M.system.collapse }) (fun M hi => ?_) fun M r N _ ih hN => ?_
  · rw [show M = _ from hi]
    exact .init rfl
  · have hnext : runnerNext m F P M r = some N := hN
    by_cases hr : ∃ a, r = .inside a
    · obtain ⟨a, rfl⟩ := hr
      obtain ⟨ha, t, ht, rfl⟩ := of_inside hN
      obtain ⟨-, he⟩ | hstep := collapse_step (Orderly.step_inside ha ht)
      · rw [he]
        exact ih
      · exact ih.step (step_inside ha hstep)
    · refine ih.step (a := r) ?_
      show runnerNext .predicate F P _ r = _
      rw [runnerNext_collapse (m := m) .predicate fun a ha => hr ⟨a, ha⟩, hnext]
      rfl

/-- The workers go on while `main_runner` does not. -/
theorem reachable_of_path (hM : (mainRunner n m F P).Reachable M)
    (h : (jobSystem n m).Path Action.IsWorker M.system t) :
    (mainRunner n m F P).Reachable { M with system := t } := by
  generalize hs : M.system = s at h
  induction h generalizing M with
  | refl s =>
    subst hs
    exact hM
  | @head s a u t ha ht _ ih =>
    subst hs
    obtain ⟨k, c, rfl⟩ := ha
    exact ih (M := { M with system := u }) (hM.step (step_inside (by simp) ht)) rfl

/-- Two workers or more can work off the first frame, whatever they have done while it was set
up. -/
theorem exists_rendering (hn : 2 ≤ n) (hF : 0 < F) (hP : P ≤ 12) :
    ∃ M : Runner n, (mainRunner n .predicate F P).Reachable M ∧
      ∃ k, .start k 5 ∈ M.system.history := by
  obtain ⟨N, hN, hidle, hcalls⟩ := (setsUpUnheard_first n F P).exists_wait hP
  let M : Runner n :=
    { N with system := N.system.collapse.gotoFrame .waitPredicate, calls := [] }
  have hwait : (mainRunner n .predicate F P).step
      { N with system := N.system.collapse } .call M := by
    show runnerNext .predicate F P _ .call = _
    simp [runnerNext, hcalls, next, hidle, callStep, M]
  have hM := (reachable_guarded hN.reachable).step hwait
  have hord := reachable_orderly hP hM
  have hpasses := (hord.placed.waiting rfl).2
  have hnext : M.system.nextJob = M.passes * (F * (7 + P)) := hord.numbered
  have hlt : 5 < M.system.nextJob := by
    rw [hnext]
    calc 5 < 7 + P := by omega
      _ ≤ F * (7 + P) := Nat.le_mul_of_pos_left _ hF
      _ ≤ M.passes * (F * (7 + P)) := Nat.le_mul_of_pos_left _ hpasses
  have hsub := hord.submitted_of_calls_nil rfl hlt
  have hrun : M.system.isRunning = true := hN.parked.isRunning
  have hworking : M.system.Working :=
    ⟨hrun, (reachable_shutdown hord.reachable).not_stopped hrun, rfl⟩
  obtain ⟨t, hpath, hfin⟩ := exists_all_finished hn _ hord.reachable hworking rfl
  have hstarted : t.Started 5 := .inr (hfin 5 (runnable_of_calls_nil hP hM rfl hsub))
  have hrec := reachable_recorded (hpath.reachable hord.reachable)
  obtain ⟨e, he, hstart⟩ := List.mem_filterMap.mp (hrec.start_mem_order.mpr hstarted)
  refine ⟨_, reachable_of_path hM hpath, ?_⟩
  cases e with
  | start k j =>
    obtain rfl : j = 5 := by simpa [Event.order] using hstart
    exact ⟨k, he⟩
  | _ => simp [Event.order] at hstart

/-- A lone worker can come to the rendering job past one particle job, in one interleaving. -/
theorem exists_rendering_alone (hF : 0 < F) (hP : P ≤ 1) :
    ∃ M : Runner 1, (mainRunner 1 .predicate F P).Reachable M ∧
      .start 0 5 ∈ M.system.history := by
  obtain ⟨N, hN, hs⟩ := (Option.any_eq_true _ _).mp (rendering_of_renderingActions hP)
  obtain ⟨tail, htail⟩ : ∃ tail, updateParallel F P 0 = frameCalls P 0 ++ tail := by
    obtain ⟨F, rfl⟩ := Nat.exists_eq_add_of_le' hF
    rw [updateParallel, List.range_succ_eq_map, List.flatMap_cons, Nat.zero_mul, Nat.add_zero,
      List.append_assoc]
    exact ⟨_, rfl⟩
  have hloop : (mainRunner 1 .predicate F P).step
      { system := init, calls := [], left := false, passes := 0 } .loop
      { system := init, calls := frameCalls P 0 ++ tail, left := false, passes := 1 } := by
    rw [← htail]
    rfl
  have hreach := reachable_of_run_append tail (loop_not_mem_renderingActions 0 P)
    (.step (.init rfl) hloop) hN
  exact ⟨_, hreach, of_decide_eq_true hs⟩

/-- Too many particle jobs end the process, and a lone worker buries two of them. -/
theorem renders_iff (m : WaitMode) (hF : 0 < F) :
    (∃ M : Runner n, (mainRunner n m F P).Reachable M ∧ ∃ k, .start k 5 ∈ M.system.history) ↔
      P ≤ 12 ∧ (P ≤ 1 ∨ 2 ≤ n) := by
  have hpos := NeZero.pos n
  constructor
  · rintro ⟨M, hM, k, hs⟩
    have hP : P ≤ 12 := by
      by_contra hmany
      have hover := reachable_overfull hF (by omega) hM
      exact hover.stage.idle.unstarted hover.reachable k 5 hs
    refine ⟨hP, ?_⟩
    by_contra hnot
    obtain rfl : n = 1 := by omega
    have hord := reachable_orderly hP hM
    apply (reachable_rendering hF (by omega) hP hM).unstarted hord hP
    exact (reachable_recorded hord.reachable).start_mem_order.mp (start_mem_order hs)
  · rintro ⟨hP, hone⟩
    by_cases hn : 2 ≤ n
    · obtain ⟨M, hM, hs⟩ := exists_rendering hn hF hP
      exact ⟨M, reachable_of_guarded hM, hs⟩
    · obtain rfl : n = 1 := by omega
      obtain ⟨M, hM, hs⟩ := exists_rendering_alone hF (hone.resolve_right hn)
      exact ⟨M, reachable_of_guarded hM, 0, hs⟩

end Runner

/-- The constructor starts a lone worker when it is asked for one, or when the hardware reports one
thread or two. -/
theorem two_le_threadCount (h : UInt32) (d : Int32) :
    2 ≤ (threadCount h d).toNat ↔ d.toInt ≠ 1 ∧ h.toNat ≠ 1 ∧ h.toNat ≠ 2 := by
  have h0 : h = 0 ↔ h.toNat = 0 := by rw [← UInt32.toNat_inj, UInt32.toNat_zero]
  rw [threadCount_toNat, availableThreads_toNat, usableThreads]
  simp only [h0]
  split_ifs <;> omega

/-- On hardware with `h` threads and for a command line that asks for `d` workers, the program can
render its first frame, in some interleaving, exactly if there are no more than twelve particle
jobs, and not more than one for a lone worker. -/
theorem first_frame_rendered_iff (h : UInt32) (d : Int32) (m : WaitMode) (hF : 0 < F) :
    (∃ M : Runner (threadCount h d).toNat, (mainRunner _ m F P).Reachable M ∧
      ∃ k, .start k 5 ∈ M.system.history) ↔
        P ≤ 12 ∧ (P ≤ 1 ∨ d.toInt ≠ 1 ∧ h.toNat ≠ 1 ∧ h.toNat ≠ 2) := by
  rw [Runner.renders_iff m hF, two_le_threadCount]

theorem first_frame_rendered_four_threads : ∃ M : Runner (threadCount 4 0).toNat,
    (mainRunner _ .conditionVariable 1 12).Reachable M ∧ ∃ k, .start k 5 ∈ M.system.history :=
  (first_frame_rendered_iff 4 0 .conditionVariable Nat.one_pos).mpr (by decide)

end JobSystem
