import JobSystem.OpenJobs
import JobSystem.UpdateParallel
import Mathlib.Order.Interval.Finset.Nat

/-! The thread `main_runner` (`main.cpp`) on top of the job system: it calls `UpdateParallel` while
`isRunning` and then `JoinJobs`. What it relies on holds in all its runs, however its calls are
interleaved with the workers: it keeps the promise of `SetupRule`, and between two of its frames
everything has ended. -/
namespace JobSystem
open TransitionSystem

structure Runner (n : ℕ) where
  system : State n
  /-- What `UpdateParallel` has still to call, or behind the loop `JoinJobs`. -/
  calls : List Call
  /-- The loop has been left. -/
  left : Bool
  /-- Bookkeeping: the calls of `UpdateParallel`. -/
  passes : ℕ

variable {n : ℕ} {m : WaitMode} {F P : ℕ} {M N : Runner n} {k : Fin n} {j x : JobId}
  {s t : State n} {a : Action n} {c : Call} {l : List Call}

inductive RunnerAction (n : ℕ) where
  /-- A step of a worker, of the call in progress, or from outside. -/
  | inside (a : Action n)
  /-- The next call. -/
  | call
  /-- `while (isRunning)` -/
  | loop

def runnerNext (m : WaitMode) (F P : ℕ) (M : Runner n) : RunnerAction n → Option (Runner n)
  | .inside (.call _) => none
  | .inside a => (next m M.system a).map fun s => { M with system := s }
  | .call =>
    match M.calls with
    | [] => none
    | c :: l => (next m M.system (.call c)).map fun s => { M with system := s, calls := l }
  | .loop =>
    if M.calls = [] ∧ M.system.frame = .idle ∧ M.left = false then
      if M.system.isRunning then
        some { M with calls := updateParallel F P M.system.nextJob, passes := M.passes + 1 }
      else some { M with calls := [.joinJobs], left := true }
    else none

/-- `main_runner` with `SIMULATENOUS_FRAME_COUNT` `F` and `PARTICLE_JOB_COUNT` `P`. -/
def mainRunner (n : ℕ) [NeZero n] (m : WaitMode) (F P : ℕ) : System (Runner n) (RunnerAction n) :=
  ofNext { system := init, calls := [], left := false, passes := 0 } (runnerNext m F P)

inductive RunnerCase (m : WaitMode) (F P : ℕ) (M : Runner n) : Runner n → Prop
  | inside {a : Action n} {t : State n} : (∀ c, a ≠ .call c) → next m M.system a = some t →
      RunnerCase m F P M { M with system := t }
  | call {c : Call} {l : List Call} : M.calls = c :: l → M.system.frame = .idle →
      (c = .joinJobs → M.system.joined = false) →
      RunnerCase m F P M { M with system := callStep M.system c, calls := l }
  | pass : M.calls = [] → M.system.frame = .idle → M.system.isRunning = true →
      RunnerCase m F P M
        { M with calls := updateParallel F P M.system.nextJob, passes := M.passes + 1 }
  | leave : M.calls = [] → M.system.frame = .idle → M.system.isRunning = false →
      RunnerCase m F P M { M with calls := [.joinJobs], left := true }

theorem runner_cases [NeZero n] {r : RunnerAction n} (h : (mainRunner n m F P).step M r N) :
    RunnerCase m F P M N := by
  change runnerNext m F P M r = some N at h
  cases r with
  | inside a =>
    cases a with
    | call c => exact absurd h (by simp [runnerNext])
    | worker | frame | quit | wakeWorker | wakeFrame =>
      simp only [runnerNext, Option.map_eq_some_iff] at h
      obtain ⟨t, ht, rfl⟩ := h
      exact .inside (by simp) ht
  | call =>
    cases hl : M.calls with
    | nil => simp [runnerNext, hl] at h
    | cons c l =>
      simp only [runnerNext, hl] at h
      obtain ⟨t, ht, rfl⟩ := Option.map_eq_some_iff.mp h
      obtain ⟨⟨hi, hj⟩, ht⟩ := Option.ite_none_right_eq_some.mp ht
      cases ht
      exact .call hl hi hj
  | loop =>
    obtain ⟨⟨hl, hi, -⟩, h⟩ := Option.ite_none_right_eq_some.mp h
    cases hr : M.system.isRunning <;> simp only [hr] at h <;> cases h
    · exact .leave hl hi hr
    · exact .pass hl hi hr

/-- In `WaitForAllJobs`. -/
def FramePc.waiting : FramePc n → Bool
  | .waitPredicate | .waitBlock | .blocked | .notified => true
  | _ => false

/-- Within a call the frame thread goes from one of its parts to the next and ends idle. -/
structure FramePhase (s t : State n) : Prop where
  exiting : t.frame.inExit = true → s.frame.inExit = true
  waiting : t.frame.waiting = true → s.frame.waiting = true
  joining : t.frame.joining = true → s.frame.joining = true
  addingJob : t.frame.addingJob = true → s.frame.addingJob = true
  idle : t.frame = .idle → s.frame = .idle ∨ s.frame = .waitPredicate ∧ s.allJobsDone = true ∨
    s.frame.addingJob = true ∨ s.frame.joining = true

theorem FrameStep.phase (h : FrameStep s t) : FramePhase s t := by
  cases h with
  | control hp hc =>
    cases hc <;> constructor <;>
      simp_all [FramePc.inExit, FramePc.waiting, FramePc.joining, FramePc.addingJob]
  | write hp | pushLock hp | pushBack hp | pushNotify hp | pushUnlock hp | index hp | stop hp
  | wakeOne _ hp | joined _ hp =>
    constructor <;>
      simp [hp, FramePc.inExit, FramePc.waiting, FramePc.joining, FramePc.addingJob]

theorem StepCase.phase (h : StepCase m s a t) (ha : ∀ c, a ≠ .call c) : FramePhase s t := by
  obtain he | ⟨hb, hn⟩ | ⟨-, hf⟩ | ⟨c, hc, -⟩ := h.frame_moves
  · constructor <;> rw [he]
    · exact id
    · exact id
    · exact id
    · exact id
    · exact .inl
  · constructor <;>
      simp [hb, hn, FramePc.inExit, FramePc.waiting, FramePc.joining, FramePc.addingJob]
  · exact hf.phase
  · exact absurd hc (ha c)

/-- The job has been deleted and counted down. -/
structure State.Settled (s : State n) (x : JobId) : Prop where
  finished : s.lifecycle x = .finished
  countedDown : ∀ k, (s.worker k).countingDown ≠ some x

theorem State.Settled.not_open (h : s.Settled x) : ¬ s.Open x := by
  rintro (hl | hl | ⟨k, hk⟩)
  · simp [h.finished] at hl
  · simp [h.finished] at hl
  · exact h.countedDown k hk

theorem WorkerStep.countingDown_ne (h : WorkerStep m k s t) (ho : Ownership s) (hx : s.Settled x) :
    (t.worker k).countingDown ≠ some x := by
  cases h with
  | control hp hc =>
    have hk := hx.countedDown k
    rwa [State.goto_self, hc.sameWork.countingDown, ← hp]
  | @delete j i hp =>
    have hj : s.lifecycle j = .running := ho.running_of_startedJob (k := k) (by rw [hp]; rfl)
    rw [State.goto_self]
    rintro he
    obtain rfl := Option.some.inj he
    exact absurd (hj.symm.trans hx.finished) (by decide)
  | pushUnlock =>
    rw [State.goto_self, (idle_done _).countingDown]
    exact fun he => by cases he
  | steal =>
    rw [State.goto_self]
    cases (s.queues k).steal.1 <;> exact fun he => by cases he
  | _ => simp [WorkerPc.countingDown]

/-- What is settled stays settled. -/
theorem StepCase.settled (h : StepCase m s a t) (ho : Ownership s) (hx : s.Settled x) :
    t.Settled x := by
  refine ⟨?_, fun k => ?_⟩
  · have hf := hx.finished
    cases h with
    | @worker k _ _ h =>
      cases h with
      | @start j hp | @delete j _ hp =>
        by_cases hj : x = j
        · subst hj
          exact absurd hf (ho.not_finished_of_hand (k := k) (by rw [hp]; rfl))
        · simpa [hj] using hf
      | _ => exact hf
    | frame h => cases h <;> exact hf
    | createJob f =>
      have hne : x ≠ s.nextJob := (ho.lt_nextJob (by simp [hf])).ne
      simpa [callStep, hne] using hf
    | @addDependency d y => exact (addDependency_onlyJobs s d y).lifecycle ▸ hf
    | @addJob j _ hj =>
      have hne : x ≠ j := by rintro rfl; simp [hj] at hf
      simpa [callStep, hne] using hf
    | _ => exact hf
  · obtain he | ⟨-, hn⟩ | ⟨c, -, hw⟩ := h.worker_moves k
    · rw [he]
      exact hx.countedDown k
    · rw [hn]
      exact fun he => by cases he
    · exact hw.countingDown_ne ho hx

/-- A call that the book allows keeps the promise. -/
theorem setupRule_of_allows {plan : Plan} (h : s.book.Allows plan c) : SetupRule s (.call c) := by
  cases c with
  | addDependency d x => exact ⟨h.1, h.2.1⟩
  | addJob j => exact h.1
  | createJob | waitForAllJobs | joinJobs => trivial

theorem book_of_allows {plan : Plan} (h : s.book.Allows plan c) :
    (callStep s c).book = s.book.after c :=
  callStep_book s c fun d x hc => by subst hc; exact h.2.2.1

/-- A call that sets up jobs. -/
def Call.SetsUp : Call → Prop
  | .createJob _ | .addDependency _ _ | .addJob _ => True
  | .waitForAllJobs | .joinJobs => False

/-- Such a call leaves the frame thread idle or in `AddJob`. -/
theorem Call.SetsUp.frame {plan : Plan} (h : c.SetsUp) (hi : s.frame = .idle)
    (hallow : s.book.Allows plan c) :
    (callStep s c).frame = .idle ∨ ∃ j, (callStep s c).frame = .addJobWrite j := by
  cases c with
  | createJob f => exact .inl hi
  | addDependency d x =>
    have hm : (s.jobs x).dependentCount < maxDependentCount := hallow.2.2.1
    rw [callStep_addDependency hm]
    exact .inl hi
  | addJob j => exact .inr ⟨j, rfl⟩
  | waitForAllJobs | joinJobs => exact h.elim

/-- What is left of a call of `UpdateParallel` or of `JoinJobs`. -/
inductive Remaining : List Call → Prop
  | done : Remaining []
  | wait : Remaining [.waitForAllJobs]
  | join : Remaining [.joinJobs]
  | setUp {c : Call} {l : List Call} : c.SetsUp → l ≠ [] → Remaining l → Remaining (c :: l)

theorem remaining_append (hl : ∀ c ∈ l, c.SetsUp) : Remaining (l ++ [.waitForAllJobs]) := by
  induction l with
  | nil => exact .wait
  | cons c l ih =>
    obtain ⟨hc, hl⟩ := List.forall_mem_cons.mp hl
    exact .setUp hc (by simp) (ih hl)

theorem setsUp_of_mem_frames (F P : ℕ) (b : JobId) :
    ∀ c ∈ (List.range F).flatMap fun i => frameCalls P (b + i * (7 + P)), c.SetsUp := by
  intro c hc
  obtain ⟨i, -, hc⟩ := List.mem_flatMap.mp hc
  rw [frameCalls_eq, frameStart] at hc
  simp only [List.mem_append, List.mem_map, List.mem_flatMap, particleCalls, List.mem_cons,
    List.not_mem_nil, or_false] at hc
  obtain ((⟨o, -, rfl⟩ | ⟨e, -, rfl⟩) | ⟨o, -, rfl | rfl | rfl | rfl⟩) | ⟨j, -, rfl⟩ := hc <;>
    trivial

namespace Runner

/-- Where the frame thread is in its calls. -/
structure Placed (M : Runner n) : Prop where
  exiting : M.system.frame.inExit = false
  waiting : M.system.frame.waiting = true → M.calls = [] ∧ 0 < M.passes
  joining : M.system.frame.joining = true → M.calls = []
  addingJob : M.system.frame.addingJob = true → M.calls ≠ []
  started : .waitForAllJobs ∈ M.calls → 0 < M.passes
  remaining : Remaining M.calls

/-- What holds in all runs of `main_runner`, in part only if `jobsToDo` can count the jobs of one
call of `UpdateParallel`. -/
structure Orderly [NeZero n] (m : WaitMode) (F P : ℕ) (M : Runner n) : Prop where
  reachable : (jobSystem n m).Reachable M.system
  kept : M.system.book.Kept (framePlan P)
  follows : M.system.book.Follows (framePlan P) M.calls
  /-- After the calls that are left, all created jobs are added. -/
  added : ∀ j, ¬ (M.system.book.afterAll M.calls).created j
  numbered : (M.system.book.afterAll M.calls).nextJob = M.passes * (F * (7 + P))
  /-- The jobs of earlier frames. -/
  past : F * (7 + P) < 2 ^ 32 → ∀ x < (M.passes - 1) * (F * (7 + P)), M.system.Settled x
  placed : M.Placed
  /-- Between two frames. -/
  rest : F * (7 + P) < 2 ^ 32 → M.calls = [] → M.system.frame = .idle → M.system.isRunning = true →
    ∀ x < M.system.nextJob, M.system.Settled x

namespace Orderly
variable [NeZero n]

theorem init : Orderly m F P ({ system := init, calls := [], left := false, passes := 0 } :
    Runner n) where
  reachable := .init rfl
  kept :=
    { functions := fun hj => absurd hj (Nat.not_lt_zero _)
      needs := fun hj => absurd hj (Nat.not_lt_zero _)
      related := fun hd => absurd hd (List.not_mem_nil) }
  follows := trivial
  added j := by simp [State.book, JobSystem.init]
  numbered := (Nat.zero_mul _).symm
  past _ x hx := by simp at hx
  placed := by
    constructor <;> simp [JobSystem.init, FramePc.inExit, FramePc.waiting, FramePc.joining,
      FramePc.addingJob, Remaining.done]
  rest _ _ _ _ x hx := absurd hx (Nat.not_lt_zero x)

theorem nextJob_le (h : M.Orderly m F P) : M.system.nextJob ≤ M.passes * (F * (7 + P)) :=
  h.numbered ▸ M.system.book.nextJob_le_afterAll M.calls

/-- The open jobs are of the current frame. -/
theorem card_openJobs (h : M.Orderly m F P) (hN : F * (7 + P) < 2 ^ 32) :
    M.system.openJobs.card ≤ F * (7 + P) := by
  have ho := reachable_ownership h.reachable
  have hsub : M.system.openJobs ⊆
      Finset.Ico ((M.passes - 1) * (F * (7 + P))) (M.passes * (F * (7 + P))) := by
    intro x hx
    refine Finset.mem_Ico.mpr ⟨Nat.le_of_not_lt fun hlt => ?_, ?_⟩
    · exact (h.past hN x hlt).not_open (ho.mem_openJobs.mp hx)
    · exact (Finset.mem_range.mp (Finset.mem_filter.mp hx).1).trans_le h.nextJob_le
  calc M.system.openJobs.card
      ≤ M.passes * (F * (7 + P)) - (M.passes - 1) * (F * (7 + P)) := by
        rw [← Nat.card_Ico]
        exact Finset.card_le_card hsub
    _ ≤ F * (7 + P) := by
        rw [← Nat.sub_mul]
        exact (Nat.mul_le_mul_right _ (by omega)).trans_eq (Nat.one_mul _)

/-- Once all calls are made and `jobsToDo` is 0, everything is settled. -/
theorem settled_of_zero (h : M.Orderly m F P) (hN : F * (7 + P) < 2 ^ 32) (hl : M.calls = [])
    (h0 : M.system.jobsToDo = 0) (hx : x < M.system.nextJob) :
    M.system.Done x ∧ M.system.Settled x := by
  have ho := reachable_ownership h.reachable
  have hcount := (reachable_openCounted h.reachable).exact ((h.card_openJobs hN).trans_lt hN)
  have hempty : M.system.openJobs = ∅ := by
    rw [h0] at hcount
    exact Finset.card_eq_zero.mp hcount.symm
  have hclosed : ¬ M.system.Open x := fun hopen => by
    have hmem := ho.mem_openJobs.mpr hopen
    simp [hempty] at hmem
  have hsub : M.system.Submitted x := by
    refine ⟨fun hu => absurd (ho.unallocated.mp hu) (Nat.not_le_of_lt hx), ?_⟩
    have hadded := h.added x
    rwa [hl] at hadded
  have hdone := (reachable_recorded h.reachable).done_of_closed hclosed hsub
  exact ⟨hdone, hdone.lifecycle, fun k hk => hclosed (.inr (.inr ⟨k, hk⟩))⟩

theorem settled_step (h : M.Orderly m F P) (ht : StepCase m M.system a t)
    (hx : M.system.Settled x) : t.Settled x :=
  ht.settled (reachable_ownership h.reachable) hx

theorem step_inside (ha : ∀ c, a ≠ .call c) (ht : next m s a = some t) :
    (jobSystem n m).step s a t := by
  refine ⟨?_, ht⟩
  cases a with
  | call c => exact absurd rfl (ha c)
  | worker | frame | quit | wakeWorker | wakeFrame => trivial

theorem allows (h : M.Orderly m F P) (hc : M.calls = c :: l) :
    M.system.book.Allows (framePlan P) c ∧ (M.system.book.after c).Follows (framePlan P) l := by
  have hf := h.follows
  rwa [hc] at hf

theorem step_next_call (h : M.Orderly m F P) (hc : M.calls = c :: l) (hi : M.system.frame = .idle)
    (hj : c = .joinJobs → M.system.joined = false) :
    (jobSystem n m).step M.system (.call c) (callStep M.system c) :=
  step_call (setupRule_of_allows (h.allows hc).1) hi hj

/-- A step of `main_runner` is one of the job system that keeps the promise, or none. -/
theorem system_step (h : M.Orderly m F P) (hN : RunnerCase m F P M N) :
    N.system = M.system ∨ ∃ a, (jobSystem n m).step M.system a N.system := by
  cases hN with
  | inside ha ht => exact .inr ⟨_, step_inside ha ht⟩
  | call hc hi hj => exact .inr ⟨_, h.step_next_call hc hi hj⟩
  | pass | leave => exact .inl rfl

/-- A step of a worker, of the call in progress, or from outside. -/
theorem inside (h : M.Orderly m F P) (ha : ∀ c, a ≠ .call c) (ht : next m M.system a = some t) :
    Orderly m F P { M with system := t } := by
  have hstep := step_inside ha ht
  have hs := step_cases hstep
  have hbook : t.book = M.system.book := hs.book (reachable_ownership h.reachable) ha
  have hnext : t.nextJob = M.system.nextJob := congrArg Book.nextJob hbook
  have hrun : t.isRunning = true → M.system.isRunning = true := fun hr => by
    by_contra hn
    have := hs.isRunning (Bool.eq_false_of_not_eq_true hn)
    simp [hr] at this
  have hphase := hs.phase ha
  have hsettled {x} (hx : M.system.Settled x) : t.Settled x := h.settled_step hs hx
  refine
    { reachable := h.reachable.step hstep
      kept := hbook ▸ h.kept
      follows := hbook ▸ h.follows
      added := hbook ▸ h.added
      numbered := hbook ▸ h.numbered
      past := fun hN x hx => hsettled (h.past hN x hx)
      placed := ⟨Bool.eq_false_of_not_eq_true fun hx => by
        simpa [h.placed.exiting] using hphase.exiting hx, h.placed.waiting ∘ hphase.waiting,
        h.placed.joining ∘ hphase.joining, h.placed.addingJob ∘ hphase.addingJob,
        h.placed.started, h.placed.remaining⟩
      rest := fun hN hl hi hr x hx => hsettled ?_ }
  have hx' : x < M.system.nextJob := hnext ▸ hx
  obtain hi' | ⟨-, hdone⟩ | hadding | hjoining := hphase.idle hi
  · exact h.rest hN hl hi' (hrun hr) x hx'
  · have h0 : M.system.jobsToDo = 0 := by
      simpa [State.allJobsDone, hrun hr] using hdone
    exact (h.settled_of_zero hN hl h0 hx').2
  · exact absurd hl (h.placed.addingJob hadding)
  · have := (reachable_shutdown h.reachable).joining hjoining
    simp [hrun hr] at this

/-- Where the frame thread is after a call that the plan allows. -/
theorem placed_call (h : M.Orderly m F P) (hc : M.calls = c :: l) (hi : M.system.frame = .idle)
    (hallow : M.system.book.Allows (framePlan P) c) :
    Placed { M with system := callStep M.system c, calls := l } := by
  have hrem := h.placed.remaining
  have hstart : .waitForAllJobs ∈ l → 0 < M.passes := fun hl =>
    h.placed.started (hc ▸ List.mem_cons_of_mem c hl)
  rw [hc] at hrem
  cases hrem with
  | wait =>
    have hpos : 0 < M.passes := h.placed.started (hc ▸ List.mem_cons_self)
    exact ⟨rfl, fun _ => ⟨rfl, hpos⟩, fun _ => rfl,
      by simp [callStep, FramePc.addingJob], by simp, .done⟩
  | join =>
    exact ⟨rfl, by simp [callStep, FramePc.waiting], fun _ => rfl,
      by simp [callStep, FramePc.addingJob], by simp, .done⟩
  | setUp hsets hne hrem =>
    obtain hf | ⟨j, hf⟩ := hsets.frame hi hallow
    all_goals
      refine ⟨?_, ?_, ?_, fun _ => hne, hstart, hrem⟩ <;>
        simp [hf, FramePc.inExit, FramePc.waiting, FramePc.joining]

/-- The next call. -/
theorem call (h : M.Orderly m F P) (hc : M.calls = c :: l) (hi : M.system.frame = .idle)
    (hj : c = .joinJobs → M.system.joined = false) :
    Orderly m F P { M with system := callStep M.system c, calls := l } := by
  obtain ⟨hallow, hfollows⟩ := h.allows hc
  have hbook := book_of_allows hallow
  have hstep := h.step_next_call hc hi hj
  have hafter : (callStep M.system c).book.afterAll l = M.system.book.afterAll M.calls := by
    rw [hbook, hc, Book.afterAll_cons]
  exact
    { reachable := h.reachable.step hstep
      kept := hbook ▸ h.kept.after hallow
      follows := hbook ▸ hfollows
      added := fun j => by rw [hafter]; exact h.added j
      numbered := by rw [hafter]; exact h.numbered
      past := fun hN x hx => h.settled_step (step_cases hstep) (h.past hN x hx)
      placed := h.placed_call hc hi hallow
      rest := fun _ hl hidle => by
        have hrem := h.placed.remaining
        rw [hc, show l = [] from hl] at hrem
        cases hrem with
        | wait | join => cases hidle
        | setUp _ hne => exact absurd rfl hne }

/-- The next call of `UpdateParallel`. -/
theorem pass (h : M.Orderly m F P) (hP : P ≤ 12) (hc : M.calls = []) (hi : M.system.frame = .idle)
    (hr : M.system.isRunning = true) :
    Orderly m F P
      { M with calls := updateParallel F P M.system.nextJob, passes := M.passes + 1 } := by
  have hnumber : M.system.nextJob = M.passes * (F * (7 + P)) := by
    have hn := h.numbered
    rwa [hc] at hn
  have hnone : ∀ j, ¬ M.system.book.created j := by
    have ha := h.added
    rwa [hc] at ha
  have hB : 7 + P ∣ M.system.nextJob := by
    rw [hnumber, ← Nat.mul_assoc]
    exact Nat.dvd_mul_left (7 + P) _
  obtain ⟨hfollows, hnext, hadded⟩ := frames_follow F hB hP (b := M.system.book) rfl hnone
  have hrem := remaining_append (setsUp_of_mem_frames F P M.system.nextJob)
  refine
    { reachable := h.reachable
      kept := h.kept
      follows := Book.follows_append.mpr ⟨hfollows, trivial, trivial⟩
      added := fun j => ?_
      numbered := ?_
      past := fun hN x hx => h.rest hN hc hi hr x (hnumber ▸ hx)
      placed := ⟨h.placed.exiting, ?_, ?_, ?_, fun _ => Nat.succ_pos _, hrem⟩
      rest := fun _ hl => ?_ }
  · rw [updateParallel, Book.afterAll_append]
    exact hadded j
  · rw [updateParallel, Book.afterAll_append]
    refine hnext.trans ?_
    rw [hnumber, ← Nat.succ_mul]
  · simp [hi, FramePc.waiting]
  · simp [hi, FramePc.joining]
  · simp [hi, FramePc.addingJob]
  · simp [updateParallel] at hl

theorem leave (h : M.Orderly m F P) (hc : M.calls = []) (hi : M.system.frame = .idle) :
    Orderly m F P { M with calls := [.joinJobs], left := true } := by
  have hadded := h.added
  have hnumbered := h.numbered
  rw [hc] at hadded hnumbered
  refine
    { reachable := h.reachable
      kept := h.kept
      follows := ⟨trivial, trivial⟩
      added := hadded
      numbered := hnumbered
      past := h.past
      placed := ⟨h.placed.exiting, ?_, ?_, ?_, by simp, .join⟩
      rest := fun _ hl => by simp at hl }
  · simp [hi, FramePc.waiting]
  · simp [hi, FramePc.joining]
  · simp [hi, FramePc.addingJob]

end Orderly

/-- All of it holds in every run. -/
theorem reachable_orderly [NeZero n] (hP : P ≤ 12) (h : (mainRunner n m F P).Reachable M) :
    M.Orderly m F P := by
  refine h.invariant (fun _ hi => hi ▸ .init) fun M r N _ hM hN' => ?_
  cases runner_cases hN' with
  | inside ha ht => exact hM.inside ha ht
  | call hc hi hj => exact hM.call hc hi hj
  | pass hc hi hr => exact hM.pass hP hc hi hr
  | leave hc hi => exact hM.leave hc hi

end Runner

end JobSystem
