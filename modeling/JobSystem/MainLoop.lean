import JobSystem.Acyclic
import JobSystem.FairSchedule

/-! `main_runner` under fair scheduling, from its first frame to its end: it goes on to the next
frame for as long as nobody quits, and when somebody does, it ends. -/
namespace JobSystem
open TransitionSystem
variable {n : ℕ} {m : WaitMode} {F P : ℕ} {M N : Runner n} {k : Fin n} {s t : State n}
  {a : Action n} {i j : ℕ}

/-- The step of the job system. -/
def RunnerAction.inner : RunnerAction n → Option (Action n)
  | .inside a => some a
  | .call | .loop => none

/-- How far a worker that holds the mutex of its queue is from giving it back. -/
def WorkerPc.untilUnlocked : WorkerPc n → ℕ
  | .push _ _ stage => stage.rank
  | _ => 0

theorem WorkerStep.untilUnlocked_lt (h : WorkerStep m k s t) (hk : (s.worker k).holdsLock = true) :
    (t.worker k).untilUnlocked < (s.worker k).untilUnlocked := by
  cases h with
  | control hp hc =>
    rw [hp] at hk
    cases hc <;> cases hk
  | pushLock hp => simp [hp, WorkerPc.holdsLock] at hk
  | pushBack hp | pushNotify hp => simp [hp, WorkerPc.untilUnlocked, PushStage.rank]
  | @pushUnlock site _ hp =>
    rw [State.goto_self, hp]
    obtain (_ | _) | _ := site <;> exact Nat.one_pos
  | _ => simp_all [WorkerPc.holdsLock]

theorem FrameStep.ne_idle (h : FrameStep s t) : s.frame ≠ .idle := by
  cases h with
  | control hp hc => rw [hp]; cases hc <;> simp
  | _ => simp_all

namespace Runner

section
variable [NeZero n] {r : (mainRunner n m F P).Run fun _ => True}

/-- From this time on the calls of `main_runner` are as they are, and the job system is at work. -/
def Inside (r : (mainRunner n m F P).Run fun _ => True) (i : ℕ) : Prop :=
  ∀ j ≥ i, ∀ a, r.label j = some a → ∃ b : Action n, a = .inside b ∧ b.Works

namespace Inside

/-- A step is one of the job system, or none. -/
theorem moves (h : Inside r i) (hj : i ≤ j) :
    (r.state (j + 1)).calls = (r.state j).calls ∧
      ((r.state (j + 1)).system = (r.state j).system ∧ r.label j = none ∨
        ∃ b : Action n, r.label j = some (.inside b) ∧ b.Works ∧ (∀ c, b ≠ .call c) ∧
          (jobSystem n m).step (r.state j).system b (r.state (j + 1)).system) := by
  obtain ⟨hl, he⟩ | ⟨a, hl, -, ht⟩ := r.step j
  · exact ⟨congrArg _ he, .inl ⟨congrArg _ he, hl⟩⟩
  · obtain ⟨b, rfl, hb⟩ := h j hj a hl
    obtain ⟨hc, t, hn, hN⟩ := of_inside ht
    rw [hN]
    exact ⟨rfl, .inr ⟨b, hl, hb, hc, Orderly.step_inside hc hn⟩⟩

/-- The run of the job system from this time on. -/
def systemRun (h : Inside r i) : (jobSystem n m).Run Action.Works where
  state j := (r.state (i + j)).system
  label j := (r.label (i + j)).bind RunnerAction.inner
  step j := by
    obtain ⟨-, ⟨he, hl⟩ | ⟨b, hl, hb, -, ht⟩⟩ := h.moves (Nat.le_add_right i j)
    · exact .inl ⟨by rw [hl]; rfl, he⟩
    · exact .inr ⟨b, by rw [hl]; rfl, hb, ht⟩

theorem label_systemRun (h : Inside r i) (hl : h.systemRun.label j = some a) :
    r.label (i + j) = some (.inside a) := by
  obtain ⟨c, hc, ha⟩ := Option.bind_eq_some_iff.mp hl
  cases c with
  | inside b =>
    obtain rfl := Option.some.inj ha
    exact hc
  | call | loop => cases ha

theorem frameStep (h : Inside r i) (hj : i ≤ j) (hl : r.label j = some (.inside .frame)) :
    FrameStep (r.state j).system (r.state (j + 1)).system := by
  obtain ⟨-, ⟨-, hn⟩ | ⟨b, hl', -, -, ht⟩⟩ := h.moves hj
  · simp [hl] at hn
  · obtain rfl : Action.frame = b := by simpa [hl] using hl'
    exact .of_frameStep ht.2

/-- The frame thread moves in its own steps only, unless it is blocked. -/
theorem frame_moves (h : Inside r i) (hj : i ≤ j) (hb : (r.state j).system.frame ≠ .blocked) :
    (r.state (j + 1)).system.frame = (r.state j).system.frame ∧ ¬ r.Takes IsMain j ∨
      r.Takes IsMain j ∧ FrameStep (r.state j).system (r.state (j + 1)).system := by
  obtain ⟨-, ⟨he, hl⟩ | ⟨b, hl, -, hc, ht⟩⟩ := h.moves hj
  · refine .inl ⟨congrArg _ he, ?_⟩
    rintro ⟨a, ha, -⟩
    simp [hl] at ha
  · by_cases hf : b = .frame
    · subst hf
      exact .inr ⟨⟨_, hl, rfl⟩, h.frameStep hj hl⟩
    · refine .inl ⟨?_, ?_⟩
      · obtain he | ⟨hb', -⟩ | ⟨hf', -⟩ | ⟨c, hbc, -⟩ := (step_cases ht).frame_moves
        · exact he
        · exact absurd hb' hb
        · exact absurd hf' hf
        · exact absurd hbc (hc c)
      · rintro ⟨a, ha, hm⟩
        obtain rfl : .inside b = a := by simpa [hl] using ha
        exact hf hm

theorem worker_moves (h : Inside r i) (hj : i ≤ j) (hb : (r.state j).system.worker k ≠ .blocked) :
    (r.state (j + 1)).system.worker k = (r.state j).system.worker k ∧ ¬ r.Takes (IsWorker k) j ∨
      WorkerStep m k (r.state j).system (r.state (j + 1)).system := by
  obtain ⟨-, ⟨he, hl⟩ | ⟨b, hl, -, -, ht⟩⟩ := h.moves hj
  · refine .inl ⟨by rw [he], ?_⟩
    rintro ⟨a, ha, -⟩
    simp [hl] at ha
  · obtain ⟨c, rfl⟩ | hk := Classical.em (∃ c, b = .worker k c)
    · exact .inr (workerStep_of_step ht)
    · refine .inl ⟨?_, ?_⟩
      · obtain he | ⟨hb', -⟩ | ⟨c, hbc, -⟩ := (step_cases ht).worker_moves k
        · exact he
        · exact absurd hb' hb
        · exact absurd ⟨c, hbc⟩ hk
      · rintro ⟨a, ha, c, rfl⟩
        exact hk ⟨c, by simpa [hl] using ha⟩

theorem label_systemRun_of (h : Inside r i) (hl : r.label (i + j) = some (.inside a)) :
    h.systemRun.label j = some a := by
  show (r.label (i + j)).bind RunnerAction.inner = some a
  rw [hl]
  rfl

/-- The workers are scheduled as fairly in the run of the job system. -/
theorem fair (h : Inside r i) (hf : Fair r) : JobSystem.Fair h.systemRun := by
  refine ⟨fun k => ?_, fun k hdraws => ?_⟩
  · apply ((Often.shift_iff i).mpr (hf.scheduled k)).mono
    rintro j (⟨_, hl, c, rfl⟩ | hdis)
    · exact .inl ⟨.worker k c, h.label_systemRun_of hl, c, rfl⟩
    · refine .inr fun ⟨a, t, hk, ht⟩ => hdis ?_
      obtain ⟨c, rfl⟩ := hk
      exact ⟨_, _, ⟨c, rfl⟩, step_inside (by simp) ht⟩
  · have hoften := hf.draws k <| (Often.shift_iff i).mp <| hdraws.mono
      fun j ⟨⟨_, hl, c, hc⟩, hp⟩ => ⟨⟨_, h.label_systemRun hl, c, by rw [hc]⟩, hp⟩
    apply ((Often.shift_iff i).mpr hoften).mono
    rintro j ⟨c, hl, hp, hne⟩
    exact ⟨c, h.label_systemRun_of hl, hp, hne⟩

/-- So is the frame thread, which makes no call. -/
theorem just_frame (h : Inside r i) (hf : Fair r) : h.systemRun.Just (· = .frame) := by
  apply ((Often.shift_iff i).mpr hf.served.just).mono
  rintro j (⟨a, hl, ha⟩ | hdis)
  · obtain ⟨b, rfl, -⟩ := h (i + j) (Nat.le_add_right i j) a hl
    obtain rfl : b = .frame := ha
    exact .inl ⟨.frame, h.label_systemRun_of hl, rfl⟩
  · refine .inr fun ⟨a, t, ha, ht⟩ => hdis ?_
    subst ha
    exact ⟨.inside .frame, _, rfl, step_inside (by simp) ht⟩

theorem heard (h : Inside r i) (hf : Fair r) : HeardByFrame h.systemRun :=
  fun j _ hl => (hf.inTime (i + j) _ (h.label_systemRun hl)).1.2

end Inside

theorem passes_mono (r : (mainRunner n m F P).Run fun _ => True) (hij : i ≤ j) :
    (r.state i).passes ≤ (r.state j).passes := by
  refine r.invariant (I := fun M => (r.state i).passes ≤ M.passes) (fun M a N hM _ ht => ?_)
    le_rfl hij
  cases runner_cases ht with
  | pass => exact Nat.le_succ_of_le hM
  | _ => exact hM

/-- A fair run from a reachable state in which nobody quits. -/
structure Running (r : (mainRunner n m F P).Run fun _ => True) : Prop extends Fair r where
  few : P ≤ 12
  start : ((mainRunner n m F P).restrict InTime).Reachable (r.state 0)
  isRunning : ∀ i, (r.state i).system.isRunning = true

namespace Running

theorem reachable (h : Running r) (i : ℕ) :
    ((mainRunner n m F P).restrict InTime).Reachable (r.state i) :=
  r.reachable_restrict h.inTime h.start i

theorem orderly (h : Running r) (i : ℕ) : (r.state i).Orderly m F P :=
  reachable_orderly h.few (h.reachable i).of_restrict

theorem shutdown (h : Running r) (i : ℕ) : Shutdown (r.state i).system :=
  reachable_shutdown (h.orderly i).reachable

theorem joining (h : Running r) (i : ℕ) : (r.state i).system.frame.joining = false := by
  by_contra hj
  have hstop := (h.shutdown i).joining (Bool.eq_true_of_not_eq_false hj)
  simp [h.isRunning i] at hstop

theorem joined (h : Running r) (i : ℕ) : (r.state i).system.joined = false := by
  by_contra hj
  have hstopped := ((h.shutdown i).joined (Bool.eq_true_of_not_eq_false hj)).1
  simp [(h.shutdown i).not_stopped (h.isRunning i)] at hstopped

/-- Between two calls `main_runner` can go on. -/
theorem exists_main_of_idle (h : Running r) (hi : (r.state i).system.frame = .idle) :
    ∃ a N, IsMain a ∧ (mainRunner n m F P).step (r.state i) a N := by
  cases hc : (r.state i).calls with
  | nil =>
    have hleft : (r.state i).left = false := by
      by_contra hl
      obtain hl | ⟨-, hl | hl⟩ := (reachable_leaves h.few (h.reachable i).of_restrict).joins
        (Bool.eq_true_of_not_eq_false hl)
      · simp [hc] at hl
      · simp [hi, FramePc.joining] at hl
      · simp [h.joined i] at hl
    refine ⟨.loop, { r.state i with
      calls := updateParallel F P (r.state i).system.nextJob
      passes := (r.state i).passes + 1 }, trivial, ?_⟩
    show runnerNext m F P (r.state i) .loop = some _
    simp [runnerNext, hc, hi, hleft, h.isRunning i]
  | cons c l =>
    refine ⟨.call, { r.state i with system := callStep (r.state i).system c, calls := l },
      trivial, ?_⟩
    show runnerNext m F P (r.state i) .call = some _
    simp [runnerNext, hc, next, hi, h.joined i]

/-- So it does not stay there. -/
theorem not_idle (h : Running r) (hin : Inside r i) (hi : (r.state i).system.frame = .idle) :
    False := by
  have hidle : ∀ j ≥ i, (r.state j).system.frame = .idle := by
    intro j hj
    induction j, hj using Nat.le_induction with
    | base => exact hi
    | succ j hj ih =>
      obtain ⟨-, ⟨he, -⟩ | ⟨b, -, -, hc, ht⟩⟩ := hin.moves hj
      · rw [he, ih]
      · obtain he | ⟨hb, -⟩ | ⟨-, hf⟩ | ⟨c, hbc, -⟩ := (step_cases ht).frame_moves
        · exact he.trans ih
        · simp [ih] at hb
        · exact absurd ih hf.ne_idle
        · exact absurd hbc (hc c)
  have htakes := h.served fun i' => ⟨max i i', le_max_right i i',
    h.exists_main_of_idle (hidle _ (le_max_left i i'))⟩
  obtain ⟨j, hj, a, hl, ha⟩ := htakes i
  obtain ⟨b, rfl, -⟩ := hin j hj a hl
  obtain rfl : b = .frame := ha
  exact (hin.frameStep hj hl).ne_idle (hidle j hj)

/-- An `AddJob` comes to its end: the mutex that it needs is free again and again. -/
theorem exists_idle_of_adding (h : Running r) (hin : Inside r i)
    (hadd : (r.state i).system.frame.addingJob = true) :
    ∃ j ≥ i, (r.state j).system.frame = .idle := by
  by_contra hno
  push Not at hno
  have hmoves {j} (hj : i ≤ j) (hadd : (r.state j).system.frame.addingJob = true) :=
    hin.frame_moves (r := r) hj (fun hb => by simp [hb, FramePc.addingJob] at hadd)
  have hadding {j} (hj : i ≤ j) : (r.state j).system.frame.addingJob = true := by
    induction j, hj using Nat.le_induction with
    | base => exact hadd
    | succ j hj ih =>
      obtain ⟨he, -⟩ | ⟨-, hf⟩ := hmoves hj ih
      · exact he ▸ ih
      · exact (hf.untilAdded_lt ih).2.resolve_left (hno (j + 1) (by omega))
  have hrare : ¬ Often (r.Takes IsMain) := fun hoften =>
    hoften.not_decreasing Nat.lt_wfRel.wf (fun j => (r.state j).system.frame.untilAdded) i
      (fun j hj => (hmoves hj (hadding hj)).imp (fun he => congrArg _ he.1)
        fun hf => (hf.2.untilAdded_lt (hadding hj)).1)
      fun j hj ht => ((hmoves hj (hadding hj)).resolve_left fun he => he.2 ht).2.untilAdded_lt
        (hadding hj) |>.1
  obtain ⟨i₁, hdis⟩ := Often.eventually_not (mt h.served hrare)
  -- so the mutex is never free from some time on
  have hstuck {j} (hj : max i i₁ ≤ j) : ∃ x q, (r.state j).system.frame = .addJobPush x q .lock ∧
      ((r.state j).system.queues q).locked = true := by
    by_contra hfree
    push Not at hfree
    obtain ⟨t, ht⟩ := exists_frameStep_of_adding (hadding (le_of_max_le_left hj))
      fun x q hp => Bool.eq_false_of_not_eq_true (hfree x q hp)
    exact hdis j (le_of_max_le_right hj) ⟨.inside .frame, _, rfl, step_inside (by simp)
      ⟨trivial, ht⟩⟩
  obtain ⟨x, q, hp, -⟩ := hstuck le_rfl
  have hframe {j} (hj : max i i₁ ≤ j) : (r.state j).system.frame = .addJobPush x q .lock := by
    induction j, hj using Nat.le_induction with
    | base => exact hp
    | succ j hj ih =>
      obtain ⟨he, -⟩ | ⟨⟨a, hl, ha⟩, -⟩ := hmoves (le_of_max_le_left hj)
        (hadding (le_of_max_le_left hj))
      · exact he.trans ih
      · exact absurd ⟨a, _, ha, (r.step_of_label hl).2⟩ (hdis j (le_of_max_le_right hj))
  have hfree {j} (hj : max i i₁ ≤ j) : (r.state j).system.frame.holdsLock q = false := by
    rw [hframe hj]
    simp [FramePc.holdsLock]
  have hlock {j} (hj : max i i₁ ≤ j) : ((r.state j).system.worker q).holdsLock = true := by
    obtain ⟨x', q', hp', hlocked⟩ := hstuck hj
    obtain ⟨-, rfl⟩ : x = x' ∧ q = q' := by simpa [hframe hj] using hp'
    rwa [(reachable_mutex (h.orderly j).reachable).locked, hfree hj, Bool.false_or] at hlocked
  -- but the worker that has it gives it back
  have hmoves' {j} (hj : max i i₁ ≤ j) := hin.worker_moves (r := r) (k := q)
    (le_of_max_le_left hj) (fun hb => by simpa [hb, WorkerPc.holdsLock] using hlock hj)
  have hoften : Often (r.Takes (IsWorker q)) := by
    apply (h.scheduled q).often (i := max i i₁)
    intro j hj
    obtain ⟨t, ht⟩ := exists_workerStep_of_unlocked (h.orderly j).reachable {} (k := q) (by
      rintro (hw | hw) <;> simpa [hw, WorkerPc.holdsLock] using hlock hj) (hfree hj)
      fun _ hw => by simpa [hw, WorkerPc.holdsLock] using hlock hj
    exact ⟨_, _, ⟨{}, rfl⟩, step_inside (by simp) ht⟩
  exact hoften.not_decreasing Nat.lt_wfRel.wf
    (fun j => ((r.state j).system.worker q).untilUnlocked) (max i i₁)
    (fun j hj => (hmoves' hj).imp (fun he => congrArg _ he.1) (·.untilUnlocked_lt (hlock hj)))
    fun j hj ht => ((hmoves' hj).resolve_left fun he => he.2 ht).untilUnlocked_lt (hlock hj)

/-- `WaitForAllJobs` returns, since all jobs of the call can run. -/
theorem exists_idle_of_waiting (h : Running r) (hin : Inside r i)
    (hwait : (r.state i).system.frame.waiting = true) :
    ∃ j ≥ i, (r.state j).system.frame = .idle := by
  have hin_time := reachable_allInTime h.few (h.reachable i)
  have hadd : (r.state i).system.frame.addingJob = false := by
    cases hp : (r.state i).system.frame <;> simp_all [FramePc.waiting, FramePc.addingJob]
  have hcalls := ((h.orderly i).placed.waiting hwait).1
  obtain ⟨j, hj, -⟩ := (hin.fair h.toFair).exists_released (hin.just_frame h.toFair)
    (hin.heard h.toFair) (hin_time.mono (fun _ hs => hs) fun _ _ _ ht => ⟨ht.1.1, ht.2⟩)
    ⟨h.isRunning i, (h.shutdown i).not_stopped (h.isRunning i), hadd⟩ hwait
    fun _ hj => runnable_of_calls_nil h.few (h.reachable i).of_restrict hcalls hj
  exact ⟨i + j, Nat.le_add_right i j, hj⟩

/-- Where `main_runner` makes no call and begins no frame any more, it does not get on at all. -/
theorem not_inside (h : Running r) (hin : Inside r i) : False := by
  have hlater {j} (hj : i ≤ j) (hidle : (r.state j).system.frame = .idle) : False :=
    h.not_idle (fun j' hj' => hin j' (hj.trans hj')) hidle
  by_cases hwait : (r.state i).system.frame.waiting = true
  · obtain ⟨j, hj, hidle⟩ := h.exists_idle_of_waiting hin hwait
    exact hlater hj hidle
  by_cases hadd : (r.state i).system.frame.addingJob = true
  · obtain ⟨j, hj, hidle⟩ := h.exists_idle_of_adding hin hadd
    exact hlater hj hidle
  have hjoin := h.joining i
  have hexit := (h.orderly i).placed.exiting
  apply hlater le_rfl
  cases hp : (r.state i).system.frame <;>
    simp_all [FramePc.inExit, FramePc.waiting, FramePc.addingJob, FramePc.joining]

/-- While nobody quits, `while (isRunning)` comes round again and again. -/
theorem often_loop (h : Running r) : Often (r.Takes (· = .loop)) := by
  by_contra hnot
  obtain ⟨i, hi⟩ := Often.eventually_not hnot
  have hcalls {j} (hj : i ≤ j) : (r.state (j + 1)).calls.length = (r.state j).calls.length ∧
      ¬ r.Takes (· = .call) j ∨ (r.state (j + 1)).calls.length < (r.state j).calls.length := by
    obtain ⟨hl, he⟩ | ⟨a, hl, -, ht⟩ := r.step j
    · refine .inl ⟨by rw [he], ?_⟩
      rintro ⟨a, ha, -⟩
      simp [hl] at ha
    · cases a with
      | inside b =>
        obtain ⟨-, t, -, hN⟩ := of_inside ht
        refine .inl ⟨by rw [hN], ?_⟩
        rintro ⟨a, ha, rfl⟩
        simp [hl] at ha
      | call =>
        obtain ⟨c, l, hc, -, -, hN⟩ := of_call ht
        rw [hN, hc]
        exact .inr (Nat.lt_succ_self _)
      | loop => exact absurd ⟨_, hl, rfl⟩ (hi j hj)
  have hfew : ¬ Often (r.Takes (· = .call)) := fun hoften =>
    hoften.not_decreasing Nat.lt_wfRel.wf (fun j => (r.state j).calls.length) i
      (fun j hj => (hcalls hj).imp_left (·.1))
      fun j hj ht => (hcalls hj).resolve_left fun hn => hn.2 ht
  obtain ⟨i₁, hi₁⟩ := Often.eventually_not hfew
  refine h.not_inside (i := max i i₁) fun j hj a hl => ?_
  obtain ⟨-, ht⟩ := r.step_of_label hl
  cases a with
  | call => exact absurd ⟨_, hl, rfl⟩ (hi₁ j (le_of_max_le_right hj))
  | loop => exact absurd ⟨_, hl, rfl⟩ (hi j (le_of_max_le_left hj))
  | inside b =>
    obtain ⟨hc, t, hn, hN⟩ := of_inside ht
    refine ⟨b, rfl, ?_⟩
    cases b with
    | call c => exact absurd rfl (hc c)
    | quit =>
      have hrun := h.isRunning (j + 1)
      rw [hN] at hrun
      cases hn
      cases hrun
    | worker | frame | wakeWorker | wakeFrame => trivial

/-- Every frame is followed by another one. -/
theorem exists_pass (h : Running r) (p : ℕ) : ∃ i, p ≤ (r.state i).passes := by
  induction p with
  | zero => exact ⟨0, Nat.zero_le _⟩
  | succ p ih =>
    obtain ⟨i, hi⟩ := ih
    obtain ⟨j, hj, a, hl, rfl⟩ := h.often_loop i
    refine ⟨j + 1, ?_⟩
    obtain ⟨-, -, -, ⟨-, hN⟩ | ⟨hstop, -⟩⟩ := of_loop (r.step_of_label hl).2
    · rw [hN]
      exact Nat.succ_le_succ (hi.trans (passes_mono r hj))
    · simp [h.isRunning j] at hstop

end Running

/-- After a quit the run comes to the end of `main_runner`. -/
theorem Fair.exists_ended (hf : Fair r) (hP : P ≤ 12)
    (h : ((mainRunner n m F P).restrict InTime).Reachable (r.state 0))
    (hq : (r.state i).system.isRunning = false) : ∃ j ≥ i, (r.state j).Ended := by
  by_contra hno
  push Not at hno
  have hreach (j) : ((mainRunner n m F P).restrict InTime).Reachable (r.state j) :=
    r.reachable_restrict hf.inTime h j
  have hstop {j} (hj : i ≤ j) : (r.state j).system.isRunning = false := by
    induction j, hj using Nat.le_induction with
    | base => exact hq
    | succ j hj ih =>
      obtain ⟨-, he⟩ | ⟨a, -, -, ht⟩ := r.step j
      · rw [he]
        exact ih
      · exact isRunning_of_step hP (hreach j).of_restrict ih ht
  have hmoves {j} (hj : i ≤ j) : r.state (j + 1) = r.state j ∧ ¬ r.Takes (· ≠ .inside .quit) j ∨
      r.Takes (· ≠ .inside .quit) j ∧ (r.state (j + 1)).remaining < (r.state j).remaining := by
    obtain ⟨hl, he⟩ | ⟨a, hl, -, ht⟩ := r.step j
    · refine .inl ⟨he, ?_⟩
      rintro ⟨a, ha, -⟩
      simp [hl] at ha
    · obtain rfl | ha := Classical.em (a = .inside .quit)
      · refine .inl ⟨?_, ?_⟩
        · obtain ⟨-, t, hn, hN⟩ := of_inside ht
          cases hn
          rw [hN, ← hstop hj]
        · rintro ⟨a, ha, hne⟩
          exact hne (by simpa [hl] using ha.symm)
      · exact .inr ⟨⟨a, hl, ha⟩, remaining_lt hP (hreach j).of_restrict (hstop hj) ha ht⟩
  have hfew : ¬ Often (r.Takes (· ≠ .inside .quit)) := fun hoften =>
    hoften.not_decreasing wellFounded_lt (fun j => (r.state j).remaining) i
      (fun j hj => (hmoves hj).imp (fun he => congrArg _ he.1) (·.2))
      fun j hj ht => ((hmoves hj).resolve_left fun he => he.2 ht).2
  obtain ⟨i₁, hi₁⟩ := Often.eventually_not hfew
  -- from some time on nothing happens, although some thread could go on
  have hsame {j} (hj : max i i₁ ≤ j) : r.state j = r.state (max i i₁) := by
    induction j, hj using Nat.le_induction with
    | base => rfl
    | succ j hj ih =>
      obtain ⟨he, -⟩ | ⟨ht, -⟩ := hmoves (le_of_max_le_left hj)
      · exact he.trans ih
      · exact absurd ht (hi₁ j (le_of_max_le_right hj))
  obtain ⟨a, N, ha, -, ht⟩ := exists_step_of_quit hP (hreach (max i i₁))
    (hstop (le_max_left i i₁)) (hno _ (le_max_left i i₁))
  have hnever {K : RunnerAction n → Prop} (hK : ∀ a, K a → a ≠ .inside .quit) (ha : K a)
      (hj : r.Just K) : False := by
    obtain ⟨j, hj, b, hl, hb⟩ := hj.often (i := max i i₁)
      (fun j hj => ⟨a, N, ha, (hsame hj).symm ▸ ht⟩) (max i i₁)
    exact hi₁ j (le_of_max_le_right hj) ⟨b, hl, hK b hb⟩
  have hmain (ha : IsMain a) : False := by
    refine hnever (fun b hb hq => ?_) ha hf.served.just
    subst hq
    cases hb
  cases a with
  | call | loop => exact hmain trivial
  | inside b =>
    cases b with
    | worker k c => exact hnever (by rintro _ ⟨c, rfl⟩; simp) ⟨c, rfl⟩ (hf.scheduled k)
    | frame => exact hmain rfl
    | _ => exact ha.elim

/-- `main_runner` under fair scheduling: if nobody quits, it begins ever more frames, so that each
of its calls comes back; and if somebody does, `JoinJobs` returns and all workers end. -/
theorem fair_run_of_main_runner (hP : P ≤ 12) (hf : Fair r)
    (h : ((mainRunner n m F P).restrict InTime).Reachable (r.state 0)) :
    ((∀ i, (r.state i).system.isRunning = true) → ∀ p, ∃ i, p ≤ (r.state i).passes) ∧
      ∀ i, (r.state i).system.isRunning = false → ∃ j ≥ i, (r.state j).Ended :=
  ⟨fun hrun => Running.exists_pass ⟨hf, hP, h, hrun⟩, fun _ hq => hf.exists_ended hP h hq⟩

/-- A run that comes to a stop at the end of `main_runner` is fair. -/
theorem Fair.of_ended (hrest : ∀ j ≥ i, r.state j = M ∧ r.label j = none) (hend : M.Ended)
    (hidle : M.system.frame = .idle)
    (hin : ∀ i a, r.label i = some a → (r.state i).InTime a) : Fair r := by
  refine ⟨fun k i₀ => ⟨max i i₀, le_max_right i i₀, .inr ?_⟩, fun k hd => ?_, fun hen => ?_, hin⟩
  · rintro ⟨_, N, ⟨c, rfl⟩, ht⟩
    obtain ⟨-, t, hn, -⟩ := of_inside ht
    have hstep : workerStep m c k (r.state (max i i₀)).system = some t := hn
    simp [workerStep, (hrest _ (le_max_left i i₀)).1, hend.exited k] at hstep
  · obtain ⟨j, hj, ⟨a, ha, -⟩, -⟩ := hd i
    simp [(hrest j hj).2] at ha
  · obtain ⟨j, hj, a, N, ha, ht⟩ := hen i
    rw [(hrest j hj).1] at ht
    exfalso
    cases a with
    | inside b =>
      obtain rfl : b = .frame := ha
      obtain ⟨-, t, hn, -⟩ := of_inside ht
      exact (FrameStep.of_frameStep hn).ne_idle hidle
    | call =>
      obtain ⟨c, l, hc, -⟩ := of_call ht
      simp [hend.calls] at hc
    | loop =>
      obtain ⟨-, -, hl, -⟩ := of_loop ht
      simp [hend.left] at hl

end

/-- Eight workers, each with one of the eight jobs of the first call, then a quit. -/
def quitAfterFrame : List (RunnerAction 8) :=
  .loop :: callActions (updateParallel 1 1 0) ++
    [(4, 16), (2, 21), (5, 21), (3, 13), (6, 13), (0, 16), (1, 11), (7, 11)].flatMap (fun e =>
      .replicate e.2 (.inside (.worker e.1 {}))) ++
    [.inside .frame, .inside .quit, .loop, .call] ++ .replicate 10 (.inside .frame) ++
    (List.finRange 8).flatMap (fun k => .replicate 2 (.inside (.worker k {}))) ++
    [.inside (.worker 7 {})] ++ .replicate 9 (.inside .frame)

/-- Two workers that render frame after frame, and eight workers that end after a frame. -/
theorem fair_run_of_main_runner_both :
    (∃ r : (mainRunner 2 .conditionVariable 1 1).Run fun _ => True,
      Fair r ∧ (r.state 0).passes = 0 ∧ ∀ p, ∃ i, p ≤ (r.state i).passes) ∧
    ∃ r : (mainRunner 8 .conditionVariable 1 1).Run fun _ => True,
      Fair r ∧ (r.state 0).passes = 0 ∧ ∃ i, (r.state i).system.lifecycle 5 = .finished ∧
        (r.state i).Ended := by
  constructor
  · obtain ⟨r, hr, hf, hrun⟩ := exists_fair_run (n := 2) (m := .conditionVariable) (F := 1) (P := 1)
      le_rfl (by decide) (.init rfl) rfl
    have hstart : ((mainRunner 2 .conditionVariable 1 1).restrict InTime).Reachable (r.state 0) :=
      .init hr
    refine ⟨r, hf, ?_, (fair_run_of_main_runner (by decide) hf hstart).1 hrun⟩
    rw [hr]
  · have hrun : (run (guarded InTime (runnerNext .conditionVariable 1 1))
        ({ system := init, calls := [], left := false, passes := 0 } : Runner 8)
        quitAfterFrame).any (fun M => M.system.lifecycle 5 = .finished ∧
          M.system.isRunning = false ∧ M.left = true ∧ M.calls = [] ∧ M.system.joined = true ∧
          (∀ k, M.system.worker k = .exited) ∧ M.system.frame = .idle) = true := by
      decide +kernel
    obtain ⟨M, hM, hp⟩ := (Option.any_eq_true _ _).mp hrun
    obtain ⟨h5, hstop, hl, hc, hj, hx, hi⟩ := of_decide_eq_true hp
    have hpath : ((mainRunner 8 .conditionVariable 1 1).restrict InTime).Path (fun _ => True) _ M :=
      path_of_run (fun _ _ => trivial) hM
    obtain ⟨r', hr', i, hrest⟩ := hpath.exists_run
    let r : (mainRunner 8 .conditionVariable 1 1).Run fun _ => True := r'.mono fun _ _ _ ht => ht.2
    have hf : Fair r := .of_ended hrest ⟨hl, hc, hj, hx⟩ hi
      fun j a hlabel => (r'.step_of_label hlabel).2.1
    have hstart : ((mainRunner 8 .conditionVariable 1 1).restrict InTime).Reachable (r.state 0) :=
      .init hr'
    have hrestate (j) (hj : i ≤ j) : r.state j = M := (hrest j hj).1
    obtain ⟨j, hij, hend⟩ := (fair_run_of_main_runner (by decide) hf hstart).2 i
      (by rw [hrestate i le_rfl]; exact hstop)
    refine ⟨r, hf, ?_, j, ?_, hend⟩
    · show (r'.state 0).passes = 0
      rw [hr']
    · rw [hrestate j hij]
      exact h5

end Runner

end JobSystem
