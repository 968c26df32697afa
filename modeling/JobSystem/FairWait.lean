import JobSystem.FairRun
import JobSystem.MainRunner

/-! The frame thread in `WaitForAllJobs` under fair scheduling: when all submitted jobs can run, it
is released, provided that no notification falls between its predicate and its block. -/
namespace JobSystem
open TransitionSystem
variable {n : ℕ} {m : WaitMode} {k : Fin n} {j x : JobId} {s t : State n} {a : Action n}

/-- How far the frame thread is from the end of `WaitForAllJobs` when `jobsToDo` is 0. -/
def FramePc.untilReturn : FramePc n → ℕ
  | .waitBlock => 4
  | .blocked => 3
  | .notified => 2
  | .waitPredicate => 1
  | _ => 0

/-- In `WaitForAllJobs`, or between two calls of it. -/
def FramePc.Waits (p : FramePc n) : Prop := p = .idle ∨ p.waiting = true

theorem StepCase.frame_waits (h : StepCase m s a t) (ha : a.Works) (hs : s.frame.Waits) :
    t.frame.Waits := by
  obtain he | ⟨-, hn⟩ | ⟨-, hf⟩ | ⟨c, rfl, -, rfl⟩ := h.frame_moves
  · exact he ▸ hs
  · rw [hn]
    exact .inr rfl
  · obtain hi | hw := hs
    · cases hf with
      | control hp hc => rw [hi] at hp; subst hp; cases hc
      | _ => simp_all
    · cases hf with
      | control hp hc =>
        rw [hp] at hw
        cases hc with
        | done => exact .inl rfl
        | sleep | block | wake => exact .inr rfl
        | wokenAll | joinOne => cases hw
      | write hp | pushLock hp | pushBack hp | pushNotify hp | pushUnlock hp | index hp
      | stop hp | wakeOne _ hp | joined _ hp => simp [hp, FramePc.waiting] at hw
  · obtain rfl : c = .waitForAllJobs := ha
    exact .inr rfl

/-- Once `jobsToDo` is 0, the frame thread goes through `WaitForAllJobs` step by step. -/
theorem StepCase.untilReturn (h : StepCase m s a t) (hwait : s.frame.waiting = true)
    (h0 : s.jobsToDo = 0) :
    t.frame = s.frame ∧ a ≠ .frame ∨ t.frame.untilReturn < s.frame.untilReturn := by
  by_cases hframe : a = .frame
  · subst hframe
    refine .inr ?_
    cases h with
    | frame hf =>
      cases hf with
      | control hp hc =>
        rw [hp] at hwait ⊢
        cases hc with
        | done | block | wake => simp [FramePc.untilReturn]
        | sleep hd => simp [State.allJobsDone, h0] at hd
        | wokenAll | joinOne => cases hwait
      | write hp | pushLock hp | pushBack hp | pushNotify hp | pushUnlock hp | index hp
      | stop hp | wakeOne _ hp | joined _ hp => simp [hp, FramePc.waiting] at hwait
  · obtain he | ⟨hb, hn⟩ | ⟨ha, -⟩ | ⟨c, -, hi, -⟩ := h.frame_moves
    · exact .inl ⟨he, hframe⟩
    · rw [hn, hb]
      exact .inr (by simp [FramePc.untilReturn])
    · exact absurd ha hframe
    · simp [hi, FramePc.waiting] at hwait

/-- `WaitForAllJobs` returns with its predicate only. -/
theorem StepCase.returned (h : StepCase m s a t) (hwait : s.frame.waiting = true)
    (hi : t.frame = .idle) : s.allJobsDone = true := by
  have hcall (c) : a ≠ .call c := by
    rintro rfl
    obtain he | ⟨-, hn⟩ | ⟨hf, -⟩ | ⟨-, -, hidle, -⟩ := h.frame_moves
    · simp [← he, hi, FramePc.waiting] at hwait
    · simp [hi] at hn
    · cases hf
    · simp [hidle, FramePc.waiting] at hwait
  obtain hidle | ⟨-, hdone⟩ | hadd | hjoin := (h.phase hcall).idle hi
  · simp [hidle, FramePc.waiting] at hwait
  · exact hdone
  · cases hp : s.frame <;> simp_all [FramePc.waiting, FramePc.addingJob]
  · cases hp : s.frame <;> simp_all [FramePc.waiting, FramePc.joining]

/-- Within `WaitForAllJobs` the frame thread can go on unless it is blocked. -/
theorem exists_frameStep_of_waiting [NeZero n] (hwait : s.frame.waiting = true)
    (hb : s.frame ≠ .blocked) : ∃ t, (jobSystem n m).step s .frame t := by
  refine exists_step trivial ?_
  show (frameStep s).isSome
  unfold frameStep
  cases hp : s.frame <;> simp_all [FramePc.waiting]

theorem WorkStep.submitted_of_step (h : WorkStep m s a t) (ho : Ownership s) (hj : t.Submitted j) :
    s.Submitted j := by
  cases h with
  | worker h =>
    cases h with
    | @start i hp | @delete i _ hp =>
      by_cases hi : j = i
      · subst hi
        rcases ho.held (mem_holdings_of_hand (j := j) (by rw [hp]; rfl)) with hl | hl <;>
          exact ⟨by simp [hl], by simp [hl]⟩
      · simpa [State.Submitted, hi] using hj
    | _ => exact hj
  | frame | wakeWorker => exact hj

/-- `jobsToDo--` closes the job. -/
theorem WorkerStep.settled_of_countDown (h : WorkerStep m k s t) (ho : Ownership s)
    (hp : s.worker k = .countDown x) : t.Settled x := by
  have hk : (s.worker k).countingDown = some x := by rw [hp]; rfl
  have hlast : t = (s.setJobsToDo (s.jobsToDo - 1)).goto k .rereadJobsToDo := by
    cases h with
    | control hp' hc => rw [hp] at hp'; subst hp'; cases hc
    | countDown => rfl
    | _ => simp_all
  subst hlast
  refine ⟨ho.countingDown hk, fun k' hk' => ?_⟩
  by_cases hne : k' = k
  · subst hne
    simp [WorkerPc.countingDown] at hk'
  · exact hne (ho.countingDown_unique (by simpa [hne] using hk') hk)

section
variable [NeZero n] {r : (jobSystem n m).Run Action.Works} {i i' : ℕ}

/-- A worker that is neither asleep nor about to look whether it must sleep gets its turn. -/
theorem Fair.exists_turn (hf : Fair r) (h : Served m (r.state i)) {p : WorkerPc n}
    (hp : (r.state i).worker k = p) (hs : ¬ p.Asleep) (hne : p ≠ .waitPredicate) :
    ∃ j ≥ i, ∃ c, (r.state j).worker k = p ∧
      (jobSystem n m).step (r.state j) (.worker k c) (r.state (j + 1)) ∧
      r.label j = some (.worker k c) := by
  obtain ⟨j, hj, hturn, hpj⟩ := (hf.scheduled k).exists_next_of_kept
    (I := fun j => (r.state j).worker k = p) (i := i) (fun j hj hpj hnot => by
      obtain ⟨-, he⟩ | ⟨a, hl, ha, ht⟩ := r.step j
      · rw [he]; exact hpj
      · have hk (c) : a ≠ .worker k c := fun hc => hnot (.inl ⟨a, hl, c, hc⟩)
        have hb : (r.state j).worker k ≠ .blocked := by
          rw [hpj]
          exact fun hb => hs (.inr hb)
        exact (((h.run hj).workStep ha ht).of_ne hk hb).1.trans hpj) hp
  have hserved := h.run hj
  obtain ⟨a, hl, c, rfl⟩ | hdis := hturn
  · exact ⟨j, hj, c, hpj, (r.step_of_label hl).2, hl⟩
  · obtain ⟨t, ht⟩ := exists_workerStep hserved.reachable {}
      (hserved.working.not_waits hserved.reachable (hpj.symm ▸ hs)) hserved.working.addingJob
      fun _ hw => absurd (hpj.symm.trans hw) hne
    exact absurd ⟨_, t, ⟨{}, rfl⟩, ht⟩ hdis

theorem Served.openJobs_subset (h : Served m s) (ha : a.Works)
    (ht : (jobSystem n m).step s a t) : t.openJobs ⊆ s.openJobs :=
  (step_cases ht).openJobs_subset (reachable_ownership h.reachable)
    (reachable_ownership (h.step ha ht).reachable) fun _ hc => by subst hc; cases ha

theorem Served.waits_run (h : Served m (r.state i)) (hwait : (r.state i).frame.Waits)
    (hi : i ≤ i') : (r.state i').frame.Waits :=
  (r.invariant (I := fun s => Served m s ∧ s.frame.Waits) (fun _ _ _ hs ha ht =>
    ⟨hs.1.step ha ht, (step_cases ht).frame_waits ha hs.2⟩) ⟨h, hwait⟩ hi).2

/-- The system works and has finished everything that was submitted. -/
structure Spent (m : WaitMode) (s : State n) : Prop extends Served m s where
  finished : ∀ j, s.Submitted j → s.lifecycle j = .finished

theorem Spent.step (h : Spent m s) (ha : a.Works) (ht : (jobSystem n m).step s a t) :
    Spent m t ∧ t.openJobs ⊆ s.openJobs := by
  have ho := reachable_ownership h.reachable
  have hsub {j} (hj : t.Submitted j) : s.Submitted j :=
    (h.workStep ha ht).submitted_of_step ho hj
  exact ⟨⟨h.toServed.step ha ht,
    fun j hj => finished_of_step h.reachable ht (h.finished j (hsub hj))⟩,
    h.toServed.openJobs_subset ha ht⟩

theorem Spent.run (h : Spent m (r.state i)) (hi : i ≤ i') :
    Spent m (r.state i') ∧ (r.state i').openJobs ⊆ (r.state i).openJobs :=
  r.invariant (I := fun s => Spent m s ∧ s.openJobs ⊆ (r.state i).openJobs)
    (fun _ _ _ hs ha ht => ⟨(hs.1.step ha ht).1, (hs.1.step ha ht).2.trans hs.2⟩)
    ⟨h, subset_rfl⟩ hi

/-- The finished jobs are counted down one after the other. -/
theorem Fair.exists_closed (hf : Fair r) (N : ℕ) (h : Spent m (r.state i))
    (hN : (r.state i).openJobs.card = N) : ∃ j ≥ i, (r.state j).openJobs = ∅ := by
  induction N using Nat.strong_induction_on generalizing i with
  | _ N ih =>
    obtain hnone | ⟨x, hx⟩ := (r.state i).openJobs.eq_empty_or_nonempty
    · exact ⟨i, le_rfl, hnone⟩
    have ho := reachable_ownership h.reachable
    obtain ⟨k, hk⟩ : ∃ k, (r.state i).worker k = .countDown x := by
      rcases ho.mem_openJobs.mp hx with hl | hl | ⟨k, hk⟩
      · simp [h.finished x ⟨by simp [hl], by simp [hl]⟩] at hl
      · simp [h.finished x ⟨by simp [hl], by simp [hl]⟩] at hl
      · refine ⟨k, ?_⟩
        cases hp : (r.state i).worker k <;> simp_all [WorkerPc.countingDown]
    obtain ⟨j, hj, c, hp, ht, -⟩ := hf.exists_turn h.toServed hk (by simp [WorkerPc.Asleep])
      (by simp)
    obtain ⟨hsj, hsub⟩ := h.run hj
    obtain ⟨hsj', hsub'⟩ := hsj.step (a := .worker k c) trivial ht
    have hlt : (r.state (j + 1)).openJobs.card < N := by
      have howned := reachable_ownership hsj.reachable
      have hset := (workerStep_of_step ht).settled_of_countDown howned hp
      have hout : x ∉ (r.state (j + 1)).openJobs := fun hc =>
        hset.not_open ((reachable_ownership hsj'.reachable).mem_openJobs.mp hc)
      refine hN ▸ Finset.card_lt_card ⟨hsub'.trans hsub, fun hc => hout (hc hx)⟩
    obtain ⟨i₁, hi₁, hnone⟩ := ih _ hlt hsj' rfl
    exact ⟨i₁, by omega, hnone⟩

/-- No notification to the frame thread falls between its predicate and its block. -/
def HeardByFrame (r : (jobSystem n m).Run Action.Works) : Prop :=
  ∀ i a, r.label i = some a → ¬ (r.state i).MissesFrame a

theorem Served.not_missesPush (h : Served m s) (a : Action n) : ¬ s.MissesPush a := by
  intro hmiss
  have hadd := h.working.addingJob
  cases a with
  | frame =>
    cases hp : s.frame with
    | addJobPush => simp [hp, FramePc.addingJob] at hadd
    | _ => simp [State.MissesPush, hp] at hmiss
  | _ => exact hmiss

theorem HeardByFrame.watched (hr : HeardByFrame r) (h : Served m (r.state 0))
    (hreach : ((jobSystem n m).restrict State.NotifiesInTime).Reachable (r.state 0)) (i : ℕ) :
    (r.state i).FrameWatched := by
  have hin : (r.state i).FrameWatched := reachable_frameWatched (r.reachable_restrict
    (fun j a hl => ⟨(h.run (Nat.zero_le j)).not_missesPush a, hr j a hl⟩) hreach i)
  exact hin

/-- A worker that is about to notify a blocked frame thread does so. -/
theorem Fair.exists_notified (hf : Fair r) (h : Served m (r.state i))
    (hb : ∀ j ≥ i, (r.state j).frame = .blocked) (hk : (r.state i).worker k = .notifyFrame) :
    False := by
  obtain ⟨j, hj, c, hp, ht, -⟩ := hf.exists_turn h hk (by simp [WorkerPc.Asleep]) (by simp)
  have hn := (workerStep_of_step ht).frame_notified (.inl hp) (hb j hj)
  rw [hb (j + 1) (by omega)] at hn
  cases hn

/-- With all jobs closed the frame thread does not stay in `WaitForAllJobs`. -/
theorem Fair.exists_return (hf : Fair r) (hframe : r.Just (· = .frame)) (h : Spent m (r.state i))
    (hclosed : (r.state i).openJobs = ∅) (hwatch : ∀ j, (r.state j).FrameWatched)
    (hwait : (r.state i).frame.Waits) : ∃ j ≥ i, (r.state j).frame = .idle := by
  by_contra hno
  push Not at hno
  have h0 {j} (hj : i ≤ j) : (r.state j).jobsToDo = 0 := by
    obtain ⟨hs, hsub⟩ := h.run hj
    have hcount := reachable_openCounted hs.reachable
    rw [State.OpenCounted, Finset.subset_empty.mp (hsub.trans_eq hclosed)] at hcount
    exact UInt32.toNat_inj.mp hcount
  have hwaiting {j} (hj : i ≤ j) : (r.state j).frame.waiting = true :=
    (h.toServed.waits_run hwait hj).resolve_left (hno j hj)
  have hmove {j} (hj : i ≤ j) : ¬ r.Takes (· = .frame) j ∧
      (r.state (j + 1)).frame.untilReturn = (r.state j).frame.untilReturn ∨
      (r.state (j + 1)).frame.untilReturn < (r.state j).frame.untilReturn := by
    obtain ⟨hl, he⟩ | ⟨a, hl, -, ht⟩ := r.step j
    · refine .inl ⟨?_, by rw [he]⟩
      rintro ⟨a, ha, -⟩
      simp [hl] at ha
    · obtain ⟨he, ha⟩ | hlt := (step_cases ht).untilReturn (hwaiting hj) (h0 hj)
      · refine .inl ⟨?_, by rw [he]⟩
        rintro ⟨a', ha', rfl⟩
        exact ha (Option.some.inj (hl.symm.trans ha'))
      · exact .inr hlt
  have hnever : ¬ Often (r.Takes (· = .frame)) := fun hoften =>
    hoften.not_decreasing Nat.lt_wfRel.wf (fun j => (r.state j).frame.untilReturn) i
      (fun j hj => (hmove hj).imp_left (·.2))
      (fun j hj ht => (hmove hj).resolve_left fun hn => hn.1 ht)
  obtain ⟨i₀, hi₀⟩ := Often.eventually_not hnever
  -- so the frame thread is found blocked again and again, and hence always
  have hblocked : Often fun j => i ≤ j ∧ (r.state j).frame = .blocked := fun i₁ => by
    obtain ⟨j, hj, htake | hdis⟩ := hframe (max i (max i₀ i₁))
    · exact absurd htake (hi₀ j (by omega))
    · refine ⟨j, by omega, by omega, ?_⟩
      by_contra hb
      obtain ⟨t, ht⟩ := exists_frameStep_of_waiting (m := m) (hwaiting (j := j) (by omega)) hb
      exact hdis ⟨_, t, rfl, ht⟩
  obtain ⟨i₁, -, hi₁, hb₁⟩ := hblocked i
  have hrank {j} (hj : i₁ ≤ j) : (r.state j).frame.untilReturn ≤ 3 ∧
      ((r.state j).frame.untilReturn = 3 → (r.state j).frame = .blocked) := by
    refine ⟨?_, fun he => ?_⟩
    · induction j, hj using Nat.le_induction with
      | base => simp [hb₁, FramePc.untilReturn]
      | succ j hj ih =>
        obtain ⟨-, he⟩ | hlt := hmove (hi₁.trans hj)
        · omega
        · omega
    · cases hp : (r.state j).frame <;> simp_all [FramePc.untilReturn]
  have hstays : ∀ j ≥ i₁, (r.state j).frame = .blocked := by
    intro j hj
    obtain ⟨j', hj', -, hb⟩ := hblocked j
    have hle : ∀ d, (r.state (j + d)).frame.untilReturn ≤ (r.state j).frame.untilReturn := by
      intro d
      induction d with
      | zero => exact Nat.le_refl _
      | succ d ih =>
        obtain ⟨-, he⟩ | hlt := hmove (j := j + d) (by omega)
        · exact he.trans_le ih
        · exact hlt.le.trans ih
    have h3 := hle (j' - j)
    rw [Nat.add_sub_cancel' hj', hb] at h3
    exact (hrank hj).2 (le_antisymm (hrank hj).1 h3)
  obtain ⟨k, hk⟩ := (hwatch i₁).notifier (.inr hb₁) (h0 hi₁)
  have hs := (h.run hi₁).1.toServed
  obtain hk | hk := hk
  · obtain ⟨j, hj, c, hp, ht, -⟩ := hf.exists_turn hs hk (by simp [WorkerPc.Asleep]) (by simp)
    refine hf.exists_notified (i := j + 1) (hs.run (by omega)) (fun j' hj' => hstays j' (by omega))
      ((workerStep_of_step ht).notifyFrame_of_zero hp (h0 (by omega)))
  · exact hf.exists_notified hs hstays hk

/-- What a fair run does with a waiting frame thread whose jobs can all run. -/
theorem Fair.exists_released (hf : Fair r) (hframe : r.Just (· = .frame)) (hheard : HeardByFrame r)
    (h : ((jobSystem n m).restrict State.NotifiesInTime).Reachable (r.state 0))
    (hw : (r.state 0).Working) (hwait : (r.state 0).frame.waiting = true)
    (hall : ∀ j, (r.state 0).Submitted j → (r.state 0).Runnable j) :
    ∃ i, (r.state i).frame = .idle ∧ ∀ j, (r.state 0).Submitted j → (r.state i).Done j := by
  have hs : Served m (r.state 0) := ⟨h.mono (fun _ hi => hi) fun _ _ _ ht => ⟨ht.1.1, ht.2⟩, hw⟩
  obtain ⟨i, hdone⟩ := hf.exists_all_done hs
  have hsub {j} (hj : (r.state i).Submitted j) : (r.state 0).Submitted j :=
    (r.invariant (I := fun s => Served m s ∧ ∀ j, s.Submitted j → (r.state 0).Submitted j)
      (fun _ _ _ hs ha ht => ⟨hs.1.step ha ht, fun j hj => hs.2 j ((hs.1.workStep ha
        ht).submitted_of_step (reachable_ownership hs.1.reachable) hj)⟩)
      ⟨hs, fun _ hj => hj⟩ (Nat.zero_le i)).2 j hj
  have hspent : Spent m (r.state i) := ⟨hs.run (Nat.zero_le i), fun j hj =>
    (hdone i le_rfl j (hall j (hsub hj))).lifecycle⟩
  obtain ⟨i₁, hi₁, hclosed⟩ := hf.exists_closed _ hspent rfl
  have hwaits : (r.state i₁).frame.Waits := hs.waits_run (.inr hwait) (Nat.zero_le i₁)
  obtain ⟨i₂, hi₂, hidle⟩ := hf.exists_return hframe (hspent.run hi₁).1 hclosed
    (hheard.watched hs h) hwaits
  exact ⟨i₂, hidle, fun j hj => hdone i₂ (hi₁.trans hi₂) j (hall j hj)⟩

/-- When `WaitForAllJobs` returns for the first time, all submitted jobs are done. -/
theorem Served.done_of_return (h : Served m (r.state 0))
    (hcard : (r.state 0).openJobs.card < 2 ^ 32) (hwait : (r.state i).frame.waiting = true)
    (hidle : (r.state (i + 1)).frame = .idle) (hj : (r.state 0).Submitted j) :
    (r.state (i + 1)).Done j := by
  obtain ⟨hs, hopen, hsub⟩ := r.invariant (I := fun s => Served m s ∧
      s.openJobs ⊆ (r.state 0).openJobs ∧ s.Submitted j) (fun _ _ _ hs ha ht =>
    ⟨hs.1.step ha ht, (hs.1.openJobs_subset ha ht).trans hs.2.1,
      (hs.1.workStep ha ht).workerFrame.submitted hs.2.2⟩) ⟨h, subset_rfl, hj⟩ (Nat.zero_le i)
  obtain ⟨-, he⟩ | ⟨a, -, ha, ht⟩ := r.step i
  · simp [he ▸ hidle, FramePc.waiting] at hwait
  have h0 : (r.state i).jobsToDo = 0 := by
    simpa [State.allJobsDone, hs.working.isRunning] using (step_cases ht).returned hwait hidle
  have hcount := (reachable_openCounted hs.reachable).exact
    ((Finset.card_le_card hopen).trans_lt hcard)
  rw [h0] at hcount
  have hempty : (r.state i).openJobs = ∅ := Finset.card_eq_zero.mp hcount.symm
  have hs' := hs.step ha ht
  refine (reachable_recorded hs'.reachable).done_of_closed (fun hc => ?_)
    ((hs.workStep ha ht).workerFrame.submitted hsub)
  have hmem := hs.openJobs_subset ha ht ((reachable_ownership hs'.reachable).mem_openJobs.mpr hc)
  simp [hempty] at hmem

/-- Under fair scheduling `WaitForAllJobs` returns, if all submitted jobs can run at all and no
notification comes too early: up to the first state none that a thread misses, be it the one of an
`AddJob` to a worker or one to the frame thread, and from then on none to the frame thread. When it
returns for the first time, everything is done, provided that `jobsToDo` can count the jobs. -/
theorem fair_run_releases_frame
    (h : ((jobSystem n m).restrict State.NotifiesInTime).Reachable (r.state 0))
    (hw : (r.state 0).Working) (hf : Fair r) (hframe : r.Just (· = .frame))
    (hheard : HeardByFrame r) (hwait : (r.state 0).frame.waiting = true)
    (hall : ∀ j, (r.state 0).Submitted j → (r.state 0).Runnable j) :
    ∃ i, (r.state i).frame = .idle ∧ (∀ i' < i, (r.state i').frame.waiting = true) ∧
      ((r.state 0).openJobs.card < 2 ^ 32 → ∀ j, (r.state 0).Submitted j → (r.state i).Done j) := by
  classical
  have hs : Served m (r.state 0) := ⟨h.mono (fun _ hi => hi) fun _ _ _ ht => ⟨ht.1.1, ht.2⟩, hw⟩
  have hex : ∃ i, (r.state i).frame = .idle :=
    (hf.exists_released hframe hheard h hw hwait hall).imp fun _ hi => hi.1
  have hbefore (i') (hi' : i' < Nat.find hex) : (r.state i').frame.waiting = true :=
    (hs.waits_run (.inr hwait) (Nat.zero_le i')).resolve_left (Nat.find_min hex hi')
  refine ⟨Nat.find hex, Nat.find_spec hex, hbefore, fun hcard j hj => ?_⟩
  obtain ⟨i, hi⟩ : ∃ i, Nat.find hex = i + 1 := by
    refine Nat.exists_eq_succ_of_ne_zero fun h0 => ?_
    have hidle := Nat.find_spec hex
    simp [h0 ▸ hidle, FramePc.waiting] at hwait
  have hidle := Nat.find_spec hex
  rw [hi] at hidle ⊢
  exact hs.done_of_return hcard (hbefore i (hi ▸ Nat.lt_succ_self i)) hidle hj

end

/-- The frame thread blocks, and the last of two workers releases it. -/
theorem fair_run_releases_frame_chain : ∃ r : (jobSystem 2 .conditionVariable).Run Action.Works,
    Fair r ∧ (r.state 0).lifecycle 1 = .submitted ∧ (r.state 0).frame = .waitPredicate ∧
      ∃ i, (r.state i).frame = .idle ∧ (∀ i' < i, (r.state i').frame.waiting = true) ∧
        (r.state i).Done 0 ∧ (r.state i).Done 1 := by
  obtain ⟨s, hs, hrun, hst, hf, hl0, hl1, hcard, hh, hnext⟩ := exists_of_executeWithin (n := 2)
    (m := .conditionVariable) (G := State.NotifiesInTime)
    (l := [.call (.createJob 0), .call (.createJob 1), .call (.addDependency 1 0)] ++
      addJobActions 0 ++ addJobActions 1 ++ [.call .waitForAllJobs])
    (p := fun s => s.isRunning = true ∧ s.stopped = false ∧ s.frame = .waitPredicate ∧
      s.lifecycle 0 = .submitted ∧ s.lifecycle 1 = .submitted ∧ s.openJobs.card < 2 ^ 32 ∧
      s.history = [.addDependency 1 0] ∧
      (run (guarded (fun s a => s.NotifiesInTime a ∧ SetupRule s a) (next .conditionVariable)) s
        ([.frame, .frame] ++ workerActions 0 20 ++ workerActions 1 16 ++ [.frame, .frame])).any
          (fun t => (∀ k, t.worker k = .blocked) ∧ t.frame = .idle) = true) (by decide +kernel)
  obtain ⟨t, ht, hend⟩ := (Option.any_eq_true _ _).mp hnext
  obtain ⟨hb, hidle⟩ := of_decide_eq_true hend
  have hworks : ∀ a ∈ [.frame, .frame] ++ workerActions (n := 2) 0 20 ++ workerActions 1 16 ++
      [.frame, .frame], a.Works := by
    intro a ha
    simp only [List.mem_append, List.mem_cons, List.not_mem_nil, or_false, workerActions,
      List.mem_replicate] at ha
    rcases ha with (((rfl | rfl) | ⟨-, rfl⟩) | ⟨-, rfl⟩) | rfl | rfl <;> trivial
  have hpath : ((ofNext init (next .conditionVariable)).restrict
      fun s a => s.NotifiesInTime a ∧ SetupRule s a).Path Action.Works s t := path_of_run hworks ht
  obtain ⟨r', rfl, i, hrest⟩ := hpath.exists_run
  let r : (jobSystem 2 .conditionVariable).Run Action.Works :=
    r'.mono fun _ _ _ ht => ⟨ht.1.2, ht.2⟩
  have hfair : Fair r := Fair.of_rest hrest hb
  have hframe : r.Just (· = .frame) := fun i₀ => ⟨max i i₀, le_max_right i i₀, .inr <| by
    rintro ⟨a, u, rfl, hu⟩
    have hstep : frameStep (r.state (max i i₀)) = some u := hu.2
    rw [show r.state (max i i₀) = t from (hrest _ (le_max_left i i₀)).1] at hstep
    simp [frameStep, hidle] at hstep⟩
  have hheard : HeardByFrame r := fun j a hl => (r'.step_of_label hl).2.1.1.2
  have h0 : (r.state 0).Submitted 0 := by
    show (r'.state 0).Submitted 0
    exact ⟨by simp [hl0], by simp [hl0]⟩
  have h1 : (r.state 0).Submitted 1 := by
    show (r'.state 0).Submitted 1
    exact ⟨by simp [hl1], by simp [hl1]⟩
  obtain ⟨i₁, hi₁, hbefore, hdone⟩ := fair_run_releases_frame (r := r) hs
    ⟨hrun, hst, show (r'.state 0).frame.addingJob = false by rw [hf]; rfl⟩ hfair hframe hheard
    (show (r'.state 0).frame.waiting = true by rw [hf]; rfl) fun _ hj => runnable_of_chain hh h0 hj
  exact ⟨r, hfair, hl1, hf, i₁, hi₁, hbefore, hdone hcard 0 h0, hdone hcard 1 h1⟩

end JobSystem
