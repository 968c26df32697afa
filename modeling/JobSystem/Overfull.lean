import JobSystem.Undisturbed

/-! `UpdateParallel` with more particle jobs than `AddDependency` has room for. The thirteenth is
one too many for the collision job, which already has the animation job for a dependent: the
process ends before any function has run, since whatever has been added by then waits for the
collision job, and that has not been added. -/
namespace JobSystem
open TransitionSystem UpdateFunction
variable {n : ℕ} {m : WaitMode} {F P : ℕ} {M N : Runner n} {k : Fin n} {j : JobId}
  {s t : State n} {a : Action n} {c : Call} {b : Book} {l tail : List Call}

/-- The calls of the first frame up to its twelfth particle job. -/
def callsWithRoom : List Call := frameStart 0 ++ (List.range 12).flatMap (particleCalls 0)

theorem updateParallel_overfull (hF : 0 < F) (hP : 13 ≤ P) : ∃ tail, updateParallel F P 0 =
    callsWithRoom ++ .createJob particles.address :: .addDependency 19 2 :: tail := by
  obtain ⟨F, rfl⟩ := Nat.exists_eq_add_of_le' hF
  obtain ⟨p, rfl⟩ := Nat.exists_eq_add_of_le hP
  have hrange : List.range (13 + p) = List.range 12 ++ 12 :: (List.range p).map (13 + ·) := by
    rw [List.range_add]
    rfl
  have hparticles : (List.range (13 + p)).flatMap (particleCalls 0) =
      (List.range 12).flatMap (particleCalls 0) ++ (particleCalls 0 12 ++
        ((List.range p).map (13 + ·)).flatMap (particleCalls 0)) := by
    rw [hrange, List.flatMap_append, List.flatMap_cons]
  rw [updateParallel, List.range_succ_eq_map, List.flatMap_cons, Nat.zero_mul, Nat.add_zero,
    frameCalls_eq, hparticles]
  simp only [callsWithRoom, particleCalls, List.append_assoc, List.cons_append, List.nil_append]
  exact ⟨_, rfl⟩

/-- The calls that fit follow the plan of a frame with twelve particle jobs. -/
theorem callsWithRoom_follow (hn : b.nextJob = 0) (hc : ∀ j, ¬ b.created j) :
    b.Follows (framePlan 12) callsWithRoom ∧ InFrame 0 12 (b.afterAll callsWithRoom) := by
  obtain ⟨hstart, hframe⟩ := inFrame_zero (P := 12) (Nat.dvd_zero _) hn hc
  obtain ⟨hparticles, hframe⟩ :=
    hframe.nextAll (P := 12) (i := 12) (Nat.dvd_zero _) (by decide) (by decide)
  rw [callsWithRoom, Book.follows_append, Book.afterAll_append]
  exact ⟨⟨hstart, hparticles⟩, hframe⟩

theorem setsUp_of_mem_callsWithRoom : ∀ c ∈ callsWithRoom, c.SetsUp := by
  intro c hc
  simp only [callsWithRoom, frameStart, List.mem_append, List.mem_map, List.mem_flatMap,
    particleCalls, List.mem_cons, List.not_mem_nil, or_false] at hc
  obtain (⟨o, -, rfl⟩ | ⟨e, -, rfl⟩) | ⟨o, -, rfl | rfl | rfl | rfl⟩ := hc <;> trivial

/-- A job that has been added is not created again. -/
theorem Book.not_created_afterAll (b : Book) (l : List Call) (hj : j < b.nextJob)
    (hc : ¬ b.created j) : ¬ (b.afterAll l).created j := by
  induction l generalizing b with
  | nil => exact hc
  | cons c l ih =>
    cases c with
    | createJob f => exact ih _ (Nat.lt_succ_of_lt hj) (by simp [Book.after, hc, hj.ne])
    | addDependency d x => exact ih _ hj hc
    | addJob i => exact ih _ hj fun h => hc h.2
    | waitForAllJobs | joinJobs => exact ih _ hj hc

/-- None of the first seven jobs has been added, and all others depend on the collision job. -/
structure Book.Idle (b : Book) : Prop where
  few : b.nextJob ≤ 20
  first : ∀ j < b.nextJob, j < 7 → b.created j
  particle : ∀ j < b.nextJob, 7 ≤ j → ¬ b.created j → b.dependsOn j 2

theorem Book.idle_of_room (hk : b.Kept (framePlan 12)) (hl : InFrame 0 12 (b.afterAll l)) :
    b.Idle := by
  have hnext : b.nextJob ≤ 19 := (b.nextJob_le_afterAll l).trans_eq hl.nextJob
  refine ⟨hnext.trans (by decide), fun j hj h7 => ?_, fun j hj h7 hc => ?_⟩
  · by_contra hc
    exact b.not_created_afterAll l hj hc ((hl.created j).mpr (by omega))
  · refine hk.needs hj hc ⟨?_, ?_⟩
    · show j / 19 = 2 / 19
      omega
    · obtain ⟨i, rfl⟩ := Nat.exists_eq_add_of_le' h7
      show functionAt 2 ∈ (functionAt ((i + 7) % 19)).dependencies
      rw [Nat.mod_eq_of_lt (by omega)]
      exact List.mem_singleton.mpr rfl

theorem Book.Idle.createJob (h : b.Idle) (hn : b.nextJob < 20) (f : JobFunction) :
    (b.after (.createJob f)).Idle := by
  refine ⟨hn, fun j hj h7 => ?_, fun j hj h7 hc => ?_⟩
  · obtain hlt | rfl := Nat.lt_succ_iff_lt_or_eq.mp hj
    · exact .inr (h.first j hlt h7)
    · exact .inl rfl
  · obtain ⟨hne, hc⟩ := not_or.mp hc
    exact h.particle j ((Nat.lt_succ_iff_lt_or_eq.mp hj).resolve_right hne) h7 hc

/-- Then nothing has been started. -/
theorem Book.Idle.unstarted [NeZero n] (h : s.book.Idle) (hr : (jobSystem n m).Reachable s) :
    ∀ k j, .start k j ∉ s.history := by
  intro k j hs
  have ho := reachable_ownership hr
  have hstarted : s.Started j :=
    (reachable_recorded hr).start_mem_order.mp (start_mem_order hs)
  have hsub {x : JobId} (hx : s.Started x) : x < s.nextJob ∧ ¬ s.book.created x := by
    have hl : s.lifecycle x ≠ .unallocated ∧ s.lifecycle x ≠ .created := by
      rcases hx with hl | hl <;> simp [hl]
    exact ⟨ho.lt_nextJob hl.1, hl.2⟩
  obtain ⟨hj, hc⟩ := hsub hstarted
  have h7 : 7 ≤ j := Nat.le_of_not_lt fun hlt => hc (h.first j hj hlt)
  have hfew : s.FewEdges := fewEdges_of_nextJob (by
    have hn : s.nextJob ≤ 20 := h.few
    show s.nextJob * 13 < 2 ^ 32
    exact (Nat.mul_le_mul_right 13 hn).trans_lt (by decide))
  have hret := returned_of_started hr hfew hstarted (.single (h.particle j hj h7 hc))
  obtain ⟨h2, hc2⟩ := hsub (ho.started_of_returned hret)
  exact hc2 (h.first 2 h2 (by decide))

/-- Nothing follows `exit`. -/
theorem StepCase.exiting (h : StepCase m s a t) (hs : s.frame.inExit = true) :
    t.frame = s.frame := by
  obtain he | ⟨hb, -⟩ | ⟨-, hf⟩ | ⟨c, -, hi, -⟩ := h.frame_moves
  · exact he
  · simp [hb, FramePc.inExit] at hs
  · simp [hf.not_inExit.1] at hs
  · simp [hi, FramePc.inExit] at hs

/-- The process is ended by `AddDependency` only, with status 1 and its message. -/
theorem reachable_exiting [NeZero n] (h : (jobSystem n m).Reachable s)
    (hs : s.frame.inExit = true) : s.frame = .exiting 1 dependentsMessage := by
  refine h.invariant (I := fun s => s.frame.inExit = true → s.frame = .exiting 1 dependentsMessage)
    (fun _ hi => ?_) (fun s a t _ hs ht hx => ?_) hs
  · subst hi
    simp [init, FramePc.inExit]
  obtain he | ⟨-, hn⟩ | ⟨-, hf⟩ | ⟨c, -, hi, rfl⟩ := (step_cases ht).frame_moves
  · exact he.trans (hs (he ▸ hx))
  · simp [hn, FramePc.inExit] at hx
  · simp [hf.not_inExit.2] at hx
  · obtain he | he | ⟨j, -, he⟩ | ⟨-, he⟩ | ⟨-, he⟩ := callStep_frame hi c <;>
      simp_all [FramePc.inExit]

namespace Runner

/-- How far `main_runner` has come when its first call of `UpdateParallel` is overfull. -/
inductive Stage (M : Runner n) : Prop
  | before : M.passes = 0 → M.system.nextJob = 0 → M.system.book.Kept (framePlan 12) →
      M.calls = [] ∨ M.calls = [.joinJobs] → Stage M
  | setUp {l tail : List Call} : M.passes = 1 →
      M.calls = l ++ .createJob particles.address :: .addDependency 19 2 :: tail →
      M.system.book.Kept (framePlan 12) → M.system.book.Follows (framePlan 12) l →
      InFrame 0 12 (M.system.book.afterAll l) → (∀ c ∈ l, c.SetsUp) → Stage M
  | full {tail : List Call} : M.passes = 1 → M.calls = .addDependency 19 2 :: tail →
      M.system.book.Idle → M.system.book.created 19 → M.system.book.created 2 →
      M.system.book.dependents 2 = 13 → Stage M
  | exited : M.passes = 1 → M.system.frame = .exiting 1 dependentsMessage → M.system.book.Idle →
      Stage M

namespace Stage

theorem idle (h : M.Stage) : M.system.book.Idle := by
  cases h with
  | before _ hn =>
    have hn : M.system.book.nextJob = 0 := hn
    exact ⟨by omega, fun j hj => by omega, fun j hj => by omega⟩
  | setUp _ _ hk _ hl => exact Book.idle_of_room hk hl
  | full _ _ hb | exited _ _ hb => exact hb

theorem passes_le (h : M.Stage) : M.passes ≤ 1 := by
  cases h with
  | before hp => omega
  | setUp hp | full hp | exited hp => exact hp.le

/-- The call that is due keeps the promise of `SetupRule`. -/
theorem setupRule (h : M.Stage) (hc : M.calls = c :: l) (hi : M.system.frame = .idle) :
    SetupRule M.system (.call c) := by
  cases h with
  | before _ _ _ hl =>
    obtain hl | hl := hl <;> rw [hc] at hl
    · cases hl
    · obtain ⟨rfl, -⟩ := List.cons.inj hl
      trivial
  | @setUp l' _ _ hl _ hf =>
    rw [hc] at hl
    cases l' with
    | nil =>
      obtain ⟨rfl, -⟩ := List.cons.inj hl
      trivial
    | cons c' l' =>
      obtain ⟨rfl, -⟩ := List.cons.inj hl
      exact setupRule_of_allows hf.1
  | full _ hl _ h19 h2 =>
    rw [hc] at hl
    obtain ⟨rfl, -⟩ := List.cons.inj hl
    exact ⟨h19, h2⟩
  | exited _ hx => exact absurd (hi.symm.trans hx) (by simp)

theorem call (h : M.Stage) (hc : M.calls = c :: l) (hi : M.system.frame = .idle) :
    Stage { M with system := callStep M.system c, calls := l } ∧
      (callStep M.system c).frame.waiting = false := by
  cases h with
  | before hp hn hk hl =>
    obtain hl | hl := hl <;> rw [hc] at hl
    · cases hl
    · obtain ⟨rfl, rfl⟩ := List.cons.inj hl
      exact ⟨.before hp hn hk (.inl rfl), rfl⟩
  | @setUp l' tail hp hl hk hf hroom hsets =>
    rw [hc] at hl
    cases l' with
    | nil =>
      obtain ⟨rfl, rfl⟩ := List.cons.inj hl
      have hn : M.system.nextJob = 19 := hroom.nextJob
      have hbook := callStep_book M.system (.createJob particles.address) (by simp)
      refine ⟨.full hp rfl ?_ ?_ ?_ ?_, ?_⟩
      · rw [hbook]
        exact (Book.idle_of_room hk hroom).createJob (hn.trans_lt (by decide)) _
      · rw [hbook]
        exact .inl hn.symm
      · rw [hbook]
        exact .inr ((hroom.created 2).mpr (by decide))
      · rw [hbook]
        show Function.update M.system.book.dependents M.system.nextJob 0 2 = 13
        rw [hn, Function.update_of_ne (by decide)]
        exact hroom.collision
      · show M.system.frame.waiting = false
        rw [hi]
        rfl
    | cons c' l' =>
      obtain ⟨rfl, rfl⟩ := List.cons.inj hl
      obtain ⟨hallow, hf⟩ := hf
      obtain ⟨hset, hsets⟩ := List.forall_mem_cons.mp hsets
      have hbook := book_of_allows hallow
      refine ⟨.setUp hp rfl ?_ ?_ ?_ hsets, ?_⟩
      · rw [hbook]
        exact hk.after hallow
      · rw [hbook]
        exact hf
      · rw [hbook]
        exact hroom
      · obtain hframe | ⟨j, hframe⟩ := hset.frame hi hallow <;> rw [hframe] <;> rfl
  | full hp hl hb h19 h2 hd =>
    rw [hc] at hl
    obtain ⟨rfl, rfl⟩ := List.cons.inj hl
    rw [callStep_exit (show maxDependentCount ≤ (M.system.jobs 2).dependentCount from hd.ge)]
    exact ⟨.exited hp rfl hb, rfl⟩
  | exited _ hx => exact absurd (hi.symm.trans hx) (by simp)

end Stage

theorem kept_init [NeZero n] : (init : State n).book.Kept (framePlan 12) where
  functions hj := absurd hj (Nat.not_lt_zero _)
  needs hj := absurd hj (Nat.not_lt_zero _)
  related hd := absurd hd List.not_mem_nil

structure Overfull [NeZero n] (m : WaitMode) (M : Runner n) : Prop where
  reachable : (jobSystem n m).Reachable M.system
  stage : M.Stage
  /-- `WaitForAllJobs` is not called. -/
  waiting : M.system.frame.waiting = false

theorem reachable_overfull [NeZero n] (hF : 0 < F) (hP : 13 ≤ P)
    (h : (mainRunner n m F P).Reachable M) : M.Overfull m := by
  refine h.invariant (fun _ hi => hi ▸ ⟨.init rfl, .before rfl rfl kept_init (.inl rfl), rfl⟩)
    fun M r N _ hM hN => ?_
  cases runner_cases hN with
  | @inside a t ha ht =>
    have hstep := Orderly.step_inside ha ht
    have hs := step_cases hstep
    have hbook : t.book = M.system.book := hs.book (reachable_ownership hM.reachable) ha
    refine ⟨hM.reachable.step hstep, ?_, ?_⟩
    · cases hM.stage with
      | before hp hn hk hl =>
        exact .before hp ((congrArg Book.nextJob hbook).trans hn) (hbook ▸ hk) hl
      | setUp hp hl hk hf hroom hsets =>
        exact .setUp hp hl (hbook ▸ hk) (hbook ▸ hf) (hbook ▸ hroom) hsets
      | full hp hl hb h19 h2 hd =>
        exact .full hp hl (hbook ▸ hb) (hbook ▸ h19) (hbook ▸ h2) (hbook ▸ hd)
      | exited hp hx hb =>
        exact .exited hp ((hs.exiting (by rw [hx]; rfl)).trans hx) (hbook ▸ hb)
    · exact Bool.eq_false_of_not_eq_true fun hw =>
        Bool.eq_false_iff.mp hM.waiting ((hs.phase ha).waiting hw)
  | call hc hi hj =>
    obtain ⟨hstage, hw⟩ := hM.stage.call hc hi
    exact ⟨hM.reachable.step (step_call (hM.stage.setupRule hc hi) hi hj), hstage, hw⟩
  | pass hc hi hr =>
    refine ⟨hM.reachable, ?_, hM.waiting⟩
    cases hM.stage with
    | before hp hn hk =>
      obtain ⟨tail, htail⟩ := updateParallel_overfull hF hP
      have hnone : ∀ j, ¬ M.system.book.created j := fun j hj => by
        have hu : M.system.lifecycle j = .unallocated :=
          (reachable_ownership hM.reachable).unallocated.mpr (hn.trans_le (Nat.zero_le j))
        exact absurd (hu.symm.trans hj) (by decide)
      obtain ⟨hf, hroom⟩ := callsWithRoom_follow hn hnone
      exact .setUp (congrArg (· + 1) hp) (by rw [← htail, ← hn]) hk hf hroom
        setsUp_of_mem_callsWithRoom
    | setUp _ hl => simp [hc] at hl
    | full _ hl => simp [hc] at hl
    | exited _ hx => exact absurd (hi.symm.trans hx) (by simp)
  | leave hc hi =>
    refine ⟨hM.reachable, ?_, hM.waiting⟩
    cases hM.stage with
    | before hp hn hk => exact .before hp hn hk (.inr rfl)
    | setUp _ hl => simp [hc] at hl
    | full _ hl => simp [hc] at hl
    | exited _ hx => exact absurd (hi.symm.trans hx) (by simp)

/-- The calls before the exit leave the workers alone. -/
theorem Stage.calm (h : M.Stage) (hs : Calm M.system) (hc : M.calls = c :: l)
    (hi : M.system.frame = .idle) (hpass : M.passes = 1) : Calm (callStep M.system c) ∧
      ((callStep M.system c).frame = .exiting 1 dependentsMessage ∨
        (callStep M.system c).frame = .idle ∨ (callStep M.system c).frame.addingJob = true) := by
  cases h with
  | before hp => omega
  | @setUp l' _ _ hl _ hf _ hsets =>
    rw [hc] at hl
    cases l' with
    | nil =>
      obtain ⟨rfl, -⟩ := List.cons.inj hl
      exact ⟨hs.congr rfl (.inl rfl), .inr (.inl hi)⟩
    | cons c' l' =>
      obtain ⟨rfl, -⟩ := List.cons.inj hl
      have hset := hsets c List.mem_cons_self
      refine ⟨(hs.callStep hset hf.1).1, .inr ?_⟩
      exact (hset.frame hi hf.1).imp_right fun ⟨j, hj⟩ => by rw [hj]; rfl
  | full _ hl _ _ _ hd =>
    rw [hc] at hl
    obtain ⟨rfl, -⟩ := List.cons.inj hl
    rw [callStep_exit (show maxDependentCount ≤ (M.system.jobs 2).dependentCount from hd.ge)]
    exact ⟨hs.congr rfl (.inl rfl), .inl rfl⟩
  | exited _ hx => exact absurd (hi.symm.trans hx) (by simp)

theorem Stage.exists_call (h : M.Stage) (hi : M.system.frame = .idle) (hpass : M.passes = 1) :
    ∃ c l, M.calls = c :: l ∧ c ≠ .joinJobs := by
  cases h with
  | before hp => omega
  | @setUp l' tail _ hl _ _ _ hsets =>
    cases l' with
    | nil => exact ⟨_, _, hl, by simp⟩
    | cons c' l' =>
      refine ⟨_, _, hl, ?_⟩
      rintro rfl
      exact hsets _ List.mem_cons_self
  | full _ hl => exact ⟨_, _, hl, by simp⟩
  | exited _ hx => exact absurd (hi.symm.trans hx) (by simp)

/-- The frame thread comes to the exit. -/
theorem exists_exiting [NeZero n] (m : WaitMode) (hF : 0 < F) (hP : 13 ≤ P) :
    ∃ M : Runner n, (mainRunner n m F P).Reachable M ∧
      M.system.frame = .exiting 1 dependentsMessage := by
  let M : Runner n := { system := init, calls := [], left := false, passes := 0 }
  have hloop : (mainRunner n m F P).step M .loop
      { M with calls := updateParallel F P 0, passes := 1 } := rfl
  obtain ⟨N, -, ⟨hN, -⟩, hx⟩ := System.exists_path_of_decreasing (T := mainRunner n m F P)
    (A := fun _ => True)
    (I := fun N => (mainRunner n m F P).Reachable N ∧ Calm N.system ∧ N.passes = 1 ∧
      (N.system.frame = .exiting 1 dependentsMessage ∨ N.system.frame = .idle ∨
        N.system.frame.addingJob = true))
    (P := fun N => N.system.frame = .exiting 1 dependentsMessage) wellFounded_lt
    (fun N => toLex (N.calls.length, N.system.frame.untilAdded))
    (fun N hN hx => by
      obtain ⟨hr, hcalm, hpass, hf⟩ := hN
      have hover := reachable_overfull hF hP hr
      obtain hi | hadd := hf.resolve_left hx
      · obtain ⟨c, l, hc, hj⟩ := hover.stage.exists_call hi hpass
        have hstep : (mainRunner n m F P).step N .call
            { N with system := callStep N.system c, calls := l } := by
          show runnerNext m F P N .call = _
          simp [runnerNext, hc, next, hi, hj]
        obtain ⟨hcalm', hf'⟩ := hover.stage.calm hcalm hc hi hpass
        refine ⟨_, _, trivial, hstep, ⟨hr.step hstep, hcalm', hpass, hf'⟩, ?_⟩
        apply Prod.Lex.toLex_lt_toLex.mpr
        exact .inl (by rw [hc]; exact Nat.lt_succ_self _)
      · obtain ⟨t, ht⟩ := hcalm.exists_frameStep (reachable_mutex hover.reachable) hadd
        obtain ⟨hcalm', -, hlt, hf'⟩ := hcalm.frameStep (.of_frameStep ht) hadd
        have hstep : (mainRunner n m F P).step N (.inside .frame) { N with system := t } := by
          show runnerNext m F P N (.inside .frame) = _
          simp [runnerNext, next, ht]
        refine ⟨_, _, trivial, hstep, ⟨hr.step hstep, hcalm', hpass, .inr hf'⟩, ?_⟩
        apply Prod.Lex.toLex_lt_toLex.mpr
        exact .inr ⟨rfl, hlt⟩)
    { M with calls := updateParallel F P 0, passes := 1 }
    ⟨.step (.init rfl) hloop, Calm.init, rfl, .inr (.inl rfl)⟩
  exact ⟨N, hN, hx⟩

/-- `AddDependency` ends the process in some run, for any number of workers and frames, if and only
if there are more than twelve particle jobs. -/
theorem exits_iff_overfull [NeZero n] (m : WaitMode) (hF : 0 < F) :
    (∃ M : Runner n, (mainRunner n m F P).Reachable M ∧ M.system.frame.inExit = true) ↔
      13 ≤ P := by
  constructor
  · rintro ⟨M, hM, hx⟩
    by_contra hP
    have hord := reachable_orderly (Nat.le_of_lt_succ (Nat.lt_of_not_le hP)) hM
    simp [hord.placed.exiting] at hx
  · intro hP
    obtain ⟨M, hM, hx⟩ := exists_exiting (n := n) m hF hP
    exact ⟨M, hM, by rw [hx]; rfl⟩

theorem exits_iff_overfull_default : ∃ M : Runner 3,
    (mainRunner 3 .conditionVariable 1 13).Reachable M ∧
      M.system.frame = .exiting 1 "Jobsystem only supports a max of 13 dependents.\n" := by
  obtain ⟨M, hM, hx⟩ :=
    (exits_iff_overfull (n := 3) .conditionVariable (F := 1) Nat.one_pos).mpr (Nat.le_refl 13)
  have hreach := (reachable_overfull Nat.one_pos (Nat.le_refl 13) hM).reachable
  exact ⟨M, hM, reachable_exiting hreach hx⟩

/-- An overfull frame is lost as a whole: in no run is any function started, a second call made or
`WaitForAllJobs` come to, and the call that has begun ends in the exit only. -/
theorem overfull_runs_nothing [NeZero n] (hF : 0 < F) (hP : 13 ≤ P)
    (h : (mainRunner n m F P).Reachable M) :
    (∀ k j, .start k j ∉ M.system.history) ∧ M.passes ≤ 1 ∧ M.system.frame.waiting = false ∧
      (M.passes = 1 → M.system.frame = .exiting 1 dependentsMessage ∨ M.calls ≠ []) := by
  have hM := reachable_overfull hF hP h
  refine ⟨hM.stage.idle.unstarted hM.reachable, hM.stage.passes_le, hM.waiting, fun hpass => ?_⟩
  cases hM.stage with
  | before hp => omega
  | setUp _ hl | full _ hl => exact .inr (by simp [hl])
  | exited _ hx => exact .inl hx

theorem overfull_runs_nothing_exit : ∃ M : Runner 3,
    M.system.frame = .exiting 1 dependentsMessage ∧ ∀ k j, .start k j ∉ M.system.history := by
  obtain ⟨M, hM, hx⟩ := exists_exiting (n := 3) .conditionVariable (F := 1) (P := 13) Nat.one_pos
    (Nat.le_refl 13)
  exact ⟨M, hx, (overfull_runs_nothing Nat.one_pos (Nat.le_refl 13) hM).1⟩

end Runner

end JobSystem
