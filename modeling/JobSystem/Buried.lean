import JobSystem.Frames
import JobSystem.Overfull
import JobSystem.SingleWorker

/-! A single worker examines the job at the back of its queue only. A job that waits for one in
front of it keeps both from ever running, whatever else is added. `UpdateParallel` with two particle
jobs or more does this to its rendering job. -/
namespace JobSystem
open TransitionSystem UpdateFunction
variable {m : WaitMode} {F P : ℕ} {M N : Runner 1} {j x y : JobId} {s t : State 1} {a : Action 1}
  {c : Call} {l : List Call}

theorem StepCase.history_subset {n : ℕ} {s t : State n} {a : Action n} (h : StepCase m s a t) :
    s.history ⊆ t.history := by
  obtain he | ⟨e, he, -⟩ := h.history
  · rw [he]
    exact List.Subset.refl _
  · rw [he]
    exact List.subset_cons_self e _

theorem State.FewEdges.of_path {n : ℕ} [NeZero n] {s t : State n} {A : Action n → Prop}
    (h : t.FewEdges) (hp : (jobSystem n m).Path A s t) (hr : (jobSystem n m).Reachable s) :
    s.FewEdges := by
  induction hp with
  | refl => exact h
  | head _ ht _ ih =>
    exact (ih h (hr.step ht)).of_step (step_cases ht).jobStep (reachable_ownership hr)

/-- Apart from its worker, only `AddJob` changes what a worker holds. -/
theorem StepCase.holdings {n : ℕ} {s t : State n} {a : Action n} (h : StepCase m s a t)
    (k : Fin n) : t.holdings k = s.holdings k ∨ (∃ k', WorkerStep m k' s t) ∨
      ∃ j, s.frame = .addJobPush j k .pushBack ∧
        t.holdings k = (s.queues k).deque ++ [j] ++ (s.worker k).hand.toList := by
  have same (hq : (t.queues k).deque = (s.queues k).deque)
      (hw : (t.worker k).hand = (s.worker k).hand) : t.holdings k = s.holdings k := by
    rw [State.holdings, hq, hw, State.holdings]
  cases h with
  | worker h => exact .inr (.inl ⟨_, h⟩)
  | frame h =>
    cases h with
    | @pushLock j q hp => exact .inl (setLocked_holdings s q true k)
    | @pushUnlock j q hp => exact .inl (setLocked_holdings s q false k)
    | @pushNotify j q hp => exact .inl (same rfl (notifyOne_sameWork s q k).hand)
    | @wakeOne i hi hp => exact .inl (same rfl (notifyOne_sameWork s ⟨i, hi⟩ k).hand)
    | @pushBack j q hp =>
      by_cases hk : k = q
      · subst hk
        exact .inr (.inr ⟨j, hp, by simp [State.holdings, JobQueue.push]⟩)
      · exact .inl (same (by simp [hk]) rfl)
    | _ => exact .inl rfl
  | @addDependency d x =>
    have honly := addDependency_onlyJobs s d x
    exact .inl (same (by rw [honly.queues]) (by rw [honly.worker]))
  | @wakeWorker k' hb =>
    refine .inl (same rfl ?_)
    by_cases hk : k = k'
    · subst hk
      rw [State.goto_self, hb]
      rfl
    · rw [State.goto_worker, Function.update_of_ne hk]
  | _ => exact .inl rfl

/-- What is not the last entry stays when that is taken away. -/
theorem sublist_of_concat {l r : List JobId} (h : (l ++ [x]).Sublist (r ++ [j])) (hne : x ≠ j) :
    (l ++ [x]).Sublist r := by
  rw [← List.reverse_sublist] at h ⊢
  simp only [List.reverse_append, List.reverse_singleton, List.singleton_append] at h ⊢
  exact h.of_cons_of_ne hne

/-- The job `x` waits for `y`, which lies in front of it. -/
structure Buried (x y : JobId) (s : State 1) : Prop where
  front : [y, x].Sublist (s.holdings 0)
  dependsOn : s.DependsOn x y

namespace Buried

theorem mem (h : Buried x y s) : y ∈ s.holdings 0 ∧ x ∈ s.holdings 0 :=
  ⟨h.front.subset (by simp), h.front.subset (by simp)⟩

theorem submitted (h : Buried x y s) (ho : Ownership s) : s.Submitted x := by
  rcases ho.held h.mem.2 with hl | hl <;> simp [State.Submitted, hl]

/-- The job in front is not the one in hand. -/
theorem unstarted (h : Buried x y s) (ho : Ownership s) : ¬ s.Started y := by
  intro hs
  have hrun : s.lifecycle y = .running := hs.resolve_right fun hf => by
    rcases ho.held h.mem.1 with hl | hl <;> exact absurd (hf.symm.trans hl) (by decide)
  obtain ⟨k, hk⟩ := ho.started.mp hrun
  obtain rfl := Subsingleton.elim k 0
  have hfront := h.front
  have hnodup := ho.nodup 0
  rw [State.holdings, hand_of_startedJob hk, Option.toList_some] at hfront hnodup
  obtain ⟨l₁, l₂, he, h₁, h₂⟩ := List.sublist_append_iff.mp hfront
  have hy : y ∉ (s.queues 0).deque := ho.not_mem_queue_of_hand (hand_of_startedJob hk)
  cases l₁ with
  | nil =>
    obtain rfl : [y, x] = l₂ := he
    exact absurd h₂.length_le (by simp)
  | cons z l₁ =>
    obtain ⟨rfl, -⟩ := List.cons.inj he
    exact hy (h₁.subset List.mem_cons_self)

/-- Nor has the other one been started, since it waits for it. -/
theorem unstarted_behind (h : Buried x y s) (hr : (jobSystem 1 m).Reachable s) (hf : s.FewEdges) :
    ¬ s.Started x := by
  intro hs
  have ho := reachable_ownership hr
  exact h.unstarted ho
    (ho.started_of_returned (returned_of_started hr hf hs (.single h.dependsOn)))

/-- What is pushed comes behind both, and what is deleted is neither. -/
theorem step (h : Buried x y s) (hr : (jobSystem 1 m).Reachable s) (hf : s.FewEdges)
    (ht : StepCase m s a t) : Buried x y t := by
  have ho := reachable_ownership hr
  refine ⟨?_, ht.history_subset h.dependsOn⟩
  obtain he | ⟨k, hw⟩ | ⟨z, -, he⟩ := ht.holdings 0
  · exact he ▸ h.front
  · obtain rfl := Subsingleton.elim k 0
    cases hw.holdings with
    | same he => exact he ▸ h.front
    | steal hs => exact absurd hs (reachable_not_steal hr)
    | @delete z hat he =>
      have hz : s.Started z := by
        obtain ⟨z', i, hp, -⟩ := hat
        have hlast := congrArg List.getLast? he
        obtain rfl : z' = z := by simpa [State.holdings, hp, WorkerPc.hand] using hlast
        exact .inl (ho.running_of_startedJob (k := 0) (by rw [hp]; rfl))
      have hx : x ≠ z := by rintro rfl; exact h.unstarted_behind hr hf hz
      exact sublist_of_concat (l := [y]) (he ▸ h.front) hx
  · rw [he]
    refine h.front.trans ?_
    rw [State.holdings, List.append_assoc]
    exact (List.sublist_append_right [z] _).append_left _

/-- Both stay where they are, whatever is added later and however the threads are interleaved. -/
theorem path {A : Action 1 → Prop} (h : Buried x y s) (hp : (jobSystem 1 m).Path A s t)
    (hr : (jobSystem 1 m).Reachable s) (hf : t.FewEdges) : Buried x y t := by
  induction hp with
  | refl => exact h
  | head _ ht hp ih =>
    have hr' := hr.step ht
    have hfew := hf.of_path hp hr'
    exact ih (h.step hr (hfew.of_step (step_cases ht).jobStep (reachable_ownership hr))
      (step_cases ht)) hr' hf

end Buried

/-- With one worker, a job that lies behind one that it waits for is lost, and so is that one:
whatever is added later and however the threads are interleaved, neither is ever started. -/
theorem buried_never_start (hr : (jobSystem 1 m).Reachable s) (hb : Buried x y s)
    (hp : (jobSystem 1 m).Path (fun _ => True) s t) (hf : t.FewEdges) :
    ¬ t.Started x ∧ ¬ t.Started y ∧ [y, x].Sublist (t.holdings 0) := by
  have hbt := hb.path hp hr hf
  have hrt := hp.reachable hr
  exact ⟨hbt.unstarted_behind hrt hf, hbt.unstarted (reachable_ownership hrt), hbt.front⟩

/-- Job 1 behind job 0, for which it waits; a third job is added behind both and executed. -/
theorem buried_never_start_two_jobs : ∃ t : State 1, t.Done 2 ∧ ¬ t.Started 1 ∧ ¬ t.Started 0 := by
  obtain ⟨s, hr, hd, hq, hnext⟩ := exists_of_execute (n := 1) (m := .conditionVariable)
    (l := [.call (.createJob 0), .call (.createJob 0), .call (.addDependency 1 0)] ++
      addJobActions 0 ++ addJobActions 1)
    (p := fun s => .addDependency 1 0 ∈ s.history ∧ s.holdings 0 = [0, 1] ∧
      (run (guarded SetupRule (next .conditionVariable)) s
        (.call (.createJob 0) :: addJobActions 2 ++ workerActions 0 12)).any
          (fun t => t.lifecycle 2 = .finished ∧ t.nextJob * maxDependentCount < 2 ^ 32))
    (by decide +kernel)
  obtain ⟨t, ht, hp⟩ := (Option.any_eq_true _ _).mp hnext
  obtain ⟨hfin, hn⟩ := of_decide_eq_true hp
  have hpath : (jobSystem 1 .conditionVariable).Path (fun _ => True) s t :=
    path_of_run (fun _ _ => trivial) ht
  have hb : Buried 1 0 s := ⟨by rw [hq], hd⟩
  obtain ⟨h1, h0, -⟩ := buried_never_start hr hb hpath (fewEdges_of_nextJob hn)
  exact ⟨t, (reachable_recorded (hpath.reachable hr)).done_of_finished hfin, h1, h0⟩

/-- What has been called, and is still to be called, up to the rendering job of the first frame. -/
def callsToParticles (P : ℕ) : List Call :=
  frameStart 0 ++ (List.range P).flatMap (particleCalls 0)

theorem updateParallel_rendering (hF : 0 < F) (P : ℕ) :
    ∃ tail, updateParallel F P 0 = callsToParticles P ++ .addJob 5 :: tail := by
  obtain ⟨F, rfl⟩ := Nat.exists_eq_add_of_le' hF
  rw [updateParallel, List.range_succ_eq_map, List.flatMap_cons, Nat.zero_mul, Nat.add_zero,
    frameCalls_eq]
  simp only [callsToParticles, frameAdds, List.map_cons, List.append_assoc, List.cons_append]
  exact ⟨_, rfl⟩

/-- All particle jobs of the first frame wait for the collision job, which has not been added, and
the rendering job for them. -/
structure Book.ParticlesWait (P : ℕ) (b : Book) : Prop where
  nextJob : 7 + P ≤ b.nextJob
  collision : b.created 2
  particle : ∀ o < P, ¬ b.created (7 + o) ∧ b.dependsOn (7 + o) 2 ∧ b.dependsOn 5 (7 + o)

theorem InFrame.particlesWait {b : Book} (h : InFrame 0 P b) :
    (b.after (.addJob 5)).ParticlesWait P := by
  refine ⟨by simp [Book.after, h.nextJob], ⟨by decide, (h.created 2).mpr (by decide)⟩,
    fun o ho => ⟨fun hc => ?_, ?_⟩⟩
  · have := (h.created (7 + o)).mp hc.2
    omega
  · show b.dependsOn (7 + o) 2 ∧ b.dependsOn 5 (7 + o)
    simpa using h.particle o ho

/-- They are in the queue or in the hands of the worker. -/
theorem Book.ParticlesWait.mem_holdings (h : s.book.ParticlesWait P)
    (hr : (jobSystem 1 m).Reachable s) (hf : s.FewEdges) (hhand : s.frame.hand = some 5) {o : ℕ}
    (ho : o < P) : 7 + o ∈ s.holdings 0 := by
  have hown := reachable_ownership hr
  obtain ⟨hc, hd, -⟩ := h.particle o ho
  have hlt : 7 + o < s.nextJob := (Nat.add_lt_add_left ho 7).trans_le h.nextJob
  have hsub : s.Submitted (7 + o) :=
    ⟨fun hu => absurd (hown.unallocated.mp hu) (Nat.not_le_of_lt hlt), hc⟩
  have hunstarted : ¬ s.Started (7 + o) := fun hs => by
    have h2 := hown.started_of_returned (returned_of_started hr hf hs (.single hd))
    have hcreated : s.lifecycle 2 = .created := h.collision
    rcases h2 with hl | hl <;> exact absurd (hcreated.symm.trans hl) (by decide)
  have hl : s.lifecycle (7 + o) = .submitted := by
    rcases hsub.cases with hl | hl | hl
    · exact hl
    · exact absurd (.inl hl) hunstarted
    · exact absurd (.inr hl) hunstarted
  obtain hh | ⟨k, hk⟩ := hown.located (.inl hl)
  · have : 5 = 7 + o := Option.some.inj (hhand.symm.trans hh)
    omega
  · exact Subsingleton.elim k 0 ▸ hk

/-- The rendering job is pushed behind one of two particle jobs at least, since the worker has not
more than one in its hands. -/
theorem Book.ParticlesWait.buried (h : s.book.ParticlesWait P) (h2 : 2 ≤ P)
    (hr : (jobSystem 1 m).Reachable s) (hf : s.FewEdges) (hhand : s.frame.hand = some 5)
    (ht : t.holdings 0 = (s.queues 0).deque ++ [5] ++ (s.worker 0).hand.toList)
    (hd : t.DependsOn = s.DependsOn) : ∃ y, Buried 5 y t := by
  have hqueued : ∃ o < P, 7 + o ∈ (s.queues 0).deque := by
    by_contra hnone
    have hhand {o : ℕ} (ho : o < P) : (s.worker 0).hand = some (7 + o) :=
      (JobSystem.mem_holdings.mp (h.mem_holdings hr hf hhand ho)).resolve_left
        fun hm => hnone ⟨o, ho, hm⟩
    have := Option.some.inj ((hhand (o := 0) (by omega)).symm.trans (hhand (o := 1) (by omega)))
    omega
  obtain ⟨o, ho, hm⟩ := hqueued
  refine ⟨7 + o, ?_, hd ▸ (h.particle o ho).2.2⟩
  rw [ht]
  exact ((List.singleton_sublist.mpr hm).append_right [5]).trans (List.sublist_append_left _ _)

/-- An `AddJob` keeps its job up to the push. -/
theorem StepCase.hand (h : StepCase m s a t) (ha : ∀ c, a ≠ .call c)
    (hj : s.frame.hand = some j) : t.frame.hand = some j ∨
      t.holdings 0 = (s.queues 0).deque ++ [j] ++ (s.worker 0).hand.toList := by
  obtain he | ⟨hb, -⟩ | ⟨-, hf⟩ | ⟨c, hc, -⟩ := h.frame_moves
  · exact .inl (he ▸ hj)
  · simp [hb, FramePc.hand] at hj
  · cases hf with
    | control hp hc =>
      rw [hp] at hj
      cases hc <;> cases hj
    | write hp =>
      rw [hp] at hj
      exact .inl hj
    | pushLock hp =>
      rw [hp] at hj
      exact .inl hj
    | @pushBack i q hp =>
      rw [hp] at hj
      obtain rfl : i = j := Option.some.inj hj
      obtain rfl := Subsingleton.elim q 0
      exact .inr (by simp [State.holdings, JobQueue.push])
    | pushNotify hp | pushUnlock hp | index hp | stop hp | wakeOne _ hp | joined _ hp =>
      rw [hp] at hj
      cases hj
  · exact absurd hc (ha c)

namespace Runner

/-- How far the rendering job of the first frame has come, if there is one worker. -/
inductive Rendering (P : ℕ) (M : Runner 1) : Prop
  | before : M.passes = 0 → M.system.nextJob = 0 → M.calls = [] ∨ M.calls = [.joinJobs] →
      Rendering P M
  | setUp {l tail : List Call} : M.passes = 1 → M.calls = l ++ .addJob 5 :: tail →
      InFrame 0 P (M.system.book.afterAll l) → Rendering P M
  | adding : M.passes = 1 → M.system.frame.hand = some 5 → M.system.book.ParticlesWait P →
      Rendering P M
  | buried {y : JobId} : Buried 5 y M.system → Rendering P M

namespace Rendering

theorem inside (h : M.Rendering P) (hM : M.Orderly m F P) (hP : P ≤ 12) (h2 : 2 ≤ P)
    (ha : ∀ c, a ≠ .call c) (ht : next m M.system a = some t) :
    Rendering P { M with system := t } := by
  have hs := step_cases (Orderly.step_inside ha ht)
  have hbook : t.book = M.system.book := hs.book (reachable_ownership hM.reachable) ha
  cases h with
  | before hp hn hl => exact .before hp ((congrArg Book.nextJob hbook).trans hn) hl
  | setUp hp hl hframe => exact .setUp hp hl (hbook ▸ hframe)
  | adding hp hhand hwait =>
    obtain hhand' | hpush := hs.hand ha hhand
    · exact .adding hp hhand' (hbook ▸ hwait)
    · obtain ⟨y, hy⟩ := hwait.buried h2 hM.reachable (hM.fewEdges hP) hhand hpush
        (congrArg Book.dependsOn hbook)
      exact .buried hy
  | buried hy => exact .buried (hy.step hM.reachable (hM.fewEdges hP) hs)

theorem call (h : M.Rendering P) (hM : M.Orderly m F P) (hP : P ≤ 12) (hc : M.calls = c :: l)
    (hi : M.system.frame = .idle) (hj : c = .joinJobs → M.system.joined = false) :
    Rendering P { M with system := callStep M.system c, calls := l } := by
  have hbook := book_of_allows (hM.allows hc).1
  cases h with
  | before hp hn hl =>
    obtain hl | hl := hl <;> rw [hc] at hl
    · cases hl
    · obtain ⟨rfl, rfl⟩ := List.cons.inj hl
      exact .before hp hn (.inl rfl)
  | @setUp l' tail hp hl hframe =>
    rw [hc] at hl
    cases l' with
    | nil =>
      obtain ⟨rfl, rfl⟩ := List.cons.inj hl
      exact .adding hp rfl (hbook ▸ InFrame.particlesWait hframe)
    | cons c' l' =>
      obtain ⟨rfl, rfl⟩ := List.cons.inj hl
      exact .setUp hp rfl (hbook ▸ hframe)
  | adding _ hhand =>
    rw [hi] at hhand
    cases hhand
  | buried hy =>
    exact .buried (hy.step hM.reachable (hM.fewEdges hP) (step_cases (hM.step_next_call hc hi hj)))

theorem unstarted (h : M.Rendering P) (hM : M.Orderly m F P) (hP : P ≤ 12) :
    ¬ M.system.Started 5 := by
  have ho := reachable_ownership hM.reachable
  intro hs
  have hl : M.system.lifecycle 5 ≠ .unallocated ∧ M.system.lifecycle 5 ≠ .created := by
    rcases hs with hl | hl <;> simp [hl]
  cases h with
  | before _ hn => exact hl.1 (ho.unallocated.mpr (hn.trans_le (Nat.zero_le 5)))
  | setUp _ _ hframe =>
    exact M.system.book.not_created_afterAll _ (ho.lt_nextJob hl.1) hl.2
      ((hframe.created 5).mpr (by decide))
  | adding _ hhand =>
    rcases hs with hl | hl <;> exact absurd ((ho.frame hhand).1.symm.trans hl) (by decide)
  | buried hy => exact hy.unstarted_behind hM.reachable (hM.fewEdges hP) hs

/-- Behind the first call the rendering job is still there, so that the call has been ended by the
store to `isRunning`. -/
theorem not_running (h : M.Rendering P) (hM : M.Orderly m F P) (hN : F * (7 + P) < 2 ^ 32)
    (hpass : M.passes ≠ 0) (hc : M.calls = []) (hi : M.system.frame = .idle) :
    M.system.isRunning = false := by
  have ho := reachable_ownership hM.reachable
  by_contra hrun
  cases h with
  | before hp => exact hpass hp
  | setUp _ hl => simp [hc] at hl
  | adding _ hhand =>
    rw [hi] at hhand
    cases hhand
  | buried hy =>
    have hlt := ho.lt_nextJob (hy.submitted ho).1
    have hfin := (hM.rest hN hc hi (Bool.eq_true_of_not_eq_false hrun) 5 hlt).finished
    rcases ho.held hy.mem.2 with hl | hl <;> exact absurd (hfin.symm.trans hl) (by decide)

end Rendering

theorem reachable_rendering (hF : 0 < F) (h2 : 2 ≤ P) (hP : P ≤ 12)
    (h : (mainRunner 1 m F P).Reachable M) : M.Rendering P := by
  refine h.invariant (fun _ hi => hi ▸ .before rfl rfl (.inl rfl)) fun M r N hr hM hN => ?_
  have hord := reachable_orderly hP hr
  cases runner_cases hN with
  | inside ha ht => exact hM.inside hord hP h2 ha ht
  | call hc hi hj => exact hM.call hord hP hc hi hj
  | pass hc hi =>
    cases hM with
    | before hp hn =>
      obtain ⟨tail, htail⟩ := updateParallel_rendering hF P
      have hnone : ∀ j, ¬ M.system.book.created j := by
        have ha := hord.added
        rwa [hc] at ha
      obtain ⟨-, hframe⟩ := inFrame_zero (P := P) (Nat.dvd_zero _) hn hnone
      obtain ⟨-, hframe⟩ := hframe.nextAll (Nat.dvd_zero _) (Nat.le_refl P) hP
      refine .setUp (congrArg (· + 1) hp) (by rw [← htail, ← hn]) ?_
      rw [callsToParticles, Book.afterAll_append]
      exact hframe
    | setUp _ hl => simp [hc] at hl
    | adding _ hhand =>
      rw [hi] at hhand
      cases hhand
    | buried hy => exact .buried hy
  | leave hc hi =>
    cases hM with
    | before hp hn => exact .before hp hn (.inr rfl)
    | setUp _ hl => simp [hc] at hl
    | adding _ hhand =>
      rw [hi] at hhand
      cases hhand
    | buried hy => exact .buried hy

/-- One worker never gets over the first call of `UpdateParallel`, if there are two particle jobs or
more: in no run is the rendering job started, there is no second call, and the first returns to
the loop only when it has been told to quit. -/
theorem one_worker_never_renders (hF : 0 < F) (h2 : 2 ≤ P) (hP : P ≤ 12)
    (h : (mainRunner 1 m F P).Reachable M) :
    .start 0 5 ∉ M.system.history ∧ (F * (7 + P) < 2 ^ 32 → M.passes ≤ 1 ∧
      (M.passes = 1 → M.calls = [] → M.system.frame = .idle → M.system.isRunning = false)) := by
  have hord := reachable_orderly hP h
  have hM := reachable_rendering hF h2 hP h
  refine ⟨fun hs => hM.unstarted hord hP ?_, fun hN => ⟨?_, fun hp => ?_⟩⟩
  · exact (reachable_recorded hord.reachable).start_mem_order.mp (start_mem_order hs)
  · refine h.invariant (I := fun M => M.passes ≤ 1) (fun _ hi => hi ▸ Nat.zero_le 1)
      fun M r N hr hM hN' => ?_
    cases runner_cases hN' with
    | inside | call | leave => exact hM
    | pass hc hi hrun =>
      by_contra hlt
      have hpass : M.passes ≠ 0 := fun hp => hlt (show M.passes + 1 ≤ 1 by omega)
      have := (reachable_rendering hF h2 hP hr).not_running (reachable_orderly hP hr) hN hpass hc hi
      simp [hrun] at this
  · exact hM.not_running hord hN (by omega)

/-- The worker has not begun, and what it is about to do will not help. -/
theorem one_worker_never_renders_two_particles : ∃ M : Runner 1,
    (mainRunner 1 .conditionVariable 1 2).Reachable M ∧ M.system.frame = .waitPredicate ∧
      .start 0 5 ∉ M.system.history ∧ M.passes ≤ 1 := by
  obtain ⟨M, hM, -, hw, -⟩ := exists_calm_wait 1 .conditionVariable 1 (P := 2) (by decide)
  obtain ⟨hs, hpass⟩ := one_worker_never_renders Nat.one_pos (Nat.le_refl 2) (by decide) hM
  exact ⟨M, hM, hw, hs, (hpass (by decide)).1⟩

end Runner

end JobSystem
