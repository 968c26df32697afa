import JobSystem.DependencyOrder
import JobSystem.Search

/-! Which jobs can run at all, and that with at least two workers all of these can still be run
to their end: some job whose predecessors are done is always ready, and its worker finds it. -/
namespace JobSystem
open TransitionSystem
variable {n : ℕ} {m : WaitMode} {k : Fin n} {j x : JobId} {s t : State n} {a : Action n}

/-- All the job depends on has been submitted, and neither the job nor anything it depends on lies
on a cycle. -/
structure State.Runnable (s : State n) (j : JobId) : Prop where
  submitted : s.Submitted j
  predecessors : ∀ x, Relation.TransGen s.DependsOn j x → s.Submitted x
  acyclic : ∀ x, Relation.ReflTransGen s.DependsOn j x → ¬ Relation.TransGen s.DependsOn x x

/-- No stop flag is set and no `AddJob` is in progress. -/
structure State.Working (s : State n) : Prop where
  isRunning : s.isRunning = true
  stopped : s.stopped = false
  addingJob : s.frame.addingJob = false

/-- While no job is being added, the workers and their queues hold all that is not finished. -/
theorem Ownership.located_worker (h : Ownership s) (hf : s.frame.addingJob = false)
    (hl : s.lifecycle j = .submitted ∨ s.lifecycle j = .running) : ∃ k, j ∈ s.holdings k := by
  refine (h.located hl).resolve_left fun hh => ?_
  cases hp : s.frame <;> simp_all [FramePc.hand, FramePc.addingJob]

theorem Recorded.submitted_of_ret (h : Recorded s) (ho : Ownership s) (hx : .ret x ∈ s.order) :
    s.Submitted x := by
  rcases h.ret_mem_order.mp hx with hl | ⟨k, hk⟩
  · exact ⟨by simp [hl], by simp [hl]⟩
  · rcases ho.held (mem_holdings_of_hand (hand_of_returnedJob hk)) with hl | hl <;>
      exact ⟨by simp [hl], by simp [hl]⟩

/-- Only runnable jobs are ever started. -/
theorem runnable_of_start [NeZero n] (h : (jobSystem n m).Reachable s) (hf : s.FewEdges)
    (hs : .start k j ∈ s.history) : s.Runnable j := by
  have ho := reachable_ownership h
  have hr := reachable_recorded h
  have hlog := reachable_order h hf
  have hstart : .start j ∈ s.order := start_mem_order hs
  have hret {x} (hx : Relation.TransGen s.DependsOn j x) : .ret x ∈ s.order :=
    Precedence.ret_of_start hlog hstart (dependsOn_order ▸ hx)
  refine ⟨?_, fun x hx => hr.submitted_of_ret ho (hret hx), fun x hx hc => ?_⟩
  · rcases hr.start_mem_order.mp hstart with hl | hl <;> exact ⟨by simp [hl], by simp [hl]⟩
  · have hxs : .start x ∈ s.order := by
      rcases Relation.reflTransGen_iff_eq_or_transGen.mp hx with rfl | hx
      · exact hstart
      · exact Precedence.start_of_ret hlog (hret hx)
    exact Precedence.not_cyclic_of_start hlog hxs (dependsOn_order ▸ hc)

/-- Some job behind a runnable unfinished one waits for nothing any more. -/
theorem State.Runnable.exists_ready [NeZero n] (h : (jobSystem n m).Reachable s)
    (hj : s.Runnable j) (hu : s.lifecycle j ≠ .finished) :
    ∃ x, s.Submitted x ∧ s.lifecycle x ≠ .finished ∧ s.pendingEdges x = ∅ := by
  classical
  have ho := reachable_ownership h
  have hr := reachable_recorded h
  have hsub {x} (hx : Relation.ReflTransGen s.DependsOn j x) : s.Submitted x := by
    rcases Relation.reflTransGen_iff_eq_or_transGen.mp hx with rfl | hx
    · exact hj.submitted
    · exact hj.predecessors x hx
  let U := (Finset.range s.nextJob).filter fun x =>
    Relation.ReflTransGen s.DependsOn j x ∧ s.lifecycle x ≠ .finished
  have hmem {x} : x ∈ U ↔ Relation.ReflTransGen s.DependsOn j x ∧ s.lifecycle x ≠ .finished := by
    rw [Finset.mem_filter, Finset.mem_range, and_iff_right_iff_imp]
    exact fun hx => ho.lt_nextJob (hsub hx.1).1
  obtain ⟨x, hx, hmin⟩ := Precedence.exists_independent (r := s.DependsOn) U
    ⟨j, hmem.mpr ⟨.refl, hu⟩⟩ fun x hx => hj.acyclic x (hmem.mp hx).1
  obtain ⟨hjx, hux⟩ := hmem.mp hx
  refine ⟨x, hsub hjx, hux, Finset.eq_empty_of_forall_notMem fun ⟨y, i⟩ he => ?_⟩
  obtain ⟨hedge, hpend⟩ := mem_pendingEdges.mp he
  have hdep : s.DependsOn x y := hr.links.mpr ⟨i, hedge⟩
  exact hmin y (hmem.mpr ⟨hjx.tail hdep, hpend.1⟩) (.single hdep)

/-- What the steps of workers keep: the flags, the declared dependencies, what is submitted. -/
structure WorkerFrame (s t : State n) : Prop where
  working : s.Working → t.Working
  dependsOn : t.DependsOn = s.DependsOn
  submitted : ∀ {j}, s.Submitted j → t.Submitted j

theorem WorkerStep.workerFrame (h : WorkerStep m k s t) : WorkerFrame s t := by
  have hadd : t.frame.addingJob = s.frame.addingJob := by
    cases h with
    | notifyFrame | exitNotify => exact notifyAll_congr (·.addingJob) rfl s
    | _ => rfl
  refine ⟨fun hw => ⟨?_, ?_, hadd.trans hw.addingJob⟩, ?_, fun {j} hj => ?_⟩
  · cases h <;> exact hw.isRunning
  · cases h <;> exact hw.stopped
  · funext d x
    cases h with
    | start | ret | decrement | delete => simp [State.DependsOn]
    | _ => rfl
  · cases h with
    | @start j' | @delete j' =>
      by_cases hne : j = j'
      · exact ⟨by simp [hne], by simp [hne]⟩
      · simpa [State.Submitted, hne] using hj
    | _ => exact hj

theorem WorkerFrame.runnable (h : WorkerFrame s t) (hj : s.Runnable j) : t.Runnable j where
  submitted := h.submitted hj.submitted
  predecessors x hx := h.submitted (hj.predecessors x (h.dependsOn ▸ hx))
  acyclic x hx hc := hj.acyclic x (h.dependsOn ▸ hx) (h.dependsOn ▸ hc)

/-- What `exists_fewer` keeps while it runs worker `k` alone: no more than `N` jobs are unfinished,
and if it is still `N`, then the worker holds `x`, which waits for nothing. -/
structure Seeking (k : Fin n) (x : JobId) (N : ℕ) (s : State n) : Prop where
  working : s.Working
  unfinished : s.unfinished.card ≤ N
  held : s.unfinished.card = N → x ∈ s.holdings k ∧ s.pendingEdges x = ∅

/-- The steps still to go: first the jobs to finish, then the iterations until `x` is met, then
the steps of the current iteration. -/
def seekRank (k : Fin n) (x : JobId) (s : State n) : ℕ ×ₗ ℕ ×ₗ ℕ :=
  toLex (s.unfinished.card, toLex (s.distance k x, s.rank k))

theorem seekRank_lt_of_distance (hc : t.unfinished.card = s.unfinished.card)
    (hd : t.distance k x < s.distance k x ∨
      t.distance k x = s.distance k x ∧ t.rank k < s.rank k) :
    seekRank k x t < seekRank k x s := by
  refine Prod.Lex.toLex_lt_toLex.mpr (.inr ⟨hc, Prod.Lex.toLex_lt_toLex.mpr ?_⟩)
  exact hd

/-- With two workers `rand()` may return another index than the worker's own. -/
theorem exists_foreign (hn : 2 ≤ n) (k : Fin n) : ∃ r, r % n ≠ k := by
  by_cases hk : (k : ℕ) = 0
  · exact ⟨1, by rw [Nat.mod_eq_of_lt hn, hk]; exact one_ne_zero⟩
  · exact ⟨0, by rw [Nat.zero_mod]; exact Ne.symm hk⟩

theorem exists_steal_step [NeZero n] (hn : 2 ≤ n) (hp : s.worker k = .stealIndex) :
    ∃ c, (jobSystem n m).step s (.worker k c) (s.goto k .steal) := by
  obtain ⟨r, hr⟩ := exists_foreign hn k
  refine ⟨{ rand := r }, trivial, ?_⟩
  simp [ofNext, next, workerStep, hp, hr]

/-- While the system works, no worker has ended. -/
theorem State.Working.not_waits [NeZero n] (hw : s.Working) (h : (jobSystem n m).Reachable s)
    (hs : ¬ (s.worker k).Asleep) : ¬ s.Waits k := by
  rintro (hb | he)
  · exact hs (.inr hb)
  · have := (reachable_shutdown h).exit (.inr he)
    simp [hw.isRunning] at this

/-- A worker that holds a job and is about to wait finds a job to be there. -/
theorem available_of_holdings (hx : x ∈ s.holdings k) (hp : s.worker k = .waitPredicate) :
    s.jobsAvailable k = true := by
  have hne : (s.queues k).deque ≠ [] := by
    rintro hnil
    simp [State.holdings, hp, hnil, WorkerPc.hand] at hx
  simp [State.jobsAvailable, JobQueue.isEmpty, hne]

theorem Seeking.step {N : ℕ} [NeZero n] (hn : 2 ≤ n) (h : (jobSystem n .predicate).Reachable s)
    (hs : Seeking k x N s) (hN : ¬ s.unfinished.card < N) :
    ∃ a t, a.IsWorker ∧ (jobSystem n .predicate).step s a t ∧ Seeking k x N t ∧
      seekRank k x t < seekRank k x s := by
  have ho := reachable_ownership h
  have hl := reachable_linked h
  have hcard : s.unfinished.card = N := le_antisymm hs.unfinished (Nat.le_of_not_lt hN)
  obtain ⟨hx, hpend⟩ := hs.held hcard
  by_cases hindex : s.worker k = .stealIndex
  · obtain ⟨c, ht⟩ := exists_steal_step (m := .predicate) hn hindex
    have hhold : (s.goto k .steal).holdings k = s.holdings k :=
      holdings_goto (by simp [State.holdings, hindex, WorkerPc.hand])
    refine ⟨_, _, ⟨k, c, rfl⟩, ht, ⟨?_, hs.unfinished, fun _ => ⟨hhold ▸ hx, ?_⟩⟩,
      seekRank_lt_of_distance rfl (.inr ⟨?_, ?_⟩)⟩
    · exact ⟨hs.working.isRunning, hs.working.stopped, hs.working.addingJob⟩
    · rw [pendingEdges_goto (by rw [hindex]; rfl), hpend]
    · unfold State.distance
      rw [hhold, hindex]
      simp [WorkerPc.phase]
    · simp [State.rank, hindex, WorkerPc.rank]
  · have hcreated : s.lifecycle x ≠ .created := by
      rcases ho.held hx with hlx | hlx <;> simp [hlx]
    have h0 : (s.jobs x).dependencyCount = 0 := by
      have hcount := reachable_counted h x
      rw [hpend] at hcount
      exact UInt32.toNat_inj.mp hcount
    have hwait := hs.working.not_waits h (reachable_awake h k)
    obtain ⟨t, ht⟩ := exists_workerStep h {} hwait hs.working.addingJob
      fun _ hp => available_of_holdings hx hp
    have hcase := step_cases ht
    have hwork := workerStep_of_step ht
    have hsub := hcase.jobStep.pendingEdges_subset ho hl hcreated
    rw [hpend] at hsub
    refine ⟨_, t, ⟨k, {}, rfl⟩, ht, ?_⟩
    rcases hwork.unfinished ho (reachable_ownership (h.step ht)) with ⟨hat, hu⟩ | ⟨hat, j, hj, hu⟩
    · have hxt : x ∈ t.holdings k := by
        cases hwork.holdings with
        | same he => rwa [he]
        | steal _ _ hs' ht' =>
          rw [ht', List.mem_append, List.mem_singleton, or_comm, ← List.mem_cons]
          rwa [hs'] at hx
        | delete hd => exact absurd hd hat
      refine ⟨⟨hwork.workerFrame.working hs.working, hu ▸ hs.unfinished,
        fun _ => ⟨hxt, Finset.subset_empty.mp hsub⟩⟩, seekRank_lt_of_distance (by rw [hu]) ?_⟩
      rcases hwork.distance hx h0 hs.working.isRunning hs.working.stopped hindex with
        hd | hd | ⟨hd, hne⟩
      · exact absurd hd hat
      · exact .inl hd
      · have hrank := hwork.rank_lt hl <| by
          rintro (⟨hp, -⟩ | ⟨hp, ha⟩)
          · exact hne hp
          · simp [available_of_holdings hx hp] at ha
        rcases hd.lt_or_eq with hd | hd
        · exact .inl hd
        · exact .inr ⟨hd, hrank⟩
    · have hlt : t.unfinished.card < s.unfinished.card := by
        rw [hu]
        exact Finset.card_erase_lt_of_mem hj
      refine ⟨⟨hwork.workerFrame.working hs.working, by omega, fun he => by omega⟩, ?_⟩
      exact Prod.Lex.toLex_lt_toLex.mpr (.inl hlt)

/-- A worker that holds a job which waits for nothing finishes some job. -/
theorem exists_fewer [NeZero n] (hn : 2 ≤ n) (h : (jobSystem n .predicate).Reachable s)
    (hw : s.Working) (hx : x ∈ s.holdings k) (hpend : s.pendingEdges x = ∅) :
    ∃ t, (jobSystem n .predicate).Path Action.IsWorker s t ∧ t.Working ∧
      t.unfinished.card < s.unfinished.card := by
  obtain ⟨t, hpath, ⟨-, ht⟩, hlt⟩ := System.exists_path_of_decreasing
    (I := fun t => (jobSystem n .predicate).Reachable t ∧ Seeking k x s.unfinished.card t)
    (P := fun t => t.unfinished.card < s.unfinished.card) wellFounded_lt (seekRank k x)
    (fun u ⟨hr, hs⟩ hN => by
      obtain ⟨a, t, ha, ht, hst, hlt⟩ := hs.step hn hr hN
      exact ⟨a, t, ha, ht, ⟨hr.step ht, hst⟩, hlt⟩)
    s ⟨h, hw, le_rfl, fun _ => ⟨hx, hpend⟩⟩
  exact ⟨t, hpath, ht.working, hlt⟩

theorem path_workerFrame [NeZero n] (h : (jobSystem n m).Path Action.IsWorker s t) :
    WorkerFrame s t := by
  induction h with
  | refl => exact ⟨id, rfl, id⟩
  | head ha ht _ ih =>
    obtain ⟨k, c, rfl⟩ := ha
    have hf := (workerStep_of_step ht).workerFrame
    exact ⟨ih.working ∘ hf.working, ih.dependsOn.trans hf.dependsOn, fun hj =>
      ih.submitted (hf.submitted hj)⟩

/-- All runnable jobs can be finished, one after the other. -/
theorem exists_all_finished [NeZero n] (hn : 2 ≤ n) (N : ℕ)
    (h : (jobSystem n .predicate).Reachable s) (hw : s.Working) (hN : s.unfinished.card = N) :
    ∃ t, (jobSystem n .predicate).Path Action.IsWorker s t ∧
      ∀ j, s.Runnable j → t.lifecycle j = .finished := by
  induction N using Nat.strong_induction_on generalizing s with
  | _ N ih =>
    by_cases hall : ∀ j, s.Runnable j → s.lifecycle j = .finished
    · exact ⟨s, .refl s, hall⟩
    · obtain ⟨j, hj, hu⟩ : ∃ j, s.Runnable j ∧ s.lifecycle j ≠ .finished := by simpa using hall
      obtain ⟨x, hsub, hux, hpend⟩ := hj.exists_ready h hu
      have hloc : s.lifecycle x = .submitted ∨ s.lifecycle x = .running := by
        rcases hsub.cases with hl | hl | hl
        · exact .inl hl
        · exact .inr hl
        · exact absurd hl hux
      obtain ⟨k, hk⟩ := (reachable_ownership h).located_worker hw.addingJob hloc
      obtain ⟨t, hpath, hwt, hlt⟩ := exists_fewer hn h hw hk hpend
      obtain ⟨u, hpath', hfin⟩ := ih _ (hN ▸ hlt) (hpath.reachable h) hwt rfl
      exact ⟨u, hpath.trans hpath', fun j hj => hfin j ((path_workerFrame hpath).runnable hj)⟩

theorem runnable_of_acyclic (hj : s.Submitted j)
    (hall : ∀ d x, s.DependsOn d x → s.Submitted x)
    (hacyc : ∀ x, ¬ Relation.TransGen s.DependsOn x x) : s.Runnable j where
  submitted := hj
  predecessors x hx := by
    obtain ⟨y, -, hy⟩ := Relation.TransGen.tail'_iff.mp hx
    exact hall y x hy
  acyclic x _ := hacyc x

/-- Only runnable jobs are executed, as long as no dependency counter wraps; and with at least two
workers, from every state in which the system is running and no job is being added, the workers
can finish all of them by themselves, which is every job when the graph is acyclic and
everything is submitted. -/
theorem runnable_jobs_complete [NeZero n] (hn : 2 ≤ n)
    (h : (jobSystem n .predicate).Reachable s) :
    (s.FewEdges → ∀ k j, .start k j ∈ s.history → s.Runnable j) ∧
      (s.isRunning = true → s.stopped = false → s.frame.addingJob = false →
        ∃ t, (jobSystem n .predicate).Path Action.IsWorker s t ∧
          (∀ j, s.Runnable j → t.Done j) ∧
          ((∀ x, ¬ Relation.TransGen s.DependsOn x x) → (∀ j < s.nextJob, s.Submitted j) →
            ∀ j < s.nextJob, t.Done j)) := by
  refine ⟨fun hf k j hs => runnable_of_start h hf hs, fun hrun hst hadd => ?_⟩
  obtain ⟨t, hpath, hfin⟩ := exists_all_finished hn _ h ⟨hrun, hst, hadd⟩ rfl
  have hrec := reachable_recorded (hpath.reachable h)
  refine ⟨t, hpath, fun j hj => hrec.done_of_finished (hfin j hj), fun hacyc hall j hj => ?_⟩
  refine hrec.done_of_finished (hfin j (runnable_of_acyclic (hall j hj) (fun d x hx => ?_) hacyc))
  obtain ⟨i, hi⟩ := (reachable_recorded h).links.mp hx
  exact hall x (mem_edges.mp hi).1

/-- Two workers on a chain of two jobs, submitted in the order in which a lone worker would be
stuck, together with a job on a cycle. -/
theorem runnable_jobs_complete_chain : ∃ s t : State 2, s.lifecycle 0 = .submitted ∧
    s.lifecycle 1 = .submitted ∧ (jobSystem 2 .predicate).Path Action.IsWorker s t ∧
    t.Done 0 ∧ t.Done 1 := by
  obtain ⟨s, hr, hrun, hst, hadd, hl0, hl1, hh⟩ := exists_of_execute (n := 2) (m := .predicate)
    (l := [.call (.createJob 0), .call (.createJob 1), .call (.createJob 2),
      .call (.addDependency 1 0), .call (.addDependency 2 2)] ++ addJobActions 0 ++
      addJobActions 1 ++ addJobActions 2 ++ workerActions 0 5)
    (p := fun s => s.isRunning = true ∧ s.stopped = false ∧ s.frame.addingJob = false ∧
      s.lifecycle 0 = .submitted ∧ s.lifecycle 1 = .submitted ∧
      s.history = [.addDependency 2 2, .addDependency 1 0]) (by decide +kernel)
  have hdep (d x) : s.DependsOn d x ↔ d = 2 ∧ x = 2 ∨ d = 1 ∧ x = 0 := by
    simp [State.DependsOn, hh]
  have hfrom {d x} (hx : Relation.TransGen s.DependsOn d x) (hd : d ≠ 2) : d = 1 ∧ x = 0 := by
    induction hx with
    | single hx => simpa [hdep, hd] using hx
    | tail _ hx ih =>
      obtain ⟨-, rfl⟩ := ih
      simp [hdep] at hx
  have hsub (j) (hj : s.lifecycle j = .submitted) : s.Submitted j :=
    ⟨by simp [hj], by simp [hj]⟩
  have hrunnable (j) (hj : s.lifecycle j = .submitted) (hne : j ≠ 2) : s.Runnable j := by
    refine ⟨hsub j hj, fun x hx => ?_, fun x hx hc => ?_⟩
    · rw [(hfrom hx hne).2]; exact hsub 0 hl0
    · rcases Relation.reflTransGen_iff_eq_or_transGen.mp hx with rfl | hx
      · obtain ⟨rfl, h0⟩ := hfrom hc hne
        simp at h0
      · obtain ⟨-, rfl⟩ := hfrom hx hne
        simpa using (hfrom hc (by simp)).1
  obtain ⟨t, hpath, hdone, -⟩ := (runnable_jobs_complete le_rfl hr).2 hrun hst hadd
  exact ⟨s, t, hl0, hl1, hpath, hdone 0 (hrunnable 0 hl0 (by simp)),
    hdone 1 (hrunnable 1 hl1 (by simp))⟩

/-- With `2 ^ 32` edges the counter of job 0 is 0 again, and job 0 is executed although nothing it
depends on has been submitted. -/
theorem start_of_wrapped_counter : ∃ s : State 2, (jobSystem 2 .predicate).Reachable s ∧
    .start 0 0 ∈ s.history ∧ ¬ s.Runnable 0 := by
  obtain ⟨s, hr, hs, hd, hn⟩ := exists_of_run
    (reachable_fanIn (m := .predicate) (G := fun _ _ => True) (fun _ _ => trivial)
      (2 ^ 32)).of_restrict
    (l := addJobActions 0 ++ workerActions 0 7)
    (p := fun s => .start 0 0 ∈ s.history ∧ .addDependency 0 (2 ^ 32) ∈ s.history ∧
      ¬ s.Submitted (2 ^ 32)) (by decide +kernel)
  exact ⟨s, hr, hs, fun hj => hn (hj.predecessors _ (.single hd))⟩

end JobSystem
