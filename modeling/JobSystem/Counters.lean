import JobSystem.Ownership
import JobSystem.JobStep

/-! The dependency counter of a job counts the edges into it whose decrement is still to
come, at every point of every run of `~Job`. -/
namespace JobSystem
open TransitionSystem
variable {n : ℕ} {m : WaitMode} {k : Fin n} {j d x : JobId} {i : ℕ} {e : JobId × ℕ}
  {s t : State n}

/-- The array of dependents is well formed, and no destructor runs past its end. -/
structure Linked (s : State n) : Prop where
  bound : ∀ x, (s.jobs x).dependentCount ≤ maxDependentCount
  entries : ∀ {x i}, i < (s.jobs x).dependentCount →
    ∃ d, (s.jobs x).dependentAt i = some d ∧ d < s.nextJob
  fresh : ∀ {x}, s.nextJob ≤ x → (s.jobs x).dependentCount = 0
  progress : ∀ k x, (s.worker k).decremented x ≤ (s.jobs x).dependentCount

/-- A job has passed the check of its counter, and may be started or already deleted. -/
def State.Cleared (s : State n) (j : JobId) : Prop :=
  (∃ k, s.worker k = .execute j) ∨ s.lifecycle j = .running ∨ s.lifecycle j = .finished

/-- Every counter is the number of pending edges into its job, as a 32-bit number. -/
def Counted (s : State n) : Prop :=
  ∀ j, (s.jobs j).dependencyCount.toNat = (s.pendingEdges j).card % 2 ^ 32

theorem returnedJob_of_decremented {p : WorkerPc n} (h : p.decremented x ≠ 0) :
    p.returnedJob = some x := by
  cases p <;> simp_all [WorkerPc.decremented, WorkerPc.returnedJob]

theorem Ownership.decremented_of_ne (h : Ownership s) {k' : Fin n}
    (hk : (s.worker k).hand = some x) (hne : k' ≠ k) : (s.worker k').decremented x = 0 := by
  by_contra hc
  exact hne (h.hand_unique (hand_of_returnedJob (returnedJob_of_decremented hc)) hk)

theorem Ownership.decremented_of_not_running (h : Ownership s) (hx : s.lifecycle x ≠ .running)
    (k : Fin n) : (s.worker k).decremented x = 0 := by
  by_contra hc
  exact hx (h.running_of_startedJob (startedJob_of_returnedJob (returnedJob_of_decremented hc)))

theorem Ownership.lt_nextJob (h : Ownership s) (hx : s.lifecycle x ≠ .unallocated) :
    x < s.nextJob := lt_of_not_ge fun hle => hx (h.unallocated.mpr hle)

theorem mem_edges : e ∈ s.edges j ↔ e.1 < s.nextJob ∧ e.2 < maxDependentCount ∧
    e.2 < (s.jobs e.1).dependentCount ∧ (s.jobs e.1).dependentAt e.2 = some j := by
  simp [State.edges, and_assoc]

theorem mem_pendingEdges : e ∈ s.pendingEdges j ↔ e ∈ s.edges j ∧ s.Pending e := by
  simp [State.pendingEdges]

theorem Linked.mem_edges (h : Linked s) : e ∈ s.edges j ↔
    e.2 < (s.jobs e.1).dependentCount ∧ (s.jobs e.1).dependentAt e.2 = some j := by
  rw [JobSystem.mem_edges]
  refine ⟨fun he => he.2.2, fun he => ⟨?_, he.1.trans_le (h.bound _), he⟩⟩
  by_contra hn
  have h0 := h.fresh (Nat.le_of_not_lt hn)
  omega

theorem dependentAt_congr {x y : Job n} (h : y.dependents = x.dependents) (i : ℕ) :
    y.dependentAt i = x.dependentAt i := by
  unfold Job.dependentAt
  rw [h]

theorem Quiet.edges (h : Quiet s t) (j : JobId) : t.edges j = s.edges j := by
  ext e
  rw [mem_edges, mem_edges, h.nextJob, (h.links e.1).dependentCount,
    dependentAt_congr (h.links e.1).dependents]

theorem Quiet.pending (h : Quiet s t) (e : JobId × ℕ) : t.Pending e ↔ s.Pending e := by
  simp only [State.Pending, h.lifecycle, (h.progress _).decremented]

theorem Quiet.pendingEdges (h : Quiet s t) (j : JobId) : t.pendingEdges j = s.pendingEdges j := by
  ext e
  rw [mem_pendingEdges, mem_pendingEdges, h.edges, h.pending]

/-- What `AddDependency` writes, when there is room for one more dependent. -/
theorem addDependency_jobs (hm : (s.jobs x).dependentCount < maxDependentCount) (y : JobId) :
    ((callStep s (.addDependency d x)).jobs y).dependentCount =
      (s.jobs y).dependentCount + (if y = x then 1 else 0) ∧
    (∀ i, ((callStep s (.addDependency d x)).jobs y).dependentAt i =
      if y = x ∧ i = (s.jobs x).dependentCount then some d else (s.jobs y).dependentAt i) ∧
    ((callStep s (.addDependency d x)).jobs y).dependencyCount =
      (s.jobs y).dependencyCount + (if y = d then 1 else 0) := by
  have hat (i) : ((s.jobs x).addDependent d).dependentAt i =
      if i = (s.jobs x).dependentCount then some d else (s.jobs x).dependentAt i := by
    rw [Job.dependentAt_addDependent]
    exact if_congr (and_iff_left_of_imp fun he => he ▸ hm) rfl rfl
  rw [callStep_addDependency hm]
  by_cases hx : y = x <;> by_cases hd : y = d
  · subst hx hd
    refine ⟨by simp, fun i => ?_, by simp⟩
    exact (dependentAt_congr (by simp) i).trans ((hat i).trans (by simp))
  · subst hx; simp [hd, hat]
  · subst hd
    refine ⟨by simp [hx], fun i => ?_, by simp [hx]⟩
    exact (dependentAt_congr (x := s.jobs y) (by simp [hx]) i).trans (by simp [hx])
  · simp [hx, hd]

namespace Linked

theorem init [NeZero n] : Linked (init : State n) := by
  constructor <;> simp [JobSystem.init, WorkerPc.decremented]

/-- Steps that change neither an array of dependents nor how far a destructor is. -/
theorem of_same (h : Linked s) (hc : ∀ x, (t.jobs x).dependentCount = (s.jobs x).dependentCount)
    (ha : ∀ x i, (t.jobs x).dependentAt i = (s.jobs x).dependentAt i)
    (hn : t.nextJob = s.nextJob)
    (hp : ∀ k x, (t.worker k).decremented x ≤ (s.jobs x).dependentCount) : Linked t where
  bound x := hc x ▸ h.bound x
  entries hi := by
    rw [ha, hn]
    exact h.entries (hc _ ▸ hi)
  fresh hx := (hc _).trans (h.fresh (hn ▸ hx))
  progress k x := (hc x).symm ▸ hp k x

theorem step (h : Linked s) (ho : Ownership s) (ht : JobStep s t) : Linked t := by
  cases ht with
  | quiet hq =>
    exact h.of_same (fun x => (hq.links x).dependentCount)
      (fun x => dependentAt_congr (hq.links x).dependents) hq.nextJob
      (fun k x => (hq.progress k).decremented ▸ h.progress k x)
  | addJob => exact h.of_same (fun _ => rfl) (fun _ _ => rfl) rfl h.progress
  | @ready k a j | @start k j | @ret k j | @delete k j i =>
    refine h.of_same (fun _ => rfl) (fun _ _ => rfl) rfl fun k' x => ?_
    by_cases hk : k' = k
    · subst hk; simp [WorkerPc.decremented]
    · simpa [hk] using h.progress k' x
  | @decrement k j i d hp hi hd =>
    refine h.of_same (fun x => ?_) (fun x i => dependentAt_congr ?_ i) rfl fun k' x => ?_
    · by_cases hx : x = d <;> simp [hx]
    · by_cases hx : x = d <;> simp [hx]
    · by_cases hk : k' = k
      · subst hk
        by_cases hx : j = x
        · subst hx; simpa [WorkerPc.decremented] using Nat.succ_le_of_lt hi
        · simp [WorkerPc.decremented, hx]
      · simpa [hk] using h.progress k' x
  | createJob f =>
    have h0 (k) : (s.worker k).decremented s.nextJob = 0 :=
      Nat.le_zero.mp ((h.progress k _).trans_eq (h.fresh le_rfl))
    refine ⟨fun x => ?_, fun {x i} hi => ?_, fun {x} hx => ?_, fun k x => ?_⟩ <;>
      by_cases hx' : x = s.nextJob
    · simp [callStep, hx']
    · simpa [callStep, hx'] using h.bound x
    · simp [callStep, hx'] at hi
    · obtain ⟨d, hd, hlt⟩ := h.entries (x := x) (i := i) (by simpa [callStep, hx'] using hi)
      exact ⟨d, by simpa [callStep, hx'] using hd, Nat.lt_succ_of_lt hlt⟩
    · simp [callStep, hx']
    · simpa [callStep, hx'] using h.fresh (Nat.le_of_succ_le hx)
    · subst hx'; simp [callStep, h0 k]
    · simpa [callStep, hx'] using h.progress k x
  | @addDependency d x hd hx hm =>
    have hn := (addDependency_onlyJobs s d x).nextJob
    have hw := (addDependency_onlyJobs s d x).worker
    have hlt (y) (hy : s.lifecycle y = .created) : y < s.nextJob := ho.lt_nextJob (by simp [hy])
    refine ⟨fun y => ?_, fun {y i} hi => ?_, fun {y} hy => ?_, fun k y => ?_⟩ <;>
      obtain ⟨hc, ha, -⟩ := addDependency_jobs (d := d) hm y
    · rw [hc]
      by_cases hyx : y = x
      · subst hyx; simpa using Nat.succ_le_of_lt hm
      · simpa [hyx] using h.bound y
    · rw [ha, hn]
      by_cases hyx : y = x ∧ i = (s.jobs x).dependentCount
      · exact ⟨d, by simp [hyx], hlt d hd⟩
      · rw [if_neg hyx]
        refine h.entries ?_
        rw [hc] at hi
        by_cases hy : y = x
        · subst hy
          simp only [true_and] at hyx
          simp only [↓reduceIte] at hi
          omega
        · simpa [hy] using hi
    · have hne : y ≠ x := by
        rintro rfl
        have := hlt y hx
        rw [hn] at hy
        exact absurd this (Nat.not_lt.mpr hy)
      rw [hc, if_neg hne]
      exact h.fresh (hn ▸ hy)
    · rw [hc, hw]
      exact (h.progress k y).trans (Nat.le_add_right _ _)

end Linked

theorem reachable_linked [NeZero n] (h : (jobSystem n m).Reachable s) : Linked s :=
  h.invariant (fun _ hs => hs ▸ .init) fun _ _ _ hr hi ht =>
    hi.step (reachable_ownership hr) (step_cases ht).jobStep

/-- The pair whose decrement is next in a destructor is pending. -/
theorem Ownership.pending_next (h : Ownership s) (hp : s.worker k = .destroy j i) :
    s.Pending (j, i) := by
  have hand : (s.worker k).hand = some j := by simp [hp, WorkerPc.hand]
  refine ⟨h.not_finished_of_hand hand, fun k' => ?_⟩
  by_cases hk : k' = k
  · subst hk; simp [hp, WorkerPc.decremented]
  · simp [h.decremented_of_ne hand hk]

/-- No edge leads into a job that does not exist. -/
theorem Linked.edges_unallocated (h : Linked s) (hj : s.nextJob ≤ j) : s.edges j = ∅ := by
  refine Finset.eq_empty_of_forall_notMem fun e he => ?_
  obtain ⟨hi, hd⟩ := h.mem_edges.mp he
  obtain ⟨d, hd', hlt⟩ := h.entries hi
  obtain rfl := Option.some.inj (hd.symm.trans hd')
  exact absurd hlt (Nat.not_lt.mpr hj)

/-- A new job has no dependents. -/
theorem edges_createJob (s : State n) (f : JobFunction) (j : JobId) :
    (callStep s (.createJob f)).edges j = s.edges j := by
  ext ⟨y, i⟩
  rw [mem_edges, mem_edges]
  by_cases hy : y = s.nextJob
  · simp [callStep, hy]
  · have hlt : y < s.nextJob + 1 ↔ y < s.nextJob := Nat.lt_succ_iff.trans (Ne.le_iff_lt hy)
    simp [callStep, hy, hlt]

/-- `AddDependency(d, x)` adds one edge, into `d`. -/
theorem edges_addDependency (hm : (s.jobs x).dependentCount < maxDependentCount)
    (hx : x < s.nextJob) (j : JobId) :
    (callStep s (.addDependency d x)).edges j =
      if j = d then insert (x, (s.jobs x).dependentCount) (s.edges j) else s.edges j := by
  have hn := (addDependency_onlyJobs s d x).nextJob
  ext ⟨y, i⟩
  obtain ⟨hc, ha, -⟩ := addDependency_jobs (d := d) hm y
  rw [JobSystem.mem_edges, hc, ha, hn]
  by_cases hyx : y = x
  · subst hyx
    by_cases hi : i = (s.jobs y).dependentCount
    · subst hi
      by_cases hj : j = d
      · simp [hj, hx, hm]
      · simp [hj, Ne.symm hj, JobSystem.mem_edges]
    · have hlt : i < (s.jobs y).dependentCount + 1 ↔ i < (s.jobs y).dependentCount := by omega
      by_cases hj : j = d <;> simp [hj, hi, JobSystem.mem_edges, hlt]
  · by_cases hj : j = d <;> simp [hj, hyx, JobSystem.mem_edges]

/-- A step of worker `k` to a position in which it has decremented as much as before. -/
theorem pendingEdges_goto {p : WorkerPc n} (hd : p.decremented = (s.worker k).decremented)
    (j : JobId) : (s.goto k p).pendingEdges j = s.pendingEdges j := by
  ext e
  rw [mem_pendingEdges, mem_pendingEdges]
  refine and_congr Iff.rfl (and_congr Iff.rfl (forall_congr' fun k' => ?_))
  by_cases hk : k' = k
  · subst hk; simp [hd]
  · simp [hk]

/-- A change of lifecycle that neither deletes a job nor takes a deletion back. -/
theorem finished_update {l : Lifecycle} (hl : l ≠ .finished) (hj : s.lifecycle j ≠ .finished)
    (i : JobId) : Function.update s.lifecycle j l i = .finished ↔ s.lifecycle i = .finished := by
  by_cases hi : i = j
  · subst hi; simp [hl, hj]
  · simp [hi]

theorem pendingEdges_setLifecycle {l : Lifecycle} (hl : l ≠ .finished)
    (hj : s.lifecycle j ≠ .finished) (d : JobId) :
    (s.setLifecycle j l).pendingEdges d = s.pendingEdges d := by
  ext e
  rw [mem_pendingEdges, mem_pendingEdges]
  exact and_congr Iff.rfl (and_congr (not_congr (finished_update hl hj _)) Iff.rfl)

theorem pendingEdges_start (hj : s.lifecycle j = .submitted) (hp : s.worker k = .execute j)
    (d : JobId) : (((s.setLifecycle j .running).log (.start k j)).goto k
      (.running j)).pendingEdges d = s.pendingEdges d := by
  rw [pendingEdges_goto (by rw [State.log_worker, State.setLifecycle_worker, hp]; rfl)]
  exact pendingEdges_setLifecycle (by simp) (by simp [hj]) d

theorem pendingEdges_ret (hp : s.worker k = .running j) (d : JobId) :
    ((s.log (.ret k j)).goto k (.destroy j 0)).pendingEdges d = s.pendingEdges d := by
  refine pendingEdges_goto (s := s.log (.ret k j)) ?_ d
  funext x
  simp [hp, WorkerPc.decremented]

/-- The decrement for index `i` ends one pending edge, the one it is for. -/
theorem pendingEdges_decrement (ho : Ownership s) (hl : Linked s)
    (hp : s.worker k = .destroy j i) (hi : i < (s.jobs j).dependentCount)
    (hd : (s.jobs j).dependentAt i = some d) :
    (j, i) ∈ s.pendingEdges d ∧ ∀ j', (((s.setJob d
      { s.jobs d with dependencyCount := (s.jobs d).dependencyCount - 1 }).log
      (.decrement j i)).goto k (.reread j i)).pendingEdges j' =
        (s.pendingEdges j').erase (j, i) := by
  set t := ((s.setJob d { s.jobs d with dependencyCount := (s.jobs d).dependencyCount - 1 }).log
    (.decrement j i)).goto k (.reread j i) with ht
  have hsame (x) : (t.jobs x).dependentCount = (s.jobs x).dependentCount ∧
      (t.jobs x).dependents = (s.jobs x).dependents := by
    by_cases hx : x = d <;> simp [ht, hx]
  have hedges (j') : t.edges j' = s.edges j' := by
    ext e
    rw [mem_edges, mem_edges, (hsame _).1, dependentAt_congr (hsame _).2]
    rfl
  have hpend (e : JobId × ℕ) (hne : e ≠ (j, i)) : t.Pending e ↔ s.Pending e := by
    refine and_congr Iff.rfl (forall_congr' fun k' => ?_)
    by_cases hk : k' = k
    · subst hk
      by_cases he : j = e.1
      · have hei : e.2 ≠ i := fun hei => hne (Prod.ext he.symm hei)
        simp only [ht, State.goto_self, WorkerPc.decremented, he,
          ↓reduceIte, hp]
        omega
      · simp [ht, hp, WorkerPc.decremented, he]
    · simp [ht, hk]
  have hdone : ¬ t.Pending (j, i) := fun hn => by
    have := hn.2 k
    simp only [ht, State.goto_self, WorkerPc.decremented,
      ↓reduceIte] at this
    omega
  refine ⟨mem_pendingEdges.mpr ⟨hl.mem_edges.mpr ⟨hi, hd⟩, ho.pending_next hp⟩, fun j' => ?_⟩
  ext e
  rw [Finset.mem_erase, mem_pendingEdges, mem_pendingEdges, hedges]
  by_cases he : e = (j, i)
  · subst he; simp [hdone]
  · simp [he, hpend e he]

/-- When a job is deleted, no edge out of it is pending any more. -/
theorem pendingEdges_delete (hl : Linked s) (hp : s.worker k = .destroy j i)
    (hi : (s.jobs j).dependentCount ≤ i) (d : JobId) :
    (((s.setLifecycle j .finished).log (.delete j)).goto k (.countDown j)).pendingEdges d =
      s.pendingEdges d := by
  ext e
  rw [mem_pendingEdges, mem_pendingEdges]
  refine and_congr_right fun he => ?_
  by_cases hej : e.1 = j
  · have hlt := (hl.mem_edges.mp he).1
    rw [hej] at hlt
    have hn : ¬ s.Pending e := fun hn => by
      have := hn.2 k
      simp only [hp, WorkerPc.decremented, hej, ↓reduceIte] at this
      omega
    refine iff_of_false (fun ht => ht.1 ?_) hn
    simp [hej]
  · refine and_congr (by simp [hej]) (forall_congr' fun k' => ?_)
    by_cases hk : k' = k
    · subst hk; simp [hp, WorkerPc.decremented, Ne.symm hej]
    · simp [hk]

theorem pendingEdges_createJob (s : State n) (f : JobFunction) (d : JobId) :
    (callStep s (.createJob f)).pendingEdges d = s.pendingEdges d := by
  ext e
  rw [mem_pendingEdges, mem_pendingEdges, edges_createJob]
  refine and_congr_right fun he => and_congr (not_congr ?_) Iff.rfl
  have hne : e.1 ≠ s.nextJob := (mem_edges.mp he).1.ne
  simp [callStep, hne]

/-- `AddDependency(d, x)` adds one pending edge, into `d`. -/
theorem pendingEdges_addDependency (ho : Ownership s) (hx : s.lifecycle x = .created)
    (hm : (s.jobs x).dependentCount < maxDependentCount) (j : JobId) :
    (callStep s (.addDependency d x)).pendingEdges j =
      if j = d then insert (x, (s.jobs x).dependentCount) (s.pendingEdges j)
      else s.pendingEdges j := by
  have hlc := (addDependency_onlyJobs s d x).lifecycle
  have hw := (addDependency_onlyJobs s d x).worker
  have hpend (e) : (callStep s (.addDependency d x)).Pending e ↔ s.Pending e := by
    unfold State.Pending
    rw [hlc, hw]
  have hnew : s.Pending (x, (s.jobs x).dependentCount) := by
    refine ⟨by simp [hx], fun k => ?_⟩
    simp [ho.decremented_of_not_running (x := x) (by simp [hx]) k]
  ext e
  rw [mem_pendingEdges, hpend, edges_addDependency hm (ho.lt_nextJob (x := x) (by simp [hx]))]
  by_cases hj : j = d
  · simp only [hj, ↓reduceIte, Finset.mem_insert, mem_pendingEdges, or_and_right]
    refine or_congr_left (and_iff_left_of_imp ?_)
    rintro rfl
    exact hnew
  · simp [hj, mem_pendingEdges]

theorem pendingEdges_addJob (hj : s.lifecycle j = .created) (d : JobId) :
    (callStep s (.addJob j)).pendingEdges d = s.pendingEdges d :=
  pendingEdges_setLifecycle (by simp) (by simp [hj]) d

namespace Counted

theorem init [NeZero n] : Counted (init : State n) := fun j => by
  simp [JobSystem.init, State.pendingEdges, State.edges]

/-- Steps after which the same edges are pending. -/
theorem of_same (h : Counted s) (hp : ∀ j, t.pendingEdges j = s.pendingEdges j)
    (hc : ∀ j, (t.jobs j).dependencyCount = (s.jobs j).dependencyCount) : Counted t :=
  fun j => by rw [hc, hp]; exact h j

/-- One step keeps every counter equal to the number of pending edges. -/
theorem step (h : Counted s) (ho : Ownership s) (hl : Linked s) (ht : JobStep s t) :
    Counted t := by
  cases ht with
  | quiet hq => exact h.of_same hq.pendingEdges fun j => (hq.links j).dependencyCount
  | ready hp => exact h.of_same (pendingEdges_goto (by rw [hp]; rfl)) fun _ => rfl
  | @start k j hp =>
    have hj := ho.submitted_of_hand (k := k) (j := j) (by simp [hp, WorkerPc.hand])
      (by simp [hp, WorkerPc.startedJob])
    exact h.of_same (pendingEdges_start hj hp) fun _ => rfl
  | ret hp => exact h.of_same (pendingEdges_ret hp) fun _ => rfl
  | @decrement k j i d hp hi hd =>
    obtain ⟨hmem, hset⟩ := pendingEdges_decrement ho hl hp hi hd
    intro j'
    rw [hset]
    by_cases hj : j' = d
    · subst hj
      have hcount := h j'
      have hpos := Finset.card_pos.mpr ⟨_, hmem⟩
      rw [Finset.card_erase_of_mem hmem]
      simp only [State.goto_jobs, State.log_jobs, State.setJob_jobs, Function.update_self,
        UInt32.toNat_sub, hcount, UInt32.toNat_one]
      omega
    · have hnot : (j, i) ∉ s.pendingEdges j' := fun hm => by
        have := (hl.mem_edges.mp (mem_pendingEdges.mp hm).1).2
        exact hj (Option.some.inj (this.symm.trans hd))
      rw [Finset.erase_eq_of_notMem hnot]
      simpa [hj] using h j'
  | delete hp hi => exact h.of_same (pendingEdges_delete hl hp hi) fun _ => rfl
  | createJob f =>
    intro j
    rw [pendingEdges_createJob]
    by_cases hj : j = s.nextJob
    · subst hj
      simp [callStep, State.pendingEdges, hl.edges_unallocated le_rfl]
    · simpa [callStep, hj] using h j
  | @addDependency d x hd hx hm =>
    intro j
    rw [pendingEdges_addDependency ho hx hm, (addDependency_jobs (d := d) hm j).2.2]
    by_cases hj : j = d
    · subst hj
      have hnot : (x, (s.jobs x).dependentCount) ∉ s.pendingEdges j := fun hmem => by
        have := (mem_edges.mp (mem_pendingEdges.mp hmem).1).2.2.1
        exact absurd this (lt_irrefl _)
      have hcount := h j
      simp only [↓reduceIte, Finset.card_insert_of_notMem hnot, UInt32.toNat_add, hcount,
        UInt32.toNat_one]
      omega
    · simpa [hj] using h j
  | addJob _ hj => exact h.of_same (pendingEdges_addJob hj) fun _ => rfl

end Counted

theorem reachable_counted [NeZero n] (h : (jobSystem n m).Reachable s) : Counted s :=
  h.invariant (fun _ hs => hs ▸ .init) fun _ _ _ hr hc ht =>
    hc.step (reachable_ownership hr) (reachable_linked hr) (step_cases ht).jobStep

/-- Without a wrap, a counter is exactly the number of pending edges. -/
theorem Counted.exact (h : Counted s) (hf : s.FewEdges) (j : JobId) :
    (s.jobs j).dependencyCount.toNat = (s.pendingEdges j).card := by
  rw [h j]
  exact Nat.mod_eq_of_lt ((Finset.card_le_card (Finset.filter_subset _ _)).trans_lt (hf j))

theorem fewEdges_of_nextJob (h : s.nextJob * maxDependentCount < 2 ^ 32) : s.FewEdges := by
  intro j
  have hle : (s.edges j).card ≤ s.nextJob * maxDependentCount := by
    refine (Finset.card_filter_le _ _).trans_eq ?_
    rw [Finset.card_product, Finset.card_range, Finset.card_range]
  exact hle.trans_lt h

/-- Edges are only ever added. -/
theorem JobStep.edges_subset (h : JobStep s t) (ho : Ownership s) (j : JobId) :
    s.edges j ⊆ t.edges j := by
  cases h with
  | quiet hq => exact (hq.edges j).ge
  | ready | start | ret | delete | addJob => exact subset_rfl
  | @decrement k j' i d =>
    intro e he
    rw [mem_edges] at he ⊢
    by_cases hd : e.1 = d
    · rw [hd] at he
      simpa [hd, dependentAt_congr (x := s.jobs d)] using he
    · simpa [hd] using he
  | createJob f => exact (edges_createJob s f j).ge
  | addDependency _ hx hm =>
    rw [edges_addDependency hm (ho.lt_nextJob (by simp [hx]))]
    split
    · exact Finset.subset_insert _ _
    · exact subset_rfl

theorem State.FewEdges.of_step (h : t.FewEdges) (ht : JobStep s t) (ho : Ownership s) :
    s.FewEdges := fun j => (Finset.card_le_card (ht.edges_subset ho j)).trans_lt (h j)

/-- A job becomes clear only by reading its counter as 0. -/
theorem JobStep.cleared (h : JobStep s t) (ho : Ownership s) (hc : t.Cleared j) :
    s.Cleared j ∨ (s.jobs j).dependencyCount = 0 ∧ t.pendingEdges j = s.pendingEdges j := by
  have other {k} {p : WorkerPc n} (hp : ∀ i, p ≠ .execute i)
      (hw : t.worker = Function.update s.worker k p) (he : ∃ k', t.worker k' = .execute j) :
      ∃ k', s.worker k' = .execute j := by
    obtain ⟨k', hk'⟩ := he
    have hk : k' ≠ k := by rintro rfl; exact hp j (by simpa [hw] using hk')
    exact ⟨k', by simpa [hw, hk] using hk'⟩
  cases h with
  | quiet hq =>
    refine .inl (hc.imp (fun ⟨k, hk⟩ => ⟨k, (hq.progress k).execute hk⟩) fun hl => ?_)
    exact hq.lifecycle ▸ hl
  | @ready k a i hp h0 =>
    rcases hc with ⟨k', hk'⟩ | hl
    · by_cases hk : k' = k
      · subst hk
        obtain rfl : i = j := by simpa using hk'
        exact .inr ⟨h0, pendingEdges_goto (by rw [hp]; rfl) _⟩
      · exact .inl (.inl ⟨k', by simpa [hk] using hk'⟩)
    · exact .inl (.inr hl)
  | @start k i hp =>
    by_cases hi : j = i
    · exact .inl (.inl ⟨k, hi ▸ hp⟩)
    · exact .inl (hc.imp (other (by simp) rfl) (by simp [hi]))
  | ret => exact .inl (hc.imp (other (by simp) rfl) id)
  | decrement => exact .inl (hc.imp (other (by simp) rfl) id)
  | @delete k i i' hp =>
    by_cases hi : j = i
    · refine .inl (.inr (.inl (hi ▸ ho.running_of_startedJob (k := k) ?_)))
      simp [hp, WorkerPc.startedJob]
    · exact .inl (hc.imp (other (by simp) rfl) (by simp [hi]))
  | createJob f =>
    refine .inl (hc.imp id fun hl => ?_)
    by_cases hj : j = s.nextJob
    · simp [callStep, hj] at hl
    · simpa [callStep, hj] using hl
  | @addDependency d x =>
    have hlc := (addDependency_onlyJobs s d x).lifecycle
    have hw := (addDependency_onlyJobs s d x).worker
    unfold State.Cleared at hc
    rw [hlc, hw] at hc
    exact .inl hc
  | @addJob i =>
    refine .inl (hc.imp id fun hl => ?_)
    by_cases hj : j = i
    · simp [callStep, hj] at hl
    · simpa [callStep, hj] using hl

theorem Ownership.not_created_of_cleared (h : Ownership s) (hc : s.Cleared j) :
    s.lifecycle j ≠ .created := by
  rcases hc with ⟨k, hk⟩ | hl | hl
  · simp [h.submitted_of_hand (k := k) (j := j) (by simp [hk, WorkerPc.hand])
      (by simp [hk, WorkerPc.startedJob])]
  · simp [hl]
  · simp [hl]

/-- No step makes an edge into a job pending once the job is submitted. -/
theorem JobStep.pendingEdges_subset (h : JobStep s t) (ho : Ownership s) (hl : Linked s)
    (hj : s.lifecycle j ≠ .created) : t.pendingEdges j ⊆ s.pendingEdges j := by
  cases h with
  | quiet hq => exact (hq.pendingEdges j).le
  | ready hp => exact (pendingEdges_goto (by rw [hp]; rfl) j).le
  | @start k i hp =>
    have hi := ho.submitted_of_hand (k := k) (j := i) (by simp [hp, WorkerPc.hand])
      (by simp [hp, WorkerPc.startedJob])
    exact (pendingEdges_start hi hp j).le
  | ret hp => exact (pendingEdges_ret hp j).le
  | decrement hp hi hd =>
    rw [(pendingEdges_decrement ho hl hp hi hd).2]
    exact Finset.erase_subset _ _
  | delete hp hi => exact (pendingEdges_delete hl hp hi j).le
  | createJob f => exact (pendingEdges_createJob s f j).le
  | @addDependency d x hd hx hm =>
    have hne : j ≠ d := by rintro rfl; exact hj hd
    rw [pendingEdges_addDependency ho hx hm, if_neg hne]
  | addJob _ hi => exact (pendingEdges_addJob hi j).le

/-- Where no counter wraps, no edge into a job is pending once the job may start. -/
theorem reachable_cleared [NeZero n] (h : (jobSystem n m).Reachable s) (hf : s.FewEdges)
    (hc : s.Cleared j) : s.pendingEdges j = ∅ := by
  induction h with
  | init hi =>
    subst hi
    simp [init, State.Cleared] at hc
  | @step s a t hr ht ih =>
    have ho := reachable_ownership hr
    have hs := (step_cases ht).jobStep
    have hfs := hf.of_step hs ho
    rcases hs.cleared ho hc with hcs | ⟨h0, hp⟩
    · have hsub := hs.pendingEdges_subset ho (reachable_linked hr) (ho.not_created_of_cleared hcs)
      exact Finset.subset_empty.mp (ih hfs hcs ▸ hsub)
    · have hcount := (reachable_counted hr).exact hfs j
      rw [h0] at hcount
      rw [hp]
      exact Finset.card_eq_zero.mp hcount.symm

/-- Jobs `1` to `N`, each with the one dependent `0`, none submitted. -/
def fanInHistory : ℕ → List (Event 2)
  | 0 => []
  | N + 1 => .addDependency 0 (N + 1) :: fanInHistory N

def fanIn (N : ℕ) : State 2 :=
  { (init : State 2) with
    jobs := fun j =>
      if j = 0 then { jobFunction := some 0, dependencyCount := UInt32.ofNat N }
      else if j ≤ N then ({ jobFunction := some 0 } : Job 2).addDependent 0 else {}
    lifecycle := fun j => if j ≤ N then .created else .unallocated
    nextJob := N + 1
    history := fanInHistory N }

theorem fanIn_zero : callStep (init : State 2) (.createJob 0) = fanIn 0 := by
  simp only [callStep, fanIn, State.setJob, State.setLifecycle, init]
  congr 1
  · funext j
    by_cases hj : j = 0 <;> simp [hj]
  · funext j
    by_cases hj : j = 0 <;> simp [hj]

theorem fanIn_succ (N : ℕ) :
    callStep (callStep (fanIn N) (.createJob 0)) (.addDependency 0 (N + 1)) = fanIn (N + 1) := by
  have hroom : ¬ ((callStep (fanIn N) (.createJob 0)).jobs (N + 1)).dependentCount >
      maxDependentCount - 1 := by simp [callStep, fanIn, maxDependentCount]
  refine (if_neg hroom).trans ?_
  simp only [callStep, fanIn, State.setJob, State.setLifecycle, State.log, init]
  congr 1
  · funext j
    by_cases hj : j = 0
    · subst hj; simp [UInt32.ofNat_add]
    · by_cases hN : j = N + 1
      · subst hN; simp
      · have hle : j ≤ N + 1 ↔ j ≤ N := by rw [Nat.le_add_one_iff, or_iff_left hN]
        simp [hj, hN, hle]
  · funext j
    by_cases hN : j = N + 1
    · subst hN; simp
    · have hle : j ≤ N + 1 ↔ j ≤ N := by rw [Nat.le_add_one_iff, or_iff_left hN]
      simp [hN, hle]

/-- Calls alone lead there. -/
theorem reachable_fanIn {G : State 2 → Action 2 → Prop} (hG : ∀ s c, G s (.call c)) (N : ℕ) :
    ((jobSystem 2 m).restrict G).Reachable (fanIn N) := by
  induction N with
  | zero =>
    rw [← fanIn_zero]
    exact (System.Reachable.init rfl).step
      ⟨hG _ _, step_call (c := .createJob 0) trivial rfl (by simp)⟩
  | succ N ih =>
    rw [← fanIn_succ]
    refine (ih.step ⟨hG _ _, step_call (c := .createJob 0) trivial rfl (by simp)⟩).step
      ⟨hG _ _, step_call ?_ rfl (by simp)⟩
    simp [SetupRule, callStep, fanIn]

end JobSystem
