import JobSystem.Counters
import Mathlib.Data.Set.Card

/-! The history of a run records each start, return, decrement and delete exactly once, and
its dependencies are those stored in the jobs. -/
namespace JobSystem
open TransitionSystem
variable {n : ℕ} {m : WaitMode} {k : Fin n} {j d x : JobId} {i : ℕ} {s t : State n}
  {e : Event n}

def Event.startOf (j : JobId) : Event n → Bool
  | .start _ i => i = j
  | _ => false

def Event.returnOf (j : JobId) : Event n → Bool
  | .ret _ i => i = j
  | _ => false

namespace State

def Started (s : State n) (j : JobId) : Prop :=
  s.lifecycle j = .running ∨ s.lifecycle j = .finished

def Returned (s : State n) (j : JobId) : Prop :=
  s.lifecycle j = .finished ∨ ∃ k, (s.worker k).returnedJob = some j

/-- The destructor of `j` has done its decrement for index `i`. -/
def Decremented (s : State n) (j : JobId) (i : ℕ) : Prop :=
  (s.lifecycle j = .finished ∧ i < (s.jobs j).dependentCount) ∨
    ∃ k, i < (s.worker k).decremented j

def starts (s : State n) (j : JobId) : ℕ := s.history.countP (Event.startOf j)

def returns (s : State n) (j : JobId) : ℕ := s.history.countP (Event.returnOf j)

def decrements (s : State n) (j : JobId) (i : ℕ) : ℕ := s.history.count (.decrement j i)

def deletes (s : State n) (j : JobId) : ℕ := s.history.count (.delete j)

end State

/-- The history holds one event of a kind when `Q` has come true and none before. -/
def Tracks (P : Event n → Bool) (Q : State n → Prop) (s : State n) : Prop :=
  (Q s → s.history.countP P = 1) ∧ (¬ Q s → s.history.countP P = 0)

namespace Tracks
variable {P : Event n → Bool} {Q : State n → Prop}

theorem init [NeZero n] (hQ : ¬ Q init) : Tracks P Q (init : State n) :=
  ⟨fun h => absurd h hQ, fun _ => rfl⟩

theorem same (h : Tracks P Q s) (hh : t.history = s.history) (hQ : Q t ↔ Q s) :
    Tracks P Q t := by
  unfold Tracks
  rw [hh, hQ]
  exact h

theorem other (h : Tracks P Q s) (hh : t.history = e :: s.history) (he : P e = false)
    (hQ : Q t ↔ Q s) : Tracks P Q t := by
  unfold Tracks
  rw [hh, hQ, List.countP_cons, he]
  exact h

theorem new (h : Tracks P Q s) (hh : t.history = e :: s.history) (he : P e = true)
    (hs : ¬ Q s) (ht : Q t) : Tracks P Q t := by
  refine ⟨fun _ => ?_, fun hn => absurd ht hn⟩
  rw [hh, List.countP_cons, h.2 hs, he]
  rfl

theorem le_one (h : Tracks P Q s) : s.history.countP P ≤ 1 := by
  by_cases hq : Q s
  · exact (h.1 hq).le
  · exact (h.2 hq).le.trans zero_le_one

theorem iff_exists (h : Tracks P Q s) : Q s ↔ ∃ e ∈ s.history, P e = true := by
  rw [← List.countP_pos_iff]
  by_cases hq : Q s
  · simp [hq, h.1 hq]
  · simp [hq, h.2 hq]

end Tracks

structure Recorded (s : State n) : Prop where
  starts : ∀ j, Tracks (Event.startOf j) (State.Started · j) s
  returns : ∀ j, Tracks (Event.returnOf j) (State.Returned · j) s
  decrements : ∀ j i, Tracks (· == .decrement j i) (State.Decremented · j i) s
  deletes : ∀ j, Tracks (· == .delete j) (·.lifecycle j = .finished) s
  links : ∀ {d x}, .addDependency d x ∈ s.history ↔ ∃ i, (x, i) ∈ s.edges d

namespace Recorded

theorem init [NeZero n] : Recorded (init : State n) := by
  refine ⟨fun j => .init ?_, fun j => .init ?_, fun j i => .init ?_, fun j => .init ?_, ?_⟩ <;>
    simp [JobSystem.init, State.Started, State.Returned, State.Decremented, State.edges,
      WorkerPc.returnedJob, WorkerPc.decremented]

/-- A step that logs nothing and moves no job on. -/
theorem same (h : Recorded s) (hh : t.history = s.history)
    (hs : ∀ j, t.Started j ↔ s.Started j) (hr : ∀ j, t.Returned j ↔ s.Returned j)
    (hd : ∀ j i, t.Decremented j i ↔ s.Decremented j i)
    (hf : ∀ j, t.lifecycle j = .finished ↔ s.lifecycle j = .finished)
    (he : ∀ j, t.edges j = s.edges j) : Recorded t :=
  ⟨fun j => (h.starts j).same hh (hs j), fun j => (h.returns j).same hh (hr j),
    fun j i => (h.decrements j i).same hh (hd j i), fun j => (h.deletes j).same hh (hf j), by
      intro d x; rw [hh, he]; exact h.links⟩

theorem of_quiet (h : Recorded s) (hq : Quiet s t) : Recorded t := by
  refine h.same hq.history (fun j => ?_) (fun j => ?_) (fun j i => ?_) (fun j => ?_) hq.edges
  · simp only [State.Started, hq.lifecycle]
  · simp only [State.Returned, hq.lifecycle, (hq.progress _).returnedJob]
  · simp only [State.Decremented, hq.lifecycle, (hq.progress _).decremented,
      (hq.links _).dependentCount]
  · rw [hq.lifecycle]

/-- An event that declares no dependency. -/
theorem links_of_log (h : Recorded s) (hh : t.history = e :: s.history)
    (he : ∀ d x, e ≠ .addDependency d x) (hE : ∀ j, t.edges j = s.edges j) {d x : JobId} :
    .addDependency d x ∈ t.history ↔ ∃ i, (x, i) ∈ t.edges d := by
  rw [hh, hE, List.mem_cons, or_iff_right (Ne.symm (he d x))]
  exact h.links

theorem of_ready {a : Attempt} (h : Recorded s) (hp : s.worker k = .canExecute a (some j)) :
    Recorded (s.goto k (.execute j)) :=
  h.same rfl (fun _ => Iff.rfl)
    (fun i => or_congr Iff.rfl (State.exists_worker_goto (A := (·.returnedJob = some i))
      (by rw [hp]; rfl)))
    (fun i i' => or_congr Iff.rfl (State.exists_worker_goto (A := (i' < ·.decremented i))
      (by rw [hp]; rfl)))
    (fun _ => Iff.rfl) (fun _ => rfl)

theorem of_start (h : Recorded s) (hj : s.lifecycle j = .submitted)
    (hp : s.worker k = .execute j) :
    Recorded (((s.setLifecycle j .running).log (.start k j)).goto k (.running j)) := by
  have hf (i) : Function.update s.lifecycle j .running i = .finished ↔ s.lifecycle i = .finished :=
    finished_update (by simp) (by simp [hj]) i
  refine ⟨fun i => ?_, fun i => (h.returns i).other rfl rfl ?_,
    fun i i' => (h.decrements i i').other rfl rfl ?_,
    fun i => (h.deletes i).other rfl rfl (hf i),
    h.links_of_log (e := .start k j) rfl (by simp) fun _ => by rfl⟩
  · by_cases hi : i = j
    · subst hi
      exact (h.starts i).new rfl (by simp [Event.startOf]) (by simp [State.Started, hj])
        (by simp [State.Started])
    · exact (h.starts i).other rfl (by simp [Event.startOf, Ne.symm hi])
        (by simp [State.Started, hi])
  · exact or_congr (hf i) (State.exists_worker_goto (A := (·.returnedJob = some i))
      (s := (s.setLifecycle j .running).log (.start k j)) (by simp [hp, WorkerPc.returnedJob]))
  · exact or_congr (and_congr_left fun _ => hf i)
      (State.exists_worker_goto (A := (i' < ·.decremented i))
        (s := (s.setLifecycle j .running).log (.start k j)) (by simp [hp, WorkerPc.decremented]))

theorem of_ret (h : Recorded s) (ho : Ownership s) (hp : s.worker k = .running j) :
    Recorded ((s.log (.ret k j)).goto k (.destroy j 0)) := by
  have hand : (s.worker k).hand = some j := by simp [hp, WorkerPc.hand]
  refine ⟨fun i => (h.starts i).other rfl rfl Iff.rfl, fun i => ?_,
    fun i i' => (h.decrements i i').other rfl rfl ?_,
    fun i => (h.deletes i).other rfl rfl Iff.rfl,
    h.links_of_log (e := .ret k j) rfl (by simp) fun _ => by rfl⟩
  · by_cases hi : i = j
    · subst hi
      refine (h.returns i).new rfl (by simp [Event.returnOf]) ?_ (.inr ⟨k, ?_⟩)
      · rintro (hf | ⟨k', hk'⟩)
        · exact ho.not_finished_of_hand hand hf
        · obtain rfl := ho.hand_unique hand (hand_of_returnedJob hk')
          simp [hp, WorkerPc.returnedJob] at hk'
      · simp [WorkerPc.returnedJob]
    · refine (h.returns i).other rfl (by simp [Event.returnOf, Ne.symm hi]) ?_
      exact or_congr Iff.rfl (State.exists_worker_goto (A := (·.returnedJob = some i))
        (s := s.log (.ret k j)) (by simp [hp, WorkerPc.returnedJob, Ne.symm hi]))
  · exact or_congr Iff.rfl (State.exists_worker_goto (A := (i' < ·.decremented i))
      (s := s.log (.ret k j)) (by simp [hp, WorkerPc.decremented]))

theorem of_decrement (h : Recorded s) (ho : Ownership s) (hp : s.worker k = .destroy j i) :
    Recorded (((s.setJob d { s.jobs d with dependencyCount := (s.jobs d).dependencyCount - 1 }).log
      (.decrement j i)).goto k (.reread j i)) := by
  have hand : (s.worker k).hand = some j := by simp [hp, WorkerPc.hand]
  set u := (s.setJob d { s.jobs d with dependencyCount := (s.jobs d).dependencyCount - 1 }).log
    (.decrement j i) with hu
  have hdc (y) : (u.jobs y).dependentCount = (s.jobs y).dependentCount ∧
      (u.jobs y).dependents = (s.jobs y).dependents := by
    by_cases hy : y = d <;> simp [hu, hy]
  have hedges (y) : u.edges y = s.edges y := by
    ext e
    rw [mem_edges, mem_edges, (hdc _).1, dependentAt_congr (hdc _).2]
    rfl
  refine ⟨fun i' => (h.starts i').other rfl rfl Iff.rfl,
    fun i' => (h.returns i').other rfl rfl ?_, fun j' i' => ?_,
    fun i' => (h.deletes i').other rfl rfl Iff.rfl,
    h.links_of_log (e := .decrement j i) rfl (by simp) hedges⟩
  · exact or_congr Iff.rfl (State.exists_worker_goto (A := (·.returnedJob = some i'))
      (s := u) (by simp [hu, hp, WorkerPc.returnedJob]))
  · by_cases hji : j' = j ∧ i' = i
    · obtain ⟨rfl, rfl⟩ := hji
      refine (h.decrements j' i').new rfl (by simp) ?_ (.inr ⟨k, by simp [WorkerPc.decremented]⟩)
      rintro (⟨hf, -⟩ | ⟨k', hk'⟩)
      · exact ho.not_finished_of_hand hand hf
      · by_cases hk : k' = k
        · subst hk; simp [hp, WorkerPc.decremented] at hk'
        · simp [ho.decremented_of_ne hand hk] at hk'
    · refine (h.decrements j' i').other rfl ?_ ?_
      · exact beq_false_of_ne fun he => hji (by cases he; exact ⟨rfl, rfl⟩)
      · refine or_congr (and_congr Iff.rfl (by rw [State.goto_jobs, (hdc j').1]))
          (State.exists_worker_goto (A := (i' < ·.decremented j')) (s := u) ?_)
        have hpu : u.worker k = .destroy j i := hp
        by_cases hj : j = j'
        · subst hj
          have hi : i' ≠ i := fun hi => hji ⟨rfl, hi⟩
          simp only [WorkerPc.decremented, ↓reduceIte, hpu]
          omega
        · simp [hpu, WorkerPc.decremented, hj]

theorem of_delete (h : Recorded s) (ho : Ownership s) (hl : Linked s)
    (hp : s.worker k = .destroy j i) (hi : (s.jobs j).dependentCount ≤ i) :
    Recorded (((s.setLifecycle j .finished).log (.delete j)).goto k (.countDown j)) := by
  have hand : (s.worker k).hand = some j := by simp [hp, WorkerPc.hand]
  have hj : s.lifecycle j = .running := ho.running_of_startedJob (k := k)
    (by simp [hp, WorkerPc.startedJob])
  have hle : i ≤ (s.jobs j).dependentCount := by
    simpa [hp, WorkerPc.decremented] using hl.progress k j
  refine ⟨fun i' => (h.starts i').other rfl rfl ?_, fun i' => (h.returns i').other rfl rfl ?_,
    fun j' i' => (h.decrements j' i').other rfl rfl ?_, fun i' => ?_,
    h.links_of_log (e := .delete j) rfl (by simp) fun _ => by rfl⟩
  · by_cases hne : i' = j <;> simp [State.Started, hne, hj]
  · by_cases hne : i' = j
    · subst hne
      simp only [State.Returned, State.goto_lifecycle, State.log_lifecycle,
        State.setLifecycle_lifecycle, Function.update_self, true_or, true_iff]
      exact .inr ⟨k, by simp [hp, WorkerPc.returnedJob]⟩
    · exact or_congr (by simp [hne]) (State.exists_worker_goto (A := (·.returnedJob = some i'))
        (s := (s.setLifecycle j .finished).log (.delete j))
        (by simp [hp, WorkerPc.returnedJob, Ne.symm hne]))
  · by_cases hne : j' = j
    · subst hne
      constructor
      · rintro (⟨-, hlt⟩ | ⟨k', hk'⟩)
        · exact .inr ⟨k, by simpa [hp, WorkerPc.decremented] using lt_of_lt_of_le hlt hi⟩
        · have hk : k' ≠ k := by rintro rfl; simp [WorkerPc.decremented] at hk'
          exact .inr ⟨k', by simpa [hk] using hk'⟩
      · rintro (⟨hf, -⟩ | ⟨k', hk'⟩)
        · simp [hj] at hf
        · exact .inl ⟨by simp, lt_of_lt_of_le hk' (hl.progress k' j')⟩
    · exact or_congr (by simp [hne]) (State.exists_worker_goto (A := (i' < ·.decremented j'))
        (s := (s.setLifecycle j .finished).log (.delete j))
        (by simp [hp, WorkerPc.decremented, Ne.symm hne]))
  · by_cases hne : i' = j
    · subst hne
      exact (h.deletes i').new rfl (by simp) (by simp [hj]) (by simp)
    · exact (h.deletes i').other rfl (by simp [Ne.symm hne]) (by simp [hne])

theorem of_createJob (h : Recorded s) (ho : Ownership s) (hl : Linked s) (f : JobFunction) :
    Recorded (callStep s (.createJob f)) := by
  have hfresh : s.lifecycle s.nextJob = .unallocated := ho.unallocated.mpr le_rfl
  have hl' (i) (l : Lifecycle) (hne : l ≠ .unallocated) (hne' : l ≠ .created) :
      (callStep s (.createJob f)).lifecycle i = l ↔ s.lifecycle i = l := by
    by_cases hi : i = s.nextJob
    · subst hi; simp [callStep, hfresh, hne.symm, hne'.symm]
    · simp [callStep, hi]
  have hf (i) := hl' i .finished (by simp) (by simp)
  refine h.same rfl (fun i => or_congr (hl' i _ (by simp) (by simp)) (hf i))
    (fun i => or_congr (hf i) Iff.rfl) (fun i i' => or_congr (and_congr_right' ?_ |>.trans
      (and_congr_left' (hf i))) Iff.rfl) hf (edges_createJob s f)
  by_cases hi : i = s.nextJob
  · subst hi; simp [callStep, hl.fresh le_rfl]
  · simp [callStep, hi]

theorem of_addDependency (h : Recorded s) (ho : Ownership s) (hx : s.lifecycle x = .created)
    (hm : (s.jobs x).dependentCount < maxDependentCount) :
    Recorded (callStep s (.addDependency d x)) := by
  have hlc := (addDependency_onlyJobs s d x).lifecycle
  have hw := (addDependency_onlyJobs s d x).worker
  have hh : (callStep s (.addDependency d x)).history = .addDependency d x :: s.history :=
    addDependency_history hm
  refine ⟨fun i => (h.starts i).other hh rfl ?_, fun i => (h.returns i).other hh rfl ?_,
    fun j' i' => (h.decrements j' i').other hh rfl ?_,
    fun i => (h.deletes i).other hh rfl ?_, ?_⟩
  · simp only [State.Started, hlc]
  · simp only [State.Returned, hlc, hw]
  · simp only [State.Decremented, hlc, hw]
    refine or_congr (and_congr_right fun hf => ?_) Iff.rfl
    have hne : j' ≠ x := by rintro rfl; simp [hx] at hf
    rw [(addDependency_jobs hm j').1, if_neg hne, add_zero]
  · simp only [hlc]
  · intro d' x'
    rw [hh, List.mem_cons, h.links, edges_addDependency hm (ho.lt_nextJob (by simp [hx]))]
    by_cases hd : d' = d
    · subst hd
      by_cases hx' : x' = x
      · simp [hx']
      · simp [hx']
    · simp [hd]

/-- A step logs what it does, and nothing else. -/
theorem step (h : Recorded s) (ho : Ownership s) (hl : Linked s) (ht : JobStep s t) :
    Recorded t := by
  cases ht with
  | quiet hq => exact h.of_quiet hq
  | ready hp => exact h.of_ready hp
  | @start k j hp =>
    exact h.of_start (ho.submitted_of_hand (k := k) (by simp [hp, WorkerPc.hand])
      (by simp [hp, WorkerPc.startedJob])) hp
  | ret hp => exact h.of_ret ho hp
  | decrement hp => exact h.of_decrement ho hp
  | delete hp hi => exact h.of_delete ho hl hp hi
  | createJob f => exact h.of_createJob ho hl f
  | addDependency _ hx hm => exact h.of_addDependency ho hx hm
  | @addJob j _ hj =>
    have hf (i) : (callStep s (.addJob j)).lifecycle i = .finished ↔ s.lifecycle i = .finished :=
      finished_update (by simp) (by simp [hj]) i
    refine h.same rfl (fun i => or_congr ?_ (hf i)) (fun i => or_congr (hf i) Iff.rfl)
      (fun i i' => or_congr (and_congr_left' (hf i)) Iff.rfl) hf fun _ => rfl
    by_cases hi : i = j
    · subst hi; simp [callStep, hj]
    · simp [callStep, hi]

end Recorded

theorem reachable_recorded [NeZero n] (h : (jobSystem n m).Reachable s) : Recorded s :=
  h.invariant (fun _ hs => hs ▸ .init) fun _ _ _ hr hc ht =>
    hc.step (reachable_ownership hr) (reachable_linked hr) (step_cases ht).jobStep

namespace State

/-- The pairs `(x, i)` such that `x` is not finished, `x.dependents[i]` is `j` and the destructor
of `x` has not decremented it. -/
def outstanding (s : State n) (j : JobId) : Set (JobId × ℕ) :=
  { e | s.lifecycle e.1 ≠ .finished ∧ e.2 < (s.jobs e.1).dependentCount ∧
    (s.jobs e.1).dependentAt e.2 = some j ∧ .decrement e.1 e.2 ∉ s.history }

end State

theorem Recorded.decremented_iff (h : Recorded s) :
    s.Decremented j i ↔ .decrement j i ∈ s.history := by
  rw [(h.decrements j i).iff_exists]
  simp

theorem coe_pendingEdges (hr : Recorded s) (hl : Linked s) (j : JobId) :
    (s.pendingEdges j : Set (JobId × ℕ)) = s.outstanding j := by
  ext ⟨x, i⟩
  rw [Finset.mem_coe, mem_pendingEdges, hl.mem_edges, and_comm]
  simp only [State.outstanding, State.Pending, Set.mem_ofPred_eq, ← hr.decremented_iff,
    State.Decremented, not_or, not_and, not_exists, not_lt]
  constructor
  · rintro ⟨⟨hf, hp⟩, hi, hd⟩
    exact ⟨hf, hi, hd, fun hn => absurd hn hf, hp⟩
  · rintro ⟨hf, hi, hd, -, hp⟩
    exact ⟨⟨hf, hp⟩, hi, hd⟩

/-- No decrement is applied to a counter that is 0. -/
theorem dependencyCount_ne_zero_of_destroy (ho : Ownership s) (hl : Linked s) (hc : Counted s)
    (hf : s.FewEdges) (hp : s.worker k = .destroy x i) (hi : i < (s.jobs x).dependentCount)
    (hd : (s.jobs x).dependentAt i = some d) : (s.jobs d).dependencyCount ≠ 0 := by
  intro h0
  have hcount := hc.exact hf d
  have hpos := Finset.card_pos.mpr ⟨_, (pendingEdges_decrement ho hl hp hi hd).1⟩
  rw [h0] at hcount
  exact absurd hcount hpos.ne

/-- Exact counters: in every reachable state a job's counter is the number of decrements into
it still to come, the arrays of dependents are well formed, no decrement meets a 0, and a
counter is 0 exactly when all decrements into its job have been done. -/
theorem reachable_counters_exact [NeZero n] (h : (jobSystem n m).Reachable s)
    (hf : s.FewEdges) :
    (∀ j, ((s.jobs j).dependencyCount.toNat : ℕ∞) = (s.outstanding j).encard) ∧
      (∀ x, (s.jobs x).dependentCount ≤ maxDependentCount ∧
        ∀ i < (s.jobs x).dependentCount, ∃ d, (s.jobs x).dependentAt i = some d) ∧
      (∀ k x i d, s.worker k = .destroy x i → i < (s.jobs x).dependentCount →
        (s.jobs x).dependentAt i = some d → (s.jobs d).dependencyCount ≠ 0) ∧
      ∀ j, (s.jobs j).dependencyCount = 0 ↔ ∀ x, ∀ i < (s.jobs x).dependentCount,
        (s.jobs x).dependentAt i = some j → .decrement x i ∈ s.history := by
  have ho := reachable_ownership h
  have hl := reachable_linked h
  have hc := reachable_counted h
  have hr := reachable_recorded h
  have hset := coe_pendingEdges hr hl
  refine ⟨fun j => ?_, fun x => ⟨hl.bound x, fun i hi => (hl.entries hi).imp fun _ hd => hd.1⟩,
    fun k x i d hp hi hd => dependencyCount_ne_zero_of_destroy ho hl hc hf hp hi hd, fun j => ?_⟩
  · rw [hc.exact hf, ← hset, Set.encard_coe_eq_coe_finsetCard]
  · have hzero : (s.jobs j).dependencyCount = 0 ↔ s.pendingEdges j = ∅ := by
      rw [← UInt32.toNat_inj, hc.exact hf]
      exact Finset.card_eq_zero
    rw [hzero, ← Finset.coe_eq_empty, hset, Set.eq_empty_iff_forall_notMem]
    constructor
    · intro hempty x i hi hd
      by_contra hn
      refine hempty (x, i) ⟨fun hfin => hn ?_, hi, hd, hn⟩
      exact hr.decremented_iff.mp (.inl ⟨hfin, hi⟩)
    · rintro hall ⟨x, i⟩ ⟨-, hi, hd, hn⟩
      exact hn (hall x i hi hd)

/-- A destructor in the middle of its loop over two edges into the same job. -/
theorem counters_exact_half_run : ∃ s : State 2, s.worker 0 = .reread 0 0 ∧
    (s.jobs 0).dependentCount = 2 ∧ (s.jobs 1).dependencyCount = 1 ∧
    (s.outstanding 1).encard = 1 := by
  obtain ⟨s, hr, hn, hp, hd, hc⟩ := exists_of_execute (n := 2) (m := .conditionVariable)
    (l := [.call (.createJob 0), .call (.createJob 1), .call (.addDependency 1 0),
      .call (.addDependency 1 0)] ++ addJobActions 0 ++ addJobActions 1 ++ workerActions 0 9)
    (p := fun s => s.nextJob * maxDependentCount < 2 ^ 32 ∧ s.worker 0 = .reread 0 0 ∧
      (s.jobs 0).dependentCount = 2 ∧ (s.jobs 1).dependencyCount = 1) (by decide +kernel)
  have hexact := (reachable_counters_exact hr (fewEdges_of_nextJob hn)).1 1
  rw [hc] at hexact
  exact ⟨s, hp, hd, hc, hexact.symm⟩

end JobSystem
