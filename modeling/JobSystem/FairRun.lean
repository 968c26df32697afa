import JobSystem.BusyWait
import JobSystem.Completion
import JobSystem.FrameWait
import JobSystem.Library.Fairness

/-! What must happen, and not only can, once the threads are scheduled fairly: all runnable jobs
are finished, and the frame thread leaves `WaitForAllJobs`. Fair is a run in which no worker that
could go on is kept from it for ever, and `rand()` does not always return the worker's own
index. -/
namespace JobSystem
open TransitionSystem
variable {n : ℕ} {m : WaitMode} {k : Fin n} {j x : JobId} {s t : State n} {a : Action n}

/-- The steps of the workers, and of a frame thread that waits for them: no job is set up, and
nothing is stopped. -/
def Action.Works : Action n → Prop
  | .worker _ _ | .frame | .wakeWorker _ | .wakeFrame => True
  | .call c => c = .waitForAllJobs
  | .quit => False

/-- What such a step is while the system works. -/
inductive WorkStep (m : WaitMode) (s : State n) : Action n → State n → Prop
  | worker {k : Fin n} {c : Choice n} {t : State n} : WorkerStep m k s t →
      WorkStep m s (.worker k c) t
  | frame {a : Action n} {p : FramePc n} : (∀ k c, a ≠ .worker k c) → p.addingJob = false →
      WorkStep m s a (s.gotoFrame p)
  | wakeWorker {k : Fin n} : s.worker k = .blocked →
      WorkStep m s (.wakeWorker k) (s.goto k .notified)

theorem StepCase.workStep (h : StepCase m s a t) (ha : a.Works) (hw : s.Working)
    (hsh : Shutdown s) : WorkStep m s a t := by
  have hadd := hw.addingJob
  have hjoin : s.frame.joining = false := by
    by_contra hj
    have := hsh.joining (Bool.eq_true_of_not_eq_false hj)
    simp [hw.isRunning] at this
  cases h with
  | worker h => exact .worker h
  | frame h =>
    cases h with
    | control hp hc =>
      rw [hp] at hjoin
      cases hc with
      | wokenAll | joinOne => simp [FramePc.joining] at hjoin
      | done | sleep | block | wake => exact .frame (by simp) rfl
    | write hp | pushLock hp | pushBack hp | pushNotify hp | pushUnlock hp | index hp =>
      simp [hp, FramePc.addingJob] at hadd
    | stop hp | wakeOne _ hp | joined _ hp => simp [hp, FramePc.joining] at hjoin
  | waitForAllJobs => exact .frame (by simp) rfl
  | wakeWorker hb => exact .wakeWorker hb
  | wakeFrame => exact .frame (by simp) rfl
  | createJob | addDependency | exit | addJob | joinJobs => cases ha
  | quit => exact ha.elim

namespace WorkStep

theorem workerFrame (h : WorkStep m s a t) : WorkerFrame s t := by
  cases h with
  | worker h => exact h.workerFrame
  | frame _ hp => exact ⟨fun hw => ⟨hw.isRunning, hw.stopped, hp⟩, rfl, id⟩
  | wakeWorker => exact ⟨fun hw => ⟨hw.isRunning, hw.stopped, hw.addingJob⟩, rfl, id⟩

/-- A job is finished by the worker that deletes it. -/
theorem unfinished (h : WorkStep m s a t) (ho : Ownership s) (ho' : Ownership t) :
    t.unfinished = s.unfinished ∨
      (∃ k c, a = .worker k c ∧ s.AtDelete k) ∧ t.unfinished.card < s.unfinished.card := by
  cases h with
  | @worker k c _ h =>
    obtain ⟨-, he⟩ | ⟨hat, j, hj, he⟩ := h.unfinished ho ho'
    · exact .inl he
    · exact .inr ⟨⟨k, c, rfl, hat⟩, he ▸ Finset.card_erase_lt_of_mem hj⟩
  | frame | wakeWorker => exact .inl rfl

/-- Only its own steps move a worker that is awake, and what it holds. -/
theorem of_ne (h : WorkStep m s a t) (hk : ∀ c, a ≠ .worker k c) (hs : s.worker k ≠ .blocked) :
    t.worker k = s.worker k ∧ t.holdings k = s.holdings k ∧ t.rank k = s.rank k := by
  have keep (hw : t.worker k = s.worker k) (hq : t.queues k = s.queues k)
      (hd : ∀ x, (t.jobs x).dependentCount = (s.jobs x).dependentCount) :
      t.worker k = s.worker k ∧ t.holdings k = s.holdings k ∧ t.rank k = s.rank k := by
    unfold State.holdings State.rank
    rw [hw, hq]
    simp only [hd, and_self]
  cases h with
  | @worker k' c _ h =>
    have hne : k ≠ k' := by rintro rfl; exact hk c rfl
    exact keep ((h.worker_of_ne hne).resolve_right fun hb => hs hb.1) (h.queues_of_ne hne)
      h.dependentCount
  | frame => exact keep rfl rfl fun _ => rfl
  | @wakeWorker k' hb =>
    have hne : k ≠ k' := by rintro rfl; exact hs hb
    exact keep (by simp [hne]) rfl fun _ => rfl

end WorkStep

/-- In how many steals worker `k` takes the job `x` at the latest. -/
def Phase.turns (l : List JobId) (x : JobId) : Phase → ℕ
  | .work => 0
  | .stolen => if l.getLast? = some x then 0 else l.idxOf x + 1
  | .search | .rest => l.idxOf x + 1

def State.turns (s : State n) (k : Fin n) (x : JobId) : ℕ :=
  (s.worker k).phase.turns (s.holdings k) x

/-- 1 when the worker has drawn an index in this iteration and has still to begin the next. -/
def WorkerPc.drawn : WorkerPc n → ℕ
  | .steal => 1
  | p => match p.phase with
    | .search | .work => 0
    | .stolen | .rest => 1

theorem drawn_of_phase {p : WorkerPc n} (hp : p ≠ .steal) :
    p.drawn = match p.phase with
      | .search | .work => 0
      | .stolen | .rest => 1 := by
  cases p <;> first | rfl | exact absurd rfl hp

/-- The steps until worker `k` draws the next index: to the end of this iteration if it has drawn
one, and then to the draw. -/
def State.untilDraw (s : State n) (k : Fin n) : ℕ ×ₗ ℕ := toLex ((s.worker k).drawn, s.rank k)

theorem WorkerStep.of_stealIndex (h : WorkerStep m k s t) (hp : s.worker k = .stealIndex) :
    t = s.goto k .steal ∨ t = s.goto k (.getJob .second) := by
  cases h with
  | control hp' hc =>
    rw [hp] at hp'
    subst hp'
    cases hc with
    | foreign => exact .inl rfl
    | own => exact .inr rfl
  | _ => simp_all

/-- A worker comes to a steal by its draw only. -/
theorem WorkerStep.stealIndex_of_steal (h : WorkerStep m k s t) (ht : t.worker k = .steal) :
    s.worker k = .stealIndex := by
  cases h with
  | control hp hc =>
    rw [State.goto_self] at ht
    cases hc with
    | foreign => exact hp
    | noJob a => cases a <;> simp [Attempt.failed] at ht
    | _ => simp at ht
  | @pushUnlock site =>
    rw [State.goto_self] at ht
    obtain (_ | _) | _ := site <;> simp [PushSite.done, Attempt.failed] at ht
  | steal =>
    rw [State.goto_self] at ht
    cases hd : (s.queues k).steal.1 <;> simp [hd] at ht
  | _ => simp at ht

/-- The steal of a worker that holds jobs. -/
theorem WorkerStep.of_steal (h : WorkerStep m k s t) (hp : s.worker k = .steal)
    (hx : x ∈ s.holdings k) : ∃ y l, t.worker k = .stealWrite y ∧ s.holdings k = y :: l ∧
      t.holdings k = l ++ [y] := by
  cases h with
  | control hp' hc => rw [hp] at hp'; subst hp'; cases hc
  | steal =>
    cases hd : (s.queues k).deque with
    | nil => simp [State.holdings, hp, hd, WorkerPc.hand] at hx
    | cons y l =>
      refine ⟨y, l, ?_, ?_, ?_⟩ <;>
        simp [State.holdings, hp, hd, WorkerPc.hand, JobQueue.steal]
  | _ => simp_all

theorem WorkerStep.turns_lt (h : WorkerStep m k s t) (hp : s.worker k = .steal)
    (hx : x ∈ s.holdings k) : t.turns k x < s.turns k x := by
  obtain ⟨y, l, ht, hl, hl'⟩ := h.of_steal hp hx
  unfold State.turns
  rw [ht, hl', hp, hl]
  rw [hl] at hx
  by_cases hy : y = x
  · simp [WorkerPc.phase, Phase.turns, hy]
  · have hmem : x ∈ l := (List.mem_cons.mp hx).resolve_left (Ne.symm hy)
    simp [WorkerPc.phase, Phase.turns, hy, List.idxOf_cons_ne l hy, List.idxOf_append_of_mem hmem]

/-- Unless it finishes a job, a worker comes nearer to a ready job with every steal, and never
farther away from it, whatever it draws. -/
theorem WorkerStep.turns_le (h : WorkerStep m k s t) (hx : x ∈ s.holdings k)
    (h0 : (s.jobs x).dependencyCount = 0) (hw : s.Working) (hat : ¬ s.AtDelete k) :
    t.turns k x ≤ s.turns k x := by
  by_cases hindex : s.worker k = .stealIndex
  · have hh (p : WorkerPc n) (hp : p.hand = none) : (s.goto k p).holdings k = s.holdings k :=
      holdings_goto (by rw [hp]; simp [State.holdings, hindex, WorkerPc.hand])
    unfold State.turns
    obtain rfl | rfl := h.of_stealIndex hindex
    · rw [hh .steal rfl, hindex]
      simp [WorkerPc.phase, Phase.turns]
    · rw [hh (.getJob .second) rfl, hindex]
      simp only [WorkerPc.phase, State.goto_self, Phase.turns]
      split <;> omega
  by_cases hsteal : s.worker k = .steal
  · exact (h.turns_lt hsteal hx).le
  have hhold : t.holdings k = s.holdings k := by
    cases h.holdings with
    | same he => exact he
    | steal hs => exact absurd hs hsteal
    | delete hd => exact absurd hd hat
  unfold State.turns
  rw [hhold]
  cases h.phase hw.isRunning hw.stopped hindex with
  | same _ hp => rw [hp]
  | work _ hp => rw [hp]; exact Nat.zero_le _
  | begin hs hp => rw [hp, hs]; exact Nat.le_refl _
  | steal hs => exact absurd hs hsteal
  | empty hl => simp [hl] at hx
  | @again y hs hc hp =>
    have hy : y ≠ x := by rintro rfl; exact hc h0
    have hlast : (s.holdings k).getLast? = some y := by simp [State.holdings, hs, WorkerPc.hand]
    rw [hp, hs]
    simp [WorkerPc.phase, Phase.turns, hlast, hy]
  | delete hd => exact absurd hd hat

/-- A worker that holds a job and neither draws nor finishes one comes nearer to its draw. -/
theorem WorkerStep.untilDraw_lt (h : WorkerStep m k s t) (hl : Linked s) (hx : x ∈ s.holdings k)
    (hw : s.Working) (hat : ¬ s.AtDelete k) (hindex : s.worker k ≠ .stealIndex) :
    t.untilDraw k < s.untilDraw k := by
  have hsteal : t.worker k ≠ .steal := fun ht => hindex (h.stealIndex_of_steal ht)
  have hrank (hne : s.worker k ≠ .loopTop) : t.rank k < s.rank k := by
    refine h.rank_lt hl ?_
    rintro (⟨hp, -⟩ | ⟨hp, ha⟩)
    · exact hne hp
    · simp [available_of_holdings hx hp] at ha
  have later (hd : (t.worker k).drawn ≤ (s.worker k).drawn) (hne : s.worker k ≠ .loopTop) :
      t.untilDraw k < s.untilDraw k :=
    Prod.Lex.toLex_lt_toLex.mpr (hd.lt_or_eq.imp_right fun he => ⟨he, hrank hne⟩)
  cases h.phase hw.isRunning hw.stopped hindex with
  | same hne hp =>
    refine later ?_ hne
    rw [drawn_of_phase hsteal, hp]
    by_cases hs : s.worker k = .steal
    · rw [hs]; exact Nat.zero_le _
    · rw [drawn_of_phase hs]
  | work hne hp =>
    refine later ?_ hne
    rw [drawn_of_phase hsteal, hp]
    exact Nat.zero_le _
  | begin hs hp =>
    refine Prod.Lex.toLex_lt_toLex.mpr (.inl ?_)
    rw [drawn_of_phase hsteal, hp, hs]
    exact Nat.one_pos
  | steal hs ht => exact later (by rw [hs, ht]; exact Nat.le_refl _) (by simp [hs])
  | empty hnil => simp [hnil] at hx
  | again hs _ hp =>
    refine later ?_ (by simp [hs])
    rw [drawn_of_phase hsteal, hp, hs]
    exact Nat.le_refl _
  | delete hd => exact absurd hd hat

section
variable [NeZero n]

/-- A state in which the system works and no `notify_one` of `AddJob` has come too early. -/
structure Served (m : WaitMode) (s : State n) : Prop where
  heard : ((jobSystem n m).restrict fun s a => ¬ s.MissesPush a).Reachable s
  working : s.Working

namespace Served

theorem reachable (h : Served m s) : (jobSystem n m).Reachable s := h.heard.of_restrict

theorem workStep (h : Served m s) (ha : a.Works) (ht : (jobSystem n m).step s a t) :
    WorkStep m s a t :=
  (step_cases ht).workStep ha h.working (reachable_shutdown h.reachable)

theorem step (h : Served m s) (ha : a.Works) (ht : (jobSystem n m).step s a t) : Served m t := by
  refine ⟨h.heard.step ⟨fun hmiss => ?_, ht⟩, (h.workStep ha ht).workerFrame.working h.working⟩
  have hadd := h.working.addingJob
  cases a with
  | frame =>
    cases hp : s.frame with
    | addJobPush => simp [hp, FramePc.addingJob] at hadd
    | _ => simp [State.MissesPush, hp] at hmiss
  | _ => exact hmiss

/-- No worker sleeps in front of a job. -/
theorem awake (h : Served m s) (hx : x ∈ s.holdings k) : ¬ (s.worker k).Asleep := by
  intro hs
  have hhand : (s.worker k).hand = none := by rcases hs with hs | hs <;> rw [hs] <;> rfl
  have hd : x ∈ (s.queues k).deque := by simpa [mem_holdings, hhand] using hx
  obtain ⟨j, hj⟩ := reachable_watched h.heard k hs (List.ne_nil_of_mem hd)
  have hadd := h.working.addingJob
  simp [hj, FramePc.addingJob] at hadd

/-- A worker that holds a job can go on. -/
theorem exists_step (h : Served m s) (hx : x ∈ s.holdings k) (c : Choice n) :
    ∃ t, (jobSystem n m).step s (.worker k c) t :=
  exists_workerStep h.reachable c (h.working.not_waits h.reachable (h.awake hx))
    h.working.addingJob fun _ => available_of_holdings hx

end Served

/-- Worker `k` holds the job `x`, which waits for nothing. -/
structure Holds (m : WaitMode) (k : Fin n) (x : JobId) (s : State n) : Prop extends Served m s where
  held : x ∈ s.holdings k
  free : s.pendingEdges x = ∅

namespace Holds

theorem ready (h : Holds m k x s) : (s.jobs x).dependencyCount = 0 := by
  have hcount := reachable_counted h.reachable x
  rw [h.free] at hcount
  exact UInt32.toNat_inj.mp hcount

theorem not_blocked (h : Holds m k x s) : s.worker k ≠ .blocked := fun hb =>
  h.awake h.held (.inr hb)

/-- A step that does not delete a job of worker `k` keeps `x` in its place. -/
theorem step (h : Holds m k x s) (ha : a.Works) (ht : (jobSystem n m).step s a t)
    (hat : ∀ c, a = .worker k c → ¬ s.AtDelete k) : Holds m k x t := by
  have ho := reachable_ownership h.reachable
  refine ⟨h.toServed.step ha ht, ?_, ?_⟩
  · by_cases hk : ∃ c, a = .worker k c
    · obtain ⟨c, rfl⟩ := hk
      cases (workerStep_of_step ht).holdings with
      | same he => exact he ▸ h.held
      | steal _ _ hs ht' =>
        have hx := h.held
        rw [hs] at hx
        rwa [ht', List.mem_append, List.mem_singleton, or_comm, ← List.mem_cons]
      | delete hd => exact absurd hd (hat c rfl)
    · push Not at hk
      obtain ⟨-, he, -⟩ := (h.workStep ha ht).of_ne hk h.not_blocked
      exact he ▸ h.held
  · have hcreated : s.lifecycle x ≠ .created := by
      rcases ho.held h.held with hl | hl <;> simp [hl]
    have hsub := (step_cases ht).jobStep.pendingEdges_subset ho (reachable_linked h.reachable)
      hcreated
    exact Finset.subset_empty.mp (h.free ▸ hsub)

end Holds

variable {r : (jobSystem n m).Run Action.Works} {i i' : ℕ}

/-- Worker `k` takes a step while it is about to draw an index. -/
def Draws (r : (jobSystem n m).Run Action.Works) (k : Fin n) (i : ℕ) : Prop :=
  r.Takes (Action.Of k) i ∧ (r.state i).worker k = .stealIndex

/-- Worker `k` draws another index than its own. -/
def DrawsForeign (r : (jobSystem n m).Run Action.Works) (k : Fin n) (i : ℕ) : Prop :=
  ∃ c, r.label i = some (.worker k c) ∧ (r.state i).worker k = .stealIndex ∧ c.rand % n ≠ k

/-- No worker is kept from its steps for ever, and none that draws again and again draws its own
index only. -/
structure Fair (r : (jobSystem n m).Run Action.Works) : Prop where
  scheduled : ∀ k, r.Just (Action.Of k)
  draws : ∀ k, Often (Draws r k) → Often (DrawsForeign r k)

theorem Served.run (h : Served m (r.state i)) (hi : i ≤ i') : Served m (r.state i') :=
  r.invariant (fun _ _ _ hs ha ht => hs.step ha ht) h hi

theorem Served.unfinished_le (h : Served m (r.state i)) (hi : i ≤ i') :
    (r.state i').unfinished.card ≤ (r.state i).unfinished.card := by
  refine (r.invariant (I := fun s => Served m s ∧ s.unfinished.card ≤ (r.state i).unfinished.card)
    (fun s a t hs ha ht => ⟨hs.1.step ha ht, ?_⟩) ⟨h, Nat.le_refl _⟩ hi).2
  have ho := reachable_ownership hs.1.reachable
  obtain he | ⟨-, hlt⟩ := (hs.1.workStep ha ht).unfinished ho
    (reachable_ownership (hs.1.step ha ht).reachable)
  · exact he ▸ hs.2
  · exact hlt.le.trans hs.2

/-- While no job is finished, worker `k` holds what it holds. -/
theorem Holds.run (h : Holds m k x (r.state i))
    (hat : ∀ j ≥ i, ∀ c, r.label j = some (.worker k c) → ¬ (r.state j).AtDelete k)
    (hi : i ≤ i') : Holds m k x (r.state i') := by
  induction i', hi using Nat.le_induction with
  | base => exact h
  | succ j hj ih =>
    obtain ⟨-, he⟩ | ⟨a, hl, ha, ht⟩ := r.step j
    · exact he ▸ ih
    · refine ih.step ha ht fun c hc => hat j hj c ?_
      rw [hl, hc]

/-- At every time worker `k` takes a step, or stays as it is. -/
theorem Holds.moves (h : Holds m k x (r.state i)) :
    (∃ c, r.label i = some (.worker k c) ∧
      (jobSystem n m).step (r.state i) (.worker k c) (r.state (i + 1))) ∨
    ¬ r.Takes (Action.Of k) i ∧ (r.state (i + 1)).worker k = (r.state i).worker k ∧
      (r.state (i + 1)).holdings k = (r.state i).holdings k ∧
      (r.state (i + 1)).rank k = (r.state i).rank k := by
  obtain ⟨hl, he⟩ | ⟨a, hl, ha, ht⟩ := r.step i
  · refine .inr ⟨?_, by rw [he], by rw [he], by rw [he]⟩
    rintro ⟨a, ha, -⟩
    simp [hl] at ha
  · by_cases hk : ∃ c, a = .worker k c
    · obtain ⟨c, rfl⟩ := hk
      exact .inl ⟨c, hl, ht⟩
    · refine .inr ⟨?_, (h.workStep ha ht).of_ne (not_exists.mp hk) h.not_blocked⟩
      rintro ⟨a', ha', hof⟩
      obtain rfl := Option.some.inj (hl.symm.trans ha')
      exact hk hof

/-- A worker that holds a job which waits for nothing does finish some job. -/
theorem Fair.exists_fewer (hf : Fair r) (h : Holds m k x (r.state i)) :
    ∃ j ≥ i, (r.state j).unfinished.card < (r.state i).unfinished.card := by
  by_contra hno
  push Not at hno
  have hat : ∀ j ≥ i, ∀ c, r.label j = some (.worker k c) → ¬ (r.state j).AtDelete k := by
    intro j hj c hl hd
    have hs := h.toServed.run hj
    obtain ⟨ha, ht⟩ := r.step_of_label hl
    have hs' := hs.step ha ht
    obtain ⟨hnd, -⟩ | ⟨-, y, hy, he⟩ := (workerStep_of_step ht).unfinished
      (reachable_ownership hs.reachable) (reachable_ownership hs'.reachable)
    · exact hnd hd
    · have hlt := Finset.card_erase_lt_of_mem hy
      rw [← he] at hlt
      exact absurd (hno (j + 1) (by omega)) (hlt.trans_le (h.toServed.unfinished_le hj)).not_ge
  have hold {j} (hj : i ≤ j) : Holds m k x (r.state j) := h.run hat hj
  have hsteps : Often (r.Takes (Action.Of k)) := (hf.scheduled k).often fun j hj => by
    obtain ⟨t, ht⟩ := (hold hj).exists_step (hold hj).held {}
    exact ⟨_, t, ⟨{}, rfl⟩, ht⟩
  -- the worker comes to its draw again and again
  have hdraws : Often (Draws r k) := by
    by_contra hnot
    obtain ⟨i₀, hi₀⟩ := Often.eventually_not hnot
    have hlt {j} (hj : max i i₀ ≤ j) {c} (hl : r.label j = some (.worker k c))
        (ht : (jobSystem n m).step (r.state j) (.worker k c) (r.state (j + 1))) :
        (r.state (j + 1)).untilDraw k < (r.state j).untilDraw k := by
      have hh := hold (le_of_max_le_left hj)
      exact (workerStep_of_step ht).untilDraw_lt (reachable_linked hh.reachable) hh.held hh.working
        (hat j (le_of_max_le_left hj) c hl)
        fun hp => hi₀ j (le_of_max_le_right hj) ⟨⟨_, hl, c, rfl⟩, hp⟩
    refine hsteps.not_decreasing wellFounded_lt (fun j => (r.state j).untilDraw k) (max i i₀)
      (fun j hj => ?_) fun j hj htake => ?_
    · obtain ⟨c, hl, ht⟩ | ⟨-, hw, -, hrank⟩ := (hold (le_of_max_le_left hj)).moves
      · exact .inr (hlt hj hl ht)
      · exact .inl (by rw [State.untilDraw, State.untilDraw, hw, hrank])
    · obtain ⟨c, hl, ht⟩ | ⟨hnot, -⟩ := (hold (le_of_max_le_left hj)).moves
      · exact hlt hj hl ht
      · exact absurd htake hnot
  -- so it draws another index again and again, and steals
  have hsteals : Often fun j => r.Takes (Action.Of k) j ∧ (r.state j).worker k = .steal := by
    intro i₀
    obtain ⟨j, hj, c, hl, hp, hne⟩ := hf.draws k hdraws (max i i₀)
    have hij : i ≤ j := le_of_max_le_left hj
    have hsteal : (r.state (j + 1)).worker k = .steal := by
      rw [draw_of_step (r.step_of_label hl).2 hp, State.goto_self, if_pos hne]
    obtain ⟨j', hj', htake, hp'⟩ := hsteps.exists_next_of_kept
      (I := fun j => (r.state j).worker k = .steal) (i := j + 1) (fun j' hj' hw hnot => by
        obtain ⟨c, hl, -⟩ | ⟨-, he, -⟩ := (hold (j := j') (by omega)).moves
        · exact absurd ⟨_, hl, c, rfl⟩ hnot
        · exact he.trans hw) hsteal
    exact ⟨j', by omega, htake, hp'⟩
  refine hsteals.not_decreasing Nat.lt_wfRel.wf (fun j => (r.state j).turns k x) i
    (fun j hj => ?_) fun j hj hst => ?_
  · obtain ⟨c, hl, ht⟩ | ⟨-, hw, hh, -⟩ := (hold hj).moves
    · exact ((workerStep_of_step ht).turns_le (hold hj).held (hold hj).ready (hold hj).working
        (hat j hj c hl)).eq_or_lt
    · exact .inl (by rw [State.turns, State.turns, hw, hh])
  · obtain ⟨c, hl, ht⟩ | ⟨hnot, -⟩ := (hold hj).moves
    · exact (workerStep_of_step ht).turns_lt hst.2 (hold hj).held
    · exact absurd hst.1 hnot

theorem Served.runnable_run (h : Served m (r.state i)) (hj : (r.state i).Runnable j)
    (hi : i ≤ i') : (r.state i').Runnable j :=
  (r.invariant (I := fun s => Served m s ∧ s.Runnable j) (fun _ _ _ hs ha ht =>
    ⟨hs.1.step ha ht, (hs.1.workStep ha ht).workerFrame.runnable hs.2⟩) ⟨h, hj⟩ hi).2

theorem Served.finished_run (h : Served m (r.state i)) (hj : (r.state i).lifecycle j = .finished)
    (hi : i ≤ i') : (r.state i').lifecycle j = .finished :=
  (r.invariant (I := fun s => Served m s ∧ s.lifecycle j = .finished) (fun _ _ _ hs ha ht =>
    ⟨hs.1.step ha ht, finished_of_step hs.1.reachable ht hs.2⟩) ⟨h, hj⟩ hi).2

/-- Behind every unfinished runnable job there is one that some worker can run to its end. -/
theorem Served.exists_holds (h : Served m s) (hj : s.Runnable j)
    (hu : s.lifecycle j ≠ .finished) : ∃ k x, Holds m k x s := by
  obtain ⟨x, hsub, hux, hpend⟩ := hj.exists_ready h.reachable hu
  have hloc : s.lifecycle x = .submitted ∨ s.lifecycle x = .running := by
    rcases hsub.cases with hl | hl | hl
    · exact .inl hl
    · exact .inr hl
    · exact absurd hl hux
  obtain ⟨k, hk⟩ := (reachable_ownership h.reachable).located_worker h.working.addingJob hloc
  exact ⟨k, x, h, hk, hpend⟩

theorem Fair.exists_all_finished (hf : Fair r) (N : ℕ) (h : Served m (r.state i))
    (hN : (r.state i).unfinished.card = N) :
    ∃ i' ≥ i, ∀ j, (r.state i).Runnable j → (r.state i').lifecycle j = .finished := by
  induction N using Nat.strong_induction_on generalizing i with
  | _ N ih =>
    by_cases hall : ∀ j, (r.state i).Runnable j → (r.state i).lifecycle j = .finished
    · exact ⟨i, le_rfl, hall⟩
    · obtain ⟨j, hj, hu⟩ : ∃ j, (r.state i).Runnable j ∧ (r.state i).lifecycle j ≠ .finished := by
        simpa using hall
      obtain ⟨k, x, hk⟩ := h.exists_holds hj hu
      obtain ⟨i₁, hi₁, hlt⟩ := hf.exists_fewer hk
      obtain ⟨i₂, hi₂, hfin⟩ := ih _ (hN ▸ hlt) (h.run hi₁) rfl
      exact ⟨i₂, hi₁.trans hi₂, fun j hj => hfin j (h.runnable_run hj hi₁)⟩

theorem Fair.exists_all_done (hf : Fair r) (hs : Served m (r.state 0)) :
    ∃ i, ∀ i' ≥ i, ∀ j, (r.state 0).Runnable j → (r.state i').Done j := by
  obtain ⟨i, hi, hfin⟩ := hf.exists_all_finished _ hs rfl
  refine ⟨i, fun i' hi' j hj => ?_⟩
  have hl := (hs.run hi).finished_run (hfin j hj) hi'
  exact (reachable_recorded (hs.run (hi.trans hi')).reachable).done_of_finished hl

/-- Under fair scheduling completion does not only stay possible: in every fair run of a working
system all jobs that can run at all are done at some time, and stay so. -/
theorem fair_run_completes
    (h : ((jobSystem n m).restrict fun s a => ¬ s.MissesPush a).Reachable (r.state 0))
    (hw : (r.state 0).Working) (hf : Fair r) :
    ∃ i, ∀ i' ≥ i, ∀ j, (r.state 0).Runnable j → (r.state i').Done j :=
  hf.exists_all_done ⟨h, hw⟩

/-- A run that comes to a stop when all workers are asleep is fair. -/
theorem Fair.of_rest (hrest : ∀ j ≥ i, r.state j = t ∧ r.label j = none)
    (hb : ∀ k, t.worker k = .blocked) : Fair r := by
  refine ⟨fun k i₀ => ⟨max i i₀, le_max_right i i₀, .inr ?_⟩, fun k hd => ?_⟩
  · rintro ⟨a, u, ⟨c, rfl⟩, hu⟩
    rw [(hrest _ (le_max_left i i₀)).1] at hu
    cases workerStep_of_step hu with
    | control hp hc => rw [hb k] at hp; subst hp; cases hc
    | _ => simp_all
  · obtain ⟨j, hj, ⟨a, ha, -⟩, -⟩ := hd i
    rw [(hrest j hj).2] at ha
    cases ha

end

/-- Where job 1 depends on job 0 and on nothing else depends anything, both can run. -/
theorem runnable_of_chain (hh : s.history = [.addDependency 1 0]) (h0 : s.Submitted 0)
    (hj : s.Submitted j) : s.Runnable j := by
  have hdep (d x) : s.DependsOn d x ↔ d = 1 ∧ x = 0 := by simp [State.DependsOn, hh]
  refine runnable_of_acyclic hj (fun d x hd => ?_) fun x hx => ?_
  · obtain ⟨-, rfl⟩ := (hdep d x).mp hd
    exact h0
  · obtain ⟨y, hxy, -⟩ := Relation.TransGen.head'_iff.mp hx
    obtain ⟨z, -, hzx⟩ := Relation.TransGen.tail'_iff.mp hx
    have h1 := ((hdep _ _).mp hxy).1
    simp [h1, hdep] at hzx

/-- Two workers, two jobs that depend on each other in one direction, and a run that executes both
and falls asleep. -/
theorem fair_run_completes_chain : ∃ r : (jobSystem 2 .conditionVariable).Run Action.Works,
    Fair r ∧ (r.state 0).lifecycle 0 = .submitted ∧ (r.state 0).lifecycle 1 = .submitted ∧
      ∃ i, ∀ i' ≥ i, (r.state i').Done 0 ∧ (r.state i').Done 1 := by
  obtain ⟨s, hs, hrun, hst, hadd, hl0, hl1, hh, hnext⟩ := exists_of_executeWithin (n := 2)
    (m := .conditionVariable) (G := fun s a => ¬ s.MissesPush a)
    (l := [.call (.createJob 0), .call (.createJob 1), .call (.addDependency 1 0)] ++
      addJobActions 0 ++ addJobActions 1)
    (p := fun s => s.isRunning = true ∧ s.stopped = false ∧ s.frame.addingJob = false ∧
      s.lifecycle 0 = .submitted ∧ s.lifecycle 1 = .submitted ∧
      s.history = [.addDependency 1 0] ∧
      (run (guarded SetupRule (next .conditionVariable)) s
        (workerActions 0 20 ++ workerActions 1 16)).any
          (fun t => ∀ k, t.worker k = .blocked) = true) (by decide +kernel)
  obtain ⟨t, ht, hb⟩ := (Option.any_eq_true _ _).mp hnext
  have hworks : ∀ a ∈ workerActions (n := 2) 0 20 ++ workerActions 1 16, a.Works := by
    intro a ha
    rcases List.mem_append.mp ha with ha | ha <;>
      exact (List.mem_replicate.mp ha).2 ▸ trivial
  have hpath : (jobSystem 2 .conditionVariable).Path Action.Works s t := path_of_run hworks ht
  obtain ⟨r, rfl, i, hrest⟩ := hpath.exists_run
  have hfair := Fair.of_rest hrest (of_decide_eq_true hb)
  have hrunnable {j : JobId} (hl : (r.state 0).lifecycle j = .submitted) :
      (r.state 0).Runnable j :=
    runnable_of_chain hh ⟨by simp [hl0], by simp [hl0]⟩ ⟨by simp [hl], by simp [hl]⟩
  obtain ⟨i₁, hdone⟩ := fair_run_completes hs ⟨hrun, hst, hadd⟩ hfair
  exact ⟨r, hfair, hl0, hl1, i₁, fun i' hi' =>
    ⟨hdone i' hi' 0 (hrunnable hl0), hdone i' hi' 1 (hrunnable hl1)⟩⟩

end JobSystem
