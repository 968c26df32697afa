import JobSystem.OpenJobs
import JobSystem.WakeUp

/-! How a worker finds a job in its queue. Popping and pushing back leaves what queue and worker
hold as it is, a steal turns it by one; so a job that is ready comes nearer with every
iteration in which the worker steals. -/
namespace JobSystem
open TransitionSystem
variable {n : ℕ} {m : WaitMode} {k : Fin n} {j : JobId} {i : ℕ} {s t : State n} {a : Action n}

namespace State

def unfinished (s : State n) : Finset JobId :=
  (Finset.range s.nextJob).filter fun j => s.lifecycle j = .submitted ∨ s.lifecycle j = .running

/-- The next step of the worker deletes the job in its hands. -/
def AtDelete (s : State n) (k : Fin n) : Prop :=
  ∃ j i, s.worker k = .destroy j i ∧ (s.jobs j).dependentCount ≤ i

end State

theorem Ownership.mem_unfinished (h : Ownership s) :
    j ∈ s.unfinished ↔ s.lifecycle j = .submitted ∨ s.lifecycle j = .running := by
  simp only [State.unfinished, Finset.mem_filter, Finset.mem_range, and_iff_right_iff_imp]
  rintro (hl | hl) <;> exact h.lt_nextJob (by simp [hl])

/-- The holdings of a worker after one of its steps: as before, turned by one, or without the job
that it has deleted. -/
inductive HoldingsStep (k : Fin n) (s : State n) : State n → Prop
  | same {t : State n} : t.holdings k = s.holdings k → HoldingsStep k s t
  | steal {t : State n} {j : JobId} {l : List JobId} : s.worker k = .steal →
      t.worker k = .stealWrite j → s.holdings k = j :: l → t.holdings k = l ++ [j] →
      HoldingsStep k s t
  | delete {t : State n} {j : JobId} : s.AtDelete k → s.holdings k = t.holdings k ++ [j] →
      HoldingsStep k s t

theorem holdings_goto {u : State n} {p : WorkerPc n}
    (h : (u.queues k).deque ++ p.hand.toList = s.holdings k) :
    (u.goto k p).holdings k = s.holdings k := by
  simpa [State.holdings] using h

/-- Steps of worker `k` that move no job. -/
theorem HoldingsStep.of_position {u : State n} {p : WorkerPc n}
    (hq : (u.queues k).deque = (s.queues k).deque) (hp : p.hand = (s.worker k).hand) :
    HoldingsStep k s (u.goto k p) :=
  .same (holdings_goto (by rw [hq, hp]; rfl))

theorem WorkerStep.holdings (h : WorkerStep m k s t) : HoldingsStep k s t := by
  cases h with
  | control hp hc => exact .of_position rfl (hp ▸ hc.sameWork.hand)
  | getJob hp =>
    refine .same (holdings_goto ?_)
    simp [State.holdings, hp, WorkerPc.hand, pop_append]
  | pushBack hp =>
    refine .same (holdings_goto ?_)
    simp [State.holdings, hp, WorkerPc.hand, JobQueue.push]
  | pushLock hp => exact .of_position (setLocked_deque s k true k) (by rw [hp]; rfl)
  | @pushUnlock site _ hp =>
    exact .of_position (setLocked_deque s k false k) (by rw [hp]; exact (idle_done site).hand)
  | steal hp =>
    have hs := steal_append (s.queues k)
    cases hj : (s.queues k).steal.1 with
    | none =>
      refine .same (holdings_goto ?_)
      simp [State.holdings, hp, WorkerPc.hand, ← hs, hj]
    | some j =>
      refine .steal hp (j := j) (l := (s.queues k).steal.2.deque) (by simp) ?_ ?_
      · simp [State.holdings, hp, WorkerPc.hand, ← hs, hj]
      · simp [State.holdings, WorkerPc.hand]
  | @delete j i hp hi =>
    exact .delete (j := j) ⟨j, i, hp, hi⟩ (by simp [State.holdings, hp, WorkerPc.hand])
  | leave hp | sleep hp | block hp | ready hp | pushNotify hp | start hp | ret hp | decrement hp
  | notifyQueue hp | countDown hp | notifyFrame hp | stealWrite hp | exitNotify hp =>
    exact .of_position rfl (by rw [hp]; rfl)

/-- A worker step finishes the job it deletes and no other. -/
theorem WorkerStep.unfinished (h : WorkerStep m k s t) (ho : Ownership s) (ho' : Ownership t) :
    ¬ s.AtDelete k ∧ t.unfinished = s.unfinished ∨
      s.AtDelete k ∧ ∃ j ∈ s.unfinished, t.unfinished = s.unfinished.erase j := by
  by_cases hat : s.AtDelete k
  · obtain ⟨j, i, hp, hi⟩ := hat
    obtain rfl := h.eq_of_end hp hi
    have hj := ho.running_of_startedJob (k := k) (j := j) (by simp [hp, WorkerPc.startedJob])
    refine .inr ⟨⟨j, i, hp, hi⟩, j, ho.mem_unfinished.mpr (.inr hj), Finset.ext fun x => ?_⟩
    rw [Finset.mem_erase, ho.mem_unfinished, ho'.mem_unfinished]
    by_cases hx : x = j <;> simp [hx]
  have same (hl : t.lifecycle = s.lifecycle) : t.unfinished = s.unfinished := by
    ext x
    rw [ho.mem_unfinished, ho'.mem_unfinished, hl]
  refine .inl ⟨hat, ?_⟩
  cases h with
  | @start j hp =>
    have hj := ho.submitted_of_hand (k := k) (j := j) (by simp [hp, WorkerPc.hand])
      (by simp [hp, WorkerPc.startedJob])
    ext x
    rw [ho.mem_unfinished, ho'.mem_unfinished]
    by_cases hx : x = j <;> simp [hx, hj]
  | delete hp hi => exact absurd ⟨_, _, hp, hi⟩ hat
  | _ => exact same rfl

/-- How far a worker is in an iteration: on its way to the steal, with a job it runs, with a job it
has stolen and will try next, or on its way to the next iteration. -/
inductive Phase where
  | search | work | stolen | rest
  deriving DecidableEq

def WorkerPc.phase : WorkerPc n → Phase
  | .waitStopped | .waitPredicate | .waitBlock | .blocked | .notified | .workStopped => .search
  | .getJob .first | .canExecute .first _ | .push (.repush .first) _ _ => .search
  | .stealIndex | .steal => .search
  | .execute _ | .running _ | .destroy _ _ | .reread _ _ | .readQueue _ _ | .rereadQueue _ _
  | .notifyQueue _ _ _ => .work
  | .stealWrite _ | .push .steal _ _ | .getJob .second | .canExecute .second (some _) => .stolen
  | _ => .rest

/-- In how many more iterations a worker that steals in each of them meets the ready job `j`. -/
def Phase.distance (l : List JobId) (j : JobId) : Phase → ℕ
  | .search => l.idxOf j
  | .work => 0
  | .stolen => if l.getLast? = some j then 0 else l.idxOf j + 1
  | .rest => l.idxOf j + 1

def State.distance (s : State n) (k : Fin n) (j : JobId) : ℕ :=
  (s.worker k).phase.distance (s.holdings k) j

/-- How a step changes the phase. -/
inductive PhaseStep (k : Fin n) (s t : State n) : Prop
  | same : s.worker k ≠ .loopTop → (t.worker k).phase = (s.worker k).phase → PhaseStep k s t
  | work : s.worker k ≠ .loopTop → (t.worker k).phase = .work → PhaseStep k s t
  | begin : s.worker k = .loopTop → (t.worker k).phase = .search → PhaseStep k s t
  | steal {x : JobId} {l : List JobId} : s.worker k = .steal → t.worker k = .stealWrite x →
      s.holdings k = x :: l → t.holdings k = l ++ [x] → PhaseStep k s t
  | empty : s.holdings k = [] → PhaseStep k s t
  | again {x : JobId} : s.worker k = .canExecute .second (some x) →
      (s.jobs x).dependencyCount ≠ 0 → (t.worker k).phase = .rest → PhaseStep k s t
  | delete : s.AtDelete k → PhaseStep k s t

theorem WorkerStep.phase (h : WorkerStep m k s t) (hrun : s.isRunning = true)
    (hst : s.stopped = false) (hindex : s.worker k ≠ .stealIndex) : PhaseStep k s t := by
  cases h with
  | control hp hc =>
    cases hc with
    | isRunning => exact .begin hp (by simp [WorkerPc.phase])
    | stopped hs | skipWork hs => simp [hst] at hs
    | foreign | own => exact absurd hp hindex
    | noJob a =>
      cases a <;> exact .same (by simp [hp]) (by simp [hp, Attempt.failed, WorkerPc.phase])
    | blockedJob a j hc =>
      cases a with
      | first => exact .same (by simp [hp]) (by simp [hp, WorkerPc.phase])
      | second => exact .again hp hc (by simp [WorkerPc.phase])
    | lockWait | available | wake | tryToWork | workable | stillBlocked | hasQueue | noQueue
    | toNotify | lostQueue | noMoreJobs | moreJobs =>
      exact .same (by simp [hp]) (by simp [hp, WorkerPc.phase])
  | leave _ hr => simp [hrun] at hr
  | @getJob a hp =>
    cases a with
    | first => exact .same (by simp [hp]) (by simp [hp, WorkerPc.phase])
    | second =>
      cases hj : (s.queues k).pop.1 with
      | none => exact .empty (by simpa [State.holdings, hp, WorkerPc.hand, JobQueue.pop] using hj)
      | some j => exact .same (by simp [hp]) (by simp [hp, WorkerPc.phase])
  | ready hp => exact .work (by simp [hp]) (by simp [WorkerPc.phase])
  | steal hp =>
    cases hd : (s.queues k).deque with
    | nil => exact .empty (by simp [State.holdings, hp, WorkerPc.hand, hd])
    | cons x l =>
      exact .steal hp (x := x) (l := l) (by simp [JobQueue.steal, hd])
        (by simp [State.holdings, hp, WorkerPc.hand, hd])
        (by simp [State.holdings, WorkerPc.hand, JobQueue.steal, hd])
  | delete hp hi => exact .delete ⟨_, _, hp, hi⟩
  | @pushUnlock site _ hp =>
    refine .same (by simp [hp]) ?_
    rcases site with ⟨_ | _⟩ | _ <;> simp [hp, PushSite.done, Attempt.failed, WorkerPc.phase]
  | @pushLock site _ hp | @pushBack site _ hp | @pushNotify site _ hp =>
    refine .same (by simp [hp]) ?_
    rcases site with ⟨_ | _⟩ | _ <;> simp [hp, WorkerPc.phase]
  | sleep hp | block hp | start hp | ret hp | decrement hp | notifyQueue hp | countDown hp
  | notifyFrame hp | stealWrite hp | exitNotify hp =>
    exact .same (by simp [hp]) (by simp [hp, WorkerPc.phase])

/-- A steal brings every job one place nearer to the front, and the front job to the hand. -/
theorem distance_rotate {x : JobId} {l : List JobId} (hj : j ∈ x :: l) :
    Phase.stolen.distance (l ++ [x]) j ≤ Phase.search.distance (x :: l) j := by
  by_cases hx : x = j
  · simp [Phase.distance, hx]
  · have hl : j ∈ l := (List.mem_cons.mp hj).resolve_left (Ne.symm hx)
    simp [Phase.distance, hx, List.idxOf_cons_ne l hx, List.idxOf_append_of_mem hl]

/-- Whatever a worker does that steals when it can, a ready job that it holds comes no farther
away, and nearer when a new iteration begins, unless the worker finishes a job. -/
theorem WorkerStep.distance (h : WorkerStep m k s t) (hj : j ∈ s.holdings k)
    (h0 : (s.jobs j).dependencyCount = 0) (hrun : s.isRunning = true) (hst : s.stopped = false)
    (hindex : s.worker k ≠ .stealIndex) :
    s.AtDelete k ∨ t.distance k j < s.distance k j ∨
      t.distance k j ≤ s.distance k j ∧ s.worker k ≠ .loopTop := by
  have hhold := h.holdings
  unfold State.distance
  cases h.phase hrun hst hindex with
  | same hne hp =>
    cases hhold with
    | same hl => exact .inr (.inr ⟨by rw [hp, hl], hne⟩)
    | steal hs ht => simp [hs, ht, WorkerPc.phase] at hp
    | delete hd => exact .inl hd
  | work hne hp => exact .inr (.inr ⟨by rw [hp]; exact Nat.zero_le _, hne⟩)
  | begin hs hp =>
    cases hhold with
    | same hl => exact .inr (.inl (by rw [hp, hs, hl]; exact Nat.lt_succ_self _))
    | steal hs' => simp [hs] at hs'
    | delete hd => exact .inl hd
  | steal hs ht hl hl' =>
    refine .inr (.inr ⟨?_, by simp [hs]⟩)
    rw [hs, ht, hl']
    rw [hl] at hj ⊢
    exact distance_rotate hj
  | empty hl => simp [hl] at hj
  | @again x hs hc hp =>
    have hx : x ≠ j := by rintro rfl; exact hc h0
    cases hhold with
    | same hl =>
      refine .inr (.inr ⟨?_, by simp [hs]⟩)
      have hlast : (s.holdings k).getLast? = some x := by simp [State.holdings, hs, WorkerPc.hand]
      rw [hp, hl, hs]
      simp [WorkerPc.phase, Phase.distance, hlast, hx]
    | steal hs' => simp [hs] at hs'
    | delete hd => exact .inl hd
  | delete hd => exact .inl hd

end JobSystem
