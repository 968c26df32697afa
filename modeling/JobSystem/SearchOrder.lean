import JobSystem.Search
import Mathlib.Data.List.Rotate

/-! In which order a worker goes through the jobs of a queue that nobody else touches. Until it
executes a job it turns the queue by one with every draw of another index, and examines what is
then at the back. -/
namespace JobSystem
open TransitionSystem
variable {n : ℕ} {m : WaitMode} {k : Fin n} {j : JobId} {s s₀ t : State n} {a : Action n}
  {c : Choice n} {p : WorkerPc n}

/-- What is noted of worker `k` from the start of a run on: the iterations begun, the values of
`rand() % queues.size()`, oldest first, the first job executed, and the number of its steps. -/
structure SearchLog where
  iterations : ℕ := 0
  draws : List ℕ := []
  executed : Option JobId := none
  steps : ℕ := 0

namespace SearchLog

/-- The note of a step that the worker takes from a position. -/
def record (log : SearchLog) (c : Choice n) : WorkerPc n → SearchLog
  | .loopTop => { log with iterations := log.iterations + 1, steps := log.steps + 1 }
  | .stealIndex => { log with draws := log.draws ++ [c.rand % n], steps := log.steps + 1 }
  | .execute j => { log with executed := some j, steps := log.steps + 1 }
  | _ => { log with steps := log.steps + 1 }

/-- The number of draws of another index than `k`. -/
def foreign (log : SearchLog) (k : Fin n) : ℕ := log.draws.countP fun r => r ≠ (k : ℕ)

/-- The draw of the present iteration is of another index than `k`. -/
def DrewForeign (log : SearchLog) (k : Fin n) : Prop :=
  (∃ r, log.draws.getLast? = some r ∧ r ≠ k) ∧ log.draws.length = log.iterations

end SearchLog

/-- What the other threads leave alone: the deque of `k`, the counters of the jobs `l`, and the
stop flags. -/
structure Undisturbed (k : Fin n) (l : List JobId) (s t : State n) : Prop where
  deque : (t.queues k).deque = (s.queues k).deque
  dependencyCount : ∀ j ∈ l, (t.jobs j).dependencyCount = (s.jobs j).dependencyCount
  isRunning : t.isRunning = s.isRunning
  stopped : t.stopped = s.stopped

/-- The runs from `s₀` in which the other threads do not disturb worker `k`, up to the end of the
first iteration in which it executes a job. -/
inductive SearchRun [NeZero n] (m : WaitMode) (k : Fin n) (s₀ : State n) :
    SearchLog → State n → Prop
  | start : SearchRun m k s₀ {} s₀
  | other {log : SearchLog} {s t : State n} {a : Action n} : SearchRun m k s₀ log s →
      (jobSystem n m).step s a t → (∀ c, a ≠ .worker k c) →
      Undisturbed k (s₀.queues k).deque s t → SearchRun m k s₀ log t
  | worker {log : SearchLog} {s t : State n} {c : Choice n} : SearchRun m k s₀ log s →
      (log.executed = none ∨ s.worker k ≠ .loopTop) → (jobSystem n m).step s (.worker k c) t →
      SearchRun m k s₀ (log.record c (s.worker k)) t

/-- The positions of a worker that has a job to examine and has not executed one. -/
def WorkerPc.searching : WorkerPc n → Bool
  | .loopTop | .waitStopped | .waitPredicate | .workStopped | .getJob _ => true
  | .canExecute _ (some _) | .push _ _ _ | .execute _ => true
  | .stealIndex | .steal | .stealWrite _ => true
  | _ => false

/-- The positions from the call of a jobFunction to the end of the iteration. -/
def WorkerPc.working : WorkerPc n → Bool
  | .running _ | .destroy _ _ | .reread _ _ | .readQueue _ _ | .rereadQueue _ _ => true
  | .notifyQueue _ _ _ | .countDown _ | .rereadJobsToDo | .notifyFrame | .loopTop => true
  | _ => false

/-- 1 where the draw of the iteration is still to come. -/
def WorkerPc.undrawn : WorkerPc n → ℕ
  | .waitStopped | .waitPredicate | .workStopped | .getJob .first | .canExecute .first _ => 1
  | .push (.repush .first) _ _ | .stealIndex => 1
  | _ => 0

/-- The turns of the queue that are done: one for each foreign draw, once its steal is through. -/
def SearchLog.turns (log : SearchLog) (k : Fin n) (p : WorkerPc n) : ℕ :=
  log.foreign k - if p = .steal then 1 else 0

/-- The job at the back has not been examined: it was there at the start, or has just been
stolen. -/
def SearchLog.Fresh (log : SearchLog) (k : Fin n) : WorkerPc n → Prop
  | .loopTop => log.iterations = 0 ∧ log.draws = []
  | .waitStopped | .waitPredicate | .workStopped | .getJob .first | .canExecute .first _ =>
    log.iterations = 1 ∧ log.draws = []
  | .stealWrite _ | .push .steal _ _ | .getJob .second | .canExecute .second _ =>
    log.DrewForeign k
  | .execute _ => log.iterations = 1 ∧ log.draws = [] ∨ log.DrewForeign k
  | _ => False

/-- In `s₀` the job at the back of `l` depends on another one. -/
def BackBlocked (s₀ : State n) (l : List JobId) : Prop :=
  ∀ j ∈ l.getLast?, (s₀.jobs j).dependencyCount ≠ 0

/-- Worker `k` has examined no ready job so far. -/
structure Searching (k : Fin n) (s₀ : State n) (log : SearchLog) (s : State n) : Prop where
  executed : log.executed = none
  isRunning : s.isRunning = true
  stopped : s.stopped = false
  counts : ∀ j ∈ (s₀.queues k).deque, (s.jobs j).dependencyCount = (s₀.jobs j).dependencyCount
  position : (s.worker k).searching = true
  holdings : s.holdings k = (s₀.queues k).deque.rotate (log.turns k (s.worker k))
  passed : ∀ f < log.turns k (s.worker k), BackBlocked s₀ ((s₀.queues k).deque.rotate f)
  back : log.Fresh k (s.worker k) ∨ BackBlocked s₀ (s.holdings k)
  stealing : s.worker k = .steal → log.DrewForeign k
  ready : ∀ j, s.worker k = .execute j → (s₀.jobs j).dependencyCount = 0
  drawn : (∀ j, s.worker k ≠ .execute j) →
    log.draws.length + (s.worker k).undrawn = log.iterations

/-- Worker `k` has executed the ready job `x`, the first that it has examined. -/
structure Executed (k : Fin n) (s₀ : State n) (log : SearchLog) (x : JobId) (s : State n) :
    Prop where
  executed : log.executed = some x
  position : (s.worker k).working = true
  deque : (s.queues k).deque = ((s₀.queues k).deque.rotate (log.foreign k)).dropLast
  back : ((s₀.queues k).deque.rotate (log.foreign k)).getLast? = some x
  ready : (s₀.jobs x).dependencyCount = 0
  passed : ∀ f < log.foreign k, BackBlocked s₀ ((s₀.queues k).deque.rotate f)
  fresh : log.iterations = 1 ∧ log.draws = [] ∨ log.DrewForeign k

/-- A worker with a job to examine is not asleep: others cannot move it. -/
theorem worker_eq_of_other (h : StepCase m s a t) (ha : ∀ c, a ≠ .worker k c)
    (hp : s.worker k ≠ .blocked) : t.worker k = s.worker k := by
  obtain he | ⟨hb, -⟩ | ⟨c, hc, -⟩ := h.worker_moves k
  · exact he
  · exact absurd hb hp
  · exact absurd hc (ha c)

theorem Searching.other {log : SearchLog} (h : Searching k s₀ log s) (ht : StepCase m s a t)
    (ha : ∀ c, a ≠ .worker k c) (hu : Undisturbed k (s₀.queues k).deque s t) :
    Searching k s₀ log t := by
  have hw : t.worker k = s.worker k := worker_eq_of_other ht ha fun hb => by
    have hpos := h.position
    simp [hb, WorkerPc.searching] at hpos
  have hhold : t.holdings k = s.holdings k := by rw [State.holdings, hu.deque, hw]; rfl
  exact ⟨h.executed, hu.isRunning.trans h.isRunning, hu.stopped.trans h.stopped,
    fun j hj => (hu.dependencyCount j hj).trans (h.counts j hj), hw ▸ h.position,
    hhold.trans (hw ▸ h.holdings), hw ▸ h.passed, hhold.symm ▸ hw ▸ h.back, hw ▸ h.stealing,
    hw ▸ h.ready, hw ▸ h.drawn⟩

theorem Executed.other {log : SearchLog} (h : Executed k s₀ log j s) (ht : StepCase m s a t)
    (ha : ∀ c, a ≠ .worker k c) (hu : Undisturbed k (s₀.queues k).deque s t) :
    Executed k s₀ log j t := by
  have hw : t.worker k = s.worker k := worker_eq_of_other ht ha fun hb => by
    have hpos := h.position
    simp [hb, WorkerPc.working] at hpos
  exact ⟨h.executed, hw ▸ h.position, hu.deque.trans h.deque, h.back, h.ready, h.passed, h.fresh⟩

/-- The rest of an iteration that executes a job leaves the queue alone. -/
theorem Executed.worker {log : SearchLog} (h : Executed k s₀ log j s) (ht : WorkerStep m k s t)
    (hloop : s.worker k ≠ .loopTop) : Executed k s₀ (log.record c (s.worker k)) j t := by
  have hpos := h.position
  have hstep : t.queues k = s.queues k ∧ (t.worker k).working = true ∧
      log.record c (s.worker k) = { log with steps := log.steps + 1 } := by
    cases ht with
    | control hp hc =>
      rw [hp] at hpos hloop ⊢
      cases hc <;> simp [WorkerPc.working, SearchLog.record] at hpos hloop ⊢
    | _ => simp_all [WorkerPc.working, SearchLog.record]
  obtain ⟨hq, hw, hlog⟩ := hstep
  rw [hlog]
  exact ⟨h.executed, hw, hq ▸ h.deque, h.back, h.ready, h.passed, h.fresh⟩

theorem WorkerStep.counts_of_searching (h : WorkerStep m k s t)
    (hs : (s.worker k).searching = true) (j : JobId) :
    (t.jobs j).dependencyCount = (s.jobs j).dependencyCount := by
  cases h with
  | decrement hp => simp [hp, WorkerPc.searching] at hs
  | @stealWrite i => by_cases hj : j = i <;> simp [hj]
  | _ => rfl

theorem WorkerStep.holdings_of_searching (h : WorkerStep m k s t)
    (hs : (s.worker k).searching = true) (hp : s.worker k ≠ .steal) :
    t.holdings k = s.holdings k := by
  cases h.holdings with
  | same he => exact he
  | steal hs' => exact absurd hs' hp
  | delete hd =>
    obtain ⟨j, i, hj, -⟩ := hd
    simp [hj, WorkerPc.searching] at hs

theorem turns_of_ne {log : SearchLog} (hp : p ≠ .steal) : log.turns k p = log.foreign k := by
  simp [SearchLog.turns, hp]

/-- The steps that only change the position: neither a draw, nor a steal, nor a start. -/
theorem Searching.move {log : SearchLog} (h : Searching k s₀ log s) (ht : WorkerStep m k s t)
    (hp : s.worker k ≠ .steal) (hp' : t.worker k ≠ .steal) {i : ℕ}
    (hpos : (t.worker k).searching = true)
    (hback : SearchLog.Fresh { log with iterations := i, steps := log.steps + 1 } k (t.worker k) ∨
      BackBlocked s₀ (s.holdings k))
    (hready : ∀ j, t.worker k = .execute j → (s₀.jobs j).dependencyCount = 0)
    (hdrawn : (∀ j, t.worker k ≠ .execute j) → log.draws.length + (t.worker k).undrawn = i) :
    Searching k s₀ { log with iterations := i, steps := log.steps + 1 } t := by
  have hhold := ht.holdings_of_searching h.position hp
  have hturns : log.turns k (s.worker k) = log.foreign k := turns_of_ne hp
  have hs := h.holdings
  have hpass := h.passed
  rw [hturns] at hs hpass
  exact ⟨h.executed, ht.flags.1.trans h.isRunning, ht.flags.2.trans h.stopped,
    fun j hj => (ht.counts_of_searching h.position j).trans (h.counts j hj), hpos,
    by rw [turns_of_ne hp']; exact hhold.trans hs, by rw [turns_of_ne hp']; exact hpass,
    hhold.symm ▸ hback, fun he => absurd he hp', hready, hdrawn⟩

theorem draw_of_step [NeZero n] (h : (jobSystem n m).step s (.worker k c) t)
    (hp : s.worker k = .stealIndex) :
    t = s.goto k (if c.rand % n ≠ k then .steal else .getJob .second) := by
  have hstep : workerStep m c k s = some t := h.2
  unfold workerStep at hstep
  rw [hp] at hstep
  exact (Option.some.inj hstep).symm

/-- The draw decides whether the queue is turned. -/
theorem Searching.draw {log : SearchLog} (h : Searching k s₀ log s)
    (hp : s.worker k = .stealIndex) :
    Searching k s₀ (log.record c .stealIndex)
      (s.goto k (if c.rand % n ≠ k then .steal else .getJob .second)) := by
  have hblocked := h.back.resolve_left (by rw [hp]; exact id)
  have hs := h.holdings
  have hpass := h.passed
  rw [hp, turns_of_ne (by simp)] at hs hpass
  have hd := h.drawn (by simp [hp])
  have hh : (s.goto k (if c.rand % n ≠ k then .steal else .getJob .second)).holdings k =
      s.holdings k := holdings_goto (by split <;> simp [State.holdings, hp, WorkerPc.hand])
  have hturns : (log.record c .stealIndex).turns k
      (if c.rand % n ≠ k then .steal else .getJob .second) = log.foreign k := by
    by_cases hr : c.rand % n = k <;>
      simp [hr, SearchLog.turns, SearchLog.foreign, SearchLog.record]
  refine ⟨h.executed, h.isRunning, h.stopped, h.counts, ?_, ?_, ?_, ?_, ?_, fun j he => ?_, ?_⟩
  · rw [State.goto_self]
    split <;> rfl
  · rw [State.goto_self, hturns, hh, hs]
  · rw [State.goto_self, hturns]
    exact hpass
  · rw [hh]
    exact .inr hblocked
  · rw [State.goto_self]
    intro he
    refine ⟨⟨c.rand % n, List.getLast?_concat, ?_⟩, ?_⟩
    · split at he
      · assumption
      · cases he
    · rw [hp] at hd
      exact List.length_append.trans hd
  · rw [State.goto_self] at he
    split at he <;> cases he
  · intro _
    rw [State.goto_self]
    have hlen : (log.record c .stealIndex).draws.length = log.draws.length + 1 := by
      simp [SearchLog.record]
    rw [hp] at hd
    rw [hlen, show (log.record c .stealIndex).iterations = log.iterations from rfl, ← hd]
    split <;> rfl

theorem SearchLog.DrewForeign.pos {log : SearchLog} (h : log.DrewForeign k) :
    0 < log.foreign k := by
  obtain ⟨⟨r, hr, hne⟩, -⟩ := h
  exact List.countP_pos_iff.mpr ⟨r, List.mem_of_getLast? hr, by simpa using hne⟩

/-- The steal turns the queue by one. -/
theorem Searching.steal {log : SearchLog} (h : Searching k s₀ log s)
    (hne : (s₀.queues k).deque ≠ []) (hp : s.worker k = .steal) :
    Searching k s₀ { log with steps := log.steps + 1 }
      ((s.setQueue k (s.queues k).steal.2).goto k
        ((s.queues k).steal.1.elim (.getJob .second) .stealWrite)) := by
  have hforeign := h.stealing hp
  have hpos := hforeign.pos
  have hturns : log.turns k .steal = log.foreign k - 1 := by simp [SearchLog.turns]
  have hs := h.holdings
  have hpass := h.passed
  have hblocked := h.back.resolve_left (by rw [hp]; exact id)
  rw [hp, hturns] at hs hpass
  rw [hs] at hblocked
  obtain ⟨x, l, hd⟩ : ∃ x l, (s.queues k).deque = x :: l := by
    refine List.exists_cons_of_ne_nil fun hd => hne ?_
    rw [State.holdings, hp, hd] at hs
    exact List.rotate_eq_nil_iff.mp hs.symm
  have hsteal : (s.queues k).steal = (some x, { s.queues k with deque := l }) := by
    simp [JobQueue.steal, hd]
  rw [hsteal]
  show Searching k s₀ _ ((s.setQueue k _).goto k (.stealWrite x))
  have hhold : ((s.setQueue k { s.queues k with deque := l }).goto k (.stealWrite x)).holdings k =
      (s₀.queues k).deque.rotate (log.foreign k) := by
    have hx : s.holdings k = x :: l := by simp [State.holdings, hp, WorkerPc.hand, hd]
    rw [show log.foreign k = log.foreign k - 1 + 1 by omega, ← List.rotate_rotate, ← hs, hx]
    simp [State.holdings, WorkerPc.hand]
  refine ⟨h.executed, h.isRunning, h.stopped, h.counts, by simp [WorkerPc.searching], ?_, ?_, ?_,
    by simp, by simp, ?_⟩
  · rw [State.goto_self, turns_of_ne (by simp)]
    exact hhold
  · rw [State.goto_self, turns_of_ne (by simp)]
    intro f hf
    obtain hf' | rfl : f < log.foreign k - 1 ∨ f = log.foreign k - 1 := by
      have hf' : f < log.foreign k := hf
      omega
    · exact hpass f hf'
    · exact hblocked
  · rw [State.goto_self]
    exact .inl hforeign
  · intro _
    have hdrawn := h.drawn (by simp [hp])
    rw [hp] at hdrawn
    rw [State.goto_self]
    exact hdrawn

/-- What a start finds: the job at the back, ready, and behind a foreign draw or in the first
iteration. -/
theorem Searching.start {log : SearchLog} (h : Searching k s₀ log s)
    (hp : s.worker k = .execute j) :
    Executed k s₀ { log with executed := some j, steps := log.steps + 1 } j
      (((s.setLifecycle j .running).log (.start k j)).goto k (.running j)) := by
  have hs := h.holdings
  have hpass := h.passed
  have hready := h.ready j hp
  rw [hp, turns_of_ne (by simp)] at hs hpass
  have hhold : s.holdings k = (s.queues k).deque ++ [j] := by
    simp [State.holdings, hp, WorkerPc.hand]
  have hback : (s.holdings k).getLast? = some j := by rw [hhold, List.getLast?_concat]
  have hfresh : log.Fresh k (.execute j) :=
    hp ▸ h.back.resolve_right fun hb => hb j hback hready
  refine ⟨rfl, by simp [WorkerPc.working], ?_, ?_, hready, hpass, hfresh⟩
  · show (s.queues k).deque = ((s₀.queues k).deque.rotate (log.foreign k)).dropLast
    rw [← hs, hhold, List.dropLast_concat]
  · show ((s₀.queues k).deque.rotate (log.foreign k)).getLast? = some j
    rw [← hs, hback]

/-- Every job that the worker holds has been there from the start. -/
theorem Searching.mem_start {log : SearchLog} (h : Searching k s₀ log s)
    (hj : j ∈ s.holdings k) : j ∈ (s₀.queues k).deque := by
  rw [h.holdings, List.mem_rotate] at hj
  exact hj

/-- A job found blocked is the one at the back. -/
theorem Searching.backBlocked {log : SearchLog} {b : Attempt} (h : Searching k s₀ log s)
    (hp : s.worker k = .canExecute b (some j)) (hc : (s.jobs j).dependencyCount ≠ 0) :
    BackBlocked s₀ (s.holdings k) := by
  have hhold : s.holdings k = (s.queues k).deque ++ [j] := by
    simp [State.holdings, hp, WorkerPc.hand]
  intro i hi
  rw [hhold, List.getLast?_concat] at hi
  obtain rfl := Option.some.inj hi
  rw [← h.counts j (h.mem_start (mem_holdings_of_hand (by rw [hp]; rfl)))]
  exact hc

theorem Searching.control {log : SearchLog} {p' : WorkerPc n} (h : Searching k s₀ log s)
    (ht : WorkerStep m k s (s.goto k p')) (hp : s.worker k = p) (hc : Control s k p p')
    (hindex : s.worker k ≠ .stealIndex) :
    Searching k s₀ (log.record c p) (s.goto k p') := by
  have hpos := h.position
  have hback := h.back
  have hdrawn := h.drawn
  have hmove := fun i => h.move (i := i) ht
  rw [hp] at hpos hback hdrawn hmove hindex
  simp only [State.goto_self] at hmove
  cases hc with
  | isRunning =>
    refine hmove (log.iterations + 1) (by simp) (by simp) rfl ?_ (by simp) fun _ => ?_
    · exact hback.imp_left fun hf => ⟨congrArg Nat.succ hf.1, hf.2⟩
    · exact congrArg Nat.succ (hdrawn (by simp))
  | stopped hs | skipWork hs => simp [h.stopped] at hs
  | lockWait | available | tryToWork =>
    exact hmove log.iterations (by simp) (by simp) rfl hback (by simp) fun _ => hdrawn (by simp)
  | blockedJob b j hc =>
    refine hmove log.iterations (by simp) (by simp) rfl (.inr (h.backBlocked hp hc)) (by simp) ?_
    intro _
    have hd := hdrawn (by simp)
    cases b <;> exact hd
  | foreign | own => exact absurd rfl hindex
  | _ => simp [WorkerPc.searching] at hpos

theorem Searching.worker [NeZero n] {log : SearchLog} (h : Searching k s₀ log s)
    (hne : (s₀.queues k).deque ≠ []) (hstep : (jobSystem n m).step s (.worker k c) t) :
    Searching k s₀ (log.record c (s.worker k)) t ∨
      ∃ x, Executed k s₀ (log.record c (s.worker k)) x t := by
  by_cases hindex : s.worker k = .stealIndex
  · rw [draw_of_step hstep hindex, hindex]
    exact .inl (h.draw hindex)
  have ht := workerStep_of_step hstep
  have hpos := h.position
  have hback := h.back
  have hdrawn := h.drawn
  have hmove := h.move ht (i := log.iterations)
  have hfull : s.holdings k ≠ [] := by
    rw [h.holdings]
    exact fun hn => hne (List.rotate_eq_nil_iff.mp hn)
  have hqueue (hh : (s.worker k).hand = none) : (s.queues k).deque ≠ [] := by
    simpa [State.holdings, hh] using hfull
  cases ht with
  | control hp hc =>
    rw [hp]
    exact .inl (h.control (workerStep_of_step hstep) hp hc hindex)
  | leave _ hr => simp [h.isRunning] at hr
  | sleep hp ha =>
    have hd := hqueue (by rw [hp]; rfl)
    simp [State.jobsAvailable, JobQueue.isEmpty, h.isRunning, hd] at ha
  | @getJob b hp =>
    obtain ⟨l, x, hd⟩ := (List.eq_nil_or_concat _).resolve_left (hqueue (by rw [hp]; rfl))
    have hpop : (s.queues k).pop.1 = some x := by simp [JobQueue.pop, hd]
    rw [hp] at hmove hback hdrawn ⊢
    simp only [hpop, State.goto_self] at hmove ⊢
    refine .inl (hmove (by simp) (by simp) rfl ?_ (by simp) fun _ => ?_)
    · cases b <;> exact hback
    · have hd := hdrawn (by simp)
      cases b <;> exact hd
  | @ready b j hp hc =>
    have hj := h.mem_start (mem_holdings_of_hand (k := k) (j := j) (by rw [hp]; rfl))
    rw [hp] at hmove hback ⊢
    simp only [State.goto_self] at hmove
    refine .inl (hmove (by simp) (by simp) rfl ?_ (fun i hi => ?_) (by simp))
    · cases b with
      | first => exact hback.imp_left .inl
      | second => exact hback.imp_left .inr
    · obtain rfl := WorkerPc.execute.inj hi
      exact (h.counts j hj).symm.trans hc
  | @pushLock site j hp | @pushBack site j hp | @pushNotify site j hp =>
    rw [hp] at hmove hback hdrawn ⊢
    simp only [State.goto_self] at hmove
    refine .inl (hmove (by simp) (by simp) rfl ?_ (by simp) fun _ => ?_)
    · rcases site with ⟨_ | _⟩ | _ <;> exact hback
    · have hd := hdrawn (by simp)
      rcases site with ⟨_ | _⟩ | _ <;> exact hd
  | @pushUnlock site j hp =>
    rw [hp] at hmove hback hdrawn ⊢
    simp only [State.goto_self] at hmove
    have hd := hdrawn (by simp)
    rcases site with ⟨_ | _⟩ | _
    · exact .inl (hmove (by simp) (by simp [PushSite.done, Attempt.failed]) rfl
        (.inr (hback.resolve_left id)) (by simp [PushSite.done, Attempt.failed]) fun _ => hd)
    · exact .inl (hmove (by simp) (by simp [PushSite.done, Attempt.failed]) rfl
        (.inr (hback.resolve_left id)) (by simp [PushSite.done, Attempt.failed]) fun _ => hd)
    · exact .inl (hmove (by simp) (by simp [PushSite.done]) rfl hback (by simp [PushSite.done])
        fun _ => hd)
  | start hp =>
    rw [hp]
    exact .inr ⟨_, h.start hp⟩
  | steal hp =>
    rw [hp]
    exact .inl (h.steal hne hp)
  | stealWrite hp =>
    rw [hp] at hmove hback hdrawn ⊢
    simp only [State.goto_self] at hmove
    exact .inl (hmove (by simp) (by simp) rfl hback (by simp) fun _ => hdrawn (by simp))
  | block hp | ret hp | decrement hp | delete hp | notifyQueue hp | countDown hp | notifyFrame hp
  | exitNotify hp => simp [hp, WorkerPc.searching] at hpos

theorem SearchRun.reachable [NeZero n] {log : SearchLog} (h : SearchRun m k s₀ log t)
    (hs : (jobSystem n m).Reachable s₀) : (jobSystem n m).Reachable t := by
  induction h with
  | start => exact hs
  | other _ ht _ _ ih | worker _ _ ht ih => exact ih.step ht

theorem SearchRun.invariant [NeZero n] {log : SearchLog} (h : SearchRun m k s₀ log t)
    (hloop : s₀.worker k = .loopTop) (hrun : s₀.isRunning = true) (hstop : s₀.stopped = false)
    (hne : (s₀.queues k).deque ≠ []) : Searching k s₀ log t ∨ ∃ x, Executed k s₀ log x t := by
  induction h with
  | start =>
    refine .inl ⟨rfl, hrun, hstop, fun _ _ => rfl, by rw [hloop]; rfl, ?_, ?_, ?_, ?_, ?_, ?_⟩
    · rw [hloop, turns_of_ne (by simp)]
      show s₀.holdings k = (s₀.queues k).deque.rotate 0
      simp [State.holdings, hloop, WorkerPc.hand]
    · rw [hloop, turns_of_ne (by simp)]
      exact fun f hf => absurd hf (Nat.not_lt_zero f)
    · rw [hloop]
      exact .inl ⟨rfl, rfl⟩
    · simp [hloop]
    · simp [hloop]
    · rw [hloop]
      exact fun _ => rfl
  | other _ ht ha hu ih =>
    obtain h | ⟨x, h⟩ := ih
    · exact .inl (h.other (step_cases ht) ha hu)
    · exact .inr ⟨x, h.other (step_cases ht) ha hu⟩
  | worker _ hgo ht ih =>
    obtain h | ⟨x, h⟩ := ih
    · exact h.worker hne ht
    · refine .inr ⟨x, h.worker (workerStep_of_step ht) (hgo.resolve_left ?_)⟩
      rw [h.executed]
      exact Option.some_ne_none x

/-- What lies at the back after `f + 1` turns is what lay at place `f`. -/
theorem getLast?_rotate_succ {l : List JobId} {f : ℕ} (hf : f < l.length) :
    (l.rotate (f + 1)).getLast? = some l[f] := by
  rw [List.rotate_eq_drop_append_take hf, List.take_succ_eq_append_getElem hf, ← List.append_assoc,
    List.getLast?_concat]

theorem dropLast_rotate_succ {l : List JobId} {f : ℕ} (hf : f < l.length) :
    (l.rotate (f + 1)).dropLast = l.drop (f + 1) ++ l.take f := by
  rw [List.rotate_eq_drop_append_take hf, List.take_succ_eq_append_getElem hf, ← List.append_assoc,
    List.dropLast_concat]

/-- When nothing was ready so far, the worker at its loop has examined the job at the back, but for
the very start. -/
theorem Searching.examined {log : SearchLog} (h : Searching k s₀ log s)
    (hloop : s.worker k = .loopTop) (hi : log.iterations ≠ 0) :
    ∀ f ≤ log.foreign k, BackBlocked s₀ ((s₀.queues k).deque.rotate f) := by
  have hs := h.holdings
  have hpass := h.passed
  have hback := h.back
  rw [hloop, turns_of_ne (by simp)] at hs hpass
  rw [hloop, hs] at hback
  intro f hf
  obtain hlt | rfl := Nat.lt_or_eq_of_le hf
  · exact hpass f hlt
  · exact hback.resolve_left fun hf => hi hf.1

theorem SearchLog.Fresh.cases {log : SearchLog} (h : log.Fresh k p) :
    log.iterations ≤ 1 ∧ log.draws = [] ∨ p ≠ .steal ∧ log.DrewForeign k := by
  cases p with
  | loopTop => exact .inl ⟨h.1.le.trans zero_le_one, h.2⟩
  | waitStopped | waitPredicate | workStopped => exact .inl ⟨h.1.le, h.2⟩
  | getJob b | canExecute b =>
    cases b with
    | first => exact .inl ⟨h.1.le, h.2⟩
    | second => exact .inr ⟨by simp, h⟩
  | push site =>
    cases site with
    | repush b => exact h.elim
    | steal => exact .inr ⟨by simp, h⟩
  | execute => exact h.imp (fun hf => ⟨hf.1.le, hf.2⟩) fun hf => ⟨by simp, hf⟩
  | stealWrite => exact .inr ⟨by simp, h⟩
  | _ => exact h.elim

/-- With a ready job at the back no turn can have been passed. -/
theorem eq_zero_of_passed {l : List JobId} {i : ℕ}
    (hpass : ∀ f < i, BackBlocked s₀ (l.rotate f)) (hb : ¬ BackBlocked s₀ l) : i = 0 := by
  by_contra hpos
  have hzero := hpass 0 (Nat.pos_of_ne_zero hpos)
  rw [List.rotate_zero] at hzero
  exact hb hzero

/-- With a ready job at the back nothing is drawn. -/
theorem Searching.last_ready {log : SearchLog} (h : Searching k s₀ log s)
    (hb : ¬ BackBlocked s₀ (s₀.queues k).deque) : log.iterations ≤ 1 ∧ log.draws = [] := by
  have hzero : log.turns k (s.worker k) = 0 := eq_zero_of_passed h.passed hb
  have hback := h.back
  rw [h.holdings, hzero, List.rotate_zero] at hback
  obtain hf | ⟨hne, hf⟩ := (hback.resolve_right hb).cases
  · exact hf
  · have hpos := hf.pos
    rw [turns_of_ne hne] at hzero
    omega

theorem Executed.last_ready {log : SearchLog} (h : Executed k s₀ log j s)
    (hb : ¬ BackBlocked s₀ (s₀.queues k).deque) : log.iterations = 1 ∧ log.draws = [] ∧
      (s₀.queues k).deque.getLast? = some j ∧
      (s.queues k).deque = (s₀.queues k).deque.dropLast := by
  have hzero : log.foreign k = 0 := eq_zero_of_passed h.passed hb
  have hback := h.back
  have hdeque := h.deque
  rw [hzero, List.rotate_zero] at hback hdeque
  obtain hf | hf := h.fresh
  · exact ⟨hf.1, hf.2, hback, hdeque⟩
  · exact absurd hzero hf.pos.ne'

/-- The place `i` of `l` is the first with a ready job, and it is not the last place of `l`. -/
structure FirstReady (s₀ : State n) (l : List JobId) (i : ℕ) (j : JobId) : Prop where
  last : BackBlocked s₀ l
  at_i : l[i]? = some j
  ready : (s₀.jobs j).dependencyCount = 0
  before : ∀ f < i, ∀ x, l[f]? = some x → (s₀.jobs x).dependencyCount ≠ 0

theorem FirstReady.lt {l : List JobId} {i : ℕ} (h : FirstReady s₀ l i j) : i < l.length :=
  (List.getElem?_eq_some_iff.mp h.at_i).1

theorem FirstReady.not_backBlocked {l : List JobId} {i : ℕ} (h : FirstReady s₀ l i j) :
    ¬ BackBlocked s₀ (l.rotate (i + 1)) := by
  intro hb
  refine hb j ?_ h.ready
  rw [getLast?_rotate_succ h.lt, ← List.getElem?_eq_getElem h.lt]
  exact h.at_i

theorem Executed.first_ready {log : SearchLog} {x : JobId} {i : ℕ}
    (h : Executed k s₀ log x s) (hi : FirstReady s₀ (s₀.queues k).deque i j) :
    x = j ∧ log.foreign k = i + 1 ∧ log.DrewForeign k ∧
      (s.queues k).deque = (s₀.queues k).deque.drop (i + 1) ++ (s₀.queues k).deque.take i := by
  have hback := h.back
  have hdeque := h.deque
  have hdrew : log.DrewForeign k := by
    refine h.fresh.resolve_left fun hf => ?_
    have hzero : log.foreign k = 0 := by simp [SearchLog.foreign, hf.2]
    rw [hzero, List.rotate_zero] at hback
    exact hi.last x hback h.ready
  obtain ⟨f, hf⟩ := Nat.exists_eq_succ_of_ne_zero hdrew.pos.ne'
  have hle : f ≤ i := by
    by_contra hlt
    exact hi.not_backBlocked (h.passed (i + 1) (by omega))
  have hflt : f < (s₀.queues k).deque.length := hle.trans_lt hi.lt
  rw [hf, Nat.succ_eq_add_one, getLast?_rotate_succ hflt] at hback
  have hge : ¬ f < i := fun hlt =>
    hi.before f hlt x (List.getElem?_eq_getElem hflt ▸ hback) h.ready
  obtain rfl : f = i := by omega
  refine ⟨?_, hf, hdrew, ?_⟩
  · rw [← List.getElem?_eq_getElem hflt, hi.at_i] at hback
    exact (Option.some.inj hback).symm
  · rw [hdeque, hf, Nat.succ_eq_add_one, dropLast_rotate_succ hflt]

theorem Searching.first_ready {log : SearchLog} {i : ℕ} (h : Searching k s₀ log s)
    (hi : FirstReady s₀ (s₀.queues k).deque i j) : log.foreign k ≤ i + 1 := by
  have hturns : log.turns k (s.worker k) ≤ i + 1 := by
    by_contra hlt
    exact hi.not_backBlocked (h.passed (i + 1) (by omega))
  by_cases hp : s.worker k = .steal
  · have hblocked := h.back.resolve_left (by rw [hp]; exact id)
    have hne : log.turns k (s.worker k) ≠ i + 1 := by
      intro he
      rw [h.holdings, he] at hblocked
      exact hi.not_backBlocked hblocked
    have hdef : log.turns k (s.worker k) = log.foreign k - 1 := by simp [SearchLog.turns, hp]
    omega
  · rwa [turns_of_ne hp] at hturns

/-- At the end of the iteration of the draw that brings the ready job to the back it has been
executed. -/
theorem Searching.first_ready_loopTop {log : SearchLog} {i : ℕ} (h : Searching k s₀ log s)
    (hi : FirstReady s₀ (s₀.queues k).deque i j) (hloop : s.worker k = .loopTop) :
    log.foreign k ≠ i + 1 := by
  intro hf
  have hdrawn := h.drawn (by simp [hloop])
  rw [hloop] at hdrawn
  have hne : log.iterations ≠ 0 := by
    have hle : log.foreign k ≤ log.draws.length := List.countP_le_length
    have hd : log.draws.length = log.iterations := hdrawn
    omega
  exact hi.not_backBlocked (h.examined hloop hne (i + 1) hf.ge)

theorem Executed.exists_ready {log : SearchLog} (h : Executed k s₀ log j s) :
    j ∈ (s₀.queues k).deque ∧ (s₀.jobs j).dependencyCount = 0 :=
  ⟨List.mem_rotate.mp (List.mem_of_getLast? h.back), h.ready⟩

theorem Searching.available {log : SearchLog} (h : Searching k s₀ log s)
    (hne : (s₀.queues k).deque ≠ []) (hp : s.worker k = .waitPredicate) :
    s.jobsAvailable k = true := by
  have hs := h.holdings
  have hd : (s.queues k).deque ≠ [] := fun hd => hne (by
    rw [State.holdings, hp, hd] at hs
    exact List.rotate_eq_nil_iff.mp hs.symm)
  simp [State.jobsAvailable, JobQueue.isEmpty, hd]

/-- In the search the worker neither sleeps nor is about to, and it does not leave its loop. -/
theorem SearchRun.awake [NeZero n] {log : SearchLog} (h : SearchRun m k s₀ log t)
    (hloop : s₀.worker k = .loopTop) (hrun : s₀.isRunning = true) (hstop : s₀.stopped = false)
    (hne : (s₀.queues k).deque ≠ []) : t.worker k ≠ .blocked ∧ t.worker k ≠ .exited ∧
      (t.worker k = .waitPredicate → t.jobsAvailable k = true) := by
  obtain hinv | ⟨x, hinv⟩ := h.invariant hloop hrun hstop hne
  · have hpos := hinv.position
    refine ⟨fun hp => ?_, fun hp => ?_, hinv.available hne⟩ <;>
      simp [hp, WorkerPc.searching] at hpos
  · have hpos := hinv.position
    refine ⟨fun hp => ?_, fun hp => ?_, fun hp => ?_⟩ <;> simp [hp, WorkerPc.working] at hpos

/-- An iteration takes no more than a bounded number of steps of the worker. -/
theorem SearchRun.steps_le [NeZero n] {log : SearchLog} (h : SearchRun m k s₀ log t)
    (hs : (jobSystem n m).Reachable s₀) (hloop : s₀.worker k = .loopTop)
    (hrun : s₀.isRunning = true) (hstop : s₀.stopped = false)
    (hne : (s₀.queues k).deque ≠ []) :
    log.steps + (t.worker k).rank (fun _ => 13) ≤ 94 * log.iterations + 2 := by
  induction h with
  | start => rw [hloop]; rfl
  | other hr ht ha _ ih =>
    rwa [worker_eq_of_other (step_cases ht) ha (hr.awake hloop hrun hstop hne).1]
  | @worker log s t c hr hgo ht ih =>
    have hlinked := reachable_linked (hr.reachable hs)
    have hsteps : (log.record c (s.worker k)).steps = log.steps + 1 := by
      cases s.worker k <;> rfl
    rw [hsteps]
    by_cases hl : s.worker k = .loopTop
    · have hinv := (hr.invariant hloop hrun hstop hne).resolve_right fun ⟨x, hx⟩ => by
        simp [hx.executed, hl] at hgo
      have hwait : t.worker k = .waitStopped := by
        have hstep : workerStep m c k s = some t := ht.2
        simp only [workerStep, hl, hinv.isRunning, if_true] at hstep
        rw [← Option.some.inj hstep]
        simp
      rw [hl] at ih ⊢
      rw [hwait]
      simp only [WorkerPc.rank, SearchLog.record] at ih ⊢
      omega
    · have hlt : (t.worker k).rank (fun _ => 13) < (s.worker k).rank fun _ => 13 :=
        (workerStep_of_step ht).rank_lt_of_bound hlinked.bound (fun _ => le_rfl) (by
          rintro (⟨hp, -⟩ | ⟨hp, ha⟩)
          · exact hl hp
          · simp [(hr.awake hloop hrun hstop hne).2.2 hp] at ha)
      have hiter : (log.record c (s.worker k)).iterations = log.iterations := by
        cases hp : s.worker k <;> first | rfl | exact absurd hp hl
      rw [hiter]
      omega

/-- Until its iteration with a job is over, the worker has a step whenever nobody else is inside
`Push` on its queue. -/
theorem SearchRun.exists_step [NeZero n] {log : SearchLog} (h : SearchRun m k s₀ log t)
    (hs : (jobSystem n m).Reachable s₀) (hloop : s₀.worker k = .loopTop)
    (hrun : s₀.isRunning = true) (hstop : s₀.stopped = false)
    (hne : (s₀.queues k).deque ≠ []) (hf : t.frame.holdsLock k = false) (c : Choice n) :
    ∃ u, (jobSystem n m).step t (.worker k c) u := by
  obtain ⟨hblocked, hexited, havailable⟩ := h.awake hloop hrun hstop hne
  exact exists_workerStep_of_unlocked (h.reachable hs) c (not_or.mpr ⟨hblocked, hexited⟩) hf
    fun _ hp => havailable hp

/-- The search order of worker `k` from the top of its loop over its queue `l`: a ready job at the
back is executed in the first iteration; otherwise the first ready job, at place `i`, is executed in
the iteration of the foreign draw number `i + 1`; without a ready job the queue is turned by one
with every foreign draw, and nothing is executed. An iteration takes finitely many steps and, when
nothing is executed, one draw. -/
theorem search_order [NeZero n] {log : SearchLog} (hs : (jobSystem n m).Reachable s₀)
    (hloop : s₀.worker k = .loopTop) (hrun : s₀.isRunning = true) (hstop : s₀.stopped = false)
    (hne : (s₀.queues k).deque ≠ []) (h : SearchRun m k s₀ log t) :
    let l := (s₀.queues k).deque
    (∀ j, l.getLast? = some j → (s₀.jobs j).dependencyCount = 0 →
      log.iterations ≤ 1 ∧ log.draws = [] ∧
        (∀ x, log.executed = some x → x = j ∧ (t.queues k).deque = l.dropLast) ∧
        (t.worker k = .loopTop → log.iterations = 1 → log.executed = some j)) ∧
    (∀ i j, FirstReady s₀ l i j →
      log.foreign k ≤ i + 1 ∧
        (∀ x, log.executed = some x → x = j ∧ log.foreign k = i + 1 ∧ log.DrewForeign k ∧
          (t.queues k).deque = l.drop (i + 1) ++ l.take i) ∧
        (t.worker k = .loopTop → log.foreign k = i + 1 → log.executed = some j)) ∧
    ((∀ j ∈ l, (s₀.jobs j).dependencyCount ≠ 0) →
      log.executed = none ∧
        (t.worker k = .loopTop → (t.queues k).deque = l.rotate (log.foreign k))) ∧
    (log.steps ≤ 94 * log.iterations + 2 ∧
      (t.worker k = .loopTop → log.executed = none → log.draws.length = log.iterations) ∧
      (t.frame.holdsLock k = false → ∀ c, ∃ u, (jobSystem n m).step t (.worker k c) u)) := by
  intro l
  have hsteps := h.steps_le hs hloop hrun hstop hne
  refine ⟨fun j hj h0 => ?_, fun i j hi => ?_, fun hb => ?_, by omega, fun hp he => ?_,
    h.exists_step hs hloop hrun hstop hne⟩
  · have hready : ¬ BackBlocked s₀ l := fun hb => hb j hj h0
    obtain hinv | ⟨x, hinv⟩ := h.invariant hloop hrun hstop hne
    · have hlast := hinv.last_ready hready
      refine ⟨hlast.1, hlast.2, fun x hx => ?_, fun hp hi => ?_⟩
      · simp [hinv.executed] at hx
      · have hb := hinv.examined hp (by omega) 0 (Nat.zero_le _)
        rw [List.rotate_zero] at hb
        exact absurd hb hready
    · obtain ⟨hi, hd, hx, hq⟩ := hinv.last_ready hready
      obtain rfl : j = x := Option.some.inj (hj.symm.trans hx)
      refine ⟨hi.le, hd, fun y hy => ⟨?_, hq⟩, fun _ _ => hinv.executed⟩
      exact Option.some.inj (hy.symm.trans hinv.executed)
  · obtain hinv | ⟨x, hinv⟩ := h.invariant hloop hrun hstop hne
    · refine ⟨hinv.first_ready hi, fun x hx => ?_, fun hp hf => ?_⟩
      · simp [hinv.executed] at hx
      · exact absurd hf (hinv.first_ready_loopTop hi hp)
    · obtain ⟨rfl, hf, hdrew, hq⟩ := hinv.first_ready hi
      refine ⟨hf.le, fun y hy => ⟨?_, hf, hdrew, hq⟩, fun _ _ => hinv.executed⟩
      exact Option.some.inj (hy.symm.trans hinv.executed)
  · obtain hinv | ⟨x, hinv⟩ := h.invariant hloop hrun hstop hne
    · refine ⟨hinv.executed, fun hp => ?_⟩
      have hhold := hinv.holdings
      rw [hp, turns_of_ne (by simp)] at hhold
      simpa [State.holdings, hp, WorkerPc.hand] using hhold
    · exact absurd hinv.exists_ready.2 (hb x hinv.exists_ready.1)
  · obtain hinv | ⟨x, hinv⟩ := h.invariant hloop hrun hstop hne
    · have hd := hinv.drawn (by simp [hp])
      rw [hp] at hd
      exact hd
    · simp [hinv.executed] at he

/-- Steps of worker `k` alone, with their notes. -/
def searchSteps (m : WaitMode) (k : Fin n) :
    List (Choice n) → SearchLog → State n → Option (SearchLog × State n)
  | [], log, s => some (log, s)
  | c :: l, log, s =>
    if log.executed = none ∨ s.worker k ≠ .loopTop then
      (workerStep m c k s).bind (searchSteps m k l (log.record c (s.worker k)))
    else none

theorem SearchRun.steps [NeZero n] {l : List (Choice n)} {log log' : SearchLog}
    (h : SearchRun m k s₀ log s) (hl : searchSteps m k l log s = some (log', t)) :
    SearchRun m k s₀ log' t := by
  induction l generalizing log s with
  | nil =>
    obtain ⟨rfl, rfl⟩ := Prod.mk.inj (Option.some.inj hl)
    exact h
  | cons c l ih =>
    obtain ⟨hgo, hl⟩ := Option.ite_none_right_eq_some.mp hl
    obtain ⟨u, hu, hl⟩ := Option.bind_eq_some_iff.mp hl
    exact ih (h.worker hgo ⟨trivial, hu⟩) hl

/-- A ready job in front of a blocked one: it is executed with the first foreign draw. -/
theorem search_order_two_jobs : ∃ (s₀ t : State 2) (log : SearchLog),
    SearchRun .conditionVariable 0 s₀ log t ∧ (s₀.queues 0).deque = [0, 1] ∧
      log.executed = some 0 ∧ log.foreign (0 : Fin 2) = 1 ∧ (t.queues 0).deque = [1] := by
  obtain ⟨s₀, hr, hd, hloop, hrun, hstop, h0, h1, hany⟩ := exists_of_execute (n := 2)
    (m := .conditionVariable)
    (l := [.call (.createJob 0), .call (.createJob 0), .call (.createJob 0),
      .call (.createJob 0), .call (.addDependency 1 2)] ++ addJobActions 0 ++ addJobActions 3 ++
      addJobActions 1)
    (p := fun s => (s.queues 0).deque = [0, 1] ∧ s.worker 0 = .loopTop ∧ s.isRunning = true ∧
      s.stopped = false ∧ (s.jobs 0).dependencyCount = 0 ∧ (s.jobs 1).dependencyCount ≠ 0 ∧
      (searchSteps .conditionVariable 0 (.replicate 20 { rand := 1 }) {} s).any
        (fun x => x.1.executed = some 0) = true)
    (by decide +kernel)
  obtain ⟨⟨log, t⟩, ht, hx⟩ := (Option.any_eq_true _ _).mp hany
  have hsearch := SearchRun.start.steps ht
  have hexec : log.executed = some 0 := of_decide_eq_true hx
  have hne : (s₀.queues 0).deque ≠ [] := by simp [hd]
  have hfirst : FirstReady s₀ (s₀.queues 0).deque 0 0 := by
    rw [hd]
    exact ⟨by simpa [BackBlocked] using h1, rfl, h0, by simp⟩
  obtain ⟨-, hp, -⟩ := search_order hr hloop hrun hstop hne hsearch
  obtain ⟨-, hdone, -⟩ := hp 0 0 hfirst
  obtain ⟨-, hf, -, hq⟩ := hdone 0 hexec
  exact ⟨s₀, t, log, hsearch, hd, hexec, hf, by rw [hq, hd]; rfl⟩

end JobSystem
