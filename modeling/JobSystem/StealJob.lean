import JobSystem.Ownership
import Mathlib.Algebra.BigOperators.Group.Finset.Piecewise
import Mathlib.Algebra.Order.Group.Multiset
import Mathlib.Data.List.Rotate

/-! `StealJob` as one operation of a worker, beside the transfer between two queues that it is meant
to be. -/
namespace JobSystem
open TransitionSystem
variable {n : ℕ} {m : WaitMode} {k r : Fin n} {j : JobId} {s t : State n}

namespace State

/-- `StealJob` of worker `k` for the value of `randomIndex`, with nobody else at work. -/
def stealJob (s : State n) (k : Fin n) (randomIndex : ℕ) : State n :=
  if randomIndex ≠ k then
    match (s.queues k).steal with
    | (some j, q) =>
      (s.setJob j { s.jobs j with queue := some k }).setQueue k (q.push j)
    | (none, q) => s.setQueue k q
  else s

/-- The front job of queue `r` goes to the back of queue `k`, when these are two queues. -/
def transfer (s : State n) (k r : Fin n) : State n :=
  if r ≠ k then
    match (s.queues r).deque with
    | j :: l =>
      ((s.setJob j { s.jobs j with queue := some k }).setQueue r
        { s.queues r with deque := l }).setQueue k ((s.queues k).push j)
    | [] => s
  else s

/-- The jobs in all queues together. -/
def queuedJobs (s : State n) : Multiset JobId := ∑ q, ((s.queues q).deque : Multiset JobId)

end State

@[simp] theorem goto_goto (s : State n) (k : Fin n) (p p' : WorkerPc n) :
    (s.goto k p).goto k p' = s.goto k p' := by simp [State.goto]

@[simp] theorem setQueue_goto (s : State n) (k q : Fin n) (p : WorkerPc n) (x : JobQueue) :
    (s.goto k p).setQueue q x = (s.setQueue q x).goto k p := rfl

@[simp] theorem setJob_goto (s : State n) (k : Fin n) (p : WorkerPc n) (j : JobId) (x : Job n) :
    (s.goto k p).setJob j x = (s.setJob j x).goto k p := rfl

@[simp] theorem setJob_setQueue (s : State n) (q : Fin n) (x : JobQueue) (j : JobId)
    (y : Job n) : (s.setQueue q x).setJob j y = (s.setJob j y).setQueue q x := rfl

@[simp] theorem setQueue_setQueue (s : State n) (q : Fin n) (x y : JobQueue) :
    (s.setQueue q x).setQueue q y = s.setQueue q y := by simp [State.setQueue]

theorem setQueue_self {q : Fin n} {x : JobQueue} (h : x = s.queues q) : s.setQueue q x = s := by
  simp [State.setQueue, h]

theorem setJob_self (s : State n) (j : JobId) : s.setJob j (s.jobs j) = s := by
  simp [State.setJob]

theorem notifyOne_of_awake {q : Fin n} (h : s.worker q ≠ .blocked) : s.notifyOne q = s := by
  simp [State.notifyOne, h]

/-- The steps of worker `k` from its draw to its second attempt are one `StealJob`. -/
theorem run_stealJob (hp : s.worker k = .stealIndex) (hl : (s.queues k).locked = false)
    (c : Choice n) : ∃ i, run (next m) s (.replicate i (.worker k c)) =
      some ((s.stealJob k (c.rand % n)).goto k (.getJob .second)) := by
  by_cases hr : c.rand % n = k
  · exact ⟨1, by simp [run, next, workerStep, hp, hr, State.stealJob]⟩
  · cases hd : (s.queues k).deque with
    | nil =>
      exact ⟨2, by simp [run, next, workerStep, hp, hr, hl, State.stealJob, JobQueue.steal, hd]⟩
    | cons j l =>
      -- draw, steal, write, and the four stages of the push
      refine ⟨7, ?_⟩
      simp only [List.replicate, run, next, workerStep, hp, hr, hl, State.stealJob, JobQueue.steal,
        hd, State.pushStep, JobQueue.push, PushStage.next, PushSite.done, State.goto_worker,
        State.goto_queues, State.setQueue_queues, Function.update_self, ne_eq, not_false_eq_true,
        Bool.false_eq_true, if_true, if_false, Option.bind_some, Option.map_some, List.head?_cons,
        List.tail_cons, Option.elim_some, Option.elim_none, setQueue_goto, setJob_goto,
        setJob_setQueue, goto_goto, setQueue_setQueue]
      rw [notifyOne_of_awake (by simp)]
      simp

theorem stealJob_own (s : State n) (k : Fin n) : s.stealJob k k = s := if_neg (not_not.mpr rfl)

/-- Whatever is drawn, the jobs that `StealJob` moves are those of its own queue. -/
theorem queues_stealJob (hr : r ≠ k) (q : Fin n) : ((s.stealJob k r).queues q).deque =
    if q = k then (s.queues k).deque.rotate 1 else (s.queues q).deque := by
  have hr' : (r : ℕ) ≠ k := fun he => hr (Fin.ext he)
  rw [State.stealJob, if_pos hr', JobQueue.steal]
  by_cases hq : q = k
  · subst hq
    cases hd : (s.queues q).deque <;> simp [JobQueue.push]
  · cases hd : (s.queues k).deque <;> simp [hq]

theorem queues_transfer {l : List JobId} (hr : r ≠ k) (hd : (s.queues r).deque = j :: l)
    (q : Fin n) : ((s.transfer k r).queues q).deque =
      if q = k then (s.queues k).deque ++ [j] else if q = r then l else (s.queues q).deque := by
  rw [State.transfer, if_pos hr, hd]
  by_cases hq : q = k
  · simp [hq, JobQueue.push]
  · by_cases hqr : q = r <;> simp [hq, hqr, hr]

theorem transfer_of_empty (hd : (s.queues r).deque = []) : s.transfer k r = s := by
  rw [State.transfer, hd]
  exact ite_self _

theorem transfer_own (s : State n) (k : Fin n) : s.transfer k k = s := if_neg (not_not.mpr rfl)

/-- Two families that differ at two members only, and agree on the sum of these. -/
theorem sum_eq_of_pair {M : Type*} [AddCommMonoid M] {f g : Fin n → M} (hr : r ≠ k)
    (hpair : f k + f r = g k + g r) (hrest : ∀ q, q ≠ k → q ≠ r → f q = g q) :
    ∑ q, f q = ∑ q, g q := by
  have hmem : r ∈ Finset.univ.erase k := Finset.mem_erase.mpr ⟨hr, Finset.mem_univ r⟩
  rw [← Finset.add_sum_erase _ f (Finset.mem_univ k), ← Finset.add_sum_erase _ f hmem,
    ← Finset.add_sum_erase _ g (Finset.mem_univ k), ← Finset.add_sum_erase _ g hmem,
    ← add_assoc, ← add_assoc, hpair]
  congr 1
  refine Finset.sum_congr rfl fun q hq => ?_
  rw [Finset.mem_erase, Finset.mem_erase] at hq
  exact hrest q hq.2.1 hq.1

/-- A transfer loses no job and makes none. -/
theorem queuedJobs_transfer (s : State n) (k r : Fin n) :
    (s.transfer k r).queuedJobs = s.queuedJobs := by
  by_cases hr : r = k
  · rw [hr, transfer_own]
  cases hd : (s.queues r).deque with
  | nil => rw [transfer_of_empty hd]
  | cons j l =>
    refine sum_eq_of_pair hr ?_ fun q hqk hqr => ?_
    · rw [queues_transfer hr hd, queues_transfer hr hd, if_pos rfl, if_neg hr, if_pos rfl, hd,
        ← Multiset.coe_add, ← Multiset.cons_coe, ← Multiset.singleton_add, add_assoc]
      rfl
    · rw [queues_transfer hr hd, if_neg hqk, if_neg hqr]

/-- What a transfer moves is what the next `Pop` of the worker returns. -/
theorem pop_transfer (hr : r ≠ k) (hj : (s.queues r).deque.head? = some j) :
    ((s.transfer k r).queues k).pop.1 = some j := by
  obtain ⟨l, hd⟩ := List.head?_eq_some_iff.mp hj
  rw [JobQueue.pop, queues_transfer hr hd, if_pos rfl]
  exact List.getLast?_concat

/-- `t` is `s` after a transfer from queue `r` to queue `k`, which keeps the jobs in the queues and
gives the moved job to the attempt that follows. -/
structure Transfers (s : State n) (k r : Fin n) (t : State n) : Prop where
  eq : t = s.transfer k r
  queuedJobs : t.queuedJobs = s.queuedJobs
  examined : r ≠ k → ∀ j, (s.queues r).deque.head? = some j → (t.queues k).pop.1 = some j

theorem transfers_iff : Transfers s k r t ↔ t = s.transfer k r := by
  constructor
  · exact Transfers.eq
  · rintro rfl
    exact ⟨rfl, queuedJobs_transfer s k r, fun hr _ => pop_transfer hr⟩

/-- Queue `k` looks the same after its front job has been moved to its back and entered there. -/
structure Symmetric (s : State n) (k : Fin n) : Prop where
  same : ∀ i ∈ (s.queues k).deque, ∀ j ∈ (s.queues k).deque, i = j
  entered : ∀ j ∈ (s.queues k).deque, (s.jobs j).queue = some k

theorem Symmetric.stealJob_eq (h : Symmetric s k) : s.stealJob k r = s := by
  by_cases hr : (r : ℕ) = k
  · rw [hr, stealJob_own]
  · rw [State.stealJob, if_pos hr, JobQueue.steal]
    cases hd : (s.queues k).deque with
    | nil =>
      refine setQueue_self ?_
      show ({ s.queues k with deque := [] } : JobQueue) = s.queues k
      rw [← hd]
    | cons j l =>
      have hturn : l ++ [j] = j :: l := by
        have hl : j :: l = .replicate (l.length + 1) j :=
          List.eq_replicate_iff.mpr ⟨rfl, fun i hi => h.same i (hd ▸ hi) j (by simp [hd])⟩
        rw [show l = .replicate l.length j from (List.cons.inj hl).2, ← List.replicate_succ',
          ← List.replicate_succ]
      have hj : ({ s.jobs j with queue := some k } : Job n) = s.jobs j := by
        rw [← h.entered j (by simp [hd])]
      show (s.setJob j _).setQueue k _ = s
      rw [hj, setJob_self, setQueue_self]
      show ({ s.queues k with deque := l ++ [j] } : JobQueue) = s.queues k
      rw [hturn, ← hd]

/-- `StealJob` is the transfer exactly when the draw is the worker's own index, or when the queue
drawn is empty and the worker's own queue does not show that it has been turned. -/
theorem stealJob_transfers_iff (s : State n) (k r : Fin n) :
    Transfers s k r (s.stealJob k r) ↔ r = k ∨ (s.queues r).deque = [] ∧ Symmetric s k := by
  rw [transfers_iff]
  constructor
  · intro h
    by_cases hr : r = k
    · exact .inl hr
    have hq (q : Fin n) := congrArg (fun t => (t.queues q).deque) h
    have hempty : (s.queues r).deque = [] := by
      cases hd : (s.queues r).deque with
      | nil => rfl
      | cons j l =>
        have hqr := hq r
        rw [queues_stealJob hr, queues_transfer hr hd, if_neg hr, if_neg hr, if_pos rfl, hd] at hqr
        exact absurd hqr (List.cons_ne_self _ _)
    rw [transfer_of_empty hempty] at h hq
    have hrot : (s.queues k).deque.rotate 1 = (s.queues k).deque := by
      have hqk := hq k
      rwa [queues_stealJob hr, if_pos rfl] at hqk
    obtain ⟨i, hi⟩ := List.rotate_one_eq_self_iff_eq_replicate.mp hrot
    have hall {j} (hj : j ∈ (s.queues k).deque) : j = i :=
      List.eq_of_mem_replicate (hi ▸ hj)
    refine .inr ⟨hempty, fun j hj j' hj' => (hall hj).trans (hall hj').symm, fun j hj => ?_⟩
    -- the first of the equal entries is the one written
    have hhead : (s.queues k).deque.head? = some j := by
      cases hd : (s.queues k).deque with
      | nil => simp [hd] at hj
      | cons x l => rw [hall hj, hall (j := x) (by simp [hd])]; rfl
    rw [← h]
    have hr' : (r : ℕ) ≠ k := fun he => hr (Fin.ext he)
    simp [State.stealJob, hr', JobQueue.steal, hhead]
  · rintro (rfl | ⟨hd, hsym⟩)
    · rw [stealJob_own, transfer_own]
    · rw [transfer_of_empty hd, hsym.stealJob_eq]

/-- In a run a queue holds no job twice, so that the worker's own queue may hold one at most. -/
theorem symmetric_iff_length_le [NeZero n] (h : (jobSystem n m).Reachable s) :
    Symmetric s k ↔ (s.queues k).deque.length ≤ 1 := by
  have ho := reachable_ownership h
  have hn : (s.queues k).deque.Nodup := (List.nodup_append.mp (ho.nodup k)).1
  constructor
  · intro hs
    match hd : (s.queues k).deque with
    | [] | [_] => simp
    | i :: j :: l =>
      have hij := hs.same i (by simp [hd]) j (by simp [hd])
      simp [hd, hij] at hn
  · intro hl
    refine ⟨fun i hi j hj => ?_, fun j hj => ho.queue (mem_holdings_of_queue hj)⟩
    obtain ⟨x, hx⟩ := List.length_eq_one_iff.mp
      (Nat.le_antisymm hl (List.length_pos_of_mem hi))
    rw [hx, List.mem_singleton] at hi hj
    rw [hi, hj]

/-- Two workers with a job each in their queues; the first draws the second, and nothing comes. -/
theorem stealJob_not_transfer : ∃ s : State 2, (s.queues 0).deque = [0] ∧
    (s.queues 1).deque = [1] ∧ ¬ Transfers s 0 1 (s.stealJob 0 1) := by
  refine ⟨(init.setQueue 0 { deque := [0] }).setQueue 1 { deque := [1] }, rfl, rfl, fun h => ?_⟩
  have hq := congrArg (fun t => (t.queues 1).deque) h.eq
  exact absurd hq (by decide)

end JobSystem
