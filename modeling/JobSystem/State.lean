import JobSystem.Job
import Mathlib.Algebra.GroupWithZero.Nat
import Mathlib.Data.Finset.Prod
import Mathlib.Data.Fintype.Basic
import Mathlib.Logic.Function.Basic

/-! The state of the job system: the shared memory, the position of each thread in its code,
and what a reader of the run has seen so far. -/
namespace JobSystem

/-- Not a field of the source: where a job is between `CreateJob` and its `delete`. -/
inductive Lifecycle where
  | unallocated | created | submitted | running | finished
  deriving DecidableEq

/-- `Push` under its lock guard: lock `mutex`, `push_back`, `notify_one`, unlock. -/
inductive PushStage where
  | lock | pushBack | notify | unlock
  deriving DecidableEq

/-- The two calls of `TryToWorkJob` in the loop of `Worker`. -/
inductive Attempt where
  | first | second
  deriving DecidableEq

/-- A worker pushes a blocked job back in `CanExecuteJob`, or a stolen one in `StealJob`. -/
inductive PushSite where
  | repush (a : Attempt)
  | steal
  deriving DecidableEq

/-- The next atomic step of a worker thread. -/
inductive WorkerPc (n : ℕ) where
  /-- `while (isRunning)` -/
  | loopTop
  /-- `if (!stopped)` in `WaitForAvailableJobs` -/
  | waitStopped
  /-- `WaitForJob` holds `conditionalVaribleMutex` and is about to evaluate its predicate. -/
  | waitPredicate
  /-- The predicate was false; release the mutex and block. -/
  | waitBlock
  | blocked
  /-- A notification was delivered. -/
  | notified
  /-- `if (!stopped)` in `Worker` -/
  | workStopped
  | getJob (a : Attempt)
  | canExecute (a : Attempt) (job : Option JobId)
  | push (site : PushSite) (j : JobId) (stage : PushStage)
  /-- About to call `jobFunction`. -/
  | execute (j : JobId)
  | running (j : JobId)
  /-- The loop of `~Job` at index `i`: its condition and the decrement. -/
  | destroy (j : JobId) (i : ℕ)
  /-- `if (dependents[i]->dependencyCount == 0)` -/
  | reread (j : JobId) (i : ℕ)
  /-- `if (dependents[i]->queue)` -/
  | readQueue (j : JobId) (i : ℕ)
  /-- The second read of `dependents[i]->queue`, for the call on it. -/
  | rereadQueue (j : JobId) (i : ℕ)
  | notifyQueue (j : JobId) (i : ℕ) (q : Fin n)
  /-- `jobsToDo--` in `Finish`, `j` being the deleted job. -/
  | countDown (j : JobId)
  /-- `if (jobsToDo == 0)` in `Finish` -/
  | rereadJobsToDo
  /-- `notify_all` in `Finish` -/
  | notifyFrame
  /-- `rand()` and the guard of `StealJob`. -/
  | stealIndex
  | steal
  | stealWrite (j : JobId)
  /-- `notify_all` behind the loop. -/
  | exitNotify
  | exited
  deriving DecidableEq

/-- The next atomic step of the thread that submits jobs and waits for frames. -/
inductive FramePc (n : ℕ) where
  | idle
  /-- `AddJob` after `jobsToDo++`. -/
  | addJobWrite (j : JobId)
  | addJobPush (j : JobId) (q : Fin n) (stage : PushStage)
  | addJobIndex
  /-- `WaitForAllJobs` holds `waitForAllJobMutex` and is about to evaluate its predicate. -/
  | waitPredicate
  | waitBlock
  | blocked
  | notified
  /-- `JoinJobs` after `isRunning = false`. -/
  | joinStop
  | wakeAll (i : ℕ)
  | join (i : ℕ)
  /-- In `exit(status)`, with the last text printed. -/
  | exiting (status : ℕ) (printed : String)
  deriving DecidableEq

inductive Event (n : ℕ) where
  | addDependency (dependent dependency : JobId)
  | start (k : Fin n) (j : JobId)
  | ret (k : Fin n) (j : JobId)
  | decrement (j : JobId) (i : ℕ)
  | delete (j : JobId)
  deriving DecidableEq

/-- `lifecycle`, `nextJob` and `history` are bookkeeping: no step of the source reads them,
except that a read of a deleted job is a read of freed memory. -/
structure State (n : ℕ) where
  isRunning : Bool
  stopped : Bool
  /-- The workers have been joined. -/
  joined : Bool
  jobsToDo : UInt32
  currentQueueIndex : Fin n
  queues : Fin n → JobQueue
  jobs : JobId → Job n
  worker : Fin n → WorkerPc n
  frame : FramePc n
  lifecycle : JobId → Lifecycle
  nextJob : JobId
  /-- Newest event first. -/
  history : List (Event n)

variable {n : ℕ}

/-- The state the constructor leaves: `n` empty queues and `n` workers at their loops. -/
def init [NeZero n] : State n where
  isRunning := true
  stopped := false
  joined := false
  jobsToDo := 0
  currentQueueIndex := 0
  queues _ := {}
  jobs _ := {}
  worker _ := .loopTop
  frame := .idle
  lifecycle _ := .unallocated
  nextJob := 0
  history := []

namespace State

@[simps] def goto (s : State n) (k : Fin n) (pc : WorkerPc n) : State n :=
  { s with worker := Function.update s.worker k pc }

theorem goto_self (s : State n) (k : Fin n) (pc : WorkerPc n) : (s.goto k pc).worker k = pc := by
  rw [goto_worker, Function.update_self]

/-- A step of worker `k` to a position that counts as much as before. -/
theorem exists_worker_goto {s : State n} {k : Fin n} {A : WorkerPc n → Prop} {pc : WorkerPc n}
    (hA : A pc ↔ A (s.worker k)) :
    (∃ k', A ((s.goto k pc).worker k')) ↔ ∃ k', A (s.worker k') := by
  refine exists_congr fun k' => ?_
  by_cases hk : k' = k
  · subst hk
    rw [goto_self, hA]
  · rw [goto_worker, Function.update_of_ne hk]

@[simps] def gotoFrame (s : State n) (pc : FramePc n) : State n := { s with frame := pc }

@[simps] def setQueue (s : State n) (k : Fin n) (q : JobQueue) : State n :=
  { s with queues := Function.update s.queues k q }

@[simps] def setJob (s : State n) (j : JobId) (x : Job n) : State n :=
  { s with jobs := Function.update s.jobs j x }

@[simps] def setLifecycle (s : State n) (j : JobId) (l : Lifecycle) : State n :=
  { s with lifecycle := Function.update s.lifecycle j l }

@[simps] def setJobsToDo (s : State n) (c : UInt32) : State n := { s with jobsToDo := c }

@[simps] def log (s : State n) (e : Event n) : State n := { s with history := e :: s.history }

end State

/-- The job in a worker's hands: out of its queue and not yet deleted. -/
def WorkerPc.hand : WorkerPc n → Option JobId
  | .canExecute _ job => job
  | .push _ j .lock | .push _ j .pushBack => some j
  | .execute j | .running j | .stealWrite j => some j
  | .destroy j _ | .reread j _ | .readQueue j _ | .rereadQueue j _ | .notifyQueue j _ _ => some j
  | _ => none

/-- The job in hand whose jobFunction has been started. -/
def WorkerPc.startedJob : WorkerPc n → Option JobId
  | .running j => some j
  | .destroy j _ | .reread j _ | .readQueue j _ | .rereadQueue j _ | .notifyQueue j _ _ => some j
  | _ => none

/-- The job in hand whose jobFunction has returned. -/
def WorkerPc.returnedJob : WorkerPc n → Option JobId
  | .destroy j _ | .reread j _ | .readQueue j _ | .rereadQueue j _ | .notifyQueue j _ _ => some j
  | _ => none

/-- How many dependents of `x` the loop of `~Job` run by this worker has decremented. -/
def WorkerPc.decremented : WorkerPc n → JobId → ℕ
  | .destroy j i, x => if j = x then i else 0
  | .reread j i, x | .readQueue j i, x | .rereadQueue j i, x | .notifyQueue j i _, x =>
    if j = x then i + 1 else 0
  | _, _ => 0

/-- The job deleted by this worker whose `jobsToDo--` is still to come. -/
def WorkerPc.countingDown : WorkerPc n → Option JobId
  | .countDown j => some j
  | _ => none

/-- The job that `AddJob` has counted and not yet pushed. -/
def FramePc.hand : FramePc n → Option JobId
  | .addJobWrite j | .addJobPush j _ .lock | .addJobPush j _ .pushBack => some j
  | _ => none

/-- An `AddJob` is in progress. -/
def FramePc.addingJob : FramePc n → Bool
  | .addJobWrite _ | .addJobPush _ _ _ | .addJobIndex => true
  | _ => false

/-- The process is being ended. -/
def FramePc.inExit : FramePc n → Bool
  | .exiting _ _ => true
  | _ => false

namespace State

/-- `AddJob` has been called for the job. -/
def Submitted (s : State n) (j : JobId) : Prop :=
  s.lifecycle j ≠ .unallocated ∧ s.lifecycle j ≠ .created

instance (s : State n) (j : JobId) : Decidable (s.Submitted j) :=
  inferInstanceAs (Decidable (_ ∧ _))

/-- What queue `k` and its worker hold, in the order in which the worker meets the jobs from
the back. -/
def holdings (s : State n) (k : Fin n) : List JobId :=
  (s.queues k).deque ++ (s.worker k).hand.toList

/-- The pairs `(x, i)` with `x.dependents[i] = j` and `i < x.dependentCount`. -/
def edges (s : State n) (j : JobId) : Finset (JobId × ℕ) :=
  (Finset.range s.nextJob ×ˢ Finset.range maxDependentCount).filter fun e =>
    e.2 < (s.jobs e.1).dependentCount ∧ (s.jobs e.1).dependentAt e.2 = some j

/-- The decrement for this pair has not been done by the destructor of its job. -/
def Pending (s : State n) (e : JobId × ℕ) : Prop :=
  s.lifecycle e.1 ≠ .finished ∧ ∀ k, (s.worker k).decremented e.1 ≤ e.2

instance (s : State n) (e : JobId × ℕ) : Decidable (s.Pending e) :=
  inferInstanceAs (Decidable (_ ∧ _))

def pendingEdges (s : State n) (j : JobId) : Finset (JobId × ℕ) := (s.edges j).filter s.Pending

/-- Fewer than `2 ^ 32` edges lead into any job, so that no dependency counter wraps. -/
def FewEdges (s : State n) : Prop := ∀ j, (s.edges j).card < 2 ^ 32

/-- `AddJob` has done `jobsToDo++` for the job and `Finish` has not done `jobsToDo--`. -/
def Open (s : State n) (j : JobId) : Prop :=
  s.lifecycle j = .submitted ∨ s.lifecycle j = .running ∨
    ∃ k, (s.worker k).countingDown = some j

instance (s : State n) (j : JobId) : Decidable (s.Open j) :=
  inferInstanceAs (Decidable (_ ∨ _ ∨ _))

def openJobs (s : State n) : Finset JobId := (Finset.range s.nextJob).filter s.Open

end State

end JobSystem
