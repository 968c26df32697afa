import JobSystem.State
import JobSystem.Library.TransitionSystem

/-! One atomic step of one thread (`JobSystem.cpp`, `JobQueue.cpp`, `Job::~Job`). A step is
`none` where the thread cannot move: it waits for a mutex, it sleeps, or it has ended. -/
namespace JobSystem
open TransitionSystem
variable {n : ℕ}

/-- How `WaitForJob` is read: with its condition variable, where evaluating the predicate,
blocking and being notified are separate steps, or as one step that is enabled exactly when
the predicate holds. -/
inductive WaitMode where
  | conditionVariable | predicate
  deriving DecidableEq

/-- What the code does not decide: the value of `rand()`, and what a read of a deleted job
returns. -/
structure Choice (n : ℕ) where
  rand : ℕ := 0
  staleCount : UInt32 := 0
  staleQueue : Option (Fin n) := none

namespace State

/-- `NotifyOne` on queue `q`; only worker `q` waits there, and only a blocked one is woken. -/
@[simps isRunning stopped joined jobsToDo currentQueueIndex queues jobs frame lifecycle nextJob
  history]
def notifyOne (s : State n) (q : Fin n) : State n :=
  { s with worker :=
      if s.worker q = .blocked then Function.update s.worker q .notified else s.worker }

/-- `allJobsDoneConditionalVariable.notify_all()` -/
@[simps isRunning stopped joined jobsToDo currentQueueIndex queues jobs worker lifecycle nextJob
  history]
def notifyAll (s : State n) : State n :=
  { s with frame := if s.frame = .blocked then .notified else s.frame }

/-- `!isRunning || !deque.empty()` -/
def jobsAvailable (s : State n) (k : Fin n) : Bool := !s.isRunning || !(s.queues k).isEmpty

/-- `!isRunning || jobsToDo == 0` -/
def allJobsDone (s : State n) : Bool := !s.isRunning || s.jobsToDo == 0

def readCount (s : State n) (c : Choice n) (d : JobId) : UInt32 :=
  if s.lifecycle d = .finished then c.staleCount else (s.jobs d).dependencyCount

def readQueue (s : State n) (c : Choice n) (d : JobId) : Option (Fin n) :=
  if s.lifecycle d = .finished then c.staleQueue else (s.jobs d).queue

/-- One stage of `queues[q]->Push(job)`. -/
def pushStep (s : State n) (q : Fin n) (j : JobId) : PushStage → Option (State n)
  | .lock =>
    if (s.queues q).locked then none else some (s.setQueue q { s.queues q with locked := true })
  | .pushBack => some (s.setQueue q ((s.queues q).push j))
  | .notify => some (s.notifyOne q)
  | .unlock => some (s.setQueue q { s.queues q with locked := false })

end State

def PushStage.next : PushStage → Option PushStage
  | .lock => some .pushBack
  | .pushBack => some .notify
  | .notify => some .unlock
  | .unlock => none

/-- Where the loop of `Worker` goes on when `TryToWorkJob` returned false. -/
def Attempt.failed : Attempt → WorkerPc n
  | .first => .stealIndex
  | .second => .loopTop

/-- Where a worker goes on after its `Push`. -/
def PushSite.done : PushSite → WorkerPc n
  | .repush a => a.failed
  | .steal => .getJob .second

def workerStep (m : WaitMode) (c : Choice n) (k : Fin n) (s : State n) : Option (State n) :=
  match s.worker k with
  | .loopTop => some (s.goto k (if s.isRunning then .waitStopped else .exitNotify))
  | .waitStopped => some (s.goto k (if s.stopped then .workStopped else .waitPredicate))
  | .waitPredicate =>
    if s.jobsAvailable k then some (s.goto k .workStopped)
    else if m = .conditionVariable then some (s.goto k .waitBlock) else none
  | .waitBlock => some (s.goto k .blocked)
  | .blocked => none
  | .notified => some (s.goto k .waitPredicate)
  | .workStopped => some (s.goto k (if s.stopped then .loopTop else .getJob .first))
  | .getJob a =>
    if (s.queues k).locked then none
    else some ((s.setQueue k (s.queues k).pop.2).goto k (.canExecute a (s.queues k).pop.1))
  | .canExecute a none => some (s.goto k a.failed)
  | .canExecute a (some j) =>
    some (s.goto k (if (s.jobs j).dependencyCount > 0 then .push (.repush a) j .lock
      else .execute j))
  | .push site j stage =>
    (s.pushStep k j stage).map fun t =>
      t.goto k (stage.next.elim site.done fun stage' => .push site j stage')
  | .execute j => some (((s.setLifecycle j .running).log (.start k j)).goto k (.running j))
  | .running j => some ((s.log (.ret k j)).goto k (.destroy j 0))
  | .destroy j i =>
    if i < (s.jobs j).dependentCount then
      -- a null entry would be dereferenced here
      ((s.jobs j).dependentAt i).map fun d =>
        ((s.setJob d { s.jobs d with dependencyCount := (s.jobs d).dependencyCount - 1 }).log
          (.decrement j i)).goto k (.reread j i)
    else some (((s.setLifecycle j .finished).log (.delete j)).goto k (.countDown j))
  | .reread j i =>
    ((s.jobs j).dependentAt i).map fun d =>
      s.goto k (if s.readCount c d = 0 then .readQueue j i else .destroy j (i + 1))
  | .readQueue j i =>
    ((s.jobs j).dependentAt i).map fun d =>
      s.goto k (if (s.readQueue c d).isSome then .rereadQueue j i else .destroy j (i + 1))
  | .rereadQueue j i =>
    ((s.jobs j).dependentAt i).map fun d =>
      s.goto k ((s.readQueue c d).elim (.destroy j (i + 1)) fun q => .notifyQueue j i q)
  | .notifyQueue j i q => some ((s.notifyOne q).goto k (.destroy j (i + 1)))
  | .countDown _ => some ((s.setJobsToDo (s.jobsToDo - 1)).goto k .rereadJobsToDo)
  | .rereadJobsToDo => some (s.goto k (if s.jobsToDo = 0 then .notifyFrame else .loopTop))
  | .notifyFrame => some (s.notifyAll.goto k .loopTop)
  | .stealIndex => some (s.goto k (if c.rand % n ≠ k then .steal else .getJob .second))
  | .steal =>
    if (s.queues k).locked then none
    else some ((s.setQueue k (s.queues k).steal.2).goto k
      ((s.queues k).steal.1.elim (.getJob .second) .stealWrite))
  | .stealWrite j =>
    some ((s.setJob j { s.jobs j with queue := some k }).goto k (.push .steal j .lock))
  | .exitNotify => some (s.notifyAll.goto k .exited)
  | .exited => none

/-- The calls that the frame thread makes. -/
inductive Call where
  | createJob (f : JobFunction)
  | addDependency (dependent dependency : JobId)
  | addJob (j : JobId)
  | waitForAllJobs
  | joinJobs
  deriving DecidableEq

/-- What `AddDependency` prints before it ends the process. -/
def dependentsMessage : String :=
  "Jobsystem only supports a max of " ++ toString maxDependentCount ++ " dependents.\n"

/-- The first step of a call, for `CreateJob` and `AddDependency` the only one. -/
def callStep (s : State n) : Call → State n
  | .createJob f =>
    { (s.setJob s.nextJob { jobFunction := some f }).setLifecycle s.nextJob .created with
      nextJob := s.nextJob + 1 }
  | .addDependency d x =>
    if (s.jobs x).dependentCount > maxDependentCount - 1 then
      s.gotoFrame (.exiting 1 dependentsMessage)
    else
      let t := s.setJob x ((s.jobs x).addDependent d)
      (t.setJob d { t.jobs d with dependencyCount := (t.jobs d).dependencyCount + 1 }).log
        (.addDependency d x)
  | .addJob j =>
    ((s.setJobsToDo (s.jobsToDo + 1)).setLifecycle j .submitted).gotoFrame (.addJobWrite j)
  | .waitForAllJobs => s.gotoFrame .waitPredicate
  | .joinJobs => { s with isRunning := false, frame := .joinStop }

/-- `AddDependency` with room for one more dependent. -/
theorem callStep_addDependency {s : State n} {d x : JobId}
    (hm : (s.jobs x).dependentCount < maxDependentCount) :
    callStep s (.addDependency d x) =
      let t := s.setJob x ((s.jobs x).addDependent d)
      (t.setJob d { t.jobs d with dependencyCount := (t.jobs d).dependencyCount + 1 }).log
        (.addDependency d x) :=
  if_neg (Nat.not_lt.mpr (Nat.le_pred_of_lt hm))

/-- `AddDependency` without room ends the process. -/
theorem callStep_exit {s : State n} {d x : JobId}
    (hm : maxDependentCount ≤ (s.jobs x).dependentCount) :
    callStep s (.addDependency d x) = s.gotoFrame (.exiting 1 dependentsMessage) :=
  if_pos (Nat.lt_of_lt_of_le (by decide) hm)

/-- The next step of the call that the frame thread is in. -/
def frameStep (s : State n) : Option (State n) :=
  match s.frame with
  | .idle | .blocked | .exiting _ _ => none
  | .addJobWrite j =>
    some ((s.setJob j { s.jobs j with queue := some s.currentQueueIndex }).gotoFrame
      (.addJobPush j s.currentQueueIndex .lock))
  | .addJobPush j q stage =>
    (s.pushStep q j stage).map fun t =>
      t.gotoFrame (stage.next.elim .addJobIndex fun stage' => .addJobPush j q stage')
  | .addJobIndex =>
    some { s with
      currentQueueIndex := ⟨(s.currentQueueIndex + 1) % n, Nat.mod_lt _ s.currentQueueIndex.pos⟩
      frame := .idle }
  | .waitPredicate => some (s.gotoFrame (if s.allJobsDone then .idle else .waitBlock))
  | .waitBlock => some (s.gotoFrame .blocked)
  | .notified => some (s.gotoFrame .waitPredicate)
  | .joinStop => some { s with stopped := true, frame := .wakeAll 0 }
  | .wakeAll i =>
    if h : i < n then some ((s.notifyOne ⟨i, h⟩).gotoFrame (.wakeAll (i + 1)))
    else some (s.gotoFrame (.join 0))
  | .join i =>
    if h : i < n then
      if s.worker ⟨i, h⟩ = .exited then some (s.gotoFrame (.join (i + 1))) else none
    else some { s with joined := true, frame := .idle }

inductive Action (n : ℕ) where
  | worker (k : Fin n) (c : Choice n)
  /-- The frame thread makes a call. -/
  | call (c : Call)
  /-- The frame thread goes on with its call. -/
  | frame
  /-- The main thread stores `isRunning = false`. -/
  | quit
  /-- A condition variable wakes its waiter without a notification. -/
  | wakeWorker (k : Fin n)
  | wakeFrame

def Action.IsWorker (a : Action n) : Prop := ∃ k c, a = .worker k c

/-- The workers are joined once: a second `join` on the same thread throws. -/
def next (m : WaitMode) (s : State n) : Action n → Option (State n)
  | .worker k c => workerStep m c k s
  | .call c =>
    if s.frame = .idle ∧ (c = .joinJobs → s.joined = false) then some (callStep s c) else none
  | .frame => frameStep s
  | .quit => some { s with isRunning := false }
  | .wakeWorker k => if s.worker k = .blocked then some (s.goto k .notified) else none
  | .wakeFrame => if s.frame = .blocked then some (s.gotoFrame .notified) else none

/-- What the caller promises: dependencies are set up before either job is added, and each
job is added once. -/
def SetupRule (s : State n) : Action n → Prop
  | .call (.addDependency d x) => s.lifecycle d = .created ∧ s.lifecycle x = .created
  | .call (.addJob j) => s.lifecycle j = .created
  | _ => True

instance (s : State n) : (a : Action n) → Decidable (SetupRule s a)
  | .call (.addDependency _ _) => inferInstanceAs (Decidable (_ ∧ _))
  | .call (.addJob _) => inferInstanceAs (Decidable (_ = _))
  | .call (.createJob _) | .call .waitForAllJobs | .call .joinJobs =>
    inferInstanceAs (Decidable True)
  | .worker _ _ | .frame | .quit | .wakeWorker _ | .wakeFrame => inferInstanceAs (Decidable True)

def jobSystem (n : ℕ) [NeZero n] (m : WaitMode) : System (State n) (Action n) :=
  (ofNext init (next m)).restrict SetupRule

/-- A run given as a list of actions, each allowed by the caller's promise. -/
def execute [NeZero n] (m : WaitMode) (l : List (Action n)) : Option (State n) :=
  run (guarded SetupRule (next m)) init l

/-- A whole `AddJob(j)` of the frame thread. -/
def addJobActions (j : JobId) : List (Action n) := .call (.addJob j) :: .replicate 6 .frame

/-- The next `i` steps of worker `k`. -/
def workerActions (k : Fin n) (i : ℕ) : List (Action n) := .replicate i (.worker k {})

/-- A state with a decidable property, at the end of a run from a reachable state. -/
theorem exists_of_run [NeZero n] {m : WaitMode} {s : State n} {l : List (Action n)}
    {p : State n → Prop} [DecidablePred p] (hs : (jobSystem n m).Reachable s)
    (h : (run (guarded SetupRule (next m)) s l).any (fun s => p s) = true) :
    ∃ t, (jobSystem n m).Reachable t ∧ p t := by
  obtain ⟨t, ht, hp⟩ := (Option.any_eq_true _ _).mp h
  exact ⟨t, reachable_of_run hs ht, of_decide_eq_true hp⟩

theorem exists_of_execute [NeZero n] {m : WaitMode} {l : List (Action n)} {p : State n → Prop}
    [DecidablePred p] (h : (execute m l).any (fun s => p s) = true) :
    ∃ s, (jobSystem n m).Reachable s ∧ p s := exists_of_run (.init rfl) h

/-- A run each of whose steps also meets the condition `G`. -/
def executeWithin [NeZero n] (G : State n → Action n → Prop) [∀ s a, Decidable (G s a)]
    (m : WaitMode) (l : List (Action n)) : Option (State n) :=
  run (guarded (fun s a => G s a ∧ SetupRule s a) (next m)) init l

theorem exists_of_runWithin [NeZero n] {G : State n → Action n → Prop}
    [∀ s a, Decidable (G s a)] {m : WaitMode} {s : State n} {l : List (Action n)}
    {p : State n → Prop} [DecidablePred p] (hs : ((jobSystem n m).restrict G).Reachable s)
    (h : (run (guarded (fun s a => G s a ∧ SetupRule s a) (next m)) s l).any (fun s => p s) =
      true) : ∃ t, ((jobSystem n m).restrict G).Reachable t ∧ p t := by
  obtain ⟨t, ht, hp⟩ := (Option.any_eq_true _ _).mp h
  have hr := reachable_of_run (hs.mono (fun _ hi => hi) fun _ _ _ hu => ⟨⟨hu.1, hu.2.1⟩, hu.2.2⟩) ht
  exact ⟨t, hr.mono (fun _ hi => hi) fun _ _ _ hu => ⟨hu.1.1, hu.1.2, hu.2⟩, of_decide_eq_true hp⟩

theorem exists_of_executeWithin [NeZero n] {G : State n → Action n → Prop}
    [∀ s a, Decidable (G s a)] {m : WaitMode} {l : List (Action n)} {p : State n → Prop}
    [DecidablePred p] (h : (executeWithin G m l).any (fun s => p s) = true) :
    ∃ s, ((jobSystem n m).restrict G).Reachable s ∧ p s := exists_of_runWithin (.init rfl) h

theorem step_call [NeZero n] {m : WaitMode} {s : State n} {c : Call} (hr : SetupRule s (.call c))
    (hi : s.frame = .idle) (hj : c = .joinJobs → s.joined = false) :
    (jobSystem n m).step s (.call c) (callStep s c) :=
  ⟨hr, if_pos ⟨hi, hj⟩⟩

theorem exists_step [NeZero n] {m : WaitMode} {s : State n} {a : Action n} (hr : SetupRule s a)
    (h : (next m s a).isSome) : ∃ t, (jobSystem n m).step s a t :=
  (Option.isSome_iff_exists.mp h).imp fun _ ht => ⟨hr, ht⟩

end JobSystem
