import JobSystem.Step

/-! What one step can do, said once. The steps that move a thread and touch no memory are
kept apart from those that do. -/
namespace JobSystem
open TransitionSystem
variable {n : ℕ} {m : WaitMode} {k : Fin n} {s t : State n}

/-- Steps of worker `k` that change its position only, and neither put it to sleep, nor let
it out of its loop, nor let it run a job. -/
inductive Control (s : State n) (k : Fin n) : WorkerPc n → WorkerPc n → Prop
  | isRunning : s.isRunning = true → Control s k .loopTop .waitStopped
  | stopped : s.stopped = true → Control s k .waitStopped .workStopped
  | lockWait : s.stopped = false → Control s k .waitStopped .waitPredicate
  | available : s.jobsAvailable k = true → Control s k .waitPredicate .workStopped
  | wake : Control s k .notified .waitPredicate
  | skipWork : s.stopped = true → Control s k .workStopped .loopTop
  | tryToWork : s.stopped = false → Control s k .workStopped (.getJob .first)
  | noJob (a) : Control s k (.canExecute a none) a.failed
  | blockedJob (a j) : (s.jobs j).dependencyCount ≠ 0 →
      Control s k (.canExecute a (some j)) (.push (.repush a) j .lock)
  | workable (j i) : Control s k (.reread j i) (.readQueue j i)
  | stillBlocked (j i) : Control s k (.reread j i) (.destroy j (i + 1))
  | hasQueue (j i) : Control s k (.readQueue j i) (.rereadQueue j i)
  | noQueue (j i) : Control s k (.readQueue j i) (.destroy j (i + 1))
  | toNotify (j i q) : Control s k (.rereadQueue j i) (.notifyQueue j i q)
  | lostQueue (j i) : Control s k (.rereadQueue j i) (.destroy j (i + 1))
  | noMoreJobs : s.jobsToDo = 0 → Control s k .rereadJobsToDo .notifyFrame
  | moreJobs : s.jobsToDo ≠ 0 → Control s k .rereadJobsToDo .loopTop
  | foreign {r : ℕ} : r % n ≠ k → Control s k .stealIndex .steal
  | own {r : ℕ} : r % n = k → Control s k .stealIndex (.getJob .second)

inductive WorkerStep (m : WaitMode) (k : Fin n) (s : State n) : State n → Prop
  | control {p p'} : s.worker k = p → Control s k p p' → WorkerStep m k s (s.goto k p')
  | leave : s.worker k = .loopTop → s.isRunning = false →
      WorkerStep m k s (s.goto k .exitNotify)
  | sleep : s.worker k = .waitPredicate → s.jobsAvailable k = false → m = .conditionVariable →
      WorkerStep m k s (s.goto k .waitBlock)
  | block : s.worker k = .waitBlock → WorkerStep m k s (s.goto k .blocked)
  | getJob {a} : s.worker k = .getJob a → (s.queues k).locked = false →
      WorkerStep m k s ((s.setQueue k (s.queues k).pop.2).goto k
        (.canExecute a (s.queues k).pop.1))
  | ready {a j} : s.worker k = .canExecute a (some j) → (s.jobs j).dependencyCount = 0 →
      WorkerStep m k s (s.goto k (.execute j))
  | pushLock {site j} : s.worker k = .push site j .lock → (s.queues k).locked = false →
      WorkerStep m k s ((s.setQueue k { s.queues k with locked := true }).goto k
        (.push site j .pushBack))
  | pushBack {site j} : s.worker k = .push site j .pushBack →
      WorkerStep m k s ((s.setQueue k ((s.queues k).push j)).goto k (.push site j .notify))
  | pushNotify {site j} : s.worker k = .push site j .notify →
      WorkerStep m k s ((s.notifyOne k).goto k (.push site j .unlock))
  | pushUnlock {site j} : s.worker k = .push site j .unlock →
      WorkerStep m k s ((s.setQueue k { s.queues k with locked := false }).goto k site.done)
  | start {j} : s.worker k = .execute j →
      WorkerStep m k s (((s.setLifecycle j .running).log (.start k j)).goto k (.running j))
  | ret {j} : s.worker k = .running j →
      WorkerStep m k s ((s.log (.ret k j)).goto k (.destroy j 0))
  | decrement {j i d} : s.worker k = .destroy j i → i < (s.jobs j).dependentCount →
      (s.jobs j).dependentAt i = some d →
      WorkerStep m k s (((s.setJob d
        { s.jobs d with dependencyCount := (s.jobs d).dependencyCount - 1 }).log
        (.decrement j i)).goto k (.reread j i))
  | delete {j i} : s.worker k = .destroy j i → (s.jobs j).dependentCount ≤ i →
      WorkerStep m k s (((s.setLifecycle j .finished).log (.delete j)).goto k (.countDown j))
  | notifyQueue {j i q} : s.worker k = .notifyQueue j i q →
      WorkerStep m k s ((s.notifyOne q).goto k (.destroy j (i + 1)))
  | countDown {j} : s.worker k = .countDown j →
      WorkerStep m k s ((s.setJobsToDo (s.jobsToDo - 1)).goto k .rereadJobsToDo)
  | notifyFrame : s.worker k = .notifyFrame → WorkerStep m k s (s.notifyAll.goto k .loopTop)
  | steal : s.worker k = .steal → (s.queues k).locked = false →
      WorkerStep m k s ((s.setQueue k (s.queues k).steal.2).goto k
        ((s.queues k).steal.1.elim (.getJob .second) .stealWrite))
  | stealWrite {j} : s.worker k = .stealWrite j →
      WorkerStep m k s ((s.setJob j { s.jobs j with queue := some k }).goto k
        (.push .steal j .lock))
  | exitNotify : s.worker k = .exitNotify → WorkerStep m k s (s.notifyAll.goto k .exited)

theorem WorkerStep.flags (h : WorkerStep m k s t) :
    t.isRunning = s.isRunning ∧ t.stopped = s.stopped := by
  cases h <;> exact ⟨rfl, rfl⟩

theorem WorkerStep.of_workerStep {c : Choice n} (h : workerStep m c k s = some t) :
    WorkerStep m k s t := by
  unfold workerStep at h
  cases hp : s.worker k with
  | loopTop =>
    cases hr : s.isRunning <;> simp only [hp, hr] at h <;> cases h
    · exact .leave hp hr
    · exact .control hp (.isRunning hr)
  | waitStopped =>
    cases hr : s.stopped <;> simp only [hp, hr] at h <;> cases h
    · exact .control hp (.lockWait hr)
    · exact .control hp (.stopped hr)
  | waitPredicate =>
    cases ha : s.jobsAvailable k
    · simp only [hp, ha, Bool.false_eq_true, ↓reduceIte, Option.ite_none_right_eq_some] at h
      obtain ⟨hm, h⟩ := h
      cases h
      exact .sleep hp ha hm
    · simp only [hp, ha, ↓reduceIte] at h
      cases h
      exact .control hp (.available ha)
  | waitBlock => simp only [hp] at h; cases h; exact .block hp
  | blocked => simp [hp] at h
  | notified => simp only [hp] at h; cases h; exact .control hp .wake
  | workStopped =>
    cases hr : s.stopped <;> simp only [hp, hr] at h <;> cases h
    · exact .control hp (.tryToWork hr)
    · exact .control hp (.skipWork hr)
  | getJob a =>
    simp only [hp, Option.ite_none_left_eq_some, Bool.not_eq_true] at h
    obtain ⟨hl, h⟩ := h
    cases h
    exact .getJob hp hl
  | canExecute a job =>
    cases job with
    | none => simp only [hp] at h; cases h; exact .control hp (.noJob a)
    | some j =>
      simp only [hp] at h
      by_cases hc : (s.jobs j).dependencyCount = 0
      · simp only [hc, gt_iff_lt] at h
        cases h
        exact .ready hp hc
      · simp only [gt_iff_lt, UInt32.pos_iff_ne_zero.mpr hc, ↓reduceIte] at h
        cases h
        exact .control hp (.blockedJob a j hc)
  | push site j stage =>
    cases stage <;> simp only [hp, State.pushStep] at h
    · by_cases hl : (s.queues k).locked <;> simp only [hl, Bool.false_eq_true, ↓reduceIte] at h <;>
        cases h
      exact .pushLock hp (by simpa using hl)
    · cases h; exact .pushBack hp
    · cases h; exact .pushNotify hp
    · cases h; exact .pushUnlock hp
  | execute j => simp only [hp] at h; cases h; exact .start hp
  | running j => simp only [hp] at h; cases h; exact .ret hp
  | destroy j i =>
    by_cases hi : i < (s.jobs j).dependentCount
    · simp only [hp, hi, ↓reduceIte, Option.map_eq_some_iff] at h
      obtain ⟨d, hd, rfl⟩ := h
      exact .decrement hp hi hd
    · simp only [hp, hi, ↓reduceIte] at h
      cases h
      exact .delete hp (Nat.le_of_not_lt hi)
  | reread j i =>
    simp only [hp, Option.map_eq_some_iff] at h
    obtain ⟨d, -, rfl⟩ := h
    split
    · exact .control hp (.workable j i)
    · exact .control hp (.stillBlocked j i)
  | readQueue j i =>
    simp only [hp, Option.map_eq_some_iff] at h
    obtain ⟨d, -, rfl⟩ := h
    split
    · exact .control hp (.hasQueue j i)
    · exact .control hp (.noQueue j i)
  | rereadQueue j i =>
    simp only [hp, Option.map_eq_some_iff] at h
    obtain ⟨d, -, rfl⟩ := h
    cases s.readQueue c d with
    | none => exact .control hp (.lostQueue j i)
    | some q => exact .control hp (.toNotify j i q)
  | notifyQueue j i q => simp only [hp] at h; cases h; exact .notifyQueue hp
  | countDown j => simp only [hp] at h; cases h; exact .countDown hp
  | rereadJobsToDo =>
    simp only [hp] at h
    cases h
    split
    next hz => exact .control hp (.noMoreJobs hz)
    next hz => exact .control hp (.moreJobs hz)
  | notifyFrame => simp only [hp] at h; cases h; exact .notifyFrame hp
  | stealIndex =>
    simp only [hp] at h
    cases h
    split
    next hr => exact .control hp (.foreign hr)
    next hr => exact .control hp (.own (not_not.mp hr))
  | steal =>
    simp only [hp, Option.ite_none_left_eq_some, Bool.not_eq_true] at h
    obtain ⟨hl, h⟩ := h
    cases h
    exact .steal hp hl
  | stealWrite j => simp only [hp] at h; cases h; exact .stealWrite hp
  | exitNotify => simp only [hp] at h; cases h; exact .exitNotify hp
  | exited => simp [hp] at h

/-- Steps of the frame thread that change its position only. -/
inductive FrameControl (s : State n) : FramePc n → FramePc n → Prop
  | done : s.allJobsDone = true → FrameControl s .waitPredicate .idle
  | sleep : s.allJobsDone = false → FrameControl s .waitPredicate .waitBlock
  | block : FrameControl s .waitBlock .blocked
  | wake : FrameControl s .notified .waitPredicate
  | wokenAll {i} : n ≤ i → FrameControl s (.wakeAll i) (.join 0)
  | joinOne {i} (h : i < n) : s.worker ⟨i, h⟩ = .exited → FrameControl s (.join i) (.join (i + 1))

inductive FrameStep (s : State n) : State n → Prop
  | control {p p'} : s.frame = p → FrameControl s p p' → FrameStep s (s.gotoFrame p')
  | write {j} : s.frame = .addJobWrite j →
      FrameStep s ((s.setJob j { s.jobs j with queue := some s.currentQueueIndex }).gotoFrame
        (.addJobPush j s.currentQueueIndex .lock))
  | pushLock {j q} : s.frame = .addJobPush j q .lock → (s.queues q).locked = false →
      FrameStep s ((s.setQueue q { s.queues q with locked := true }).gotoFrame
        (.addJobPush j q .pushBack))
  | pushBack {j q} : s.frame = .addJobPush j q .pushBack →
      FrameStep s ((s.setQueue q ((s.queues q).push j)).gotoFrame (.addJobPush j q .notify))
  | pushNotify {j q} : s.frame = .addJobPush j q .notify →
      FrameStep s ((s.notifyOne q).gotoFrame (.addJobPush j q .unlock))
  | pushUnlock {j q} : s.frame = .addJobPush j q .unlock →
      FrameStep s ((s.setQueue q { s.queues q with locked := false }).gotoFrame .addJobIndex)
  | index : s.frame = .addJobIndex →
      FrameStep s { s with
        currentQueueIndex := ⟨(s.currentQueueIndex + 1) % n, Nat.mod_lt _ s.currentQueueIndex.pos⟩
        frame := .idle }
  | stop : s.frame = .joinStop → FrameStep s { s with stopped := true, frame := .wakeAll 0 }
  | wakeOne {i} (h : i < n) : s.frame = .wakeAll i →
      FrameStep s ((s.notifyOne ⟨i, h⟩).gotoFrame (.wakeAll (i + 1)))
  | joined {i} : n ≤ i → s.frame = .join i →
      FrameStep s { s with joined := true, frame := .idle }

theorem FrameStep.of_frameStep (h : frameStep s = some t) : FrameStep s t := by
  unfold frameStep at h
  cases hp : s.frame with
  | idle | blocked | exiting => simp [hp] at h
  | addJobWrite j => simp only [hp] at h; cases h; exact .write hp
  | addJobPush j q stage =>
    cases stage <;> simp only [hp, State.pushStep] at h
    · by_cases hl : (s.queues q).locked <;> simp only [hl, Bool.false_eq_true, ↓reduceIte] at h <;>
        cases h
      exact .pushLock hp (by simpa using hl)
    · cases h; exact .pushBack hp
    · cases h; exact .pushNotify hp
    · cases h; exact .pushUnlock hp
  | addJobIndex => simp only [hp] at h; cases h; exact .index hp
  | waitPredicate =>
    simp only [hp] at h
    cases h
    split
    next hd => exact .control hp (.done hd)
    next hd => exact .control hp (.sleep (by simpa using hd))
  | waitBlock => simp only [hp] at h; cases h; exact .control hp .block
  | notified => simp only [hp] at h; cases h; exact .control hp .wake
  | joinStop => simp only [hp] at h; cases h; exact .stop hp
  | wakeAll i =>
    by_cases hi : i < n <;> simp only [hp, hi, ↓reduceDIte] at h <;> cases h
    · exact .wakeOne hi hp
    · exact .control hp (.wokenAll (Nat.le_of_not_lt hi))
  | join i =>
    by_cases hi : i < n
    · simp only [hp, hi, ↓reduceDIte, Option.ite_none_right_eq_some] at h
      obtain ⟨he, h⟩ := h
      cases h
      exact .control hp (.joinOne hi he)
    · simp only [hp, hi, ↓reduceDIte] at h
      cases h
      exact .joined (Nat.le_of_not_lt hi) hp

/-- Every step of the system: by a worker, inside a call, at the start of a call, or from
outside. -/
inductive StepCase (m : WaitMode) (s : State n) : Action n → State n → Prop
  | worker {k : Fin n} {c : Choice n} {t : State n} : WorkerStep m k s t →
      StepCase m s (.worker k c) t
  | frame {t : State n} : FrameStep s t → StepCase m s .frame t
  | createJob (f) : s.frame = .idle →
      StepCase m s (.call (.createJob f)) (callStep s (.createJob f))
  | addDependency {d x} : s.frame = .idle → s.lifecycle d = .created → s.lifecycle x = .created →
      (s.jobs x).dependentCount < maxDependentCount →
      StepCase m s (.call (.addDependency d x)) (callStep s (.addDependency d x))
  | exit {d x} : s.frame = .idle → s.lifecycle d = .created → s.lifecycle x = .created →
      maxDependentCount ≤ (s.jobs x).dependentCount →
      StepCase m s (.call (.addDependency d x)) (s.gotoFrame (.exiting 1 dependentsMessage))
  | addJob {j} : s.frame = .idle → s.lifecycle j = .created →
      StepCase m s (.call (.addJob j)) (callStep s (.addJob j))
  | waitForAllJobs : s.frame = .idle →
      StepCase m s (.call .waitForAllJobs) (s.gotoFrame .waitPredicate)
  | joinJobs : s.frame = .idle → s.joined = false →
      StepCase m s (.call .joinJobs) { s with isRunning := false, frame := .joinStop }
  | quit : StepCase m s .quit { s with isRunning := false }
  | wakeWorker {k : Fin n} : s.worker k = .blocked →
      StepCase m s (.wakeWorker k) (s.goto k .notified)
  | wakeFrame : s.frame = .blocked → StepCase m s .wakeFrame (s.gotoFrame .notified)

theorem step_cases [NeZero n] {a : Action n} (h : (jobSystem n m).step s a t) :
    StepCase m s a t := by
  obtain ⟨hr, h⟩ := h
  change next m s a = some t at h
  cases a with
  | worker k c => exact .worker (.of_workerStep h)
  | frame => exact .frame (.of_frameStep h)
  | quit => cases h; exact .quit
  | wakeWorker k =>
    obtain ⟨hb, h⟩ := Option.ite_none_right_eq_some.mp h
    cases h
    exact .wakeWorker hb
  | wakeFrame =>
    obtain ⟨hb, h⟩ := Option.ite_none_right_eq_some.mp h
    cases h
    exact .wakeFrame hb
  | call c =>
    obtain ⟨⟨hi, hj⟩, h⟩ := Option.ite_none_right_eq_some.mp h
    cases h
    cases c with
    | createJob f => exact .createJob f hi
    | addDependency d x =>
      obtain ⟨hd, hx⟩ := hr
      obtain hm | hm := Nat.lt_or_ge (s.jobs x).dependentCount maxDependentCount
      · exact .addDependency hi hd hx hm
      · rw [callStep_exit hm]
        exact .exit hi hd hx hm
    | addJob j => exact .addJob hi hr
    | waitForAllJobs => exact .waitForAllJobs hi
    | joinJobs => exact .joinJobs hi (hj rfl)

theorem workerStep_of_step [NeZero n] {c : Choice n} (h : (jobSystem n m).step s (.worker k c) t) :
    WorkerStep m k s t := by
  cases step_cases h
  assumption

/-- What `AddDependency` leaves alone, also where it ends the process. -/
structure OnlyJobs (s t : State n) : Prop where
  isRunning : t.isRunning = s.isRunning
  stopped : t.stopped = s.stopped
  joined : t.joined = s.joined
  jobsToDo : t.jobsToDo = s.jobsToDo
  queues : t.queues = s.queues
  worker : t.worker = s.worker
  lifecycle : t.lifecycle = s.lifecycle
  nextJob : t.nextJob = s.nextJob

theorem addDependency_onlyJobs (s : State n) (d x : JobId) :
    OnlyJobs s (callStep s (.addDependency d x)) := by
  obtain hm | hm := Nat.lt_or_ge (s.jobs x).dependentCount maxDependentCount
  · rw [callStep_addDependency hm]
    constructor <;> rfl
  · rw [callStep_exit hm]
    constructor <;> rfl

theorem addDependency_history {d x : JobId} (hm : (s.jobs x).dependentCount < maxDependentCount) :
    (callStep s (.addDependency d x)).history = .addDependency d x :: s.history := by
  rw [callStep_addDependency hm]
  rfl

end JobSystem
