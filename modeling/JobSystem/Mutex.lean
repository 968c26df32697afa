import JobSystem.Moves

/-! The mutex of a queue is held by the one thread inside a `Push`, and meanwhile the pushed
job stays in the queue. -/
namespace JobSystem
open TransitionSystem
variable {n : ℕ} {m : WaitMode} {k q : Fin n} {j : JobId} {s t : State n} {a : Action n}

/-- In a `Push`, behind the lock. A worker pushes onto its own queue only. -/
def WorkerPc.holdsLock : WorkerPc n → Bool
  | .push _ _ stage => stage ≠ .lock
  | _ => false

def FramePc.holdsLock : FramePc n → Fin n → Bool
  | .addJobPush _ q' stage, q => q' = q ∧ stage ≠ .lock
  | _, _ => false

structure Mutex (s : State n) : Prop where
  locked : ∀ q, (s.queues q).locked = (s.frame.holdsLock q || (s.worker q).holdsLock)
  exclusive : ∀ {q}, s.frame.holdsLock q = true → (s.worker q).holdsLock = false
  pushed : ∀ {j q stage}, s.frame = .addJobPush j q stage → stage = .notify ∨ stage = .unlock →
    j ∈ (s.queues q).deque

theorem holdsLock_failed (a : Attempt) : (a.failed : WorkerPc n).holdsLock = false := by
  cases a <;> rfl

theorem holdsLock_done (site : PushSite) : (site.done : WorkerPc n).holdsLock = false := by
  cases site with
  | repush a => exact holdsLock_failed a
  | steal => rfl

/-- What a step of worker `k` does to the lock of its queue. -/
theorem WorkerStep.lock (h : WorkerStep m k s t) :
    ((t.queues k).locked = (s.queues k).locked ∧
        (t.worker k).holdsLock = (s.worker k).holdsLock) ∨
      ((s.queues k).locked = false ∧ (t.queues k).locked = true ∧
        (t.worker k).holdsLock = true) ∨
      ((s.worker k).holdsLock = true ∧ (t.queues k).locked = false ∧
        (t.worker k).holdsLock = false) := by
  cases h with
  | control hp hc =>
    refine .inl ⟨rfl, ?_⟩
    rw [State.goto_self, hp]
    cases hc with
    | noJob a => exact holdsLock_failed a
    | _ => rfl
  | pushLock hp hl => exact .inr (.inl ⟨hl, by simp, by simp [WorkerPc.holdsLock]⟩)
  | @pushUnlock site _ hp =>
    exact .inr (.inr ⟨by simp [hp, WorkerPc.holdsLock], by simp, by simp [holdsLock_done]⟩)
  | steal hp =>
    refine .inl ⟨by simp [JobQueue.steal], ?_⟩
    rw [hp, State.goto_self]
    cases (s.queues k).steal.1 <;> rfl
  | getJob hp => exact .inl ⟨by simp [JobQueue.pop], by simp [hp, WorkerPc.holdsLock]⟩
  | pushBack hp => exact .inl ⟨by simp [JobQueue.push], by simp [hp, WorkerPc.holdsLock]⟩
  | leave hp | sleep hp | block hp | ready hp | pushNotify hp | start hp | ret hp | decrement hp
  | delete hp | notifyQueue hp | countDown hp | notifyFrame hp | stealWrite hp | exitNotify hp =>
    exact .inl ⟨rfl, by simp [hp, WorkerPc.holdsLock]⟩

/-- A worker touches no queue but its own. -/
theorem WorkerStep.queues_of_ne (h : WorkerStep m k s t) (hq : q ≠ k) :
    t.queues q = s.queues q := by
  cases h <;> simp [hq]

theorem WorkerStep.holdsLock_of_ne (h : WorkerStep m k s t) (hq : q ≠ k) :
    (t.worker q).holdsLock = (s.worker q).holdsLock := by
  obtain he | ⟨hb, hn⟩ := h.worker_of_ne hq
  · rw [he]
  · rw [hb, hn]; rfl

theorem WorkerStep.frame_holdsLock (h : WorkerStep m k s t) (q : Fin n) :
    t.frame.holdsLock q = s.frame.holdsLock q := by
  cases h with
  | notifyFrame | exitNotify => exact notifyAll_congr (·.holdsLock q) rfl s
  | _ => rfl

/-- A worker that does not hold the lock leaves the queue alone while it is locked. -/
theorem WorkerStep.queue_of_locked (h : WorkerStep m k s t) (hl : (s.queues k).locked = true)
    (hw : (s.worker k).holdsLock = false) : t.queues k = s.queues k := by
  cases h with
  | getJob _ hf | pushLock _ hf | steal _ hf => simp [hl] at hf
  | pushBack hp | pushUnlock hp => simp [hp, WorkerPc.holdsLock] at hw
  | _ => rfl

namespace Mutex

theorem init [NeZero n] : Mutex (init : State n) := by
  constructor <;> simp [JobSystem.init, FramePc.holdsLock, WorkerPc.holdsLock]

theorem worker (h : Mutex s) (ht : WorkerStep m k s t) : Mutex t := by
  have hframe := ht.frame_holdsLock
  refine ⟨fun q => ?_, fun {q} hf => ?_, fun {j q stage} hp hs => ?_⟩
  · by_cases hq : q = k
    · subst hq
      have hl := h.locked q
      have hx := h.exclusive (q := q)
      rw [hframe]
      rcases ht.lock with ⟨h1, h2⟩ | ⟨h1, h2, h3⟩ | ⟨h1, h2, h3⟩
      · rw [h1, h2, hl]
      · rw [h2, h3, Bool.or_true]
      · have hn : s.frame.holdsLock q = false := by
          by_contra hc
          simp [hx (by simpa using hc)] at h1
        rw [h2, h3, hn]
        rfl
    · rw [ht.queues_of_ne hq, hframe, ht.holdsLock_of_ne hq]
      exact h.locked q
  · rw [hframe] at hf
    by_cases hq : q = k
    · subst hq
      have hw := h.exclusive hf
      rcases ht.lock with ⟨h1, h2⟩ | ⟨h1, h2, h3⟩ | ⟨h1, h2, h3⟩
      · rw [h2, hw]
      · simp [h.locked, hf] at h1
      · exact h3
    · rw [ht.holdsLock_of_ne hq]
      exact h.exclusive hf
  · have hpf : s.frame = .addJobPush j q stage := by
      cases ht with
      | notifyFrame | exitNotify =>
        obtain he | ⟨-, hn⟩ := notifyAll_frame s
        · exact he.symm.trans hp
        · exact absurd (hn.symm.trans hp) (by simp)
      | _ => exact hp
    have hmem := h.pushed hpf hs
    by_cases hq : q = k
    · subst hq
      have hf : s.frame.holdsLock q = true := by
        rcases hs with rfl | rfl <;> simp [hpf, FramePc.holdsLock]
      rw [ht.queue_of_locked (by simp [h.locked, hf]) (h.exclusive hf)]
      exact hmem
    · rw [ht.queues_of_ne hq]
      exact hmem

/-- Steps outside the `Push` of `AddJob`, which leave the queues alone. -/
theorem of_outside (h : Mutex s) (hq : t.queues = s.queues)
    (hw : ∀ k, (t.worker k).holdsLock = (s.worker k).holdsLock)
    (hs : ∀ q, s.frame.holdsLock q = false) (ht : ∀ q, t.frame.holdsLock q = false) :
    Mutex t := by
  refine ⟨fun q => ?_, fun hf => ?_, fun {j q stage} hp hs => ?_⟩
  · rw [hq, hw, ht, h.locked, hs]
  · simp [ht] at hf
  · have hf := ht q
    rcases hs with rfl | rfl <;> simp [hp, FramePc.holdsLock] at hf

/-- The stages of a `Push` between its lock and its unlock: the frame thread keeps the lock. -/
theorem of_inside {stage stage' : PushStage} (h : Mutex s) (hp : s.frame = .addJobPush j q stage)
    (hp' : t.frame = .addJobPush j q stage') (hs : stage ≠ .lock) (hs' : stage' ≠ .lock)
    (hl : ∀ q, (t.queues q).locked = (s.queues q).locked)
    (hw : ∀ k, (t.worker k).holdsLock = (s.worker k).holdsLock)
    (hj : j ∈ (t.queues q).deque) : Mutex t := by
  have hf (q') : t.frame.holdsLock q' = s.frame.holdsLock q' := by
    simp [hp, hp', FramePc.holdsLock, hs, hs']
  refine ⟨fun q' => ?_, fun {q'} hf' => ?_, fun {i q' stage''} he _ => ?_⟩
  · rw [hl, hf, hw, h.locked]
  · rw [hw]
    exact h.exclusive (hf q' ▸ hf')
  · obtain ⟨rfl, rfl, -⟩ : j = i ∧ q = q' ∧ stage' = stage'' := by simpa [hp'] using he
    exact hj

theorem of_frameLock (h : Mutex s) (hp : s.frame = .addJobPush j q .lock)
    (hl : (s.queues q).locked = false) :
    Mutex ((s.setQueue q { s.queues q with locked := true }).gotoFrame
      (.addJobPush j q .pushBack)) := by
  have hw : (s.worker q).holdsLock = false := by
    by_contra hc
    have := h.locked q
    simp [hl, hc] at this
  refine ⟨fun q' => ?_, fun {q'} hf => ?_, fun {i q' stage} he hs => ?_⟩
  · by_cases hq : q' = q
    · subst hq; simp [FramePc.holdsLock]
    · have := h.locked q'
      simp only [hp, FramePc.holdsLock, ne_eq, not_true_eq_false, and_false, decide_false,
        Bool.false_or] at this
      simp [FramePc.holdsLock, hq, Ne.symm hq, this]
  · obtain rfl : q = q' := by simpa [FramePc.holdsLock] using hf
    exact hw
  · obtain ⟨-, -, rfl⟩ : j = i ∧ q = q' ∧ PushStage.pushBack = stage := by simpa using he
    simp at hs

theorem of_frameUnlock (h : Mutex s) (hp : s.frame = .addJobPush j q .unlock) :
    Mutex ((s.setQueue q { s.queues q with locked := false }).gotoFrame .addJobIndex) := by
  have hw : (s.worker q).holdsLock = false := h.exclusive (by simp [hp, FramePc.holdsLock])
  refine ⟨fun q' => ?_, fun hf => by simp [FramePc.holdsLock] at hf, by simp⟩
  by_cases hq : q' = q
  · subst hq; simp [FramePc.holdsLock, hw]
  · have := h.locked q'
    simp only [hp, FramePc.holdsLock, Ne.symm hq, ne_eq, false_and, decide_false,
      Bool.false_or] at this
    simp [FramePc.holdsLock, hq, this]

theorem frameStep (h : Mutex s) (ht : FrameStep s t) : Mutex t := by
  have hnotify (q k : Fin n) : ((s.notifyOne q).worker k).holdsLock = (s.worker k).holdsLock :=
    notifyOne_congr (·.holdsLock) rfl s q k
  cases ht with
  | @control p p' hp hc =>
    refine h.of_outside rfl (fun _ => rfl) (fun q => ?_) fun q => ?_
    · rw [hp]; cases hc <;> rfl
    · change p'.holdsLock q = false
      cases hc <;> rfl
  | write hp =>
    exact h.of_outside rfl (fun _ => rfl) (by simp [hp, FramePc.holdsLock])
      (by simp [FramePc.holdsLock])
  | index hp | stop hp | joined _ hp =>
    exact h.of_outside rfl (fun _ => rfl) (by simp [hp, FramePc.holdsLock])
      (by simp [FramePc.holdsLock])
  | wakeOne _ hp =>
    exact h.of_outside rfl (hnotify _) (by simp [hp, FramePc.holdsLock])
      (by simp [FramePc.holdsLock])
  | pushLock hp hl => exact h.of_frameLock hp hl
  | @pushBack j q hp =>
    refine h.of_inside hp rfl (by simp) (by simp) (fun q' => ?_) (fun _ => rfl) ?_
    · by_cases hq : q' = q
      · subst hq; simp [JobQueue.push]
      · simp [hq]
    · simp [JobQueue.push]
  | pushNotify hp =>
    exact h.of_inside hp rfl (by simp) (by simp) (fun _ => rfl) (hnotify _)
      (h.pushed hp (.inl rfl))
  | pushUnlock hp => exact h.of_frameUnlock hp

theorem callStep (h : Mutex s) (hi : s.frame = .idle) (c : Call) : Mutex (callStep s c) := by
  have hout (q) : (JobSystem.callStep s c).frame.holdsLock q = false := by
    obtain he | he | ⟨j, -, he⟩ | ⟨-, he⟩ | ⟨-, he⟩ := callStep_frame hi c <;> rw [he] <;> rfl
  have hin (q) : s.frame.holdsLock q = false := by rw [hi]; rfl
  cases c with
  | addDependency d x =>
    have hrest := addDependency_onlyJobs s d x
    exact h.of_outside hrest.queues (fun k => by rw [hrest.worker]) hin hout
  | _ => exact h.of_outside rfl (fun _ => rfl) hin hout

theorem step (h : Mutex s) (ht : StepCase m s a t) : Mutex t := by
  cases ht with
  | worker ht => exact h.worker ht
  | frame ht => exact h.frameStep ht
  | createJob f hi => exact h.callStep hi (.createJob f)
  | addDependency hi => exact h.callStep hi _
  | addJob hi => exact h.callStep hi _
  | waitForAllJobs hi => exact h.callStep hi .waitForAllJobs
  | joinJobs hi => exact h.callStep hi .joinJobs
  | exit hi =>
    exact h.of_outside rfl (fun _ => rfl) (by simp [hi, FramePc.holdsLock])
      (by simp [FramePc.holdsLock])
  | quit => exact ⟨h.locked, h.exclusive, h.pushed⟩
  | @wakeWorker k hb =>
    have hw (k') : ((s.goto k .notified).worker k').holdsLock = (s.worker k').holdsLock := by
      by_cases hk : k' = k
      · subst hk; simp [hb, WorkerPc.holdsLock]
      · simp [hk]
    refine ⟨fun q => ?_, fun hf => ?_, h.pushed⟩
    · rw [hw]; exact h.locked q
    · rw [hw]; exact h.exclusive hf
  | wakeFrame hb =>
    exact h.of_outside rfl (fun _ => rfl) (by simp [hb, FramePc.holdsLock])
      (by simp [FramePc.holdsLock])

end Mutex

theorem reachable_mutex [NeZero n] (h : (jobSystem n m).Reachable s) : Mutex s :=
  h.invariant (fun _ hs => hs ▸ .init) fun _ _ _ _ hi ht => hi.step (step_cases ht)

end JobSystem
