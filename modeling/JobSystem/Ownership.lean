import JobSystem.Moves

/-! Every submitted job is in exactly one place: the hands of the frame thread, one position
of one queue, the hands of one worker, or deleted. -/
namespace JobSystem
open TransitionSystem
variable {n : ℕ} {m : WaitMode} {k k' : Fin n} {j : JobId} {s t u : State n}

structure Ownership (s : State n) : Prop where
  nodup : ∀ k, (s.holdings k).Nodup
  exclusive : ∀ {k k' j}, j ∈ s.holdings k → j ∈ s.holdings k' → k = k'
  frame : ∀ {j}, s.frame.hand = some j → s.lifecycle j = .submitted ∧ ∀ k, j ∉ s.holdings k
  held : ∀ {k j}, j ∈ s.holdings k → s.lifecycle j = .submitted ∨ s.lifecycle j = .running
  started : ∀ {j}, s.lifecycle j = .running ↔ ∃ k, (s.worker k).startedJob = some j
  located : ∀ {j}, s.lifecycle j = .submitted ∨ s.lifecycle j = .running →
    s.frame.hand = some j ∨ ∃ k, j ∈ s.holdings k
  queue : ∀ {k j}, j ∈ s.holdings k → (s.jobs j).queue = some k
  pushed : ∀ {j q stage}, s.frame = .addJobPush j q stage → s.frame.hand = some j →
    (s.jobs j).queue = some q
  unallocated : ∀ {j}, s.lifecycle j = .unallocated ↔ s.nextJob ≤ j
  countingDown : ∀ {k j}, (s.worker k).countingDown = some j → s.lifecycle j = .finished
  countingDown_unique : ∀ {k k' j}, (s.worker k).countingDown = some j →
    (s.worker k').countingDown = some j → k = k'

theorem hand_of_startedJob {p : WorkerPc n} (h : p.startedJob = some j) : p.hand = some j := by
  cases p <;> simp_all [WorkerPc.startedJob, WorkerPc.hand]

theorem startedJob_of_returnedJob {p : WorkerPc n} (h : p.returnedJob = some j) :
    p.startedJob = some j := by
  cases p <;> simp_all [WorkerPc.returnedJob, WorkerPc.startedJob]

theorem hand_of_returnedJob {p : WorkerPc n} (h : p.returnedJob = some j) : p.hand = some j :=
  hand_of_startedJob (startedJob_of_returnedJob h)

theorem mem_holdings : j ∈ s.holdings k ↔
    j ∈ (s.queues k).deque ∨ (s.worker k).hand = some j := by
  simp [State.holdings]

theorem mem_holdings_of_hand (h : (s.worker k).hand = some j) : j ∈ s.holdings k :=
  mem_holdings.mpr (.inr h)

theorem mem_holdings_of_queue (h : j ∈ (s.queues k).deque) : j ∈ s.holdings k :=
  mem_holdings.mpr (.inl h)

/-- What `Pop` returns and what it leaves are what the queue held. -/
theorem pop_append (q : JobQueue) : q.pop.2.deque ++ q.pop.1.toList = q.deque := by
  unfold JobQueue.pop
  rcases List.eq_nil_or_concat q.deque with h | ⟨l, j, h⟩ <;> simp [h]

theorem steal_append (q : JobQueue) : q.steal.1.toList ++ q.steal.2.deque = q.deque := by
  unfold JobQueue.steal
  cases q.deque <;> rfl

/-- Locking or unlocking a queue keeps all deques. -/
theorem setLocked_deque (s : State n) (q : Fin n) (b : Bool) (k : Fin n) :
    ((s.setQueue q { s.queues q with locked := b }).queues k).deque = (s.queues k).deque := by
  by_cases hk : k = q
  · subst hk; simp
  · simp [hk]

theorem setLocked_holdings (s : State n) (q : Fin n) (b : Bool) (k : Fin n) :
    (s.setQueue q { s.queues q with locked := b }).holdings k = s.holdings k :=
  congrArg (· ++ _) (setLocked_deque s q b k)

namespace Ownership

theorem init [NeZero n] : Ownership (init : State n) := by
  constructor <;>
    simp [JobSystem.init, State.holdings, WorkerPc.hand, WorkerPc.startedJob, FramePc.hand,
      WorkerPc.countingDown]

theorem not_mem_queue_of_hand (h : Ownership s) (hh : (s.worker k).hand = some j) :
    j ∉ (s.queues k').deque := by
  intro hm
  obtain rfl := h.exclusive (mem_holdings_of_hand hh) (mem_holdings_of_queue hm)
  have hn := h.nodup k
  simp [State.holdings, hh, List.nodup_append] at hn
  exact hn.2 _ hm rfl

theorem hand_unique (h : Ownership s) (hk : (s.worker k).hand = some j)
    (hk' : (s.worker k').hand = some j) : k = k' :=
  h.exclusive (mem_holdings_of_hand hk) (mem_holdings_of_hand hk')

/-- A job in a queue has not been started. -/
theorem queued (h : Ownership s) (hm : j ∈ (s.queues k).deque) : s.lifecycle j = .submitted := by
  rcases h.held (mem_holdings_of_queue hm) with hl | hl
  · exact hl
  · obtain ⟨k', hk'⟩ := h.started.mp hl
    exact absurd hm (h.not_mem_queue_of_hand (hand_of_startedJob hk'))

theorem running_of_startedJob (h : Ownership s) (hs : (s.worker k).startedJob = some j) :
    s.lifecycle j = .running := h.started.mpr ⟨k, hs⟩

theorem submitted_of_hand (h : Ownership s) (hh : (s.worker k).hand = some j)
    (hs : (s.worker k).startedJob = none) : s.lifecycle j = .submitted := by
  rcases h.held (mem_holdings_of_hand hh) with hl | hl
  · exact hl
  · obtain ⟨k', hk'⟩ := h.started.mp hl
    obtain rfl := h.hand_unique hh (hand_of_startedJob hk')
    simp [hs] at hk'

theorem not_finished_of_hand (h : Ownership s) (hh : (s.worker k).hand = some j) :
    s.lifecycle j ≠ .finished := by
  rcases h.held (mem_holdings_of_hand hh) with hl | hl <;> simp [hl]

/-- Steps that move a job between a queue and its worker, or do not touch jobs at all. -/
theorem of_perm (h : Ownership s) (hh : ∀ k, (t.holdings k).Perm (s.holdings k))
    (hs : ∀ k, (t.worker k).startedJob = (s.worker k).startedJob)
    (hc : ∀ k j, (t.worker k).countingDown = some j → (s.worker k).countingDown = some j)
    (hl : t.lifecycle = s.lifecycle) (hn : t.nextJob = s.nextJob)
    (hq : ∀ k j, j ∈ s.holdings k → (t.jobs j).queue = (s.jobs j).queue)
    (hf : t.frame.hand = s.frame.hand)
    (hp : ∀ j q stage, t.frame = .addJobPush j q stage → t.frame.hand = some j →
      (t.jobs j).queue = some q) : Ownership t where
  nodup k := (hh k).nodup_iff.mpr (h.nodup k)
  exclusive hk hk' := h.exclusive ((hh _).mem_iff.mp hk) ((hh _).mem_iff.mp hk')
  frame hj := by
    rw [hf] at hj
    obtain ⟨hs, hm⟩ := h.frame hj
    exact ⟨hl ▸ hs, fun k hk => hm k ((hh k).mem_iff.mp hk)⟩
  held hk := hl ▸ h.held ((hh _).mem_iff.mp hk)
  started := by simp only [hl, hs]; exact h.started
  located hj := by
    rw [hl] at hj
    rw [hf]
    exact (h.located hj).imp_right fun ⟨k, hk⟩ => ⟨k, (hh k).mem_iff.mpr hk⟩
  queue hk := (hq _ _ ((hh _).mem_iff.mp hk)).trans (h.queue ((hh _).mem_iff.mp hk))
  pushed he hj := hp _ _ _ he hj
  unallocated := by rw [hl, hn]; exact h.unallocated
  countingDown hk := hl ▸ h.countingDown (hc _ _ hk)
  countingDown_unique hk hk' := h.countingDown_unique (hc _ _ hk) (hc _ _ hk')

/-- Steps of worker `k` that only move jobs between its queue and its hands: `u` is the state
after the change of the memory, `p` the new position. -/
theorem of_goto {p : WorkerPc n} (h : Ownership s)
    (hu : ∀ k' ≠ k, (u.queues k').deque = (s.queues k').deque ∧
      (s.worker k').SameWork (u.worker k'))
    (hh : ((u.queues k).deque ++ p.hand.toList).Perm (s.holdings k))
    (hs : p.startedJob = (s.worker k).startedJob)
    (hc : ∀ j, p.countingDown = some j → (s.worker k).countingDown = some j)
    (hl : u.lifecycle = s.lifecycle) (hn : u.nextJob = s.nextJob)
    (hq : ∀ j, (u.jobs j).queue = (s.jobs j).queue) (hf : u.frame.hand = s.frame.hand)
    (hp : ∀ j q stage, u.frame = .addJobPush j q stage → s.frame = .addJobPush j q stage) :
    Ownership (u.goto k p) := by
  refine h.of_perm (fun k' => ?_) (fun k' => ?_) (fun k' j => ?_) hl hn (fun _ j _ => hq j) hf ?_
  · by_cases hk : k' = k
    · subst hk; simpa [State.holdings] using hh
    · obtain ⟨hq', hw⟩ := hu k' hk
      simp [State.holdings, hk, hq', hw.hand]
  · by_cases hk : k' = k
    · subst hk; simpa using hs
    · simpa [hk] using (hu k' hk).2.startedJob
  · by_cases hk : k' = k
    · subst hk; simpa using hc j
    · simp [hk, (hu k' hk).2.countingDown]
  · intro j q stage he hj
    exact (hq j).trans (h.pushed (hp j q stage he) (hf.symm.trans hj))

/-- Steps of worker `k` that leave all queues and the work of all workers as they are. -/
theorem of_sameWork {p : WorkerPc n} (h : Ownership s)
    (hd : ∀ k', (u.queues k').deque = (s.queues k').deque)
    (hu : ∀ k', (s.worker k').SameWork (u.worker k')) (hw : (s.worker k).SameWork p)
    (hl : u.lifecycle = s.lifecycle) (hn : u.nextJob = s.nextJob)
    (hq : ∀ j, (u.jobs j).queue = (s.jobs j).queue) (hf : u.frame.hand = s.frame.hand)
    (hp : ∀ j q stage, u.frame = .addJobPush j q stage → s.frame = .addJobPush j q stage) :
    Ownership (u.goto k p) :=
  h.of_goto (fun k' _ => ⟨hd k', hu k'⟩) (by simp [State.holdings, hd, hw.hand]) hw.startedJob
    (fun _ hj => hw.countingDown ▸ hj) hl hn hq hf hp

/-- Steps of worker `k` that change its position only. -/
theorem of_position {p : WorkerPc n} (h : Ownership s) (hw : (s.worker k).SameWork p) :
    Ownership (s.goto k p) :=
  h.of_sameWork (fun _ => rfl) (fun _ => .rfl) hw rfl rfl (fun _ => rfl) rfl (fun _ _ _ he => he)

theorem of_start (h : Ownership s) (hp : s.worker k = .execute j) :
    Ownership (((s.setLifecycle j .running).log (.start k j)).goto k (.running j)) := by
  have hj : s.lifecycle j = .submitted := h.submitted_of_hand (k := k) (by simp [hp, WorkerPc.hand])
    (by simp [hp, WorkerPc.startedJob])
  have hh (k') : (((s.setLifecycle j .running).log (.start k j)).goto k (.running j)).holdings k' =
      s.holdings k' := by
    by_cases hk : k' = k
    · subst hk; simp [State.holdings, hp, WorkerPc.hand]
    · simp [State.holdings, hk]
  have hl (i) : Function.update s.lifecycle j .running i = .submitted ∨
      Function.update s.lifecycle j .running i = .running ↔
      s.lifecycle i = .submitted ∨ s.lifecycle i = .running := by
    by_cases hi : i = j
    · subst hi; simp [hj]
    · simp [hi]
  refine ⟨fun k' => (hh k').symm ▸ h.nodup k', ?_, ?_, ?_, ?_, ?_, ?_, ?_, ?_, ?_, ?_⟩
  · intro k₁ k₂ i h1 h2
    exact h.exclusive (hh k₁ ▸ h1) (hh k₂ ▸ h2)
  · intro i hi
    obtain ⟨hs, hm⟩ := h.frame hi
    have hne : i ≠ j := fun he => hm k (mem_holdings_of_hand (by simp [hp, WorkerPc.hand, he]))
    exact ⟨by simpa [hne] using hs, fun k' => hh k' ▸ hm k'⟩
  · intro k' i hi
    exact (hl i).mpr (h.held (hh k' ▸ hi))
  · intro i
    by_cases hi : i = j
    · subst hi
      simp only [State.goto_lifecycle, State.log_lifecycle, State.setLifecycle_lifecycle,
        Function.update_self, true_iff]
      exact ⟨k, by simp [WorkerPc.startedJob]⟩
    · simp only [State.goto_lifecycle, State.log_lifecycle, State.setLifecycle_lifecycle, ne_eq, hi,
        not_false_eq_true, Function.update_of_ne, h.started]
      exact (State.exists_worker_goto (A := (·.startedJob = some i))
        (s := (s.setLifecycle j .running).log (.start k j))
        (by simp [hp, WorkerPc.startedJob, Ne.symm hi])).symm
  · intro i hi
    obtain hf | ⟨k', hk'⟩ := h.located ((hl i).mp hi)
    · exact .inl hf
    · exact .inr ⟨k', (hh k').symm ▸ hk'⟩
  · intro k' i hi
    exact h.queue (hh k' ▸ hi)
  · exact fun he hi => h.pushed he hi
  · intro i
    by_cases hi : i = j
    · subst hi
      have := h.unallocated (j := i)
      simp only [hj, reduceCtorEq, false_iff] at this
      simpa using this
    · simpa [hi] using h.unallocated
  · intro k' i hi
    have hk : k' ≠ k := by rintro rfl; simp [WorkerPc.countingDown] at hi
    have hf := h.countingDown (k := k') (j := i) (by simpa [hk] using hi)
    have hne : i ≠ j := by rintro rfl; simp [hj] at hf
    simpa [hne] using hf
  · intro k₁ k₂ i h1 h2
    have hk₁ : k₁ ≠ k := by rintro rfl; simp [WorkerPc.countingDown] at h1
    have hk₂ : k₂ ≠ k := by rintro rfl; simp [WorkerPc.countingDown] at h2
    exact h.countingDown_unique (by simpa [hk₁] using h1) (by simpa [hk₂] using h2)

theorem of_delete {i : ℕ} (h : Ownership s) (hp : s.worker k = .destroy j i) :
    Ownership (((s.setLifecycle j .finished).log (.delete j)).goto k (.countDown j)) := by
  have hand : (s.worker k).hand = some j := by simp [hp, WorkerPc.hand]
  have hj : s.lifecycle j = .running := h.running_of_startedJob (k := k)
    (by simp [hp, WorkerPc.startedJob])
  have hh (k' i') : i' ∈ (((s.setLifecycle j .finished).log (.delete j)).goto k
      (.countDown j)).holdings k' ↔ i' ∈ s.holdings k' ∧ i' ≠ j := by
    by_cases hk : k' = k
    · subst hk
      simp only [mem_holdings, State.goto_queues, State.log_queues, State.setLifecycle_queues,
        State.goto_self, hp, WorkerPc.hand, Option.some.injEq, reduceCtorEq,
        or_false]
      constructor
      · exact fun hi => ⟨.inl hi, fun he => h.not_mem_queue_of_hand hand (he ▸ hi)⟩
      · rintro ⟨hi | hi, hne⟩
        · exact hi
        · exact absurd hi.symm hne
    · have hne : i' ∈ s.holdings k' → i' ≠ j := fun hi he =>
        hk (h.exclusive (he ▸ hi) (mem_holdings_of_hand hand))
      simp only [mem_holdings] at hne
      simpa [mem_holdings, hk] using hne
  refine ⟨?_, ?_, ?_, ?_, ?_, ?_, ?_, ?_, ?_, ?_, ?_⟩
  · intro k'
    by_cases hk : k' = k
    · subst hk
      simpa [State.holdings, WorkerPc.hand] using (List.nodup_append.mp (h.nodup k')).1
    · simpa [State.holdings, hk] using h.nodup k'
  · intro k₁ k₂ i' h1 h2
    exact h.exclusive ((hh _ _).mp h1).1 ((hh _ _).mp h2).1
  · intro i' hi
    obtain ⟨hs, hm⟩ := h.frame hi
    have hne : i' ≠ j := by rintro rfl; simp [hj] at hs
    exact ⟨by simpa [hne] using hs, fun k' hk => hm k' ((hh _ _).mp hk).1⟩
  · intro k' i' hi
    obtain ⟨hi, hne⟩ := (hh _ _).mp hi
    simpa [hne] using h.held hi
  · intro i'
    by_cases hi : i' = j
    · subst hi
      simp only [State.goto_lifecycle, State.log_lifecycle, State.setLifecycle_lifecycle,
        Function.update_self, reduceCtorEq, State.goto_worker, false_iff, not_exists]
      intro k'
      by_cases hk : k' = k
      · subst hk; simp [WorkerPc.startedJob]
      · simp only [ne_eq, hk, not_false_eq_true, Function.update_of_ne]
        exact fun hs => hk (h.hand_unique (hand_of_startedJob hs) hand)
    · simp only [State.goto_lifecycle, State.log_lifecycle, State.setLifecycle_lifecycle, ne_eq, hi,
        not_false_eq_true, Function.update_of_ne, h.started]
      exact (State.exists_worker_goto (A := (·.startedJob = some i'))
        (s := (s.setLifecycle j .finished).log (.delete j))
        (by simp [hp, WorkerPc.startedJob, Ne.symm hi])).symm
  · intro i' hi
    have hne : i' ≠ j := by rintro rfl; simp at hi
    obtain hf | ⟨k', hk'⟩ := h.located (j := i') (by simpa [hne] using hi)
    · exact .inl hf
    · exact .inr ⟨k', (hh _ _).mpr ⟨hk', hne⟩⟩
  · intro k' i' hi
    exact h.queue ((hh _ _).mp hi).1
  · exact fun he hi => h.pushed he hi
  · intro i'
    by_cases hi : i' = j
    · subst hi
      have := h.unallocated (j := i')
      simp only [hj, reduceCtorEq, false_iff] at this
      simpa using this
    · simpa [hi] using h.unallocated
  · intro k' i' hi
    by_cases hne : i' = j
    · simp [hne]
    · have hk : k' ≠ k := by rintro rfl; simp [WorkerPc.countingDown, Ne.symm hne] at hi
      simpa [hne] using h.countingDown (k := k') (j := i') (by simpa [hk] using hi)
  · intro k₁ k₂ i' h1 h2
    have hother {k'} (hk : k' ≠ k) (hc : (s.worker k').countingDown = some j) : False := by
      have := h.countingDown hc
      simp [hj] at this
    by_cases hk₁ : k₁ = k <;> by_cases hk₂ : k₂ = k
    · exact hk₁.trans hk₂.symm
    · subst hk₁
      have he : j = i' := by simpa [WorkerPc.countingDown] using h1
      exact absurd (by simpa [hk₂, he] using h2) (hother hk₂)
    · subst hk₂
      have he : j = i' := by simpa [WorkerPc.countingDown] using h2
      exact absurd (by simpa [hk₁, he] using h1) (hother hk₁)
    · exact h.countingDown_unique (by simpa [hk₁] using h1) (by simpa [hk₂] using h2)

theorem notifyAll_hand (s : State n) : s.notifyAll.frame.hand = s.frame.hand :=
  notifyAll_congr FramePc.hand rfl s

theorem notifyAll_push {j : JobId} {q : Fin n} {stage : PushStage}
    (h : s.notifyAll.frame = .addJobPush j q stage) : s.frame = .addJobPush j q stage := by
  unfold State.notifyAll at h
  by_cases hb : s.frame = .blocked <;> simp [hb] at h
  exact h

/-- A step of a worker keeps every job in exactly one place. -/
theorem worker (h : Ownership s) (ht : WorkerStep m k s t) : Ownership t := by
  cases ht with
  | control hp hc => exact h.of_position (hp ▸ hc.sameWork)
  | leave hp | sleep hp | block hp | ready hp =>
    exact h.of_position (by rw [hp]; constructor <;> rfl)
  | getJob hp =>
    refine h.of_goto (fun k' hk => ⟨by simp [hk], .rfl⟩) ?_ (by simp [hp, WorkerPc.startedJob])
      (by simp [WorkerPc.countingDown]) rfl rfl (fun _ => rfl) rfl (fun _ _ _ he => he)
    simp [State.holdings, hp, WorkerPc.hand, pop_append]
  | pushLock hp =>
    exact h.of_sameWork (setLocked_deque s k true)
      (fun _ => .rfl) (by rw [hp]; constructor <;> rfl) rfl rfl (fun _ => rfl) rfl
      (fun _ _ _ he => he)
  | @pushUnlock site j hp =>
    have hw : (s.worker k).SameWork site.done := by
      rw [hp]
      exact WorkerPc.Idle.sameWork (by constructor <;> rfl) (idle_done site)
    exact h.of_sameWork (setLocked_deque s k false)
      (fun _ => .rfl) hw rfl rfl (fun _ => rfl) rfl (fun _ _ _ he => he)
  | pushBack hp =>
    refine h.of_goto (fun k' hk => ⟨by simp [hk], .rfl⟩) ?_ (by simp [hp, WorkerPc.startedJob])
      (by simp [WorkerPc.countingDown]) rfl rfl (fun _ => rfl) rfl (fun _ _ _ he => he)
    simp [State.holdings, hp, WorkerPc.hand, JobQueue.push]
  | pushNotify hp | notifyQueue hp =>
    exact h.of_sameWork (fun _ => rfl) (notifyOne_sameWork s _) (by rw [hp]; constructor <;> rfl)
      rfl rfl (fun _ => rfl) rfl (fun _ _ _ he => he)
  | start hp => exact h.of_start hp
  | ret hp =>
    exact h.of_goto (fun k' hk => ⟨rfl, .rfl⟩) (by simp [State.holdings, hp, WorkerPc.hand])
      (by simp [hp, WorkerPc.startedJob]) (by simp [WorkerPc.countingDown]) rfl rfl (fun _ => rfl)
      rfl (fun _ _ _ he => he)
  | @decrement j i d hp =>
    refine h.of_goto (fun k' hk => ⟨rfl, .rfl⟩) (by simp [State.holdings, hp, WorkerPc.hand])
      (by simp [hp, WorkerPc.startedJob]) (by simp [WorkerPc.countingDown]) rfl rfl (fun j' => ?_)
      rfl (fun _ _ _ he => he)
    by_cases hj : j' = d <;> simp [hj]
  | delete hp => exact h.of_delete hp
  | countDown hp =>
    exact h.of_goto (fun k' hk => ⟨rfl, .rfl⟩) (by simp [State.holdings, hp, WorkerPc.hand])
      (by simp [hp, WorkerPc.startedJob]) (by simp [WorkerPc.countingDown]) rfl rfl (fun _ => rfl)
      rfl (fun _ _ _ he => he)
  | notifyFrame hp | exitNotify hp =>
    exact h.of_sameWork (fun _ => rfl) (fun _ => .rfl) (by rw [hp]; constructor <;> rfl) rfl rfl
      (fun _ => rfl) (notifyAll_hand s) (fun _ _ _ he => notifyAll_push he)
  | steal hp =>
    have hs := steal_append (s.queues k)
    cases hj : (s.queues k).steal.1 with
    | none | some j =>
      rw [hj] at hs
      refine h.of_goto (fun k' hk => ⟨by simp [hk], .rfl⟩) ?_ (by simp [hp, WorkerPc.startedJob])
        (by simp [WorkerPc.countingDown]) rfl rfl (fun _ => rfl) rfl (fun _ _ _ he => he)
      simp [State.holdings, hp, WorkerPc.hand, ← hs]
  | @stealWrite j hp =>
    have hq := h.queue (mem_holdings_of_hand (k := k) (j := j) (by simp [hp, WorkerPc.hand]))
    refine h.of_goto (fun k' hk => ⟨rfl, .rfl⟩) (by simp [State.holdings, hp, WorkerPc.hand])
      (by simp [hp, WorkerPc.startedJob]) (by simp [WorkerPc.countingDown]) rfl rfl (fun j' => ?_)
      rfl (fun _ _ _ he => he)
    by_cases hj : j' = j
    · subst hj; simp [hq]
    · simp [hj]

/-- The `push_back` of `AddJob` puts the job into a queue. -/
theorem of_pushBack {q : Fin n} (h : Ownership s) (hp : s.frame = .addJobPush j q .pushBack) :
    Ownership ((s.setQueue q ((s.queues q).push j)).gotoFrame (.addJobPush j q .notify)) := by
  have hand : s.frame.hand = some j := by simp [hp, FramePc.hand]
  obtain ⟨hj, hm⟩ := h.frame hand
  have hh (k) : (((s.setQueue q ((s.queues q).push j)).gotoFrame
      (.addJobPush j q .notify)).holdings k).Perm
      (if k = q then j :: s.holdings k else s.holdings k) := by
    by_cases hk : k = q
    · subst hk
      simp only [State.holdings, State.gotoFrame_queues, State.setQueue_queues,
        Function.update_self, JobQueue.push, State.gotoFrame_worker, State.setQueue_worker,
        ↓reduceIte]
      exact (List.perm_append_comm.append_right _)
    · simp [State.holdings, hk]
  have hmem (k i) : i ∈ ((s.setQueue q ((s.queues q).push j)).gotoFrame
      (.addJobPush j q .notify)).holdings k ↔ i ∈ s.holdings k ∨ (k = q ∧ i = j) := by
    rw [(hh k).mem_iff]
    by_cases hk : k = q <;> simp [hk, or_comm]
  refine ⟨?_, ?_, ?_, ?_, h.started, ?_, ?_, ?_, h.unallocated, h.countingDown,
    h.countingDown_unique⟩
  · intro k
    rw [(hh k).nodup_iff]
    by_cases hk : k = q
    · simpa [hk] using ⟨hm q, h.nodup q⟩
    · simpa [hk] using h.nodup k
  · intro k₁ k₂ i h1 h2
    rcases (hmem _ _).mp h1 with hs1 | ⟨hq1, he1⟩ <;> rcases (hmem _ _).mp h2 with hs2 | ⟨hq2, he2⟩
    · exact h.exclusive hs1 hs2
    · exact absurd (he2 ▸ hs1) (hm k₁)
    · exact absurd (he1 ▸ hs2) (hm k₂)
    · exact hq1.trans hq2.symm
  · intro i hi; simp [FramePc.hand] at hi
  · intro k i hi
    rcases (hmem _ _).mp hi with hi | ⟨-, rfl⟩
    · exact h.held hi
    · exact .inl hj
  · intro i hi
    refine .inr ?_
    rcases h.located hi with hf | ⟨k, hk⟩
    · exact ⟨q, (hmem _ _).mpr (.inr ⟨rfl, Option.some.inj (hf.symm.trans hand)⟩)⟩
    · exact ⟨k, (hmem _ _).mpr (.inl hk)⟩
  · intro k i hi
    rcases (hmem _ _).mp hi with hi | ⟨rfl, rfl⟩
    · exact h.queue hi
    · exact h.pushed hp hand
  · intro i q' stage he hi
    simp only [State.gotoFrame_frame] at he
    cases he
    simp [FramePc.hand] at hi

theorem frameStep (h : Ownership s) (ht : FrameStep s t) : Ownership t := by
  cases ht with
  | @control p p' hp hc =>
    have hf : p'.hand = s.frame.hand := by rw [hp]; cases hc <;> rfl
    refine h.of_perm (fun _ => .refl _) (fun _ => rfl) (fun _ _ hc => hc) rfl rfl
      (fun _ _ _ => rfl) hf (fun j q stage he => ?_)
    cases hc <;> simp at he
  | @write j hp =>
    have hj := h.frame (j := j) (by simp [hp, FramePc.hand])
    refine h.of_perm (fun _ => .refl _) (fun _ => rfl) (fun _ _ hc => hc) rfl rfl ?_
      (by simp [hp, FramePc.hand]) ?_
    · intro k i hi
      have hne : i ≠ j := fun he => hj.2 k (he ▸ hi)
      simp [hne]
    · intro i q stage he _
      simp only [State.gotoFrame_frame] at he
      cases he
      simp
  | @pushLock j q hp =>
    refine h.of_perm (fun k => ?_) (fun _ => rfl) (fun _ _ hc => hc) rfl rfl (fun _ _ _ => rfl)
      (by simp [hp, FramePc.hand]) ?_
    · exact .of_eq (setLocked_holdings s q true k)
    · intro i q' stage he hi
      simp only [State.gotoFrame_frame] at he
      cases he
      exact h.pushed hp (by simp [hp, FramePc.hand])
  | pushBack hp => exact h.of_pushBack hp
  | pushNotify hp =>
    refine h.of_perm (fun k => ?_) (fun k => (notifyOne_sameWork s _ k).startedJob)
      (fun k j hc => ?_) rfl rfl (fun _ _ _ => rfl) (by simp [hp, FramePc.hand]) ?_
    · simp [State.holdings, (notifyOne_sameWork s _ k).hand]
    · exact (notifyOne_sameWork s _ k).countingDown ▸ hc
    · intro i q' stage he hi
      simp only [State.gotoFrame_frame] at he
      cases he
      simp [FramePc.hand] at hi
  | @pushUnlock j q hp =>
    exact h.of_perm (fun k => .of_eq (setLocked_holdings s q false k)) (fun _ => rfl)
      (fun _ _ hc => hc) rfl rfl (fun _ _ _ => rfl) (by simp [hp, FramePc.hand]) (by simp)
  | index hp | stop hp =>
    exact h.of_perm (fun _ => .refl _) (fun _ => rfl) (fun _ _ hc => hc) rfl rfl
      (fun _ _ _ => rfl) (by simp [hp, FramePc.hand]) (by simp)
  | joined _ hp =>
    exact h.of_perm (fun _ => .refl _) (fun _ => rfl) (fun _ _ hc => hc) rfl rfl
      (fun _ _ _ => rfl) (by simp [hp, FramePc.hand]) (by simp)
  | wakeOne _ hp =>
    refine h.of_perm (fun k => ?_) (fun k => (notifyOne_sameWork s _ k).startedJob)
      (fun k j hc => ?_) rfl rfl (fun _ _ _ => rfl) (by simp [hp, FramePc.hand]) (by simp)
    · simp [State.holdings, (notifyOne_sameWork s _ k).hand]
    · exact (notifyOne_sameWork s _ k).countingDown ▸ hc

theorem of_createJob (h : Ownership s) (f : JobFunction) :
    Ownership (callStep s (.createJob f)) := by
  have hfresh : s.lifecycle s.nextJob = .unallocated := h.unallocated.mpr le_rfl
  have hl (i) (hi : s.lifecycle i ≠ .unallocated) :
      Function.update s.lifecycle s.nextJob .created i = s.lifecycle i := by
    have hne : i ≠ s.nextJob := by rintro rfl; exact hi hfresh
    simp [hne]
  have hq (i) (hi : s.lifecycle i ≠ .unallocated) :
      (Function.update s.jobs s.nextJob { jobFunction := some f } i).queue = (s.jobs i).queue := by
    have hne : i ≠ s.nextJob := by rintro rfl; exact hi hfresh
    simp [hne]
  have hheld {k i} (hi : i ∈ s.holdings k) : s.lifecycle i ≠ .unallocated := by
    rcases h.held hi with hl | hl <;> simp [hl]
  refine ⟨h.nodup, h.exclusive, ?_, ?_, ?_, ?_, ?_, ?_, ?_, ?_, h.countingDown_unique⟩
  · intro i hi
    obtain ⟨hs, hm⟩ := h.frame hi
    exact ⟨(hl i (by simp [hs])).trans hs, hm⟩
  · intro k i hi
    rw [show (callStep s (.createJob f)).lifecycle i = s.lifecycle i from hl i (hheld hi)]
    exact h.held hi
  · intro i
    by_cases hi : i = s.nextJob
    · subst hi
      have hns := h.started (j := s.nextJob)
      simp only [hfresh, reduceCtorEq, false_iff] at hns
      simpa [callStep] using hns
    · simpa [callStep, hi] using h.started
  · intro i hi
    have hne : i ≠ s.nextJob := by rintro rfl; simp [callStep] at hi
    exact h.located (by simpa [callStep, hne] using hi)
  · intro k i hi
    exact (hq i (hheld hi)).trans (h.queue hi)
  · intro i q stage he hi
    exact (hq i (by simp [(h.frame hi).1])).trans (h.pushed he hi)
  · intro i
    by_cases hi : i = s.nextJob
    · subst hi; simp [callStep]
    · have hlt : s.nextJob ≤ i ↔ s.nextJob + 1 ≤ i := (Ne.symm hi).le_iff_lt
      simpa [callStep, hi, ← hlt] using h.unallocated
  · intro k i hi
    have hf := h.countingDown hi
    exact (hl i (by simp [hf])).trans hf

theorem of_addJob (h : Ownership s) (hi : s.frame = .idle) (hj : s.lifecycle j = .created) :
    Ownership (callStep s (.addJob j)) := by
  have hheld {k i} (hm : i ∈ s.holdings k) : i ≠ j := by
    rintro rfl
    rcases h.held hm with hl | hl <;> simp [hj] at hl
  refine ⟨h.nodup, h.exclusive, ?_, ?_, ?_, ?_, h.queue, ?_, ?_, ?_, h.countingDown_unique⟩
  · intro i hf
    obtain rfl : j = i := by simpa [callStep, FramePc.hand] using hf
    exact ⟨by simp [callStep], fun k hk => hheld hk rfl⟩
  · intro k i hk
    simpa [callStep, hheld hk] using h.held hk
  · intro i
    by_cases he : i = j
    · subst he
      have hns := h.started (j := i)
      simp only [hj, reduceCtorEq, false_iff] at hns
      simpa [callStep] using hns
    · simpa [callStep, he] using h.started
  · intro i hl
    by_cases he : i = j
    · exact .inl (by simp [callStep, FramePc.hand, he])
    · rcases h.located (j := i) (by simpa [callStep, he] using hl) with hf | hk
      · simp [hi, FramePc.hand] at hf
      · exact .inr hk
  · intro i q stage he
    simp [callStep] at he
  · intro i
    by_cases he : i = j
    · subst he
      have hu := h.unallocated (j := i)
      simp only [hj, reduceCtorEq, false_iff] at hu
      simpa [callStep] using hu
    · simpa [callStep, he] using h.unallocated
  · intro k i hk
    have hf := h.countingDown hk
    have hne : i ≠ j := by rintro rfl; simp [hj] at hf
    simpa [callStep, hne] using hf

theorem of_addDependency {d x : JobId} (h : Ownership s) (hi : s.frame = .idle)
    (hm : (s.jobs x).dependentCount < maxDependentCount) :
    Ownership (callStep s (.addDependency d x)) := by
  rw [callStep_addDependency hm]
  refine h.of_perm (fun _ => .refl _) (fun _ => rfl) (fun _ _ hc => hc) rfl rfl
    (fun _ i _ => ?_) rfl (by simp [hi])
  by_cases hd : i = d <;> by_cases hx : i = x <;> by_cases hdx : d = x <;>
    simp_all [Job.addDependent]

theorem step (h : Ownership s) {a : Action n} (ht : StepCase m s a t) : Ownership t := by
  cases ht with
  | worker ht => exact h.worker ht
  | frame ht => exact h.frameStep ht
  | createJob f => exact h.of_createJob f
  | addDependency hi _ _ hm => exact h.of_addDependency hi hm
  | addJob hi hj => exact h.of_addJob hi hj
  | exit hi | waitForAllJobs hi | joinJobs hi =>
    exact h.of_perm (fun _ => .refl _) (fun _ => rfl) (fun _ _ hc => hc) rfl rfl
      (fun _ _ _ => rfl) (by simp [hi, FramePc.hand]) (by simp)
  | quit =>
    exact h.of_perm (fun _ => .refl _) (fun _ => rfl) (fun _ _ hc => hc) rfl rfl
      (fun _ _ _ => rfl) rfl (fun _ _ _ he hj => h.pushed he hj)
  | wakeWorker hb => exact h.of_position (by rw [hb]; constructor <;> rfl)
  | wakeFrame hb =>
    exact h.of_perm (fun _ => .refl _) (fun _ => rfl) (fun _ _ hc => hc) rfl rfl
      (fun _ _ _ => rfl) (by simp [hb, FramePc.hand]) (by simp)

end Ownership

theorem reachable_ownership [NeZero n] (h : (jobSystem n m).Reachable s) : Ownership s :=
  h.invariant (fun _ hs => hs ▸ .init) fun _ _ _ _ ho ht => ho.step (step_cases ht)

end JobSystem
