import JobSystem.Library.Fairness
import JobSystem.Quit

/-! Fair scheduling of `main_runner`, and that it does not ask for too much: with two workers or
more, whatever has happened before, the threads can go on fairly for as long as nobody quits. -/
namespace JobSystem
open TransitionSystem
variable {n : ℕ} {m : WaitMode} {F P : ℕ} {M N : Runner n} {k q : Fin n} {s t : State n}
  {a : Action n} {i j : ℕ} {a' : RunnerAction n}

/-- Whether a worker can take a step is not a matter of what the code does not decide. -/
theorem workerStep_isSome (c c' : Choice n) (k : Fin n) (s : State n) :
    (workerStep m c k s).isSome = (workerStep m c' k s).isSome := by
  unfold workerStep
  cases s.worker k with
  | canExecute a job => cases job <;> rfl
  | reread | readQueue | rereadQueue => simp only [Option.isSome_map]
  | _ => rfl

/-- The frame thread is about to notify worker `q`. -/
def FramePc.Notifies (p : FramePc n) (q : Fin n) : Prop :=
  (∃ x, p = .addJobPush x q .notify) ∨ p = .wakeAll q

theorem FramePc.Notifies.unique {p : FramePc n} (h : p.Notifies k) (h' : p.Notifies q) : k = q := by
  obtain ⟨x, rfl⟩ | rfl := h
  · obtain ⟨x', he⟩ | he := h'
    · exact (FramePc.addJobPush.inj he).2.1
    · cases he
  · obtain ⟨x', he⟩ | he := h'
    · cases he
    · exact Fin.ext (FramePc.wakeAll.inj he)

theorem FramePc.Notifies.exists_frameStep (h : s.frame.Notifies q) : ∃ t, frameStep s = some t := by
  obtain ⟨x, hp⟩ | hp := h
  · exact ⟨_, by simp only [frameStep, hp, State.pushStep, Option.map_some]; rfl⟩
  · exact ⟨_, by simp only [frameStep, hp, q.isLt, ↓reduceDIte]; rfl⟩

namespace Runner

/-- A step of the thread `main_runner`. -/
def IsMain : RunnerAction n → Prop
  | .inside a => a = .frame
  | .call | .loop => True

/-- A step of worker `k`. -/
def IsWorker (k : Fin n) (a : RunnerAction n) : Prop := ∃ c, a = .inside (.worker k c)

section
variable [NeZero n] {r : (mainRunner n m F P).Run fun _ => True}

/-- No worker is kept from its steps for ever, none that draws again and again draws its own index
only, `main_runner` gets the mutex of a queue at last that is free again and again, and no
notification comes too early. -/
structure Fair (r : (mainRunner n m F P).Run fun _ => True) : Prop where
  scheduled : ∀ k, r.Just (IsWorker k)
  draws : ∀ k, Often (fun i => r.Takes (IsWorker k) i ∧
      (r.state i).system.worker k = .stealIndex) →
    Often fun i => ∃ c, r.label i = some (.inside (.worker k c)) ∧
      (r.state i).system.worker k = .stealIndex ∧ c.rand % n ≠ k
  served : r.Compassionate IsMain
  inTime : ∀ i a, r.label i = some a → (r.state i).InTime a

theorem step_inside (ha : ∀ c, a ≠ .call c) (h : (jobSystem n m).step M.system a t) :
    (mainRunner n m F P).step M (.inside a) { M with system := t } := by
  have hnext : next m M.system a = some t := h.2
  show runnerNext m F P M (.inside a) = _
  cases a with
  | call c => exact absurd rfl (ha c)
  | worker | frame | quit | wakeWorker | wakeFrame => simp [runnerNext, hnext]

/-- What a scheduler may let a thread do: nothing but what is in time, and no worker draws its own
index. -/
structure Apt (M : Runner n) (a : RunnerAction n) : Prop where
  isThread : IsThread a
  inTime : M.InTime a
  draws : ∀ k c, a = .inside (.worker k c) → M.system.worker k = .stealIndex → c.rand % n ≠ k

/-- A worker that can go on may do so unless it would notify a frame thread that is about to
block. -/
theorem exists_apt_worker (hn : 2 ≤ n) (h : ∃ a N, IsWorker k a ∧ (mainRunner n m F P).step M a N)
    (hk : M.system.frame ≠ .waitBlock ∨ M.system.worker k = .waitBlock) :
    ∃ a N, IsWorker k a ∧ ((mainRunner n m F P).restrict Apt).step M a N := by
  obtain ⟨_, N, ⟨c, rfl⟩, ht⟩ := h
  obtain ⟨-, t, hnext, -⟩ := of_inside ht
  have hstep : workerStep m c k M.system = some t := hnext
  obtain ⟨x, hx⟩ := exists_foreign hn k
  have hsome : (workerStep m { rand := x } k M.system).isSome := by
    rw [workerStep_isSome _ c, hstep]
    rfl
  obtain ⟨u, hu⟩ := Option.isSome_iff_exists.mp hsome
  refine ⟨_, _, ⟨{ rand := x }, rfl⟩, ⟨trivial, ?_, ?_⟩, step_inside (by simp) ⟨trivial, hu⟩⟩
  · obtain hf | hk := hk
    · exact allInTime_worker hf
    · exact ⟨⟨id, fun hm => by simpa [hk] using hm.1⟩, id⟩
  · intro k' c' he _
    obtain ⟨rfl, rfl⟩ : k = k' ∧ { rand := x } = c' := by simpa using he
    exact hx

/-- And so may `main_runner`, unless it would notify a worker that is about to block. -/
theorem exists_apt_main (h : ∃ a N, IsMain a ∧ (mainRunner n m F P).step M a N)
    (hq : ∀ q, M.system.frame.Notifies q → M.system.worker q ≠ .waitBlock) :
    ∃ a N, IsMain a ∧ ((mainRunner n m F P).restrict Apt).step M a N := by
  obtain ⟨a, N, ha, ht⟩ := h
  refine ⟨a, N, ha, ⟨?_, ?_, ?_⟩, ht⟩
  · cases a with
    | inside b =>
      obtain rfl : b = .frame := ha
      trivial
    | call | loop => trivial
  · cases a with
    | inside b =>
      obtain rfl : b = .frame := ha
      exact allInTime_frame (fun x q hp => hq q (.inl ⟨x, hp⟩)) fun q hp => hq q (.inr hp)
    | call | loop => trivial
  · rintro k c rfl
    cases ha

theorem exists_main_of_frameStep (h : frameStep M.system = some t) :
    ∃ a N, IsMain a ∧ (mainRunner n m F P).step M a N :=
  ⟨.inside .frame, _, rfl, step_inside (by simp) ⟨trivial, h⟩⟩

/-- Nobody keeps a thread from its block. -/
theorem exists_main_of_waitBlock (hf : M.system.frame = .waitBlock) :
    ∃ a N, IsMain a ∧ (mainRunner n m F P).step M a N :=
  exists_main_of_frameStep (t := M.system.gotoFrame .blocked) (by simp [frameStep, hf])

theorem exists_worker_of_waitBlock (hk : M.system.worker k = .waitBlock) :
    ∃ a N, IsWorker k a ∧ (mainRunner n m F P).step M a N :=
  ⟨_, _, ⟨{}, rfl⟩, step_inside (t := M.system.goto k .blocked) (by simp)
    ⟨trivial, by simp [ofNext, next, workerStep, hk]⟩⟩

theorem frame_of_main (ha : IsMain a') (ht : (mainRunner n m F P).step M a' N)
    (hf : M.system.frame = .waitBlock) : N.system.frame = .blocked := by
  cases a' with
  | inside b =>
    obtain rfl : b = .frame := ha
    obtain ⟨-, t, hnext, rfl⟩ := of_inside ht
    have hstep : frameStep M.system = some t := hnext
    simp only [frameStep, hf, Option.some.injEq] at hstep
    rw [← hstep]
    rfl
  | call =>
    obtain ⟨c, l, -, hi, -⟩ := of_call ht
    simp [hf] at hi
  | loop =>
    obtain ⟨-, hi, -⟩ := of_loop ht
    simp [hf] at hi

/-- The workers move `main_runner` on from its block only. -/
theorem frame_eq_of_apt (ha : ¬ IsMain a') (ht : ((mainRunner n m F P).restrict Apt).step M a' N)
    (hb : M.system.frame ≠ .blocked) : N.system.frame = M.system.frame := by
  cases a' with
  | call | loop => exact absurd trivial ha
  | inside b =>
    cases b with
    | frame => exact absurd rfl ha
    | worker k c =>
      obtain ⟨hc, t, hnext, rfl⟩ := of_inside ht.2
      obtain he | ⟨hf, -⟩ | ⟨hf, -⟩ | ⟨c', hc', -⟩ :=
        (step_cases (Orderly.step_inside hc hnext)).frame_moves
      · exact he
      · exact absurd hf hb
      · cases hf
      · exact absurd hc' (hc c')
    | _ => exact ht.1.isThread.elim

section
variable {r : ((mainRunner n m F P).restrict Apt).Run fun _ => True}

/-- A worker that is held up by a frame thread about to block waits until that has blocked. -/
theorem just_of_apt (hn : 2 ≤ n) (hk : r.Compassionate (IsWorker k)) (hm : r.Compassionate IsMain) :
    Often fun i => r.Takes (IsWorker k) i ∨
      ¬ ∃ a N, IsWorker k a ∧ (mainRunner n m F P).step (r.state i) a N := by
  by_contra hnot
  obtain ⟨i, hi⟩ := Often.eventually_not hnot
  have hfew : ¬ Often (r.Takes (IsWorker k)) := fun hoften => by
    obtain ⟨j, hj, ht⟩ := hoften i
    exact hi j hj (.inl ht)
  obtain ⟨i₁, hi₁⟩ := Often.eventually_not (mt hk hfew)
  have hblock {j} (hj : max i i₁ ≤ j) : (r.state j).system.frame = .waitBlock := by
    by_contra hf
    have hen := not_not.mp (not_or.mp (hi j (le_of_max_le_left hj))).2
    exact hi₁ j (le_of_max_le_right hj) (exists_apt_worker hn hen (.inl hf))
  have hmain : Often (r.Takes IsMain) := hm fun i' => by
    have hf := hblock (le_max_left (max i i₁) i')
    refine ⟨max (max i i₁) i', le_max_right _ i',
      exists_apt_main (exists_main_of_waitBlock hf) fun q hq => ?_⟩
    rw [hf] at hq
    simp [FramePc.Notifies] at hq
  obtain ⟨j, hj, a, hl, ha⟩ := hmain (max i i₁)
  have hb := frame_of_main ha (r.step_of_label hl).2.2 (hblock hj)
  rw [hblock (Nat.le_succ_of_le hj)] at hb
  cases hb

/-- `main_runner`, when it is held up by a worker about to block, waits until that has blocked. -/
theorem compassionate_of_apt (hn : 2 ≤ n) (hk : ∀ k, r.Compassionate (IsWorker k))
    (hm : r.Compassionate IsMain)
    (hen : Often fun i => ∃ a N, IsMain a ∧ (mainRunner n m F P).step (r.state i) a N) :
    Often (r.Takes IsMain) := by
  by_contra hnot
  obtain ⟨i, hi⟩ := Often.eventually_not (mt hm hnot)
  obtain ⟨j, hj, hmain⟩ := hen i
  obtain ⟨q, hq, -⟩ : ∃ q, (r.state j).system.frame.Notifies q ∧
      (r.state j).system.worker q = .waitBlock := by
    by_contra hno
    push Not at hno
    exact hi j hj (exists_apt_main hmain hno)
  have hframe {j'} (hj' : j ≤ j') : (r.state j').system.frame = (r.state j).system.frame := by
    induction j', hj' using Nat.le_induction with
    | base => rfl
    | succ j' hj' ih =>
      obtain ⟨-, he⟩ | ⟨a, -, -, ht⟩ := r.step j'
      · rw [he, ih]
      · refine (frame_eq_of_apt (fun ha => hi j' (hj.trans hj') ⟨a, _, ha, ht⟩) ht ?_).trans ih
        intro hb
        rw [← ih, hb] at hq
        simp [FramePc.Notifies] at hq
  have hwait {j'} (hj' : j ≤ j') : (r.state j').system.worker q = .waitBlock := by
    by_contra hw
    have hqj : (r.state j').system.frame.Notifies q := hframe hj' ▸ hq
    obtain ⟨t, ht⟩ := hqj.exists_frameStep
    refine hi j' (hj.trans hj') (exists_apt_main (exists_main_of_frameStep ht) fun q' hq' => ?_)
    exact hqj.unique hq' ▸ hw
  obtain ⟨j', hj', a, hl, c, rfl⟩ : ∃ j' ≥ j, r.Takes (IsWorker q) j' := hk q (fun i' => by
    have hw := hwait (le_max_left j i')
    exact ⟨max j i', le_max_right j i',
      exists_apt_worker hn (exists_worker_of_waitBlock hw) (.inr hw)⟩) j
  obtain ⟨-, -, ht⟩ := r.step_of_label hl
  obtain ⟨-, t, hnext, hN⟩ := of_inside ht
  have hstep : workerStep m c q (r.state j').system = some t := hnext
  have hb := hwait (Nat.le_succ_of_le hj')
  simp only [workerStep, hwait hj', Option.some.injEq] at hstep
  rw [hN, ← hstep] at hb
  simp at hb

end

/-- `JoinJobs` is left to a `main_runner` that has seen the end. -/
theorem not_running_of_left (h : (mainRunner n m F P).Reachable M)
    (hl : M.left = true ∨ .joinJobs ∈ M.calls) (hP : P ≤ 12) : M.system.isRunning = false := by
  refine h.invariant (I := fun M => M.left = true ∨ .joinJobs ∈ M.calls →
    M.system.isRunning = false) (fun M hi => ?_) (fun M a N hr hM hN hl => ?_) hl
  · obtain rfl : M = _ := hi
    simp
  have hrun hs := isRunning_of_step hP hr hs hN
  cases a with
  | inside b =>
    obtain ⟨-, t, -, rfl⟩ := of_inside hN
    exact hrun (hM hl)
  | call =>
    obtain ⟨c, l, hc, -, -, rfl⟩ := of_call hN
    exact hrun (hM (hl.imp_right fun hj => hc ▸ List.mem_cons_of_mem c hj))
  | loop =>
    obtain ⟨-, -, hleft, ⟨-, rfl⟩ | ⟨hstop, rfl⟩⟩ := of_loop hN
    · obtain hl | hj := hl
      · simp [hleft] at hl
      · obtain hj | hj := List.mem_append.mp hj
        · exact (setsUp_of_mem_frames F P _ _ hj).elim
        · simp at hj
    · exact hstop

/-- The threads do not quit by themselves. -/
theorem isRunning_of_thread (hP : P ≤ 12) (h : (mainRunner n m F P).Reachable M)
    (hrun : M.system.isRunning = true) (ha : IsThread a') (ht : (mainRunner n m F P).step M a' N) :
    N.system.isRunning = true := by
  cases a' with
  | inside b =>
    obtain ⟨hc, t, hnext, rfl⟩ := of_inside ht
    have hs := step_cases (Orderly.step_inside hc hnext)
    exact (hs.isRunning_eq (by rintro rfl; exact ha) (hc _)).trans hrun
  | call =>
    obtain ⟨c, l, hc, hi, hj, rfl⟩ := of_call ht
    have hs := step_cases ((reachable_orderly hP h).step_next_call hc hi hj)
    refine (hs.isRunning_eq (by simp) ?_).trans hrun
    rintro he
    obtain rfl := Action.call.inj he
    have hstop := not_running_of_left h (.inr (hc ▸ List.mem_cons_self)) hP
    simp [hrun] at hstop
  | loop =>
    obtain ⟨-, -, -, ⟨-, rfl⟩ | ⟨-, rfl⟩⟩ := of_loop ht <;> exact hrun

/-- Fairness can be had: from every state that `main_runner` comes to while nobody has quit, some
run goes on for ever in which the threads are scheduled fairly and nobody quits. -/
theorem exists_fair_run (hn : 2 ≤ n) (hP : P ≤ 12) (h : (mainRunner n m F P).Reachable M)
    (hrun : M.system.isRunning = true) : ∃ r : (mainRunner n m F P).Run fun _ => True,
      r.state 0 = M ∧ Fair r ∧ ∀ i, (r.state i).system.isRunning = true := by
  obtain ⟨r, rfl, hcomp⟩ := System.Run.exists_compassionate (T := (mainRunner n m F P).restrict Apt)
    (A := fun _ => True) (fun q : Option (Fin n) => q.elim IsMain IsWorker)
    (fun _ _ _ => trivial) M
  have hmain : r.Compassionate IsMain := hcomp none
  have hworker (k) : r.Compassionate (IsWorker k) := hcomp (some k)
  have hinv (i) : (mainRunner n m F P).Reachable (r.state i) ∧
      (r.state i).system.isRunning = true :=
    r.invariant (I := fun M => (mainRunner n m F P).Reachable M ∧ M.system.isRunning = true)
      (fun _ _ _ hM _ ht => ⟨hM.1.step ht.2, isRunning_of_thread hP hM.1 hM.2 ht.1.isThread ht.2⟩)
      ⟨h, hrun⟩ (Nat.zero_le i)
  refine ⟨r.mono fun _ _ _ ht => ht.2, rfl, ⟨fun k => ?_, fun k hd => ?_, ?_, fun i a hl => ?_⟩,
    fun i => (hinv i).2⟩
  · exact just_of_apt hn (hworker k) hmain
  · refine hd.mono fun i ⟨⟨a, hl, c, hc⟩, hp⟩ => ⟨c, hc ▸ hl, hp, ?_⟩
    exact (r.step_of_label hl).2.1.draws k c hc hp
  · exact compassionate_of_apt hn hworker hmain
  · exact (r.step_of_label hl).2.1.inTime

end

end Runner

end JobSystem
