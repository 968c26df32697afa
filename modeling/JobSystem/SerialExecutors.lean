import JobSystem.DependencyOrder
import JobSystem.RoundRobin
import JobSystem.Library.Executors

/-! The job system does what a group of serial executors is for, no more and no less: `AddJob` deals
the jobs out in turn, and nothing that is stolen or pushed back changes who runs what. -/
namespace JobSystem
open TransitionSystem
variable {n : ℕ} {m : WaitMode} {k k' : Fin n} {j x : JobId} {s t : State n} {a : Action n}

/-- The job whose function the worker is in. -/
def WorkerPc.runningJob : WorkerPc n → Option JobId
  | .running j => some j
  | _ => none

theorem runningJob_eq_some {p : WorkerPc n} : p.runningJob = some j ↔ p = .running j := by
  cases p <;> simp [WorkerPc.runningJob]

theorem WorkerPc.SameProgress.runningJob {p p' : WorkerPc n} (h : p.SameProgress p') :
    p'.runningJob = p.runningJob := by
  have split (p : WorkerPc n) :
      p.runningJob = if p.returnedJob.isSome then none else p.startedJob := by cases p <;> rfl
  rw [split, split p, h.returnedJob, h.startedJob]

/-- What the executors see of an event. -/
def Event.seen : Event n → Option (Executors.Event (Fin n) JobId)
  | .addDependency d x => some (.link d x)
  | .start k j => some (.start k j)
  | .ret k j => some (.ret k j)
  | _ => none

/-- The `Push` of `AddJob` has been done and `current_queue_index` not yet been moved on. -/
def FramePc.dealt : FramePc n → Bool
  | .addJobPush _ _ .notify | .addJobPush _ _ .unlock | .addJobIndex => true
  | _ => false

/-- `(current_queue_index + 1) % queues.size()` -/
def nextQueue (q : Fin n) : Fin n := ⟨(q + 1) % n, Nat.mod_lt _ q.pos⟩

namespace State

/-- The queue of the next `Push` of an `AddJob`. -/
def turn (s : State n) : Fin n :=
  if s.frame.dealt then nextQueue s.currentQueueIndex else s.currentQueueIndex

/-- What is left of a state when the queues, the locks and the positions between two functions are
not looked at. -/
def executors (s : State n) : Executors.State (Fin n) JobId where
  pool k := { j | s.lifecycle j = .submitted ∧ s.frame.hand ≠ some j ∧ (s.jobs j).queue = some k }
  busy k := (s.worker k).runningJob
  returned := { j | ∃ k, .ret k j ∈ s.history }
  needs := s.DependsOn
  turn := s.turn

/-- Oldest first. -/
def seen (s : State n) : List (Executors.Event (Fin n) JobId) :=
  (s.history.filterMap Event.seen).reverse

end State

/-- `AddJob` pushes into the queue of `current_queue_index`. -/
def State.PushesInTurn (s : State n) : Prop :=
  ∀ j q stage, s.frame = .addJobPush j q stage → q = s.currentQueueIndex

theorem State.PushesInTurn.step (h : s.PushesInTurn) (ht : StepCase m s a t) : t.PushesInTurn := by
  have hindex : t.currentQueueIndex = s.currentQueueIndex ∨ t.frame = .idle := by
    cases ht with
    | worker ht => cases ht <;> exact .inl rfl
    | frame ht =>
      cases ht with
      | index => exact .inr rfl
      | _ => exact .inl rfl
    | @addDependency d x _ _ _ hm => rw [callStep_addDependency hm]; exact .inl rfl
    | _ => exact .inl rfl
  intro j q stage hj
  obtain hindex | hidle := hindex
  · rw [hindex]
    obtain hf | ⟨-, hn⟩ | ⟨-, ht⟩ | ⟨c, -, hi, rfl⟩ := ht.frame_moves
    · exact h j q stage (hf ▸ hj)
    · rw [hn] at hj
      cases hj
    · cases ht with
      | control hp hc => cases hc <;> cases hj
      | write hp => cases hj; rfl
      | pushLock hp | pushBack hp | pushNotify hp => cases hj; exact h _ _ _ hp
      | pushUnlock hp | index hp | stop hp | wakeOne _ hp | joined _ hp => cases hj
    · obtain hf | hf | ⟨i, -, hf⟩ | ⟨-, hf⟩ | ⟨-, hf⟩ := callStep_frame hi c <;>
        rw [hf] at hj <;> cases hj
  · rw [hidle] at hj
    cases hj

/-- How a step changes what `AddJob` has in its hands, and whose turn it is. -/
theorem StepCase.handing (h : StepCase m s a t) :
    a.addedJob = none ∧ t.frame.hand = s.frame.hand ∧ t.turn = s.turn ∨
      (∃ j q, a = .frame ∧ s.frame = .addJobPush j q .pushBack ∧
        t = (s.setQueue q ((s.queues q).push j)).gotoFrame (.addJobPush j q .notify)) ∨
      ∃ j, a = .call (.addJob j) ∧ s.frame = .idle ∧ s.lifecycle j = .created ∧
        t = callStep s (.addJob j) := by
  have turn (hi : t.currentQueueIndex = s.currentQueueIndex) (hf : t.frame.dealt = s.frame.dealt) :
      t.turn = s.turn := by rw [State.turn, State.turn, hi, hf]
  cases h with
  | worker h =>
    cases h with
    | notifyFrame | exitNotify =>
      exact .inl ⟨rfl, Ownership.notifyAll_hand s, turn rfl (notifyAll_congr FramePc.dealt rfl s)⟩
    | _ => exact .inl ⟨rfl, rfl, rfl⟩
  | frame h =>
    cases h with
    | control hp hc =>
      refine .inl ⟨rfl, ?_, turn rfl ?_⟩ <;> rw [hp] <;> cases hc <;> rfl
    | write hp | pushLock hp | pushNotify hp | pushUnlock hp | stop hp | wakeOne _ hp
    | joined _ hp =>
      refine .inl ⟨rfl, ?_, turn rfl ?_⟩ <;> rw [hp] <;> rfl
    | pushBack hp => exact .inr (.inl ⟨_, _, rfl, hp, rfl⟩)
    | index hp =>
      refine .inl ⟨rfl, by rw [hp]; rfl, ?_⟩
      unfold State.turn
      rw [hp]
      rfl
  | createJob | quit | wakeWorker => exact .inl ⟨rfl, rfl, rfl⟩
  | addDependency hi _ _ hm =>
    rw [callStep_addDependency hm]
    exact .inl ⟨rfl, rfl, rfl⟩
  | addJob hi hj => exact .inr (.inr ⟨_, rfl, hi, hj, rfl⟩)
  | exit hi | waitForAllJobs hi | joinJobs hi | wakeFrame hi =>
    refine .inl ⟨rfl, ?_, turn rfl ?_⟩ <;> rw [hi] <;> rfl

/-- Steps that the executors do not see. -/
theorem StepCase.executors_eq (h : StepCase m s a t) (ho : Ownership s)
    (hhand : t.frame.hand = s.frame.hand) (hturn : t.turn = s.turn)
    (hl : ∀ j, t.lifecycle j = .submitted ↔ s.lifecycle j = .submitted)
    (hb : ∀ k, (t.worker k).runningJob = (s.worker k).runningJob)
    (hh : t.history = s.history ∨ ∃ e, t.history = e :: s.history ∧ e.seen = none) :
    t.executors = s.executors ∧ t.seen = s.seen := by
  have hmem {e' : Event n} (he' : e'.seen ≠ none) : e' ∈ t.history ↔ e' ∈ s.history := by
    obtain hh | ⟨e, hh, he⟩ := hh
    · rw [hh]
    · rw [hh, List.mem_cons, or_iff_right]
      rintro rfl
      exact he' he
  refine ⟨Executors.State.ext ?_ ?_ ?_ ?_ hturn, ?_⟩
  · funext k
    ext j
    show t.lifecycle j = .submitted ∧ t.frame.hand ≠ some j ∧ (t.jobs j).queue = some k ↔
      s.lifecycle j = .submitted ∧ s.frame.hand ≠ some j ∧ (s.jobs j).queue = some k
    rw [hl, hhand]
    refine and_congr_right fun hj => and_congr_right fun hf => ?_
    rw [h.queue_field ho ⟨⟨by simp [hj], by simp [hj]⟩, hf⟩]
  · funext k
    exact hb k
  · ext j
    exact exists_congr fun k => hmem (by simp [Event.seen])
  · funext j x
    exact propext (hmem (by simp [Event.seen]))
  · obtain hh | ⟨e, hh, he⟩ := hh
    · rw [State.seen, hh, State.seen]
    · rw [State.seen, hh, List.filterMap_cons_none he, State.seen]

theorem runningJob_goto {u : State n} {p : WorkerPc n} (hw : u.worker = s.worker)
    (hp : p.runningJob = (s.worker k).runningJob) (k' : Fin n) :
    ((u.goto k p).worker k').runningJob = (s.worker k').runningJob := by
  by_cases hk : k' = k
  · subst hk
    rw [State.goto_self, hp]
  · rw [State.goto_worker, Function.update_of_ne hk, hw]

theorem Recorded.exists_ret (h : Recorded s) (hj : s.Returned j) : ∃ k, .ret k j ∈ s.history := by
  obtain ⟨e, he, hr⟩ := (h.returns j).iff_exists.mp hj
  cases e with
  | ret k x =>
    obtain rfl : x = j := by simpa [Event.returnOf] using hr
    exact ⟨k, he⟩
  | _ => simp [Event.returnOf] at hr

/-- What has been dealt has been pushed. -/
theorem pushed_of_dealt [NeZero n] (h : (jobSystem n m).Reachable s) (hj : s.executors.Dealt j) :
    s.Pushed j := by
  have ho := reachable_ownership h
  have hheld {k} (hk : (s.worker k).hand = some j) : s.Pushed j := by
    have hm := mem_holdings_of_hand hk
    refine ⟨?_, fun hf => (ho.frame hf).2 k hm⟩
    rcases ho.held hm with hl | hl <;> simp [State.Submitted, hl]
  obtain ⟨k, hl, hf, -⟩ | ⟨k, hk⟩ | ⟨k, hk⟩ := hj
  · exact ⟨⟨by simp [hl], by simp [hl]⟩, hf⟩
  · exact hheld (k := k) (by rw [runningJob_eq_some.mp hk]; rfl)
  · have hret : s.Returned j :=
      ((reachable_recorded h).returns j).iff_exists.mpr ⟨_, hk, by simp [Event.returnOf]⟩
    obtain hl | ⟨k, hk⟩ := hret
    · refine ⟨⟨by simp [hl], by simp [hl]⟩, fun hf => ?_⟩
      exact absurd ((ho.frame hf).1.symm.trans hl) (by decide)
    · exact hheld (hand_of_returnedJob hk)

theorem executors_addJob (hi : s.frame = .idle) (hj : s.lifecycle j = .created) :
    (callStep s (.addJob j)).executors = s.executors := by
  apply Executors.State.ext
  · funext k
    ext x
    show Function.update s.lifecycle j .submitted x = .submitted ∧ some j ≠ some x ∧
      (s.jobs x).queue = some k ↔
      s.lifecycle x = .submitted ∧ s.frame.hand ≠ some x ∧ (s.jobs x).queue = some k
    by_cases hx : x = j
    · subst hx
      simp [hj]
    · simp [hx, Ne.symm hx, hi, FramePc.hand]
  · rfl
  · rfl
  · rfl
  · show (callStep s (.addJob j)).turn = s.turn
    unfold State.turn
    rw [hi]
    rfl

theorem ret_of_running (hp : s.worker k = .running j) :
    Executors.Step nextQueue s.executors (.ret k j)
      ((s.log (.ret k j)).goto k (.destroy j 0)).executors := by
  have hbusy : s.executors.busy k = some j := runningJob_eq_some.mpr hp
  have hstep : Executors.Step nextQueue s.executors (.ret k j) _ := .ret hbusy
  convert hstep using 1
  apply Executors.State.ext
  · rfl
  · funext k'
    by_cases hk : k' = k
    · subst hk
      simp [State.executors, WorkerPc.runningJob]
    · simp [State.executors, hk]
  · ext x
    simp [State.executors, exists_or]
  · funext i x
    simp [State.executors, State.DependsOn]
  · rfl

section
variable [NeZero n]

theorem reachable_pushesInTurn (h : (jobSystem n m).Reachable s) : s.PushesInTurn :=
  h.invariant (fun _ hs => hs ▸ fun _ _ _ hf => by cases hf) fun _ _ _ _ hs ht =>
    hs.step (step_cases ht)

/-- The `push_back` of `AddJob` deals the job. -/
theorem deal_of_pushBack {q : Fin n} (h : (jobSystem n m).Reachable s)
    (hp : s.frame = .addJobPush j q .pushBack) :
    Executors.Step nextQueue s.executors (.deal j)
      ((s.setQueue q ((s.queues q).push j)).gotoFrame (.addJobPush j q .notify)).executors := by
  have ho := reachable_ownership h
  have hhand : s.frame.hand = some j := by rw [hp]; rfl
  have hturn : s.turn = q := by
    rw [reachable_pushesInTurn h j q _ hp]
    unfold State.turn
    rw [hp]
    rfl
  have hstep : Executors.Step nextQueue s.executors (.deal j) _ :=
    .deal fun hd => (pushed_of_dealt h hd).2 hhand
  convert hstep using 1
  apply Executors.State.ext
  · funext k
    ext x
    have hnew : x ∈ ((s.setQueue q ((s.queues q).push j)).gotoFrame
        (.addJobPush j q .notify)).executors.pool k ↔
        x = j ∧ k = q ∨ x ∈ s.executors.pool k := by
      show s.lifecycle x = .submitted ∧ none ≠ some x ∧ (s.jobs x).queue = some k ↔
        x = j ∧ k = q ∨ s.lifecycle x = .submitted ∧ s.frame.hand ≠ some x ∧
          (s.jobs x).queue = some k
      by_cases hx : x = j
      · subst hx
        simp [hhand, (ho.frame hhand).1, ho.pushed hp hhand, eq_comm]
      · simp [hhand, hx, Ne.symm hx]
    rw [hnew]
    show _ ↔ x ∈ Function.update s.executors.pool s.turn (insert j (s.executors.pool s.turn)) k
    rw [hturn]
    by_cases hk : k = q
    · subst hk
      simp
    · simp [hk]
  · rfl
  · rfl
  · rfl
  · show nextQueue s.currentQueueIndex = nextQueue s.turn
    rw [hturn, reachable_pushesInTurn h j q _ hp]

theorem start_of_execute (h : (jobSystem n m).Reachable s) (hf : s.FewEdges)
    (hp : s.worker k = .execute j) :
    Executors.Step nextQueue s.executors (.start k j)
      (((s.setLifecycle j .running).log (.start k j)).goto k (.running j)).executors := by
  have ho := reachable_ownership h
  have hhand : (s.worker k).hand = some j := by rw [hp]; rfl
  have hm := mem_holdings_of_hand hhand
  have hl : s.lifecycle j = .submitted := ho.submitted_of_hand hhand (by rw [hp]; rfl)
  have hq : (s.jobs j).queue = some k := ho.queue hm
  have hpool : j ∈ s.executors.pool k := ⟨hl, fun hfr => (ho.frame hfr).2 k hm, hq⟩
  have hneeds (x) (hx : s.executors.needs j x) : x ∈ s.executors.returned :=
    (reachable_recorded h).exists_ret (returned_of_cleared h hf (.inl ⟨k, hp⟩) hx)
  have hidle : s.executors.busy k = none := by
    show (s.worker k).runningJob = none
    rw [hp]
    rfl
  have hstep : Executors.Step nextQueue s.executors (.start k j) _ := .start hpool hidle hneeds
  convert hstep using 1
  apply Executors.State.ext
  · funext k'
    ext x
    have hnew : x ∈ (((s.setLifecycle j .running).log (.start k j)).goto k
        (.running j)).executors.pool k' ↔ x ≠ j ∧ x ∈ s.executors.pool k' := by
      show Function.update s.lifecycle j .running x = .submitted ∧ s.frame.hand ≠ some x ∧
        (s.jobs x).queue = some k' ↔
        x ≠ j ∧ s.lifecycle x = .submitted ∧ s.frame.hand ≠ some x ∧ (s.jobs x).queue = some k'
      by_cases hx : x = j <;> simp [hx]
    rw [hnew]
    show _ ↔ x ∈ Function.update s.executors.pool k (s.executors.pool k \ {j}) k'
    by_cases hk : k' = k
    · subst hk
      simp [and_comm]
    · rw [Function.update_of_ne hk, and_iff_right_iff_imp]
      rintro ⟨-, -, hx⟩ rfl
      exact hk (Option.some.inj (hx.symm.trans hq))
  · funext k'
    by_cases hk : k' = k
    · subst hk
      simp [State.executors, WorkerPc.runningJob]
    · simp [State.executors, hk]
  · ext x
    simp [State.executors]
  · funext i x
    simp [State.executors, State.DependsOn]
  · rfl

theorem link_of_addDependency {d : JobId} (h : (jobSystem n m).Reachable s)
    (hd : s.lifecycle d = .created) (hx : s.lifecycle x = .created)
    (hm : (s.jobs x).dependentCount < maxDependentCount) :
    Executors.Step nextQueue s.executors (.link d x)
      (callStep s (.addDependency d x)).executors := by
  have undealt {i} (hi : s.lifecycle i = .created) : ¬ s.executors.Dealt i := fun hdealt =>
    (pushed_of_dealt h hdealt).1.2 hi
  have hstep : Executors.Step nextQueue s.executors (.link d x) _ := .link (undealt hd) (undealt hx)
  have hq := addDependency_queue s d x
  rw [callStep_addDependency hm] at hq ⊢
  convert hstep using 1
  apply Executors.State.ext
  · funext k
    ext i
    exact and_congr_right fun _ => and_congr_right fun _ => by rw [← hq i]
  · rfl
  · ext i
    simp [State.executors]
  · funext i y
    simp [State.executors, State.DependsOn, or_comm]
  · rfl

/-- What the executors do at a step of the job system: nothing, the deal of the job that `AddJob`
had in its hands, or what the step logs. -/
inductive Observed (s : State n) (a : Action n) (t : State n) : Prop
  | unseen : t.executors = s.executors → t.seen = s.seen →
      t.frame.hand.toList = s.frame.hand.toList ++ a.addedJob.toList → Observed s a t
  | deal {j : JobId} : Executors.Step nextQueue s.executors (.deal j) t.executors →
      t.seen = s.seen → a.addedJob = none → s.frame.hand = some j → t.frame.hand = none →
      Observed s a t
  | logged {e : Executors.Event (Fin n) JobId} :
      Executors.Step nextQueue s.executors e t.executors → t.seen = s.seen ++ [e] →
      e.dealt = none → a.addedJob = none → t.frame.hand = s.frame.hand → Observed s a t

theorem StepCase.observed (h : StepCase m s a t) (hr : (jobSystem n m).Reachable s)
    (hf : s.FewEdges) : Observed s a t := by
  have ho := reachable_ownership hr
  obtain ⟨hadd, hhand, hturn⟩ | ⟨j, q, rfl, hp, rfl⟩ | ⟨j, rfl, hi, hj, rfl⟩ := h.handing
  · have hjob := h.jobStep
    have unseen (hl : ∀ j, t.lifecycle j = .submitted ↔ s.lifecycle j = .submitted)
        (hb : ∀ k, (t.worker k).runningJob = (s.worker k).runningJob)
        (hh : t.history = s.history ∨ ∃ e, t.history = e :: s.history ∧ e.seen = none) :
        Observed s a t := by
      obtain ⟨he, hseen⟩ := h.executors_eq ho hhand hturn hl hb hh
      exact .unseen he hseen (by rw [hhand, hadd]; simp)
    have logged {e : Event n} {e' : Executors.Event (Fin n) JobId} (he : e.seen = some e')
        (hh : t.history = e :: s.history) (hd : e'.dealt = none)
        (hstep : Executors.Step nextQueue s.executors e' t.executors) : Observed s a t := by
      refine .logged hstep ?_ hd hadd hhand
      rw [State.seen, hh, List.filterMap_cons_some he, List.reverse_cons, State.seen]
    cases hjob with
    | quiet hq =>
      exact unseen (by simp [hq.lifecycle]) (fun k => (hq.progress k).runningJob) (.inl hq.history)
    | start hp => exact logged rfl rfl rfl (start_of_execute hr hf hp)
    | ret hp => exact logged rfl rfl rfl (ret_of_running hp)
    | addDependency hd hx hm =>
      exact logged rfl (addDependency_history hm) rfl (link_of_addDependency hr hd hx hm)
    | ready hp => exact unseen (fun _ => .rfl) (runningJob_goto rfl (by rw [hp]; rfl)) (.inl rfl)
    | decrement hp =>
      exact unseen (fun _ => .rfl) (runningJob_goto rfl (by rw [hp]; rfl)) (.inr ⟨_, rfl, rfl⟩)
    | @delete k j i hp =>
      have hl : s.lifecycle j = .running := ho.running_of_startedJob (k := k) (by rw [hp]; rfl)
      refine unseen (fun x => ?_) (runningJob_goto rfl (by rw [hp]; rfl)) (.inr ⟨_, rfl, rfl⟩)
      by_cases hx : x = j <;> simp [hx, hl]
    | createJob f =>
      have hl : s.lifecycle s.nextJob = .unallocated := ho.unallocated.mpr le_rfl
      refine unseen (fun x => ?_) (fun _ => rfl) (.inl rfl)
      by_cases hx : x = s.nextJob <;> simp [callStep, hx, hl]
    | addJob hi hj =>
      refine .unseen (executors_addJob hi hj) rfl ?_
      rw [hhand, hadd]
      simp
  · exact .deal (deal_of_pushBack hr hp) rfl rfl (by rw [hp]; rfl) rfl
  · refine .unseen (executors_addJob hi hj) rfl ?_
    rw [hi]
    rfl

theorem executors_init : (Executors.executors nextQueue 0).init (init : State n).executors := by
  apply Executors.State.ext
  · funext k
    ext j
    simp [State.executors, init]
  · rfl
  · ext j
    simp [State.executors, init]
  · funext j x
    simp [State.executors, State.DependsOn, init]
  · rfl

/-- The job system is a group of serial executors: every step is one that is permitted to them, or
one that they do not see. -/
theorem refines_executors :
    ((jobSystem n m).restrict fun s _ => s.FewEdges).Refinement
      (Executors.executors nextQueue 0) State.executors where
  init s hs := by
    rw [show s = init from hs]
    exact executors_init
  step s a t hr ht := by
    obtain ⟨hf, ht⟩ := ht
    cases (step_cases ht).observed hr.of_restrict hf with
    | unseen he => exact .inl he
    | deal hstep => exact .inr ⟨_, hstep⟩
    | logged hstep => exact .inr ⟨_, hstep⟩

def State.runningWorkers (s : State n) : Finset (Fin n) :=
  Finset.univ.filter fun k => (s.worker k).runningJob.isSome

/-- Not more workers are in a function than there are chains that cover the jobs whose functions
run. -/
theorem card_running_le (h : (jobSystem n m).Reachable s) (hf : s.FewEdges) {γ : Type*}
    (chains : Finset γ) (chain : JobId → γ)
    (hmem : ∀ k j, s.worker k = .running j → chain j ∈ chains)
    (hchain : ∀ k j k' x, s.worker k = .running j → s.worker k' = .running x →
      chain j = chain x → j ≠ x →
      Relation.TransGen s.DependsOn j x ∨ Relation.TransGen s.DependsOn x j) :
    s.runningWorkers.card ≤ chains.card := by
  apply Executors.card_busy_le (refines_executors.reachable (reachable_restrict_fewEdges h hf))
    chains chain
  · exact fun k j hk => hmem k j (runningJob_eq_some.mp hk)
  · exact fun k j k' x hk hk' =>
      hchain k j k' x (runningJob_eq_some.mp hk) (runningJob_eq_some.mp hk')

/-- A run looks like one of the executors: what they do is what the run logs, in its order, and the
jobs are dealt in the order in which they were passed to `AddJob`. -/
theorem runs_as_executors {l : List (Action n)} (h : (jobSystem n m).traced.Reachable (s, l))
    (hf : s.FewEdges) :
    ∃ r, (Executors.executors nextQueue 0).traced.Reachable (s.executors, r) ∧
      r.filter (·.dealt.isNone) = s.seen ∧
      r.filterMap Executors.Event.dealt ++ s.frame.hand.toList = addedJobs l := by
  refine h.invariant (I := fun p => p.1.FewEdges →
    ∃ r, (Executors.executors nextQueue 0).traced.Reachable (p.1.executors, r) ∧
      r.filter (·.dealt.isNone) = p.1.seen ∧
      r.filterMap Executors.Event.dealt ++ p.1.frame.hand.toList = addedJobs p.2)
    (fun p hp _ => ?_) (fun p a q hr hi ht hfew => ?_) hf
  · obtain ⟨hs, hl⟩ := hp
    rw [hl, show p.1 = init from hs]
    exact ⟨[], .init ⟨executors_init, rfl⟩, rfl, rfl⟩
  · obtain ⟨ht, hl⟩ := ht
    have hcase := step_cases ht
    have hold := hfew.of_step hcase.jobStep (reachable_ownership hr.of_traced)
    obtain ⟨r, hexec, hseen, hdealt⟩ := hi hold
    have hadded : addedJobs q.2 = addedJobs p.2 ++ a.addedJob.toList := by
      rw [hl, addedJobs, List.filterMap_append, addedJobs]
      cases ha : a.addedJob <;> simp [ha]
    cases hcase.observed hr.of_traced hold with
    | unseen he hs hhand =>
      refine ⟨r, he ▸ hexec, hseen.trans hs.symm, ?_⟩
      rw [hadded, hhand, ← hdealt, List.append_assoc]
    | @deal j hstep hs ha hhand hhand' =>
      refine ⟨r ++ [.deal j], hexec.step ⟨hstep, rfl⟩, ?_, ?_⟩
      · rw [List.filter_append, hseen, hs]
        exact List.append_nil _
      · rw [hadded, ha, ← hdealt, hhand, hhand', List.filterMap_append]
        simp [Executors.Event.dealt]
    | @logged e hstep hs hd ha hhand =>
      refine ⟨r ++ [e], hexec.step ⟨hstep, rfl⟩, ?_, ?_⟩
      · rw [List.filter_append, hseen, hs]
        simp [hd]
      · rw [hadded, ha, ← hdealt, hhand, List.filterMap_append]
        simp [hd]

end

/-- Two jobs on two workers, the second of which waits for the first. -/
theorem runs_as_executors_chain : ∃ (s : State 2) (r : List (Executors.Event (Fin 2) JobId)),
    (Executors.executors nextQueue 0).traced.Reachable (s.executors, r) ∧
      r.filter (·.dealt.isNone) = [.link 1 0, .start 0 0, .ret 0 0, .start 1 1] ∧
      r.filterMap Executors.Event.dealt ++ s.frame.hand.toList = [0, 1] := by
  set l : List (Action 2) := [.call (.createJob 0), .call (.createJob 0),
    .call (.addDependency 1 0)] ++ addJobActions 0 ++ addJobActions 1 ++ workerActions 0 14 ++
    workerActions 1 7
  have hrun : (execute .conditionVariable l).any (fun s => s.nextJob * maxDependentCount < 2 ^ 32 ∧
      s.seen = [.link 1 0, .start 0 0, .ret 0 0, .start 1 1]) = true := by decide +kernel
  obtain ⟨s, hs, hp⟩ := (Option.any_eq_true _ _).mp hrun
  obtain ⟨hfew, hseen⟩ := of_decide_eq_true hp
  have hr : (jobSystem 2 .conditionVariable).traced.Reachable (s, [] ++ l) :=
    traced_of_run (.init ⟨rfl, rfl⟩) hs
  obtain ⟨r, hexec, hfilter, hdealt⟩ := runs_as_executors hr (fewEdges_of_nextJob hfew)
  exact ⟨s, r, hexec, hfilter.trans hseen, hdealt.trans rfl⟩

end JobSystem
