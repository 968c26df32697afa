import JobSystem.CleanCut
import JobSystem.Confinement
import Mathlib.Data.Int.CardIntervalMod

/-! `AddJob` deals the jobs out round robin, and since no job ever leaves its queue that decides
which worker executes it: the `i`-th job goes to worker `i % n`, however the threads are
interleaved and whatever `rand()` returns. -/
namespace JobSystem
open TransitionSystem
variable {n : ℕ} {m : WaitMode} {k : Fin n} {i : ℕ} {j : JobId} {s t : State n} {a : Action n}
  {added : List JobId}

instance (s : State n) (j : JobId) : Decidable (s.Started j) :=
  inferInstanceAs (Decidable (_ ∨ _))

def Action.addedJob : Action n → Option JobId
  | .call (.addJob j) => some j
  | _ => none

/-- The job of an `AddJob` up to its `Push`. -/
def FramePc.adding : FramePc n → Option JobId
  | .addJobWrite j | .addJobPush j _ _ => some j
  | _ => none

/-- The jobs `added` have been passed to `AddJob`, in this order, and each but the one on its way
has got the queue of its number. -/
structure Distributed (added : List JobId) (s : State n) : Prop where
  nodup : added.Nodup
  submitted : ∀ {j}, s.Submitted j ↔ j ∈ added
  latest : ∀ {j}, s.frame.adding = some j → added.getLast? = some j
  pos : s.frame.addingJob = true → 0 < added.length
  index : (s.currentQueueIndex : ℕ) =
    (if s.frame.addingJob then added.length - 1 else added.length) % n
  queue : ∀ {i j}, added[i]? = some j → s.frame ≠ .addJobWrite j →
    ∃ q : Fin n, (s.jobs j).queue = some q ∧ (q : ℕ) = i % n

theorem StepCase.submitted_iff (h : StepCase m s a t) (ho : Ownership s)
    (ha : ∀ j, a ≠ .call (.addJob j)) : t.Submitted j ↔ s.Submitted j := by
  cases h with
  | @worker k _ _ h =>
    cases h with
    | @start x hp | @delete x _ hp =>
      by_cases hx : j = x
      · subst hx
        have hh : j ∈ s.holdings k := mem_holdings_of_hand (by rw [hp]; rfl)
        rcases ho.held hh with hl | hl <;> simp [State.Submitted, hl]
      · simp [State.Submitted, hx]
    | _ => rfl
  | frame h => cases h <;> rfl
  | createJob f =>
    by_cases hx : j = s.nextJob
    · subst hx
      have hfresh : s.lifecycle s.nextJob = .unallocated := ho.unallocated.mpr le_rfl
      simp [State.Submitted, callStep, hfresh]
    · simp [State.Submitted, callStep, hx]
  | @addDependency d x =>
    rw [State.Submitted, (addDependency_onlyJobs s d x).lifecycle]
    rfl
  | addJob => exact absurd rfl (ha _)
  | exit | waitForAllJobs | joinJobs | quit | wakeWorker | wakeFrame => rfl

/-- The queue that a job names changes at its `AddJob` only. -/
theorem StepCase.queue_eq (h : StepCase m s a t) (ho : Ownership s) (hj : s.Submitted j)
    (hw : s.frame ≠ .addJobWrite j) : (t.jobs j).queue = (s.jobs j).queue := by
  cases h with
  | worker h => exact h.queue_field ho
  | frame h =>
    cases h with
    | @write x hp =>
      have hne : j ≠ x := by rintro rfl; exact hw hp
      simp [hne]
    | _ => rfl
  | createJob f =>
    have hne : j ≠ s.nextJob := (ho.lt_nextJob hj.1).ne
    simp [callStep, hne]
  | @addDependency d x => exact addDependency_queue s d x j
  | _ => rfl

namespace Distributed

theorem init [NeZero n] : Distributed [] (init : State n) := by
  constructor <;> simp [JobSystem.init, FramePc.adding, FramePc.addingJob, State.Submitted]

/-- Steps at which no `AddJob` begins or ends, and none names its queue. -/
theorem of_frame (h : Distributed added s) (ho : Ownership s) (ht : StepCase m s a t)
    (ha : ∀ j, a ≠ .call (.addJob j)) (hi : t.currentQueueIndex = s.currentQueueIndex)
    (hadding : ∀ j, t.frame.adding = some j → s.frame.adding = some j)
    (hadd : t.frame.addingJob = s.frame.addingJob)
    (hw : ∀ j, s.frame = .addJobWrite j → t.frame = .addJobWrite j) : Distributed added t := by
  refine ⟨h.nodup, ?_, fun hj => h.latest (hadding _ hj), ?_, ?_, fun {i j} hij hne => ?_⟩
  · intro j
    rw [ht.submitted_iff ho ha, h.submitted]
  · rw [hadd]
    exact h.pos
  · rw [hi, hadd]
    exact h.index
  · have hne' : s.frame ≠ .addJobWrite j := fun hf => hne (hw j hf)
    rw [ht.queue_eq ho (h.submitted.mpr (List.mem_of_getElem? hij)) hne']
    exact h.queue hij hne'

theorem worker (h : Distributed added s) (ho : Ownership s) {c : Choice n}
    (ht : WorkerStep m k s t) : Distributed added t := by
  have hcase : StepCase m s (.worker k c) t := .worker ht
  have hi : t.currentQueueIndex = s.currentQueueIndex := by cases ht <;> rfl
  have hf : t.frame = s.frame ∨ s.frame = .blocked ∧ t.frame = .notified := by
    cases ht with
    | notifyFrame | exitNotify => exact notifyAll_frame s
    | _ => exact .inl rfl
  obtain hf | ⟨hb, hn⟩ := hf
  · exact h.of_frame ho hcase (by simp) hi (by simp [hf]) (by rw [hf]) (by simp [hf])
  · exact h.of_frame ho hcase (by simp) hi (by simp [hn, FramePc.adding]) (by rw [hb, hn]; rfl)
      (by simp [hb])

/-- The latest job is the last in the list and nowhere else. -/
theorem getElem_latest (h : Distributed added s) (hj : s.frame.adding = some j)
    (hij : added[i]? = some j) : i = added.length - 1 := by
  have hlast := h.latest hj
  rw [List.getLast?_eq_getElem?] at hlast
  obtain ⟨hi, -⟩ := List.getElem?_eq_some_iff.mp hij
  exact (List.getElem?_inj hi h.nodup).mp (hij.trans hlast.symm)

/-- `job->queue = queues[current_queue_index]` -/
theorem write (h : Distributed added s) (hp : s.frame = .addJobWrite j) :
    Distributed added ((s.setJob j { s.jobs j with queue := some s.currentQueueIndex }).gotoFrame
      (.addJobPush j s.currentQueueIndex .lock)) := by
  have hadd : s.frame.addingJob = true := by rw [hp]; rfl
  have hindex := h.index
  rw [if_pos hadd] at hindex
  refine ⟨h.nodup, h.submitted, fun {x} hx => ?_, fun _ => h.pos hadd, ?_, fun {i x} hix _ => ?_⟩
  · obtain rfl : j = x := by simpa [FramePc.adding] using hx
    exact h.latest (by rw [hp]; rfl)
  · exact hindex
  · by_cases hx : x = j
    · subst hx
      refine ⟨s.currentQueueIndex, by simp, ?_⟩
      rw [h.getElem_latest (by rw [hp]; rfl) hix]
      exact hindex
    · have hne : s.frame ≠ .addJobWrite x := by
        rw [hp]
        exact fun he => hx (FramePc.addJobWrite.inj he).symm
      simpa [hx] using h.queue hix hne

theorem frameStep (h : Distributed added s) (ho : Ownership s) (ht : FrameStep s t) :
    Distributed added t := by
  have hcase : StepCase .predicate s .frame t := .frame ht
  cases ht with
  | control hp hc =>
    refine h.of_frame ho hcase (by simp) rfl ?_ ?_ ?_ <;> rw [hp] <;> cases hc <;>
      simp [FramePc.adding, FramePc.addingJob]
  | write hp => exact h.write hp
  | pushLock hp | pushBack hp | pushNotify hp | pushUnlock hp | stop hp | wakeOne _ hp
  | joined _ hp =>
    refine h.of_frame ho hcase (by simp) rfl ?_ ?_ ?_ <;> rw [hp] <;>
      simp [FramePc.adding, FramePc.addingJob]
  | index hp =>
    have hadd : s.frame.addingJob = true := by rw [hp]; rfl
    have hpos := h.pos hadd
    have hindex := h.index
    rw [if_pos hadd] at hindex
    refine ⟨h.nodup, h.submitted, by simp [FramePc.adding], by simp [FramePc.addingJob], ?_,
      fun hij _ => h.queue hij (by simp [hp])⟩
    show ((s.currentQueueIndex : ℕ) + 1) % n = added.length % n
    rw [hindex, Nat.mod_add_mod, Nat.sub_add_cancel hpos]

theorem addJob (h : Distributed added s) (hi : s.frame = .idle) (hj : s.lifecycle j = .created) :
    Distributed (added ++ [j]) (callStep s (.addJob j)) := by
  have hnew : j ∉ added := fun hm => (h.submitted.mpr hm).2 hj
  have hindex := h.index
  rw [hi] at hindex
  refine ⟨?_, fun {x} => ?_, fun {x} hx => ?_, fun _ => by simp, ?_, fun {i x} hix hne => ?_⟩
  · rw [List.nodup_append]
    refine ⟨h.nodup, List.nodup_singleton j, fun x hx y hy => ?_⟩
    obtain rfl := List.mem_singleton.mp hy
    rintro rfl
    exact hnew hx
  · by_cases hx : x = j
    · simp [State.Submitted, callStep, hx]
    · rw [List.mem_append, List.mem_singleton, or_iff_left hx, ← h.submitted]
      simp [State.Submitted, callStep, hx]
  · obtain rfl : j = x := by simpa [callStep, FramePc.adding] using hx
    exact List.getLast?_concat
  · show (s.currentQueueIndex : ℕ) = _
    rw [hindex]
    simp [callStep, FramePc.addingJob]
  · have hx : x ≠ j := by rintro rfl; exact hne rfl
    have hix' : added[i]? = some x := by
      rw [List.getElem?_append] at hix
      split at hix
      · exact hix
      · have := List.mem_of_getElem? hix
        exact absurd (List.mem_singleton.mp this) hx
    exact h.queue hix' (by simp [hi])

theorem step (h : Distributed added s) (ho : Ownership s) (ht : StepCase m s a t) :
    Distributed (added ++ a.addedJob.toList) t := by
  have none (he : a.addedJob = none) (h' : Distributed added t) :
      Distributed (added ++ a.addedJob.toList) t := by
    rw [he]
    simpa using h'
  have hcase := ht
  cases ht with
  | worker ht => exact none rfl (h.worker (c := {}) ho ht)
  | frame ht => exact none rfl (h.frameStep ho ht)
  | addJob hi hj => exact h.addJob hi hj
  | @addDependency d x hi =>
    refine none rfl (h.of_frame ho hcase (by simp) ?_ ?_ ?_ ?_)
    · obtain hm | hm := Nat.lt_or_ge (s.jobs x).dependentCount maxDependentCount
      · rw [callStep_addDependency hm]; rfl
      · rw [callStep_exit hm]; rfl
    all_goals
      obtain hf | hf | ⟨j, hc, -⟩ | ⟨hc, -⟩ | ⟨hc, -⟩ := callStep_frame hi (.addDependency d x)
      · simp [hf, hi, FramePc.adding, FramePc.addingJob]
      · simp [hf, hi, FramePc.adding, FramePc.addingJob]
      all_goals simp at hc
  | createJob f hi | exit hi | waitForAllJobs hi | joinJobs hi | wakeFrame hi =>
    refine none rfl (h.of_frame ho hcase (by simp) rfl ?_ ?_ ?_) <;>
      simp [callStep, hi, FramePc.adding, FramePc.addingJob]
  | quit | wakeWorker =>
    exact none rfl (h.of_frame ho hcase (by simp) rfl (fun _ => id) rfl fun _ => id)

end Distributed

/-- Only the worker of the queue that a job names has started it. -/
def Confined (s : State n) : Prop :=
  ∀ k j, .start k j ∈ s.history → s.Pushed j ∧ (s.jobs j).queue = some k

theorem Confined.step (h : Confined s) (ho : Ownership s) (ht : StepCase m s a t) :
    Confined t := by
  intro k j hs
  have hold : s.Pushed j ∧ (s.jobs j).queue = some k := by
    obtain he | ⟨e, he, hstart⟩ := ht.history
    · exact h k j (he ▸ hs)
    · rw [he] at hs
      obtain rfl | hs := List.mem_cons.mp hs
      · have hm : j ∈ s.holdings k := mem_holdings_of_hand (by rw [(hstart k j rfl).1]; rfl)
        refine ⟨⟨?_, fun hf => (ho.frame hf).2 k hm⟩, ho.queue hm⟩
        rcases ho.held hm with hl | hl <;> simp [State.Submitted, hl]
      · exact h k j hs
  exact ⟨ht.pushed ho hold.1, (ht.queue_field ho hold.1).trans hold.2⟩

/-- The job that worker `k` has started. -/
def Event.startedBy (k : Fin n) : Event n → Option JobId
  | .start i j => if i = k then some j else none
  | _ => none

theorem startedBy_eq_some {e : Event n} : e.startedBy k = some j ↔ e = .start k j := by
  cases e <;> simp [Event.startedBy]

section
variable [NeZero n]

/-- The jobs passed to `AddJob` in a run. -/
def addedJobs (l : List (Action n)) : List JobId := l.filterMap Action.addedJob

theorem reachable_distributed {l : List (Action n)}
    (h : (jobSystem n m).traced.Reachable (s, l)) : Distributed (addedJobs l) s := by
  refine h.invariant (I := fun p => Distributed (addedJobs p.2) p.1) (fun p hp => ?_)
    fun p a q hr hi ht => ?_
  · obtain ⟨hs, hl⟩ := hp
    rw [hl, show p.1 = init from hs]
    exact .init
  · obtain ⟨ht, hl⟩ := ht
    have hstep := hi.step (reachable_ownership hr.of_traced) (step_cases ht)
    rw [hl, addedJobs, List.filterMap_append]
    cases ha : a.addedJob <;> simpa [ha, addedJobs] using hstep

theorem reachable_confined (h : (jobSystem n m).Reachable s) : Confined s :=
  h.invariant (fun _ hs => hs ▸ fun _ _ he => absurd he List.not_mem_nil)
    fun _ _ _ hr hi ht => hi.step (reachable_ownership hr) (step_cases ht)

/-- Who has started the `i`-th job. -/
theorem Distributed.start_iff (h : Distributed added s) (hr : (jobSystem n m).Reachable s)
    (hij : added[i]? = some j) : .start k j ∈ s.history ↔ (k : ℕ) = i % n ∧ s.Started j := by
  have hc := reachable_confined hr
  have hstarts := (reachable_recorded hr).starts j
  have hworker {k : Fin n} (hs : .start k j ∈ s.history) : (k : ℕ) = i % n := by
    obtain ⟨hp, hq⟩ := hc k j hs
    have hw : s.frame ≠ .addJobWrite j := fun hf => hp.2 (by rw [hf]; rfl)
    obtain ⟨q, hq', hi⟩ := h.queue hij hw
    obtain rfl : k = q := Option.some.inj (hq.symm.trans hq')
    exact hi
  constructor
  · exact fun hs => ⟨hworker hs, hstarts.iff_exists.mpr ⟨_, hs, by simp [Event.startOf]⟩⟩
  · rintro ⟨hk, hs⟩
    obtain ⟨e, he, hse⟩ := hstarts.iff_exists.mp hs
    obtain ⟨k', rfl⟩ : ∃ k', e = .start k' j := by
      cases e <;> simp_all [Event.startOf]
    obtain rfl : k = k' := Fin.ext (hk.trans (hworker he).symm)
    exact he

/-- How many of `a` jobs are dealt to worker `k`. -/
def share (n a : ℕ) (k : Fin n) : ℕ := a / n + if (k : ℕ) < a % n then 1 else 0

theorem card_share (a : ℕ) (k : Fin n) :
    ((Finset.range a).filter fun i => i % n = k).card = share n a k := by
  have hmod (i : ℕ) : i % n = k ↔ i ≡ k [MOD n] := by
    rw [Nat.ModEq, Nat.mod_eq_of_lt k.isLt]
  rw [← Nat.count_eq_card_filter_range]
  simp only [hmod]
  rw [Nat.count_modEq_card _ (NeZero.pos n), Nat.mod_eq_of_lt k.isLt, share]

theorem startsBy_eq_card (hr : (jobSystem n m).Reachable s) (k : Fin n) :
    s.startsBy k = (s.history.filterMap (Event.startedBy k)).toFinset.card := by
  have hnodup : (s.history.filterMap (Event.startedBy k)).Nodup := by
    refine List.nodup_iff_count_le_one.mpr fun j => ?_
    rw [List.count_filterMap]
    refine le_trans (List.countP_mono_left fun e _ he => ?_)
      ((reachable_recorded hr).starts j).le_one
    rw [startedBy_eq_some.mp (beq_iff_eq.mp he)]
    simp [Event.startOf]
  rw [List.toFinset_card_of_nodup hnodup, List.length_filterMap_eq_countP, State.startsBy]
  refine List.countP_congr fun e _ => ?_
  cases e <;> simp [Event.startBy, Event.startedBy]

/-- The jobs are dealt out round robin and stay with their worker: the `i`-th job is started by
worker `i % n` and by no other, in every interleaving and whatever is stolen, so that no worker
starts more than its share and all have started exactly that once every job is started. -/
theorem starts_round_robin {l : List (Action n)}
    (h : (jobSystem n m).traced.Reachable (s, l)) :
    (∀ i j, (addedJobs l)[i]? = some j → ∀ k : Fin n,
      .start k j ∈ s.history ↔ (k : ℕ) = i % n ∧ s.Started j) ∧
    (∀ k, s.startsBy k ≤ share n (addedJobs l).length k) ∧
    ((∀ j ∈ addedJobs l, s.Started j) →
      ∀ k, s.startsBy k = share n (addedJobs l).length k) := by
  have hd := reachable_distributed h
  have hr := h.of_traced
  have hmem {k : Fin n} {j : JobId} :
      j ∈ (s.history.filterMap (Event.startedBy k)).toFinset ↔ .start k j ∈ s.history := by
    simp [startedBy_eq_some]
  have hidx {j} (hj : j ∈ addedJobs l) : (addedJobs l)[(addedJobs l).idxOf j]? = some j :=
    List.getElem?_idxOf hj
  have hadded {k : Fin n} {j} (hs : .start k j ∈ s.history) : j ∈ addedJobs l :=
    hd.submitted.mp (reachable_confined hr k j hs).1.1
  -- the jobs of worker `k`, told by their numbers
  have hmaps (k : Fin n) : ∀ j ∈ (s.history.filterMap (Event.startedBy k)).toFinset,
      (addedJobs l).idxOf j ∈ (Finset.range (addedJobs l).length).filter fun i => i % n = k := by
    intro j hj
    have hs := hmem.mp hj
    have hm := hadded hs
    exact Finset.mem_filter.mpr ⟨Finset.mem_range.mpr (List.idxOf_lt_length_of_mem hm),
      ((hd.start_iff hr (hidx hm)).mp hs).1.symm⟩
  have hinj (k : Fin n) : Set.InjOn (addedJobs l).idxOf
      (s.history.filterMap (Event.startedBy k)).toFinset := by
    intro j hj j' hj' he
    change (addedJobs l).idxOf j = (addedJobs l).idxOf j' at he
    have hget := hidx (hadded (hmem.mp hj))
    rw [he, hidx (hadded (hmem.mp hj'))] at hget
    exact (Option.some.inj hget).symm
  refine ⟨fun i j hij k => hd.start_iff hr hij, fun k => ?_, fun hall k => ?_⟩
  · rw [startsBy_eq_card hr, ← card_share]
    exact Finset.card_le_card_of_injOn _ (hmaps k) (hinj k)
  · rw [startsBy_eq_card hr, ← card_share]
    refine Finset.card_nbij _ (hmaps k) (hinj k) fun i hi => ?_
    obtain ⟨hlt, hi⟩ := Finset.mem_filter.mp hi
    have hij := List.getElem?_eq_getElem (Finset.mem_range.mp hlt)
    have hj := List.mem_of_getElem? hij
    refine ⟨_, hmem.mpr ((hd.start_iff hr hij).mpr ⟨hi.symm, hall _ hj⟩), ?_⟩
    have hlt' := List.idxOf_lt_length_of_mem hj
    exact (List.getElem?_inj hlt' hd.nodup).mp ((hidx hj).trans hij.symm)

end

/-- Two workers share three jobs. -/
theorem starts_round_robin_three_jobs : ∃ s : State 2, (∀ j < 3, s.Started j) ∧
    s.startsBy 0 = 2 ∧ s.startsBy 1 = 1 := by
  set l : List (Action 2) := [.call (.createJob 0), .call (.createJob 0), .call (.createJob 0)] ++
    addJobActions 0 ++ addJobActions 1 ++ addJobActions 2 ++ workerActions 0 22 ++
    workerActions 1 12
  have hrun : (execute .conditionVariable l).any (fun s => ∀ j < 3, s.Started j) = true := by
    decide +kernel
  obtain ⟨s, hs, hstarted⟩ := (Option.any_eq_true _ _).mp hrun
  have hstarted := of_decide_eq_true hstarted
  have hr : (jobSystem 2 .conditionVariable).traced.Reachable (s, [] ++ l) :=
    traced_of_run (.init ⟨rfl, rfl⟩) hs
  obtain ⟨-, -, hshare⟩ := starts_round_robin hr
  have hadded : addedJobs ([] ++ l) = [0, 1, 2] := rfl
  rw [hadded] at hshare
  have hall : ∀ j ∈ [0, 1, 2], s.Started j := fun j hj =>
    hstarted j (List.mem_range.mp (show j ∈ List.range 3 from hj))
  exact ⟨s, hstarted, (hshare hall 0).trans (by decide), (hshare hall 1).trans (by decide)⟩

end JobSystem
