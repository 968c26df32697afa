import JobSystem.Undisturbed
import Mathlib.Data.Nat.Periodic

/-! Parallel frames do what serial frames do: the same functions as often, in an order that respects
the documented dependencies, and one call of `UpdateParallel` after the other. -/
namespace JobSystem
open TransitionSystem UpdateFunction
variable {n : ℕ} {m : WaitMode} {F P : ℕ} {M : Runner n} {k : Fin n} {j x : JobId}
  {s t : State n} {a : Action n} {post pre : List (Event n)}

/-- The entries of a list with a key in `S`, key by key. -/
theorem countP_exists_key {α ι : Type*} [DecidableEq ι] (key : α → Option ι) (S : Finset ι)
    (l : List α) : l.countP (fun e => ∃ j ∈ S, key e = some j) =
      ∑ j ∈ S, l.countP (fun e => key e = some j) := by
  induction l with
  | nil => simp
  | cons e l ih =>
    simp only [List.countP_cons, Finset.sum_add_distrib, ih, Nat.add_right_inj]
    cases hk : key e with
    | none => simp
    | some i => simp

theorem count_mul_of_periodic {p : ℕ → Prop} [DecidablePred p] {a : ℕ}
    (hp : Function.Periodic p a) (F : ℕ) : (F * a).count p = F * a.count p := by
  induction F with
  | zero => simp
  | succ F ih =>
    have hshift (i) : p (F * a + i) ↔ p i := by
      rw [Nat.add_comm]
      exact iff_of_eq (hp.nat_mul F i)
    rw [Nat.succ_mul, Nat.count_add, ih, Nat.succ_mul]
    simp only [hshift]

theorem pairwise_of_split {α : Type*} {R : α → α → Prop} {l : List α}
    (h : ∀ post e pre, l = post ++ e :: pre → ∀ e' ∈ pre, R e e') : l.Pairwise R := by
  induction l with
  | nil => exact .nil
  | cons e l ih =>
    exact .cons (h [] e l rfl) (ih fun post e' pre hl => h (e :: post) e' pre (by rw [hl]; rfl))

/-- How many jobs of a frame run the function. -/
def UpdateFunction.times (P : ℕ) : UpdateFunction → ℕ
  | particles => P
  | _ => 1

theorem count_updateFunction (P : ℕ) (f : UpdateFunction) :
    (7 + P).count (updateFunction P · = f) = f.times P := by
  have hplace : (7 + P).count (updateFunction P · = f) = (7 + P).count (functionAt · = f) := by
    rw [Nat.count_eq_card_filter_range, Nat.count_eq_card_filter_range]
    refine congrArg _ (Finset.filter_congr fun o ho => ?_)
    rw [updateFunction, Nat.mod_eq_of_lt (Finset.mem_range.mp ho)]
  have hparticles (i : ℕ) : functionAt (7 + i) = particles := by
    rw [Nat.add_comm]
    rfl
  rw [hplace, Nat.count_add]
  simp only [hparticles]
  cases f with
  | particles =>
    rw [Nat.count_of_forall fun _ _ => rfl]
    exact Nat.zero_add P
  | _ =>
    simp only [reduceCtorEq, Nat.count_false]
    rfl

theorem updateFunction_periodic (P : ℕ) (f : UpdateFunction) :
    Function.Periodic (updateFunction P · = f) (7 + P) := fun j => by
  simp [updateFunction]

/-- Each of `F` frames runs the function as often as one. -/
theorem card_updateFunction (F P call : ℕ) (f : UpdateFunction) :
    ((Finset.Ico (call * (F * (7 + P))) (call * (F * (7 + P)) + F * (7 + P))).filter
      (updateFunction P · = f)).card = F * f.times P := by
  have hperiod := updateFunction_periodic P f
  have hframes : Function.Periodic (updateFunction P · = f) (F * (7 + P)) := hperiod.nat_mul F
  rw [Nat.filter_Ico_card_eq_of_periodic _ _ _ hframes, count_mul_of_periodic hperiod,
    count_updateFunction]

/-- The job whose function is started. -/
def Event.started : Event n → Option JobId
  | .start _ j => some j
  | _ => none

/-- The job whose function has returned. -/
def Event.returned : Event n → Option JobId
  | .ret _ j => some j
  | _ => none

/-- The functions that the jobs of one call of `UpdateParallel`, which creates `size` jobs, have
run, in the order of their starts or of their returns. -/
def State.ranIn (s : State n) (key : Event n → Option JobId) (size call : ℕ) : List JobFunction :=
  s.history.reverse.filterMap fun e => (key e).bind fun j =>
    if j / size = call then (s.jobs j).jobFunction else none

theorem startOf_iff {e : Event n} : e.startOf j = true ↔ e.started = some j := by
  cases e <;> simp [Event.startOf, Event.started]

theorem returnOf_iff {e : Event n} : e.returnOf j = true ↔ e.returned = some j := by
  cases e <;> simp [Event.returnOf, Event.returned]

/-- Once each job of a call has its one event, the call has run the functions of its jobs. -/
theorem count_ranIn {key : Event n → Option JobId} {passes call : ℕ} (hF : 0 < F)
    (hnext : s.nextJob = passes * (F * (7 + P))) (hcall : call < passes)
    (hfun : ∀ j < s.nextJob, (s.jobs j).jobFunction = some (updateFunction P j).address)
    (hkey : ∀ j < s.nextJob, s.history.countP (fun e => key e = some j) = 1)
    (f : UpdateFunction) :
    (s.ranIn key (F * (7 + P)) call).count f.address = F * f.times P := by
  have hpos : 0 < F * (7 + P) := Nat.mul_pos hF (Nat.add_pos_left (by decide) P)
  set S := (Finset.Ico (call * (F * (7 + P))) (call * (F * (7 + P)) + F * (7 + P))).filter
    (updateFunction P · = f) with hS
  have hlt {j : ℕ} (hj : j < call * (F * (7 + P)) + F * (7 + P)) : j < s.nextJob := by
    refine hj.trans_le ?_
    rw [hnext, ← Nat.succ_mul]
    exact Nat.mul_le_mul_right _ hcall
  have hmem {j : ℕ} : j ∈ S ↔
      (if j / (F * (7 + P)) = call then (s.jobs j).jobFunction else none) = some f.address := by
    have hdiv : j / (F * (7 + P)) = call ↔
        call * (F * (7 + P)) ≤ j ∧ j < call * (F * (7 + P)) + F * (7 + P) := by
      rw [Nat.div_eq_iff hpos]
      omega
    rw [hS, Finset.mem_filter, Finset.mem_Ico, ← hdiv]
    split
    next hj =>
      rw [hfun j (hlt (hdiv.mp hj).2), Option.some_inj, address_injective.eq_iff, and_iff_right hj]
    next hj => simp [hj]
  have hentry (e : Event n) : (((key e).bind fun j =>
      if j / (F * (7 + P)) = call then (s.jobs j).jobFunction else none) == some f.address) =
        decide (∃ j ∈ S, key e = some j) := by
    cases hk : key e with
    | none => simp
    | some i =>
      rw [Option.bind_some, Bool.eq_iff_iff, beq_iff_eq, ← hmem, decide_eq_true_iff]
      simp
  rw [State.ranIn, List.count_filterMap, List.countP_reverse]
  simp only [hentry]
  rw [countP_exists_key, ← card_updateFunction F P call f, Finset.card_eq_sum_ones]
  refine Finset.sum_congr rfl fun j hj => hkey j (hlt ?_)
  exact (Finset.mem_Ico.mp (Finset.mem_filter.mp hj).1).2

/-- The jobs of a call of `UpdateParallel` have returned before any job of a later call starts. -/
def Barrier (size : ℕ) (l : List (Event n)) : Prop :=
  ∀ post k j pre, l = post ++ .start k j :: pre → ∀ x, x / size < j / size → ∃ k', .ret k' x ∈ pre

theorem Barrier.nil {size : ℕ} : Barrier size ([] : List (Event n)) :=
  fun post _ _ _ h => absurd h.symm (by simp)

theorem Barrier.cons {size : ℕ} {l : List (Event n)} {e : Event n} (h : Barrier size l)
    (he : ∀ k j, e = .start k j → ∀ x, x / size < j / size → ∃ k', .ret k' x ∈ l) :
    Barrier size (e :: l) := by
  intro post k j pre hl
  cases post with
  | nil =>
    obtain ⟨rfl, rfl⟩ := List.cons.inj hl
    exact he k j rfl
  | cons e' post => exact h post k j pre (List.cons.inj hl).2

namespace Runner

/-- A state of `main_runner` in which each frame has kept its order so far. -/
structure RespectsOrder (P : ℕ) (M : Runner n) : Prop where
  /-- `AddDependency` has not ended the process. -/
  no_exit : M.system.frame.inExit = false
  functions : ∀ j < M.system.nextJob,
    (M.system.jobs j).jobFunction = some (updateFunction P j).address
  /-- In each frame the documented predecessors of a job have returned before it starts. -/
  ordered : ∀ post k j pre, M.system.history = post ++ .start k j :: pre →
    ∀ x, SameFrame P j x → updateFunction P x ∈ (updateFunction P j).dependencies →
      ∃ k', .ret k' x ∈ pre

/-- A state of `main_runner` in which its frames have done, so far, what serial frames do. -/
structure RefinesSerial (F P : ℕ) (M : Runner n) : Prop extends M.RespectsOrder P where
  /-- Where `WaitForAllJobs` reads 0, all calls have run each function as often as `F` serial
  frames, the particles `P` times as often. -/
  complete : M.system.frame = .waitPredicate → M.system.jobsToDo = 0 →
    0 < M.passes ∧ M.system.nextJob = M.passes * (F * (7 + P)) ∧
    ∀ call < M.passes, ∀ f : UpdateFunction,
      (M.system.ranIn Event.started (F * (7 + P)) call).count f.address = F * f.times P ∧
      (M.system.ranIn Event.returned (F * (7 + P)) call).count f.address = F * f.times P
  barrier : Barrier (F * (7 + P)) M.system.history
  /-- With one frame and one particle job a call runs what `UpdateSerial` runs, in an order that
  respects the same dependencies. -/
  serial : F = 1 → P = 1 → M.system.frame = .waitPredicate → M.system.jobsToDo = 0 →
    ∀ call < M.passes, ∃ l : List UpdateFunction,
      M.system.ranIn Event.started 8 call = l.map address ∧ l.Perm updateSerial ∧
      l.Pairwise fun f f' => f' ∉ f.dependencies

variable [NeZero n]

namespace Orderly

theorem functions (h : M.Orderly m F P) (hj : j < M.system.nextJob) :
    (M.system.jobs j).jobFunction = some (updateFunction P j).address := h.kept.functions hj

/-- A job depends on jobs of its frame only. -/
theorem fewEdges (h : M.Orderly m F P) (hP : P ≤ 12) : M.system.FewEdges := by
  intro j
  have hpos : 0 < 7 + P := Nat.add_pos_left (by decide) P
  have hsub : M.system.edges j ⊆
      Finset.Ico (j / (7 + P) * (7 + P)) (j / (7 + P) * (7 + P) + (7 + P)) ×ˢ
        Finset.range maxDependentCount := by
    rintro ⟨x, i⟩ he
    have hsame : SameFrame P j x :=
      h.kept.related ((reachable_recorded h.reachable).links.mpr ⟨i, he⟩)
    refine Finset.mem_product.mpr
      ⟨Finset.mem_Ico.mpr ?_, Finset.mem_range.mpr (mem_edges.mp he).2.1⟩
    exact (sameFrame_iff (Nat.dvd_mul_left _ _)
      ⟨Nat.div_mul_le_self j _, Nat.lt_div_mul_add hpos⟩).mp hsame
  refine (Finset.card_le_card hsub).trans_lt ?_
  rw [Finset.card_product, Nat.card_Ico, Finset.card_range, Nat.add_sub_cancel_left]
  unfold maxDependentCount
  omega

/-- A job that has been started is added, and so its dependencies are declared. -/
theorem ordered (h : M.Orderly m F P) (hP : P ≤ 12)
    (hs : M.system.history = post ++ .start k j :: pre) (hx : SameFrame P j x)
    (hdep : updateFunction P x ∈ (updateFunction P j).dependencies) : ∃ k', .ret k' x ∈ pre := by
  have ho := reachable_ownership h.reachable
  have hlog := reachable_order h.reachable (h.fewEdges hP)
  have hstart : M.system.Started j :=
    (reachable_recorded h.reachable).start_mem_order.mp (start_mem_order (k := k) (by simp [hs]))
  have hj : M.system.lifecycle j ≠ .unallocated ∧ M.system.lifecycle j ≠ .created := by
    rcases hstart with hl | hl <;> simp [hl]
  have hd : M.system.DependsOn j x := h.kept.needs (ho.lt_nextJob hj.1) hj.2 ⟨hx, hdep⟩
  have hsplit : M.system.order =
      post.filterMap Event.order ++ .start j :: pre.filterMap Event.order := by
    simp [State.order, hs, Event.order]
  rw [← dependsOn_order] at hd
  rw [hsplit] at hlog hd
  exact exists_ret_of_mem_order (Precedence.ret_before_start hlog hd)

/-- No function of a frame starts before one that it depends on. -/
theorem independent_of_earlier (h : M.Orderly m F P) (hP : P ≤ 12)
    (hs : M.system.history = post ++ .start k j :: pre) {k' : Fin n} (hx : .start k' x ∈ pre)
    (hsame : SameFrame P x j) : updateFunction P j ∉ (updateFunction P x).dependencies := by
  intro hdep
  obtain ⟨mid, pre', rfl⟩ := List.append_of_mem hx
  have hs' : M.system.history = (post ++ .start k j :: mid) ++ .start k' x :: pre' := by simp [hs]
  obtain ⟨k'', hret⟩ := h.ordered hP hs' hsame hdep
  have hlog := reachable_order h.reachable (h.fewEdges hP)
  have hsplit : M.system.order = post.filterMap Event.order ++
      .start j :: (mid ++ .start k' x :: pre').filterMap Event.order := by
    simp [State.order, hs, Event.order]
  rw [hsplit] at hlog
  refine (Precedence.permitted_of_split _ hlog).1 (Precedence.start_of_ret ?_ ?_)
  · exact (Precedence.reachable_cons (Precedence.reachable_suffix _ hlog)).1
  · exact List.mem_filterMap.mpr ⟨.ret k'' j, by simp [hret], rfl⟩

/-- Where `WaitForAllJobs` reads 0, all jobs of all calls so far are done. -/
theorem done_of_zero (h : M.Orderly m F P) (hN : F * (7 + P) < 2 ^ 32)
    (hw : M.system.frame = .waitPredicate) (h0 : M.system.jobsToDo = 0) :
    0 < M.passes ∧ M.system.nextJob = M.passes * (F * (7 + P)) ∧
      ∀ j < M.system.nextJob, M.system.Done j := by
  obtain ⟨hc, hpos⟩ := h.placed.waiting (by rw [hw]; rfl)
  have hnumber := h.numbered
  rw [hc] at hnumber
  exact ⟨hpos, hnumber, fun j hj => (h.settled_of_zero hN hc h0 hj).1⟩

theorem complete (h : M.Orderly m F P) (hF : 0 < F) (hN : F * (7 + P) < 2 ^ 32)
    (hw : M.system.frame = .waitPredicate) (h0 : M.system.jobsToDo = 0) {call : ℕ}
    (hcall : call < M.passes) (f : UpdateFunction) :
    (M.system.ranIn Event.started (F * (7 + P)) call).count f.address = F * f.times P ∧
      (M.system.ranIn Event.returned (F * (7 + P)) call).count f.address = F * f.times P := by
  obtain ⟨-, hnext, hdone⟩ := h.done_of_zero hN hw h0
  have hfun : ∀ j < M.system.nextJob, _ := fun j hj => h.functions hj
  refine ⟨count_ranIn hF hnext hcall hfun (fun j hj => ?_) f,
    count_ranIn hF hnext hcall hfun (fun j hj => ?_) f⟩
  · rw [← (hdone j hj).starts, State.starts]
    exact List.countP_congr fun e _ => by rw [decide_eq_true_iff, startOf_iff]
  · rw [← (hdone j hj).returns, State.returns]
    exact List.countP_congr fun e _ => by rw [decide_eq_true_iff, returnOf_iff]

theorem serial (h : M.Orderly m 1 1) (hw : M.system.frame = .waitPredicate)
    (h0 : M.system.jobsToDo = 0) {call : ℕ} (hcall : call < M.passes) :
    ∃ l : List UpdateFunction, M.system.ranIn Event.started 8 call = l.map address ∧
      l.Perm updateSerial ∧ l.Pairwise fun f f' => f' ∉ f.dependencies := by
  obtain ⟨-, hnext, -⟩ := h.done_of_zero (by decide) hw h0
  have hcount := h.complete Nat.one_pos (by decide) hw h0 hcall
  set g : Event n → Option UpdateFunction := fun e =>
    e.started.bind fun j => if j / 8 = call then some (updateFunction 1 j) else none with hg
  have hstart {e : Event n} {f} (hf : g e = some f) :
      ∃ k j, e = .start k j ∧ j / 8 = call ∧ updateFunction 1 j = f := by
    cases e with
    | start k j =>
      obtain ⟨hj, rfl⟩ : j / 8 = call ∧ updateFunction 1 j = f := by
        simpa [hg, Event.started] using hf
      exact ⟨k, j, rfl, hj, rfl⟩
    | _ => simp [hg, Event.started] at hf
  have hran : M.system.ranIn Event.started 8 call =
      (M.system.history.reverse.filterMap g).map address := by
    rw [State.ranIn, List.map_filterMap]
    refine congrArg (List.filterMap · _) (funext fun e => ?_)
    cases he : e.started with
    | none => simp [hg, he]
    | some j =>
      by_cases hj : j / 8 = call
      · have hlt : j < M.system.nextJob := by
          rw [hnext]
          exact (Nat.div_lt_iff_lt_mul (by decide)).mp (hj ▸ hcall)
        simp [hg, he, hj, h.functions hlt]
      · simp [hg, he, hj]
  refine ⟨_, hran, List.perm_iff_count.mpr fun f => ?_, ?_⟩
  · rw [← List.count_map_of_injective _ address address_injective, ← hran]
    refine (hcount f).1.trans ?_
    cases f <;> rfl
  · rw [List.filterMap_reverse, List.pairwise_reverse, List.pairwise_filterMap]
    refine pairwise_of_split fun post e pre hs e' he' f hf f' hf' => ?_
    obtain ⟨k, j, rfl, hj, rfl⟩ := hstart hf
    obtain ⟨k', x, rfl, hx, rfl⟩ := hstart hf'
    exact h.independent_of_earlier (by decide) hs he' (hx.trans hj.symm)

/-- A job that starts is of the current call, and the calls before have ended. -/
theorem barrier_step (h : M.Orderly m F P) (hF : 0 < F) (hN : F * (7 + P) < 2 ^ 32)
    (ht : StepCase m M.system a t)
    (hs : Barrier (F * (7 + P)) M.system.history) : Barrier (F * (7 + P)) t.history := by
  have ho := reachable_ownership h.reachable
  have hpos : 0 < F * (7 + P) := Nat.mul_pos hF (Nat.add_pos_left (by decide) P)
  obtain he | ⟨e, he, hstart⟩ := ht.history
  · rwa [he]
  · rw [he]
    refine hs.cons fun k j hj x hx => ?_
    obtain ⟨hp, -⟩ := hstart k j hj
    have hl : M.system.lifecycle j = .submitted :=
      ho.submitted_of_hand (k := k) (by rw [hp]; rfl) (by rw [hp]; rfl)
    have hlt : j < M.passes * (F * (7 + P)) :=
      (ho.lt_nextJob (by simp [hl])).trans_le h.nextJob_le
    have hpast : x < (M.passes - 1) * (F * (7 + P)) := by
      have hcall := (Nat.div_lt_iff_lt_mul hpos).mpr hlt
      exact (Nat.div_lt_iff_lt_mul hpos).mp (by omega)
    have hret : M.system.Returned x := .inl (h.past hN x hpast).finished
    exact exists_ret_of_mem_order ((reachable_recorded h.reachable).ret_mem_order.mpr hret)

end Orderly

theorem reachable_barrier (hF : 0 < F) (hP : P ≤ 12) (hN : F * (7 + P) < 2 ^ 32)
    (h : (mainRunner n m F P).Reachable M) : Barrier (F * (7 + P)) M.system.history := by
  refine h.invariant (I := fun M => Barrier (F * (7 + P)) M.system.history) (fun _ hi => ?_)
    fun M r N hr hb hN' => ?_
  · subst hi
    exact Barrier.nil
  · have hM := reachable_orderly hP hr
    obtain he | ⟨a, ht⟩ := hM.system_step (runner_cases hN')
    · rwa [he]
    · exact hM.barrier_step hF hN (step_cases ht) hb

/-- Parallel frames refine serial frames, for any number of frames in a call, up to 12 particle
jobs in each, any number of workers and of calls, and however all is interleaved, as long as
`jobsToDo` can count the jobs of a call. Without that, each frame still keeps its order. -/
theorem frames_refine_serial (hF : 0 < F) (hP : P ≤ 12) (h : (mainRunner n m F P).Reachable M) :
    M.RespectsOrder P ∧ (F * (7 + P) < 2 ^ 32 → M.RefinesSerial F P) := by
  have hM := reachable_orderly hP h
  have horder : M.RespectsOrder P :=
    { no_exit := hM.placed.exiting
      functions := fun j hj => hM.functions hj
      ordered := fun post k j pre hs x hx hdep => hM.ordered hP hs hx hdep }
  refine ⟨horder, fun hN =>
    { toRespectsOrder := horder
      complete := fun hw h0 => ?_
      barrier := reachable_barrier hF hP hN h
      serial := fun hF hP hw h0 call hcall => ?_ }⟩
  · obtain ⟨hpos, hnext, -⟩ := hM.done_of_zero hN hw h0
    exact ⟨hpos, hnext, fun call hcall f => hM.complete hF hN hw h0 hcall f⟩
  · subst hF hP
    exact hM.serial hw h0 hcall

/-- The calls of a list one after the other, each from its first step to its last. -/
def callActions (l : List Call) : List (RunnerAction n) := l.flatMap fun
  | .addJob _ => .call :: .replicate 6 (.inside .frame)
  | _ => [.call]

/-- Eight workers, each with one of the eight jobs of a call. -/
theorem frames_refine_serial_one_pass : ∃ M : Runner 8, M.passes = 1 ∧
    M.system.frame = .waitPredicate ∧ M.system.jobsToDo = 0 ∧ M.RefinesSerial 1 1 := by
  have hrun : (run (guarded (fun _ _ => True) (runnerNext .conditionVariable 1 1))
      ({ system := init, calls := [], left := false, passes := 0 } : Runner 8)
      (.loop :: callActions (updateParallel 1 1 0) ++
        [(4, 16), (2, 21), (5, 21), (3, 13), (6, 13), (0, 16), (1, 11), (7, 11)].flatMap fun e =>
          .replicate e.2 (.inside (.worker e.1 {})))).any (fun M => M.passes = 1 ∧
      M.system.frame = .waitPredicate ∧ M.system.jobsToDo = 0) = true := by decide +kernel
  obtain ⟨M, hM, hp⟩ := (Option.any_eq_true _ _).mp hrun
  obtain ⟨h1, hw, h0⟩ := of_decide_eq_true hp
  have hr : (mainRunner 8 .conditionVariable 1 1).Reachable M :=
    (reachable_of_run (.init rfl) hM).of_restrict
  exact ⟨M, h1, hw, h0, (frames_refine_serial (by decide) (by decide) hr).2 (by decide)⟩

/-- `2 ^ 29` frames with one particle job each bring `jobsToDo` back to 0 before any job starts. -/
theorem frames_not_refine_serial : ¬ ∀ M : Runner 1,
    (mainRunner 1 .conditionVariable (2 ^ 29) 1).Reachable M → M.RefinesSerial (2 ^ 29) 1 := by
  intro hall
  obtain ⟨M, hM, hcalm, hw, hpasses, hcount⟩ :=
    exists_calm_wait 1 .conditionVariable (2 ^ 29) (P := 1) (by decide)
  have h0 : M.system.jobsToDo = 0 := hcount
  obtain ⟨-, -, hran⟩ := (hall M hM).complete hw h0
  have hnone : M.system.ranIn Event.started (2 ^ 29 * (7 + 1)) 0 = [] := by
    refine List.filterMap_eq_nil_iff.mpr fun e he => ?_
    cases e with
    | start k j => exact absurd (List.mem_reverse.mp he) (hcalm.unstarted k j)
    | _ => rfl
  obtain ⟨hinput, -⟩ := hran 0 (by omega) input
  rw [hnone] at hinput
  exact absurd hinput (by decide)

end Runner

end JobSystem
