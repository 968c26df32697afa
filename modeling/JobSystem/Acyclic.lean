import JobSystem.Frames

/-! The dependencies that `UpdateParallel` declares are those noted beside the update functions and
no others. So they have no cycle, and all jobs of a call can run once it waits for them. -/
namespace JobSystem
open TransitionSystem UpdateFunction
variable {n : ℕ} {m : WaitMode} {F P : ℕ} {M N : Runner n} {s : State n} {j d x : JobId} {o i : ℕ}

/-- The dependency is one of the documented ones. -/
def Documented (P : ℕ) (d x : JobId) : Prop :=
  updateFunction P x ∈ (updateFunction P d).dependencies

/-- How many functions are on the longest way down to one without dependencies. -/
def UpdateFunction.level : UpdateFunction → ℕ
  | input | sound => 0
  | physics => 1
  | collision | gameElements => 2
  | animation | particles => 3
  | rendering => 4

theorem Documented.level_lt (h : Documented P d x) :
    (updateFunction P x).level < (updateFunction P d).level := by
  have hall : ∀ f f' : UpdateFunction, f' ∈ f.dependencies → f'.level < f.level := by
    intro f f' hf
    cases f <;> cases f' <;> first | decide | (revert hf; decide)
  exact hall _ _ h

theorem documented_add {B : ℕ} (hB : 7 + P ∣ B) (ho : o < 7 + P) (hi : i < 7 + P)
    (h : functionAt i ∈ (functionAt o).dependencies) : Documented P (B + o) (B + i) := by
  unfold Documented
  rwa [updateFunction_add hB ho, updateFunction_add hB hi]

theorem documented_of_mem_frameLinks {B : ℕ} (hB : 7 + P ∣ B) (h : (d, x) ∈ frameLinks B) :
    Documented P d x := by
  have hlinks : ∀ e ∈ frameLinks 0, functionAt e.2 ∈ (functionAt e.1).dependencies := by decide
  have hshift : frameLinks B = (frameLinks 0).map fun e => (B + e.1, B + e.2) := rfl
  rw [hshift] at h
  obtain ⟨e, he, hdx⟩ := List.mem_map.mp h
  obtain ⟨rfl, rfl⟩ := Prod.mk.inj hdx
  obtain ⟨⟨-, h1⟩, -, h2⟩ := frameLinks_bounds (d := e.1) (x := e.2) he
  exact documented_add hB (by omega) (by omega) (hlinks e he)

theorem documented_of_mem_frameCalls {B : ℕ} (hB : 7 + P ∣ B)
    (h : .addDependency d x ∈ frameCalls P B) : Documented P d x := by
  have hparticle (o : ℕ) : functionAt (7 + o) = particles := by
    rw [Nat.add_comm]
    rfl
  rw [frameCalls_eq, frameStart] at h
  simp only [List.mem_append, List.mem_map, List.mem_flatMap, List.mem_range, particleCalls,
    List.mem_cons, List.not_mem_nil, or_false, reduceCtorEq, and_false, exists_false, false_or,
    Call.addDependency.injEq] at h
  obtain ⟨⟨d', x'⟩, he, rfl, rfl⟩ | ⟨o, ho, ⟨rfl, rfl⟩ | ⟨rfl, rfl⟩⟩ := h
  · exact documented_of_mem_frameLinks hB he
  · rw [Nat.add_assoc]
    apply documented_add hB (by omega) (by omega)
    rw [hparticle]
    decide
  · rw [Nat.add_assoc]
    apply documented_add hB (by omega) (by omega)
    rw [hparticle]
    decide

theorem documented_of_mem_updateParallel {B : ℕ} (hB : 7 + P ∣ B)
    (h : .addDependency d x ∈ updateParallel F P B) : Documented P d x := by
  simp only [updateParallel, List.mem_append, List.mem_flatMap, List.mem_singleton, reduceCtorEq,
    or_false] at h
  obtain ⟨i, -, h⟩ := h
  exact documented_of_mem_frameCalls (Nat.dvd_add hB (Nat.dvd_mul_left (7 + P) i)) h

/-- Documented dependencies lead down, so that no way along them comes back. -/
theorem level_lt_of_transGen (hdoc : ∀ d x, s.DependsOn d x → Documented P d x)
    (h : Relation.TransGen s.DependsOn d x) :
    (updateFunction P x).level < (updateFunction P d).level := by
  induction h with
  | single h => exact (hdoc _ _ h).level_lt
  | tail _ h ih => exact (hdoc _ _ h).level_lt.trans ih

namespace Runner

/-- All dependencies are documented, the declared ones and those that are still to be declared. -/
structure KeepsToNotes (P : ℕ) (M : Runner n) : Prop where
  calls : ∀ d x, .addDependency d x ∈ M.calls → Documented P d x
  dependsOn : ∀ d x, M.system.DependsOn d x → Documented P d x

variable [NeZero n]

theorem reachable_keepsToNotes (hP : P ≤ 12) (h : (mainRunner n m F P).Reachable M) :
    M.KeepsToNotes P := by
  refine h.invariant (fun M hi => ?_) fun M r N hr hM hN => ?_
  · obtain rfl : M = _ := hi
    exact ⟨fun _ _ hc => by simp at hc, fun _ _ hd => absurd hd List.not_mem_nil⟩
  have hord := reachable_orderly hP hr
  cases runner_cases hN with
  | inside ha ht =>
    have hbook := (step_cases (Orderly.step_inside ha ht)).book
      (reachable_ownership hord.reachable) ha
    refine ⟨hM.calls, fun d x hd => hM.dependsOn d x ?_⟩
    have hd' : M.system.book.dependsOn d x := hbook ▸ hd
    exact hd'
  | @call c l hc hi hj =>
    have hbook := book_of_allows (hord.allows hc).1
    refine ⟨fun d x hmem => hM.calls d x (hc ▸ List.mem_cons_of_mem c hmem), fun d x hd => ?_⟩
    have hd' : (M.system.book.after c).dependsOn d x := hbook ▸ hd
    cases c with
    | addDependency d' x' =>
      obtain ⟨rfl, rfl⟩ | hd' := hd'
      · exact hM.calls d x (hc ▸ List.mem_cons_self)
      · exact hM.dependsOn d x hd'
    | _ => exact hM.dependsOn d x hd'
  | pass hc hi hr =>
    refine ⟨fun d x hmem => documented_of_mem_updateParallel ?_ hmem, hM.dependsOn⟩
    have hnumber := hord.numbered
    rw [hc] at hnumber
    have hnext : M.system.nextJob = M.passes * (F * (7 + P)) := hnumber
    rw [hnext, ← Nat.mul_assoc]
    exact Nat.dvd_mul_left (7 + P) _
  | leave => exact ⟨fun _ _ hmem => by simp at hmem, hM.dependsOn⟩

/-- All calls made, every job that has been created has been added. -/
theorem Orderly.submitted_of_calls_nil (h : M.Orderly m F P) (hc : M.calls = [])
    (hj : j < M.system.nextJob) : M.system.Submitted j := by
  have hadded := h.added j
  rw [hc] at hadded
  refine ⟨fun hu => ?_, hadded⟩
  exact absurd ((reachable_ownership h.reachable).unallocated.mp hu) (Nat.not_le_of_lt hj)

/-- And can run. -/
theorem runnable_of_calls_nil (hP : P ≤ 12) (h : (mainRunner n m F P).Reachable M)
    (hc : M.calls = []) (hj : M.system.Submitted j) : M.system.Runnable j := by
  have hord := reachable_orderly hP h
  have hnotes := reachable_keepsToNotes hP h
  have hrec := reachable_recorded hord.reachable
  apply runnable_of_acyclic hj
  · intro d x hd
    obtain ⟨i, hi⟩ := hrec.links.mp hd
    exact hord.submitted_of_calls_nil hc (mem_edges.mp hi).1
  · exact fun x hx => (level_lt_of_transGen hnotes.dependsOn hx).false

/-- `UpdateParallel` declares what is documented: in every run no job depends on itself, not even
through others; an added job depends on the jobs of its frame whose functions are noted beside its
own, and on no others; and once all calls are made, every added job can run. -/
theorem declares_documented (hP : P ≤ 12) (h : (mainRunner n m F P).Reachable M) :
    (∀ x, ¬ Relation.TransGen M.system.DependsOn x x) ∧
    ∀ j, M.system.Submitted j →
      (∀ x, M.system.DependsOn j x ↔ SameFrame P j x ∧
        updateFunction P x ∈ (updateFunction P j).dependencies) ∧
      (M.calls = [] → M.system.Runnable j) := by
  have hord := reachable_orderly hP h
  have hnotes := reachable_keepsToNotes hP h
  refine ⟨fun x hx => (level_lt_of_transGen hnotes.dependsOn hx).false, fun j hj => ?_⟩
  refine ⟨fun x => ⟨fun hd => ?_, fun hneeds => ?_⟩, fun hc => ?_⟩
  · exact ⟨hord.kept.related hd, hnotes.dependsOn j x hd⟩
  · have hlt := (reachable_ownership hord.reachable).lt_nextJob hj.1
    exact hord.kept.needs hlt hj.2 hneeds
  · exact runnable_of_calls_nil hP h hc hj

/-- The rendering job of the first frame, when `main_runner` waits for it. -/
theorem declares_documented_rendering : ∃ M : Runner 2, M.system.frame = .waitPredicate ∧
    M.system.Runnable 5 ∧ ∀ x, M.system.DependsOn 5 x ↔
      SameFrame 1 5 x ∧ updateFunction 1 x ∈ [animation, particles, gameElements] := by
  obtain ⟨M, hr, -, hw, hpasses, -⟩ := exists_calm_wait 2 .conditionVariable 1 (P := 1) (by decide)
  have hord := reachable_orderly (by decide) hr
  have hc := (hord.placed.waiting (by rw [hw]; rfl)).1
  have hnumber := hord.numbered
  rw [hc] at hnumber
  have hnext : M.system.nextJob = 8 := hnumber.trans (by rw [hpasses])
  have hj : M.system.Submitted 5 := hord.submitted_of_calls_nil hc (by rw [hnext]; decide)
  obtain ⟨hdep, hrun⟩ := (declares_documented (by decide) hr).2 5 hj
  exact ⟨M, hw, hrun hc, hdep⟩

end Runner

end JobSystem
