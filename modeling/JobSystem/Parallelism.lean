import JobSystem.Frames
import JobSystem.SerialExecutors

/-! How much there is at the same time. The dependencies of a frame leave `P + 3` chains, and of the
jobs of a chain one at most is in its function; the jobs in memory are those of one call. -/
namespace JobSystem
open TransitionSystem UpdateFunction
variable {n : ℕ} {m : WaitMode} {F P : ℕ} {M : Runner n} {k k' : Fin n} {j x : JobId}
  {s : State n} {o o' : ℕ}

/-- The places of the jobs from input over physics, collision and animation to rendering, last
first. -/
def mainChain : List ℕ := [5, 3, 2, 1, 0]

/-- The chain on which the job at this place of a frame lies: the main one, or one of its own. -/
def chainAt : ℕ → ℕ
  | 4 => 1
  | 6 => 2
  | 0 | 1 | 2 | 3 | 5 => 0
  | i + 7 => i + 3

theorem chainAt_lt (ho : o < 7 + P) : chainAt o < P + 3 := by
  obtain _ | _ | _ | _ | _ | _ | _ | i := o <;> simp only [chainAt] <;> omega

theorem mem_mainChain_of_chainAt (h : chainAt o = chainAt o') (hne : o ≠ o') :
    o ∈ mainChain ∧ o' ∈ mainChain := by
  obtain _ | _ | _ | _ | _ | _ | _ | i := o <;> obtain _ | _ | _ | _ | _ | _ | _ | i' := o' <;>
    simp only [chainAt] at h <;> first | omega | decide

/-- Each job of the main chain needs all that come before it. -/
theorem mainChain_pairwise {B : ℕ} (hB : 7 + P ∣ B) :
    (mainChain.map (B + ·)).Pairwise (Relation.TransGen (framePlan P).needs) := by
  have link {o i : ℕ} (ho : o < 7) (hi : i < 7)
      (h : functionAt i ∈ (functionAt o).dependencies) :
      Relation.TransGen (framePlan P).needs (B + o) (B + i) :=
    .single ((needs_add hB (by omega)).mpr ⟨i, by omega, rfl, h⟩)
  apply List.IsChain.pairwise
  show List.IsChain _ [B + 5, B + 3, B + 2, B + 1, B + 0]
  refine .cons_cons (link ?_ ?_ ?_) (.cons_cons (link ?_ ?_ ?_)
    (.cons_cons (link ?_ ?_ ?_) (.cons_cons (link ?_ ?_ ?_) (.singleton _)))) <;> decide

namespace Runner
variable [NeZero n]

namespace Orderly

/-- What a job that has been started needs, directly or not, is declared. -/
theorem dependsOn_of_needs (h : M.Orderly m F P) (hP : P ≤ 12) (hs : M.system.Started j)
    (hx : Relation.TransGen (framePlan P).needs j x) :
    Relation.TransGen M.system.DependsOn j x := by
  have ho := reachable_ownership h.reachable
  have hstep {y z : JobId} (hy : M.system.Started y) (hz : (framePlan P).needs y z) :
      M.system.DependsOn y z := by
    have hl : M.system.lifecycle y ≠ .unallocated ∧ M.system.lifecycle y ≠ .created := by
      rcases hy with hl | hl <;> simp [hl]
    exact h.kept.needs (ho.lt_nextJob hl.1) hl.2 hz
  induction hx with
  | single hx => exact .single (hstep hs hx)
  | tail _ hx ih =>
    have hret := returned_of_started h.reachable (h.fewEdges hP) hs ih
    exact ih.tail (hstep (ho.started_of_returned hret) hx)

/-- Of two jobs of a chain that have been started, one waits for the other. -/
theorem comparable (h : M.Orderly m F P) (hP : P ≤ 12) (hj : M.system.Started j)
    (hx : M.system.Started x) (hframe : SameFrame P j x)
    (hchain : chainAt (j % (7 + P)) = chainAt (x % (7 + P))) (hne : j ≠ x) :
    Relation.TransGen M.system.DependsOn j x ∨ Relation.TransGen M.system.DependsOn x j := by
  have hdiv {y : ℕ} : y / (7 + P) * (7 + P) + y % (7 + P) = y := Nat.div_add_mod' y (7 + P)
  have hmod : j % (7 + P) ≠ x % (7 + P) := by
    intro hmod
    apply hne
    rw [← hdiv (y := j), ← hdiv (y := x), hmod, show j / (7 + P) = x / (7 + P) from hframe]
  obtain ⟨hj', hx'⟩ := mem_mainChain_of_chainAt hchain hmod
  have hpair := mainChain_pairwise (P := P) (Nat.dvd_mul_left (7 + P) (j / (7 + P)))
  have hmem {y : ℕ} (hy : y / (7 + P) = j / (7 + P)) (hm : y % (7 + P) ∈ mainChain) :
      y ∈ mainChain.map (j / (7 + P) * (7 + P) + ·) :=
    List.mem_map.mpr ⟨_, hm, by rw [← hy]; exact hdiv⟩
  obtain ⟨i, hi, hij⟩ := List.getElem_of_mem (hmem rfl hj')
  obtain ⟨i', hi', hix⟩ := List.getElem_of_mem (hmem hframe.symm hx')
  obtain hlt | rfl | hlt := lt_trichotomy i i'
  · have hneeds := List.pairwise_iff_getElem.mp hpair i i' hi hi' hlt
    rw [hij, hix] at hneeds
    exact .inl (h.dependsOn_of_needs hP hj hneeds)
  · exact absurd (hij.symm.trans hix) hne
  · have hneeds := List.pairwise_iff_getElem.mp hpair i' i hi' hi hlt
    rw [hij, hix] at hneeds
    exact .inr (h.dependsOn_of_needs hP hx hneeds)

/-- A function that is running belongs to the current call of `UpdateParallel`. -/
theorem running_current (h : M.Orderly m F P) (hN : F * (7 + P) < 2 ^ 32)
    (hk : M.system.worker k = .running j) :
    (M.passes - 1) * F ≤ j / (7 + P) ∧ j / (7 + P) < M.passes * F := by
  have ho := reachable_ownership h.reachable
  have hl : M.system.lifecycle j = .running := ho.running_of_startedJob (k := k) (by rw [hk]; rfl)
  have hpos : 0 < 7 + P := by omega
  constructor
  · rw [Nat.le_div_iff_mul_le hpos, Nat.mul_assoc]
    by_contra hlt
    have hsettled := h.past hN j (Nat.lt_of_not_le hlt)
    exact absurd (hl.symm.trans hsettled.finished) (by decide)
  · rw [Nat.div_lt_iff_lt_mul hpos, Nat.mul_assoc]
    exact (ho.lt_nextJob (by simp [hl])).trans_le h.nextJob_le

end Orderly

/-- However many workers there are, `F` frames with `P` particle jobs each keep at most
`F * (P + 3)` of them busy at the same time. -/
theorem card_runningWorkers_le (hP : P ≤ 12) (hN : F * (7 + P) < 2 ^ 32)
    (h : (mainRunner n m F P).Reachable M) :
    M.system.runningWorkers.card ≤ F * (P + 3) := by
  have hM := reachable_orderly hP h
  have ho := reachable_ownership hM.reachable
  have hstarted {k j} (hk : M.system.worker k = .running j) : M.system.Started j :=
    .inl (ho.running_of_startedJob (k := k) (by rw [hk]; rfl))
  calc M.system.runningWorkers.card
      ≤ (Finset.Ico ((M.passes - 1) * F) (M.passes * F) ×ˢ Finset.range (P + 3)).card := by
        apply card_running_le hM.reachable (hM.fewEdges hP) _
          fun j => (j / (7 + P), chainAt (j % (7 + P)))
        · intro k j hk
          rw [Finset.mem_product, Finset.mem_Ico, Finset.mem_range]
          exact ⟨hM.running_current hN hk, chainAt_lt (Nat.mod_lt _ (by omega))⟩
        · intro k j k' x hk hk' he
          exact hM.comparable hP (hstarted hk) (hstarted hk') (congrArg Prod.fst he)
            (congrArg Prod.snd he)
    _ = (M.passes * F - (M.passes - 1) * F) * (P + 3) := by
        rw [Finset.card_product, Nat.card_Ico, Finset.card_range]
    _ ≤ F * (P + 3) := by
        rw [← Nat.sub_mul]
        exact Nat.mul_le_mul_right _ ((Nat.mul_le_mul_right F (by omega)).trans_eq (Nat.one_mul F))

/-- The bound is reached: animation, particles, game elements and sound at the same time. -/
theorem card_runningWorkers_four : ∃ M : Runner 8,
    (mainRunner 8 .conditionVariable 1 1).Reachable M ∧ M.system.runningWorkers.card = 4 ∧
      M.system.runningWorkers.card ≤ 1 * (1 + 3) := by
  have hrun : (run (guarded (fun _ _ => True) (runnerNext .conditionVariable 1 1))
      ({ system := init, calls := [], left := false, passes := 0 } : Runner 8)
      (.loop :: callActions (updateParallel 1 1 0) ++
        [(4, 16), (2, 21), (5, 21), (3, 7), (0, 7), (6, 7), (7, 7)].flatMap fun e =>
          .replicate e.2 (.inside (.worker e.1 {})))).any
      (fun M => M.system.runningWorkers.card = 4) = true := by decide +kernel
  obtain ⟨M, hM, hp⟩ := (Option.any_eq_true _ _).mp hrun
  have hr : (mainRunner 8 .conditionVariable 1 1).Reachable M :=
    (reachable_of_run (.init rfl) hM).of_restrict
  exact ⟨M, hr, of_decide_eq_true hp, card_runningWorkers_le (by decide) (by decide) hr⟩

/-- However long `main_runner` runs, and whenever it is told to quit, the jobs that have not been
deleted are of its latest call, so that memory is bounded and `jobsToDo` never wraps. -/
theorem live_jobs_bounded (hP : P ≤ 12) (hN : F * (7 + P) < 2 ^ 32)
    (h : (mainRunner n m F P).Reachable M) :
    (∀ j < M.system.nextJob, M.system.lifecycle j ≠ .finished →
      (M.passes - 1) * (F * (7 + P)) ≤ j) ∧
    ((Finset.range M.system.nextJob).filter fun j => M.system.lifecycle j ≠ .finished).card ≤
      F * (7 + P) ∧
    M.system.jobsToDo.toNat = M.system.openJobs.card := by
  have hM := reachable_orderly hP h
  have hcurrent : ∀ j < M.system.nextJob, M.system.lifecycle j ≠ .finished →
      (M.passes - 1) * (F * (7 + P)) ≤ j := by
    intro j _ hj
    by_contra hlt
    exact hj (hM.past hN j (Nat.lt_of_not_le hlt)).finished
  refine ⟨hcurrent, ?_, ?_⟩
  · calc ((Finset.range M.system.nextJob).filter fun j => M.system.lifecycle j ≠ .finished).card
        ≤ (Finset.Ico ((M.passes - 1) * (F * (7 + P))) (M.passes * (F * (7 + P)))).card := by
          apply Finset.card_le_card
          intro j hj
          obtain ⟨hlt, hfin⟩ := Finset.mem_filter.mp hj
          have hlt := Finset.mem_range.mp hlt
          exact Finset.mem_Ico.mpr ⟨hcurrent j hlt hfin, hlt.trans_le hM.nextJob_le⟩
      _ = (M.passes - (M.passes - 1)) * (F * (7 + P)) := by
          rw [Nat.card_Ico, ← Nat.sub_mul]
      _ ≤ F * (7 + P) := (Nat.mul_le_mul_right _ (by omega)).trans_eq (Nat.one_mul _)
  · exact (reachable_openCounted hM.reachable).exact ((hM.card_openJobs hN).trans_lt hN)

/-- The eight jobs of a frame, when all are added and none is started. -/
theorem live_jobs_bounded_eight : ∃ M : Runner 2, M.system.jobsToDo = 8 ∧
    ((Finset.range M.system.nextJob).filter fun j => M.system.lifecycle j ≠ .finished).card = 8 ∧
    M.system.openJobs.card = 8 := by
  have hrun : (run (guarded (fun _ _ => True) (runnerNext .conditionVariable 1 1))
      ({ system := init, calls := [], left := false, passes := 0 } : Runner 2)
      (.loop :: callActions (updateParallel 1 1 0))).any
      (fun M => M.system.jobsToDo = 8 ∧
        ((Finset.range M.system.nextJob).filter fun j =>
          M.system.lifecycle j ≠ .finished).card = 8) = true := by decide +kernel
  obtain ⟨M, hM, hp⟩ := (Option.any_eq_true _ _).mp hrun
  obtain ⟨hcount, hlive⟩ := of_decide_eq_true hp
  have hr : (mainRunner 2 .conditionVariable 1 1).Reachable M :=
    (reachable_of_run (.init rfl) hM).of_restrict
  obtain ⟨-, -, hopen⟩ := live_jobs_bounded (by decide) (by decide) hr
  exact ⟨M, hcount, hlive, by rw [← hopen, hcount]; rfl⟩

end Runner

end JobSystem
