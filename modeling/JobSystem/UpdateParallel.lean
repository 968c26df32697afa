import JobSystem.Book

/-! The calls of `UpdateParallel` (`main.cpp`), for any `SIMULATENOUS_FRAME_COUNT` and
`PARTICLE_JOB_COUNT`, and that they follow the dependencies noted beside the update functions. -/
namespace JobSystem
variable {P : ℕ} {b : Book} {i o x : ℕ}

/-- The functions of `MAKE_UPDATE_FUNC`. -/
inductive UpdateFunction where
  | input | physics | collision | animation | particles | gameElements | rendering | sound
  deriving DecidableEq

namespace UpdateFunction

/-- `&UpdateInput`, `&UpdatePhysics` and so on. -/
def address : UpdateFunction → JobFunction
  | input => 0
  | physics => 1
  | collision => 2
  | animation => 3
  | particles => 4
  | gameElements => 5
  | rendering => 6
  | sound => 7

theorem address_injective : Function.Injective address := by
  intro f f' h
  cases f <;> cases f' <;> first | rfl | cases h

/-- The dependencies noted on the right side of the functions. -/
def dependencies : UpdateFunction → List UpdateFunction
  | input | sound => []
  | physics => [input]
  | collision | gameElements => [physics]
  | animation | particles => [collision]
  | rendering => [animation, particles, gameElements]

end UpdateFunction

open UpdateFunction

def updateSerial : List UpdateFunction :=
  [input, physics, collision, animation, particles, gameElements, rendering, sound]

/-- `UpdateSerial` runs nothing before what it depends on. -/
example : updateSerial.Pairwise fun f f' => f' ∉ f.dependencies := by decide

/-- One pass of the loop for the particle jobs. -/
def particleCalls (b : JobId) (i : ℕ) : List Call :=
  let updateCollisionJob := b + 2
  let updateRenderingJob := b + 5
  let updateParticlesJob := b + 7 + i
  [.createJob particles.address,
    .addDependency updateParticlesJob updateCollisionJob,
    .addDependency updateRenderingJob updateParticlesJob,
    .addJob updateParticlesJob]

/-- One pass of the outer loop, with `P` particle jobs and `b` the number of the next job. -/
def frameCalls (P : ℕ) (b : JobId) : List Call :=
  let updateInputJob := b
  let updatePhysicsJob := b + 1
  let updateCollisionJob := b + 2
  let updateAnimationJob := b + 3
  let updateGameElementsJob := b + 4
  let updateRenderingJob := b + 5
  let updateSoundJob := b + 6
  [.createJob input.address, .createJob physics.address, .createJob collision.address,
    .createJob animation.address, .createJob gameElements.address, .createJob rendering.address,
    .createJob sound.address] ++
  [.addDependency updatePhysicsJob updateInputJob,
    .addDependency updateCollisionJob updatePhysicsJob,
    .addDependency updateAnimationJob updateCollisionJob,
    .addDependency updateGameElementsJob updatePhysicsJob,
    .addDependency updateRenderingJob updateAnimationJob,
    .addDependency updateRenderingJob updateGameElementsJob] ++
  (List.range P).flatMap (particleCalls b) ++
  [.addJob updateRenderingJob, .addJob updatePhysicsJob, .addJob updateAnimationJob,
    .addJob updateInputJob, .addJob updateCollisionJob, .addJob updateGameElementsJob,
    .addJob updateSoundJob]

def updateParallel (F P : ℕ) (b : JobId) : List Call :=
  (List.range F).flatMap (fun i => frameCalls P (b + i * (7 + P))) ++ [.waitForAllJobs]

/-- The update function of the job created at this place of a frame. -/
def functionAt : ℕ → UpdateFunction
  | 0 => input
  | 1 => physics
  | 2 => collision
  | 3 => animation
  | 4 => gameElements
  | 5 => rendering
  | 6 => sound
  | _ => particles

/-- Every frame creates `7 + P` jobs, so that the numbers tell the functions. -/
def updateFunction (P : ℕ) (j : JobId) : UpdateFunction := functionAt (j % (7 + P))

/-- The jobs were created in the same pass of the outer loop. -/
def SameFrame (P : ℕ) (j x : JobId) : Prop := j / (7 + P) = x / (7 + P)

def framePlan (P : ℕ) : Plan where
  function j := (updateFunction P j).address
  needs j x := SameFrame P j x ∧ updateFunction P x ∈ (updateFunction P j).dependencies
  related := SameFrame P

/-- A number of some frame whose first job is `B`. -/
theorem updateFunction_add {B : ℕ} (hB : 7 + P ∣ B) (ho : o < 7 + P) :
    updateFunction P (B + o) = functionAt o := by
  obtain ⟨g, rfl⟩ := hB
  rw [updateFunction, Nat.mul_add_mod, Nat.mod_eq_of_lt ho]

theorem sameFrame_iff {B j : ℕ} (hB : 7 + P ∣ B) (hj : B ≤ j ∧ j < B + (7 + P)) :
    SameFrame P j x ↔ B ≤ x ∧ x < B + (7 + P) := by
  obtain ⟨g, rfl⟩ := hB
  have hpos : 0 < 7 + P := Nat.add_pos_left (by decide) P
  have hg : j / (7 + P) = g := by
    rw [Nat.div_eq_iff hpos, Nat.mul_comm g]
    omega
  rw [SameFrame, hg, eq_comm, Nat.div_eq_iff hpos, Nat.mul_comm g]
  omega

/-- What a job of the frame needs, by its place. -/
theorem needs_add {B : ℕ} (hB : 7 + P ∣ B) (ho : o < 7 + P) :
    (framePlan P).needs (B + o) x ↔
      ∃ i < 7 + P, x = B + i ∧ functionAt i ∈ (functionAt o).dependencies := by
  change SameFrame P (B + o) x ∧ _ ↔ _
  rw [sameFrame_iff hB ⟨Nat.le_add_right B o, Nat.add_lt_add_left ho B⟩, updateFunction_add hB ho]
  constructor
  · rintro ⟨⟨hle, hlt⟩, hx⟩
    obtain ⟨i, rfl⟩ := Nat.exists_eq_add_of_le hle
    have hi : i < 7 + P := Nat.lt_of_add_lt_add_left hlt
    exact ⟨i, hi, rfl, updateFunction_add hB hi ▸ hx⟩
  · rintro ⟨i, hi, rfl, hx⟩
    exact ⟨⟨Nat.le_add_right B i, Nat.add_lt_add_left hi B⟩, (updateFunction_add hB hi).symm ▸ hx⟩

/-- The places and their functions. -/
theorem functionAt_cases (o : ℕ) :
    o = 0 ∧ functionAt o = input ∨ o = 1 ∧ functionAt o = physics ∨
      o = 2 ∧ functionAt o = collision ∨ o = 3 ∧ functionAt o = animation ∨
      o = 4 ∧ functionAt o = gameElements ∨ o = 5 ∧ functionAt o = rendering ∨
      o = 6 ∧ functionAt o = sound ∨ 7 ≤ o ∧ functionAt o = particles := by
  obtain _ | _ | _ | _ | _ | _ | _ | i := o <;> simp [functionAt]

/-- The dependencies that a frame declares before its particle jobs. -/
def frameLinks (B : JobId) : List (JobId × JobId) :=
  [(B + 1, B), (B + 2, B + 1), (B + 3, B + 2), (B + 4, B + 1), (B + 5, B + 3), (B + 5, B + 4)]

/-- The jobs that a frame adds after its particle jobs. -/
def frameAdds (B : JobId) : List JobId := [B + 5, B + 1, B + 3, B, B + 2, B + 4, B + 6]

/-- The seven jobs and six dependencies before the loop for the particle jobs. -/
def frameStart (B : JobId) : List Call :=
  (List.range 7).map (fun o => .createJob (functionAt o).address) ++
    (frameLinks B).map fun e => .addDependency e.1 e.2

theorem frameCalls_eq (P : ℕ) (B : JobId) : frameCalls P B =
    frameStart B ++ (List.range P).flatMap (particleCalls B) ++ (frameAdds B).map .addJob := rfl

theorem frameLinks_bounds {B d x : ℕ} (h : (d, x) ∈ frameLinks B) :
    (B ≤ d ∧ d < B + 7) ∧ B ≤ x ∧ x < B + 7 := by
  simp only [frameLinks, List.mem_cons, Prod.mk.injEq, List.not_mem_nil, or_false] at h
  omega

/-- The book of the frame that starts with job `B`, after `i` particle jobs. -/
structure InFrame (B i : ℕ) (b : Book) : Prop where
  nextJob : b.nextJob = B + 7 + i
  created : ∀ j : ℕ, b.created j ↔ B ≤ j ∧ j < B + 7
  collision : b.dependents (B + 2) = 1 + i
  links : ∀ e ∈ frameLinks B, b.dependsOn e.1 e.2
  particle : ∀ o < i, b.dependsOn (B + 7 + o) (B + 2) ∧ b.dependsOn (B + 5) (B + 7 + o)

theorem inFrame_zero {B : ℕ} (hB : 7 + P ∣ B) (hn : b.nextJob = B) (hc : ∀ j, ¬ b.created j) :
    b.Follows (framePlan P) (frameStart B) ∧ InFrame B 0 (b.afterAll (frameStart B)) := by
  obtain ⟨hnext, hcreated, hdependents, -⟩ :=
    Book.after_creates b (fun o => (functionAt o).address) 7
  rw [frameStart, Book.follows_append, Book.afterAll_append]
  set b' := b.afterAll ((List.range 7).map fun o => .createJob (functionAt o).address)
  have hcreated' (j : ℕ) : b'.created j ↔ B ≤ j ∧ j < B + 7 := by
    rw [hcreated, hn, or_iff_left (hc j)]
  have hzero {j : ℕ} (hj : B ≤ j ∧ j < B + 7) : b'.dependents j = 0 := by
    rw [hdependents, hn, if_pos hj]
  obtain ⟨hf, ha⟩ := @Book.follows_links (framePlan P) b' (frameLinks B)
    (fun e he => by
      obtain ⟨hd, hx⟩ := frameLinks_bounds he
      refine ⟨(hcreated' _).mpr hd, (hcreated' _).mpr hx, (sameFrame_iff hB ?_).mpr ?_⟩ <;> omega)
    (fun e he => by
      rw [hzero (frameLinks_bounds he).2, Nat.zero_add]
      exact List.count_le_length.trans (show 6 ≤ maxDependentCount by decide))
  refine ⟨⟨Book.follows_creates 7 fun o ho => ?_, hf⟩, ?_⟩
  · change _ = (updateFunction P (b.nextJob + o)).address
    rw [hn, updateFunction_add hB (ho.trans_le (Nat.le_add_right 7 P))]
  · rw [ha]
    refine ⟨hnext.trans (by rw [hn]), hcreated', ?_, fun e he => .inl he, fun o ho => ?_⟩
    · change b'.dependents (B + 2) + _ = _
      rw [hzero (by omega)]
      simp [frameLinks]
    · exact absurd ho (Nat.not_lt_zero o)

/-- One pass of the loop for the particle jobs. -/
theorem InFrame.next {B : ℕ} (h : InFrame B i b) (hB : 7 + P ∣ B) (hi : i < P) (hP : P ≤ 12) :
    b.Follows (framePlan P) (particleCalls B i) ∧
      InFrame B (i + 1) (b.afterAll (particleCalls B i)) := by
  have ho : 7 + i < 7 + P := Nat.add_lt_add_left hi 7
  have hfun : updateFunction P (B + 7 + i) = particles := by
    rw [Nat.add_assoc, updateFunction_add hB ho, Nat.add_comm 7 i]
    rfl
  have hne : B + 2 ≠ B + 7 + i := by omega
  obtain ⟨nextJob, jobFunction, created, dependents, dependsOn⟩ := b
  obtain ⟨hn, hcreated, hcollision, hlinks, hparticle⟩ := h
  obtain rfl : nextJob = B + 7 + i := hn
  simp only at hcreated hcollision hlinks hparticle
  refine ⟨⟨?_, ⟨?_, ?_, ?_, ?_⟩, ⟨?_, ?_, ?_, ?_⟩, ⟨?_, fun x hx => ?_⟩, trivial⟩,
    ⟨rfl, fun j => ?_, ?_, fun e he => ?_, fun o ho' => ?_⟩⟩
  · change _ = (updateFunction P (B + 7 + i)).address
    rw [hfun]
  · exact .inl rfl
  · exact .inr ((hcreated _).mpr (by omega))
  · change Function.update dependents (B + 7 + i) 0 (B + 2) < 13
    rw [Function.update_of_ne hne, hcollision]
    omega
  · change SameFrame P _ _
    rw [sameFrame_iff hB] <;> omega
  · exact .inr ((hcreated _).mpr (by omega))
  · exact .inl rfl
  · change Function.update (Function.update dependents (B + 7 + i) 0) (B + 2) _ (B + 7 + i) < 13
    rw [Function.update_of_ne hne.symm, Function.update_self]
    decide
  · change SameFrame P _ _
    rw [sameFrame_iff hB] <;> omega
  · exact .inl rfl
  · rw [Nat.add_assoc, needs_add hB ho] at hx
    obtain ⟨o', -, rfl, hx⟩ := hx
    obtain rfl : o' = 2 := by
      have hcases := functionAt_cases o'
      rw [Nat.add_comm 7 i] at hx
      simp_all [functionAt, dependencies]
    exact .inr (.inl ⟨rfl, rfl⟩)
  · change j ≠ B + 7 + i ∧ (j = B + 7 + i ∨ created j) ↔ _
    rw [hcreated]
    omega
  · change Function.update (Function.update (Function.update dependents (B + 7 + i) 0) (B + 2)
      (Function.update dependents (B + 7 + i) 0 (B + 2) + 1)) (B + 7 + i) _ (B + 2) = 1 + (i + 1)
    rw [Function.update_of_ne hne, Function.update_self, Function.update_of_ne hne, hcollision,
      Nat.add_assoc]
  · exact .inr (.inr (hlinks e he))
  · obtain hlt | rfl := Nat.lt_succ_iff_lt_or_eq.mp ho'
    · exact (hparticle o hlt).imp (.inr ∘ .inr) (.inr ∘ .inr)
    · exact ⟨.inr (.inl ⟨rfl, rfl⟩), .inl ⟨rfl, rfl⟩⟩

/-- The loop for the particle jobs. -/
theorem InFrame.nextAll {B : ℕ} (h : InFrame B 0 b) (hB : 7 + P ∣ B) (hi : i ≤ P) (hP : P ≤ 12) :
    b.Follows (framePlan P) ((List.range i).flatMap (particleCalls B)) ∧
      InFrame B i (b.afterAll ((List.range i).flatMap (particleCalls B))) := by
  induction i with
  | zero => exact ⟨trivial, h⟩
  | succ i ih =>
    obtain ⟨hf, hb⟩ := ih (Nat.le_of_succ_le hi)
    obtain ⟨hf', hb'⟩ := hb.next hB hi hP
    rw [List.range_succ, List.flatMap_append, List.flatMap_singleton, Book.follows_append,
      Book.afterAll_append]
    exact ⟨⟨hf, hf'⟩, hb'⟩

/-- What a job of the first seven needs is declared before the particle jobs, or is one. -/
theorem link_of_mem_dependencies (B : ℕ) (ho : o < 7)
    (h : functionAt i ∈ (functionAt o).dependencies) :
    (B + o, B + i) ∈ frameLinks B ∨ o = 5 ∧ 7 ≤ i := by
  obtain hi | hi := Nat.lt_or_ge i 7
  · have hlinks : ∀ o i : Fin 7, functionAt i ∈ (functionAt o).dependencies →
        ((o : ℕ), (i : ℕ)) ∈ frameLinks 0 := by decide
    have hshift : frameLinks B = (frameLinks 0).map fun e => (B + e.1, B + e.2) := rfl
    rw [hshift]
    exact .inl (List.mem_map_of_mem (hlinks ⟨o, ho⟩ ⟨i, hi⟩ h))
  · obtain ⟨i, rfl⟩ := Nat.exists_eq_add_of_le' hi
    have hparticles : ∀ o < 7, particles ∈ (functionAt o).dependencies → o = 5 := by decide
    exact .inr ⟨hparticles o ho h, hi⟩

theorem InFrame.needs {B : ℕ} (h : InFrame B P b) (hB : 7 + P ∣ B) (ho : o < 7)
    (hx : (framePlan P).needs (B + o) x) : b.dependsOn (B + o) x := by
  obtain ⟨i, hi, rfl, hdep⟩ := (needs_add hB (ho.trans_le (Nat.le_add_right 7 P))).mp hx
  obtain hmem | ⟨rfl, hle⟩ := link_of_mem_dependencies B ho hdep
  · exact h.links _ hmem
  · obtain ⟨i, rfl⟩ := Nat.exists_eq_add_of_le hle
    rw [← Nat.add_assoc]
    exact (h.particle i (Nat.lt_of_add_lt_add_left hi)).2

theorem mem_frameAdds {B j : ℕ} : j ∈ frameAdds B ↔ B ≤ j ∧ j < B + 7 := by
  have h : j ∈ frameAdds B ↔
      j = B + 5 ∨ j = B + 1 ∨ j = B + 3 ∨ j = B ∨ j = B + 2 ∨ j = B + 4 ∨ j = B + 6 := by
    simp [frameAdds]
  rw [h]
  omega

/-- A frame follows the plan and leaves nothing that is created and not added. -/
theorem frameCalls_follows {B : ℕ} (hB : 7 + P ∣ B) (hP : P ≤ 12) (hn : b.nextJob = B)
    (hc : ∀ j, ¬ b.created j) :
    b.Follows (framePlan P) (frameCalls P B) ∧
      (b.afterAll (frameCalls P B)).nextJob = B + (7 + P) ∧
      ∀ j, ¬ (b.afterAll (frameCalls P B)).created j := by
  obtain ⟨hstart, hframe⟩ := inFrame_zero hB hn hc
  obtain ⟨hparticles, hframe⟩ := hframe.nextAll hB (Nat.le_refl P) hP
  simp only [frameCalls_eq, Book.follows_append, Book.afterAll_append]
  set b' := (b.afterAll (frameStart B)).afterAll ((List.range P).flatMap (particleCalls B))
  obtain ⟨hf, ha⟩ := @Book.follows_adds (framePlan P) b' (frameAdds B)
    (by simp [frameAdds]) fun j hj => by
      obtain ⟨hle, hlt⟩ := mem_frameAdds.mp hj
      obtain ⟨o, rfl⟩ := Nat.exists_eq_add_of_le hle
      exact ⟨(hframe.created _).mpr ⟨hle, hlt⟩,
        fun x hx => hframe.needs hB (Nat.lt_of_add_lt_add_left hlt) hx⟩
  refine ⟨⟨⟨hstart, hparticles⟩, hf⟩, ?_, ?_⟩
  · rw [ha]
    exact hframe.nextJob.trans (Nat.add_assoc B 7 P)
  · rw [ha]
    rintro j ⟨hj, hcj⟩
    exact hj (mem_frameAdds.mpr ((hframe.created j).mp hcj))

theorem frames_follow {B : ℕ} (F : ℕ) (hB : 7 + P ∣ B) (hP : P ≤ 12) (hn : b.nextJob = B)
    (hc : ∀ j, ¬ b.created j) :
    b.Follows (framePlan P) ((List.range F).flatMap fun i => frameCalls P (B + i * (7 + P))) ∧
      (b.afterAll ((List.range F).flatMap fun i => frameCalls P (B + i * (7 + P)))).nextJob =
        B + F * (7 + P) ∧
      ∀ j, ¬ (b.afterAll ((List.range F).flatMap
        fun i => frameCalls P (B + i * (7 + P)))).created j := by
  induction F with
  | zero => exact ⟨trivial, hn.trans (by rw [Nat.zero_mul, Nat.add_zero]), hc⟩
  | succ F ih =>
    obtain ⟨hf, hnext, hnone⟩ := ih
    obtain ⟨hf', hnext', hnone'⟩ :=
      frameCalls_follows (Nat.dvd_add hB (Nat.dvd_mul_left (7 + P) F)) hP hnext hnone
    rw [List.range_succ, List.flatMap_append, List.flatMap_singleton, Book.follows_append,
      Book.afterAll_append]
    refine ⟨⟨hf, hf'⟩, hnext'.trans ?_, hnone'⟩
    rw [Nat.add_assoc, ← Nat.succ_mul]

end JobSystem
