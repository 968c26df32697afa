import JobSystem.Completion

/-! The jobs as their creator knows them from its own calls alone: which are created and not yet
added, how many dependents each has, and who depends on whom. Whatever the workers do meanwhile,
this book is right, so that a list of calls can be checked against a plan without looking at
them. -/
namespace JobSystem
open TransitionSystem
variable {n : ℕ} {m : WaitMode} {k : Fin n} {j d x : JobId} {s t : State n} {a : Action n}
  {c : Call} {l l' : List Call}

@[ext] structure Book where
  nextJob : ℕ
  jobFunction : JobId → Option JobFunction
  /-- Created and not added. -/
  created : JobId → Prop
  dependents : JobId → ℕ
  dependsOn : JobId → JobId → Prop

/-- What the numbers of the jobs are meant to say: the function of a job, which jobs it needs, and
which it may depend on at all. -/
structure Plan where
  function : JobId → JobFunction
  needs : JobId → JobId → Prop
  related : JobId → JobId → Prop

namespace Book
variable {plan : Plan} {b : Book}

/-- The book after a call. -/
def after (b : Book) : Call → Book
  | .createJob f =>
    { b with
      nextJob := b.nextJob + 1
      jobFunction := Function.update b.jobFunction b.nextJob (some f)
      created := fun j => j = b.nextJob ∨ b.created j
      dependents := Function.update b.dependents b.nextJob 0 }
  | .addDependency d x =>
    { b with
      dependents := Function.update b.dependents x (b.dependents x + 1)
      dependsOn := fun d' x' => d' = d ∧ x' = x ∨ b.dependsOn d' x' }
  | .addJob j => { b with created := fun i => i ≠ j ∧ b.created i }
  | .waitForAllJobs | .joinJobs => b

def afterAll (b : Book) (l : List Call) : Book := l.foldl after b

@[simp] theorem afterAll_nil (b : Book) : b.afterAll [] = b := rfl

@[simp] theorem afterAll_cons (b : Book) (c : Call) (l : List Call) :
    b.afterAll (c :: l) = (b.after c).afterAll l := rfl

theorem afterAll_append (b : Book) (l l' : List Call) :
    b.afterAll (l ++ l') = (b.afterAll l).afterAll l' := List.foldl_append

theorem nextJob_le_afterAll (b : Book) (l : List Call) : b.nextJob ≤ (b.afterAll l).nextJob := by
  induction l generalizing b with
  | nil => exact Nat.le_refl _
  | cons c l ih =>
    refine Nat.le_trans ?_ (ih (b.after c))
    cases c <;> first | exact Nat.le_refl _ | exact Nat.le_succ _

/-- The call keeps the promise of `SetupRule`, does not run into the limit of `AddDependency`,
and does what the plan says. -/
def Allows (b : Book) (plan : Plan) : Call → Prop
  | .createJob f => f = plan.function b.nextJob
  | .addDependency d x => b.created d ∧ b.created x ∧ b.dependents x < maxDependentCount ∧
      plan.related d x
  | .addJob j => b.created j ∧ ∀ x, plan.needs j x → b.dependsOn j x
  | .waitForAllJobs | .joinJobs => True

/-- Each call of the list is allowed after those before it. -/
def Follows (plan : Plan) : Book → List Call → Prop
  | _, [] => True
  | b, c :: l => b.Allows plan c ∧ (b.after c).Follows plan l

theorem follows_append :
    b.Follows plan (l ++ l') ↔ b.Follows plan l ∧ (b.afterAll l).Follows plan l' := by
  induction l generalizing b with
  | nil => exact (true_and _).symm ▸ Iff.rfl
  | cons c l ih => exact (and_congr_right fun _ => ih).trans and_assoc.symm

/-- So far the plan has been followed. -/
structure Kept (plan : Plan) (b : Book) : Prop where
  functions : ∀ {j}, j < b.nextJob → b.jobFunction j = some (plan.function j)
  needs : ∀ {j x}, j < b.nextJob → ¬ b.created j → plan.needs j x → b.dependsOn j x
  related : ∀ {d x}, b.dependsOn d x → plan.related d x

theorem Kept.after (h : b.Kept plan) (hc : b.Allows plan c) : (b.after c).Kept plan := by
  cases c with
  | createJob f =>
    obtain rfl : f = plan.function b.nextJob := hc
    refine ⟨fun {j} hj => ?_, fun {j x} hj hn => ?_, h.related⟩
    · by_cases he : j = b.nextJob
      · subst he; simp [Book.after]
      · simp [Book.after, he, h.functions ((Nat.lt_succ_iff_lt_or_eq.mp hj).resolve_right he)]
    · obtain ⟨he, hn⟩ := not_or.mp hn
      exact h.needs ((Nat.lt_succ_iff_lt_or_eq.mp hj).resolve_right he) hn
  | addDependency d x =>
    obtain ⟨-, -, -, hr⟩ := hc
    refine ⟨h.functions, fun hj hn hx => .inr (h.needs hj hn hx), ?_⟩
    rintro d' x' (⟨rfl, rfl⟩ | hd)
    · exact hr
    · exact h.related hd
  | addJob j =>
    obtain ⟨-, hneeds⟩ := hc
    refine ⟨h.functions, fun {i x} hi hn hx => ?_, h.related⟩
    by_cases he : i = j
    · subst he; exact hneeds x hx
    · exact h.needs hi (fun hc => hn ⟨he, hc⟩) hx
  | waitForAllJobs | joinJobs => exact h

/-- What a row of `i` `CreateJob` calls leaves. -/
theorem after_creates (b : Book) (f : ℕ → JobFunction) (i : ℕ) :
    (b.afterAll ((List.range i).map fun o => .createJob (f o))).nextJob = b.nextJob + i ∧
      (∀ j : ℕ, (b.afterAll ((List.range i).map fun o => .createJob (f o))).created j ↔
        b.nextJob ≤ j ∧ j < b.nextJob + i ∨ b.created j) ∧
      (∀ j : ℕ, (b.afterAll ((List.range i).map fun o => .createJob (f o))).dependents j =
        if b.nextJob ≤ j ∧ j < b.nextJob + i then 0 else b.dependents j) ∧
      (b.afterAll ((List.range i).map fun o => .createJob (f o))).dependsOn = b.dependsOn := by
  induction i with
  | zero =>
    have hempty (j : ℕ) : ¬ (b.nextJob ≤ j ∧ j < b.nextJob + 0) := by omega
    exact ⟨rfl, fun j => (or_iff_right (hempty j)).symm, fun j => (if_neg (hempty j)).symm, rfl⟩
  | succ i ih =>
    obtain ⟨hn, hc, hd, hdep⟩ := ih
    rw [List.range_succ, List.map_append, afterAll_append]
    set b' := b.afterAll ((List.range i).map fun o => .createJob (f o))
    refine ⟨?_, fun j => ?_, fun j => ?_, hdep⟩
    · change b'.nextJob + 1 = _
      rw [hn, Nat.add_assoc]
    · change j = b'.nextJob ∨ b'.created j ↔ _
      rw [hn, hc, ← or_assoc]
      refine or_congr_left ?_
      omega
    · change Function.update b'.dependents b'.nextJob 0 j = _
      by_cases hj : j = b'.nextJob
      · subst hj
        rw [Function.update_self, if_pos (by omega)]
      · rw [Function.update_of_ne hj, hd]
        refine if_congr ?_ rfl rfl
        omega

/-- A row of `i` `CreateJob` calls. -/
theorem follows_creates {f : ℕ → JobFunction} (i : ℕ)
    (hf : ∀ o < i, f o = plan.function (b.nextJob + o)) :
    b.Follows plan ((List.range i).map fun o => .createJob (f o)) := by
  induction i with
  | zero => trivial
  | succ i ih =>
    rw [List.range_succ, List.map_append, follows_append]
    refine ⟨ih fun o ho => hf o (Nat.lt_succ_of_lt ho), ?_, trivial⟩
    change f i = plan.function (b.afterAll _).nextJob
    rw [(after_creates b f i).1]
    exact hf i (Nat.lt_succ_self i)

/-- A row of `AddDependency` calls, each pair the dependent and the dependency. -/
theorem follows_links (ls : List (JobId × JobId))
    (hc : ∀ e ∈ ls, b.created e.1 ∧ b.created e.2 ∧ plan.related e.1 e.2)
    (hm : ∀ e ∈ ls, b.dependents e.2 + (ls.map Prod.snd).count e.2 ≤ maxDependentCount) :
    b.Follows plan (ls.map fun e => .addDependency e.1 e.2) ∧
      b.afterAll (ls.map fun e => .addDependency e.1 e.2) =
        { b with
          dependents := fun x => b.dependents x + (ls.map Prod.snd).count x
          dependsOn := fun d x => (d, x) ∈ ls ∨ b.dependsOn d x } := by
  induction ls generalizing b with
  | nil => exact ⟨trivial, by simp⟩
  | cons e ls ih =>
    obtain ⟨⟨hd, hx, hr⟩, hc⟩ := List.forall_mem_cons.mp hc
    have hlt : b.dependents e.2 < maxDependentCount := by
      have := hm e List.mem_cons_self
      simp only [List.map_cons, List.count_cons_self] at this
      omega
    have hcount (x) : Function.update b.dependents e.2 (b.dependents e.2 + 1) x +
        (ls.map Prod.snd).count x = b.dependents x + ((e :: ls).map Prod.snd).count x := by
      by_cases he : x = e.2
      · subst he
        simp only [Function.update_self, List.map_cons, List.count_cons_self]
        omega
      · simp [he, Ne.symm he]
    obtain ⟨hf, ha⟩ := ih (b := b.after (.addDependency e.1 e.2)) hc fun e' he' =>
      hcount e'.2 ▸ hm e' (List.mem_cons_of_mem e he')
    refine ⟨⟨⟨hd, hx, hlt, hr⟩, hf⟩, ha.trans ?_⟩
    ext j x
    · rfl
    · rfl
    · rfl
    · exact hcount j
    · change (j, x) ∈ ls ∨ j = e.1 ∧ x = e.2 ∨ b.dependsOn j x ↔
        (j, x) ∈ e :: ls ∨ b.dependsOn j x
      rw [List.mem_cons, Prod.ext_iff, or_assoc, or_left_comm]

/-- A row of `AddJob` calls. -/
theorem follows_adds {js : List JobId} (hn : js.Nodup)
    (hj : ∀ j ∈ js, b.created j ∧ ∀ x, plan.needs j x → b.dependsOn j x) :
    b.Follows plan (js.map .addJob) ∧
      b.afterAll (js.map .addJob) = { b with created := fun j => j ∉ js ∧ b.created j } := by
  induction js generalizing b with
  | nil => exact ⟨trivial, by simp⟩
  | cons j js ih =>
    obtain ⟨hnot, hn⟩ := List.nodup_cons.mp hn
    obtain ⟨hfirst, hj⟩ := List.forall_mem_cons.mp hj
    obtain ⟨hf, ha⟩ := ih (b := b.after (.addJob j)) hn fun i hi =>
      ⟨⟨fun he => hnot (he ▸ hi), (hj i hi).1⟩, (hj i hi).2⟩
    refine ⟨⟨hfirst, hf⟩, ha.trans ?_⟩
    ext i x
    · rfl
    · rfl
    · change i ∉ js ∧ i ≠ j ∧ b.created i ↔ i ∉ j :: js ∧ b.created i
      rw [List.mem_cons, not_or, and_left_comm, and_assoc]
    · rfl
    · rfl

end Book

/-- What the book should say. -/
def State.book (s : State n) : Book where
  nextJob := s.nextJob
  jobFunction j := (s.jobs j).jobFunction
  created j := s.lifecycle j = .created
  dependents x := (s.jobs x).dependentCount
  dependsOn := s.DependsOn

/-- Steps that create and add no job and log no dependency. -/
theorem State.book_congr (hn : t.nextJob = s.nextJob)
    (hf : ∀ x, (t.jobs x).jobFunction = (s.jobs x).jobFunction)
    (hl : ∀ j, t.lifecycle j = .created ↔ s.lifecycle j = .created)
    (hc : ∀ x, (t.jobs x).dependentCount = (s.jobs x).dependentCount)
    (hd : t.DependsOn = s.DependsOn) : t.book = s.book := by
  ext j x
  · exact hn
  · exact iff_of_eq (congrArg (_ ∈ ·) (hf j))
  · exact hl j
  · exact hc j
  · exact iff_of_eq (congrFun (congrFun hd j) x)

theorem jobFunction_setJob {y : Job n} (hy : y.jobFunction = (s.jobs j).jobFunction) (x : JobId) :
    ((s.setJob j y).jobs x).jobFunction = (s.jobs x).jobFunction := by
  by_cases hx : x = j
  · subst hx; simpa using hy
  · simp [hx]

/-- No step of a worker is noticed. -/
theorem WorkerStep.book (h : WorkerStep m k s t) (ho : Ownership s) : t.book = s.book := by
  refine State.book_congr ?_ ?_ (fun j => ?_) h.dependentCount h.workerFrame.dependsOn
  · cases h <;> rfl
  · cases h with
    | decrement | stealWrite => exact jobFunction_setJob rfl
    | _ => exact fun _ => rfl
  · cases h with
    | @start i hp | @delete i _ hp =>
      have hi : s.lifecycle i ≠ .created := by
        rcases ho.held (mem_holdings_of_hand (k := k) (j := i) (by rw [hp]; rfl)) with hl | hl <;>
          simp [hl]
      by_cases hj : j = i
      · subst hj; simpa using hi
      · simp [hj]
    | _ => exact Iff.rfl

theorem FrameStep.book (h : FrameStep s t) : t.book = s.book := by
  have hq := h.quiet
  refine State.book_congr hq.nextJob ?_ (fun j => by rw [hq.lifecycle])
    (fun x => (hq.links x).dependentCount) ?_
  · cases h with
    | write => exact jobFunction_setJob rfl
    | _ => exact fun _ => rfl
  · unfold State.DependsOn
    rw [hq.history]

/-- The creator notices its own calls only. -/
theorem StepCase.book (h : StepCase m s a t) (ho : Ownership s) (ha : ∀ c, a ≠ .call c) :
    t.book = s.book := by
  cases h with
  | worker h => exact h.book ho
  | frame h => exact h.book
  | quit | wakeWorker | wakeFrame => rfl
  | _ => exact absurd rfl (ha _)

theorem callStep_book (s : State n) (c : Call)
    (hc : ∀ d x, c = .addDependency d x → (s.jobs x).dependentCount < maxDependentCount) :
    (callStep s c).book = s.book.after c := by
  cases c with
  | createJob f =>
    ext j x
    · rfl
    · by_cases hj : j = s.nextJob <;> simp [State.book, Book.after, callStep, hj]
    · by_cases hj : j = s.nextJob <;> simp [State.book, Book.after, callStep, hj]
    · by_cases hj : j = s.nextJob <;> simp [State.book, Book.after, callStep, hj]
    · rfl
  | addDependency d x =>
    have hm := hc d x rfl
    have honly := addDependency_onlyJobs s d x
    have hcount (y) : ((callStep s (.addDependency d x)).jobs y).dependentCount =
        Function.update (fun y => (s.jobs y).dependentCount) x
          ((s.jobs x).dependentCount + 1) y := by
      rw [(addDependency_jobs hm y).1]
      by_cases hy : y = x <;> simp [hy]
    have hfunction (y) : ((callStep s (.addDependency d x)).jobs y).jobFunction =
        (s.jobs y).jobFunction := by
      rw [callStep_addDependency hm]
      by_cases hx : y = x <;> by_cases hd : y = d <;> simp_all [Job.addDependent]
    ext j y
    · exact honly.nextJob
    · exact iff_of_eq (congrArg (_ ∈ ·) (hfunction j))
    · simp only [State.book, Book.after, honly.lifecycle]
    · exact hcount j
    · simp [State.book, Book.after, State.DependsOn, addDependency_history hm]
  | addJob j =>
    ext i x
    · rfl
    · rfl
    · by_cases hi : i = j <;> simp [State.book, Book.after, callStep, hi]
    · rfl
    · rfl
  | waitForAllJobs | joinJobs => rfl

end JobSystem
