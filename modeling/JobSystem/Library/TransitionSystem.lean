import Mathlib.Logic.Relation
import Mathlib.Order.WellFounded

/-! Labelled transition systems: reachable states, invariants, systems cut down by a
condition on their steps, runs that use some of the labels only, and states from which a
property is reached whatever those labels do. -/
namespace TransitionSystem

structure System (σ α : Type*) where
  init : σ → Prop
  step : σ → α → σ → Prop

namespace System
variable {σ α : Type*} {T : System σ α}

inductive Reachable (T : System σ α) : σ → Prop
  | init {s} : T.init s → T.Reachable s
  | step {s a t} : T.Reachable s → T.step s a t → T.Reachable t

/-- The invariant rule. Reachability of the state before the step is at hand, so that an
invariant can be proved on top of those already known. -/
theorem Reachable.invariant {I : σ → Prop} (hinit : ∀ s, T.init s → I s)
    (hstep : ∀ s a t, T.Reachable s → I s → T.step s a t → I t) {s : σ} (h : T.Reachable s) :
    I s := by
  induction h with
  | init h => exact hinit _ h
  | step h ht ih => exact hstep _ _ _ h ih ht

theorem Reachable.mono {U : System σ α} {s : σ} (h : T.Reachable s)
    (hinit : ∀ s, T.init s → U.init s) (hstep : ∀ s a t, T.step s a t → U.step s a t) :
    U.Reachable s := by
  induction h with
  | init h => exact .init (hinit _ h)
  | step _ ht ih => exact .step ih (hstep _ _ _ ht)

/-- The steps of `T` taken in a state that meets the condition `G`. -/
def restrict (T : System σ α) (G : σ → α → Prop) : System σ α where
  init := T.init
  step s a t := G s a ∧ T.step s a t

theorem Reachable.of_restrict {G : σ → α → Prop} {s : σ} (h : (T.restrict G).Reachable s) :
    T.Reachable s := h.mono (fun _ hs => hs) fun _ _ _ ht => ht.2

/-- A condition that fails only outside the reachable states does not cut the system down. -/
theorem Reachable.restrict {G : σ → α → Prop}
    (hG : ∀ s a t, T.Reachable s → T.step s a t → G s a) {s : σ} (h : T.Reachable s) :
    (T.restrict G).Reachable s := by
  induction h with
  | init h => exact .init h
  | step h ht ih => exact .step ih ⟨hG _ _ _ h ht, ht⟩

/-- The system together with the labels taken so far, oldest first. -/
def traced (T : System σ α) : System (σ × List α) α where
  init p := T.init p.1 ∧ p.2 = []
  step p a q := T.step p.1 a q.1 ∧ q.2 = p.2 ++ [a]

theorem Reachable.of_traced {p : σ × List α} (h : T.traced.Reachable p) : T.Reachable p.1 := by
  induction h with
  | init h => exact .init h.1
  | step _ ht ih => exact ih.step ht.1

/-- A finite run that takes labels of `A` only. -/
inductive Path (T : System σ α) (A : α → Prop) : σ → σ → Prop
  | refl (s) : T.Path A s s
  | head {s a t u} : A a → T.step s a t → T.Path A t u → T.Path A s u

variable {A : α → Prop}

theorem Path.trans {s t u : σ} (h : T.Path A s t) (h' : T.Path A t u) : T.Path A s u := by
  induction h with
  | refl => exact h'
  | head ha ht _ ih => exact .head ha ht (ih h')

theorem Path.reachable {s t : σ} (h : T.Path A s t) (hs : T.Reachable s) : T.Reachable t := by
  induction h with
  | refl => exact hs
  | head _ ht _ ih => exact ih (hs.step ht)

theorem Path.mono {B : α → Prop} (hAB : ∀ a, A a → B a) {s t : σ} (h : T.Path A s t) :
    T.Path B s t := by
  induction h with
  | refl s => exact .refl s
  | head ha ht _ ih => exact .head (hAB _ ha) ht ih

/-- What every step with a label of `A` keeps is kept along a run. -/
theorem Path.invariant {I : σ → Prop}
    (hstep : ∀ s a t, T.Reachable s → I s → A a → T.step s a t → I t)
    {s t : σ} (h : T.Path A s t) (hr : T.Reachable s) (hs : I s) : I t := by
  induction h with
  | refl => exact hs
  | head ha ht _ ih => exact ih (hr.step ht) (hstep _ _ _ hr hs ha ht)

/-- If from every state of `I` outside `P` some step of `A` stays in `I` and lowers a
measure, then a run leads from every state of `I` into `P`. -/
theorem exists_path_of_decreasing {I P : σ → Prop} {β : Type*} {r : β → β → Prop}
    (hr : WellFounded r) (μ : σ → β)
    (hstep : ∀ s, I s → ¬ P s → ∃ a t, A a ∧ T.step s a t ∧ I t ∧ r (μ t) (μ s))
    (s : σ) (hs : I s) : ∃ t, T.Path A s t ∧ I t ∧ P t := by
  induction s using (InvImage.wf μ hr).induction with
  | _ s ih =>
    by_cases hp : P s
    · exact ⟨s, .refl s, hs, hp⟩
    · obtain ⟨a, t, ha, ht, hit, hlt⟩ := hstep s hs hp
      obtain ⟨u, hu, hiu, hpu⟩ := ih t hlt hit
      exact ⟨u, .head ha ht hu, hiu, hpu⟩

/-- Every way to go on with labels of `A` reaches `P` after finitely many steps, and until
then some label of `A` can be taken. -/
inductive Inevitable (T : System σ α) (A : α → Prop) (P : σ → Prop) : σ → Prop
  | now {s} : P s → T.Inevitable A P s
  | later {s} : (∃ a t, A a ∧ T.step s a t) →
      (∀ a t, A a → T.step s a t → T.Inevitable A P t) → T.Inevitable A P s

theorem inevitable_of_decreasing {I P : σ → Prop} {β : Type*} {r : β → β → Prop}
    (hr : WellFounded r) (μ : σ → β)
    (henabled : ∀ s, I s → ¬ P s → ∃ a t, A a ∧ T.step s a t)
    (hstep : ∀ s a t, I s → ¬ P s → A a → T.step s a t → I t ∧ r (μ t) (μ s))
    (s : σ) (hs : I s) : T.Inevitable A P s := by
  induction s using (InvImage.wf μ hr).induction with
  | _ s ih =>
    by_cases hp : P s
    · exact .now hp
    · refine .later (henabled s hs hp) fun a t ha ht => ?_
      obtain ⟨hit, hlt⟩ := hstep s a t hs hp ha ht
      exact ih t hlt hit

/-- What is inevitable comes about in some run. -/
theorem Inevitable.exists_path {P : σ → Prop} {s : σ} (h : T.Inevitable A P s) :
    ∃ t, T.Path A s t ∧ P t := by
  induction h with
  | @now s hp => exact ⟨s, .refl s, hp⟩
  | later hex _ ih =>
    obtain ⟨a, t, ha, ht⟩ := hex
    obtain ⟨u, hu, hp⟩ := ih a t ha ht
    exact ⟨u, .head ha ht hu, hp⟩

/-- From every state of `P` within `I` one gets on to `Q`. -/
theorem Inevitable.trans {I P Q : σ → Prop} (hstep : ∀ s a t, I s → A a → T.step s a t → I t)
    (hPQ : ∀ s, I s → P s → T.Inevitable A Q s) {s : σ} (h : T.Inevitable A P s) (hs : I s) :
    T.Inevitable A Q s := by
  induction h with
  | now hp => exact hPQ _ hs hp
  | later hex _ ih => exact .later hex fun a t ha ht => ih a t ha ht (hstep _ a t hs ha ht)

/-- A set of states outside `P` that no label of `A` leaves never reaches `P`. -/
theorem Inevitable.not_closed {P B : σ → Prop} (hP : ∀ s, B s → ¬ P s)
    (hstep : ∀ s a t, B s → A a → T.step s a t → B t) {s : σ} (h : T.Inevitable A P s) :
    ¬ B s := by
  induction h with
  | now hp => exact fun hb => hP _ hb hp
  | later hex _ ih =>
    intro hb
    obtain ⟨a, t, ha, ht⟩ := hex
    exact ih a t ha ht (hstep _ a t hb ha ht)

/-- Every way to go on with labels of `B` reaches `P` after finitely many steps, and until then some
label of `A` can be taken. The other labels of `B` may be taken, but nobody relies on them. -/
inductive Driven (T : System σ α) (A B : α → Prop) (P : σ → Prop) : σ → Prop
  | now {s} : P s → T.Driven A B P s
  | later {s} : (∃ a t, A a ∧ T.step s a t) →
      (∀ a t, B a → T.step s a t → T.Driven A B P t) → T.Driven A B P s

theorem driven_of_decreasing {B : α → Prop} {I P : σ → Prop} {β : Type*} {r : β → β → Prop}
    (hr : WellFounded r) (μ : σ → β)
    (henabled : ∀ s, I s → ¬ P s → ∃ a t, A a ∧ T.step s a t)
    (hstep : ∀ s a t, I s → ¬ P s → B a → T.step s a t → I t ∧ r (μ t) (μ s))
    (s : σ) (hs : I s) : T.Driven A B P s := by
  induction s using (InvImage.wf μ hr).induction with
  | _ s ih =>
    by_cases hp : P s
    · exact .now hp
    · refine .later (henabled s hs hp) fun a t ha ht => ?_
      obtain ⟨hit, hlt⟩ := hstep s a t hs hp ha ht
      exact ih t hlt hit

/-- An infinite run that takes labels of `A` only. -/
def InfiniteRun (T : System σ α) (A : α → Prop) (f : ℕ → σ) : Prop :=
  ∀ i, ∃ a, A a ∧ T.step (f i) a (f (i + 1))

/-- If every state of `I` has a step of `A` within `I`, an infinite run starts from each. -/
theorem exists_infiniteRun {I : σ → Prop} (hstep : ∀ s, I s → ∃ a t, A a ∧ T.step s a t ∧ I t)
    {s : σ} (hs : I s) : ∃ f, f 0 = s ∧ T.InfiniteRun A f := by
  choose label next hlabel hnext hI using hstep
  let f : ℕ → { s // I s } := Nat.rec ⟨s, hs⟩ fun _ u => ⟨next u u.2, hI u u.2⟩
  refine ⟨fun i => (f i).1, rfl, fun i => ⟨label (f i).1 (f i).2, hlabel _ _, ?_⟩⟩
  exact hnext (f i).1 (f i).2

/-- No infinite run starts in `I` if every step of `A` stays in `I` and lowers a measure. -/
theorem InfiniteRun.not_decreasing {I : σ → Prop} {β : Type*} {r : β → β → Prop}
    (hr : WellFounded r) (μ : σ → β)
    (hstep : ∀ s a t, I s → A a → T.step s a t → I t ∧ r (μ t) (μ s)) {f : ℕ → σ}
    (hf : T.InfiniteRun A f) (i : ℕ) : ¬ I (f i) := by
  induction hx : f i using (InvImage.wf μ hr).induction generalizing i with
  | _ s ih =>
    subst hx
    intro hi
    obtain ⟨a, ha, ht⟩ := hf i
    obtain ⟨hit, hlt⟩ := hstep _ a _ hi ha ht
    exact ih _ hlt (i + 1) rfl hit

/-- `f` maps every step of `T` to a step of `U` or to no step at all. -/
structure Refinement {τ β : Type*} (T : System σ α) (U : System τ β) (f : σ → τ) : Prop where
  init : ∀ s, T.init s → U.init (f s)
  step : ∀ s a t, T.Reachable s → T.step s a t → f t = f s ∨ ∃ b, U.step (f s) b (f t)

theorem Refinement.reachable {τ β : Type*} {U : System τ β} {f : σ → τ}
    (h : T.Refinement U f) {s : σ} (hs : T.Reachable s) : U.Reachable (f s) := by
  induction hs with
  | init hi => exact .init (h.init _ hi)
  | step hs ht ih =>
    rcases h.step _ _ _ hs ht with he | ⟨b, hb⟩
    · exact he ▸ ih
    · exact ih.step hb

/-- If `f` loses no step but some with a label in `D`, the image of a run has its labels without
some of these. -/
theorem Reachable.traced_image {τ : Type*} {U : System τ α} {f : σ → τ} {D : α → Bool}
    (hinit : ∀ s, T.init s → U.init (f s))
    (hstep : ∀ s a t, T.step s a t → D a = true ∧ f t = f s ∨ U.step (f s) a (f t))
    {s : σ} {l : List α} (h : T.traced.Reachable (s, l)) :
    ∃ l', l'.Sublist l ∧ l'.filter (!D ·) = l.filter (!D ·) ∧ U.traced.Reachable (f s, l') := by
  refine h.invariant (I := fun p => ∃ l', l'.Sublist p.2 ∧
    l'.filter (!D ·) = p.2.filter (!D ·) ∧ U.traced.Reachable (f p.1, l')) ?_ ?_
  · rintro ⟨s, l⟩ ⟨hs, rfl⟩
    exact ⟨[], .slnil, rfl, .init ⟨hinit s hs, rfl⟩⟩
  · rintro ⟨s, l⟩ a ⟨t, _⟩ - ⟨l', hsub, hfilter, hr⟩ ⟨ht, rfl⟩
    obtain ⟨ha, he⟩ | hu := hstep s a t ht
    · refine ⟨l', hsub.trans (List.sublist_append_left l [a]), ?_, he ▸ hr⟩
      rw [hfilter, List.filter_append]
      simp [ha]
    · refine ⟨l' ++ [a], hsub.append_right [a], ?_, hr.step ⟨hu, rfl⟩⟩
      rw [List.filter_append, List.filter_append, hfilter]

end System

section Executable
variable {σ α : Type*}

/-- The system of a partial step function. -/
def ofNext (init : σ) (next : σ → α → Option σ) : System σ α where
  init s := s = init
  step s a t := next s a = some t

/-- Take the labels of a list in turn. -/
def run (next : σ → α → Option σ) : σ → List α → Option σ
  | s, [] => some s
  | s, a :: l => (next s a).bind (run next · l)

/-- The step function that refuses what `G` does not allow. -/
def guarded (G : σ → α → Prop) [∀ s a, Decidable (G s a)] (next : σ → α → Option σ)
    (s : σ) (a : α) : Option σ := if G s a then next s a else none

theorem guarded_eq_some {G : σ → α → Prop} [∀ s a, Decidable (G s a)]
    {next : σ → α → Option σ} {s t : σ} {a : α} :
    guarded G next s a = some t ↔ G s a ∧ next s a = some t := by
  unfold guarded
  split <;> simp [*]

/-- A run of allowed labels stays within the reachable states. -/
theorem reachable_of_run {init s t : σ} {next : σ → α → Option σ} {G : σ → α → Prop}
    [∀ s a, Decidable (G s a)] {l : List α} (hs : ((ofNext init next).restrict G).Reachable s)
    (h : run (guarded G next) s l = some t) : ((ofNext init next).restrict G).Reachable t := by
  induction l generalizing s with
  | nil => exact Option.some.inj h ▸ hs
  | cons a l ih =>
    obtain ⟨u, hu, h⟩ := Option.bind_eq_some_iff.mp h
    exact ih (hs.step (guarded_eq_some.mp hu)) h

/-- Such a run with labels of `A` only. -/
theorem path_of_run {init s t : σ} {next : σ → α → Option σ} {G : σ → α → Prop}
    [∀ s a, Decidable (G s a)] {A : α → Prop} {l : List α} (hl : ∀ a ∈ l, A a)
    (h : run (guarded G next) s l = some t) : ((ofNext init next).restrict G).Path A s t := by
  induction l generalizing s with
  | nil => exact Option.some.inj h ▸ .refl s
  | cons a l ih =>
    obtain ⟨u, hu, h⟩ := Option.bind_eq_some_iff.mp h
    obtain ⟨ha, hl⟩ := List.forall_mem_cons.mp hl
    exact .head ha (guarded_eq_some.mp hu) (ih hl h)

/-- Such a run with its labels. -/
theorem traced_of_run {init s t : σ} {next : σ → α → Option σ} {G : σ → α → Prop}
    [∀ s a, Decidable (G s a)] {l l' : List α}
    (hs : ((ofNext init next).restrict G).traced.Reachable (s, l'))
    (h : run (guarded G next) s l = some t) :
    ((ofNext init next).restrict G).traced.Reachable (t, l' ++ l) := by
  induction l generalizing s l' with
  | nil =>
    obtain rfl := Option.some.inj h
    rwa [List.append_nil]
  | cons a l ih =>
    obtain ⟨u, hu, h⟩ := Option.bind_eq_some_iff.mp h
    have hnext := ih (hs.step (t := (u, l' ++ [a])) ⟨guarded_eq_some.mp hu, rfl⟩) h
    rwa [List.append_assoc] at hnext

end Executable

end TransitionSystem
