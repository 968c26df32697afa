import JobSystem.Library.TransitionSystem
import Mathlib.Data.Fintype.Card
import Mathlib.Data.Nat.Find
import Mathlib.Order.MinMax

/-! Runs without end, what happens again and again along them, and the rule by which it brings
about what a measure counts down to. -/
namespace TransitionSystem

/-- Again and again: however long one waits, it happens once more. -/
def Often (H : ℕ → Prop) : Prop := ∀ i, ∃ j ≥ i, H j

namespace Often
variable {H G : ℕ → Prop}

theorem mono (h : Often H) (himp : ∀ i, H i → G i) : Often G := fun i =>
  (h i).imp fun j hj => ⟨hj.1, himp j hj.2⟩

/-- It is the same whether one counts from the beginning or from a later time. -/
theorem shift_iff (i : ℕ) : Often (fun j => H (i + j)) ↔ Often H := by
  constructor
  · intro h i'
    obtain ⟨j, hj, hH⟩ := h i'
    exact ⟨i + j, by omega, hH⟩
  · intro h i'
    obtain ⟨j, hj, hH⟩ := h (i + i')
    obtain ⟨d, rfl⟩ := Nat.exists_eq_add_of_le (show i ≤ j by omega)
    exact ⟨d, by omega, hH⟩

theorem eventually_not (h : ¬ Often H) : ∃ i, ∀ j ≥ i, ¬ H j := by
  simpa [Often] using h

/-- The next time that it happens. -/
theorem exists_next (h : Often H) (i : ℕ) :
    ∃ j ≥ i, H j ∧ ∀ i' ≥ i, i' < j → ¬ H i' := by
  classical
  refine ⟨Nat.find (h i), (Nat.find_spec (h i)).1, (Nat.find_spec (h i)).2, fun i' hi hlt hH => ?_⟩
  exact Nat.find_min (h i) hlt ⟨hi, hH⟩

/-- What is kept until the next time holds at that time. -/
theorem exists_next_of_kept {I : ℕ → Prop} (h : Often H) {i : ℕ}
    (hkeep : ∀ j ≥ i, I j → ¬ H j → I (j + 1)) (hi : I i) : ∃ j ≥ i, H j ∧ I j := by
  obtain ⟨j, hj, hH, hmin⟩ := h.exists_next i
  refine ⟨j, hj, hH, ?_⟩
  have hall : ∀ d, i + d ≤ j → I (i + d) := by
    intro d
    induction d with
    | zero => exact fun _ => hi
    | succ d ih =>
      intro hle
      exact hkeep _ (Nat.le_add_right i d) (ih (Nat.le_of_succ_le hle))
        (hmin _ (Nat.le_add_right i d) hle)
  have hd := hall (j - i) (by omega)
  rwa [Nat.add_sub_cancel' hj] at hd

/-- A measure that never rises from some time on does not fall again and again. -/
theorem not_decreasing {β : Type*} {r : β → β → Prop} (hr : WellFounded r) (μ : ℕ → β) (i : ℕ)
    (hstep : ∀ j ≥ i, μ (j + 1) = μ j ∨ r (μ (j + 1)) (μ j))
    (hfall : ∀ j ≥ i, H j → r (μ (j + 1)) (μ j)) : ¬ Often H := by
  intro h
  induction hx : μ i using hr.induction generalizing i with
  | _ x ih =>
    subst hx
    have hfalls : Often fun j => i ≤ j ∧ r (μ (j + 1)) (μ j) := fun i' => by
      obtain ⟨j, hj, hH⟩ := h (max i i')
      have hij : i ≤ j := le_of_max_le_left hj
      exact ⟨j, le_of_max_le_right hj, hij, hfall j hij hH⟩
    obtain ⟨j, hj, ⟨-, hlt⟩, hsame⟩ := hfalls.exists_next_of_kept (I := fun j => μ j = μ i) (i := i)
      (fun j hj he hnot => ((hstep j hj).resolve_right fun hlt => hnot ⟨hj, hlt⟩).trans he) rfl
    refine ih _ (hsame ▸ hlt) (j + 1) (fun j' hj' => hstep j' ?_) (fun j' hj' => hfall j' ?_) rfl
    · omega
    · omega

end Often

namespace System
variable {σ α : Type*} {T : System σ α} {A : α → Prop}

/-- A run of labels of `A` that never ends. At a time without a label nothing happens, so that a
run may also come to a stop. -/
structure Run (T : System σ α) (A : α → Prop) where
  state : ℕ → σ
  label : ℕ → Option α
  step : ∀ i, label i = none ∧ state (i + 1) = state i ∨
    ∃ a, label i = some a ∧ A a ∧ T.step (state i) a (state (i + 1))

namespace Run

/-- At this time a label of `K` is taken. -/
def Takes (r : T.Run A) (K : α → Prop) (i : ℕ) : Prop := ∃ a, r.label i = some a ∧ K a

/-- The labels of `K` are not kept from their turn for ever: again and again one of them is taken
or none of them can be. -/
def Just (r : T.Run A) (K : α → Prop) : Prop :=
  Often fun i => r.Takes K i ∨ ¬ ∃ a t, K a ∧ T.step (r.state i) a t

/-- The labels of `K` are taken again and again if again and again one of them can be. This is what
a thread relies on that competes for a mutex. -/
def Compassionate (r : T.Run A) (K : α → Prop) : Prop :=
  Often (fun i => ∃ a t, K a ∧ T.step (r.state i) a t) → Often (r.Takes K)

theorem step_of_label (r : T.Run A) {i : ℕ} {a : α} (hl : r.label i = some a) :
    A a ∧ T.step (r.state i) a (r.state (i + 1)) := by
  obtain ⟨hn, -⟩ | ⟨a', hl', ha, ht⟩ := r.step i
  · exact absurd (hn.symm.trans hl) (by simp)
  · obtain rfl := Option.some.inj (hl'.symm.trans hl)
    exact ⟨ha, ht⟩

/-- The same run of a system with more steps. -/
def mono {U : System σ α} (r : T.Run A) (hstep : ∀ s a t, T.step s a t → U.step s a t) :
    U.Run A where
  state := r.state
  label := r.label
  step i := (r.step i).imp id fun ⟨a, hl, ha, ht⟩ => ⟨a, hl, ha, hstep _ _ _ ht⟩

/-- What every step keeps holds from some time on. -/
theorem invariant {I : σ → Prop} (r : T.Run A) (hstep : ∀ s a t, I s → A a → T.step s a t → I t)
    {i j : ℕ} (hi : I (r.state i)) (hij : i ≤ j) : I (r.state j) := by
  induction j, hij using Nat.le_induction with
  | base => exact hi
  | succ j _ ih =>
    obtain ⟨-, he⟩ | ⟨a, -, ha, ht⟩ := r.step j
    · exact he ▸ ih
    · exact hstep _ _ _ ih ha ht

/-- A run whose steps all meet the condition `G` stays within the states that are reached so. -/
theorem reachable_restrict {G : σ → α → Prop} (r : T.Run A)
    (hG : ∀ i a, r.label i = some a → G (r.state i) a)
    (h : (T.restrict G).Reachable (r.state 0)) (i : ℕ) : (T.restrict G).Reachable (r.state i) := by
  induction i with
  | zero => exact h
  | succ i ih =>
    obtain ⟨-, he⟩ | ⟨a, hl, -, ht⟩ := r.step i
    · exact he ▸ ih
    · exact ih.step ⟨hG i a hl, ht⟩

/-- Labels that can be taken from some time on are taken again and again. -/
theorem Just.often {K : α → Prop} {r : T.Run A} (h : r.Just K) {i : ℕ}
    (hen : ∀ j ≥ i, ∃ a t, K a ∧ T.step (r.state j) a t) : Often (r.Takes K) := by
  intro i'
  obtain ⟨j, hj, ht | hn⟩ := h (max i i')
  · exact ⟨j, le_of_max_le_right hj, ht⟩
  · exact absurd (hen j (le_of_max_le_left hj)) hn

theorem Compassionate.just {K : α → Prop} {r : T.Run A} (h : r.Compassionate K) : r.Just K := by
  by_cases ho : Often fun i => ∃ a t, K a ∧ T.step (r.state i) a t
  · exact (h ho).mono fun _ ht => .inl ht
  · obtain ⟨i, hi⟩ := Often.eventually_not ho
    exact fun i' => ⟨max i i', le_max_right i i', .inr (hi _ (le_max_left i i'))⟩

section
variable {ι : Type*} [DecidableEq ι] {K : ι → α → Prop} {s t : σ} {w : ι → ℕ} {q : ι}

/-- What a scheduler does at time `i` that serves the classes `K` of labels in turn: among those
that can go on it lets the one take a step that was served the longest time ago, `w` being the
times. -/
def Serves (T : System σ α) (K : ι → α → Prop) (i : ℕ) (s : σ) (w : ι → ℕ) (label : Option α)
    (t : σ) (w' : ι → ℕ) : Prop :=
  label = none ∧ t = s ∧ w' = w ∧ (∀ q, ¬ ∃ a t, K q a ∧ T.step s a t) ∨
    ∃ q a, label = some a ∧ K q a ∧ T.step s a t ∧ w' = Function.update w q (i + 1) ∧
      ∀ q', (∃ a t, K q' a ∧ T.step s a t) → w q ≤ w q'

/-- There always is such a step. -/
theorem exists_serves (T : System σ α) (K : ι → α → Prop) (i : ℕ) (p : σ × (ι → ℕ)) :
    ∃ (label : Option α) (p' : σ × (ι → ℕ)), Serves T K i p.1 p.2 label p'.1 p'.2 := by
  by_cases hnone : ∀ q, ¬ ∃ a t, K q a ∧ T.step p.1 a t
  · exact ⟨none, p, .inl ⟨rfl, rfl, rfl, hnone⟩⟩
  · push Not at hnone
    obtain ⟨q, ⟨a, t, ha, ht⟩, hmin⟩ := (InvImage.wf p.2 Nat.lt_wfRel.wf).has_min
      {q | ∃ a t, K q a ∧ T.step p.1 a t} hnone
    exact ⟨some a, (t, _), .inr ⟨q, a, rfl, ha, ht, rfl,
      fun q' hq' => Nat.le_of_not_lt (hmin q' hq')⟩⟩

/-- A class that can go on again and again is served again and again: each time that it is not, one
class less was served before it. -/
theorem compassionate_of_serves [Fintype ι] {r : T.Run A} {w : ℕ → ι → ℕ}
    (h : ∀ i, Serves T K i (r.state i) (w i) (r.label i) (r.state (i + 1)) (w (i + 1))) (q : ι) :
    r.Compassionate (K q) := by
  intro hen
  by_contra hnot
  obtain ⟨i, hi⟩ := Often.eventually_not hnot
  have hkeep {j} (hj : i ≤ j) : w (j + 1) q = w j q := by
    obtain ⟨-, -, hw, -⟩ | ⟨q', a, hl, ha, -, hw, -⟩ := h j
    · rw [hw]
    · have hne : q ≠ q' := by
        rintro rfl
        exact hi j hj ⟨a, hl, ha⟩
      rw [hw, Function.update_of_ne hne]
  have hconst {j} (hj : i ≤ j) : w j q = w i q := by
    induction j, hj using Nat.le_induction with
    | base => rfl
    | succ j hj ih => exact (hkeep hj).trans ih
  let front (j : ℕ) : Finset ι := {q' | w j q' ≤ w i q}
  have hfront {j} (hj : w i q ≤ j) : front (j + 1) ⊆ front j := by
    intro x hx
    obtain ⟨-, -, hw, -⟩ | ⟨q', -, -, -, -, hw, -⟩ := h j
    · simpa [front, hw] using hx
    · by_cases hxq : x = q'
      · subst hxq
        have hle : j + 1 ≤ w i q := by simpa [front, hw] using hx
        omega
      · simpa [front, hw, hxq] using hx
  refine hen.not_decreasing Nat.lt_wfRel.wf (fun j => (front j).card) (max i (w i q))
    (fun j hj => ?_) fun j hj hq => ?_
  · exact (Finset.card_le_card (hfront (le_of_max_le_right hj))).eq_or_lt
  · obtain ⟨-, -, -, hno⟩ | ⟨q', -, -, -, -, hw, hmin⟩ := h j
    · exact absurd hq (hno q)
    · have hin : q' ∈ front j := by
        simpa [front] using (hmin q hq).trans_eq (hconst (le_of_max_le_left hj))
      refine Finset.card_lt_card ⟨hfront (le_of_max_le_right hj), fun hsub => ?_⟩
      have hle : j + 1 ≤ w i q := by simpa [front, hw] using hsub hin
      have hlt := le_of_max_le_right hj
      omega

/-- From every state there is a run that is compassionate towards finitely many classes of
labels. -/
theorem exists_compassionate [Finite ι] (K : ι → α → Prop) (hK : ∀ q a, K q a → A a) (s : σ) :
    ∃ r : T.Run A, r.state 0 = s ∧ ∀ q, r.Compassionate (K q) := by
  cases nonempty_fintype ι
  choose label next hserves using exists_serves T K
  let f : ℕ → σ × (ι → ℕ) := Nat.rec (s, fun _ => 0) fun i p => next i p
  let r : T.Run A := ⟨fun i => (f i).1, fun i => label i (f i), fun i => by
    obtain ⟨hl, he, -⟩ | ⟨q, a, hl, ha, ht, -⟩ := hserves i (f i)
    · exact .inl ⟨hl, he⟩
    · exact .inr ⟨a, hl, hK q a ha, ht⟩⟩
  exact ⟨r, rfl, compassionate_of_serves (w := fun i => (f i).2) fun i => hserves i (f i)⟩

end

/-- The state that stays as it is. -/
def rest (T : System σ α) (A : α → Prop) (s : σ) : T.Run A where
  state _ := s
  label _ := none
  step _ := .inl ⟨rfl, rfl⟩

/-- A step, and then the run. -/
def cons (r : T.Run A) {s : σ} {a : α} (ha : A a) (ht : T.step s a (r.state 0)) : T.Run A where
  state
    | 0 => s
    | i + 1 => r.state i
  label
    | 0 => some a
    | i + 1 => r.label i
  step
    | 0 => .inr ⟨a, rfl, ha, ht⟩
    | i + 1 => r.step i

end Run

/-- A finite run, and then rest. -/
theorem Path.exists_run {s t : σ} (h : T.Path A s t) : ∃ r : T.Run A, r.state 0 = s ∧
    ∃ i, ∀ j ≥ i, r.state j = t ∧ r.label j = none := by
  induction h with
  | refl s => exact ⟨.rest T A s, rfl, 0, fun _ _ => ⟨rfl, rfl⟩⟩
  | head ha ht _ ih =>
    obtain ⟨r, hr, i, hrest⟩ := ih
    subst hr
    refine ⟨r.cons ha ht, rfl, i + 1, fun j hj => ?_⟩
    obtain ⟨j, rfl⟩ := Nat.exists_eq_add_of_le' hj
    exact hrest (j + i) (Nat.le_add_left i j)

end System

end TransitionSystem
