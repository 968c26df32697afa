import JobSystem.Library.TransitionSystem
import Mathlib.Combinatorics.Enumerative.DoubleCounting
import Mathlib.Data.Fintype.Basic
import Mathlib.Data.Set.Insert
import Mathlib.Order.Antichain
import Mathlib.Logic.Function.Basic

/-! What a group of executors is for. Tasks are dealt out to the executors in turn. An executor runs
the tasks dealt to it and no others, one at a time and in any order in which a task comes after the
return of all it needs. What a task needs is declared before either of the two is dealt. -/
namespace Executors
open TransitionSystem

@[ext] structure State (κ ι : Type*) where
  /-- What has been dealt to an executor and not been started. -/
  pool : κ → Set ι
  busy : κ → Option ι
  returned : Set ι
  needs : ι → ι → Prop
  /-- Who gets the next task. -/
  turn : κ

inductive Event (κ ι : Type*) where
  | link (d x : ι)
  | deal (j : ι)
  | start (k : κ) (j : ι)
  | ret (k : κ) (j : ι)
  deriving DecidableEq

def Event.dealt {κ ι : Type*} : Event κ ι → Option ι
  | .deal j => some j
  | _ => none

variable {κ ι : Type*} {next : κ → κ} {first k k' : κ} {j x : ι} {s t : State κ ι} {e : Event κ ι}

def State.Dealt (s : State κ ι) (j : ι) : Prop :=
  (∃ k, j ∈ s.pool k) ∨ (∃ k, s.busy k = some j) ∨ j ∈ s.returned

inductive Step [DecidableEq κ] (next : κ → κ) (s : State κ ι) : Event κ ι → State κ ι → Prop
  | link {d x : ι} : ¬ s.Dealt d → ¬ s.Dealt x →
      Step next s (.link d x) { s with needs := fun j y => s.needs j y ∨ j = d ∧ y = x }
  | deal {j : ι} : ¬ s.Dealt j →
      Step next s (.deal j) { s with
        pool := Function.update s.pool s.turn (insert j (s.pool s.turn))
        turn := next s.turn }
  | start {k : κ} {j : ι} : j ∈ s.pool k → s.busy k = none →
      (∀ x, s.needs j x → x ∈ s.returned) →
      Step next s (.start k j) { s with
        pool := Function.update s.pool k (s.pool k \ {j})
        busy := Function.update s.busy k (some j) }
  | ret {k : κ} {j : ι} : s.busy k = some j →
      Step next s (.ret k j) { s with
        busy := Function.update s.busy k none
        returned := insert j s.returned }

/-- The executors are asked in the order `first`, `next first` and so on. -/
def executors [DecidableEq κ] (next : κ → κ) (first : κ) : System (State κ ι) (Event κ ι) where
  init s := s = ⟨fun _ => ∅, fun _ => none, ∅, fun _ _ => False, first⟩
  step := Step next

/-- A task is with one executor at most, and it is started behind all it needs. -/
structure Sound (s : State κ ι) : Prop where
  pool_unique : ∀ {k k' j}, j ∈ s.pool k → j ∈ s.pool k' → k = k'
  pool_busy : ∀ {k k' j}, j ∈ s.pool k → s.busy k' ≠ some j
  busy_unique : ∀ {k k' j}, s.busy k = some j → s.busy k' = some j → k = k'
  pool_returned : ∀ {k j}, j ∈ s.pool k → j ∉ s.returned
  busy_returned : ∀ {k j}, s.busy k = some j → j ∉ s.returned
  needs : ∀ {j x}, (∃ k, s.busy k = some j) ∨ j ∈ s.returned → s.needs j x → x ∈ s.returned

theorem Sound.init :
    Sound (⟨fun _ => ∅, fun _ => none, ∅, fun _ _ => False, first⟩ : State κ ι) := by
  constructor <;> simp

/-- Whatever a running or a returned task needs, directly or not, has returned. -/
theorem Sound.transGen (h : Sound s) (hj : (∃ k, s.busy k = some j) ∨ j ∈ s.returned)
    (hx : Relation.TransGen s.needs j x) : x ∈ s.returned := by
  induction hx with
  | single hx => exact h.needs hj hx
  | tail _ hx ih => exact h.needs (.inr ih) hx

section
variable [DecidableEq κ]

namespace Sound

theorem deal (h : Sound s) (hj : ¬ s.Dealt j) :
    Sound { s with
      pool := Function.update s.pool s.turn (insert j (s.pool s.turn))
      turn := next s.turn } := by
  have hpool {k x} (hx : x ∈ Function.update s.pool s.turn (insert j (s.pool s.turn)) k) :
      x ∈ s.pool k ∨ x = j ∧ k = s.turn := by
    by_cases hk : k = s.turn
    · subst hk
      rw [Function.update_self] at hx
      exact hx.symm.imp_right fun hx => ⟨hx, rfl⟩
    · rw [Function.update_of_ne hk] at hx
      exact .inl hx
  refine ⟨fun hx hx' => ?_, fun {k k' x} hx hb => ?_, h.busy_unique, fun {k x} hx hr => ?_,
    h.busy_returned, h.needs⟩
  · obtain hx | ⟨he, hk⟩ := hpool hx <;> obtain hx' | ⟨he', hk'⟩ := hpool hx'
    · exact h.pool_unique hx hx'
    · exact absurd (.inl ⟨_, he' ▸ hx⟩) hj
    · exact absurd (.inl ⟨_, he ▸ hx'⟩) hj
    · exact hk.trans hk'.symm
  · obtain hx | ⟨rfl, -⟩ := hpool hx
    · exact h.pool_busy hx hb
    · exact hj (.inr (.inl ⟨k', hb⟩))
  · obtain hx | ⟨rfl, -⟩ := hpool hx
    · exact h.pool_returned hx hr
    · exact hj (.inr (.inr hr))

theorem start (h : Sound s) (hj : j ∈ s.pool k) (hneeds : ∀ x, s.needs j x → x ∈ s.returned) :
    Sound { s with
      pool := Function.update s.pool k (s.pool k \ {j})
      busy := Function.update s.busy k (some j) } := by
  have hpool {k' x} (hx : x ∈ Function.update s.pool k (s.pool k \ {j}) k') :
      x ∈ s.pool k' ∧ x ≠ j := by
    by_cases hk : k' = k
    · subst hk
      rwa [Function.update_self] at hx
    · rw [Function.update_of_ne hk] at hx
      refine ⟨hx, ?_⟩
      rintro rfl
      exact hk (h.pool_unique hx hj)
  have hbusy {k' x} (hb : Function.update s.busy k (some j) k' = some x) :
      s.busy k' = some x ∨ x = j ∧ k' = k := by
    by_cases hk : k' = k
    · subst hk
      rw [Function.update_self] at hb
      exact .inr ⟨(Option.some.inj hb).symm, rfl⟩
    · rw [Function.update_of_ne hk] at hb
      exact .inl hb
  refine ⟨fun hx hx' => h.pool_unique (hpool hx).1 (hpool hx').1, fun hx hb => ?_,
    fun hb hb' => ?_, fun hx => h.pool_returned (hpool hx).1, fun hb => ?_, fun hx hn => ?_⟩
  · obtain hb | ⟨rfl, -⟩ := hbusy hb
    · exact h.pool_busy (hpool hx).1 hb
    · exact (hpool hx).2 rfl
  · obtain hb | ⟨he, hk⟩ := hbusy hb <;> obtain hb' | ⟨he', hk'⟩ := hbusy hb'
    · exact h.busy_unique hb hb'
    · exact absurd (he' ▸ hb) (h.pool_busy hj)
    · exact absurd (he ▸ hb') (h.pool_busy hj)
    · exact hk.trans hk'.symm
  · obtain hb | ⟨rfl, -⟩ := hbusy hb
    · exact h.busy_returned hb
    · exact h.pool_returned hj
  · obtain ⟨k', hb⟩ | hr := hx
    · obtain hb | ⟨rfl, -⟩ := hbusy hb
      · exact h.needs (.inl ⟨k', hb⟩) hn
      · exact hneeds _ hn
    · exact h.needs (.inr hr) hn

theorem ret (h : Sound s) (hj : s.busy k = some j) :
    Sound { s with busy := Function.update s.busy k none, returned := insert j s.returned } := by
  have hbusy {k' x} (hb : Function.update s.busy k none k' = some x) :
      s.busy k' = some x ∧ k' ≠ k := by
    by_cases hk : k' = k
    · subst hk
      rw [Function.update_self] at hb
      cases hb
    · rw [Function.update_of_ne hk] at hb
      exact ⟨hb, hk⟩
  refine ⟨h.pool_unique, fun hx hb => h.pool_busy hx (hbusy hb).1,
    fun hb hb' => h.busy_unique (hbusy hb).1 (hbusy hb').1, fun hx hr => ?_, fun hb hr => ?_,
    fun hx hn => .inr ?_⟩
  · obtain rfl | hr := hr
    · exact h.pool_busy hx hj
    · exact h.pool_returned hx hr
  · obtain ⟨hold, hk⟩ := hbusy hb
    obtain rfl | hr := hr
    · exact hk (h.busy_unique hold hj)
    · exact h.busy_returned hold hr
  · obtain ⟨k', hb⟩ | rfl | hr := hx
    · exact h.needs (.inl ⟨k', (hbusy hb).1⟩) hn
    · exact h.needs (.inl ⟨k, hj⟩) hn
    · exact h.needs (.inr hr) hn

theorem step (h : Sound s) (ht : Step next s e t) : Sound t := by
  cases ht with
  | @link d x hd hx =>
    refine ⟨h.pool_unique, h.pool_busy, h.busy_unique, h.pool_returned, h.busy_returned,
      fun hj hn => ?_⟩
    obtain hn | ⟨rfl, -⟩ := hn
    · exact h.needs hj hn
    · exact absurd (.inr hj) hd
  | deal hj => exact h.deal hj
  | start hj _ hneeds => exact h.start hj hneeds
  | ret hj => exact h.ret hj

end Sound

theorem reachable_sound (h : (executors next first).Reachable s) : Sound s :=
  h.invariant (fun _ hs => hs ▸ .init) fun _ _ _ _ hs ht => hs.step ht

/-- What runs at the same time is independent. -/
theorem busy_antichain (h : (executors next first).Reachable s) :
    IsAntichain (Relation.TransGen s.needs) { j | ∃ k, s.busy k = some j } := by
  have hs := reachable_sound h
  rintro j ⟨k, hj⟩ x ⟨k', hx⟩ - hn
  exact hs.busy_returned hx (hs.transGen (.inl ⟨k, hj⟩) hn)

/-- Not more is run at the same time than there are chains that cover what is run. -/
theorem card_busy_le [Fintype κ] (h : (executors next first).Reachable s) {γ : Type*}
    (chains : Finset γ) (chain : ι → γ) (hmem : ∀ k j, s.busy k = some j → chain j ∈ chains)
    (hchain : ∀ k j k' x, s.busy k = some j → s.busy k' = some x → chain j = chain x → j ≠ x →
      Relation.TransGen s.needs j x ∨ Relation.TransGen s.needs x j) :
    (Finset.univ.filter fun k => (s.busy k).isSome).card ≤ chains.card := by
  have hs := reachable_sound h
  have hanti := busy_antichain h
  have hbusy {k} (hk : k ∈ Finset.univ.filter fun k => (s.busy k).isSome) :
      ∃ j, s.busy k = some j := Option.isSome_iff_exists.mp (Finset.mem_filter.mp hk).2
  refine Finset.card_le_card_of_forall_subsingleton
    (fun k c => ∃ j, s.busy k = some j ∧ chain j = c) (fun k hk => ?_) fun c _ k hk k' hk' => ?_
  · obtain ⟨j, hj⟩ := hbusy hk
    exact ⟨_, hmem k j hj, j, hj, rfl⟩
  · obtain ⟨-, j, hj, rfl⟩ := hk
    obtain ⟨-, x, hx, he⟩ := hk'
    by_cases hne : j = x
    · subst hne
      exact hs.busy_unique hj hx
    · obtain hn | hn := hchain k j k' x hj hx he.symm hne
      · exact absurd hn (hanti ⟨k, hj⟩ ⟨k', hx⟩ hne)
      · exact absurd hn (hanti ⟨k', hx⟩ ⟨k, hj⟩ (Ne.symm hne))

end

end Executors
