import JobSystem.Library.TransitionSystem
import Mathlib.Data.List.Count
import Mathlib.Data.Set.Finite.Basic

/-! What a scheduler with dependencies is for, as a log of three kinds of event over
arbitrary tasks: a dependency is declared, a task starts, a task returns. The log grows at
its head. A task may start only once and only after every declared predecessor has returned,
and its dependencies are declared before it starts. -/
namespace Precedence
open TransitionSystem

inductive Event (ι : Type*) where
  | link (dependent dependency : ι)
  | start (j : ι)
  | ret (j : ι)
  deriving DecidableEq

variable {ι : Type*} {l pre post : List (Event ι)} {j x y : ι}

/-- `j` was declared to depend on `x`. -/
def DependsOn (l : List (Event ι)) (j x : ι) : Prop := .link j x ∈ l

def Permitted (l : List (Event ι)) : Event ι → Prop
  | .link d _ => .start d ∉ l
  | .start j => .start j ∉ l ∧ ∀ x, DependsOn l j x → .ret x ∈ l
  | .ret j => .start j ∈ l ∧ .ret j ∉ l

def scheduler (ι : Type*) : System (List (Event ι)) (Event ι) where
  init l := l = []
  step l e l' := Permitted l e ∧ l' = e :: l

theorem reachable_cons {e : Event ι} (h : (scheduler ι).Reachable (e :: l)) :
    (scheduler ι).Reachable l ∧ Permitted l e := by
  generalize he : e :: l = l' at h
  cases h with
  | init h => exact absurd (he.trans h) (by simp)
  | step h ht =>
    obtain ⟨hp, rfl⟩ := ht
    obtain ⟨rfl, rfl⟩ := List.cons.inj he
    exact ⟨h, hp⟩

/-- Every earlier log of the scheduler is one of its logs. -/
theorem reachable_suffix (post : List (Event ι)) (h : (scheduler ι).Reachable (post ++ l)) :
    (scheduler ι).Reachable l := by
  induction post with
  | nil => exact h
  | cons e post ih => exact ih (reachable_cons h).1

/-- A property of permitted events holds of every event of a log, at the time it was added. -/
theorem permitted_of_split {e : Event ι} (post : List (Event ι))
    (h : (scheduler ι).Reachable (post ++ e :: pre)) : Permitted pre e :=
  (reachable_cons (reachable_suffix post h)).2

theorem start_of_ret (h : (scheduler ι).Reachable l) (hr : .ret j ∈ l) : .start j ∈ l := by
  obtain ⟨post, pre, rfl⟩ := List.append_of_mem hr
  have hp := (permitted_of_split post h).1
  simp [hp]

/-- No dependency of a task is declared after its start. -/
theorem dependsOn_before_start (h : (scheduler ι).Reachable (post ++ .start j :: pre))
    (hd : DependsOn (post ++ .start j :: pre) j x) : DependsOn pre j x := by
  rcases List.mem_append.mp hd with hm | hm
  · obtain ⟨late, early, rfl⟩ := List.append_of_mem hm
    have hp : Permitted (early ++ .start j :: pre) (.link j x) :=
      permitted_of_split late (by simpa using h)
    exact absurd (by simp) hp
  · simpa [DependsOn] using hm

/-- A direct predecessor has returned before the task starts. -/
theorem ret_before_start (h : (scheduler ι).Reachable (post ++ .start j :: pre))
    (hd : DependsOn (post ++ .start j :: pre) j x) : .ret x ∈ pre :=
  (permitted_of_split post h).2 x (dependsOn_before_start h hd)

/-- Every direct or transitive predecessor has returned before the task starts. -/
theorem transitive_ret_before_start (h : (scheduler ι).Reachable (post ++ .start j :: pre))
    (hd : Relation.TransGen (DependsOn (post ++ .start j :: pre)) j x) : .ret x ∈ pre := by
  induction hd with
  | single hd => exact ret_before_start h hd
  | @tail y x _ hyx ih =>
    obtain ⟨late, early, rfl⟩ :=
      List.append_of_mem (start_of_ret (reachable_suffix (post ++ [.start j])
        (by simpa using h)) ih)
    have hsplit : post ++ .start j :: (late ++ .start y :: early) =
        (post ++ .start j :: late) ++ .start y :: early := by simp
    rw [hsplit] at h hyx
    have hr := ret_before_start h hyx
    simp [hr]

/-- Every predecessor of a started task has returned. -/
theorem ret_of_start (h : (scheduler ι).Reachable l) (hs : .start j ∈ l)
    (hd : Relation.TransGen (DependsOn l) j x) : .ret x ∈ l := by
  obtain ⟨post, pre, rfl⟩ := List.append_of_mem hs
  have hr := transitive_ret_before_start h hd
  simp [hr]

/-- A task on a cycle, or behind one, never starts. -/
theorem not_cyclic_of_start (h : (scheduler ι).Reachable l) (hs : .start j ∈ l) :
    ¬ Relation.TransGen (DependsOn l) j j := by
  intro hc
  obtain ⟨post, pre, rfl⟩ := List.append_of_mem hs
  have hpre : (scheduler ι).Reachable pre :=
    reachable_suffix (post ++ [.start j]) (by simpa using h)
  exact (permitted_of_split post h).1 (start_of_ret hpre (transitive_ret_before_start h hc))

/-- Among finitely many tasks off all cycles, one depends on none of the others. -/
theorem exists_independent {r : ι → ι → Prop} (U : Finset ι) (hne : U.Nonempty)
    (hirr : ∀ x ∈ U, ¬ Relation.TransGen r x x) :
    ∃ x ∈ U, ∀ y ∈ U, ¬ Relation.TransGen r x y := by
  have htrans : IsTrans U fun y x => Relation.TransGen r x y :=
    ⟨fun _ _ _ hba hcb => hcb.trans hba⟩
  have hirr' : Std.Irrefl fun y x : U => Relation.TransGen r (x : ι) y :=
    ⟨fun x hx => hirr x x.2 hx⟩
  have hwf : WellFounded fun y x : U => Relation.TransGen r (x : ι) y :=
    Finite.wellFounded_of_trans_of_irrefl _
  obtain ⟨x, -, hmin⟩ := hwf.has_min Set.univ ⟨⟨_, hne.choose_spec⟩, trivial⟩
  exact ⟨x, x.2, fun y hy => hmin ⟨y, hy⟩ trivial⟩

end Precedence
