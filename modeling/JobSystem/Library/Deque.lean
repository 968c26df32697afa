import Mathlib.Data.List.Induction
import Mathlib.Data.List.Nodup
import Mathlib.Data.List.Perm.Basic

/-! A double-ended queue over an arbitrary type that grows at its back and is consumed at both
ends, and what its whole history says about it: the queue is always the entries that have been
pushed and not removed, in the order of their pushes. -/
namespace Deque
variable {α : Type*}

inductive Op (α : Type*) where
  | push (a : α)
  | pop
  | steal
  deriving DecidableEq

/-- What a call leaves of the queue `l`, back last. -/
def Op.apply (l : List α) : Op α → List α
  | .push a => l ++ [a]
  | .pop => l.dropLast
  | .steal => l.tail

/-- The value that a push adds. -/
def Op.pushee : Op α → Option α
  | .push a => some a
  | _ => none

/-- A queue with its history. Each push makes a new entry, numbered by the pushes before it;
all lists are in the order of time, the oldest entry first. -/
structure Tracked (α : Type*) where
  pushes : List α := []
  popped : List (α × ℕ) := []
  stolen : List (α × ℕ) := []
  present : List (α × ℕ) := []

namespace Tracked

def step (t : Tracked α) : Op α → Tracked α
  | .push a =>
    { t with pushes := t.pushes ++ [a], present := t.present ++ [(a, t.pushes.length)] }
  | .pop =>
    { t with popped := t.popped ++ t.present.getLast?.toList, present := t.present.dropLast }
  | .steal =>
    { t with stolen := t.stolen ++ t.present.head?.toList, present := t.present.tail }

/-- The entries pushed so far. -/
def pushed (t : Tracked α) : List (α × ℕ) := t.pushes.zipIdx

def removed (t : Tracked α) : List (α × ℕ) := t.popped ++ t.stolen

/-- Pushed and not removed. -/
def Remains (t : Tracked α) (e : α × ℕ) : Prop := e ∈ t.pushed ∧ e ∉ t.removed

/-- The entries are those removed and those present, and what is stolen or present is in the
order of the pushes. -/
structure Sound (t : Tracked α) : Prop where
  partition : (t.removed ++ t.present).Perm t.pushed
  ordered : (t.stolen ++ t.present).Pairwise (·.2 < ·.2)

theorem Sound.init : ({} : Tracked α).Sound := ⟨.nil, .nil⟩

theorem pushed_lt {t : Tracked α} {e : α × ℕ} (he : e ∈ t.pushed) : e.2 < t.pushes.length := by
  simpa using (List.mem_zipIdx he).2.1

theorem Sound.mem_pushed {t : Tracked α} (h : t.Sound) {e : α × ℕ}
    (he : e ∈ t.stolen ++ t.present) : e ∈ t.pushed := by
  refine h.partition.subset ?_
  rcases List.mem_append.mp he with he | he <;> simp [removed, he]

theorem Sound.step {t : Tracked α} (h : t.Sound) (o : Op α) : (t.step o).Sound := by
  cases o with
  | push a =>
    constructor
    · have hp : (t.step (.push a)).pushed = t.pushed ++ [(a, t.pushes.length)] := by
        simp [Tracked.step, pushed, List.zipIdx_append]
      rw [hp]
      change (t.removed ++ (t.present ++ [(a, t.pushes.length)])).Perm _
      rw [← List.append_assoc]
      exact h.partition.append_right _
    · change (t.stolen ++ (t.present ++ [(a, t.pushes.length)])).Pairwise (·.2 < ·.2)
      rw [← List.append_assoc, List.pairwise_append]
      refine ⟨h.ordered, List.pairwise_singleton _ _, fun e he e' he' => ?_⟩
      obtain rfl := List.mem_singleton.mp he'
      exact pushed_lt (h.mem_pushed he)
  | pop =>
    constructor
    · have hl : t.present.dropLast ++ t.present.getLast?.toList = t.present := by
        rcases List.eq_nil_or_concat t.present with hn | ⟨l, e, hn⟩ <;> simp [hn]
      have hperm : (t.popped ++ t.present.getLast?.toList ++ t.stolen ++ t.present.dropLast).Perm
          (t.removed ++ t.present) := by
        have h1 : (t.present.getLast?.toList ++ (t.stolen ++ t.present.dropLast)).Perm
            (t.stolen ++ t.present) := by
          refine List.perm_append_comm.trans ?_
          rw [List.append_assoc, hl]
        simpa [removed] using h1.append_left t.popped
      exact hperm.trans h.partition
    · exact h.ordered.sublist ((List.dropLast_sublist _).append_left _)
  | steal =>
    have hl : t.present.head?.toList ++ t.present.tail = t.present := by
      cases t.present <;> rfl
    constructor
    · have he : (t.step .steal).removed ++ (t.step .steal).present = t.removed ++ t.present := by
        simp [Tracked.step, removed, hl]
      rw [he]
      exact h.partition
    · have he : (t.step .steal).stolen ++ (t.step .steal).present = t.stolen ++ t.present := by
        simp [Tracked.step, hl]
      rw [he]
      exact h.ordered

/-- The entries of a history from the empty queue. -/
def run (ops : List (Op α)) : Tracked α := ops.foldl step {}

theorem sound_run (ops : List (Op α)) : (run ops).Sound := by
  induction ops using List.reverseRecOn with
  | nil => exact .init
  | append_singleton ops o ih =>
    rw [run, List.foldl_append]
    exact ih.step o

theorem run_concat (ops : List (Op α)) (o : Op α) : run (ops ++ [o]) = (run ops).step o := by
  simp [run]

namespace Sound
variable {t : Tracked α} {e : α × ℕ}

theorem nodup (h : t.Sound) : (t.removed ++ t.present).Nodup := by
  refine h.partition.nodup_iff.mpr (List.Nodup.of_map Prod.snd ?_)
  rw [pushed, List.zipIdx_map_snd]
  exact List.nodup_range'

theorem mem_present (h : t.Sound) : e ∈ t.present ↔ t.Remains e := by
  have hd := (List.nodup_append.mp h.nodup).2.2
  have hmem : e ∈ t.removed ++ t.present ↔ e ∈ t.pushed := h.partition.mem_iff
  rw [Remains, ← hmem, List.mem_append]
  constructor
  · exact fun he => ⟨.inr he, fun hr => hd e hr e he rfl⟩
  · rintro ⟨he | he, hn⟩
    · exact absurd he hn
    · exact he

theorem stolen_ordered (h : t.Sound) : t.stolen.Pairwise (·.2 < ·.2) :=
  (List.pairwise_append.mp h.ordered).1

/-- Every entry pushed has been removed. -/
theorem present_eq_nil (h : t.Sound) : t.present = [] ↔ ∀ e ∈ t.pushed, e ∈ t.removed := by
  rw [List.eq_nil_iff_forall_not_mem]
  refine forall_congr' fun e => ?_
  rw [h.mem_present, Remains, not_and, not_not]

/-- The entry at the back is the latest that remains. -/
theorem getLast_latest (h : t.Sound) (he : t.present.getLast? = some e) :
    t.Remains e ∧ ∀ e', t.Remains e' → e'.2 ≤ e.2 := by
  obtain ⟨l, hl⟩ := List.getLast?_eq_some_iff.mp he
  refine ⟨h.mem_present.mp (by simp [hl]), fun e' he' => ?_⟩
  have hsort := (List.pairwise_append.mp h.ordered).2.1
  rw [hl] at hsort
  have hmem := h.mem_present.mpr he'
  rw [hl, List.mem_append, List.mem_singleton] at hmem
  rcases hmem with hmem | rfl
  · exact Nat.le_of_lt ((List.pairwise_append.mp hsort).2.2 e' hmem e (List.mem_singleton_self e))
  · exact Nat.le_refl _

/-- The entry at the front is the earliest that remains. -/
theorem head_earliest (h : t.Sound) (he : t.present.head? = some e) :
    t.Remains e ∧ ∀ e', t.Remains e' → e.2 ≤ e'.2 := by
  obtain ⟨l, hl⟩ := List.head?_eq_some_iff.mp he
  refine ⟨h.mem_present.mp (by simp [hl]), fun e' he' => ?_⟩
  have hsort := (List.pairwise_append.mp h.ordered).2.1
  rw [hl] at hsort
  have hmem := h.mem_present.mpr he'
  rw [hl, List.mem_cons] at hmem
  rcases hmem with rfl | hmem
  · exact Nat.le_refl _
  · exact Nat.le_of_lt ((List.pairwise_cons.mp hsort).1 e' hmem)

end Sound

/-- Forgetting the numbers of the entries leaves the plain queue. -/
theorem present_step (t : Tracked α) (o : Op α) :
    (t.step o).present.map Prod.fst = o.apply (t.present.map Prod.fst) := by
  cases o <;> simp [step, Op.apply, List.map_dropLast, List.map_tail]

theorem present_run (ops : List (Op α)) :
    (run ops).present.map Prod.fst = ops.foldl Op.apply [] := by
  induction ops using List.reverseRecOn with
  | nil => rfl
  | append_singleton ops o ih => rw [run_concat, present_step, ih, List.foldl_append]; rfl

theorem pushes_run (ops : List (Op α)) : (run ops).pushes = ops.filterMap Op.pushee := by
  induction ops using List.reverseRecOn with
  | nil => rfl
  | append_singleton ops o ih =>
    rw [run_concat, List.filterMap_append, ← ih]
    cases o <;> simp [step, Op.pushee]

end Tracked

end Deque
