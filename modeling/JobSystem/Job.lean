import Mathlib.Data.List.Basic
import Mathlib.Tactic.Common

/-! Jobs and the queues they wait in (`JobQueue.h`, `JobQueue.cpp`). -/
namespace JobSystem

/-- A `Job*`: the number of the `CreateJob` call that made the job. -/
abbrev JobId := ℕ

/-- A `void (*)()`, kept as a code address. -/
abbrev JobFunction := ℕ

def maxDependentCount : ℕ := 13

/-- `struct Job`, with a `JobQueue*` kept as the index of the queue in `queues`. -/
structure Job (n : ℕ) where
  jobFunction : Option JobFunction := none
  queue : Option (Fin n) := none
  dependencyCount : UInt32 := 0
  dependentCount : ℕ := 0
  dependents : Vector (Option JobId) maxDependentCount := .replicate _ none

variable {n : ℕ}

/-- `dependents[i]`; `none` is the null pointer. -/
def Job.dependentAt (x : Job n) (i : ℕ) : Option JobId := x.dependents[i]?.join

/-- `dependents[dependentCount] = dependent; dependentCount++;` -/
def Job.addDependent (x : Job n) (dependent : JobId) : Job n :=
  { x with
    dependents := x.dependents.setIfInBounds x.dependentCount (some dependent)
    dependentCount := x.dependentCount + 1 }

@[simp] theorem Job.addDependent_queue (x : Job n) (d : JobId) :
    (x.addDependent d).queue = x.queue := rfl

@[simp] theorem Job.addDependent_dependencyCount (x : Job n) (d : JobId) :
    (x.addDependent d).dependencyCount = x.dependencyCount := rfl

@[simp] theorem Job.addDependent_dependentCount (x : Job n) (d : JobId) :
    (x.addDependent d).dependentCount = x.dependentCount + 1 := rfl

theorem Job.dependentAt_addDependent (x : Job n) (d : JobId) (i : ℕ) :
    (x.addDependent d).dependentAt i =
      if i = x.dependentCount ∧ i < maxDependentCount then some d else x.dependentAt i := by
  unfold dependentAt addDependent
  rw [Vector.getElem?_setIfInBounds]
  by_cases hi : x.dependentCount = i
  · subst hi
    by_cases hlt : x.dependentCount < maxDependentCount <;> simp [hlt]
  · simp [hi, Ne.symm hi]

/-- The two parts of a `JobQueue` that its operations change: the deque, back last, and
whether `mutex` is locked. -/
structure JobQueue where
  deque : List JobId := []
  locked : Bool := false
  deriving DecidableEq

namespace JobQueue

/-- The critical section of `Push`: `deque.push_back(job)`. -/
def push (q : JobQueue) (j : JobId) : JobQueue := { q with deque := q.deque ++ [j] }

/-- `Pop` takes the job at the back, the private end. -/
def pop (q : JobQueue) : Option JobId × JobQueue :=
  (q.deque.getLast?, { q with deque := q.deque.dropLast })

/-- `Steal` takes the job at the front, the public end. -/
def steal (q : JobQueue) : Option JobId × JobQueue :=
  (q.deque.head?, { q with deque := q.deque.tail })

def isEmpty (q : JobQueue) : Bool := q.deque.isEmpty

end JobQueue

end JobSystem
