import JobSystem.StepCases

/-! Steps that leave the work of a worker as it is: the job in hand, how far that job is, and
the deleted job it has still to count. -/
namespace JobSystem
variable {n : ℕ} {k : Fin n} {s : State n} {p p' : WorkerPc n}

structure WorkerPc.SameWork (p p' : WorkerPc n) : Prop where
  hand : p'.hand = p.hand
  startedJob : p'.startedJob = p.startedJob
  returnedJob : p'.returnedJob = p.returnedJob
  decremented : p'.decremented = p.decremented
  countingDown : p'.countingDown = p.countingDown

theorem WorkerPc.SameWork.rfl : p.SameWork p := ⟨.refl _, .refl _, .refl _, .refl _, .refl _⟩

/-- A position without a job: nothing in hand and nothing left to count. -/
def WorkerPc.Idle (p : WorkerPc n) : Prop := WorkerPc.loopTop.SameWork p

theorem WorkerPc.Idle.sameWork (h : p.Idle) (h' : p'.Idle) : p.SameWork p' :=
  ⟨h'.hand.trans h.hand.symm, h'.startedJob.trans h.startedJob.symm,
    h'.returnedJob.trans h.returnedJob.symm, h'.decremented.trans h.decremented.symm,
    h'.countingDown.trans h.countingDown.symm⟩

theorem idle_failed (a : Attempt) : (a.failed : WorkerPc n).Idle := by
  cases a <;> constructor <;> rfl

theorem idle_done (site : PushSite) : (site.done : WorkerPc n).Idle := by
  cases site with
  | repush a => exact idle_failed a
  | steal => constructor <;> rfl

theorem Control.sameWork (h : Control s k p p') : p.SameWork p' := by
  cases h with
  | noJob a => exact WorkerPc.Idle.sameWork (by constructor <;> rfl) (idle_failed a)
  | _ => constructor <;> rfl

/-- What does not tell a blocked worker from a notified one is not changed by a notification. -/
theorem notifyOne_congr {α : Type*} (f : WorkerPc n → α) (hf : f .notified = f .blocked)
    (s : State n) (q k : Fin n) : f ((s.notifyOne q).worker k) = f (s.worker k) := by
  unfold State.notifyOne
  by_cases hb : s.worker q = .blocked
  · by_cases hk : k = q
    · subst hk; simp [hb, hf]
    · simp [hb, hk]
  · simp [hb]

theorem notifyOne_sameWork (s : State n) (q k : Fin n) :
    (s.worker k).SameWork ((s.notifyOne q).worker k) :=
  ⟨notifyOne_congr (·.hand) rfl s q k, notifyOne_congr (·.startedJob) rfl s q k,
    notifyOne_congr (·.returnedJob) rfl s q k, notifyOne_congr (·.decremented) rfl s q k,
    notifyOne_congr (·.countingDown) rfl s q k⟩

/-- A notification moves nobody but a blocked worker. -/
theorem notifyOne_worker_of_ne {q : Fin n} (h : s.worker k ≠ .blocked) :
    (s.notifyOne q).worker k = s.worker k := by
  unfold State.notifyOne
  by_cases hb : s.worker q = .blocked
  · have hk : k ≠ q := fun hk => h (hk ▸ hb)
    simp [hb, hk]
  · simp [hb]

end JobSystem
