import TinyMiddleware.Core.ThreadPoolControl

/-! No notification is lost while the pool is running. `notify_one` comes after the
lock is released, so what is counted is not tasks against sleepers but tasks
against the notifications still to come and the workers still looking for work. -/
namespace TinyMiddleware.Core.ThreadPool

open Runs Family

variable {n : Nat} {α : Type}

/-- Calls of `notify_one` still owed by enqueuers that have already pushed, in
other threads and in tasks of the pool's own workers. -/
def State.notifiesOwed (s : State n α) : Nat :=
  s.owed + count Pc.isNotifying s.workers

/-- Workers that are neither blocked nor holding or running a popped task. -/
def State.seeking (s : State n α) : Nat :=
  count Pc.isSeeking s.workers

/-- What a worker can still do for a queued task: look for it, or notify another. -/
def Pc.credit (pc : Pc α) : Nat :=
  if pc.isNotifying || pc.isSeeking then 1 else 0

def State.credit (s : State n α) : Nat :=
  s.owed + total Pc.credit s.workers

theorem credit_eq (s : State n α) : s.credit = s.notifiesOwed + s.seeking := by
  unfold State.credit State.notifiesOwed State.seeking count total
  rw [Nat.add_assoc, ← Finset.sum_add_distrib]
  congr 1
  apply Finset.sum_congr rfl
  intro w _
  -- nobody is both inside a task and looking for one
  cases s.workers w <;> rfl

def SomeBlocked (workers : Fin n → Pc α) : Prop :=
  ∃ w, workers w = .blocked

def Covered (s : State n α) : Prop :=
  s.stop = false → SomeBlocked s.workers → s.tasks.length ≤ s.credit

private theorem someBlocked_of_update {workers : Fin n → Pc α} {w : Fin n} {pc : Pc α}
    (hpc : pc.isBlocked = false) (h : SomeBlocked (Function.update workers w pc)) :
    SomeBlocked workers := by
  obtain ⟨v, hv⟩ := h
  by_cases hvw : v = w
  · subst v
    rw [Function.update_self] at hv
    rw [hv] at hpc
    cases hpc
  · rw [Function.update_of_ne hvw] at hv
    exact ⟨v, hv⟩

private theorem not_someBlocked {workers : Fin n → Pc α}
    (nobody : ∀ v, (workers v).isBlocked = false) : ¬ SomeBlocked workers := by
  rintro ⟨v, hv⟩
  have hnot := nobody v
  rw [hv] at hnot
  cases hnot

theorem covered_init : Covered (init n α) := by
  intro _ hblocked
  exact absurd hblocked (not_someBlocked fun _ => rfl)

/-- A worker may move where it has no less credit, unless that is the wait set. -/
private theorem Covered.relabel {s : State n α} (hs : Covered s) {w : Fin n} {old pc : Pc α}
    (here : s.workers w = old) (hpc : pc.isBlocked = false) (hle : old.credit ≤ pc.credit) :
    Covered (s.setPc w pc) := by
  intro hopen hblocked
  have hcovered := hs hopen (someBlocked_of_update hpc hblocked)
  have hcredit := total_update Pc.credit s.workers w pc
  rw [here] at hcredit
  simp only [State.setPc, State.credit] at hcovered ⊢
  omega

theorem Covered.step {s t : State n α} {e : Event n α} (hs : Covered s) (hcontrol : Control s)
    (h : Moves s e t) : Covered t := by
  cases h with
  | enqueueDropped => exact hs
  | enqueued task =>
      intro hopen hblocked
      have hcovered := hs hopen hblocked
      simp only [State.push, State.credit, List.length_append, List.length_singleton] at hcovered ⊢
      omega
  | notified v owes waits =>
      -- the notification is used up, and the worker it woke is looking for work
      intro hopen _
      have hcovered := hs hopen ⟨v, waits⟩
      have hcredit := total_update Pc.credit s.workers v .awake
      rw [waits] at hcredit
      have hgain : (Pc.awake : Pc α).credit = (Pc.blocked : Pc α).credit + 1 := rfl
      simp only [State.setPc, State.credit] at hcovered ⊢
      omega
  | notifiedNobody _ nobody =>
      intro _ hblocked
      exact absurd hblocked (not_someBlocked nobody)
  | locked w outside =>
      have hmoved : Covered (s.setPc w .locked) := by
        obtain here | here := outside <;> exact hs.relabel here rfl (Nat.le_refl 1)
      exact hmoved
  | left w here stopped =>
      intro hopen
      simp [State.setPc, stopped] at hopen
  | popped w here task rest front =>
      -- one task less, and the worker that has it no longer counts
      intro hopen hblocked
      have hcovered := hs hopen (someBlocked_of_update rfl hblocked)
      have hcredit := total_update Pc.credit s.workers w (.popped s.dequeued.length task)
      rw [here] at hcredit
      have hloss : (Pc.locked : Pc α).credit = (Pc.popped s.dequeued.length task).credit + 1 := rfl
      rw [front] at hcovered
      simp only [State.pop, State.credit, List.length_cons] at hcovered ⊢
      omega
  | idle w here => exact hs.relabel here rfl (Nat.le_refl 1)
  | blocked w here =>
      -- the queue was empty at the test, and nobody else has had the mutex since
      intro _ _
      simp [State.setPc, (hcontrol.blocking w here).1]
  | woken w here => exact hs.relabel here rfl (Nat.zero_le _)
  | invoked w calls k task here =>
      have hmoved : Covered (s.setPc w (.running k task calls)) :=
        hs.relabel here rfl (Nat.zero_le _)
      exact hmoved
  | callDropped w k task new calls here => exact hs.relabel here rfl (Nat.zero_le _)
  | called w k task new calls here =>
      intro hopen hblocked
      have hcovered := hs hopen (someBlocked_of_update rfl hblocked)
      have hcredit := total_update Pc.credit s.workers w (.notifying k task calls)
      rw [here] at hcredit
      have hgain : (Pc.notifying k task calls).credit =
        (Pc.running k task (new :: calls)).credit + 1 := rfl
      simp only [State.setPc, State.push, State.credit, List.length_append,
        List.length_singleton] at hcovered ⊢
      omega
  | callNotified w v k task calls here other waits =>
      intro hopen _
      have hcovered := hs hopen ⟨v, waits⟩
      have hcredit := total_update Pc.credit s.workers w (.running k task calls)
      have hcredit' := total_update Pc.credit
        (Function.update s.workers w (.running k task calls)) v .awake
      rw [here] at hcredit
      rw [Function.update_of_ne other, waits] at hcredit'
      have hloss : (Pc.notifying k task calls).credit = (Pc.running k task calls).credit + 1 := rfl
      have hgain : (Pc.awake : Pc α).credit = (Pc.blocked : Pc α).credit + 1 := rfl
      simp only [State.setPc, State.credit] at hcovered ⊢
      omega
  | callNotifiedNobody w k task calls here nobody =>
      intro _ hblocked
      exact absurd (someBlocked_of_update rfl hblocked) (not_someBlocked nobody)
  | finished w k task here =>
      have hmoved : Covered (s.setPc w .start) :=
        hs.relabel here rfl (Nat.zero_le _)
      exact hmoved
  | stopSet =>
      intro hopen
      cases hopen
  | notifiedAll =>
      intro _ hblocked
      refine absurd hblocked (not_someBlocked fun v => ?_)
      cases hv : s.workers v <;> simp [Pc.wake, Pc.isBlocked, hv]
  | joined => exact hs
  | destroyed => exact hs

theorem covered {s : State n α} (h : Reachable s) : Covered s :=
  h.keepsUnder (fun _ => control) covered_init fun _ _ _ hcontrol hs hstep =>
    hs.step hcontrol (moves hstep)

/-- The state that a lost notification would leave behind: work in the queue, some
worker without a task, every such worker asleep, and nobody about to notify. -/
def Stranded (s : State n α) : Prop :=
  s.tasks ≠ [] ∧ (∃ w, (s.workers w).ticket = none) ∧
    (∀ w, (s.workers w).ticket = none → s.workers w = .blocked) ∧ s.notifiesOwed = 0

theorem no_lost_notification {s : State n α} (h : Reachable s) (hopen : s.stop = false) :
    ((∃ w, s.workers w = .blocked) → s.tasks.length ≤ s.notifiesOwed + s.seeking) ∧
      ¬ Stranded s := by
  have hcovered : SomeBlocked s.workers → s.tasks.length ≤ s.notifiesOwed + s.seeking := by
    intro hblocked
    rw [← credit_eq]
    exact covered h hopen hblocked
  refine ⟨hcovered, ?_⟩
  rintro ⟨htasks, ⟨w, hw⟩, hidle, howed⟩
  have hle := hcovered ⟨w, hidle w hw⟩
  have hseeking : s.seeking = 0 := by
    apply count_eq_zero
    intro v
    cases hv : (s.workers v).ticket with
    | none => rw [hidle v hv]; rfl
    | some k => simp [Pc.isSeeking, hv]
  rw [howed, hseeking, Nat.add_zero, Nat.le_zero, List.length_eq_zero_iff] at hle
  exact htasks hle

/-- Two workers, one asleep: a task has been pushed and its notification is owed. -/
theorem no_lost_notification_owed :
    ∃ s : State 2 Nat, s.tasks = [7] ∧ s.workers 0 = .blocked ∧
      ((∃ w, s.workers w = .blocked) → s.tasks.length ≤ s.notifiesOwed + s.seeking) ∧
      ¬ Stranded s := by
  have hrun : run step (init 2 Nat) [.lock 0, .test 0, .block 0, .enqueue 7] = some _ := rfl
  exact ⟨_, rfl, rfl, no_lost_notification (reachable_of_run hrun) rfl⟩

end TinyMiddleware.Core.ThreadPool
