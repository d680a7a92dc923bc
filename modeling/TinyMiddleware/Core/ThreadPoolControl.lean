import TinyMiddleware.Core.ThreadPool

/-! What the pool's control flow guarantees in every reachable state: who has the
mutex, when a worker may go to sleep or leave, and how far the destructor is. -/
namespace TinyMiddleware.Core.ThreadPool

open Runs

variable {n : Nat} {α : Type}

def Pc.holdsMutex : Pc α → Bool
  | .locked | .blocking => true
  | _ => false

/-- Neither on the way to sleep, nor asleep, nor gone. -/
def Pc.isActive : Pc α → Bool
  | .blocking | .blocked | .exited => false
  | _ => true

def Dtor.broadcast : Dtor → Bool
  | .joining _ | .returned => true
  | _ => false

@[simp] theorem workers_setPc (s : State n α) (w v : Fin n) (pc : Pc α) :
    (s.setPc w pc).workers v = if v = w then pc else s.workers v :=
  Function.update_apply _ _ _ _

@[simp] theorem workers_pop (s : State n α) (w v : Fin n) (task : α) (rest : List α) :
    (s.pop w task rest).workers v =
      if v = w then .popped s.dequeued.length task else s.workers v :=
  Function.update_apply _ _ _ _

@[simp] theorem workers_notifyAll (s : State n α) (v : Fin n) :
    s.notifyAll.workers v = (s.workers v).wake := rfl

@[simp] theorem holdsMutex_wake (pc : Pc α) : pc.wake.holdsMutex = pc.holdsMutex := by
  cases pc <;> rfl

@[simp] theorem ticket_wake (pc : Pc α) : pc.wake.ticket = pc.ticket := by
  cases pc <;> rfl

@[simp] theorem task_wake (pc : Pc α) : pc.wake.task = pc.task := by
  cases pc <;> rfl

@[simp] theorem isRunning_wake (pc : Pc α) : pc.wake.isRunning = pc.isRunning := by
  cases pc <;> rfl

theorem wake_eq (pc : Pc α) : pc.wake = if pc.isBlocked then .awake else pc := by
  cases pc <;> rfl

structure Control (s : State n α) : Prop where
  mutex : ∀ w, s.queueMutex = some w ↔ (s.workers w).holdsMutex = true
  blocking : ∀ w, s.workers w = .blocking → s.tasks = [] ∧ s.stop = false
  stopping : s.stop = true ↔ s.dtor ≠ .notCalled
  exited : ∀ w, s.workers w = .exited → s.stop = true ∧ s.tasks = []
  awakened : s.dtor.broadcast = true → ∀ w, s.workers w ≠ .blocked
  joined : ∀ i, s.dtor = .joining i → ∀ w : Fin n, w.val < i → s.workers w = .exited
  allJoined : s.dtor = .returned → ∀ w, s.workers w = .exited
  inRange : ∀ i, s.dtor = .joining i → i ≤ n

theorem control_init : Control (init n α) := by
  constructor <;> simp [init, Pc.holdsMutex, Dtor.broadcast]

/-- A free mutex means that nobody is between the predicate test and the wait. -/
theorem Control.not_holding {s : State n α} (hs : Control s) (free : s.queueMutex = none)
    (w : Fin n) : (s.workers w).holdsMutex = false := by
  rw [Bool.eq_false_iff]
  intro hholds
  rw [(hs.mutex w).mpr hholds] at free
  cases free

theorem Control.holder_unique {s : State n α} (hs : Control s) {w v : Fin n}
    (hw : (s.workers w).holdsMutex = true) (hv : (s.workers v).holdsMutex = true) : v = w := by
  have hwv := ((hs.mutex w).mpr hw).symm.trans ((hs.mutex v).mpr hv)
  exact (Option.some.inj hwv).symm

private theorem Control.push {s : State n α} (hs : Control s) (task : α)
    (free : s.queueMutex = none) (accepting : s.stop = false) : Control (s.push task) where
  mutex := hs.mutex
  blocking := by
    intro w hw
    have hnot := hs.not_holding free w
    change s.workers w = .blocking at hw
    rw [hw] at hnot
    cases hnot
  stopping := hs.stopping
  exited := by
    intro w hw
    have hstop := (hs.exited w hw).1
    rw [accepting] at hstop
    cases hstop
  awakened := hs.awakened
  joined := hs.joined
  allJoined := hs.allJoined
  inRange := hs.inRange

/-- Moving a worker to a place where it is active and has the mutex as before. -/
private theorem Control.relabel {s : State n α} (hs : Control s) {w : Fin n} {old pc : Pc α}
    (here : s.workers w = old) (hold : old ≠ .exited) (hmutex : pc.holdsMutex = old.holdsMutex)
    (hactive : pc.isActive = true) : Control (s.setPc w pc) where
  mutex := by
    intro v
    rw [workers_setPc]
    split
    · next hv => rw [hv, hmutex, ← here]; exact hs.mutex w
    · exact hs.mutex v
  blocking := by
    intro v hv
    rw [workers_setPc] at hv
    split at hv
    · rw [hv] at hactive
      cases hactive
    · exact hs.blocking v hv
  stopping := hs.stopping
  exited := by
    intro v hv
    rw [workers_setPc] at hv
    split at hv
    · rw [hv] at hactive
      cases hactive
    · exact hs.exited v hv
  awakened := by
    intro hdtor v
    rw [workers_setPc]
    split
    · intro hv
      rw [hv] at hactive
      cases hactive
    · exact hs.awakened hdtor v
  joined := by
    intro i hi v hv
    rw [workers_setPc, if_neg]
    · exact hs.joined i hi v hv
    · rintro rfl
      exact hold (here.symm.trans (hs.joined i hi v hv))
  allJoined := fun hret => absurd (here.symm.trans (hs.allJoined hret w)) hold
  inRange := hs.inRange

private theorem Control.lock {s : State n α} (hs : Control s) {w : Fin n}
    (outside : s.workers w = .start ∨ s.workers w = .awake) (free : s.queueMutex = none) :
    Control ({ s with queueMutex := some w }.setPc w .locked) := by
  have hfree := hs.not_holding free
  obtain ⟨-, hblocking, hstopping, hexited, hawakened, hjoined, hall, hrange⟩ := hs
  constructor <;> simp only [State.setPc, Function.update_apply] <;> grind [Pc.holdsMutex]

/-- A worker that gives the mutex up, after any of the three outcomes of the test. -/
private theorem Control.unlock {s : State n α} (hs : Control s) {w : Fin n} {pc : Pc α}
    (holds : (s.workers w).holdsMutex = true) (hpc : pc.holdsMutex = false)
    (hblocked : pc = .blocked → s.stop = false)
    (hexited : pc = .exited → s.stop = true ∧ s.tasks = []) :
    Control ({ s with queueMutex := none }.setPc w pc) := by
  have hothers : ∀ v, v ≠ w → (s.workers v).holdsMutex = false := by
    intro v hv
    rw [Bool.eq_false_iff]
    exact fun hholds => hv (hs.holder_unique holds hholds)
  have hstop : s.stop = false → s.dtor.broadcast = false := by
    intro hstop
    have hdtor := hs.stopping
    cases hd : s.dtor <;> simp_all [Dtor.broadcast]
  obtain ⟨-, hblocking, hstopping, hexit, hawakened, hjoined, hall, hrange⟩ := hs
  constructor <;> simp only [State.setPc, Function.update_apply] <;>
    grind [Pc.holdsMutex, Dtor.broadcast]

private theorem Control.shorten {s : State n α} (hs : Control s) {task : α} {rest : List α}
    (front : s.tasks = task :: rest) : Control { s with tasks := rest } where
  mutex := hs.mutex
  blocking := by
    intro v hv
    have hempty := (hs.blocking v hv).1
    rw [front] at hempty
    cases hempty
  stopping := hs.stopping
  exited := by
    intro v hv
    have hempty := (hs.exited v hv).2
    rw [front] at hempty
    cases hempty
  awakened := hs.awakened
  joined := hs.joined
  allJoined := hs.allJoined
  inRange := hs.inRange

/-- The stop flag is set under the mutex, so no worker is between its predicate
test and its wait at that moment. -/
private theorem Control.stopSet {s : State n α} (hs : Control s) (free : s.queueMutex = none) :
    Control { s with stop := true, dtor := .stopSet } where
  mutex := hs.mutex
  blocking := by
    intro w hw
    have hnot := hs.not_holding free w
    change s.workers w = .blocking at hw
    rw [hw] at hnot
    cases hnot
  stopping := by simp
  exited := fun w hw => ⟨rfl, (hs.exited w hw).2⟩
  awakened := by simp [Dtor.broadcast]
  joined := by simp
  allJoined := by simp
  inRange := by simp

private theorem Control.notifyAll {s : State n α} (hs : Control s) (after : s.dtor = .stopSet) :
    Control { s.notifyAll with dtor := .joining 0 } where
  mutex := by
    intro w
    simp only [workers_notifyAll, holdsMutex_wake]
    exact hs.mutex w
  blocking := by
    intro w hw
    apply hs.blocking w
    simp only [workers_notifyAll, wake_eq] at hw
    split at hw
    · cases hw
    · exact hw
  stopping := by
    have hstop := hs.stopping
    simp only [after] at hstop
    simpa [State.notifyAll] using hstop
  exited := by
    intro w hw
    apply hs.exited w
    simp only [workers_notifyAll, wake_eq] at hw
    split at hw
    · cases hw
    · exact hw
  awakened := by
    intro _ w
    simp only [workers_notifyAll, wake_eq]
    split
    · simp
    · next hnot => simpa using hnot
  joined := by
    intro i hi w hw
    cases hi
    omega
  allJoined := by simp
  inRange := by
    intro i hi
    cases hi
    exact Nat.zero_le n

private theorem Control.join {s : State n α} (hs : Control s) {i : Nat} (h : i < n)
    (here : s.dtor = .joining i) (done : s.workers ⟨i, h⟩ = .exited) :
    Control { s with dtor := .joining (i + 1) } where
  mutex := hs.mutex
  blocking := hs.blocking
  stopping := by
    have hstop := hs.stopping
    simp only [here] at hstop
    simpa using hstop
  exited := hs.exited
  awakened := fun _ => hs.awakened (by rw [here]; rfl)
  joined := by
    intro j hj w hw
    cases hj
    by_cases hwi : w.val = i
    · subst i
      exact done
    · exact hs.joined i here w (by omega)
  allJoined := by simp
  inRange := by
    intro j hj
    cases hj
    exact h

private theorem Control.destroyed {s : State n α} (hs : Control s) {i : Nat} (h : n ≤ i)
    (here : s.dtor = .joining i) : Control { s with dtor := .returned } where
  mutex := hs.mutex
  blocking := hs.blocking
  stopping := by
    have hstop := hs.stopping
    simp only [here] at hstop
    simpa using hstop
  exited := hs.exited
  awakened := fun _ => hs.awakened (by rw [here]; rfl)
  joined := by simp
  allJoined := fun _ w => hs.joined i here w (by omega)
  inRange := by simp

/-- The histories and the number of notifications owed play no part in it. -/
private theorem Control.frame {s : State n α} (hs : Control s) (owed : Nat)
    (accepted dequeued : List α) (begun returned : List Nat) :
    Control { s with owed, accepted, dequeued, begun, returned } :=
  ⟨hs.mutex, hs.blocking, hs.stopping, hs.exited, hs.awakened, hs.joined, hs.allJoined,
    hs.inRange⟩

theorem Control.step {s t : State n α} {e : Event n α} (hs : Control s) (h : Moves s e t) :
    Control t := by
  cases h with
  | enqueueDropped => exact hs
  | enqueued task free accepting => exact (hs.push task free accepting).frame (s.owed + 1) _ _ _ _
  | notified v owes waits =>
      exact (hs.frame (s.owed - 1) _ _ _ _).relabel waits (by simp) rfl rfl
  | notifiedNobody => exact hs.frame (s.owed - 1) _ _ _ _
  | locked w outside free => exact hs.lock outside free
  | left w here stopped empty =>
      exact hs.unlock (by simp [here, Pc.holdsMutex]) rfl (by simp) fun _ => ⟨stopped, empty⟩
  | popped w here task rest front =>
      have hpopped : Control ({ s with tasks := rest, queueMutex := none }.setPc w
          (.popped s.dequeued.length task)) :=
        (hs.shorten front).unlock (by simp [here, Pc.holdsMutex]) rfl (by simp) (by simp)
      exact hpopped.frame
        s.owed s.accepted (s.dequeued ++ [task]) s.begun s.returned
  | idle w here accepting empty =>
      have hothers := fun v => hs.holder_unique (w := w) (v := v) (by simp [here, Pc.holdsMutex])
      obtain ⟨hmutex, hblocking, hstopping, hexited, hawakened, hjoined, hall, hrange⟩ := hs
      constructor <;> simp only [State.setPc, Function.update_apply] <;> grind [Pc.holdsMutex]
  | blocked w here =>
      exact hs.unlock (by simp [here, Pc.holdsMutex]) rfl (fun _ => (hs.blocking w here).2)
        (by simp)
  | woken w here =>
      exact hs.relabel here (by simp) rfl rfl
  | invoked w calls k task here =>
      exact (hs.frame s.owed s.accepted s.dequeued (s.begun ++ [k]) s.returned).relabel here
        (by simp) rfl rfl
  | callDropped w k task new calls here =>
      exact hs.relabel here (by simp) rfl rfl
  | called w k task new calls here free accepting =>
      exact (hs.push new free accepting).relabel here (by simp) rfl rfl
  | callNotified w v k task calls here other waits =>
      have hw : Control (s.setPc w (.running k task calls)) :=
        hs.relabel here (by simp) rfl rfl
      have hv : (s.setPc w (.running k task calls)).workers v = .blocked := by simp [other, waits]
      exact hw.relabel hv (by simp) rfl rfl
  | callNotifiedNobody w k task calls here =>
      exact hs.relabel here (by simp) rfl rfl
  | finished w k task here =>
      exact (hs.frame s.owed s.accepted s.dequeued s.begun (s.returned ++ [k])).relabel here
        (by simp) rfl rfl
  | stopSet first free => exact hs.stopSet free
  | notifiedAll after => exact hs.notifyAll after
  | joined i h here done => exact hs.join h here done
  | destroyed i h here => exact hs.destroyed h here

theorem control {s : State n α} (h : Reachable s) : Control s :=
  h.keeps control_init fun _ _ _ hs hstep => hs.step (moves hstep)

end TinyMiddleware.Core.ThreadPool
