import TinyMiddleware.Lib.Runs
import TinyMiddleware.Lib.Family
import Mathlib.Data.Fin.Basic
import Mathlib.Data.Fintype.Basic

/-! `ThreadPool`, one step at a time. What a thread does under `queue_mutex_`
without letting go of it is one step when no other thread can look in between.
A waiting worker does let go, so its path from the predicate test to the wait is
spelled out and the mutex is part of the state. -/
namespace TinyMiddleware.Core.ThreadPool

open Runs

variable {n : Nat} {α : Type}

/-- Where a worker stands in `worker_thread`. It has the mutex at `locked`, where
the predicate of `condition_.wait` is read next, and at `blocking`, where it was
false. `calls` are the `enqueue` calls that the running task still has to make;
at `notifying` one of them has pushed and owes its `notify_one`. -/
inductive Pc (α : Type) where
  | start
  | locked
  | blocking
  | blocked
  | awake
  | popped (ticket : Nat) (task : α)
  | running (ticket : Nat) (task : α) (calls : List α)
  | notifying (ticket : Nat) (task : α) (calls : List α)
  | exited
  deriving DecidableEq, Repr

def Pc.isBlocked : Pc α → Bool
  | .blocked => true
  | _ => false

def Pc.isExited : Pc α → Bool
  | .exited => true
  | _ => false

/-- The task a worker has popped and not yet returned from, by its ticket. -/
def Pc.ticket : Pc α → Option Nat
  | .popped k _ | .running k _ _ | .notifying k _ _ => some k
  | _ => none

def Pc.task : Pc α → Option α
  | .popped _ t | .running _ t _ | .notifying _ t _ => some t
  | _ => none

def Pc.isRunning : Pc α → Bool
  | .running _ _ _ | .notifying _ _ _ => true
  | _ => false

def Pc.isNotifying : Pc α → Bool
  | .notifying _ _ _ => true
  | _ => false

/-- Neither in the wait set nor with a popped task. -/
def Pc.isSeeking (pc : Pc α) : Bool :=
  !pc.isBlocked && pc.ticket.isNone

/-- Where the thread that destroys the pool stands in `~ThreadPool`. -/
inductive Dtor where
  | notCalled
  | stopSet
  | joining (joined : Nat)
  | returned
  deriving DecidableEq, Repr

/-- The members of the pool, the position of every thread in its code, and four
histories that no code reads. `owed` counts the `enqueue` calls of other threads
that have pushed and not yet called `notify_one`. -/
structure State (n : Nat) (α : Type) where
  tasks : List α
  stop : Bool
  queueMutex : Option (Fin n)
  workers : Fin n → Pc α
  owed : Nat
  dtor : Dtor
  accepted : List α
  dequeued : List α
  begun : List Nat
  returned : List Nat

inductive Event (n : Nat) (α : Type) where
  | enqueue (task : α)
  | notify (woken : Option (Fin n))
  | lock (w : Fin n)
  | test (w : Fin n)
  | block (w : Fin n)
  | spurious (w : Fin n)
  | invoke (w : Fin n) (calls : List α)
  | call (w : Fin n)
  | callNotify (w : Fin n) (woken : Option (Fin n))
  | finish (w : Fin n)
  | setStop
  | notifyAll
  | join
  deriving Repr

/-- The pool as its constructor leaves it: every thread is about to enter its loop. -/
def init (n : Nat) (α : Type) : State n α where
  tasks := []
  stop := false
  queueMutex := none
  workers := fun _ => .start
  owed := 0
  dtor := .notCalled
  accepted := []
  dequeued := []
  begun := []
  returned := []

def State.setPc (s : State n α) (w : Fin n) (pc : Pc α) : State n α :=
  { s with workers := Function.update s.workers w pc }

/-- `tasks_.push(task)`. -/
def State.push (s : State n α) (task : α) : State n α :=
  { s with tasks := s.tasks ++ [task], accepted := s.accepted ++ [task] }

/-- `task = std::move(tasks_.front()); tasks_.pop();` and the end of the lock's scope. -/
def State.pop (s : State n α) (w : Fin n) (task : α) (rest : List α) : State n α :=
  { s with
    tasks := rest
    queueMutex := none
    workers := Function.update s.workers w (.popped s.dequeued.length task)
    dequeued := s.dequeued ++ [task] }

/-- `notify_one` moves one blocked worker, whichever it is, out of the wait set,
and does nothing exactly when there is none. -/
def State.notifyOne (s : State n α) : Option (Fin n) → Option (State n α)
  | some v => if (s.workers v).isBlocked then some (s.setPc v .awake) else none
  | none => if ∀ v, (s.workers v).isBlocked = false then some s else none

def Pc.wake : Pc α → Pc α
  | .blocked => .awake
  | pc => pc

def State.notifyAll (s : State n α) : State n α :=
  { s with workers := fun w => (s.workers w).wake }

def State.waitPredicate (s : State n α) : Bool :=
  s.stop || !s.tasks.isEmpty

/-- What a worker does with the mutex once it reads the predicate. -/
def State.test (s : State n α) (w : Fin n) : Option (State n α) :=
  if s.waitPredicate then
    if s.stop && s.tasks.isEmpty then
      some ({ s with queueMutex := none }.setPc w .exited)
    else
      match s.tasks with
      | task :: rest => some (s.pop w task rest)
      | [] => none
  else some (s.setPc w .blocking)

def step (s : State n α) : Event n α → Option (State n α)
  | .enqueue task =>
      if s.queueMutex = none then
        if s.stop then some s
        else some { s.push task with owed := s.owed + 1 }
      else none
  | .notify woken =>
      if 0 < s.owed then { s with owed := s.owed - 1 }.notifyOne woken else none
  | .lock w =>
      match s.workers w with
      | .start | .awake =>
          if s.queueMutex = none then
            some ({ s with queueMutex := some w }.setPc w .locked)
          else none
      | _ => none
  | .test w =>
      match s.workers w with
      | .locked => s.test w
      | _ => none
  | .block w =>
      match s.workers w with
      | .blocking => some ({ s with queueMutex := none }.setPc w .blocked)
      | _ => none
  | .spurious w =>
      match s.workers w with
      | .blocked => some (s.setPc w .awake)
      | _ => none
  | .invoke w calls =>
      match s.workers w with
      | .popped k task =>
          some ({ s with begun := s.begun ++ [k] }.setPc w (.running k task calls))
      | _ => none
  | .call w =>
      match s.workers w with
      | .running k task (new :: calls) =>
          if s.queueMutex = none then
            if s.stop then some (s.setPc w (.running k task calls))
            else some ((s.push new).setPc w (.notifying k task calls))
          else none
      | _ => none
  | .callNotify w woken =>
      match s.workers w with
      | .notifying k task calls => (s.setPc w (.running k task calls)).notifyOne woken
      | _ => none
  | .finish w =>
      match s.workers w with
      | .running k _ [] => some ({ s with returned := s.returned ++ [k] }.setPc w .start)
      | _ => none
  | .setStop =>
      if s.dtor = .notCalled ∧ s.queueMutex = none then
        some { s with stop := true, dtor := .stopSet }
      else none
  | .notifyAll =>
      if s.dtor = .stopSet then some { s.notifyAll with dtor := .joining 0 } else none
  | .join =>
      match s.dtor with
      | .joining i =>
          if h : i < n then
            if (s.workers ⟨i, h⟩).isExited then some { s with dtor := .joining (i + 1) }
            else none
          else some { s with dtor := .returned }
      | _ => none

abbrev Reachable (s : State n α) : Prop :=
  Runs.Reachable step (init n α) s

/-- What a step can do, outcome by outcome. -/
inductive Moves (s : State n α) : Event n α → State n α → Prop
  | enqueueDropped (task : α) (free : s.queueMutex = none) (stopped : s.stop = true) :
      Moves s (.enqueue task) s
  | enqueued (task : α) (free : s.queueMutex = none) (accepting : s.stop = false) :
      Moves s (.enqueue task) { s.push task with owed := s.owed + 1 }
  | notified (v : Fin n) (owes : 0 < s.owed) (waits : s.workers v = .blocked) :
      Moves s (.notify (some v)) ({ s with owed := s.owed - 1 }.setPc v .awake)
  | notifiedNobody (owes : 0 < s.owed) (nobody : ∀ v, (s.workers v).isBlocked = false) :
      Moves s (.notify none) { s with owed := s.owed - 1 }
  | locked (w : Fin n) (outside : s.workers w = .start ∨ s.workers w = .awake)
      (free : s.queueMutex = none) :
      Moves s (.lock w) ({ s with queueMutex := some w }.setPc w .locked)
  | left (w : Fin n) (here : s.workers w = .locked) (stopped : s.stop = true)
      (empty : s.tasks = []) :
      Moves s (.test w) ({ s with queueMutex := none }.setPc w .exited)
  | popped (w : Fin n) (here : s.workers w = .locked) (task : α) (rest : List α)
      (front : s.tasks = task :: rest) :
      Moves s (.test w) (s.pop w task rest)
  | idle (w : Fin n) (here : s.workers w = .locked) (accepting : s.stop = false)
      (empty : s.tasks = []) :
      Moves s (.test w) (s.setPc w .blocking)
  | blocked (w : Fin n) (here : s.workers w = .blocking) :
      Moves s (.block w) ({ s with queueMutex := none }.setPc w .blocked)
  | woken (w : Fin n) (here : s.workers w = .blocked) :
      Moves s (.spurious w) (s.setPc w .awake)
  | invoked (w : Fin n) (calls : List α) (k : Nat) (task : α)
      (here : s.workers w = .popped k task) :
      Moves s (.invoke w calls) ({ s with begun := s.begun ++ [k] }.setPc w (.running k task calls))
  | callDropped (w : Fin n) (k : Nat) (task new : α) (calls : List α)
      (here : s.workers w = .running k task (new :: calls)) (free : s.queueMutex = none)
      (stopped : s.stop = true) :
      Moves s (.call w) (s.setPc w (.running k task calls))
  | called (w : Fin n) (k : Nat) (task new : α) (calls : List α)
      (here : s.workers w = .running k task (new :: calls)) (free : s.queueMutex = none)
      (accepting : s.stop = false) :
      Moves s (.call w) ((s.push new).setPc w (.notifying k task calls))
  | callNotified (w v : Fin n) (k : Nat) (task : α) (calls : List α)
      (here : s.workers w = .notifying k task calls) (other : v ≠ w)
      (waits : s.workers v = .blocked) :
      Moves s (.callNotify w (some v)) ((s.setPc w (.running k task calls)).setPc v .awake)
  | callNotifiedNobody (w : Fin n) (k : Nat) (task : α) (calls : List α)
      (here : s.workers w = .notifying k task calls)
      (nobody : ∀ v, (s.workers v).isBlocked = false) :
      Moves s (.callNotify w none) (s.setPc w (.running k task calls))
  | finished (w : Fin n) (k : Nat) (task : α) (here : s.workers w = .running k task []) :
      Moves s (.finish w) ({ s with returned := s.returned ++ [k] }.setPc w .start)
  | stopSet (first : s.dtor = .notCalled) (free : s.queueMutex = none) :
      Moves s .setStop { s with stop := true, dtor := .stopSet }
  | notifiedAll (after : s.dtor = .stopSet) :
      Moves s .notifyAll { s.notifyAll with dtor := .joining 0 }
  | joined (i : Nat) (h : i < n) (here : s.dtor = .joining i)
      (done : s.workers ⟨i, h⟩ = .exited) :
      Moves s .join { s with dtor := .joining (i + 1) }
  | destroyed (i : Nat) (h : n ≤ i) (here : s.dtor = .joining i) :
      Moves s .join { s with dtor := .returned }

@[simp] theorem isBlocked_iff (pc : Pc α) : pc.isBlocked = true ↔ pc = .blocked := by
  cases pc <;> simp [Pc.isBlocked]

@[simp] theorem isExited_iff (pc : Pc α) : pc.isExited = true ↔ pc = .exited := by
  cases pc <;> simp [Pc.isExited]

theorem ticket_eq_some (pc : Pc α) (k : Nat) :
    pc.ticket = some k ↔
      (∃ task, pc = .popped k task) ∨ (∃ task calls, pc = .running k task calls) ∨
        ∃ task calls, pc = .notifying k task calls := by
  cases pc <;> simp [Pc.ticket]

theorem notifyOne_eq_some {s t : State n α} {woken : Option (Fin n)}
    (h : s.notifyOne woken = some t) :
    (∃ v, woken = some v ∧ s.workers v = .blocked ∧ t = s.setPc v .awake) ∨
      (woken = none ∧ (∀ v, (s.workers v).isBlocked = false) ∧ t = s) := by
  cases woken with
  | none =>
      obtain ⟨hnobody, ht⟩ := Option.ite_none_right_eq_some.mp h
      exact Or.inr ⟨rfl, hnobody, (Option.some.inj ht).symm⟩
  | some v =>
      obtain ⟨hwaits, ht⟩ := Option.ite_none_right_eq_some.mp h
      exact Or.inl ⟨v, rfl, (isBlocked_iff _).mp hwaits, (Option.some.inj ht).symm⟩

private theorem moves_test {s t : State n α} {w : Fin n} (hat : s.workers w = .locked)
    (h : s.test w = some t) : Moves s (.test w) t := by
  unfold State.test State.waitPredicate at h
  split at h
  · split at h
    · next hleave =>
        simp only [Bool.and_eq_true, List.isEmpty_iff] at hleave
        exact Option.some.inj h ▸ .left w hat hleave.1 hleave.2
    · split at h
      · next task rest hfront => exact Option.some.inj h ▸ .popped w hat task rest hfront
      · cases h
  · next hidle =>
      simp only [Bool.or_eq_true, Bool.not_eq_true', not_or, Bool.not_eq_true,
        Bool.not_eq_false, List.isEmpty_iff] at hidle
      exact Option.some.inj h ▸ .idle w hat hidle.1 hidle.2

/-- Every proof about the pool's steps starts here. -/
theorem moves {s t : State n α} {e : Event n α} (h : step s e = some t) : Moves s e t := by
  cases e with
  | enqueue task =>
      obtain ⟨hfree, h⟩ := Option.ite_none_right_eq_some.mp h
      cases hstop : s.stop with
      | true =>
          simp only [hstop, if_true, Option.some.injEq] at h
          exact h ▸ .enqueueDropped task hfree hstop
      | false =>
          simp only [hstop, if_false, Bool.false_eq_true, Option.some.injEq] at h
          exact h ▸ .enqueued task hfree hstop
  | notify woken =>
      obtain ⟨howes, h⟩ := Option.ite_none_right_eq_some.mp h
      obtain ⟨v, rfl, hwaits, rfl⟩ | ⟨rfl, hnobody, rfl⟩ := notifyOne_eq_some h
      · exact .notified v howes hwaits
      · exact .notifiedNobody howes hnobody
  | lock w =>
      simp only [step] at h
      split at h
      · next hat =>
          obtain ⟨hfree, h⟩ := Option.ite_none_right_eq_some.mp h
          exact Option.some.inj h ▸ .locked w (Or.inl hat) hfree
      · next hat =>
          obtain ⟨hfree, h⟩ := Option.ite_none_right_eq_some.mp h
          exact Option.some.inj h ▸ .locked w (Or.inr hat) hfree
      · cases h
  | test w =>
      simp only [step] at h
      split at h
      · next hat => exact moves_test hat h
      · cases h
  | block w =>
      simp only [step] at h
      split at h
      · next hat => exact Option.some.inj h ▸ .blocked w hat
      · cases h
  | spurious w =>
      simp only [step] at h
      split at h
      · next hat => exact Option.some.inj h ▸ .woken w hat
      · cases h
  | invoke w calls =>
      simp only [step] at h
      split at h
      · next k task hat => exact Option.some.inj h ▸ .invoked w calls k task hat
      · cases h
  | call w =>
      simp only [step] at h
      split at h
      · next k task new calls hat =>
          obtain ⟨hfree, h⟩ := Option.ite_none_right_eq_some.mp h
          cases hstop : s.stop with
          | true =>
              simp only [hstop, if_true, Option.some.injEq] at h
              exact h ▸ .callDropped w k task new calls hat hfree hstop
          | false =>
              simp only [hstop, if_false, Bool.false_eq_true, Option.some.injEq] at h
              exact h ▸ .called w k task new calls hat hfree hstop
      · cases h
  | callNotify w woken =>
      simp only [step] at h
      split at h
      · next k task calls hat =>
          obtain ⟨v, rfl, hwaits, rfl⟩ | ⟨rfl, hnobody, rfl⟩ := notifyOne_eq_some h
          · have hother : v ≠ w := by
              rintro rfl
              simp [State.setPc] at hwaits
            refine .callNotified w v k task calls hat hother ?_
            simpa [State.setPc, hother] using hwaits
          · refine .callNotifiedNobody w k task calls hat ?_
            intro v
            by_cases hv : v = w
            · rw [hv, hat]
              rfl
            · simpa [State.setPc, hv] using hnobody v
      · cases h
  | finish w =>
      simp only [step] at h
      split at h
      · next k task hat => exact Option.some.inj h ▸ .finished w k task hat
      · cases h
  | setStop =>
      obtain ⟨⟨hfirst, hfree⟩, h⟩ := Option.ite_none_right_eq_some.mp h
      exact Option.some.inj h ▸ .stopSet hfirst hfree
  | notifyAll =>
      obtain ⟨hafter, h⟩ := Option.ite_none_right_eq_some.mp h
      exact Option.some.inj h ▸ .notifiedAll hafter
  | join =>
      simp only [step] at h
      split at h
      · next i hat =>
          split at h
          · next hlt =>
              obtain ⟨hdone, h⟩ := Option.ite_none_right_eq_some.mp h
              exact Option.some.inj h ▸ .joined i hlt hat ((isExited_iff _).mp hdone)
          · next hge => exact Option.some.inj h ▸ .destroyed i (Nat.le_of_not_lt hge) hat
      · cases h

end TinyMiddleware.Core.ThreadPool
