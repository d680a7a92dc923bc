/-! One thread in `wait(lock, predicate)` of a condition variable. A notification that
comes when the thread has found the predicate false, but does not block yet, is lost. -/
namespace TinyMiddleware.CondWait

/-- Before the mutex is taken, before the predicate is evaluated, between that and the
atomic step that gives the mutex back and blocks, blocked, woken up but without the mutex,
and past the wait. -/
inductive Pc where
  | locking
  | checking
  | blocking
  | blocked
  | waking (timedOut : Bool)
  | passed
  deriving DecidableEq, Repr

def Pc.holds : Pc → Bool
  | .checking | .blocking | .passed => true
  | _ => false

/-- After a timeout the wait is over, whatever the predicate says. -/
def Pc.advance (free predicate : Bool) : Pc → Option Pc
  | .locking => if free then some .checking else none
  | .checking => some (if predicate then .passed else .blocking)
  | .blocking => some .blocked
  | .blocked => none
  | .waking timedOut => if free then some (if timedOut then .passed else .checking) else none
  | .passed => none

def Pc.notified : Pc → Pc
  | .blocked => .waking false
  | pc => pc

def Pc.timedOut : Pc → Option Pc
  | .blocked => some (.waking true)
  | _ => none

/-- It does not look at the predicate again unless it is woken up. -/
def Pc.asleep : Pc → Bool
  | .blocking | .blocked => true
  | _ => false

/-- How many steps are left of the wait, when the predicate holds. -/
def Pc.left : Pc → Nat
  | .passed => 0
  | .checking => 1
  | .locking | .waking _ => 2
  | .blocked => 3
  | .blocking => 4

variable {free predicate : Bool} {pc next : Pc}

theorem left_advance (h : pc.advance free true = some next) : next.left < pc.left := by
  cases pc with
  | locking =>
      obtain ⟨-, h⟩ := Option.ite_none_right_eq_some.mp h
      cases h
      decide
  | waking timedOut =>
      obtain ⟨-, h⟩ := Option.ite_none_right_eq_some.mp h
      cases h
      cases timedOut <;> decide
  | checking | blocking =>
      cases h
      decide
  | blocked | passed => cases h

theorem left_notified (pc : Pc) : pc.notified.left ≤ pc.left := by
  cases pc with
  | blocked => decide
  | _ => exact Nat.le_refl _

theorem left_timedOut (h : pc.timedOut = some next) : next.left < pc.left := by
  cases pc <;> cases h
  decide

theorem holds_timedOut (h : pc.timedOut = some next) : next.holds = pc.holds := by
  cases pc <;> cases h
  rfl

/-- Who is awake when the predicate holds stays awake. -/
theorem awake_advance (h : pc.advance free true = some next) (awake : pc.asleep = false) :
    next.asleep = false := by
  cases pc with
  | locking =>
      obtain ⟨-, h⟩ := Option.ite_none_right_eq_some.mp h
      cases h
      rfl
  | waking timedOut =>
      obtain ⟨-, h⟩ := Option.ite_none_right_eq_some.mp h
      cases h
      cases timedOut <;> rfl
  | checking =>
      cases h
      rfl
  | blocking | blocked => cases awake
  | passed => cases h

theorem asleep_advance (h : pc.advance free predicate = some next) (asleep : pc.asleep = true) :
    next.asleep = true := by
  cases pc with
  | blocking =>
      cases h
      rfl
  | blocked => cases h
  | _ => cases asleep

/-- A notification wakes whoever sleeps, unless it comes too early. -/
theorem awake_notified (early : pc ≠ .blocking) : pc.notified.asleep = false := by
  cases pc with
  | blocking => exact absurd rfl early
  | _ => rfl

theorem holds_notified (pc : Pc) : pc.notified.holds = pc.holds := by
  cases pc <;> rfl

/-- A step of the wait needs the mutex, or takes it. -/
theorem mutex_of_advance (h : pc.advance free predicate = some next) :
    pc.holds = true ∨ free = true := by
  cases pc with
  | locking | waking => exact .inr (Option.ite_none_right_eq_some.mp h).1
  | checking | blocking => exact .inl rfl
  | blocked | passed => cases h

/-- The wait ends when the predicate has been found to hold, or after a timeout. -/
theorem passed_advance (h : pc.advance free predicate = some .passed) :
    predicate = true ∨ pc = .waking true := by
  cases pc with
  | locking =>
      obtain ⟨-, h⟩ := Option.ite_none_right_eq_some.mp h
      cases h
  | checking =>
      cases predicate with
      | true => exact .inl rfl
      | false => cases h
  | blocking | blocked | passed => cases h
  | waking timedOut =>
      obtain ⟨-, h⟩ := Option.ite_none_right_eq_some.mp h
      cases timedOut with
      | true => exact .inr rfl
      | false => cases h

theorem not_timedOut_of_advance (h : pc.advance free predicate = some next) (timedOut : Bool) :
    next ≠ .waking timedOut := by
  cases pc with
  | locking =>
      obtain ⟨-, h⟩ := Option.ite_none_right_eq_some.mp h
      cases h
      exact Pc.noConfusion
  | waking t =>
      obtain ⟨-, h⟩ := Option.ite_none_right_eq_some.mp h
      cases h
      cases t <;> exact Pc.noConfusion
  | checking =>
      cases h
      cases predicate <;> exact Pc.noConfusion
  | blocking =>
      cases h
      exact Pc.noConfusion
  | blocked | passed => cases h

theorem notified_eq_passed : pc.notified = .passed ↔ pc = .passed := by
  cases pc <;> simp [Pc.notified]

theorem notified_ne_timedOut (h : pc ≠ .waking true) : pc.notified ≠ .waking true := by
  cases pc <;> simp_all [Pc.notified]

end TinyMiddleware.CondWait
