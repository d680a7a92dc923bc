import TinyMiddleware.Core.EventLoop
import TinyMiddleware.Lib.Runs

/-! Whether the callback map and the epoll set name the same descriptors. `addEvent`
writes the map first and never looks at the result of `epoll_ctl` again. -/
namespace TinyMiddleware.Core

open Runs

/-- The two stores of an `EventLoop`. -/
structure Stores (κ : Type) where
  loop : EventLoop κ
  kernel : Kernel

namespace Stores

variable {κ : Type}

def init (κ : Type) : Stores κ where
  loop := EventLoop.init κ
  kernel := Kernel.empty

/-- What code outside `run` does: call `addEvent` or `stop`, or do anything with descriptors
and counters that leaves this loop's epoll instance alone. -/
inductive Action (κ : Type) where
  | addEvent (fd : Int) (cb : κ) (permitted : Bool)
  | stop
  | elsewhere (kernel : Kernel)

def perform (s : Stores κ) : Action κ → Stores κ
  | .addEvent fd cb permitted =>
      let added := s.loop.addEvent s.kernel fd cb permitted
      ⟨added.1, added.2⟩
  | .stop => { s with loop := s.loop.stop }
  | .elsewhere kernel => if kernel.interest = s.kernel.interest then { s with kernel } else s

inductive Op (κ : Type) where
  | call (action : Action κ)
  | run (e : EventLoop.Event)

def step (s : Stores κ) : Op κ → Option (Stores κ)
  | .call action => some (s.perform action)
  | .run e => (s.loop.step e).map fun loop => { s with loop }

def apply (s : Stores κ) (op : Op κ) : Stores κ :=
  (s.step op).getD s

def InStep (s : Stores κ) : Prop :=
  ∀ fd, s.loop.callbacks fd ≠ none ↔ fd ∈ s.kernel.interest

/-- What a call of `addEvent` has to leave behind. -/
def Faithful (s : Stores κ) : Op κ → Prop
  | .call (.addEvent fd cb permitted) =>
      InStep (s.perform (.addEvent fd cb permitted)) ∧
        ((s.kernel.epollAdd fd permitted).2 = false →
          (s.perform (.addEvent fd cb permitted)).loop.callbacks = s.loop.callbacks)
  | _ => True

/-- `epoll_ctl` will take the descriptor, or the map has this very callback for it already. -/
def Harmless (s : Stores κ) : Op κ → Prop
  | .call (.addEvent fd cb permitted) =>
      permitted = true ∧ fd ∈ s.kernel.isOpen ∧ fd ∉ s.kernel.interest ∨
        s.loop.callbacks fd = some cb
  | _ => True

theorem inStep_init : InStep (init κ) := by
  intro fd
  simp [init, EventLoop.init, Kernel.empty]

variable {s : Stores κ} {fd : Int} {cb : κ} {permitted : Bool}

/-- With `epoll_ctl` successful both stores gain the same descriptor. -/
theorem InStep.added (h : InStep s) (hadd : (s.kernel.epollAdd fd permitted).2 = true) :
    InStep (s.perform (.addEvent fd cb permitted)) := by
  intro d
  simp only [perform, EventLoop.addEvent, Kernel.interest_epollAdd hadd, Function.update_apply,
    Finset.mem_insert]
  split
  · next hd => simp [hd]
  · next hd => simp [hd, h d]

/-- With `epoll_ctl` failed the entry has been written all the same. -/
theorem callbacks_failed_iff :
    (s.perform (.addEvent fd cb permitted)).loop.callbacks = s.loop.callbacks ↔
      s.loop.callbacks fd = some cb := by
  simp only [perform, EventLoop.addEvent]
  rw [Function.update_eq_self_iff]
  exact eq_comm

theorem faithful_iff (h : InStep s) (op : Op κ) : Faithful s op ↔ Harmless s op := by
  cases op with
  | run e => exact Iff.rfl
  | call action =>
      cases action with
      | stop => exact Iff.rfl
      | elsewhere kernel => exact Iff.rfl
      | addEvent fd cb permitted =>
          simp only [Faithful, Harmless]
          rw [← Kernel.epollAdd_eq_true, callbacks_failed_iff]
          cases hadd : (s.kernel.epollAdd fd permitted).2 with
          | true => simp [h.added hadd]
          | false =>
              simp only [Bool.false_eq_true, false_or, true_implies, and_iff_right_iff_imp]
              -- the map is what it was, and so is the interest list
              intro hsame d
              rw [callbacks_failed_iff.mpr hsame, h d]
              simp only [perform, EventLoop.addEvent, Kernel.epollAdd_of_failed hadd]

theorem InStep.performed {action : Action κ} (h : InStep s) (faithful : Faithful s (.call action)) :
    InStep (s.perform action) := by
  cases action with
  | addEvent fd cb permitted => exact faithful.1
  | stop => exact h
  | elsewhere kernel =>
      simp only [perform]
      split
      · next hsame =>
          intro d
          rw [h d, hsame]
      · exact h

theorem InStep.apply {op : Op κ} (h : InStep s) (faithful : Faithful s op) :
    InStep (s.apply op) := by
  cases op with
  | call action => exact h.performed faithful
  | run e =>
      cases hstep : s.loop.step e with
      | none => simpa [Stores.apply, Stores.step, hstep] using h
      | some next =>
          intro d
          simp only [Stores.apply, Stores.step, hstep, Option.map_some, Option.getD_some,
            EventLoop.callbacks_step (EventLoop.moves hstep)]
          exact h d

/-- The stores stay in step exactly as long as no call fails that would have changed the map. -/
theorem inStep_iff (ops : List (Op κ)) :
    Throughout apply Faithful (init κ) ops ↔ Throughout apply Harmless (init κ) ops :=
  throughout_iff (I := InStep) (fun _ op h => faithful_iff h op) (fun _ _ h => h.apply)
    inStep_init ops

/-- A descriptor that is not open gets an entry in the map and none in the epoll set. -/
theorem not_inStep : ¬ ∀ ops : List (Op Unit), Throughout apply Faithful (init Unit) ops := by
  intro hall
  have hcall := (hall [.call (.addEvent 7 () true)]).1
  have hmapped := (hcall.1 7).mp (by simp [perform, EventLoop.addEvent])
  revert hmapped
  decide

end Stores

end TinyMiddleware.Core
