import TinyMiddleware.Core.Kernel
import Mathlib.Logic.Function.Basic

/-! `EventLoop`: the callback map, the running flag, and `run` as the steps of the
one thread that is in it. What `epoll_wait` returns comes from outside. -/
namespace TinyMiddleware.Core

/-- Where the thread of the loop stands in `run`. `batch` has the events of the last
`epoll_wait` that are still to be looked at; `callback` is inside one of them. -/
inductive LoopPc (κ : Type) where
  | outside
  | test
  | calling
  | waiting
  | batch (rest : List Int)
  | callback (cb : κ) (rest : List Int)
  | left

/-- The three kinds of results of `epoll_wait`: `EINTR`, another error, or events. -/
inductive WaitResult where
  | interrupted
  | failed
  | events (fds : List Int)

structure EventLoop (κ : Type) where
  running : Bool
  callbacks : Int → Option κ
  pc : LoopPc κ

namespace EventLoop

variable {κ : Type}

inductive Event where
  | run
  | test
  | wait
  | result (r : WaitResult)
  | next
  | ret

def init (κ : Type) : EventLoop κ where
  running := false
  callbacks := fun _ => none
  pc := .outside

/-- `addEvent`: the map first, then the kernel, with no way back when that fails. -/
def addEvent (l : EventLoop κ) (k : Kernel) (fd : Int) (cb : κ) (permitted : Bool) :
    EventLoop κ × Kernel :=
  ({ l with callbacks := Function.update l.callbacks fd (some cb) }, (k.epollAdd fd permitted).1)

def stop (l : EventLoop κ) : EventLoop κ :=
  { l with running := false }

/-- The body of the `for` loop: `find`, and the callback if there is one. -/
def dispatch (l : EventLoop κ) (fd : Int) (rest : List Int) : LoopPc κ :=
  match l.callbacks fd with
  | some cb => .callback cb rest
  | none => .batch rest

def afterWait : WaitResult → LoopPc κ
  | .interrupted => .test
  | .failed => .left
  | .events fds => .batch fds

/-- The steps of `run`. -/
def step (l : EventLoop κ) : Event → Option (EventLoop κ)
  | .run =>
      match l.pc with
      | .outside => some { l with running := true, pc := .test }
      | _ => none
  | .test =>
      match l.pc with
      | .test => some { l with pc := if l.running then .calling else .left }
      | _ => none
  | .wait =>
      match l.pc with
      | .calling => some { l with pc := .waiting }
      | _ => none
  | .result r =>
      match l.pc with
      | .waiting => some { l with pc := afterWait r }
      | _ => none
  | .next =>
      match l.pc with
      | .batch [] => some { l with pc := .test }
      | .batch (fd :: rest) => some { l with pc := l.dispatch fd rest }
      | _ => none
  | .ret =>
      match l.pc with
      | .callback _ rest => some { l with pc := .batch rest }
      | _ => none

inductive Moves (l : EventLoop κ) : Event → EventLoop κ → Prop
  | entered (here : l.pc = .outside) : Moves l .run { l with running := true, pc := .test }
  | looped (here : l.pc = .test) (on : l.running = true) : Moves l .test { l with pc := .calling }
  | ended (here : l.pc = .test) (off : l.running = false) : Moves l .test { l with pc := .left }
  | waits (here : l.pc = .calling) : Moves l .wait { l with pc := .waiting }
  | woken (r : WaitResult) (here : l.pc = .waiting) :
      Moves l (.result r) { l with pc := afterWait r }
  | batchDone (here : l.pc = .batch []) : Moves l .next { l with pc := .test }
  | called (fd : Int) (rest : List Int) (cb : κ) (here : l.pc = .batch (fd :: rest))
      (found : l.callbacks fd = some cb) : Moves l .next { l with pc := .callback cb rest }
  | skipped (fd : Int) (rest : List Int) (here : l.pc = .batch (fd :: rest))
      (missing : l.callbacks fd = none) : Moves l .next { l with pc := .batch rest }
  | returned (cb : κ) (rest : List Int) (here : l.pc = .callback cb rest) :
      Moves l .ret { l with pc := .batch rest }

theorem moves {l m : EventLoop κ} {e : Event} (h : l.step e = some m) : Moves l e m := by
  cases e with
  | run =>
      simp only [step] at h
      split at h
      · next here => exact Option.some.inj h ▸ .entered here
      · cases h
  | test =>
      simp only [step] at h
      split at h
      · next here =>
          cases hrunning : l.running with
          | true =>
              simp only [hrunning, if_true, Option.some.injEq] at h
              subst h
              simpa only [hrunning] using Moves.looped here hrunning
          | false =>
              simp only [hrunning, if_false, Bool.false_eq_true, Option.some.injEq] at h
              subst h
              simpa only [hrunning] using Moves.ended here hrunning
      · cases h
  | wait =>
      simp only [step] at h
      split at h
      · next here => exact Option.some.inj h ▸ .waits here
      · cases h
  | result r =>
      simp only [step] at h
      split at h
      · next here => exact Option.some.inj h ▸ .woken r here
      · cases h
  | next =>
      simp only [step, dispatch] at h
      split at h
      · next here => exact Option.some.inj h ▸ .batchDone here
      · next fd rest here =>
          cases hfound : l.callbacks fd with
          | some cb =>
              simp only [hfound, Option.some.injEq] at h
              exact h ▸ .called fd rest cb here hfound
          | none =>
              simp only [hfound, Option.some.injEq] at h
              exact h ▸ .skipped fd rest here hfound
      · cases h
  | ret =>
      simp only [step] at h
      split at h
      · next cb rest here => exact Option.some.inj h ▸ .returned cb rest here
      · cases h

/-- `run` never touches the map: looking up an unmapped descriptor adds no entry. -/
theorem callbacks_step {l m : EventLoop κ} {e : Event} (h : Moves l e m) :
    m.callbacks = l.callbacks := by
  cases h <;> rfl

end EventLoop

end TinyMiddleware.Core
