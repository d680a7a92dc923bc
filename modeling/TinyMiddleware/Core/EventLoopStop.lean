import TinyMiddleware.Core.EventLoop
import TinyMiddleware.Lib.Fairness

/-! One call of `run` against one call of `stop`. `stop` only clears the flag, so
it works exactly when the loop is going to test the flag again by itself. -/
namespace TinyMiddleware.Core.EventLoop

open Runs Fairness

variable {κ : Type}

namespace Stopping

/-- `batches` counts the batches of which callbacks may have run after `stop`. -/
structure State (κ : Type) where
  loop : EventLoop κ
  kernel : Kernel
  stopped : Bool
  batches : Nat

/-- `ready` makes a descriptor readable, at any time. What a callback does to the
loop's state is `drain`, a read of some descriptor, `addEvent`, and `stop`. -/
inductive Event (κ : Type) where
  | loop (e : EventLoop.Event)
  | stop
  | ready (fd : Int)
  | drain (fd : Int)
  | addEvent (fd : Int) (cb : κ) (permitted : Bool)

def inBatch : LoopPc κ → Bool
  | .batch _ | .callback _ _ => true
  | _ => false

def inCallback : LoopPc κ → Bool
  | .callback _ _ => true
  | _ => false

def atWait : LoopPc κ → Bool
  | .calling | .waiting => true
  | _ => false

/-- The kernel's part in a step of the loop: it reports readable descriptors only. -/
def allowed (k : Kernel) : EventLoop.Event → Bool
  | .result (.events fds) => k.mayReport fds
  | _ => true

def State.stop (s : State κ) : State κ :=
  { s with
    loop := s.loop.stop
    stopped := true
    batches := if inBatch s.loop.pc then 1 else 0 }

/-- A batch that `epoll_wait` delivers after `stop` counts. -/
def State.count (s : State κ) : EventLoop.Event → Nat
  | .result (.events _) => if s.stopped then s.batches + 1 else s.batches
  | _ => s.batches

def step (s : State κ) : Event κ → Option (State κ)
  | .loop e =>
      if allowed s.kernel e then
        (s.loop.step e).map fun l => { s with loop := l, batches := s.count e }
      else none
  | .stop => if s.stopped then none else some s.stop
  | .ready fd => some { s with kernel := s.kernel.setCounter fd (s.kernel.counter fd + 1) }
  | .drain fd =>
      if inCallback s.loop.pc then some { s with kernel := s.kernel.setCounter fd 0 } else none
  | .addEvent fd cb permitted =>
      if inCallback s.loop.pc then
        some { s with
          loop := (s.loop.addEvent s.kernel fd cb permitted).1
          kernel := (s.loop.addEvent s.kernel fd cb permitted).2 }
      else none

/-- A loop that has been set up, with any callbacks and any registered descriptors. -/
def Initial (s : State κ) : Prop :=
  s.loop.pc = .outside ∧ s.loop.running = false ∧ s.stopped = false

def Reachable (s : State κ) : Prop :=
  ∃ start, Initial start ∧ Runs.Reachable step start s

def anyReadable (k : Kernel) : Prop :=
  ∃ fd, k.readable fd = true

/-- What must not happen once `stop` has returned: `run` is in `epoll_wait` and
nothing registered is readable, or the flag is set again. -/
def Ineffective (s : State κ) : Prop :=
  s.stopped = true ∧
    ((s.loop.pc = .waiting ∧ ¬ anyReadable s.kernel) ∨ s.loop.running = true)

/-- The loop's own steps. That `epoll_wait` is interrupted or fails is not one that
the loop may count on. -/
def Event.isOwn : Event κ → Prop
  | .loop (.result (.events _)) => True
  | .loop (.result _) => False
  | .loop _ => True
  | _ => False

/-- `stop`, called in this state, does what it is for. -/
def StopEffective (s : State κ) : Prop :=
  (∀ t, Runs.Reachable step s.stop t → ¬ Ineffective t ∧ t.batches ≤ 1) ∧
    ∀ x : Execution (step : State κ → _), x.state 0 = s.stop → x.Fair Event.isOwn →
      ∃ j, (x.state j).loop.pc = .left

/-- The moments at which it does: `run` has been entered, and it is not on its way
into `epoll_wait` with nothing to report. -/
def StopNoticed (s : State κ) : Prop :=
  s.loop.pc ≠ .outside ∧ (atWait s.loop.pc = true → anyReadable s.kernel)

structure Winding (s : State κ) : Prop where
  stopped : s.stopped = true
  off : s.loop.running = false
  entered : s.loop.pc ≠ .outside
  noticed : atWait s.loop.pc = true → anyReadable s.kernel ∧ s.batches = 0
  once : s.batches ≤ 1

def loopRank : LoopPc κ → Nat
  | .outside => 0
  | .left => 0
  | .test => 1
  | .batch rest => 2 * rest.length + 2
  | .callback _ rest => 2 * rest.length + 3
  | .waiting => 2 * Kernel.maxEvents + 3
  | .calling => 2 * Kernel.maxEvents + 4

theorem winding_of_noticed {s : State κ} (h : StopNoticed s) : Winding s.stop where
  stopped := rfl
  off := rfl
  entered := h.1
  noticed := by
    intro hwait
    refine ⟨h.2 hwait, ?_⟩
    change atWait s.loop.pc = true at hwait
    simp only [State.stop]
    cases hpc : s.loop.pc <;> simp_all [atWait, inBatch]
  once := by
    simp only [State.stop]
    split <;> omega

theorem step_loop {s t : State κ} {e : EventLoop.Event} (h : step s (.loop e) = some t) :
    allowed s.kernel e = true ∧ ∃ l, EventLoop.Moves s.loop e l ∧
      t = { s with loop := l, batches := s.count e } := by
  obtain ⟨hallowed, h⟩ := Option.ite_none_right_eq_some.mp h
  obtain ⟨l, hl, rfl⟩ := Option.map_eq_some_iff.mp h
  exact ⟨hallowed, l, moves hl, rfl⟩

theorem Winding.moveTo {s : State κ} (hs : Winding s) {pc : LoopPc κ} (hinside : pc ≠ .outside)
    (hawake : atWait pc = false) : Winding { s with loop := { s.loop with pc := pc } } where
  stopped := hs.stopped
  off := hs.off
  entered := hinside
  noticed := by
    intro hwait
    change atWait pc = true at hwait
    rw [hawake] at hwait
    cases hwait
  once := hs.once

/-- While winding down, each step of the loop takes it closer to its end. -/
theorem loop_winding {s t : State κ} {e : EventLoop.Event} (hs : Winding s)
    (h : step s (.loop e) = some t) :
    Winding t ∧ loopRank t.loop.pc < loopRank s.loop.pc := by
  obtain ⟨hallowed, l, hmove, rfl⟩ := step_loop h
  cases hmove with
  | entered here => exact absurd here hs.entered
  | looped here on => rw [hs.off] at on; cases on
  | ended here =>
      refine ⟨hs.moveTo (by simp) rfl, ?_⟩
      rw [here]
      exact Nat.zero_lt_one
  | waits here =>
      have hnoticed := hs.noticed (by rw [here]; rfl)
      refine ⟨⟨hs.stopped, hs.off, by simp, fun _ => hnoticed, hs.once⟩, ?_⟩
      rw [here]
      exact Nat.lt_succ_self _
  | woken r here =>
      have hzero := (hs.noticed (by rw [here]; rfl)).2
      rw [here]
      cases r with
      | interrupted =>
          refine ⟨hs.moveTo (by simp [afterWait]) rfl, ?_⟩
          simp [afterWait, loopRank, Kernel.maxEvents]
      | failed =>
          refine ⟨hs.moveTo (by simp [afterWait]) rfl, ?_⟩
          simp [afterWait, loopRank, Kernel.maxEvents]
      | events fds =>
          have hlen := ((s.kernel.mayReport_iff fds).mp hallowed).2.2.1
          refine ⟨⟨hs.stopped, hs.off, by simp [afterWait], by simp [afterWait, atWait], ?_⟩, ?_⟩
          · simp only [State.count, hs.stopped, hzero, if_true]
            exact le_rfl
          · simp only [afterWait, loopRank]
            omega
  | batchDone here =>
      refine ⟨hs.moveTo (by simp) rfl, ?_⟩
      rw [here]
      exact Nat.lt_succ_self _
  | called fd rest cb here =>
      refine ⟨hs.moveTo (by simp) rfl, ?_⟩
      rw [here]
      simp only [loopRank, List.length_cons]
      omega
  | skipped fd rest here =>
      refine ⟨hs.moveTo (by simp) rfl, ?_⟩
      rw [here]
      simp only [loopRank, List.length_cons]
      omega
  | returned cb rest here =>
      refine ⟨hs.moveTo (by simp) rfl, ?_⟩
      rw [here]
      exact Nat.lt_succ_self _

/-- Nobody else moves the loop, and nobody else takes readiness away while it is
on its way into `epoll_wait`. -/
theorem others_winding {s t : State κ} {e : Event κ} (hs : Winding s)
    (hother : ∀ l, e ≠ .loop l) (h : step s e = some t) :
    Winding t ∧ loopRank t.loop.pc = loopRank s.loop.pc := by
  obtain ⟨hstopped, hoff, hentered, hnoticed, honce⟩ := hs
  cases e with
  | loop l => exact absurd rfl (hother l)
  | stop => simp [step, hstopped] at h
  | ready fd =>
      cases Option.some.inj h
      refine ⟨⟨hstopped, hoff, hentered, ?_, honce⟩, rfl⟩
      intro hwait
      obtain ⟨⟨d, hd⟩, hzero⟩ := hnoticed hwait
      rw [Kernel.readable_iff] at hd
      refine ⟨⟨d, (Kernel.readable_iff _ _).mpr ⟨hd.1, ?_⟩⟩, hzero⟩
      rw [Kernel.counter_setCounter]
      split
      · exact Nat.succ_pos _
      · exact hd.2
  | drain fd =>
      obtain ⟨hinside, h⟩ := Option.ite_none_right_eq_some.mp h
      cases Option.some.inj h
      refine ⟨⟨hstopped, hoff, hentered, ?_, honce⟩, rfl⟩
      intro hwait
      change atWait s.loop.pc = true at hwait
      cases hpc : s.loop.pc <;> simp_all [atWait, inCallback]
  | addEvent fd cb permitted =>
      obtain ⟨hinside, h⟩ := Option.ite_none_right_eq_some.mp h
      cases Option.some.inj h
      refine ⟨⟨hstopped, hoff, hentered, ?_, honce⟩, rfl⟩
      intro hwait
      change atWait s.loop.pc = true at hwait
      cases hpc : s.loop.pc <;> simp_all [atWait, inCallback]

theorem Winding.keep {s t : State κ} {e : Event κ} (hs : Winding s)
    (h : step s e = some t) : Winding t := by
  cases e with
  | loop e => exact (loop_winding hs h).1
  | stop | ready | drain | addEvent =>
      refine (others_winding hs ?_ h).1
      simp

theorem Winding.enabled {s : State κ} (hs : Winding s) (hopen : s.loop.pc ≠ .left) :
    Enabled step Event.isOwn s := by
  have own : ∀ e l, Event.isOwn (κ := κ) (.loop e) → allowed s.kernel e = true →
      s.loop.step e = some l → Enabled step Event.isOwn s := fun e l hown hallowed hl =>
    ⟨.loop e, _, hown, by simp only [Stopping.step, hallowed, hl, if_true, Option.map_some]; rfl⟩
  cases hpc : s.loop.pc with
  | outside => exact absurd hpc hs.entered
  | test => exact own .test _ trivial rfl (by simp only [EventLoop.step, hpc]; rfl)
  | calling => exact own .wait _ trivial rfl (by simp only [EventLoop.step, hpc]; rfl)
  | waiting =>
      obtain ⟨⟨fd, hfd⟩, -⟩ := hs.noticed (by rw [hpc]; rfl)
      have hreport : s.kernel.mayReport [fd] = true := by
        rw [Kernel.mayReport_iff]
        refine ⟨by simp, by simp, by simp [Kernel.maxEvents], by simpa using hfd⟩
      exact own (.result (.events [fd])) _ trivial hreport
        (by simp only [EventLoop.step, hpc]; rfl)
  | batch rest =>
      cases rest with
      | nil => exact own .next _ trivial rfl (by simp only [EventLoop.step, hpc]; rfl)
      | cons fd rest => exact own .next _ trivial rfl (by simp only [EventLoop.step, hpc]; rfl)
  | callback cb rest => exact own .ret _ trivial rfl (by simp only [EventLoop.step, hpc]; rfl)
  | left => exact absurd hpc hopen

theorem stop_progress : Progress (step : State κ → _) Event.isOwn Winding
    (fun s => s.loop.pc = .left) (fun s => loopRank s.loop.pc) where
  keep := fun _ _ _ hs hstep => hs.keep hstep
  enabled := fun _ hs hopen => hs.enabled hopen
  down := by
    intro s e t hs hown hstep
    cases e with
    | loop e => exact (loop_winding hs hstep).2
    | stop | ready | drain | addEvent => cases hown
  others := by
    intro s e t hs _ hstep
    cases e with
    | loop e => exact (loop_winding hs hstep).2.le
    | stop | ready | drain | addEvent =>
        refine (others_winding hs ?_ hstep).2.le
        simp

theorem eq_stop {s t : State κ} {e : Event κ} (h : step s e = some t) (before : s.stopped = false)
    (after : t.stopped = true) : t = s.stop := by
  cases e with
  | loop e =>
      obtain ⟨-, l, -, rfl⟩ := step_loop h
      exact Bool.noConfusion (before.symm.trans after)
  | stop => exact (Option.some.inj (Option.ite_none_left_eq_some.mp h).2).symm
  | ready fd =>
      cases Option.some.inj h
      exact Bool.noConfusion (before.symm.trans after)
  | drain fd =>
      cases Option.some.inj (Option.ite_none_right_eq_some.mp h).2
      exact Bool.noConfusion (before.symm.trans after)
  | addEvent fd cb permitted =>
      cases Option.some.inj (Option.ite_none_right_eq_some.mp h).2
      exact Bool.noConfusion (before.symm.trans after)

/-- Every state after `stop` is one that follows the call, at whatever moment that was. -/
theorem exists_stop {t : State κ} (h : Reachable t) (after : t.stopped = true) :
    ∃ s, Reachable s ∧ s.stopped = false ∧ Runs.Reachable step s.stop t := by
  obtain ⟨start, hinitial, hrun⟩ := h
  induction hrun with
  | refl =>
      rw [hinitial.2.2] at after
      cases after
  | @tail u v hu hnext ih =>
      obtain ⟨e, hstep⟩ := hnext
      cases before : u.stopped with
      | true =>
          obtain ⟨s, hs, hopen, hrun⟩ := ih before
          exact ⟨s, hs, hopen, hrun.step hstep⟩
      | false =>
          rw [eq_stop hstep before after]
          exact ⟨u, ⟨start, hinitial, hu⟩, before, .refl⟩

/-- At any other moment it is lost: the flag is set again, or the loop is left waiting. -/
theorem noticed_of_effective {s : State κ} (heffective : StopEffective s) : StopNoticed s := by
  have hnever : ∀ e t, step s.stop e = some t → ¬ Ineffective t := fun e t hstep =>
    (heffective.1 t (.single hstep)).1
  constructor
  · -- `run` has not been entered: it will set the flag again
    intro houtside
    have hrun : step s.stop (.loop .run) =
        some { s.stop with loop := { s.stop.loop with running := true, pc := .test } } := by
      simp only [step, allowed, EventLoop.step, State.stop, EventLoop.stop, houtside]
      rfl
    exact hnever _ _ hrun ⟨rfl, Or.inr rfl⟩
  · intro hwait
    by_contra hnothing
    cases hpc : s.loop.pc with
    | calling =>
        have hcall : step s.stop (.loop .wait) =
            some { s.stop with loop := { s.stop.loop with pc := .waiting } } := by
          simp only [step, allowed, EventLoop.step, State.stop, EventLoop.stop, hpc]
          rfl
        exact hnever _ _ hcall ⟨rfl, Or.inl ⟨rfl, hnothing⟩⟩
    | waiting => exact (heffective.1 s.stop .refl).1 ⟨rfl, Or.inl ⟨hpc, hnothing⟩⟩
    | _ => simp [hpc, atWait] at hwait

/-- At those moments the loop winds down, and it has something to wake it. -/
theorem effective_of_noticed {s : State κ} (hnoticed : StopNoticed s) : StopEffective s := by
  have hstart := winding_of_noticed hnoticed
  constructor
  · intro t hrun
    have ht : Winding t := hrun.keeps hstart fun _ _ _ hs hstep => hs.keep hstep
    refine ⟨?_, ht.once⟩
    rintro ⟨-, ⟨hpc, hnothing⟩ | hon⟩
    · exact hnothing (ht.noticed (by rw [hpc]; rfl)).1
    · rw [ht.off] at hon
      cases hon
  · intro x hzero fair
    rw [← hzero] at hstart
    obtain ⟨j, -, hleft⟩ := stop_progress.eventually x fair hstart
    exact ⟨j, hleft⟩

/-- `stop` does what it is for exactly when it comes at one of those moments, and what
is reached after it is reached from such a call. -/
theorem stopEffective_iff :
    (∀ s : State κ, StopEffective s ↔ StopNoticed s) ∧
      ∀ t : State κ, Reachable t → t.stopped = true →
        ∃ s, Reachable s ∧ s.stopped = false ∧ Runs.Reachable step s.stop t := by
  constructor
  · intro s
    exact ⟨noticed_of_effective, effective_of_noticed⟩
  · intro t h after
    exact exists_stop h after

def oneFd : State Unit where
  loop := { init Unit with callbacks := Function.update (fun _ => none) 3 (some ()) }
  kernel := ((Kernel.empty.openFd (some 3)).1.epollAdd 3 true).1
  stopped := false
  batches := 0

theorem oneFd_initial : Initial oneFd := ⟨rfl, rfl, rfl⟩

private theorem oneFd_silent (fd : Int) : oneFd.kernel.counter fd = 0 := by
  unfold oneFd
  rw [Kernel.counter_epollAdd]
  simp [Kernel.openFd, Kernel.empty]

/-- It is signalled, and its callback has been called. -/
def signalled : List (Event Unit) :=
  [.loop .run, .loop .test, .loop .wait, .ready 3, .loop (.result (.events [3])), .loop .next]

theorem signalled_isSome : (run step oneFd signalled).isSome = true := rfl

def insideCallback : State Unit :=
  (run step oneFd signalled).get signalled_isSome

theorem insideCallback_pc : insideCallback.loop.pc = .callback () [] := rfl

/-- `stop` is called by that callback. -/
theorem stopEffective_in_callback : StopEffective insideCallback ∧
    ∃ s, Reachable s ∧ s.stopped = false ∧ Runs.Reachable step s.stop insideCallback.stop := by
  have hreachable : Runs.Reachable step oneFd insideCallback :=
    reachable_of_run (Option.some_get signalled_isSome).symm
  constructor
  · apply (stopEffective_iff.1 insideCallback).mpr
    constructor <;> simp [insideCallback_pc, atWait]
  · have hstop : step insideCallback .stop = some insideCallback.stop := rfl
    exact stopEffective_iff.2 _ ⟨oneFd, oneFd_initial, hreachable.step hstop⟩ rfl

/-- `stop` is called while `run` waits for that eventfd. -/
theorem stop_lost_in_wait :
    ¬ ∀ s : State Unit, Reachable s → s.stopped = false → StopEffective s := by
  intro hall
  have hrun : run step oneFd [.loop .run, .loop .test, .loop .wait] = some _ := rfl
  have hwaiting := hall _ ⟨oneFd, oneFd_initial, reachable_of_run hrun⟩ rfl
  refine (hwaiting.1 _ .refl).1 ⟨rfl, Or.inl ⟨rfl, ?_⟩⟩
  rintro ⟨fd, hfd⟩
  have hcounter := ((Kernel.readable_iff _ fd).mp hfd).2
  change 0 < oneFd.kernel.counter fd at hcounter
  rw [oneFd_silent] at hcounter
  exact Nat.lt_irrefl 0 hcounter

end Stopping

end TinyMiddleware.Core.EventLoop
