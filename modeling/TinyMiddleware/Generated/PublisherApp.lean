import TinyMiddleware.Lib.CondWait
import TinyMiddleware.Lib.Runs

/-! `HelloWorldPublisherApp`: the thread in `run()`, the DDS threads that call
`on_publication_matched`, and whoever calls `stop()`. -/
namespace TinyMiddleware.PublisherApp

open Runs CondWait

/-- The wait in `publish()`, and the one for the period in `run()`. -/
inductive Wait where
  | discovery
  | period
  deriving DecidableEq, Repr

/-- Where the thread in `run()` stands: before the loop's test, in one of the two waits,
about to `write`, at the end of `publish()`, at `++samples_sent_`. -/
inductive RunPc where
  | outside
  | testing
  | waiting (wait : Wait) (pc : CondWait.Pc)
  | writing
  | leaving (ret : Bool)
  | counting
  | returned
  deriving DecidableEq, Repr

structure MatchedStatus where
  currentCount : Int
  currentCountChange : Int
  deriving DecidableEq, Repr

/-- Where a DDS thread stands in `on_publication_matched`. -/
inductive ListenerPc where
  | idle
  | called (info : MatchedStatus)
  | storing (info : MatchedStatus)
  | notifying
  deriving DecidableEq, Repr

/-- Who has `mutex_`, when the thread in `run()` has not. -/
inductive Owner (m : Nat) where
  | run
  | listener (l : Fin m)
  deriving DecidableEq, Repr

/-- `stopping` calls of `stop()` have stored and are yet to notify. -/
structure State (m : Nat) where
  run : RunPc
  owner : Option (Owner m)
  listeners : Fin m → ListenerPc
  matched : Int
  samplesSent : BitVec 16
  stop : Bool
  stopping : Nat

/-- `advance` is the next step of the thread in `run()`; `ok` says what `write` returns,
where it is one. -/
inductive Event (m : Nat) where
  | advance (ok : Bool)
  | timeout
  | spurious
  | call (l : Fin m) (info : MatchedStatus)
  | listener (l : Fin m)
  | stopStore
  | stopNotify
  deriving DecidableEq, Repr

variable {m : Nat}

def init (m : Nat) : State m where
  run := .outside
  owner := none
  listeners := fun _ => .idle
  matched := 0
  samplesSent := 0
  stop := false
  stopping := 0

def State.goTo (s : State m) (pc : RunPc) : State m :=
  { s with run := pc }

@[simp] theorem run_goTo (s : State m) (pc : RunPc) : (s.goTo pc).run = pc := rfl

def predicate (s : State m) : Wait → Bool
  | .discovery => decide (0 < s.matched) || s.stop
  | .period => s.stop

def ownerIf : Bool → Option (Owner m)
  | true => some .run
  | false => none

def inWait (s : State m) (wait : Wait) (pc : CondWait.Pc) : State m :=
  { s with run := .waiting wait pc, owner := ownerIf pc.holds }

def advance (s : State m) (ok : Bool) : Option (State m) :=
  match s.run with
  | .outside => some (s.goTo .testing)
  | .testing => some (s.goTo (if s.stop then .returned else .waiting .discovery .locking))
  | .waiting .discovery .passed => some (s.goTo (if s.stop then .leaving false else .writing))
  | .writing => some (s.goTo (.leaving ok))
  | .leaving ret =>
      some ({ s with owner := none }.goTo (if ret then .counting else .waiting .period .locking))
  | .counting =>
      some ({ s with samplesSent := s.samplesSent + 1 }.goTo (.waiting .period .locking))
  | .waiting .period .passed => some ({ s with owner := none }.goTo .testing)
  | .waiting wait pc => (pc.advance s.owner.isNone (predicate s wait)).map (inWait s wait)
  | .returned => none

/-- `cv_.notify_one()`: nobody but the thread in `run()` waits on `cv_`. -/
def notify (s : State m) : State m :=
  match s.run with
  | .waiting wait pc => s.goTo (.waiting wait pc.notified)
  | _ => s

def State.setListener (s : State m) (l : Fin m) (pc : ListenerPc) : State m :=
  { s with listeners := Function.update s.listeners l pc }

/-- The next step of `on_publication_matched`. With any other change it prints only. -/
def onPublicationMatched (s : State m) (l : Fin m) : Option (State m) :=
  match s.listeners l with
  | .idle => none
  | .called info =>
      if info.currentCountChange = 1 ∨ info.currentCountChange = -1 then
        if s.owner.isNone then
          some ({ s with owner := some (.listener l) }.setListener l (.storing info))
        else none
      else some (s.setListener l .idle)
  | .storing info =>
      some ({ s with matched := info.currentCount, owner := none }.setListener l
        (if info.currentCountChange = 1 then .notifying else .idle))
  | .notifying => some ((notify s).setListener l .idle)

def timeout (s : State m) : Option (State m) :=
  match s.run with
  | .waiting .period pc => pc.timedOut.map fun pc => s.goTo (.waiting .period pc)
  | _ => none

def step (s : State m) : Event m → Option (State m)
  | .advance ok => advance s ok
  | .timeout => timeout s
  | .spurious => some (notify s)
  | .call l info =>
      if s.listeners l = .idle then some (s.setListener l (.called info)) else none
  | .listener l => onPublicationMatched s l
  | .stopStore => some { s with stop := true, stopping := s.stopping + 1 }
  | .stopNotify =>
      if 0 < s.stopping then some (notify { s with stopping := s.stopping - 1 }) else none

abbrev Reachable (s : State m) : Prop :=
  Runs.Reachable step (init m) s

def ListenerPc.holds : ListenerPc → Bool
  | .storing _ => true
  | _ => false

/-- Whether the thread in `run()` has `mutex_`. -/
def RunPc.holds : RunPc → Bool
  | .waiting _ pc => pc.holds
  | .writing | .leaving _ => true
  | _ => false

inductive Moves (s : State m) : Event m → State m → Prop
  | entered (ok : Bool) (here : s.run = .outside) : Moves s (.advance ok) (s.goTo .testing)
  | ended (ok : Bool) (here : s.run = .testing) (stopped : s.stop = true) :
      Moves s (.advance ok) (s.goTo .returned)
  | looped (ok : Bool) (here : s.run = .testing) (running : s.stop = false) :
      Moves s (.advance ok) (s.goTo (.waiting .discovery .locking))
  | waited (ok : Bool) (wait : Wait) (pc next : CondWait.Pc) (here : s.run = .waiting wait pc)
      (move : pc.advance s.owner.isNone (predicate s wait) = some next) :
      Moves s (.advance ok) (inWait s wait next)
  | gaveUp (ok : Bool) (here : s.run = .waiting .discovery .passed) (stopped : s.stop = true) :
      Moves s (.advance ok) (s.goTo (.leaving false))
  | decided (ok : Bool) (here : s.run = .waiting .discovery .passed) (running : s.stop = false) :
      Moves s (.advance ok) (s.goTo .writing)
  | wrote (ok : Bool) (here : s.run = .writing) : Moves s (.advance ok) (s.goTo (.leaving ok))
  | left (ok ret : Bool) (here : s.run = .leaving ret) :
      Moves s (.advance ok)
        ({ s with owner := none }.goTo (if ret then .counting else .waiting .period .locking))
  | counted (ok : Bool) (here : s.run = .counting) :
      Moves s (.advance ok)
        ({ s with samplesSent := s.samplesSent + 1 }.goTo (.waiting .period .locking))
  | periodOver (ok : Bool) (here : s.run = .waiting .period .passed) :
      Moves s (.advance ok) ({ s with owner := none }.goTo .testing)
  | timedOut (pc next : CondWait.Pc) (here : s.run = .waiting .period pc)
      (move : pc.timedOut = some next) : Moves s .timeout (s.goTo (.waiting .period next))
  | woken : Moves s .spurious (notify s)
  | called (l : Fin m) (info : MatchedStatus) (idle : s.listeners l = .idle) :
      Moves s (.call l info) (s.setListener l (.called info))
  | ignored (l : Fin m) (info : MatchedStatus) (here : s.listeners l = .called info) :
      Moves s (.listener l) (s.setListener l .idle)
  | locked (l : Fin m) (info : MatchedStatus) (here : s.listeners l = .called info)
      (free : s.owner = none) :
      Moves s (.listener l)
        ({ s with owner := some (.listener l) }.setListener l (.storing info))
  | stored (l : Fin m) (info : MatchedStatus) (here : s.listeners l = .storing info) :
      Moves s (.listener l)
        ({ s with matched := info.currentCount, owner := none }.setListener l
          (if info.currentCountChange = 1 then .notifying else .idle))
  | notified (l : Fin m) (here : s.listeners l = .notifying) :
      Moves s (.listener l) ((notify s).setListener l .idle)
  | stopStored : Moves s .stopStore { s with stop := true, stopping := s.stopping + 1 }
  | stopNotified (owed : 0 < s.stopping) :
      Moves s .stopNotify (notify { s with stopping := s.stopping - 1 })

theorem advance_moves {s t : State m} {ok : Bool} (h : advance s ok = some t) :
    Moves s (.advance ok) t := by
  unfold advance at h
  split at h
  · next here => exact Option.some.inj h ▸ .entered ok here
  · next here =>
      cases hstop : s.stop with
      | true =>
          rw [hstop] at h
          exact Option.some.inj h ▸ .ended ok here hstop
      | false =>
          rw [hstop] at h
          exact Option.some.inj h ▸ .looped ok here hstop
  · next here =>
      cases hstop : s.stop with
      | true =>
          rw [hstop] at h
          exact Option.some.inj h ▸ .gaveUp ok here hstop
      | false =>
          rw [hstop] at h
          exact Option.some.inj h ▸ .decided ok here hstop
  · next here => exact Option.some.inj h ▸ .wrote ok here
  · next ret here => exact Option.some.inj h ▸ .left ok ret here
  · next here => exact Option.some.inj h ▸ .counted ok here
  · next here => exact Option.some.inj h ▸ .periodOver ok here
  · next wait pc _ _ here =>
      obtain ⟨next, hmove, rfl⟩ := Option.map_eq_some_iff.mp h
      exact .waited ok wait pc next here hmove
  · cases h

theorem moves {s t : State m} {e : Event m} (h : step s e = some t) : Moves s e t := by
  cases e with
  | advance ok => exact advance_moves h
  | timeout =>
      simp only [step, timeout] at h
      split at h
      · next pc here =>
          obtain ⟨next, hmove, rfl⟩ := Option.map_eq_some_iff.mp h
          exact .timedOut pc next here hmove
      · cases h
  | spurious => exact Option.some.inj h ▸ .woken
  | call l info =>
      obtain ⟨hidle, h⟩ := Option.ite_none_right_eq_some.mp h
      exact Option.some.inj h ▸ .called l info hidle
  | listener l =>
      simp only [step, onPublicationMatched] at h
      split at h
      · cases h
      · next info here =>
          split at h
          · obtain ⟨hfree, h⟩ := Option.ite_none_right_eq_some.mp h
            exact Option.some.inj h ▸ .locked l info here (Option.isNone_iff_eq_none.mp hfree)
          · exact Option.some.inj h ▸ .ignored l info here
      · next info here => exact Option.some.inj h ▸ .stored l info here
      · next here => exact Option.some.inj h ▸ .notified l here
  | stopStore => exact Option.some.inj h ▸ .stopStored
  | stopNotify =>
      obtain ⟨howed, h⟩ := Option.ite_none_right_eq_some.mp h
      exact Option.some.inj h ▸ .stopNotified howed

/-- What `mutex_` protects. The predicate of the wait in `publish()` holds when the wait is
over, and if `stop_` is still not set after that, it holds because of `matched_`. -/
structure Sound (s : State m) : Prop where
  run : s.run.holds = true ↔ s.owner = some .run
  listener : ∀ l, (s.listeners l).holds = true ↔ s.owner = some (.listener l)
  untimed : s.run ≠ .waiting .discovery (.waking true)
  ready : s.run = .waiting .discovery .passed → predicate s .discovery = true
  writing : s.run = .writing → 0 < s.matched

section Steps
variable {s t : State m}

theorem Sound.goTo (h : Sound s) {pc : RunPc} (holds : pc.holds = s.run.holds)
    (untimed : pc ≠ .waiting .discovery (.waking true))
    (ready : pc = .waiting .discovery .passed → predicate s .discovery = true)
    (writing : pc = .writing → 0 < s.matched) : Sound (s.goTo pc) :=
  ⟨holds ▸ h.run, h.listener, untimed, ready, writing⟩

theorem Sound.unowned (h : Sound s) (here : s.run.holds = true) (l : Fin m) :
    (s.listeners l).holds = false := by
  have howner := h.run.mp here
  rw [Bool.eq_false_iff, Ne, h.listener, howner]
  simp

theorem Sound.free (h : Sound s) (free : s.owner = none) (l : Fin m) :
    (s.listeners l).holds = false := by
  rw [Bool.eq_false_iff, Ne, h.listener, free]
  simp

/-- The thread in `run()` gives the mutex back. -/
theorem Sound.release (h : Sound s) (here : s.run.holds = true) {pc : RunPc}
    (holds : pc.holds = false) (untimed : pc ≠ .waiting .discovery (.waking true)) :
    Sound ({ s with owner := none }.goTo pc) := by
  refine ⟨by simp [State.goTo, holds], fun l => ?_, untimed, ?_, ?_⟩
  · simp [State.goTo, h.unowned here l]
  · rintro rfl
    cases holds
  · rintro rfl
    cases holds

theorem Sound.inWait (h : Sound s) {wait : Wait} {pc next : CondWait.Pc}
    (here : s.run = .waiting wait pc)
    (move : pc.advance s.owner.isNone (predicate s wait) = some next) :
    Sound (inWait s wait next) := by
  have hnobody : ∀ l, (s.listeners l).holds = false := by
    obtain hholds | hfree := mutex_of_advance move
    · exact h.unowned (by rwa [here])
    · exact h.free (Option.isNone_iff_eq_none.mp hfree)
  refine ⟨?_, fun l => ?_, ?_, ?_, ?_⟩
  · cases hnext : next.holds <;> simp [PublisherApp.inWait, RunPc.holds, hnext, ownerIf]
  · cases hnext : next.holds <;> simp [PublisherApp.inWait, hnobody l, hnext, ownerIf]
  · intro heq
    cases heq
    exact not_timedOut_of_advance move true rfl
  · intro heq
    cases heq
    refine (passed_advance move).resolve_right ?_
    rintro rfl
    exact h.untimed here
  · intro heq
    cases heq

theorem Sound.notify (h : Sound s) : Sound (notify s) := by
  unfold PublisherApp.notify
  split
  · next wait pc here =>
      refine h.goTo ?_ ?_ ?_ ?_
      · rw [here]
        exact holds_notified pc
      · intro heq
        rw [RunPc.waiting.injEq] at heq
        obtain ⟨rfl, hpc⟩ := heq
        refine notified_ne_timedOut ?_ hpc
        rintro rfl
        exact h.untimed here
      · intro heq
        rw [RunPc.waiting.injEq, notified_eq_passed] at heq
        obtain ⟨rfl, rfl⟩ := heq
        exact h.ready here
      · intro heq
        cases heq
  · exact h

theorem Sound.setListener (h : Sound s) {l : Fin m} {pc : ListenerPc}
    (holds : pc.holds = (s.listeners l).holds) : Sound (s.setListener l pc) := by
  refine ⟨h.run, fun other => ?_, h.untimed, h.ready, h.writing⟩
  change ((Function.update s.listeners l pc) other).holds = true ↔ s.owner = some (.listener other)
  by_cases hl : other = l
  · subst hl
    rw [Function.update_self, holds]
    exact h.listener other
  · rw [Function.update_of_ne hl]
    exact h.listener other

theorem Sound.lock (h : Sound s) (free : s.owner = none) (l : Fin m) (info : MatchedStatus) :
    Sound ({ s with owner := some (.listener l) }.setListener l (.storing info)) := by
  have hrun : s.run.holds = false := by
    rw [Bool.eq_false_iff, Ne, h.run, free]
    simp
  refine ⟨by simp [State.setListener, hrun], fun other => ?_, h.untimed, h.ready, h.writing⟩
  by_cases hl : other = l
  · subst hl
    simp [State.setListener, ListenerPc.holds]
  · simp [State.setListener, Function.update_of_ne hl, h.free free other, Ne.symm hl]

theorem Sound.store (h : Sound s) {l : Fin m} {info : MatchedStatus}
    (here : s.listeners l = .storing info) {pc : ListenerPc} (holds : pc.holds = false) :
    Sound ({ s with matched := info.currentCount, owner := none }.setListener l pc) := by
  have howner : s.owner = some (.listener l) := (h.listener l).mp (by rw [here]; rfl)
  have hrun : s.run.holds = false := by
    rw [Bool.eq_false_iff, Ne, h.run, howner]
    simp
  refine ⟨by simp [State.setListener, hrun], fun other => ?_, h.untimed, ?_, ?_⟩
  · by_cases hl : other = l
    · subst hl
      simp [State.setListener, holds]
    · have hother : (s.listeners other).holds = false := by
        rw [Bool.eq_false_iff, Ne, h.listener, howner]
        simpa using Ne.symm hl
      simp [State.setListener, Function.update_of_ne hl, hother]
  · intro hpc
    rw [show s.run = _ from hpc] at hrun
    cases hrun
  · intro hpc
    rw [show s.run = _ from hpc] at hrun
    cases hrun

theorem sound_init : Sound (init m) where
  run := by simp [init, RunPc.holds]
  listener := fun l => by simp [init, ListenerPc.holds]
  untimed := by simp [init]
  ready := fun h => by cases h
  writing := fun h => by cases h

theorem Sound.step (h : Sound s) {e : Event m} (hstep : PublisherApp.step s e = some t) :
    Sound t := by
  cases moves hstep with
  | entered ok here | ended ok here | looped ok here =>
      exact h.goTo (by rw [here]; rfl) (by simp) (by simp) (by simp)
  | waited ok wait pc next here move => exact h.inWait here move
  | gaveUp ok here => exact h.goTo (by rw [here]; rfl) (by simp) (by simp) (by simp)
  | decided ok here running =>
      refine h.goTo (by rw [here]; rfl) (by simp) (by simp) fun _ => ?_
      simpa [predicate, running] using h.ready here
  | wrote ok here => exact h.goTo (by rw [here]; rfl) (by simp) (by simp) (by simp)
  | left ok ret here =>
      refine h.release (by rw [here]; rfl) ?_ ?_ <;> cases ret <;> simp [RunPc.holds, Pc.holds]
  | counted ok here =>
      refine Sound.goTo (s := { s with samplesSent := s.samplesSent + 1 })
        ⟨h.run, h.listener, h.untimed, h.ready, h.writing⟩ ?_ (by simp) (by simp) (by simp)
      rw [show ({ s with samplesSent := s.samplesSent + 1 } : State m).run = _ from here]
      rfl
  | periodOver ok here => exact h.release (by rw [here]; rfl) rfl (by simp)
  | timedOut pc next here move =>
      refine h.goTo ?_ (by simp) (by simp) (by simp)
      rw [here]
      exact holds_timedOut move
  | woken => exact h.notify
  | called l info idle => exact h.setListener (by rw [idle]; rfl)
  | ignored l info here => exact h.setListener (by rw [here]; rfl)
  | locked l info here free => exact h.lock free l info
  | stored l info here => exact h.store here (by split <;> rfl)
  | notified l here =>
      refine h.notify.setListener ?_
      have hlisteners : (PublisherApp.notify s).listeners = s.listeners := by
        unfold PublisherApp.notify
        split <;> rfl
      rw [hlisteners, here]
      rfl
  | stopStored =>
      refine ⟨h.run, h.listener, h.untimed, fun _ => ?_, h.writing⟩
      simp [predicate]
  | stopNotified owed =>
      exact Sound.notify ⟨h.run, h.listener, h.untimed, h.ready, h.writing⟩

end Steps

theorem sound {s : State m} (h : Reachable s) : Sound s :=
  h.keeps sound_init fun _ _ _ hs hstep => hs.step hstep

/-- What an observer of the `DataWriter` sees: what each `write` returns. -/
def writes (s : State m) : Event m → List Bool
  | .advance ok => if s.run = .writing then [ok] else []
  | _ => []

/-- A write that is already decided upon. -/
def decided (s : State m) : Nat :=
  if s.run = .writing then 1 else 0

/-- A write that has been accepted and is yet to be counted. -/
def uncounted : RunPc → BitVec 16
  | .leaving true | .counting => 1
  | _ => 0

theorem notify_frame (s : State m) : (notify s).samplesSent = s.samplesSent ∧
    (notify s).stop = s.stop ∧ decided (notify s) = decided s ∧
    uncounted (notify s).run = uncounted s.run := by
  unfold notify
  split
  · next wait pc here => simp [State.goTo, decided, here, uncounted]
  · exact ⟨rfl, rfl, rfl, rfl⟩

theorem stop_kept {s t : State m} {e : Event m} (stopped : s.stop = true)
    (hstep : step s e = some t) : t.stop = true := by
  cases moves hstep with
  | woken => rw [(notify_frame s).2.1, stopped]
  | notified l here => exact ((notify_frame s).2.1).trans stopped
  | stopNotified => exact ((notify_frame _).2.1).trans stopped
  | stopStored => rfl
  | _ => exact stopped

/-- Once `stop_` is set nothing more is decided upon. -/
theorem decided_step {s t : State m} {e : Event m} (stopped : s.stop = true)
    (hstep : step s e = some t) : (writes s e).length + decided t ≤ decided s := by
  cases moves hstep with
  | decided ok here running => exact absurd (stopped.symm.trans running) (by simp)
  | wrote ok here => simp [writes, decided, here, State.goTo]
  | looped ok here running => exact absurd (stopped.symm.trans running) (by simp)
  | entered ok here | ended ok here | waited ok _ _ _ here | gaveUp ok here | counted ok here
  | periodOver ok here =>
      simp [writes, here, decided, State.goTo, inWait]
  | left ok ret here => cases ret <;> simp [writes, here, decided, State.goTo]
  | timedOut pc next here => simp [writes, decided, State.goTo]
  | woken =>
      simp only [writes, List.length_nil, Nat.zero_add]
      exact Nat.le_of_eq (notify_frame s).2.2.1
  | notified l here =>
      simp only [writes, List.length_nil, Nat.zero_add]
      exact Nat.le_of_eq (notify_frame s).2.2.1
  | stopNotified owed =>
      simp only [writes, List.length_nil, Nat.zero_add]
      exact Nat.le_of_eq (notify_frame { s with stopping := s.stopping - 1 }).2.2.1
  | called | ignored | locked | stored | stopStored =>
      simp only [writes, List.length_nil, Nat.zero_add]
      exact Nat.le_refl _

theorem counted_step {s t : State m} {e : Event m} (hstep : step s e = some t) :
    t.samplesSent + uncounted t.run =
      s.samplesSent + uncounted s.run + BitVec.ofNat 16 ((writes s e).count true) := by
  cases moves hstep with
  | wrote ok here => cases ok <;> simp [writes, here, State.goTo, uncounted]
  | entered ok here | ended ok here | looped ok here | waited ok _ _ _ here | gaveUp ok here
  | decided ok here | periodOver ok here =>
      simp [writes, here, State.goTo, inWait, uncounted]
  | counted ok here => simp [writes, here, State.goTo, uncounted]
  | left ok ret here => cases ret <;> simp [writes, here, State.goTo, uncounted]
  | timedOut pc next here => simp [writes, here, State.goTo, uncounted]
  | woken =>
      obtain ⟨hsent, -, -, hrun⟩ := notify_frame s
      simp [writes, hsent, hrun]
  | notified l here =>
      obtain ⟨hsent, -, -, hrun⟩ := notify_frame s
      simp [writes, State.setListener, hsent, hrun]
  | stopNotified owed =>
      obtain ⟨hsent, -, -, hrun⟩ := notify_frame { s with stopping := s.stopping - 1 }
      simp [writes, hsent, hrun]
  | called | ignored | locked | stored | stopStored => simp [writes, State.setListener]

/-- What the application publishes, with `seen` as the results of its writes. -/
structure Publishes (s : State m) (seen : List Bool) : Prop where
  /-- It writes with the mutex, while some reader is matched. -/
  matched : s.run = .writing → 0 < s.matched ∧ s.owner = some .run
  /-- `samples_sent_` counts the writes that were accepted, modulo its 16 bits. -/
  counted : s.samplesSent + uncounted s.run = BitVec.ofNat 16 (seen.count true)
  /-- Once `stop_` is set there is at most one more. -/
  stopped : s.stop = true → ∀ t all,
    Runs.Reachable (observe step writes) (s, seen) (t, all) → all.length ≤ seen.length + 1

/-- Whatever the DDS threads report and whenever `stop()` is called. -/
theorem writes_are_matched {s : State m} {seen : List Bool}
    (h : Runs.Reachable (observe step writes) (init m, []) (s, seen)) : Publishes s seen := by
  refine ⟨fun hwriting => ?_, ?_, fun hstopped t all hlater => ?_⟩
  · have hs := sound h.unobserved
    exact ⟨hs.writing hwriting, hs.run.mp (by rw [hwriting]; rfl)⟩
  · exact h.keeps
      (I := fun u => u.1.samplesSent + uncounted u.1.run = BitVec.ofNat 16 (u.2.count true))
      (by simp [init, uncounted]) fun u e v hu hstep => by
        obtain ⟨hmove, hseen⟩ := observe_eq_some.mp hstep
        rw [counted_step hmove, hu, hseen, List.count_append, BitVec.ofNat_add]
  · have hbound : t.stop = true ∧ all.length + decided t ≤ seen.length + decided s :=
      hlater.keeps (I := fun u => u.1.stop = true ∧
          u.2.length + decided u.1 ≤ seen.length + decided s) ⟨hstopped, Nat.le_refl _⟩
        fun u e v hu hstep => by
          obtain ⟨hmove, hseen⟩ := observe_eq_some.mp hstep
          have hdecided := decided_step hu.1 hmove
          refine ⟨stop_kept hu.1 hmove, ?_⟩
          rw [hseen, List.length_append]
          omega
    have hone : decided s ≤ 1 := by
      unfold decided
      split <;> omega
    omega

/-- A reader comes, and `stop()` is called when the first write is already decided upon. -/
theorem writes_are_matched_stopped : ∃ s : State 1, s.run = .returned ∧ s.samplesSent = 1 ∧
    Publishes s [true] := by
  obtain ⟨s, hrun, hreturned, hsent⟩ : ∃ s : State 1,
      run (observe step writes) (init 1, [])
        [.advance true, .advance true, .advance true, .advance true, .advance true,
          .call 0 ⟨1, 1⟩, .listener 0, .listener 0, .listener 0, .advance true, .advance true,
          .advance true, .stopStore, .advance true, .advance true, .advance true, .stopNotify,
          .advance true, .advance true, .advance true, .advance true] = some (s, [true]) ∧
        s.run = .returned ∧ s.samplesSent = 1 := ⟨_, rfl, rfl, rfl⟩
  exact ⟨s, hreturned, hsent, writes_are_matched (reachable_of_run hrun)⟩

end TinyMiddleware.PublisherApp
