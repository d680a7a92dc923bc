import TinyMiddleware.Lib.StopWait

/-! `HelloWorldSubscriberApp`: the thread in `run()`, which only waits for `stop()`, and
the DDS thread in `on_data_available`. Of DDS it is assumed that the calls of one listener
do not overlap, and that a reader with `KEEP_ALL` history gives its samples out in the order
in which they came in. -/
namespace TinyMiddleware.SubscriberApp

open Runs Fairness CondWait

inductive InstanceState where
  | alive
  | notAliveDisposed
  | notAliveNoWriters
  deriving DecidableEq, Repr

structure Sample (μ : Type) where
  content : μ
  instanceState : InstanceState
  validData : Bool

inductive RunPc where
  | outside
  | waiting (pc : CondWait.Pc)
  | returned
  deriving DecidableEq, Repr

/-- Where the DDS thread stands: not called, before `is_stopped()`, before
`take_next_sample`. -/
inductive ListenerPc where
  | idle
  | testing
  | taking
  deriving DecidableEq, Repr

/-- `history` is what is in the reader, which keeps all; `taken` has no counterpart in the
source. -/
structure State (μ : Type) where
  run : RunPc
  listener : ListenerPc
  history : List (Sample μ)
  taken : List (Sample μ)
  samplesReceived : BitVec 16
  stop : Bool
  stopping : Nat

inductive Event (μ : Type) where
  | advance
  | spurious
  | insert (sample : Sample μ)
  | call
  | listener
  | stopStore
  | stopNotify

variable {μ : Type}

def init (μ : Type) : State μ where
  run := .outside
  listener := .idle
  history := []
  taken := []
  samplesReceived := 0
  stop := false
  stopping := 0

/-- Nobody else takes `terminate_cv_mtx_`. -/
def advance (s : State μ) : Option (State μ) :=
  match s.run with
  | .outside => some { s with run := .waiting .locking }
  | .waiting .passed => some { s with run := .returned }
  | .waiting pc => (pc.advance true s.stop).map fun pc => { s with run := .waiting pc }
  | .returned => none

def notify (s : State μ) : State μ :=
  match s.run with
  | .waiting pc => { s with run := .waiting pc.notified }
  | _ => s

def counts (sample : Sample μ) : Bool :=
  decide (sample.instanceState = .alive) && sample.validData

/-- `take_next_sample` gives the oldest sample that is left. -/
def takeNext (s : State μ) : State μ :=
  match s.history with
  | [] => { s with listener := .idle }
  | sample :: rest =>
      { s with
        listener := .testing
        history := rest
        taken := s.taken ++ [sample]
        samplesReceived := if counts sample then s.samplesReceived + 1 else s.samplesReceived }

def onDataAvailable (s : State μ) : Option (State μ) :=
  match s.listener with
  | .idle => none
  | .testing => some { s with listener := if s.stop then .idle else .taking }
  | .taking => some (takeNext s)

def step (s : State μ) : Event μ → Option (State μ)
  | .advance => advance s
  | .spurious => some (notify s)
  | .insert sample => some { s with history := s.history ++ [sample] }
  | .call => if s.listener = .idle then some { s with listener := .testing } else none
  | .listener => onDataAvailable s
  | .stopStore => some { s with stop := true, stopping := s.stopping + 1 }
  | .stopNotify =>
      if 0 < s.stopping then some (notify { s with stopping := s.stopping - 1 }) else none

abbrev Reachable (s : State μ) : Prop :=
  Runs.Reachable step (init μ) s

inductive Moves (s : State μ) : Event μ → State μ → Prop
  | entered (here : s.run = .outside) : Moves s .advance { s with run := .waiting .locking }
  | ended (here : s.run = .waiting .passed) : Moves s .advance { s with run := .returned }
  | waited (pc next : CondWait.Pc) (here : s.run = .waiting pc)
      (move : pc.advance true s.stop = some next) :
      Moves s .advance { s with run := .waiting next }
  | woken : Moves s .spurious (notify s)
  | inserted (sample : Sample μ) :
      Moves s (.insert sample) { s with history := s.history ++ [sample] }
  | called (idle : s.listener = .idle) : Moves s .call { s with listener := .testing }
  | gaveUp (here : s.listener = .testing) (stopped : s.stop = true) :
      Moves s .listener { s with listener := .idle }
  | went (here : s.listener = .testing) (running : s.stop = false) :
      Moves s .listener { s with listener := .taking }
  | drained (here : s.listener = .taking) (empty : s.history = []) :
      Moves s .listener { s with listener := .idle }
  | took (here : s.listener = .taking) (sample : Sample μ) (rest : List (Sample μ))
      (first : s.history = sample :: rest) :
      Moves s .listener
        { s with
          listener := .testing
          history := rest
          taken := s.taken ++ [sample]
          samplesReceived := if counts sample then s.samplesReceived + 1 else s.samplesReceived }
  | stopStored : Moves s .stopStore { s with stop := true, stopping := s.stopping + 1 }
  | stopNotified (owed : 0 < s.stopping) :
      Moves s .stopNotify (notify { s with stopping := s.stopping - 1 })

theorem moves {s t : State μ} {e : Event μ} (h : step s e = some t) : Moves s e t := by
  cases e with
  | advance =>
      simp only [step, advance] at h
      split at h
      · next here => exact Option.some.inj h ▸ .entered here
      · next here => exact Option.some.inj h ▸ .ended here
      · next pc _ here =>
          obtain ⟨next, hmove, rfl⟩ := Option.map_eq_some_iff.mp h
          exact .waited pc next here hmove
      · cases h
  | spurious => exact Option.some.inj h ▸ .woken
  | insert sample => exact Option.some.inj h ▸ .inserted sample
  | call =>
      obtain ⟨hidle, h⟩ := Option.ite_none_right_eq_some.mp h
      exact Option.some.inj h ▸ .called hidle
  | listener =>
      simp only [step, onDataAvailable] at h
      split at h
      · cases h
      · next here =>
          by_cases hstop : s.stop = true
          · rw [if_pos hstop] at h
            exact Option.some.inj h ▸ .gaveUp here hstop
          · rw [if_neg hstop] at h
            exact Option.some.inj h ▸ .went here (Bool.eq_false_of_not_eq_true hstop)
      · next here =>
          unfold takeNext at h
          split at h
          · next empty => exact Option.some.inj h ▸ .drained here empty
          · next sample rest first => exact Option.some.inj h ▸ .took here sample rest first
  | stopStore => exact Option.some.inj h ▸ .stopStored
  | stopNotify =>
      obtain ⟨howed, h⟩ := Option.ite_none_right_eq_some.mp h
      exact Option.some.inj h ▸ .stopNotified howed

/-- What an observer of the `DataReader` sees come in. -/
def inserts (_ : State μ) : Event μ → List (Sample μ)
  | .insert sample => [sample]
  | _ => []

/-- A `take_next_sample` that is already decided upon. -/
def decided (s : State μ) : Nat :=
  if s.listener = .taking then 1 else 0

section Steps
variable {s t : State μ} {e : Event μ}

theorem notify_frame (s : State μ) : (notify s).listener = s.listener ∧
    (notify s).history = s.history ∧ (notify s).taken = s.taken ∧
    (notify s).samplesReceived = s.samplesReceived ∧ (notify s).stop = s.stop ∧
    (notify s).stopping = s.stopping := by
  unfold notify
  split <;> exact ⟨rfl, rfl, rfl, rfl, rfl, rfl⟩

theorem stop_kept (stopped : s.stop = true) (hstep : step s e = some t) : t.stop = true := by
  cases moves hstep with
  | woken | stopNotified => exact (notify_frame _).2.2.2.2.1.trans stopped
  | stopStored => rfl
  | _ => exact stopped

theorem decided_step (stopped : s.stop = true) (hstep : step s e = some t) :
    t.taken.length + decided t ≤ s.taken.length + decided s := by
  cases moves hstep with
  | woken | stopNotified => simp [decided, notify_frame]
  | called idle => simp [decided]
  | gaveUp here | drained here => simp [decided]
  | went here running => exact absurd (stopped.symm.trans running) (by simp)
  | took here sample rest first => simp [decided, here]
  | entered | ended | waited | inserted | stopStored => exact le_rfl

/-- Nothing gets lost in the reader, and nothing is overtaken. -/
theorem taken_step (hstep : step s e = some t) :
    t.taken ++ t.history = s.taken ++ s.history ++ inserts s e := by
  cases moves hstep with
  | woken | stopNotified => simp [inserts, notify_frame]
  | inserted sample => simp [inserts]
  | took here sample rest first => simp [inserts, first]
  | _ => simp [inserts]

theorem counted_step (hstep : step s e = some t)
    (counted : s.samplesReceived = BitVec.ofNat 16 (s.taken.countP counts)) :
    t.samplesReceived = BitVec.ofNat 16 (t.taken.countP counts) := by
  cases moves hstep with
  | woken | stopNotified => simpa [notify_frame] using counted
  | took here sample rest first =>
      cases hcounts : counts sample with
      | true => simp [hcounts, counted, List.countP_append, BitVec.ofNat_add]
      | false => simp [hcounts, counted, List.countP_append]
  | _ => exact counted

end Steps

/-- What the application receives, with `seen` as what has come in. -/
structure Receives (s : State μ) (seen : List (Sample μ)) : Prop where
  /-- It takes what comes in, in that order, -/
  inOrder : s.taken ++ s.history = seen
  /-- counts what is valid and alive of it, modulo the 16 bits of `samples_received_`, -/
  counted : s.samplesReceived = BitVec.ofNat 16 (s.taken.countP counts)
  /-- and once `stop_` is set takes at most one more. -/
  stopped : s.stop = true → ∀ t, Runs.Reachable step s t → t.taken.length ≤ s.taken.length + 1

/-- Whenever samples come in, and whenever `stop()` is called, given a reader that keeps all
and gives it out in order, and calls of the listener that do not overlap. -/
theorem samples_are_counted {s : State μ} {seen : List (Sample μ)}
    (h : Runs.Reachable (observe step inserts) (init μ, []) (s, seen)) : Receives s seen := by
  refine ⟨?_, ?_, fun hstopped t hlater => ?_⟩
  · exact h.keeps (I := fun u => u.1.taken ++ u.1.history = u.2) rfl fun u e v hu hstep => by
      obtain ⟨hmove, hseen⟩ := observe_eq_some.mp hstep
      rw [taken_step hmove, hu, hseen]
  · exact h.unobserved.keeps
      (I := fun u => u.samplesReceived = BitVec.ofNat 16 (u.taken.countP counts)) rfl
      fun u e v hu hstep => counted_step hstep hu
  · have hbound : t.stop = true ∧
        t.taken.length + decided t ≤ s.taken.length + decided s :=
      hlater.keeps (I := fun u => u.stop = true ∧
          u.taken.length + decided u ≤ s.taken.length + decided s) ⟨hstopped, le_rfl⟩
        fun u e v hu hstep =>
          ⟨stop_kept hu.1 hstep, (decided_step hu.1 hstep).trans hu.2⟩
    have hone : decided s ≤ 1 := by
      unfold decided
      split <;> omega
    omega

/-- One valid sample and one that ends its instance are taken; the third comes too late. -/
theorem samples_are_counted_stopped : ∃ s : State Nat, s.samplesReceived = 1 ∧
    Receives s [⟨7, .alive, true⟩, ⟨0, .notAliveDisposed, false⟩, ⟨8, .alive, true⟩] := by
  obtain ⟨s, hrun, hreceived⟩ : ∃ s : State Nat,
      run (observe step inserts) (init Nat, [])
        [.advance, .insert ⟨7, .alive, true⟩, .call, .listener, .advance, .listener, .advance,
          .insert ⟨0, .notAliveDisposed, false⟩, .advance, .listener, .stopStore,
          .insert ⟨8, .alive, true⟩, .listener, .stopNotify, .listener, .advance, .advance,
          .advance] =
        some (s, [⟨7, .alive, true⟩, ⟨0, .notAliveDisposed, false⟩, ⟨8, .alive, true⟩]) ∧
        s.samplesReceived = 1 := ⟨_, rfl, rfl⟩
  exact ⟨s, hreceived, samples_are_counted (reachable_of_run hrun)⟩

/-- Asleep in the wait, which has no deadline. -/
def RunPc.dozes : RunPc → Bool
  | .waiting pc => pc.asleep
  | _ => false

def RunPc.place : RunPc → Place Unit RunPc
  | .waiting pc => .within () pc
  | pc => .beyond pc

def stepsElsewhere : RunPc → Nat
  | .outside => 4
  | .waiting _ | .returned => 0

def plan : Plan Unit RunPc where
  deadline := fun _ => false
  after := fun _ => 1
  elsewhere := stepsElsewhere

def wakes : Event μ → Bool
  | .spurious | .stopNotify => true
  | _ => false

section Stop
variable {s t : State μ} {e : Event μ}

/-- `stop_` is set, and the thread in `run()` will see it. -/
abbrev Stopping (s : State μ) : Prop :=
  CondWait.Stopping plan (fun s : State μ => s.run.place) State.stop (fun _ => True) s

theorem dozes_place (pc : RunPc) : plan.dozes pc.place = pc.dozes := by
  cases pc with
  | waiting pc => simp [RunPc.place, RunPc.dozes, Plan.dozes, plan]
  | _ => rfl

theorem misses_place {pc : RunPc} : plan.misses pc.place = true ↔ pc = .waiting .blocking := by
  cases pc with
  | waiting pc => cases pc <;> simp [RunPc.place, Plan.misses, plan]
  | _ => simp [RunPc.place, Plan.misses]

theorem place_notify (s : State μ) : (notify s).run.place = s.run.place.notified := by
  unfold notify
  split
  · next pc here =>
      rw [here]
      rfl
  · next hother =>
      cases hrun : s.run with
      | waiting pc => exact absurd hrun (hother pc)
      | _ => rfl

theorem advance_place (hstep : step s .advance = some t) :
    Own plan s.stop s.run.place t.run.place := by
  cases moves hstep with
  | entered here =>
      rw [here]
      exact .onward _ _ rfl rfl fun _ => Nat.lt_succ_self 3
  | ended here =>
      rw [here]
      exact .onward _ _ rfl rfl fun _ => Nat.one_pos
  | waited pc next here move =>
      rw [here]
      exact .waited () pc next _ _ id move

theorem others_place (other : e ≠ .advance) (hstep : step s e = some t) :
    t.run.place = s.run.place ∨ wakes e = true ∧ t.run.place = s.run.place.notified := by
  cases moves hstep with
  | entered | ended | waited => exact absurd rfl other
  | woken => exact .inr ⟨rfl, place_notify s⟩
  | stopNotified => exact .inr ⟨rfl, place_notify { s with stopping := s.stopping - 1 }⟩
  | _ => exact .inl rfl

theorem fits : Fits plan step (fun s : State μ => s.run.place) State.stop (fun _ e => wakes e)
    (fun e => e = .advance) (fun _ => True) where
  keep := fun _ _ _ _ _ => trivial
  set := fun _ _ _ stopped hstep => stop_kept stopped hstep
  mine := by
    rintro s e t rfl hstep
    exact advance_place hstep
  others := fun _ _ _ other hstep => others_place other hstep

theorem advance_enabled (h : Stopping s) (running : s.run ≠ .returned) :
    Enabled step (fun e => e = .advance) s := by
  cases here : s.run with
  | outside => exact ⟨.advance, _, rfl, by simp only [step, advance, here]; rfl⟩
  | returned => exact absurd here running
  | waiting pc =>
      cases pc with
      | blocked =>
          have hawake := h.awake
          rw [here] at hawake
          cases hawake
      | _ => exact ⟨.advance, _, rfl, by simp only [step, advance, here]; rfl⟩

theorem stopping_returns {x : Execution (step (μ := μ))} (fair : x.Fair fun e => e = .advance) :
    x.LeadsTo Stopping fun s => s.run = .returned :=
  (fits.descends _).eventually_of_fair fair fun _ h running => advance_enabled h running

theorem stopped_of_stopping (h : Reachable s) : 0 < s.stopping → s.stop = true := by
  refine h.keeps (I := fun s => 0 < s.stopping → s.stop = true) (fun h => by cases h) ?_
  intro s e t hs hstep
  cases moves hstep with
  | woken => simpa [notify_frame] using hs
  | stopStored => exact fun _ => rfl
  | stopNotified owed => exact fun _ => (notify_frame _).2.2.2.2.1.trans (hs owed)
  | _ => exact hs

end Stop

/-- After `stop()` has notified, `run()` returns, unless it was about to block. Then it
sleeps until somebody wakes it, and there is nobody who would but another `stop()`. -/
theorem stop_ends_wait {x : Execution (step (μ := μ))} (start : Reachable (x.state 0))
    (fair : x.Fair fun e => e = .advance) {k : Nat} (notified : x.event k = some .stopNotify) :
    ((x.state k).run ≠ .waiting .blocking → ∃ j, k < j ∧ (x.state j).run = .returned) ∧
    ((x.state k).run = .waiting .blocking →
      (∀ j e, k < j → x.event j = some e → wakes e = false) →
        ∀ j, k < j → (x.state j).run.dozes = true) := by
  have hreach : Reachable (x.state k) := start.trans (x.reachable (Nat.zero_le k))
  have hnext := x.next k
  rw [notified] at hnext
  obtain ⟨howed, heq⟩ := Option.ite_none_right_eq_some.mp hnext
  have hstop := stopped_of_stopping hreach howed
  have hplace : (x.state (k + 1)).run.place = (x.state k).run.place.notified := by
    rw [← Option.some.inj heq]
    exact place_notify { x.state k with stopping := (x.state k).stopping - 1 }
  obtain ⟨hheard, hmissed⟩ :=
    fits.notified (stopping_returns fair) notified trivial hstop hplace
  simp only [dozes_place] at hmissed
  refine ⟨fun hearly => hheard ?_, fun hlate => hmissed (misses_place.mpr hlate)⟩
  rw [Bool.eq_false_iff, Ne, misses_place]
  exact hearly

/-- `stop()` wakes the thread that is blocked in `run()`. -/
theorem stop_ends_wait_blocked : ∃ x : Execution (step (μ := Nat)),
    x.event 5 = some .stopNotify ∧ (x.state 5).run = .waiting .blocked ∧
      ∃ j, 5 < j ∧ (x.state j).run = .returned := by
  obtain ⟨s, hrun, hreturned⟩ : ∃ s : State Nat,
      run step (init Nat) [.advance, .advance, .advance, .advance, .stopStore, .stopNotify,
        .advance, .advance, .advance] = some s ∧ s.run = .returned := ⟨_, rfl, rfl⟩
  have hfair : (Execution.ofRun hrun).Fair fun e => e = .advance := by
    refine (Execution.ofRun_stronglyFair hrun ?_).fair
    rintro ⟨e, t, rfl, hstep⟩
    simp [step, advance, hreturned] at hstep
  refine ⟨Execution.ofRun hrun, rfl, rfl, ?_⟩
  refine (stop_ends_wait (x := Execution.ofRun hrun) (k := 5) ?_ hfair rfl).1 ?_
  · rw [Execution.ofRun_start hrun]
  · intro h
    cases h

end TinyMiddleware.SubscriberApp
