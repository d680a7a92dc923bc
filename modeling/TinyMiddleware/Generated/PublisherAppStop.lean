import TinyMiddleware.Generated.PublisherApp
import TinyMiddleware.Lib.StopWait

/-! `stop()` sets `stop_` without the mutex. Its notification ends `run()`, unless it comes
between the failed test in `publish()` and the moment at which that wait blocks. -/
namespace TinyMiddleware.PublisherApp

open Runs Fairness CondWait

variable {m : Nat} {s t : State m}

/-- Asleep in the wait without a deadline. -/
def RunPc.dozes : RunPc → Bool
  | .waiting .discovery pc => pc.asleep
  | _ => false

def RunPc.place : RunPc → Place Wait RunPc
  | .waiting wait pc => .within wait pc
  | pc => .beyond pc

def stepsAfter : Wait → Nat
  | .discovery => 10
  | .period => 2

def stepsElsewhere : RunPc → Nat
  | .returned => 0
  | .testing => 1
  | .outside => 2
  | .counting => 7
  | .leaving _ => 8
  | .writing => 9
  | .waiting _ _ => 0

/-- Only the wait for the period has a deadline. -/
def plan : Plan Wait RunPc where
  deadline := fun wait => decide (wait = .period)
  after := stepsAfter
  elsewhere := stepsElsewhere

/-- An event that notifies `cv_`, or after which a waiting thread is awake anyway. -/
def wakes (s : State m) : Event m → Bool
  | .spurious | .stopNotify => true
  | .listener l => decide (s.listeners l = .notifying)
  | _ => false

/-- Everybody gets a turn, and a deadline passes in the end. -/
structure Scheduled (x : Execution (step (m := m))) : Prop where
  run : x.StronglyFair fun e => ∃ ok, e = .advance ok
  deadline : x.StronglyFair fun e => e = .timeout
  listeners : ∀ l, x.StronglyFair fun e => e = .listener l

/-- The thread in `run()` and its deadline. -/
def own (e : Event m) : Prop :=
  (∃ ok, e = .advance ok) ∨ e = .timeout

/-- `stop_` is set, and the thread in `run()` will see it. -/
abbrev Stopping (s : State m) : Prop :=
  CondWait.Stopping plan (fun s : State m => s.run.place) State.stop Sound s

theorem dozes_place (pc : RunPc) : plan.dozes pc.place = pc.dozes := by
  cases pc with
  | waiting wait pc => cases wait <;> simp [RunPc.place, RunPc.dozes, Plan.dozes, plan]
  | _ => rfl

theorem misses_place {pc : RunPc} :
    plan.misses pc.place = true ↔ pc = .waiting .discovery .blocking := by
  cases pc with
  | waiting wait pc => cases wait <;> cases pc <;> simp [RunPc.place, Plan.misses, plan]
  | _ => simp [RunPc.place, Plan.misses]

theorem place_notify (s : State m) : (notify s).run.place = s.run.place.notified := by
  unfold notify
  split
  · next wait pc here =>
      rw [here]
      rfl
  · next hother =>
      cases hrun : s.run with
      | waiting wait pc => exact absurd hrun (hother wait pc)
      | _ => rfl

theorem predicate_of_stop (stopped : s.stop = true) (wait : Wait) : predicate s wait = true := by
  cases wait <;> simp [predicate, stopped]

theorem own_place {e : Event m} (mine : own e) (hstep : step s e = some t) :
    Own plan s.stop s.run.place t.run.place := by
  cases moves hstep with
  | waited ok wait pc next here move =>
      rw [here]
      exact .waited wait pc next _ _ (fun stopped => predicate_of_stop stopped wait) move
  | timedOut pc next here move =>
      rw [here]
      exact .timedOut Wait.period pc next rfl move
  | looped ok here running | decided ok here running =>
      rw [here]
      exact .onward _ _ rfl rfl fun stopped => absurd (stopped.symm.trans running) (by simp)
  | left ok ret here =>
      rw [here, run_goTo]
      cases ret <;> exact .onward _ _ rfl rfl fun _ => by decide
  | wrote ok here =>
      rw [here]
      exact .onward _ _ rfl rfl fun _ => Nat.lt_succ_self 8
  | entered ok here | ended ok here | gaveUp ok here | counted ok here | periodOver ok here =>
      rw [here, run_goTo]
      exact .onward _ _ rfl rfl fun _ => by decide
  | woken | called | ignored | locked | stored | notified | stopStored | stopNotified =>
      obtain ⟨ok, heq⟩ | heq := mine <;> cases heq

theorem others_place {e : Event m} (other : ¬ own e) (hstep : step s e = some t) :
    t.run.place = s.run.place ∨ wakes s e = true ∧ t.run.place = s.run.place.notified := by
  cases moves hstep with
  | woken => exact .inr ⟨rfl, place_notify s⟩
  | notified l here => exact .inr ⟨decide_eq_true here, place_notify s⟩
  | stopNotified => exact .inr ⟨rfl, place_notify { s with stopping := s.stopping - 1 }⟩
  | called | ignored | locked | stored | stopStored => exact .inl rfl
  | timedOut => exact absurd (.inr rfl) other
  | _ => exact absurd (.inl ⟨_, rfl⟩) other

theorem fits : Fits plan step (fun s : State m => s.run.place) State.stop wakes own Sound where
  keep := fun _ _ _ h hstep => h.step hstep
  set := fun _ _ _ stopped hstep => stop_kept stopped hstep
  mine := fun _ _ _ mine hstep => own_place mine hstep
  others := fun _ _ _ other hstep => others_place other hstep

/-- The thread in `run()` is before the mutex. -/
def wants : RunPc → Bool
  | .waiting _ .locking | .waiting _ (.waking _) => true
  | _ => false

/-- What is left of it when a DDS thread has the mutex. -/
structure Contended (l : Fin m) (pc : RunPc) (s : State m) : Prop where
  stopping : Stopping s
  here : s.run = pc
  holds : (s.listeners l).holds = true

theorem wants_notify (wanting : wants s.run = true) : notify s = s := by
  unfold notify
  split
  · next wait pc here =>
      rw [here] at wanting
      have hsame : pc.notified = pc := by
        cases pc with
        | locking | waking => rfl
        | _ => cases wanting
      rw [hsame, ← here]
      rfl
  · rfl

theorem advance_waiting {wait : Wait} {pc : CondWait.Pc} (here : s.run = .waiting wait pc)
    (inside : pc ≠ .passed) (ok : Bool) : advance s ok =
      (pc.advance s.owner.isNone (predicate s wait)).map (inWait s wait) := by
  unfold advance
  rw [here]
  cases pc with
  | passed => exact absurd rfl inside
  | _ => cases wait <;> rfl

theorem own_enabled (h : Stopping s) (running : s.run ≠ .returned)
    (free : wants s.run = true → s.owner = none) : Enabled step own s := by
  have goes : ∀ {wait pc next}, s.run = .waiting wait pc → pc ≠ .passed →
      pc.advance s.owner.isNone (predicate s wait) = some next → Enabled step own s := by
    intro wait pc next here inside move
    refine ⟨.advance true, inWait s wait next, .inl ⟨true, rfl⟩, ?_⟩
    simp only [step, advance_waiting here inside, move, Option.map_some]
  cases here : s.run with
  | outside | testing | writing | leaving | counting =>
      exact ⟨.advance true, _, .inl ⟨true, rfl⟩, by simp only [step, advance, here]; rfl⟩
  | returned => exact absurd here running
  | waiting wait pc =>
      cases pc with
      | passed =>
          cases wait <;>
            exact ⟨.advance true, _, .inl ⟨true, rfl⟩, by simp only [step, advance, here]; rfl⟩
      | locking | waking =>
          have hfree : s.owner.isNone = true := by
            rw [free (by rw [here]; rfl)]
            rfl
          exact goes here Pc.noConfusion (if_pos hfree)
      | checking | blocking => exact goes here Pc.noConfusion rfl
      | blocked =>
          cases wait with
          | discovery =>
              have hawake := h.awake
              rw [here] at hawake
              cases hawake
          | period =>
              exact ⟨.timeout, _, .inr rfl, by simp only [step, timeout, here]; rfl⟩

theorem Contended.owner {l : Fin m} {pc : RunPc} (h : Contended l pc s) :
    s.owner = some (.listener l) :=
  (h.stopping.inv.listener l).mp h.holds

theorem holds_setListener {l other : Fin m} {pc : ListenerPc} (hl : l ≠ other)
    (h : (s.listeners l).holds = true) : ((s.setListener other pc).listeners l).holds = true := by
  simpa [State.setListener, Function.update_of_ne hl] using h

theorem Contended.other {l other : Fin m} {pc : RunPc} (h : Contended l pc s)
    (idle : (s.listeners other).holds = false) : l ≠ other := by
  rintro rfl
  exact absurd (h.holds.symm.trans idle) (by simp)

theorem holds_of_wants {pc : RunPc} (h : wants pc = true) : pc.holds = false := by
  cases pc with
  | waiting wait pc =>
      cases pc with
      | locking | waking => rfl
      | _ => cases h
  | _ => cases h

/-- While a DDS thread has the mutex nothing changes for the thread in `run()`. -/
theorem contended_step {l : Fin m} {pc : RunPc} (wanting : wants pc = true) {e : Event m}
    (h : Contended l pc s) (hstep : step s e = some t) :
    (e ≠ .listener l ∧ Contended l pc t) ∨ Stopping t ∧ t.run = pc ∧ t.owner = none := by
  have hnext := fits.stopping_step h.stopping hstep
  have hwants : wants s.run = true := by rw [h.here, wanting]
  have htaken : s.owner ≠ none := by simp [h.owner]
  cases moves hstep with
  | entered ok here | ended ok here | looped ok here | gaveUp ok here | decided ok here
  | wrote ok here | left ok _ here | counted ok here | periodOver ok here =>
      rw [here] at hwants
      cases hwants
  | waited ok wait pc' next here move =>
      obtain hholds | hfree := mutex_of_advance move
      · rw [here] at hwants
        exact absurd (hholds.symm.trans (holds_of_wants hwants)) (by simp)
      · exact absurd (Option.isNone_iff_eq_none.mp hfree) htaken
  | timedOut pc' next here move =>
      rw [here] at hwants
      cases pc' with
      | blocked => cases hwants
      | _ => cases move
  | woken =>
      rw [wants_notify hwants]
      exact .inl ⟨by simp, h⟩
  | called other info idle =>
      have hl : l ≠ other := h.other (by rw [idle]; rfl)
      exact .inl ⟨by simp, hnext, h.here, holds_setListener hl h.holds⟩
  | ignored other info here =>
      have hl : l ≠ other := h.other (by rw [here]; rfl)
      exact .inl ⟨by simp [Ne.symm hl], hnext, h.here, holds_setListener hl h.holds⟩
  | locked other info here free => exact absurd free htaken
  | stored => exact .inr ⟨hnext, h.here, rfl⟩
  | notified other here =>
      have hl : l ≠ other := h.other (by rw [here]; rfl)
      rw [wants_notify hwants] at hnext ⊢
      exact .inl ⟨by simp [Ne.symm hl], hnext, h.here, holds_setListener hl h.holds⟩
  | stopStored => exact .inl ⟨by simp, hnext, h.here, h.holds⟩
  | stopNotified owed =>
      have hsame : notify { s with stopping := s.stopping - 1 } =
          { s with stopping := s.stopping - 1 } :=
        wants_notify (s := { s with stopping := s.stopping - 1 }) hwants
      rw [hsame] at hnext ⊢
      exact .inl ⟨by simp, hnext, h.here, h.holds⟩

theorem mutex_given_back {x : Execution (step (m := m))} (fair : Scheduled x) {l : Fin m}
    {pc : RunPc} (wanting : wants pc = true) :
    x.LeadsTo (Contended l pc) fun s => Stopping s ∧ s.run = pc ∧ s.owner = none := by
  have descends : Descends (step (m := m)) (fun e => e = .listener l) (Contended l pc)
      (fun s => Stopping s ∧ s.run = pc ∧ s.owner = none) fun _ => 0 := by
    refine ⟨fun s e t h _ hstep => ?_, ?_, fun _ _ _ _ _ _ _ => .inr le_rfl⟩
    · exact (contended_step wanting h hstep).imp_left And.right
    · rintro s e t h _ rfl hstep
      exact .inl ((contended_step wanting h hstep).resolve_left fun hother => hother.1 rfl)
  refine descends.eventually_of_fair (fair.listeners l).fair fun s h _ => ?_
  have hholds := h.holds
  cases hpc : s.listeners l with
  | storing info =>
      exact ⟨.listener l, _, rfl, by simp only [step, onPublicationMatched, hpc]; rfl⟩
  | idle | called | notifying =>
      rw [hpc] at hholds
      cases hholds

theorem stopping_returns {x : Execution (step (m := m))} (fair : Scheduled x) :
    x.LeadsTo Stopping fun s => s.run = .returned := by
  refine (fits.descends _).eventually_of_stronglyFair (fair.run.or fair.deadline) fun k hk => ?_
  obtain ⟨hstopping, hrunning⟩ := hk
  by_cases hready : wants (x.state k).run = true → (x.state k).owner = none
  · exact ⟨k, le_rfl, own_enabled hstopping hrunning hready⟩
  · push Not at hready
    obtain ⟨hwants, htaken⟩ := hready
    obtain ⟨o, howner⟩ := Option.ne_none_iff_exists'.mp htaken
    cases o with
    | run =>
        have hholds := hstopping.inv.run.mpr howner
        exact absurd (hholds.symm.trans (holds_of_wants hwants)) (by simp)
    | listener l =>
        obtain ⟨j, hkj, hthen, hrun, hfree⟩ := mutex_given_back fair hwants k
          ⟨hstopping, rfl, (hstopping.inv.listener l).mpr howner⟩
        exact ⟨j, hkj, own_enabled hthen (hrun ▸ hrunning) fun _ => hfree⟩

theorem notify_stop (s : State m) :
    (notify s).stop = s.stop ∧ (notify s).stopping = s.stopping := by
  unfold notify
  split <;> exact ⟨rfl, rfl⟩

/-- Who calls `stop()` stores first. -/
theorem stopped_of_stopping (h : Reachable s) : 0 < s.stopping → s.stop = true := by
  refine h.keeps (I := fun s => 0 < s.stopping → s.stop = true) (fun h => by cases h) ?_
  intro s e t hs hstep
  cases moves hstep with
  | woken =>
      obtain ⟨hstop, hstopping⟩ := notify_stop s
      rwa [hstop, hstopping]
  | notified l here =>
      obtain ⟨hstop, hstopping⟩ := notify_stop s
      change 0 < (notify s).stopping → (notify s).stop = true
      rwa [hstop, hstopping]
  | stopStored => exact fun _ => rfl
  | stopNotified owed =>
      intro _
      rw [(notify_stop _).1]
      exact hs owed
  | _ => exact hs

/-- After `stop()` has notified, `run()` returns, unless the notification came when the wait
in `publish()` was about to block. Then it does not return until somebody wakes it. -/
theorem stop_ends_run {x : Execution (step (m := m))} (start : Reachable (x.state 0))
    (fair : Scheduled x) {k : Nat} (notified : x.event k = some .stopNotify) :
    ((x.state k).run ≠ .waiting .discovery .blocking →
      ∃ j, k < j ∧ (x.state j).run = .returned) ∧
    ((x.state k).run = .waiting .discovery .blocking →
      (∀ j e, k < j → x.event j = some e → wakes (x.state j) e = false) →
        ∀ j, k < j → (x.state j).run.dozes = true) := by
  have hreach : Reachable (x.state k) := start.trans (x.reachable (Nat.zero_le k))
  have hnext := x.next k
  rw [notified] at hnext
  obtain ⟨howed, heq⟩ := Option.ite_none_right_eq_some.mp hnext
  have hstop := stopped_of_stopping hreach howed
  have hplace : (x.state (k + 1)).run.place = (x.state k).run.place.notified := by
    rw [← Option.some.inj heq]
    exact place_notify { x.state k with stopping := (x.state k).stopping - 1 }
  obtain ⟨hheard, hmissed⟩ :=
    fits.notified (stopping_returns fair) notified (sound hreach) hstop hplace
  simp only [dozes_place] at hmissed
  refine ⟨fun hearly => hheard ?_, fun hlate => hmissed (misses_place.mpr hlate)⟩
  rw [Bool.eq_false_iff, Ne, misses_place]
  exact hearly

/-- The lost notification: `stop()` is called when the predicate has just been tested. -/
theorem stop_ends_run_missed : ∃ x : Execution (step (m := 1)), x.event 5 = some .stopNotify ∧
    ∀ j, 5 < j → (x.state j).run.dozes = true := by
  obtain ⟨s, hrun, hblocked, hidle⟩ : ∃ s : State 1,
      run step (init 1) [.advance true, .advance true, .advance true, .advance true, .stopStore,
        .stopNotify, .advance true] = some s ∧ s.run = .waiting .discovery .blocked ∧
        s.listeners 0 = .idle := ⟨_, rfl, rfl, rfl⟩
  have hstart := Execution.ofRun_start hrun
  have hfair : Scheduled (Execution.ofRun hrun) := by
    refine ⟨Execution.ofRun_stronglyFair hrun ?_, Execution.ofRun_stronglyFair hrun ?_,
      fun l => Execution.ofRun_stronglyFair hrun ?_⟩
    · rintro ⟨e, t, ⟨ok, rfl⟩, hstep⟩
      simp [step, advance, hblocked, Pc.advance] at hstep
    · rintro ⟨e, t, rfl, hstep⟩
      simp [step, timeout, hblocked] at hstep
    · rintro ⟨e, t, rfl, hstep⟩
      obtain rfl : l = 0 := Subsingleton.elim _ _
      simp [step, onPublicationMatched, hidle] at hstep
  refine ⟨Execution.ofRun hrun, rfl, ?_⟩
  refine (stop_ends_run (x := Execution.ofRun hrun) (k := 5) ?_ hfair rfl).2 rfl ?_
  · rw [hstart]
  · intro j e hj hevent
    obtain rfl | hj : j = 6 ∨ 7 ≤ j := by omega
    · cases hevent
      rfl
    · have hnone : (Execution.ofRun hrun).event j = none := List.getElem?_eq_none_iff.mpr hj
      rw [hnone] at hevent
      cases hevent

end TinyMiddleware.PublisherApp
