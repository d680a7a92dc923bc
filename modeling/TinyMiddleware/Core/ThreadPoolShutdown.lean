import TinyMiddleware.Core.ThreadPoolControl
import TinyMiddleware.Lib.Fairness
import Mathlib.Data.Prod.Lex
import Mathlib.Order.WellFounded

/-! `~ThreadPool` cannot hang. Each pass of a worker through its loop takes a task
or leaves, and after `stop_` nothing is added, so the tasks still to be started
come first in the rank and the way of each thread to its next exit second. -/
namespace TinyMiddleware.Core.ThreadPool

open Runs Family Fairness

variable {n : Nat} {α : Type}

/-- Steps of a worker in its own code. A spurious wake-up is not one of them. -/
def Event.isWorker : Event n α → Bool
  | .lock _ | .test _ | .block _ | .invoke _ _ | .call _ | .callNotify _ _ | .finish _ => true
  | _ => false

/-- Steps of the thread that destroys the pool, once `stop_` is set. -/
def Event.isDtor : Event n α → Bool
  | .notifyAll | .join => true
  | _ => false

def Pc.isPopped : Pc α → Bool
  | .popped _ _ => true
  | _ => false

/-- How far a worker is from popping its next task or leaving. A task counts the
`enqueue` calls it still has to make, which after `stop_` do nothing. -/
def Pc.work : Pc α → Nat
  | .exited => 0
  | .popped _ _ => 1
  | .locked => 2
  | .start | .awake => 3
  | .blocked | .blocking => 4
  | .running _ _ calls => 4 + 2 * calls.length
  | .notifying _ _ calls => 5 + 2 * calls.length

def State.waiting (s : State n α) : Nat :=
  s.tasks.length + count Pc.isPopped s.workers

def State.work (s : State n α) : Nat :=
  total Pc.work s.workers

def workerRank (s : State n α) : Nat ×ₗ Nat :=
  toLex (s.waiting, s.work)

def State.dtorSteps (s : State n α) : Nat :=
  match s.dtor with
  | .notCalled => n + 3
  | .stopSet => n + 2
  | .joining i => n + 1 - i
  | .returned => 0

def shutdownRank (s : State n α) : Nat ×ₗ Nat :=
  toLex (s.waiting, s.work + s.dtorSteps)

structure Stopping (s : State n α) : Prop where
  control : Control s
  stop : s.stop = true

/-- A step lowers `workerRank`, or leaves the first part and does not raise the second. -/
def Lowers (s t : State n α) : Prop :=
  t.waiting < s.waiting ∨ t.waiting = s.waiting ∧ t.work < s.work

theorem workerRank_lt {s t : State n α} : workerRank t < workerRank s ↔ Lowers s t := by
  unfold workerRank Lowers
  rw [Prod.Lex.toLex_lt_toLex]

private theorem lowers_setPc {s : State n α} {w : Fin n} {old pc : Pc α}
    (here : s.workers w = old) (hpopped : pc.isPopped = old.isPopped)
    (hwork : pc.work < old.work) : Lowers s (s.setPc w pc) := by
  have hcount := count_update Pc.isPopped s.workers w pc
  have htotal := total_update Pc.work s.workers w pc
  rw [here] at hcount htotal
  rw [hpopped] at hcount
  unfold Lowers State.waiting State.work State.setPc
  dsimp only
  omega

theorem worker_lowers {s t : State n α} {e : Event n α} (hs : Stopping s)
    (hworker : e.isWorker = true) (h : Moves s e t) : Lowers s t := by
  cases h with
  | enqueueDropped | enqueued | notified | notifiedNobody | woken | stopSet | notifiedAll |
      joined | destroyed => cases hworker
  | locked w outside =>
      obtain here | here := outside <;>
        exact lowers_setPc (s := s) here rfl (by simp [Pc.work])
  | left w here => exact lowers_setPc (s := s) here rfl (by simp [Pc.work])
  | popped w here task rest front =>
      -- the task moves from the queue to the worker
      have hcount := count_update Pc.isPopped s.workers w (.popped s.dequeued.length task)
      have htotal := total_update Pc.work s.workers w (.popped s.dequeued.length task)
      rw [here] at hcount htotal
      simp only [Pc.isPopped, Pc.work, if_true, if_false, Bool.false_eq_true] at hcount htotal
      unfold Lowers State.waiting State.work State.pop
      simp only [front, List.length_cons]
      omega
  | idle _ _ accepting => simp [hs.stop] at accepting
  | blocked w here =>
      have hopen := (hs.control.blocking w here).2
      rw [hs.stop] at hopen
      cases hopen
  | invoked w calls k task here =>
      -- however many calls the task is going to make, there is one task less to start
      have hcount := count_update Pc.isPopped s.workers w (.running k task calls)
      rw [here] at hcount
      simp only [Pc.isPopped, if_true, if_false, Bool.false_eq_true] at hcount
      left
      unfold State.waiting State.setPc
      dsimp only
      omega
  | callDropped w k task new calls here =>
      exact lowers_setPc here rfl (by simp [Pc.work])
  | called _ _ _ _ _ _ _ accepting => simp [hs.stop] at accepting
  | callNotified w v k task calls here other waits =>
      have hw : Lowers s (s.setPc w (.running k task calls)) :=
        lowers_setPc here rfl (by simp [Pc.work])
      have hblocked : (s.setPc w (.running k task calls)).workers v = .blocked := by
        simp [other, waits]
      have hv : Lowers (s.setPc w (.running k task calls))
          ((s.setPc w (.running k task calls)).setPc v .awake) :=
        lowers_setPc hblocked rfl (by simp [Pc.work])
      unfold Lowers at *
      omega
  | callNotifiedNobody w k task calls here =>
      exact lowers_setPc here rfl (by simp [Pc.work])
  | finished w k task here =>
      exact lowers_setPc (s := s) here rfl (by simp [Pc.work])

def Keeps (s t : State n α) : Prop :=
  t.waiting = s.waiting ∧ t.work ≤ s.work

private theorem keeps_wake {s : State n α} {v : Fin n} (waits : s.workers v = .blocked) :
    Keeps s (s.setPc v .awake) := by
  have hcount := count_update Pc.isPopped s.workers v .awake
  have htotal := total_update Pc.work s.workers v .awake
  rw [waits] at hcount htotal
  simp only [Pc.isPopped, Pc.work, if_false, Bool.false_eq_true] at hcount htotal
  unfold Keeps State.waiting State.work State.setPc
  dsimp only
  omega

private theorem keeps_notifyAll (s : State n α) : Keeps s s.notifyAll := by
  constructor
  · have hsame : count Pc.isPopped s.notifyAll.workers = count Pc.isPopped s.workers := by
      unfold count total
      apply Finset.sum_congr rfl
      intro w _
      rw [workers_notifyAll]
      cases s.workers w <;> rfl
    unfold State.waiting
    rw [hsame]
    rfl
  · apply total_mono
    intro w
    rw [workers_notifyAll]
    cases s.workers w <;> simp [Pc.wake, Pc.work]

theorem others_keep {s t : State n α} {e : Event n α} (hs : Stopping s)
    (hother : e.isWorker = false) (h : Moves s e t) : Keeps s t := by
  cases h with
  | locked | left | popped | idle | blocked | invoked | callDropped | called | callNotified |
      callNotifiedNobody | finished => cases hother
  | enqueued _ _ accepting => simp [hs.stop] at accepting
  | notified v _ waits => exact keeps_wake (s := s) waits
  | woken w here => exact keeps_wake here
  | notifiedAll => exact keeps_notifyAll s
  | enqueueDropped | notifiedNobody | stopSet | joined | destroyed => exact ⟨rfl, le_rfl⟩

theorem Stopping.step {s t : State n α} {e : Event n α} (hs : Stopping s) (h : Moves s e t) :
    Stopping t := by
  have hstop : t.stop = true := by
    cases h with
    | stopSet => rfl
    | _ => exact hs.stop
  exact ⟨hs.control.step h, hstop⟩

theorem tasks_length_le {s t : State n α} {e : Event n α} (hstop : s.stop = true)
    (h : Moves s e t) : t.tasks.length ≤ s.tasks.length := by
  cases h with
  | enqueued _ _ accepting => simp [hstop] at accepting
  | called _ _ _ _ _ _ _ accepting => simp [hstop] at accepting
  | popped w here task rest front =>
      rw [front]
      exact Nat.le_succ _
  | _ => exact le_rfl

/-- The test of the predicate never gets stuck: `front()` is not called on an empty queue. -/
theorem test_isSome (s : State n α) (w : Fin n) : ∃ t, s.test w = some t := by
  unfold State.test State.waitPredicate
  cases s.stop <;> cases s.tasks <;> simp

/-- Once the broadcast is out, a worker that has not left can be moved on, or
another one can that has the mutex. -/
theorem worker_enabled {s : State n α} (hs : Stopping s) (hbroadcast : s.dtor.broadcast = true)
    (hworker : ∃ w, s.workers w ≠ .exited) :
    ∃ e t, Event.isWorker e = true ∧ step s e = some t := by
  obtain ⟨w, hw⟩ := hworker
  have hnobody := hs.control.awakened hbroadcast
  cases hmutex : s.queueMutex with
  | some v =>
      have hholds := (hs.control.mutex v).mp hmutex
      have hlocked : s.workers v = .locked := by
        cases hv : s.workers v with
        | locked => rfl
        | blocking =>
            have hopen := (hs.control.blocking v hv).2
            rw [hs.stop] at hopen
            cases hopen
        | _ => rw [hv] at hholds; cases hholds
      obtain ⟨t, ht⟩ := test_isSome s v
      exact ⟨.test v, t, rfl, by simp only [step, hlocked, ht]⟩
  | none =>
      have hfree := hs.control.not_holding hmutex w
      cases hpc : s.workers w with
      | start => exact ⟨.lock w, _, rfl, by simp only [step, hpc, hmutex]; rfl⟩
      | awake => exact ⟨.lock w, _, rfl, by simp only [step, hpc, hmutex]; rfl⟩
      | locked => rw [hpc] at hfree; cases hfree
      | blocking => rw [hpc] at hfree; cases hfree
      | blocked => exact absurd hpc (hnobody w)
      | popped k task => exact ⟨.invoke w [], _, rfl, by simp only [step, hpc]; rfl⟩
      | running k task calls =>
          cases calls with
          | nil => exact ⟨.finish w, _, rfl, by simp only [step, hpc]; rfl⟩
          | cons new calls =>
              exact ⟨.call w, _, rfl, by simp only [step, hpc, hmutex, hs.stop]; rfl⟩
      | notifying k task calls =>
          refine ⟨.callNotify w none, s.setPc w (.running k task calls), rfl, ?_⟩
          simp only [step, hpc, State.notifyOne]
          apply if_pos
          intro v
          rw [workers_setPc]
          split
          · rfl
          · rw [Bool.eq_false_iff]
            exact fun hblocked => hnobody v ((isBlocked_iff _).mp hblocked)
      | exited => exact absurd hpc hw

theorem dtor_lowers {s t : State n α} {e : Event n α} (hs : Stopping s)
    (hdtor : e.isDtor = true) (h : Moves s e t) : t.dtorSteps < s.dtorSteps := by
  cases h with
  | notifiedAll after => simp only [State.dtorSteps, after]; omega
  | joined i h here => simp only [State.dtorSteps, here]; omega
  | destroyed i h here =>
      have hle := hs.control.inRange i here
      simp only [State.dtorSteps, here]
      omega
  | _ => cases hdtor

theorem dtorSteps_eq {s t : State n α} {e : Event n α} (hs : Stopping s)
    (hdtor : e.isDtor = false) (h : Moves s e t) : t.dtorSteps = s.dtorSteps := by
  cases h with
  | stopSet first =>
      have hcalled := hs.control.stopping.mp hs.stop
      exact absurd first hcalled
  | notifiedAll | joined | destroyed => cases hdtor
  | _ => rfl

theorem dtor_enabled {s : State n α} (hs : Stopping s) (hopen : s.dtor ≠ .returned)
    (hall : s.dtor.broadcast = true → ∀ w, s.workers w = .exited) :
    ∃ e t, Event.isDtor e = true ∧ step s e = some t := by
  cases hdtor : s.dtor with
  | notCalled => exact absurd hdtor (hs.control.stopping.mp hs.stop)
  | stopSet => exact ⟨.notifyAll, _, rfl, by simp only [step, hdtor]; rfl⟩
  | joining i =>
      by_cases hi : i < n
      · have hexited := hall (by rw [hdtor]; rfl) ⟨i, hi⟩
        exact ⟨.join, _, rfl, by simp only [step, hdtor, dif_pos hi, hexited]; rfl⟩
      · exact ⟨.join, _, rfl, by simp only [step, hdtor, dif_neg hi]; rfl⟩
  | returned => exact absurd hdtor hopen

def Event.isOwn (e : Event n α) : Prop :=
  e.isWorker = true ∨ e.isDtor = true

theorem shutdown_progress : Progress (step : State n α → _) Event.isOwn Stopping
    (fun s => s.dtor = .returned) shutdownRank where
  keep := fun _ _ _ hs hstep => hs.step (moves hstep)
  enabled := by
    intro s hs hopen
    by_cases hworker : s.dtor.broadcast = true ∧ ∃ w, s.workers w ≠ .exited
    · obtain ⟨e, t, he, hstep⟩ := worker_enabled hs hworker.1 hworker.2
      exact ⟨e, t, Or.inl he, hstep⟩
    · obtain ⟨e, t, he, hstep⟩ := dtor_enabled hs hopen (by
        intro hbroadcast w
        by_contra hw
        exact hworker ⟨hbroadcast, w, hw⟩)
      exact ⟨e, t, Or.inr he, hstep⟩
  down := by
    intro s e t hs hown hstep
    have hmove := moves hstep
    unfold shutdownRank
    rw [Prod.Lex.toLex_lt_toLex]
    cases hworker : e.isWorker with
    | true =>
        have hsame := dtorSteps_eq hs (by cases e <;> simp_all [Event.isWorker, Event.isDtor]) hmove
        have hlower := worker_lowers hs hworker hmove
        unfold Lowers at hlower
        dsimp only
        omega
    | false =>
        have hdtor := dtor_lowers hs (by simpa [Event.isOwn, hworker] using hown) hmove
        obtain ⟨hwaiting, hwork⟩ := others_keep hs hworker hmove
        dsimp only
        omega
  others := by
    intro s e t hs hother hstep
    have hmove := moves hstep
    simp only [Event.isOwn, not_or, Bool.not_eq_true] at hother
    obtain ⟨hwaiting, hwork⟩ := others_keep hs hother.1 hmove
    have hsame := dtorSteps_eq hs hother.2 hmove
    unfold shutdownRank
    rw [Prod.Lex.toLex_le_toLex]
    dsimp only
    omega

theorem stopping {s : State n α} (h : Reachable s) (hstop : s.stop = true) : Stopping s :=
  ⟨control h, hstop⟩

/-- What holds from the moment `stop_` is set, in every state and under every
schedule. The tasks are assumed to return: a task makes finitely many calls. -/
structure ShutdownCompletes (s : State n α) : Prop where
  /-- After the broadcast nobody is in the wait set any more. -/
  noWait : s.dtor.broadcast = true → ∀ w, s.workers w ≠ .blocked
  /-- The queue never grows again. -/
  shrinks : ∀ t, Runs.Reachable step s t → t.tasks.length ≤ s.tasks.length
  /-- Until all workers have left, one of them can take a step. -/
  enabled : s.dtor.broadcast = true → (∃ w, s.workers w ≠ .exited) →
    ∃ e t, Event.isWorker e = true ∧ step s e = some t
  /-- That step lowers a measure over the queue and the workers' positions, -/
  lowers : ∀ e t, Event.isWorker e = true → step s e = some t → workerRank t < workerRank s
  /-- which no other step raises. -/
  keeps : ∀ e t, Event.isWorker e = false → step s e = some t → workerRank t ≤ workerRank s
  /-- So every join completes unless the scheduler neglects these threads for ever, -/
  finishes : ∀ x : Execution (step : State n α → Event n α → Option (State n α)),
    x.state 0 = s → x.Fair Event.isOwn →
      ∃ j, (x.state j).dtor = .returned ∧ ∀ w, (x.state j).workers w = .exited
  /-- and there is a schedule that completes them. -/
  canFinish : ∃ t, Runs.Reachable step s t ∧ t.dtor = .returned ∧ ∀ w, t.workers w = .exited

theorem shutdown_completes {s : State n α} (h : Reachable s) (hstop : s.stop = true) :
    ShutdownCompletes s := by
  have hs := stopping h hstop
  constructor
  · exact hs.control.awakened
  · intro t hrun
    have both : Stopping t ∧ t.tasks.length ≤ s.tasks.length :=
      hrun.keeps (I := fun t => Stopping t ∧ t.tasks.length ≤ s.tasks.length) ⟨hs, le_rfl⟩
        fun u _ v ⟨hu, hle⟩ hstep =>
          ⟨hu.step (moves hstep), (tasks_length_le hu.stop (moves hstep)).trans hle⟩
    exact both.2
  · exact worker_enabled hs
  · intro e t hworker hstep
    exact workerRank_lt.mpr (worker_lowers hs hworker (moves hstep))
  · intro e t hother hstep
    obtain ⟨hwaiting, hwork⟩ := others_keep hs hother (moves hstep)
    unfold workerRank
    rw [Prod.Lex.toLex_le_toLex]
    exact Or.inr ⟨hwaiting, hwork⟩
  · intro x hstart fair
    rw [← hstart] at hs
    obtain ⟨j, hj, hret⟩ := shutdown_progress.eventually x fair hs
    have hcontrol := (x.keeps shutdown_progress.keep hs hj).control
    exact ⟨j, hret, hcontrol.allJoined hret⟩
  · obtain ⟨t, hrun, ht, hret⟩ := shutdown_progress.reaches hs
    exact ⟨t, hrun, hret, ht.control.allJoined hret⟩

/-- `stop_` set with one worker asleep and the other in a task that still has to
call `enqueue`, a third task being queued. -/
theorem shutdown_completes_asleep :
    ∃ s : State 2 Nat, s.workers 0 = .blocked ∧ s.workers 1 = .running 0 7 [9] ∧ s.tasks = [8] ∧
      ShutdownCompletes s := by
  have hrun : run step (init 2 Nat)
      [.lock 0, .test 0, .block 0, .enqueue 7, .lock 1, .test 1, .enqueue 8, .invoke 1 [9],
        .setStop] = some _ := rfl
  exact ⟨_, rfl, rfl, rfl, shutdown_completes (reachable_of_run hrun) rfl⟩

end TinyMiddleware.Core.ThreadPool
