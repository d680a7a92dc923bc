import TinyMiddleware.Core.ThreadPoolAccounting
import TinyMiddleware.Core.ThreadPoolShutdown
import TinyMiddleware.Core.ThreadPoolWakeup
import TinyMiddleware.Lib.LeadsTo
import Mathlib.Data.Fintype.Sum
import Mathlib.Tactic.DeriveFintype

/-! No accepted task starves, whatever else is enqueued meanwhile and whether or not the
pool is destroyed. The queue is served first come, first served, so a task waits for
those before it; then its worker has to be let go on, and that may mean the mutex. -/
namespace TinyMiddleware.Core.ThreadPool

open Runs Family Fairness

variable {n : Nat} {α : Type}

/-- Who serves the queue: the workers, the enqueuers whose `notify_one` would wake
somebody, and the thread that destroys the pool. -/
inductive Thread (n : Nat) where
  | worker (w : Fin n)
  | notifier
  | destructor
  deriving DecidableEq, Fintype

def Event.thread : Event n α → Option (Thread n)
  | .lock w | .test w | .block w | .invoke w _ | .call w | .callNotify w _ | .finish w =>
      some (.worker w)
  | .notify (some _) => some .notifier
  | .notifyAll | .join => some .destructor
  | .enqueue _ | .notify none | .spurious _ | .setStop => none

/-- The scheduler lets every thread go on that can again and again. -/
def Scheduled (x : Execution (step : State n α → Event n α → Option (State n α))) : Prop :=
  ∀ thread, x.StronglyFair fun e => e.thread = some thread

/-- All that is needed of it: each worker that can go on again and again does, and somebody
does when there is always somebody who can. -/
structure Attended (x : Execution (step : State n α → Event n α → Option (State n α))) : Prop where
  workers : ∀ w, x.StronglyFair fun e => e.thread = some (.worker w)
  served : x.Fair fun e => ∃ thread, e.thread = some thread

theorem Scheduled.attended {x : Execution (step : State n α → Event n α → Option (State n α))}
    (fair : Scheduled x) : Attended x where
  workers := fun w => fair (.worker w)
  served := (Execution.stronglyFair_of_threads fair).fair

theorem notifyOne_isSome (s : State n α) : ∃ woken t, s.notifyOne woken = some t := by
  by_cases hblocked : ∃ v, (s.workers v).isBlocked = true
  · obtain ⟨v, hv⟩ := hblocked
    exact ⟨some v, _, if_pos hv⟩
  · exact ⟨none, s, if_pos fun v => Bool.eq_false_iff.mpr fun hv => hblocked ⟨v, hv⟩⟩

/-- `notify_one` wakes nobody only when nobody sleeps. -/
theorem nobody_of_notify {s t : State n α} (h : step s (.notify none) = some t) (v : Fin n) :
    (s.workers v).isBlocked = false := by
  cases moves h with
  | notifiedNobody _ nobody => exact nobody v

/-- Whoever has the mutex can go on. -/
theorem holder_enabled {s : State n α} (hs : Control s) {v : Fin n}
    (held : s.queueMutex = some v) :
    Enabled step (fun e => e.thread = some (.worker v)) s := by
  have hholds := (hs.mutex v).mp held
  cases hv : s.workers v with
  | locked =>
      obtain ⟨t, ht⟩ := test_isSome s v
      exact ⟨.test v, t, rfl, by simp only [step, hv, ht]⟩
  | blocking => exact ⟨.block v, _, rfl, by simp only [step, hv]; rfl⟩
  | _ => rw [hv] at hholds; cases hholds

/-- With the mutex free, so can every worker that neither sleeps nor has left. -/
theorem worker_enabled_of_free {s : State n α} (hs : Control s) {w : Fin n}
    (free : s.queueMutex = none) (up : s.workers w ≠ .blocked) (here : s.workers w ≠ .exited) :
    Enabled step (fun e => e.thread = some (.worker w)) s := by
  have hfree := hs.not_holding free w
  cases hpc : s.workers w with
  | start => exact ⟨.lock w, _, rfl, by simp only [step, hpc, free]; rfl⟩
  | awake => exact ⟨.lock w, _, rfl, by simp only [step, hpc, free]; rfl⟩
  | locked => rw [hpc] at hfree; cases hfree
  | blocking => rw [hpc] at hfree; cases hfree
  | blocked => exact absurd hpc up
  | popped k task => exact ⟨.invoke w [], _, rfl, by simp only [step, hpc]; rfl⟩
  | running k task calls =>
      cases calls with
      | nil => exact ⟨.finish w, _, rfl, by simp only [step, hpc]; rfl⟩
      | cons new calls =>
          cases hstop : s.stop with
          | true => exact ⟨.call w, _, rfl, by simp only [step, hpc, free, hstop]; rfl⟩
          | false => exact ⟨.call w, _, rfl, by simp only [step, hpc, free, hstop]; rfl⟩
  | notifying k task calls =>
      obtain ⟨woken, t, ht⟩ := notifyOne_isSome (s.setPc w (.running k task calls))
      exact ⟨.callNotify w woken, t, rfl, by simp only [step, hpc, ht]⟩
  | exited => exact absurd hpc here

theorem some_worker_enabled {s : State n α} (hs : Control s) {w : Fin n}
    (up : s.workers w ≠ .blocked) (here : s.workers w ≠ .exited) :
    ∃ v, Enabled step (fun e => e.thread = some (.worker v)) s := by
  cases hmutex : s.queueMutex with
  | some v => exact ⟨v, holder_enabled hs hmutex⟩
  | none => exact ⟨w, worker_enabled_of_free hs hmutex up here⟩

/-- While a task is queued somebody can go on: before the stop because no notification
has been lost, after it because of the broadcast. -/
theorem server_enabled (positive : 0 < n) {s : State n α} (h : Reachable s)
    (queued : s.tasks ≠ []) :
    Enabled step (fun e : Event n α => ∃ thread, e.thread = some thread) s := by
  have hs := control h
  have hup : ∀ w, s.workers w ≠ .exited := fun w hw => queued (hs.exited w hw).2
  by_cases hawake : ∃ w, s.workers w ≠ .blocked
  · obtain ⟨w, hw⟩ := hawake
    obtain ⟨v, e, t, he, hstep⟩ := some_worker_enabled hs hw (hup w)
    exact ⟨e, t, ⟨_, he⟩, hstep⟩
  · have hblocked : ∀ w, s.workers w = .blocked :=
      fun w => by_contra fun hw => hawake ⟨w, hw⟩
    let w : Fin n := ⟨0, positive⟩
    cases hstop : s.stop with
    | false =>
        have hcovered := covered h hstop ⟨w, hblocked w⟩
        have hcredit : s.credit = s.owed := by
          have hnone : total Pc.credit s.workers = 0 :=
            Finset.sum_eq_zero fun v _ => by rw [hblocked v]; rfl
          unfold State.credit
          omega
        have hlen := List.length_pos_of_ne_nil queued
        have howed : 0 < s.owed := by omega
        refine ⟨.notify (some w), { s with owed := s.owed - 1 }.setPc w .awake, ⟨_, rfl⟩, ?_⟩
        simp only [step, howed, if_true, State.notifyOne, hblocked w]
        rfl
    | true =>
        have hdtor := hs.stopping.mp hstop
        cases hd : s.dtor with
        | notCalled => exact absurd hd hdtor
        | stopSet => exact ⟨.notifyAll, _, ⟨_, rfl⟩, by simp only [step, hd]; rfl⟩
        | joining i => exact absurd (hblocked w) (hs.awakened (by rw [hd]; rfl) w)
        | returned => exact absurd (hblocked w) (hs.awakened (by rw [hd]; rfl) w)

/-- The tasks up to ticket `k` that have not been begun, or whose worker could be ahead
of them, and then the way of each thread. -/
def servingRank (k : Nat) (s : State n α) : Nat ×ₗ Nat :=
  toLex (k + 1 - s.dequeued.length + count Pc.isPopped s.workers, s.work + s.dtorSteps)

private theorem serving_setPc (k : Nat) {s : State n α} {w : Fin n} {old pc : Pc α}
    (here : s.workers w = old) (hpopped : pc.isPopped = old.isPopped)
    (hwork : pc.work < old.work) : servingRank k (s.setPc w pc) < servingRank k s := by
  have hcount := count_update Pc.isPopped s.workers w pc
  have htotal := total_update Pc.work s.workers w pc
  rw [here] at hcount htotal
  rw [hpopped] at hcount
  unfold servingRank
  rw [Prod.Lex.toLex_lt_toLex]
  unfold State.work State.dtorSteps State.setPc
  dsimp only
  omega

private theorem serving_popped {k : Nat} {s : State n α} {w : Fin n} (here : s.workers w = .locked)
    (task : α) (rest : List α) (waits : s.dequeued.length ≤ k) :
    servingRank k (s.pop w task rest) < servingRank k s := by
  have hcount := count_update Pc.isPopped s.workers w (.popped s.dequeued.length task)
  have htotal := total_update Pc.work s.workers w (.popped s.dequeued.length task)
  rw [here] at hcount htotal
  simp only [Pc.isPopped, Pc.work, if_true, if_false, Bool.false_eq_true] at hcount htotal
  unfold servingRank
  rw [Prod.Lex.toLex_lt_toLex]
  simp only [State.work, State.dtorSteps, State.pop, List.length_append, List.length_singleton]
  omega

private theorem serving_invoked (k : Nat) {s : State n α} {w : Fin n} {ticket : Nat} {task : α}
    (here : s.workers w = .popped ticket task) (calls : List α) :
    servingRank k (s.setPc w (.running ticket task calls)) < servingRank k s := by
  have hcount := count_update Pc.isPopped s.workers w (.running ticket task calls)
  rw [here] at hcount
  simp only [Pc.isPopped, if_true, if_false, Bool.false_eq_true] at hcount
  unfold servingRank
  rw [Prod.Lex.toLex_lt_toLex]
  left
  simp only [State.setPc]
  omega

private theorem serving_notifyAll (k : Nat) {s : State n α} (after : s.dtor = .stopSet) :
    servingRank k { s.notifyAll with dtor := .joining 0 } < servingRank k s := by
  have hpopped : count Pc.isPopped s.notifyAll.workers = count Pc.isPopped s.workers := by
    unfold count total
    apply Finset.sum_congr rfl
    intro w _
    rw [workers_notifyAll]
    cases s.workers w <;> rfl
  have hwork : total Pc.work s.notifyAll.workers ≤ total Pc.work s.workers := by
    apply total_mono
    intro w
    rw [workers_notifyAll]
    cases s.workers w <;> simp [Pc.wake, Pc.work]
  unfold servingRank
  rw [Prod.Lex.toLex_lt_toLex]
  right
  simp only [State.work, State.dtorSteps, after]
  exact ⟨by rw [hpopped]; rfl, by omega⟩

private theorem serving_dtor (k : Nat) {s : State n α} {dtor : Dtor}
    (h : ({ s with dtor := dtor } : State n α).dtorSteps < s.dtorSteps) :
    servingRank k { s with dtor := dtor } < servingRank k s := by
  unfold servingRank
  rw [Prod.Lex.toLex_lt_toLex]
  exact Or.inr ⟨rfl, Nat.add_lt_add_left h _⟩

/-- While ticket `k` is queued, nobody goes to sleep and nobody leaves, so every step of
a thread that serves the queue counts. -/
theorem server_lowers {k : Nat} {s t : State n α} {e : Event n α} (hs : Control s)
    (queued : s.tasks ≠ []) (waits : s.dequeued.length ≤ k)
    (server : ∃ thread, e.thread = some thread) (h : Moves s e t) :
    servingRank k t < servingRank k s := by
  cases h with
  | enqueueDropped | enqueued | notifiedNobody | woken | stopSet =>
      obtain ⟨thread, hthread⟩ := server
      cases hthread
  | notified v owes asleep => exact serving_setPc k (s := s) asleep rfl (by simp [Pc.work])
  | locked w outside =>
      obtain here | here := outside <;>
        exact serving_setPc k (s := s) here rfl (by simp [Pc.work])
  | left w here stopped empty => exact absurd empty queued
  | popped w here task rest front => exact serving_popped here task rest waits
  | idle w here accepting empty => exact absurd empty queued
  | blocked w here => exact absurd (hs.blocking w here).1 queued
  | invoked w calls ticket task here => exact serving_invoked k (s := s) here calls
  | callDropped w ticket task new calls here =>
      exact serving_setPc k here rfl (by simp [Pc.work])
  | called w ticket task new calls here =>
      exact serving_setPc k (s := s) here rfl (by simp [Pc.work]; omega)
  | callNotified w v ticket task calls here other asleep =>
      have hw : servingRank k (s.setPc w (.running ticket task calls)) < servingRank k s :=
        serving_setPc k here rfl (by simp [Pc.work])
      have hv : (s.setPc w (.running ticket task calls)).workers v = .blocked := by
        simp [other, asleep]
      have hawake : servingRank k ((s.setPc w (.running ticket task calls)).setPc v .awake) <
          servingRank k (s.setPc w (.running ticket task calls)) :=
        serving_setPc k hv rfl (by simp [Pc.work])
      exact hawake.trans hw
  | callNotifiedNobody w ticket task calls here =>
      exact serving_setPc k here rfl (by simp [Pc.work])
  | finished w ticket task here => exact serving_setPc k (s := s) here rfl (by simp [Pc.work])
  | notifiedAll after => exact serving_notifyAll k after
  | joined i h here =>
      apply serving_dtor
      simp only [State.dtorSteps, here]
      omega
  | destroyed i h here =>
      have hle := hs.inRange i here
      apply serving_dtor
      simp only [State.dtorSteps, here]
      omega

theorem others_wait {k : Nat} {s t : State n α} {e : Event n α}
    (other : ¬ ∃ thread, e.thread = some thread) (h : Moves s e t) :
    servingRank k t ≤ servingRank k s := by
  cases h with
  | enqueueDropped | enqueued | notifiedNobody => exact le_rfl
  | woken w here =>
      have hawake : servingRank k (s.setPc w .awake) < servingRank k s :=
        serving_setPc k here rfl (by simp [Pc.work])
      exact hawake.le
  | stopSet first =>
      have hlower : servingRank k { s with dtor := .stopSet } < servingRank k s := by
        apply serving_dtor
        simp only [State.dtorSteps, first]
        omega
      exact hlower.le
  | _ => exact absurd ⟨_, rfl⟩ other

theorem accepted_le {s t : State n α} {e : Event n α} (h : Moves s e t) :
    s.accepted.length ≤ t.accepted.length := by
  cases h with
  | enqueued | called => simp [State.push, State.setPc]
  | _ => exact le_rfl

theorem returned_kept {i : Nat} {s t : State n α} {e : Event n α} (done : i ∈ s.returned)
    (h : Moves s e t) : i ∈ t.returned := by
  cases h with
  | finished => exact List.mem_append_left _ done
  | _ => exact done

theorem accepted_dequeued (positive : 0 < n)
    {x : Execution (step : State n α → Event n α → Option (State n α))} (fair : Attended x)
    (k : Nat) :
    x.LeadsTo (fun s => Reachable s ∧ k < s.accepted.length) fun s => k < s.dequeued.length := by
  have queued : ∀ s : State n α, Reachable s ∧ k < s.accepted.length →
      ¬ k < s.dequeued.length → s.tasks ≠ [] := by
    rintro s ⟨h, hk⟩ hwaits hempty
    have hqueue := (accounts h).queue
    rw [hempty, List.append_nil] at hqueue
    rw [hqueue] at hwaits
    exact hwaits hk
  have descends : Descends (step : State n α → Event n α → Option (State n α))
      (fun e => ∃ thread, e.thread = some thread)
      (fun s => Reachable s ∧ k < s.accepted.length) (fun s => k < s.dequeued.length)
      (servingRank k) := by
    refine ⟨?_, ?_, ?_⟩
    · rintro s e t ⟨h, hk⟩ _ hstep
      exact Or.inl ⟨h.step hstep, hk.trans_le (accepted_le (moves hstep))⟩
    · rintro s e t hs hopen hserver hstep
      exact Or.inr (server_lowers (control hs.1) (queued s hs hopen) (Nat.le_of_not_lt hopen)
        hserver (moves hstep))
    · intro s e t _ _ hother hstep
      exact Or.inr (others_wait hother (moves hstep))
  exact descends.eventually_of_fair fair.served fun s hs hopen =>
    server_enabled positive hs.1 (queued s hs hopen)

/-- How far a worker is from returning from the task it has popped. -/
def Pc.toReturn (pc : Pc α) : Nat ×ₗ Nat :=
  toLex (if pc.isPopped then 1 else 0, pc.work)

private theorem toReturn_lt {old pc : Pc α} (hpopped : pc.isPopped = old.isPopped)
    (hwork : pc.work < old.work) : pc.toReturn < old.toReturn := by
  unfold Pc.toReturn
  rw [Prod.Lex.toLex_lt_toLex, hpopped]
  exact Or.inr ⟨rfl, hwork⟩

/-- A step of the worker that holds ticket `k`: it comes closer to returning, or returns. -/
theorem holder_lowers {k : Nat} {w : Fin n} {s t : State n α} {e : Event n α}
    (held : (s.workers w).ticket = some k) (own : e.thread = some (.worker w))
    (h : Moves s e t) :
    k ∈ t.returned ∨
      ((t.workers w).ticket = some k ∧ (t.workers w).toReturn < (s.workers w).toReturn) := by
  cases h with
  | enqueueDropped | enqueued | notified | notifiedNobody | woken | stopSet | notifiedAll |
      joined | destroyed => cases own
  | locked v outside =>
      cases own
      obtain here | here := outside <;> rw [here] at held <;> cases held
  | left v here | popped v here | idle v here | blocked v here =>
      cases own
      rw [here] at held
      cases held
  | invoked v calls ticket task here =>
      cases own
      right
      rw [here] at held ⊢
      rw [workers_setPc, if_pos rfl]
      refine ⟨held, ?_⟩
      unfold Pc.toReturn
      rw [Prod.Lex.toLex_lt_toLex]
      exact Or.inl Nat.one_pos
  | callDropped v ticket task new calls here =>
      cases own
      right
      rw [here] at held ⊢
      rw [workers_setPc, if_pos rfl]
      exact ⟨held, toReturn_lt rfl (by simp [Pc.work])⟩
  | called v ticket task new calls here =>
      cases own
      right
      rw [here] at held ⊢
      rw [workers_setPc, if_pos rfl]
      exact ⟨held, toReturn_lt rfl (by simp [Pc.work]; omega)⟩
  | callNotified v other ticket task calls here hother =>
      cases own
      right
      rw [here] at held ⊢
      rw [workers_setPc, if_neg hother.symm, workers_setPc, if_pos rfl]
      exact ⟨held, toReturn_lt rfl (by simp [Pc.work])⟩
  | callNotifiedNobody v ticket task calls here =>
      cases own
      right
      rw [here] at held ⊢
      rw [workers_setPc, if_pos rfl]
      exact ⟨held, toReturn_lt rfl (by simp [Pc.work])⟩
  | finished v ticket task here =>
      cases own
      left
      rw [here] at held
      cases held
      exact List.mem_append_right _ (List.mem_singleton.mpr rfl)

/-- Nobody else's steps matter to a worker with a task. -/
theorem holder_kept {k : Nat} {w : Fin n} {s t : State n α} {e : Event n α}
    (held : (s.workers w).ticket = some k) (other : e.thread ≠ some (.worker w))
    (h : Moves s e t) : t.workers w = s.workers w := by
  have elsewhere : ∀ {v old pc}, s.workers v = old → old.ticket = none →
      (s.setPc v pc).workers w = s.workers w := by
    rintro v old pc here idle
    rw [workers_setPc, if_neg]
    rintro rfl
    rw [here, idle] at held
    cases held
  have ofOther : ∀ {v pc}, e.thread = some (.worker v) →
      (s.setPc v pc).workers w = s.workers w := by
    rintro v pc hv
    rw [workers_setPc, if_neg]
    rintro rfl
    exact other hv
  cases h with
  | enqueueDropped | enqueued | notifiedNobody | stopSet | joined | destroyed => rfl
  | notified v owes asleep => exact elsewhere asleep rfl
  | woken v here => exact elsewhere here rfl
  | locked | left | idle | blocked | invoked | callDropped | called | callNotifiedNobody |
      finished => exact ofOther rfl
  | popped v here task rest =>
      change (s.setPc v (.popped s.dequeued.length task)).workers w = s.workers w
      exact ofOther rfl
  | callNotified v asleep ticket task calls here hother waits =>
      rw [workers_setPc, if_neg]
      · exact ofOther rfl
      · rintro rfl
        rw [waits] at held
        cases held
  | notifiedAll =>
      rw [workers_notifyAll, wake_eq, if_neg]
      intro hblocked
      rw [isBlocked_iff] at hblocked
      rw [hblocked] at held
      cases held

def Pc.toRelease : Pc α → Nat
  | .locked => 1
  | _ => 0

/-- The mutex is handed back by its holder, who is at most two steps away from it. -/
theorem mutex_step {v : Fin n} {s t : State n α} {e : Event n α} (hs : Control s)
    (held : s.queueMutex = some v) (h : Moves s e t) :
    t.queueMutex = none ∨ t.queueMutex = some v ∧
      (e.thread = some (.worker v) → (t.workers v).toRelease < (s.workers v).toRelease) ∧
      (e.thread ≠ some (.worker v) → t.workers v = s.workers v) := by
  have hholds := (hs.mutex v).mp held
  have outside : ∀ {w old} pc, s.workers w = old → old.holdsMutex = false →
      (s.setPc w pc).workers v = s.workers v ∧ v ≠ w := by
    intro w old pc here hold
    have hne : v ≠ w := by
      rintro rfl
      rw [here, hold] at hholds
      cases hholds
    exact ⟨by rw [workers_setPc, if_neg hne], hne⟩
  have aside : ∀ {w old pc}, s.workers w = old → old.holdsMutex = false →
      e.thread = some (.worker w) →
      (e.thread = some (.worker v) →
        ((s.setPc w pc).workers v).toRelease < (s.workers v).toRelease) ∧
      (e.thread ≠ some (.worker v) → (s.setPc w pc).workers v = s.workers v) := by
    intro w old pc here hold hown
    obtain ⟨hsame, hne⟩ := outside pc here hold
    refine ⟨fun hv => ?_, fun _ => hsame⟩
    rw [hown] at hv
    cases hv
    exact absurd rfl hne
  cases h with
  | enqueueDropped _ free | enqueued _ free | locked _ _ free | callDropped _ _ _ _ _ _ free
  | called _ _ _ _ _ _ free | stopSet _ free => exact absurd (held.symm.trans free) (by simp)
  | left | popped | blocked => exact Or.inl rfl
  | idle w here =>
      have hvw : v = w := (hs.holder_unique hholds (by rw [here]; rfl)).symm
      subst hvw
      refine Or.inr ⟨held, fun _ => ?_, fun hother => absurd rfl hother⟩
      rw [workers_setPc, if_pos rfl, here]
      exact Nat.one_pos
  | notified w owes asleep =>
      exact Or.inr ⟨held, by simp [Event.thread], fun _ => (outside .awake asleep rfl).1⟩
  | woken w here =>
      exact Or.inr ⟨held, by simp [Event.thread], fun _ => (outside .awake here rfl).1⟩
  | notifiedNobody | joined | destroyed =>
      exact Or.inr ⟨held, by simp [Event.thread], fun _ => rfl⟩
  | invoked w calls k task here => exact Or.inr ⟨held, aside here rfl rfl⟩
  | callNotifiedNobody w k task calls here => exact Or.inr ⟨held, aside here rfl rfl⟩
  | finished w k task here => exact Or.inr ⟨held, aside here rfl rfl⟩
  | callNotified w u k task calls here other waits =>
      have hu : v ≠ u := (outside .awake waits rfl).2
      obtain ⟨hsame, hne⟩ := outside (.running k task calls) here rfl
      refine Or.inr ⟨held, fun hv => ?_, fun _ => ?_⟩
      · cases hv
        exact absurd rfl hne
      · rw [workers_setPc, if_neg hu]
        exact hsame
  | notifiedAll =>
      refine Or.inr ⟨held, by simp [Event.thread], fun _ => ?_⟩
      change s.notifyAll.workers v = s.workers v
      rw [workers_notifyAll, wake_eq, if_neg]
      intro hblocked
      rw [isBlocked_iff] at hblocked
      rw [hblocked] at hholds
      cases hholds

/-- A worker in front of an `enqueue` call stays there while another has the mutex. -/
theorem call_waits {k : Nat} {w v : Fin n} {task new : α} {calls : List α} {s t : State n α}
    {e : Event n α} (here : s.workers w = .running k task (new :: calls))
    (busy : s.queueMutex = some v) (h : Moves s e t) : t.workers w = s.workers w := by
  refine holder_kept (k := k) (by rw [here]; rfl) ?_ h
  intro hown
  cases h with
  | callDropped _ _ _ _ _ _ free | called _ _ _ _ _ _ free =>
      exact absurd (busy.symm.trans free) (by simp)
  | locked u outside =>
      cases hown
      obtain hat | hat := outside <;> rw [here] at hat <;> cases hat
  | left u hat | popped u hat | idle u hat | blocked u hat | invoked u _ _ _ hat
  | callNotified u _ _ _ _ hat | callNotifiedNobody u _ _ _ hat | finished u _ _ hat =>
      cases hown
      rw [here] at hat
      cases hat
  | _ => cases hown

/-- So it is enabled again and again: nobody moves it before the mutex is free. -/
theorem call_recurs {x : Execution (step : State n α → Event n α → Option (State n α))}
    (fair : Attended x) {w : Fin n} {k : Nat} {task new : α} {calls : List α} :
    x.LeadsTo (fun s => Reachable s ∧ s.workers w = .running k task (new :: calls))
      fun s => Enabled step (fun e => e.thread = some (.worker w)) s := by
  have wants : ∀ s : State n α, Reachable s → s.workers w = .running k task (new :: calls) →
      s.queueMutex = none → Enabled step (fun e => e.thread = some (.worker w)) s := by
    intro s h here free
    apply worker_enabled_of_free (control h) free <;> simp [here]
  intro i hi
  cases hmutex : (x.state i).queueMutex with
  | none => exact ⟨i, le_rfl, wants _ hi.1 hi.2 hmutex⟩
  | some v =>
      have descends : Descends (step : State n α → Event n α → Option (State n α))
          (fun e => e.thread = some (.worker v))
          (fun s => (Reachable s ∧ s.workers w = .running k task (new :: calls)) ∧
            s.queueMutex = some v)
          (fun s => Enabled step (fun e => e.thread = some (.worker w)) s)
          (fun s => (s.workers v).toRelease) := by
        refine ⟨?_, ?_, ?_⟩
        · rintro s e t ⟨⟨h, here⟩, hbusy⟩ _ hstep
          have hkept := (call_waits here hbusy (moves hstep)).trans here
          obtain hfree | ⟨hheld, -⟩ := mutex_step (control h) hbusy (moves hstep)
          · exact Or.inr (wants t (h.step hstep) hkept hfree)
          · exact Or.inl ⟨⟨h.step hstep, hkept⟩, hheld⟩
        · rintro s e t ⟨⟨h, here⟩, hbusy⟩ _ hown hstep
          obtain hfree | ⟨-, hlower, -⟩ := mutex_step (control h) hbusy (moves hstep)
          · exact Or.inl (wants t (h.step hstep)
              ((call_waits here hbusy (moves hstep)).trans here) hfree)
          · exact Or.inr (hlower hown)
        · rintro s e t ⟨⟨h, here⟩, hbusy⟩ _ hother hstep
          obtain hfree | ⟨-, -, hsame⟩ := mutex_step (control h) hbusy (moves hstep)
          · exact Or.inl (wants t (h.step hstep)
              ((call_waits here hbusy (moves hstep)).trans here) hfree)
          · exact Or.inr (by rw [hsame hother])
      exact descends.eventually_of_fair (fair.workers v).fair
        (fun s hs _ => holder_enabled (control hs.1.1) hs.2) i ⟨hi, hmutex⟩

theorem task_enabled {s : State n α} {w : Fin n} {k : Nat} (held : (s.workers w).ticket = some k) :
    Enabled step (fun e => e.thread = some (.worker w)) s ∨
      ∃ task new calls, s.workers w = .running k task (new :: calls) := by
  obtain ⟨task, here⟩ | ⟨task, calls, here⟩ | ⟨task, calls, here⟩ := (ticket_eq_some _ _).mp held
  · exact Or.inl ⟨.invoke w [], _, rfl, by simp only [step, here]; rfl⟩
  · cases calls with
    | nil => exact Or.inl ⟨.finish w, _, rfl, by simp only [step, here]; rfl⟩
    | cons new calls => exact Or.inr ⟨task, new, calls, here⟩
  · obtain ⟨woken, t, ht⟩ := notifyOne_isSome (s.setPc w (.running k task calls))
    exact Or.inl ⟨.callNotify w woken, t, rfl, by simp only [step, here, ht]⟩

theorem held_returned {x : Execution (step : State n α → Event n α → Option (State n α))}
    (fair : Attended x) (k : Nat) (w : Fin n) :
    x.LeadsTo (fun s => Reachable s ∧ (s.workers w).ticket = some k) fun s => k ∈ s.returned := by
  have descends : Descends (step : State n α → Event n α → Option (State n α))
      (fun e => e.thread = some (.worker w))
      (fun s => Reachable s ∧ (s.workers w).ticket = some k) (fun s => k ∈ s.returned)
      (fun s => (s.workers w).toReturn) := by
    refine ⟨?_, ?_, ?_⟩
    · rintro s e t ⟨h, held⟩ _ hstep
      by_cases hown : e.thread = some (.worker w)
      · obtain hdone | ⟨hheld, -⟩ := holder_lowers held hown (moves hstep)
        · exact Or.inr hdone
        · exact Or.inl ⟨h.step hstep, hheld⟩
      · rw [← holder_kept held hown (moves hstep)] at held
        exact Or.inl ⟨h.step hstep, held⟩
    · rintro s e t ⟨-, held⟩ _ hown hstep
      exact (holder_lowers held hown (moves hstep)).imp_right And.right
    · rintro s e t ⟨-, held⟩ _ hother hstep
      rw [holder_kept held hother (moves hstep)]
      exact Or.inr le_rfl
  apply descends.eventually_of_stronglyFair (fair.workers w)
  rintro j ⟨⟨h, held⟩, -⟩
  obtain hnow | ⟨task, new, calls, here⟩ := task_enabled held
  · exact ⟨j, le_rfl, hnow⟩
  · exact call_recurs fair j ⟨h, here⟩

/-- A task that is queued, held or done is run to its end, exactly once. -/
theorem returns_of_reachable (positive : 0 < n)
    {x : Execution (step : State n α → Event n α → Option (State n α))}
    (reach : ∀ j, Reachable (x.state j)) (fair : Attended x) (k : Nat) :
    x.LeadsTo (fun s => k < s.accepted.length)
      fun s => s.begun.count k = 1 ∧ s.returned.count k = 1 := by
  have hrun : x.LeadsTo (fun s => k < s.dequeued.length) fun s => k ∈ s.returned := by
    intro j hj
    obtain ⟨⟨w, hw, -⟩, -⟩ | ⟨-, hclosed⟩ := (accounts (reach j)).sound.held_xor_closed hj
    · exact held_returned fair k w j ⟨reach j, hw⟩
    · exact ⟨j, le_rfl, List.count_pos_iff.mp (hclosed ▸ Nat.one_pos)⟩
  intro i hi
  obtain ⟨j, hij, hj⟩ := (accepted_dequeued positive fair k).under reach |>.trans hrun i hi
  have hs := accounts (reach j)
  exact ⟨j, hij, List.count_eq_one_of_mem hs.begunNodup (hs.returnedBegun k hj),
    List.count_eq_one_of_mem hs.sound.closed_nodup hj⟩

/-- Every task that `enqueue` ever accepts is run to its end, exactly once. -/
theorem accepted_tasks_return (positive : 0 < n)
    {x : Execution (step : State n α → Event n α → Option (State n α))}
    (start : x.state 0 = init n α) (fair : Scheduled x) (k : Nat) :
    x.LeadsTo (fun s => k < s.accepted.length)
      fun s => s.begun.count k = 1 ∧ s.returned.count k = 1 := by
  refine returns_of_reachable positive ?_ fair.attended k
  intro j
  have hrun := x.reachable (Nat.zero_le j)
  rw [start] at hrun
  exact hrun

/-- With everybody asleep and nothing owed, the pool waits for the next `enqueue`. -/
theorem not_enabled_of_asleep {s : State n α} (asleep : ∀ w, s.workers w = .blocked)
    (settled : s.owed = 0) (up : s.dtor = .notCalled) (thread : Thread n) :
    ¬ Enabled step (fun e => e.thread = some thread) s := by
  rintro ⟨e, t, hthread, hstep⟩
  cases moves hstep with
  | enqueueDropped | enqueued | notifiedNobody | woken | stopSet => cases hthread
  | notified v owes => omega
  | locked w outside =>
      rw [asleep w] at outside
      obtain h | h := outside <;> cases h
  | left w here | popped w here | idle w here | blocked w here | invoked w _ _ _ here
  | callDropped w _ _ _ _ here | called w _ _ _ _ here | callNotified w _ _ _ _ here
  | callNotifiedNobody w _ _ _ here | finished w _ _ here =>
      rw [asleep w] at here
      cases here
  | notifiedAll after => rw [up] at after; cases after
  | joined i h here => rw [up] at here; cases here
  | destroyed i h here => rw [up] at here; cases here

/-- One worker, and a task that enqueues another one. -/
theorem accepted_tasks_return_nested :
    ∃ x : Execution (step : State 1 Nat → Event 1 Nat → Option (State 1 Nat)),
      (x.state 8).accepted = [7, 8] ∧
      ∃ j, 8 ≤ j ∧ (x.state j).begun.count 1 = 1 ∧ (x.state j).returned.count 1 = 1 := by
  have hrun : run step (init 1 Nat)
      [.enqueue 7, .notify none, .lock 0, .test 0, .invoke 0 [8], .call 0, .callNotify 0 none,
        .finish 0, .lock 0, .test 0, .invoke 0 [], .finish 0, .lock 0, .test 0, .block 0] =
      some _ := rfl
  have fair : Scheduled (Execution.ofRun hrun) := fun thread =>
    Execution.ofRun_stronglyFair hrun
      (not_enabled_of_asleep (Fin.forall_fin_one.mpr rfl) rfl rfl thread)
  have hlen : ((Execution.ofRun hrun).state 8).accepted = [7, 8] := rfl
  refine ⟨Execution.ofRun hrun, hlen, ?_⟩
  apply accepted_tasks_return Nat.one_pos (Execution.ofRun_start hrun) fair 1 8
  rw [hlen]
  decide

end TinyMiddleware.Core.ThreadPool
