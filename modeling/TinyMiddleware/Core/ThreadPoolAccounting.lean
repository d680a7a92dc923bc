import TinyMiddleware.Core.ThreadPoolControl
import TinyMiddleware.Lib.Ledger

/-! What happens to a task. The pool refines a work ledger whose holders are the
workers: `enqueue` accepts, popping takes, and returning from `task()` closes. -/
namespace TinyMiddleware.Core.ThreadPool

open Runs

variable {n : Nat} {α : Type}

/-- The pool without its queue, its lock and its threads' positions. -/
def State.ledger (s : State n α) : Ledger (Fin n) α where
  accepted := s.accepted
  taken := s.dequeued.length
  held := fun w => (s.workers w).ticket
  closed := s.returned

theorem ticket_setPc (s : State n α) (w : Fin n) (pc : Pc α) :
    (fun v => ((s.setPc w pc).workers v).ticket) =
      Function.update (fun v => (s.workers v).ticket) w pc.ticket := by
  funext v
  rw [workers_setPc, Function.update_apply]
  split <;> rfl

private theorem ledger_setPc {s : State n α} {w : Fin n} {old pc : Pc α}
    (here : s.workers w = old) (same : pc.ticket = old.ticket) :
    (s.setPc w pc).ledger = s.ledger := by
  have hheld := ticket_setPc s w pc
  rw [same, ← here, Function.update_eq_self] at hheld
  unfold State.ledger
  rw [hheld]
  rfl

theorem ledger_step {s t : State n α} {e : Event n α}
    (queue : s.dequeued ++ s.tasks = s.accepted) (h : Moves s e t) :
    t.ledger = s.ledger ∨ Ledger.Step s.ledger t.ledger := by
  cases h with
  | enqueueDropped => exact Or.inl rfl
  | enqueued task => exact Or.inr (.accept s.ledger task)
  | notified v _ waits => exact Or.inl (ledger_setPc waits rfl)
  | notifiedNobody => exact Or.inl rfl
  | locked w outside =>
      obtain hstart | hawake := outside
      · exact Or.inl (ledger_setPc hstart rfl)
      · exact Or.inl (ledger_setPc hawake rfl)
  | left w here => exact Or.inl (ledger_setPc here rfl)
  | popped w here task rest front =>
      right
      have hwaiting : s.dequeued.length < s.accepted.length := by
        rw [← queue, front]
        simp
      have htake := Ledger.Step.take s.ledger w (by simp [State.ledger, here, Pc.ticket]) hwaiting
      have hheld := ticket_setPc s w (.popped s.dequeued.length task)
      unfold State.ledger State.pop
      rw [List.length_append]
      change Ledger.Step _ ⟨s.accepted, s.dequeued.length + 1,
        fun v => ((s.setPc w (.popped s.dequeued.length task)).workers v).ticket, s.returned⟩
      rw [hheld]
      exact htake
  | idle w here => exact Or.inl (ledger_setPc here rfl)
  | blocked w here => exact Or.inl (ledger_setPc here rfl)
  | woken w here => exact Or.inl (ledger_setPc here rfl)
  | invoked w calls k task here => exact Or.inl (ledger_setPc here rfl)
  | callDropped w k task new calls here => exact Or.inl (ledger_setPc here rfl)
  | called w k task new calls here =>
      right
      have hsame : ((s.push new).setPc w (.notifying k task calls)).ledger = (s.push new).ledger :=
        ledger_setPc here rfl
      rw [hsame]
      exact .accept s.ledger new
  | callNotified w v k task calls here other waits =>
      left
      have hv : (s.setPc w (.running k task calls)).workers v = .blocked := by simp [other, waits]
      calc ((s.setPc w (.running k task calls)).setPc v .awake).ledger
          = (s.setPc w (.running k task calls)).ledger := ledger_setPc hv rfl
        _ = s.ledger := ledger_setPc here rfl
  | callNotifiedNobody w k task calls here =>
      exact Or.inl (ledger_setPc here rfl)
  | finished w k task here =>
      right
      have hclose := Ledger.Step.close s.ledger w k (by simp [State.ledger, here, Pc.ticket])
      have hheld := ticket_setPc s w .start
      unfold State.ledger
      change Ledger.Step _ ⟨s.accepted, s.dequeued.length,
        fun v => ((s.setPc w .start).workers v).ticket, s.returned ++ [k]⟩
      rw [hheld]
      exact hclose
  | stopSet => exact Or.inl rfl
  | notifiedAll =>
      left
      simp [State.ledger, State.notifyAll]
  | joined => exact Or.inl rfl
  | destroyed => exact Or.inl rfl

/-- The accounting invariant: the queue is what was accepted and not yet popped,
the ledger balances, and a ticket is begun once, by the worker that holds it. -/
structure Accounts (s : State n α) : Prop where
  queue : s.dequeued ++ s.tasks = s.accepted
  sound : s.ledger.Sound
  content : ∀ w k, (s.workers w).ticket = some k → s.dequeued[k]? = (s.workers w).task
  begunNodup : s.begun.Nodup
  begunTaken : ∀ k ∈ s.begun, k < s.dequeued.length
  notYet : ∀ w k task, s.workers w = .popped k task → k ∉ s.begun
  inside : ∀ w k, (s.workers w).isRunning = true → (s.workers w).ticket = some k → k ∈ s.begun
  returnedBegun : ∀ k ∈ s.returned, k ∈ s.begun

theorem accounts_init : Accounts (init n α) := by
  refine ⟨rfl, Ledger.sound_of_unused _ fun _ => rfl, ?_, ?_, ?_, ?_, ?_, ?_⟩ <;>
    simp [init, Pc.ticket]

theorem ticket_of_isRunning {pc : Pc α} (h : pc.isRunning = true) : ∃ k, pc.ticket = some k := by
  cases pc <;> simp_all [Pc.isRunning, Pc.ticket]

/-- The same task or none, and begun or not as before. -/
structure Pc.SameTask (old pc : Pc α) : Prop where
  ticket : pc.ticket = old.ticket
  task : pc.task = old.task
  isRunning : pc.isRunning = old.isRunning

private theorem Accounts.relabel {s : State n α} (hs : Accounts s) {w : Fin n} {old : Pc α}
    (here : s.workers w = old) (pc : Pc α) (same : old.SameTask pc) : Accounts (s.setPc w pc) where
  queue := hs.queue
  sound := by
    rw [ledger_setPc here same.ticket]
    exact hs.sound
  content := by
    intro v k hk
    rw [workers_setPc] at hk ⊢
    split at hk
    · next hv =>
        rw [same.ticket, ← here] at hk
        rw [if_pos hv, same.task, ← here]
        exact hs.content w k hk
    · next hv =>
        rw [if_neg hv]
        exact hs.content v k hk
  begunNodup := hs.begunNodup
  begunTaken := hs.begunTaken
  notYet := by
    intro v k task hv
    rw [workers_setPc] at hv
    split at hv
    · have hticket := same.ticket
      have htask := same.task
      have hrunning := same.isRunning
      subst hv
      cases old <;> simp_all [Pc.ticket, Pc.task, Pc.isRunning]
      exact hs.notYet w _ _ here
    · exact hs.notYet v k task hv
  inside := by
    intro v k hv hk
    rw [workers_setPc] at hv hk
    split at hk
    · next hvw =>
        rw [if_pos hvw, same.isRunning, ← here] at hv
        rw [same.ticket, ← here] at hk
        exact hs.inside w k hv hk
    · next hvw =>
        rw [if_neg hvw] at hv
        exact hs.inside v k hv hk
  returnedBegun := hs.returnedBegun

private theorem Accounts.push {s : State n α} (hs : Accounts s) (task : α) :
    Accounts (s.push task) where
  queue := by
    simp only [State.push, ← List.append_assoc, hs.queue]
  sound := hs.sound.accept task
  content := hs.content
  begunNodup := hs.begunNodup
  begunTaken := hs.begunTaken
  notYet := hs.notYet
  inside := hs.inside
  returnedBegun := hs.returnedBegun

private theorem Accounts.pop {s : State n α} (hs : Accounts s) {w : Fin n} {task : α}
    {rest : List α} (here : s.workers w = .locked) (front : s.tasks = task :: rest) :
    Accounts (s.pop w task rest) where
  queue := by
    have hqueue := hs.queue
    rw [front] at hqueue
    simpa [State.pop] using hqueue
  sound := by
    obtain hsame | hstep := ledger_step hs.queue (.popped w here task rest front)
    · rw [hsame]
      exact hs.sound
    · exact hstep.sound hs.sound
  content := by
    intro v k hk
    rw [workers_pop] at hk ⊢
    split at hk
    · next hv =>
        cases hk
        simp [hv, State.pop, Pc.task]
    · next hv =>
        have hlt : k < s.dequeued.length := hs.sound.held_lt v k hk
        rw [if_neg hv, ← hs.content v k hk]
        exact List.getElem?_append_left hlt
  begunNodup := hs.begunNodup
  begunTaken := by
    intro k hk
    have hlt := hs.begunTaken k hk
    simp only [State.pop, List.length_append]
    omega
  notYet := by
    intro v k task' hv hk
    rw [workers_pop] at hv
    split at hv
    · cases hv
      exact Nat.lt_irrefl _ (hs.begunTaken _ hk)
    · exact hs.notYet v k task' hv hk
  inside := by
    intro v k hv hk
    rw [workers_pop] at hv hk
    split at hk
    · next hvw =>
        rw [if_pos hvw] at hv
        cases hv
    · next hvw =>
        rw [if_neg hvw] at hv
        exact hs.inside v k hv hk
  returnedBegun := hs.returnedBegun

private theorem Accounts.invoke {s : State n α} (hs : Accounts s) {w : Fin n} {calls : List α}
    {k : Nat} {task : α} (here : s.workers w = .popped k task) :
    Accounts ({ s with begun := s.begun ++ [k] }.setPc w (.running k task calls)) := by
  have hheld : s.ledger.held w = some k := by simp [State.ledger, here, Pc.ticket]
  have hsame : ({ s with begun := s.begun ++ [k] }.setPc w (.running k task calls)).ledger =
      s.ledger := ledger_setPc here rfl
  constructor
  · exact hs.queue
  · rw [hsame]
    exact hs.sound
  · intro v j hj
    rw [workers_setPc] at hj ⊢
    split at hj
    · next hv =>
        cases hj
        have hcontent := hs.content w k hheld
        rw [here] at hcontent
        rw [if_pos hv]
        exact hcontent
    · next hv =>
        rw [if_neg hv]
        exact hs.content v j hj
  · exact List.nodup_append'.mpr
      ⟨hs.begunNodup, List.nodup_singleton _, by simpa using hs.notYet w k task here⟩
  · intro j hj
    obtain hj | hj := List.mem_append.mp hj
    · exact hs.begunTaken j hj
    · rw [List.mem_singleton.mp hj]
      exact hs.sound.held_lt w k hheld
  · intro v j task' hv hj
    rw [workers_setPc] at hv
    split at hv
    · cases hv
    · next hvw =>
        obtain hj | hj := List.mem_append.mp hj
        · exact hs.notYet v j task' hv hj
        · -- nobody else can have popped the same ticket
          rw [List.mem_singleton.mp hj] at hv
          have hother : s.ledger.held v = some k := by
            change (s.workers v).ticket = some k
            rw [show s.workers v = .popped k task' from hv]
            rfl
          exact hvw (hs.sound.held_unique v w k hother hheld)
  · intro v j hv hj
    rw [workers_setPc] at hv hj
    split at hj
    · cases hj
      exact List.mem_append_right _ (List.mem_singleton_self k)
    · next hvw =>
        rw [if_neg hvw] at hv
        exact List.mem_append_left _ (hs.inside v j hv hj)
  · exact fun j hj => List.mem_append_left _ (hs.returnedBegun j hj)

private theorem Accounts.finish {s : State n α} (hs : Accounts s) {w : Fin n} {k : Nat}
    {task : α} (here : s.workers w = .running k task []) :
    Accounts ({ s with returned := s.returned ++ [k] }.setPc w .start) where
  queue := hs.queue
  sound := by
    obtain hsame | hstep := ledger_step hs.queue (.finished w k task here)
    · rw [hsame]
      exact hs.sound
    · exact hstep.sound hs.sound
  content := by
    intro v j hj
    rw [workers_setPc] at hj ⊢
    split at hj
    · cases hj
    · next hv =>
        rw [if_neg hv]
        exact hs.content v j hj
  begunNodup := hs.begunNodup
  begunTaken := hs.begunTaken
  notYet := by
    intro v j task' hv
    rw [workers_setPc] at hv
    split at hv
    · cases hv
    · exact hs.notYet v j task' hv
  inside := by
    intro v j hv hj
    rw [workers_setPc] at hv hj
    split at hj
    · cases hj
    · next hvw =>
        rw [if_neg hvw] at hv
        exact hs.inside v j hv hj
  returnedBegun := by
    intro j hj
    obtain hj | hj := List.mem_append.mp hj
    · exact hs.returnedBegun j hj
    · rw [List.mem_singleton.mp hj]
      exact hs.inside w k (by rw [here]; rfl) (by rw [here]; rfl)

private theorem Accounts.notifyAll {s : State n α} (hs : Accounts s) (dtor : Dtor) :
    Accounts { s.notifyAll with dtor } where
  queue := hs.queue
  sound := by
    have hsame : State.ledger { s.notifyAll with dtor } = s.ledger := by
      simp [State.ledger, State.notifyAll]
    rw [hsame]
    exact hs.sound
  content := by
    intro w k hk
    simp only [workers_notifyAll, ticket_wake] at hk ⊢
    rw [task_wake]
    exact hs.content w k hk
  begunNodup := hs.begunNodup
  begunTaken := hs.begunTaken
  notYet := by
    intro w k task hw
    simp only [workers_notifyAll, wake_eq] at hw
    split at hw
    · cases hw
    · exact hs.notYet w k task hw
  inside := by
    intro w k hw hk
    simp only [workers_notifyAll, ticket_wake, isRunning_wake] at hw hk
    exact hs.inside w k hw hk
  returnedBegun := hs.returnedBegun

theorem Accounts.step {s t : State n α} {e : Event n α} (hs : Accounts s) (h : Moves s e t) :
    Accounts t := by
  -- the lock, the flags and the notifications owed are not part of the accounts
  have frame : ∀ {u : State n α} (queueMutex owed stop dtor), Accounts u →
      Accounts { u with queueMutex, owed, stop, dtor } := fun _ _ _ _ hu =>
    ⟨hu.queue, hu.sound, hu.content, hu.begunNodup, hu.begunTaken, hu.notYet, hu.inside,
      hu.returnedBegun⟩
  cases h with
  | enqueueDropped => exact hs
  | enqueued task => exact frame s.queueMutex (s.owed + 1) s.stop s.dtor (hs.push task)
  | notified v _ waits =>
      exact frame s.queueMutex (s.owed - 1) s.stop s.dtor
        (hs.relabel waits .awake ⟨rfl, rfl, rfl⟩)
  | notifiedNobody => exact frame s.queueMutex (s.owed - 1) s.stop s.dtor hs
  | locked w outside =>
      obtain here | here := outside <;>
        exact frame (some w) s.owed s.stop s.dtor
          (hs.relabel here .locked ⟨rfl, rfl, rfl⟩)
  | left w here =>
      exact frame none s.owed s.stop s.dtor
        (hs.relabel here .exited ⟨rfl, rfl, rfl⟩)
  | popped w here task rest front => exact hs.pop here front
  | idle w here => exact hs.relabel here _ ⟨rfl, rfl, rfl⟩
  | blocked w here =>
      exact frame none s.owed s.stop s.dtor
        (hs.relabel here .blocked ⟨rfl, rfl, rfl⟩)
  | woken w here => exact hs.relabel here _ ⟨rfl, rfl, rfl⟩
  | invoked w calls k task here => exact hs.invoke here
  | callDropped w k task new calls here =>
      exact hs.relabel here _ ⟨rfl, rfl, rfl⟩
  | called w k task new calls here =>
      exact (hs.push new).relabel here _ ⟨rfl, rfl, rfl⟩
  | callNotified w v k task calls here other waits =>
      have hw : Accounts (s.setPc w (.running k task calls)) :=
        hs.relabel here _ ⟨rfl, rfl, rfl⟩
      have hv : (s.setPc w (.running k task calls)).workers v = .blocked := by simp [other, waits]
      exact hw.relabel hv .awake ⟨rfl, rfl, rfl⟩
  | callNotifiedNobody w k task calls here =>
      exact hs.relabel here _ ⟨rfl, rfl, rfl⟩
  | finished w k task here => exact hs.finish here
  | stopSet => exact frame s.queueMutex s.owed true .stopSet hs
  | notifiedAll => exact hs.notifyAll (.joining 0)
  | joined i => exact frame s.queueMutex s.owed s.stop (.joining (i + 1)) hs
  | destroyed => exact frame s.queueMutex s.owed s.stop .returned hs

theorem accounts {s : State n α} (h : Reachable s) : Accounts s :=
  h.keeps accounts_init fun _ _ _ hs hstep => hs.step (moves hstep)

/-- Once the stop flag is set nothing is accepted any more. -/
theorem accepted_of_stop {s t : State n α} {e : Event n α} (hstop : s.stop = true)
    (h : Moves s e t) : t.stop = true ∧ t.accepted = s.accepted := by
  cases h with
  | enqueued _ _ accepting => simp [hstop] at accepting
  | called _ _ _ _ _ _ _ accepting => simp [hstop] at accepting
  | stopSet => exact ⟨rfl, rfl⟩
  | _ => exact ⟨hstop, rfl⟩

/-- What the pool owes the tasks it was given. A task is named by its ticket, its
place in the order of acceptance. -/
structure TaskAccounting (s : State n α) : Prop where
  /-- What was popped, followed by what is queued, is what was accepted, in order. -/
  fifo : s.dequeued ++ s.tasks = s.accepted
  /-- A popped task is with exactly one worker, or has been run exactly once. -/
  heldOrRun : ∀ k < s.dequeued.length,
    ((∃! w, (s.workers w).ticket = some k) ∧ s.begun.count k ≤ 1 ∧ s.returned.count k = 0) ∨
      ((∀ w, (s.workers w).ticket ≠ some k) ∧ s.begun.count k = 1 ∧ s.returned.count k = 1)
  /-- The worker that holds a ticket holds the task that was accepted under it. -/
  content : ∀ w k, (s.workers w).ticket = some k → (s.workers w).task = s.accepted[k]?
  /-- Nothing is run that was not accepted. -/
  onlyAccepted : ∀ k ∈ s.begun, k < s.accepted.length
  /-- An `enqueue` of another thread that sees `stop_` changes nothing. -/
  dropped : s.stop = true → ∀ task t, step s (.enqueue task) = some t → t = s
  /-- Nor does one made by a task that a worker runs, apart from returning to it. -/
  callDropped : s.stop = true → ∀ w t, step s (.call w) = some t →
    ∃ k task new calls, s.workers w = .running k task (new :: calls) ∧
      t = s.setPc w (.running k task calls)
  /-- So no later state has it among the accepted tasks. -/
  closed : s.stop = true → ∀ t, Runs.Reachable step s t → t.accepted = s.accepted
  /-- When the destructor returns, everything accepted has run to completion once. -/
  drained : s.dtor = .returned → s.tasks = [] ∧ s.dequeued = s.accepted ∧
    ∀ k < s.accepted.length, s.begun.count k = 1 ∧ s.returned.count k = 1

private theorem Accounts.begun_of_returned {s : State n α} (hs : Accounts s) {k : Nat}
    (hk : s.returned.count k = 1) : s.begun.count k = 1 := by
  apply List.count_eq_one_of_mem hs.begunNodup
  apply hs.returnedBegun
  exact List.count_pos_iff.mp (by omega)

theorem empty_of_returned {s : State n α} (positive : 0 < n) (hs : Control s)
    (hret : s.dtor = .returned) : s.tasks = [] :=
  (hs.exited ⟨0, positive⟩ (hs.allJoined hret _)).2

theorem task_accounting {s : State n α} (positive : 0 < n) (h : Reachable s) :
    TaskAccounting s := by
  have hs := accounts h
  have hcontrol := control h
  have hlen : s.dequeued.length ≤ s.accepted.length := hs.sound.taken_le
  constructor
  · exact hs.queue
  · intro k hk
    obtain ⟨hheld, hcount⟩ | ⟨hheld, hcount⟩ := hs.sound.held_xor_closed hk
    · exact Or.inl ⟨hheld, List.nodup_iff_count_le_one.mp hs.begunNodup k, hcount⟩
    · exact Or.inr ⟨hheld, hs.begun_of_returned hcount, hcount⟩
  · intro w k hk
    have hlt : k < s.dequeued.length := hs.sound.held_lt w k hk
    rw [← hs.content w k hk, ← hs.queue, List.getElem?_append_left hlt]
  · intro k hk
    exact (hs.begunTaken k hk).trans_le hlen
  · intro hstop task t hstep
    cases moves hstep with
    | enqueueDropped => rfl
    | enqueued _ _ accepting => simp [hstop] at accepting
  · intro hstop w t hstep
    cases moves hstep with
    | callDropped _ k task new calls here => exact ⟨k, task, new, calls, here, rfl⟩
    | called _ _ _ _ _ _ _ accepting => simp [hstop] at accepting
  · intro hstop t hrun
    have both : t.stop = true ∧ t.accepted = s.accepted :=
      hrun.keeps (I := fun t => t.stop = true ∧ t.accepted = s.accepted) ⟨hstop, rfl⟩
        fun u _ v ⟨hu, hsame⟩ hstep =>
          ⟨(accepted_of_stop hu (moves hstep)).1,
            (accepted_of_stop hu (moves hstep)).2.trans hsame⟩
    exact both.2
  · intro hret
    have hempty := empty_of_returned positive hcontrol hret
    have hall : s.dequeued = s.accepted := by
      rw [← hs.queue, hempty, List.append_nil]
    refine ⟨hempty, hall, ?_⟩
    intro k hk
    have hclosed : s.returned.count k = 1 := by
      apply hs.sound.all_closed
      · intro w
        change (s.workers w).ticket = none
        rw [hcontrol.allJoined hret w]
        rfl
      · change k < s.dequeued.length
        rw [hall]
        exact hk
    exact ⟨hs.begun_of_returned hclosed, hclosed⟩

/-- One worker, a task that enqueues another one, and a destructor that comes while
the second is still queued. -/
theorem task_accounting_nested :
    ∃ s : State 1 Nat, s.dtor = .returned ∧ s.accepted = [7, 8] ∧ TaskAccounting s := by
  have hrun : run step (init 1 Nat)
      [.enqueue 7, .notify none, .lock 0, .test 0, .invoke 0 [8], .call 0, .callNotify 0 none,
        .setStop, .finish 0, .notifyAll, .lock 0, .test 0, .invoke 0 [9], .call 0, .finish 0,
        .lock 0, .test 0, .join, .join] = some _ := rfl
  exact ⟨_, rfl, rfl, task_accounting (by decide) (reachable_of_run hrun)⟩

end TinyMiddleware.Core.ThreadPool
