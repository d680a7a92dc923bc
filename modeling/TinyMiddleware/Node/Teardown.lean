import TinyMiddleware.Core.ThreadPoolAccounting
import TinyMiddleware.Node.BridgeDelivery

/-! `~Node`, after `spin` has returned, against the workers. The body stops the loop;
then the members go in the reverse of their order, and `~ThreadPool`, which drains the
queue, is not the first of them. -/
namespace TinyMiddleware.Teardown

open TinyMiddleware.Core Runs Bridge

variable {n : Nat} {τ κ μ : Type}

/-- The members of `Node`, in the order of their declaration. -/
inductive Member where
  | name
  | loop
  | pool
  | participant
  | subscriber
  | ddsPublisher
  | subs
  | timers
  | paramClient
  deriving DecidableEq, Repr

def Member.declared : List Member :=
  [.name, .loop, .pool, .participant, .subscriber, .ddsPublisher, .subs, .timers, .paramClient]

/-- In the body of `~Node`, or after it with these members left to destroy. -/
inductive Stage where
  | body
  | members (rest : List Member)
  deriving DecidableEq, Repr

/-- A member lives until its destructor has returned. -/
def Stage.alive : Stage → Member → Bool
  | .body, _ => true
  | .members rest, m => rest.contains m

/-- What the destruction of the other members does to their own resources is left out. -/
structure State (n : Nat) (τ κ μ : Type) where
  loop : EventLoop (Handler τ κ)
  pool : ThreadPool.State n (Task κ μ)
  stage : Stage

/-- `destroy` is the whole destructor of a member other than the pool; that of the
pool is `pool` steps, and `destroy` is its return. -/
inductive Event (n : Nat) (κ μ : Type) where
  | body
  | destroy
  | pool (e : ThreadPool.Event n (Task κ μ))
  | worker (e : ThreadPool.Event n (Task κ μ))

def start (s : System n τ κ μ) : State n τ κ μ :=
  ⟨s.node.loop, s.pool, .body⟩

def dtorStep : ThreadPool.Event n (Task κ μ) → Bool
  | .setStop | .notifyAll | .join => true
  | _ => false

def finished (pool : ThreadPool.State n (Task κ μ)) : Member → Bool
  | .pool => decide (pool.dtor = .returned)
  | _ => true

def step (s : State n τ κ μ) : Event n κ μ → Option (State n τ κ μ)
  | .body =>
      match s.stage with
      | .body => some { s with loop := s.loop.stop, stage := .members Member.declared.reverse }
      | _ => none
  | .destroy =>
      match s.stage with
      | .members (m :: rest) =>
          if finished s.pool m then some { s with stage := .members rest } else none
      | _ => none
  | .pool e =>
      match s.stage with
      | .members (.pool :: _) =>
          if dtorStep e then (ThreadPool.step s.pool e).map fun pool => { s with pool := pool }
          else none
      | _ => none
  | .worker e =>
      if workerStep e then (ThreadPool.step s.pool e).map fun pool => { s with pool := pool }
      else none

/-- A user callback may call `set_parameter` or `get_parameter` at any time, so
`param_client_` has to live while any task runs. -/
def ParamClientOutlives (s : System n τ κ μ) : Prop :=
  ∀ t, Runs.Reachable step (start s) t → ∀ w, (t.pool.workers w).isRunning = true →
    t.stage.alive .paramClient = true

def Idle (pool : ThreadPool.State n (Task κ μ)) : Prop :=
  pool.tasks = [] ∧ ∀ w, (pool.workers w).ticket = none

/-- An idle pool stays idle, for nobody enqueues any more. -/
theorem Idle.step {p q : ThreadPool.State n (Task κ μ)} {e : ThreadPool.Event n (Task κ μ)}
    (h : Idle p) (own : workerStep e = true ∨ dtorStep e = true)
    (hstep : ThreadPool.step p e = some q) : Idle q := by
  obtain ⟨hempty, hnone⟩ := h
  have hset : ∀ w pc, ThreadPool.Pc.ticket pc = none → ∀ v,
      (Function.update p.workers w pc v).ticket = none := by
    intro w pc hpc v
    rw [Function.update_apply]
    split
    · exact hpc
    · exact hnone v
  cases ThreadPool.moves hstep with
  | locked w | left w | idle w | blocked w | woken w => exact ⟨hempty, hset w _ rfl⟩
  | popped w here task rest front =>
      rw [hempty] at front
      cases front
  | invoked w calls k task here =>
      have hticket := hnone w
      rw [here] at hticket
      cases hticket
  | finished w k task here =>
      have hticket := hnone w
      rw [here] at hticket
      cases hticket
  | stopSet | joined | destroyed => exact ⟨hempty, hnone⟩
  | notifiedAll =>
      refine ⟨hempty, ?_⟩
      intro w
      rw [ThreadPool.workers_notifyAll, ThreadPool.ticket_wake]
      exact hnone w
  | _ => obtain hown | hown := own <;> cases hown

theorem outlives_of_idle {s : System n τ κ μ} (h : Idle s.pool) : ParamClientOutlives s := by
  intro t hrun w hrunning
  have hidle : Idle t.pool := hrun.keeps (I := fun t => Idle t.pool) h (by
    intro u e v hu hstep
    cases e with
    | body =>
        simp only [step] at hstep
        split at hstep
        · cases Option.some.inj hstep
          exact hu
        · cases hstep
    | destroy =>
        simp only [step] at hstep
        split at hstep
        · obtain ⟨-, hstep⟩ := Option.ite_none_right_eq_some.mp hstep
          cases Option.some.inj hstep
          exact hu
        · cases hstep
    | pool e =>
        simp only [step] at hstep
        split at hstep
        · obtain ⟨hown, hstep⟩ := Option.ite_none_right_eq_some.mp hstep
          obtain ⟨pool, hpool, rfl⟩ := Option.map_eq_some_iff.mp hstep
          exact hu.step (Or.inr hown) hpool
        · cases hstep
    | worker e =>
        obtain ⟨hown, hstep⟩ := Option.ite_none_right_eq_some.mp hstep
        obtain ⟨pool, hpool, rfl⟩ := Option.map_eq_some_iff.mp hstep
        exact hu.step (Or.inl hown) hpool)
  obtain ⟨k, hk⟩ := ThreadPool.ticket_of_isRunning hrunning
  rw [hidle.2 w] at hk
  cases hk

/-- Runs of the workers alone, as the pool of a node has them. -/
abbrev WorkerRun (p q : ThreadPool.State n (Task κ μ)) : Prop :=
  Runs.Reachable (restrict ThreadPool.step fun _ e => workerStep e = true) p q

theorem workerRun_single {p q : ThreadPool.State n (Task κ μ)}
    {e : ThreadPool.Event n (Task κ μ)} (own : workerStep e = true)
    (h : ThreadPool.step p e = some q) : WorkerRun p q :=
  .single (restrict_eq_some.mpr ⟨own, h⟩)

/-- The workers go on whatever the destructor is doing. -/
theorem reachable_of_workerRun {p q : ThreadPool.State n (Task κ μ)} (h : WorkerRun p q)
    (loop : EventLoop (Handler τ κ)) (stage : Stage) :
    Runs.Reachable step (⟨loop, p, stage⟩ : State n τ κ μ) ⟨loop, q, stage⟩ := by
  induction h with
  | refl => exact .refl
  | @tail u v _ hnext ih =>
      obtain ⟨e, he⟩ := hnext
      obtain ⟨hown, hstep⟩ := restrict_eq_some.mp he
      have hworker : step (⟨loop, u, stage⟩ : State n τ κ μ) (.worker e) =
          some ⟨loop, v, stage⟩ := by
        simp only [step, hown, if_true, hstep, Option.map_some]
      exact ih.step hworker

section
variable {p : ThreadPool.State n (Task κ μ)}

theorem running_of_ticket {w : Fin n} {k : Nat} (h : (p.workers w).ticket = some k) :
    ∃ q, WorkerRun p q ∧ ∃ v, (q.workers v).isRunning = true := by
  obtain ⟨task, hpc⟩ | ⟨task, calls, hpc⟩ | ⟨task, calls, hpc⟩ :=
    (ThreadPool.ticket_eq_some _ k).mp h
  · have hinvoke : ThreadPool.step p (.invoke w []) =
        some ({ p with begun := p.begun ++ [k] }.setPc w (.running k task [])) := by
      simp only [ThreadPool.step, hpc]
    refine ⟨_, workerRun_single rfl hinvoke, w, ?_⟩
    simp [ThreadPool.Pc.isRunning]
  · exact ⟨p, .refl, w, by rw [hpc]; rfl⟩
  · exact ⟨p, .refl, w, by rw [hpc]; rfl⟩

theorem running_of_locked {w : Fin n} (here : p.workers w = .locked) (waiting : p.tasks ≠ []) :
    ∃ q, WorkerRun p q ∧ ∃ v, (q.workers v).isRunning = true := by
  obtain ⟨task, rest, hfront⟩ := List.exists_cons_of_ne_nil waiting
  have htest : ThreadPool.step p (.test w) = some (p.pop w task rest) := by
    simp [ThreadPool.step, here, ThreadPool.State.test, ThreadPool.State.waitPredicate, hfront]
  have hticket : ((p.pop w task rest).workers w).ticket = some p.dequeued.length := by
    simp [ThreadPool.Pc.ticket]
  obtain ⟨q, hrun, hrunning⟩ := running_of_ticket hticket
  exact ⟨q, (workerRun_single rfl htest).trans hrun, hrunning⟩

theorem running_of_outside {w : Fin n} (here : p.workers w = .start ∨ p.workers w = .awake)
    (free : p.queueMutex = none) (waiting : p.tasks ≠ []) :
    ∃ q, WorkerRun p q ∧ ∃ v, (q.workers v).isRunning = true := by
  have hlock : ThreadPool.step p (.lock w) =
      some ({ p with queueMutex := some w }.setPc w .locked) := by
    obtain hstart | hawake := here
    · simp only [ThreadPool.step, hstart, free, if_true]
    · simp only [ThreadPool.step, hawake, free, if_true]
  have hlocked : ({ p with queueMutex := some w }.setPc w .locked).workers w = .locked := by
    simp
  obtain ⟨q, hrun, hrunning⟩ := running_of_locked hlocked waiting
  exact ⟨q, (workerRun_single rfl hlock).trans hrun, hrunning⟩

/-- With a task queued, some worker gets to it, wherever the workers are. -/
theorem running_of_queued (positive : 0 < n) (hcontrol : ThreadPool.Control p)
    (accepting : p.stop = false) (waiting : p.tasks ≠ []) :
    ∃ q, WorkerRun p q ∧ ∃ v, (q.workers v).isRunning = true := by
  cases hmutex : p.queueMutex with
  | some w =>
      have hholds := (hcontrol.mutex w).mp hmutex
      cases hpc : p.workers w with
      | locked => exact running_of_locked hpc waiting
      | blocking => exact absurd (hcontrol.blocking w hpc).1 waiting
      | _ => simp [hpc, ThreadPool.Pc.holdsMutex] at hholds
  | none =>
      have hfree := hcontrol.not_holding hmutex ⟨0, positive⟩
      cases hpc : p.workers ⟨0, positive⟩ with
      | start => exact running_of_outside (Or.inl hpc) hmutex waiting
      | awake => exact running_of_outside (Or.inr hpc) hmutex waiting
      | blocked =>
          have hwake : ThreadPool.step p (.spurious ⟨0, positive⟩) =
              some (p.setPc ⟨0, positive⟩ .awake) := by
            simp only [ThreadPool.step, hpc]
          have hawake : (p.setPc ⟨0, positive⟩ .awake).workers ⟨0, positive⟩ = .awake := by
            simp
          obtain ⟨q, hrun, hrunning⟩ := running_of_outside (Or.inr hawake) hmutex waiting
          exact ⟨q, (workerRun_single rfl hwake).trans hrun, hrunning⟩
      | locked | blocking => simp [hpc, ThreadPool.Pc.holdsMutex] at hfree
      | popped k task => exact running_of_ticket (by rw [hpc]; rfl)
      | running k task calls => exact running_of_ticket (by rw [hpc]; rfl)
      | notifying k task calls => exact running_of_ticket (by rw [hpc]; rfl)
      | exited =>
          have hstop := (hcontrol.exited _ hpc).1
          rw [accepting] at hstop
          cases hstop

end

theorem paramClient_first (s : System n τ κ μ) :
    Runs.Reachable step (start s)
      ⟨s.node.loop.stop, s.pool, .members (Member.declared.reverse.drop 1)⟩ := by
  have hbody : step (start s) .body =
      some ⟨s.node.loop.stop, s.pool, .members Member.declared.reverse⟩ := rfl
  have hdestroy : step (⟨s.node.loop.stop, s.pool, .members Member.declared.reverse⟩ :
      State n τ κ μ) .destroy =
        some ⟨s.node.loop.stop, s.pool, .members (Member.declared.reverse.drop 1)⟩ := rfl
  exact Reachable.step (.single hbody) hdestroy

/-- `param_client_` outlives every task exactly when there is none left. -/
theorem paramClientOutlives_iff {typeName : τ → String} {s : System n τ κ μ} (positive : 0 < n)
    (h : Bridge.Reachable typeName s) : ParamClientOutlives s ↔ Idle s.pool := by
  refine ⟨?_, outlives_of_idle⟩
  intro houtlives
  have hcontrol := ThreadPool.control (pool_reachable h)
  -- a run of the workers after `param_client_` is gone would show a task without it
  have hnever : ∀ q, WorkerRun s.pool q → ¬ ∃ w, (q.workers w).isRunning = true := by
    rintro q hrun ⟨w, hrunning⟩
    have halive := houtlives _ ((paramClient_first s).trans (reachable_of_workerRun hrun _ _)) w
      hrunning
    have hgone : Stage.alive (.members (Member.declared.reverse.drop 1)) .paramClient = false := by
      decide
    exact Bool.noConfusion (hgone.symm.trans halive)
  constructor
  · by_contra hwaiting
    obtain ⟨q, hrun, hrunning⟩ :=
      running_of_queued positive hcontrol (sequenced h).accepting hwaiting
    exact hnever q hrun hrunning
  · intro w
    by_contra hheld
    obtain ⟨k, hk⟩ := Option.ne_none_iff_exists'.mp hheld
    obtain ⟨q, hrun, hrunning⟩ := running_of_ticket hk
    exact hnever q hrun hrunning

/-- A sample is delivered, `epoll_wait` fails, and `spin` returns with the task queued. -/
private def queued : List (Bridge.Event 4 Unit Nat Nat) :=
  [.subscribe 5 () "chatter" 10, .register, .insert 0 ⟨1, true⟩, .onDataAvailable 0, .loop .run,
    .loop .test, .loop .wait, .loop (.result (.events [5])), .loop .next, .read, .take (some 0),
    .enqueue, .notify none, .take none, .loop .ret, .loop .next, .loop .test, .loop .wait,
    .loop (.result .failed)]

private theorem queued_isSome :
    (run (Bridge.step fun _ => "HelloWorld") (Bridge.init 4 Unit Nat Nat) queued).isSome = true :=
  rfl

private def atTeardown : System 4 Unit Nat Nat :=
  (run (Bridge.step fun _ => "HelloWorld") (Bridge.init 4 Unit Nat Nat) queued).get queued_isSome

private theorem reachable_atTeardown : Bridge.Reachable (fun _ => "HelloWorld") atTeardown :=
  reachable_of_run (Option.some_get queued_isSome).symm

theorem paramClientOutlives_queued : ∃ s : System 4 Unit Nat Nat, s.node.loop.pc = .left ∧
    s.pool.tasks = [.message 10 1] ∧ (ParamClientOutlives s ↔ Idle s.pool) :=
  ⟨atTeardown, rfl, rfl, paramClientOutlives_iff (by decide) reachable_atTeardown⟩

/-- The queued task runs after `param_client_` is gone. -/
theorem paramClient_gone :
    ¬ ∀ s : System 4 Unit Nat Nat, Bridge.Reachable (fun _ => "HelloWorld") s →
      s.node.loop.pc = .left → ParamClientOutlives s := by
  intro hall
  have houtlives := hall atTeardown reachable_atTeardown rfl
  have hteardown : run step (start atTeardown)
      [.body, .destroy, .worker (.lock 0), .worker (.test 0), .worker (.invoke 0 [])] =
      some _ := rfl
  exact Bool.noConfusion (houtlives _ (reachable_of_run hteardown) 0 rfl)

end TinyMiddleware.Teardown
