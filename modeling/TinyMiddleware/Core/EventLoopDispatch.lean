import TinyMiddleware.Core.AddEvent
import TinyMiddleware.Lib.Batches

/-! `EventLoop::run` against a dispatcher that knows only batches. What `epoll_wait`
returns is given as a list; when that is used up the thread blocks in the next call. -/
namespace TinyMiddleware.Core

open Runs

/-- What a callback does when it is called; it may depend on all that was called before. -/
abbrev Behaviour (κ : Type) : Type :=
  List (Int × κ) → Int → κ → List (Stores.Action κ)

/-- The thread in `run`: the stores, and the callbacks it has called so far. -/
structure Dispatcher (κ : Type) where
  stores : Stores κ
  trace : List (Int × κ)

inductive Exit where
  | stopped
  | failed
  | waiting

/-- `unused` are the results for which `epoll_wait` was not called any more. -/
structure RunResult (κ : Type) where
  dispatcher : Dispatcher κ
  exit : Exit
  unused : List WaitResult

namespace Dispatcher

variable {κ : Type} (acts : Behaviour κ)

/-- The body of the `for` loop. -/
def dispatch (d : Dispatcher κ) (fd : Int) : Dispatcher κ :=
  match d.stores.loop.callbacks fd with
  | some cb => ⟨(acts d.trace fd cb).foldl Stores.perform d.stores, d.trace ++ [(fd, cb)]⟩
  | none => d

/-- The `while` loop. -/
def loop (d : Dispatcher κ) : List WaitResult → RunResult κ
  | [] => ⟨d, if d.stores.loop.running then .waiting else .stopped, []⟩
  | r :: rest =>
      if d.stores.loop.running then
        match r with
        | .interrupted => loop d rest
        | .failed => ⟨d, .failed, rest⟩
        | .events fds => loop (fds.foldl (dispatch acts) d) rest
      else ⟨d, .stopped, r :: rest⟩

def run (s : Stores κ) (outcomes : List WaitResult) : RunResult κ :=
  loop acts ⟨{ s with loop := { s.loop with running := true } }, []⟩ outcomes

end Dispatcher

/-- The reference dispatcher's state has no running flag. -/
structure Table (κ : Type) where
  callbacks : Int → Option κ
  trace : List (Int × κ)

namespace Table

variable {κ : Type} (acts : Behaviour κ)

def register (callbacks : Int → Option κ) : Stores.Action κ → Int → Option κ
  | .addEvent fd cb _ => Function.update callbacks fd (some cb)
  | _ => callbacks

/-- A new entry comes from a call of `addEvent`. -/
theorem registered {callbacks : Int → Option κ} {actions : List (Stores.Action κ)} {fd : Int}
    (before : callbacks fd = none) (after : actions.foldl register callbacks fd ≠ none) :
    ∃ new permitted, .addEvent fd new permitted ∈ actions := by
  induction actions generalizing callbacks with
  | nil => exact absurd before after
  | cons action rest ih =>
      by_cases hfirst : register callbacks action fd = none
      · obtain ⟨new, permitted, hmem⟩ := ih hfirst after
        exact ⟨new, permitted, List.mem_cons_of_mem action hmem⟩
      · cases action with
        | addEvent d new permitted =>
            obtain rfl : fd = d := by
              by_contra hne
              exact hfirst ((Function.update_of_ne hne _ _).trans before)
            exact ⟨new, permitted, List.mem_cons_self⟩
        | stop => exact absurd before hfirst
        | elsewhere kernel => exact absurd before hfirst

def isStop : Stores.Action κ → Bool
  | .stop => true
  | _ => false

/-- An event is served by the callback that the map holds at this very point. -/
def server : BatchServer (Table κ) Int where
  serve t fd :=
    match t.callbacks fd with
    | some cb => ⟨(acts t.trace fd cb).foldl register t.callbacks, t.trace ++ [(fd, cb)]⟩
    | none => t
  halts t fd :=
    match t.callbacks fd with
    | some cb => (acts t.trace fd cb).any isStop
    | none => false

/-- Every entry was there at the start or has been registered by a callback. -/
def Entered (start t : Table κ) : Prop :=
  ∀ fd, t.callbacks fd ≠ none → start.callbacks fd ≠ none ∨
    ∃ before d cb after, t.trace = before ++ (d, cb) :: after ∧
      ∃ new permitted, .addEvent fd new permitted ∈ acts before d cb

end Table

def Dispatcher.view {κ : Type} (d : Dispatcher κ) : Table κ where
  callbacks := d.stores.loop.callbacks
  trace := d.trace

/-- The batches up to the first error; an `EINTR` contributes none. -/
def batches : List WaitResult → List (List Int)
  | [] => []
  | .interrupted :: rest => batches rest
  | .failed :: _ => []
  | .events fds :: rest => fds :: batches rest

/-- What `run` owes to the reference dispatcher that starts with the table `start`. -/
structure Refines {κ : Type} (acts : Behaviour κ) (start : Table κ) (outcomes : List WaitResult)
    (r : RunResult κ) : Prop where
  served : r.dispatcher.view = (Table.server acts).outcome start (batches outcomes)
  stopped : r.exit = .stopped ↔ (Table.server acts).halted start (batches outcomes) = true
  /-- The batch with the call of `stop` is the last thing that `epoll_wait` returned. -/
  noWait : r.exit = .stopped → ∃ before fds, outcomes = before ++ .events fds :: r.unused ∧
    .failed ∉ before ∧ (Table.server acts).taken start (batches outcomes) = batches before ++ [fds]
  broken : r.exit = .failed → ∃ before, outcomes = before ++ .failed :: r.unused ∧
    .failed ∉ before ∧ (Table.server acts).taken start (batches outcomes) = batches before
  waiting : r.exit = .waiting → r.unused = [] ∧ .failed ∉ outcomes ∧
    (Table.server acts).taken start (batches outcomes) = batches outcomes

theorem batches_cons {r : WaitResult} (goesOn : r ≠ .failed) (rest : List WaitResult) :
    batches (r :: rest) = batches [r] ++ batches rest := by
  cases r with
  | interrupted => rfl
  | failed => exact absurd rfl goesOn
  | events fds => rfl

/-- One more result at the front, after which the thread calls `epoll_wait` again. -/
theorem Refines.cons {κ : Type} {acts : Behaviour κ} {start next : Table κ} {r : WaitResult}
    {rest : List WaitResult} {result : RunResult κ} (h : Refines acts next rest result)
    (goesOn : r ≠ .failed)
    (served : (Table.server acts).outcome start (batches (r :: rest)) =
      (Table.server acts).outcome next (batches rest))
    (halted : (Table.server acts).halted start (batches (r :: rest)) =
      (Table.server acts).halted next (batches rest))
    (taken : (Table.server acts).taken start (batches (r :: rest)) =
      batches [r] ++ (Table.server acts).taken next (batches rest)) :
    Refines acts start (r :: rest) result := by
  have hmem : ∀ {before : List WaitResult}, .failed ∉ before → .failed ∉ r :: before := by
    intro before hbefore
    simp [hbefore, goesOn.symm]
  constructor
  · rw [h.served, served]
  · rw [h.stopped, halted]
  · intro hexit
    obtain ⟨before, fds, hrest, hbefore, htaken⟩ := h.noWait hexit
    refine ⟨r :: before, fds, congrArg _ hrest, hmem hbefore, ?_⟩
    rw [taken, htaken, batches_cons goesOn before, List.append_assoc]
  · intro hexit
    obtain ⟨before, hrest, hbefore, htaken⟩ := h.broken hexit
    refine ⟨r :: before, congrArg _ hrest, hmem hbefore, ?_⟩
    rw [taken, htaken, batches_cons goesOn before]
  · intro hexit
    obtain ⟨hunused, hrest, htaken⟩ := h.waiting hexit
    refine ⟨hunused, hmem hrest, ?_⟩
    rw [taken, htaken, batches_cons goesOn rest]

namespace Dispatcher

variable {κ : Type} {acts : Behaviour κ}

section
variable (s : Stores κ) (action : Stores.Action κ) (actions : List (Stores.Action κ))

theorem callbacks_perform :
    (s.perform action).loop.callbacks = Table.register s.loop.callbacks action := by
  cases action with
  | addEvent fd cb permitted => rfl
  | stop => rfl
  | elsewhere kernel =>
      simp only [Stores.perform, Table.register]
      split <;> rfl

theorem running_perform :
    (s.perform action).loop.running = (s.loop.running && !Table.isStop action) := by
  cases action with
  | addEvent fd cb permitted => simp [Stores.perform, EventLoop.addEvent, Table.isStop]
  | stop => simp [Stores.perform, EventLoop.stop, Table.isStop]
  | elsewhere kernel =>
      simp only [Stores.perform, Table.isStop, Bool.not_false, Bool.and_true]
      split <;> rfl

theorem callbacks_performAll :
    (actions.foldl Stores.perform s).loop.callbacks =
      actions.foldl Table.register s.loop.callbacks :=
  (List.foldl_hom (fun s : Stores κ => s.loop.callbacks)
    fun s action => (callbacks_perform s action).symm).symm

theorem running_performAll :
    (actions.foldl Stores.perform s).loop.running =
      (s.loop.running && !actions.any Table.isStop) := by
  induction actions generalizing s with
  | nil => simp
  | cons action rest ih =>
      rw [List.foldl_cons, ih, running_perform, List.any_cons, Bool.not_or, Bool.and_assoc]

end

theorem view_dispatch (d : Dispatcher κ) (fd : Int) :
    (dispatch acts d fd).view = (Table.server acts).serve d.view fd := by
  simp only [dispatch, view, Table.server]
  split
  · next cb hfound => simp only [callbacks_performAll]
  · rfl

theorem running_dispatch (d : Dispatcher κ) (fd : Int) :
    (dispatch acts d fd).stores.loop.running =
      (d.stores.loop.running && !(Table.server acts).halts d.view fd) := by
  simp only [dispatch, view, Table.server]
  split
  · next cb hfound => simp only [running_performAll]
  · simp only [Bool.not_false, Bool.and_true]

theorem view_dispatchAll (d : Dispatcher κ) (fds : List Int) :
    (fds.foldl (dispatch acts) d).view = (Table.server acts).serveAll d.view fds :=
  (List.foldl_hom view fun d fd => (view_dispatch d fd).symm).symm

/-- The flag is off after a batch exactly when it was off before or a callback called `stop`. -/
theorem running_dispatchAll (acts : Behaviour κ) (d : Dispatcher κ) (fds : List Int) :
    (fds.foldl (dispatch acts) d).stores.loop.running =
      (d.stores.loop.running && !(Table.server acts).haltsIn d.view fds) := by
  induction fds generalizing d with
  | nil => simp [BatchServer.haltsIn]
  | cons fd rest ih =>
      rw [List.foldl_cons, ih, running_dispatch, view_dispatch, BatchServer.haltsIn, Bool.not_or,
        Bool.and_assoc]

theorem loop_off {d : Dispatcher κ} (off : d.stores.loop.running = false)
    (outcomes : List WaitResult) : loop acts d outcomes = ⟨d, .stopped, outcomes⟩ := by
  cases outcomes <;> simp [loop, off]

/-- While the flag is on, each result of `epoll_wait` has its own way out. -/
theorem loop_on (acts : Behaviour κ) {d : Dispatcher κ} (on : d.stores.loop.running = true)
    (rest : List WaitResult) :
    loop acts d (.interrupted :: rest) = loop acts d rest ∧
      loop acts d (.failed :: rest) = ⟨d, .failed, rest⟩ ∧
        ∀ fds, loop acts d (.events fds :: rest) =
          loop acts (fds.foldl (dispatch acts) d) rest := by
  simp [loop, on]

theorem entered_outcome (start : Table κ) (items : List (List Int)) :
    Table.Entered acts start ((Table.server acts).outcome start items) := by
  refine BatchServer.serveAll_keeps (I := Table.Entered acts start) (fun _ => .inl) ?_ _
  intro t d keep fd
  simp only [Table.server]
  split
  · next cb hfound =>
      intro mapped
      by_cases hold : t.callbacks fd = none
      · obtain ⟨new, permitted, hmem⟩ := Table.registered hold mapped
        exact .inr ⟨t.trace, d, cb, [], rfl, new, permitted, hmem⟩
      · obtain hstart | ⟨before, d', cb', after, htrace, hmem⟩ := keep fd hold
        · exact .inl hstart
        · refine .inr ⟨before, d', cb', after ++ [(d, cb)], ?_, hmem⟩
          rw [htrace, List.append_assoc, List.cons_append]
  · exact keep fd

theorem refines_waiting (d : Dispatcher κ) : Refines acts d.view [] ⟨d, .waiting, []⟩ := by
  refine ⟨rfl, by simp [batches, BatchServer.halted], ?_, ?_, ?_⟩
  · intro h
    cases h
  · intro h
    cases h
  · intro _
    exact ⟨rfl, List.not_mem_nil, rfl⟩

theorem refines_failed (d : Dispatcher κ) (rest : List WaitResult) :
    Refines acts d.view (.failed :: rest) ⟨d, .failed, rest⟩ := by
  refine ⟨rfl, by simp [batches, BatchServer.halted], ?_, ?_, ?_⟩
  · intro h
    cases h
  · intro _
    exact ⟨[], rfl, List.not_mem_nil, rfl⟩
  · intro h
    cases h

/-- A callback has called `stop`: the batch is served to its end, and the loop ends there. -/
theorem refines_stopped (d : Dispatcher κ) (fds : List Int) (rest : List WaitResult)
    (hhalts : (Table.server acts).haltsIn d.view fds = true) :
    Refines acts d.view (.events fds :: rest)
      ⟨fds.foldl (dispatch acts) d, .stopped, rest⟩ := by
  have htaken : (Table.server acts).taken d.view (batches (.events fds :: rest)) = [fds] := by
    simp only [batches, BatchServer.taken, hhalts, if_true]
  refine ⟨?_, ?_, ?_, ?_, ?_⟩
  · rw [view_dispatchAll]
    exact (BatchServer.outcome_of_halting hhalts _).symm
  · simp [batches, BatchServer.halted, hhalts]
  · intro _
    exact ⟨[], fds, rfl, List.not_mem_nil, htaken⟩
  · intro h
    cases h
  · intro h
    cases h

/-- The `while` loop, from a state in which it is not to stop yet. -/
theorem loop_refines (d : Dispatcher κ) (on : d.stores.loop.running = true)
    (outcomes : List WaitResult) : Refines acts d.view outcomes (loop acts d outcomes) := by
  induction outcomes generalizing d with
  | nil =>
      simp only [loop, on, if_true]
      exact refines_waiting d
  | cons r rest ih =>
      obtain ⟨hinterrupted, hfailed, hevents⟩ := loop_on acts on rest
      cases r with
      | interrupted =>
          rw [hinterrupted]
          exact (ih d on).cons (by simp) rfl rfl rfl
      | failed =>
          rw [hfailed]
          exact refines_failed d rest
      | events fds =>
          rw [hevents fds]
          have hflag := running_dispatchAll acts d fds
          rw [on, Bool.true_and] at hflag
          cases hhalts : (Table.server acts).haltsIn d.view fds with
          | true =>
              rw [hhalts] at hflag
              rw [loop_off hflag]
              exact refines_stopped d fds rest hhalts
          | false =>
              rw [hhalts] at hflag
              apply (ih _ hflag).cons (by simp)
              · rw [view_dispatchAll]
                exact BatchServer.outcome_cons hhalts _
              · rw [view_dispatchAll]
                simp only [batches, BatchServer.halted, hhalts, Bool.false_or]
              · rw [view_dispatchAll]
                simp only [batches, BatchServer.taken, hhalts, Bool.false_eq_true, if_false,
                  List.singleton_append]

/-- `run` calls what the reference dispatcher calls, in the same order, whatever its
callbacks register and wherever they call `stop`. -/
theorem run_refines (acts : Behaviour κ) (s : Stores κ) (outcomes : List WaitResult) :
    Refines acts ⟨s.loop.callbacks, []⟩ outcomes (run acts s outcomes) ∧
      Table.Entered acts ⟨s.loop.callbacks, []⟩ (run acts s outcomes).dispatcher.view := by
  have hrefines : Refines acts ⟨s.loop.callbacks, []⟩ outcomes (run acts s outcomes) :=
    loop_refines ⟨{ s with loop := { s.loop with running := true } }, []⟩ rfl outcomes
  refine ⟨hrefines, ?_⟩
  rw [hrefines.served]
  exact entered_outcome _ _

end Dispatcher

/-! The function `run` against the steps of the thread: each of its runs is one of theirs. -/

namespace Stores

variable {κ : Type} {acts : Behaviour κ} {s t u : Stores κ}

def atPc (s : Stores κ) (pc : LoopPc κ) : Stores κ :=
  { s with loop := { s.loop with pc } }

def resultOf : Op κ → Option WaitResult
  | .run (.result r) => some r
  | _ => none

/-- There is a run of the stores from `s` to `t` in which `epoll_wait` returns `used`. -/
def Leads (s t : Stores κ) (used : List WaitResult) : Prop :=
  ∃ ops, Runs.run step s ops = some t ∧ ops.filterMap resultOf = used

theorem Leads.trans {used more : List WaitResult} (first : Leads s t used)
    (second : Leads t u more) : Leads s u (used ++ more) := by
  obtain ⟨ops, hops, rfl⟩ := first
  obtain ⟨rest, hrest, rfl⟩ := second
  refine ⟨ops ++ rest, ?_, List.filterMap_append⟩
  rw [run_append, hops, Option.bind_some, hrest]

theorem Leads.single (op : Op κ) (h : s.step op = some t) : Leads s t (resultOf op).toList := by
  refine ⟨[op], by simp [Runs.run, h], ?_⟩
  cases hresult : resultOf op <;> simp [hresult]

theorem perform_atPc (s : Stores κ) (pc : LoopPc κ) (action : Action κ) :
    (s.atPc pc).perform action = (s.perform action).atPc pc := by
  cases action with
  | addEvent fd cb permitted => rfl
  | stop => rfl
  | elsewhere kernel =>
      simp only [perform, atPc]
      split
      · next hsame => simp only [hsame, if_true]
      · next hother => simp only [hother, if_false]

theorem leads_actions (s : Stores κ) (pc : LoopPc κ) (actions : List (Action κ)) :
    Leads (s.atPc pc) ((actions.foldl perform s).atPc pc) [] := by
  induction actions generalizing s with
  | nil => exact ⟨[], rfl, rfl⟩
  | cons action rest ih =>
      have hfirst : Leads (s.atPc pc) ((s.perform action).atPc pc) [] :=
        .single (.call action) (congrArg some (perform_atPc s pc action))
      exact hfirst.trans (ih (s.perform action))

end Stores

namespace Dispatcher

open Stores

variable {κ : Type} (acts : Behaviour κ)

theorem leads_dispatch (d : Dispatcher κ) (fd : Int) (rest : List Int) :
    Leads (d.stores.atPc (.batch (fd :: rest))) ((dispatch acts d fd).stores.atPc (.batch rest))
      [] := by
  cases hfound : d.stores.loop.callbacks fd with
  | none =>
      refine .single (.run .next) ?_
      simp [Stores.step, EventLoop.step, EventLoop.dispatch, atPc, hfound, dispatch]
  | some cb =>
      have hcall : Leads (d.stores.atPc (.batch (fd :: rest))) (d.stores.atPc (.callback cb rest))
          [] := by
        refine .single (.run .next) ?_
        simp [Stores.step, EventLoop.step, EventLoop.dispatch, atPc, hfound]
      have hreturn : Leads ((dispatch acts d fd).stores.atPc (.callback cb rest))
          ((dispatch acts d fd).stores.atPc (.batch rest)) [] :=
        .single (.run .ret) rfl
      have hacts := leads_actions d.stores (.callback cb rest) (acts d.trace fd cb)
      have hstores : (dispatch acts d fd).stores =
          (acts d.trace fd cb).foldl perform d.stores := by
        simp only [dispatch, hfound]
      rw [← hstores] at hacts
      exact (hcall.trans hacts).trans hreturn

theorem leads_dispatchAll (d : Dispatcher κ) (fds : List Int) :
    Leads (d.stores.atPc (.batch fds)) ((fds.foldl (dispatch acts) d).stores.atPc .test) [] := by
  induction fds generalizing d with
  | nil => exact .single (.run .next) rfl
  | cons fd rest ih => exact (leads_dispatch acts d fd rest).trans (ih (dispatch acts d fd))

variable {d : Dispatcher κ}

theorem leads_left (off : d.stores.loop.running = false) :
    Leads (d.stores.atPc .test) (d.stores.atPc .left) [] :=
  .single (.run .test) (by simp [Stores.step, EventLoop.step, atPc, off])

theorem leads_waiting (on : d.stores.loop.running = true) :
    Leads (d.stores.atPc .test) (d.stores.atPc .waiting) [] := by
  have htest : Leads (d.stores.atPc .test) (d.stores.atPc .calling) [] :=
    .single (.run .test) (by simp [Stores.step, EventLoop.step, atPc, on])
  exact htest.trans (.single (.run .wait) rfl)

theorem leads_wait (on : d.stores.loop.running = true) (r : WaitResult) :
    Leads (d.stores.atPc .test) (d.stores.atPc (EventLoop.afterWait r)) [r] :=
  (leads_waiting on).trans (.single (.run (.result r)) rfl)

def Exit.pc : Exit → LoopPc κ
  | .waiting => .waiting
  | _ => .left

theorem leads_loop (d : Dispatcher κ) (outcomes : List WaitResult) :
    ∃ used, outcomes = used ++ (loop acts d outcomes).unused ∧
      Leads (d.stores.atPc .test)
        ((loop acts d outcomes).dispatcher.stores.atPc (Exit.pc (loop acts d outcomes).exit))
        used := by
  induction outcomes generalizing d with
  | nil =>
      cases hflag : d.stores.loop.running with
      | false =>
          rw [loop_off hflag]
          exact ⟨[], rfl, leads_left hflag⟩
      | true =>
          simp only [loop, hflag, if_true]
          exact ⟨[], rfl, leads_waiting hflag⟩
  | cons r rest ih =>
      cases hflag : d.stores.loop.running with
      | false =>
          rw [loop_off hflag]
          exact ⟨[], rfl, leads_left hflag⟩
      | true =>
          obtain ⟨hinterrupted, hfailed, hevents⟩ := loop_on acts hflag rest
          have hwait := leads_wait hflag r
          cases r with
          | interrupted =>
              rw [hinterrupted]
              obtain ⟨used, hrest, hleads⟩ := ih d
              exact ⟨.interrupted :: used, congrArg _ hrest, hwait.trans hleads⟩
          | failed =>
              rw [hfailed]
              exact ⟨[.failed], rfl, hwait⟩
          | events fds =>
              rw [hevents fds]
              obtain ⟨used, hrest, hleads⟩ := ih (fds.foldl (dispatch acts) d)
              exact ⟨.events fds :: used, congrArg _ hrest,
                (hwait.trans (leads_dispatchAll acts d fds)).trans hleads⟩

/-- What `run` computes is what the thread's own steps lead to. -/
theorem run_leads {s : Stores κ} (outside : s.loop.pc = .outside) (outcomes : List WaitResult) :
    ∃ used, outcomes = used ++ (run acts s outcomes).unused ∧
      Leads s ((run acts s outcomes).dispatcher.stores.atPc (Exit.pc (run acts s outcomes).exit))
        used := by
  obtain ⟨used, hused, hleads⟩ :=
    leads_loop acts ⟨{ s with loop := { s.loop with running := true } }, []⟩ outcomes
  have henter : Leads s (({ s with loop := { s.loop with running := true } } : Stores κ).atPc .test)
      [] :=
    .single (.run .run) (by simp [Stores.step, EventLoop.step, atPc, outside])
  exact ⟨used, hused, henter.trans hleads⟩

end Dispatcher

end TinyMiddleware.Core
