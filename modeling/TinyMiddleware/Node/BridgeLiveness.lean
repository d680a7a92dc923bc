import TinyMiddleware.Core.ThreadPoolLiveness
import TinyMiddleware.Node.BridgeBatch

/-! A node that is left alone comes to rest with everything delivered. Each signal, each
sample and each readable descriptor is used up by a step of the DDS threads or of the
loop; the rest is the pool's business, which does not let a task starve. -/
namespace TinyMiddleware.Bridge

open TinyMiddleware.Core Runs Fairness

variable {n : Nat} {τ κ μ : Type} {s t : System n τ κ μ}

/-- Who does the node's work: the threads of DDS that owe a call of `on_data_available`,
the thread in `run`, and the workers. That a wait is interrupted or fails is nobody's turn. -/
inductive Thread (n : Nat) where
  | dds
  | loop
  | worker (w : Fin n)

def Event.thread : Event n τ κ μ → Option (Thread n)
  | .onDataAvailable _ => some .dds
  | .loop (.result .interrupted) | .loop (.result .failed) => none
  | .loop _ | .read | .take _ | .enqueue | .notify _ => some .loop
  | .worker e =>
      match e.thread with
      | some (.worker w) => some (.worker w)
      | _ => none
  | _ => none

/-- No new sample, no expiration, and `epoll_wait` neither interrupted nor failing.
Samples may still be evicted. -/
def Event.quiet : Event n τ κ μ → Bool
  | .insert _ _ | .expire _ | .loop (.result .interrupted) | .loop (.result .failed) => false
  | _ => true

theorem thread_of_quiet {e : EventLoop.Event}
    (quiet : (Event.loop e : Event n τ κ μ).quiet = true) :
    (Event.loop e : Event n τ κ μ).thread = some .loop := by
  cases e with
  | result r =>
      cases r with
      | events => rfl
      | interrupted | failed => cases quiet
  | _ => rfl

/-- The node with only some of its events. -/
abbrev only (typeName : τ → String) (allowed : Event n τ κ μ → Bool) :
    System n τ κ μ → Event n τ κ μ → Option (System n τ κ μ) :=
  restrict (step typeName) fun _ e => allowed e = true

def quietStep (typeName : τ → String) : System n τ κ μ → Event n τ κ μ → Option (System n τ κ μ) :=
  restrict (step typeName) fun _ e => e.quiet = true

def Scheduled {typeName : τ → String}
    (x : Execution (quietStep (n := n) (κ := κ) (μ := μ) typeName)) : Prop :=
  ∀ thread, x.StronglyFair fun e => e.thread = some thread

/-- `run` has been called and has not been stopped. -/
structure Up (s : System n τ κ μ) : Prop where
  entered : s.node.loop.pc ≠ .outside
  inRun : s.node.loop.pc ≠ .left
  running : s.node.loop.running = true

/-- Nothing is left for the bridge to do. -/
structure Drained (s : System n τ κ μ) : Prop where
  signals : ∀ r, s.signals r = 0
  history : ∀ r, s.history r = []
  silent : ∀ fd, s.node.kernel.readable fd = false
  idle : current s.node = none

theorem Up.pending (h : Up s) (hw : Wiring s) : s.pending = none := by
  rw [Option.eq_none_iff_forall_not_mem]
  intro handler hpending
  exact h.entered (hw.waiting handler hpending).1

theorem quietStep_eq_some {typeName : τ → String} {e : Event n τ κ μ} :
    quietStep typeName s e = some t ↔ e.quiet = true ∧ step typeName s e = some t :=
  restrict_eq_some

theorem Up.step {typeName : τ → String} (h : Up s) (hw : Wiring s) {e : Event n τ κ μ}
    (hstep : quietStep typeName s e = some t) : Up t := by
  obtain ⟨hquiet, hstep⟩ := quietStep_eq_some.mp hstep
  cases moves hstep with
  | subscribed _ _ _ _ _ _ _ outside | timerStarted _ _ _ _ outside =>
      exact absurd outside h.entered
  | registered handler waits => exact absurd (hw.waiting handler waits).1 h.entered
  | looped e loop may move =>
      cases move with
      | entered here => exact absurd here h.entered
      | ended here off => exact absurd (off.symm.trans h.running) (by simp)
      | woken r here =>
          cases r with
          | events fds => exact ⟨by simp [withLoop, EventLoop.afterWait],
              by simp [withLoop, EventLoop.afterWait], h.running⟩
          | interrupted | failed => cases hquiet
      | looped | waits | batchDone | called | skipped | returned =>
          exact ⟨by simp [withLoop], by simp [withLoop], h.running⟩
  | read handler =>
      have hloop := (sameWiring_read (s := s) handler).loop
      exact ⟨hloop ▸ h.entered, hloop ▸ h.inRun, hloop ▸ h.running⟩
  | _ => exact ⟨h.entered, h.inRun, h.running⟩

section Rank

open scoped BigOperators

def owedSignals (s : System n τ κ μ) : Nat :=
  ∑ r ∈ Finset.range s.node.readers.length, s.signals r

def unread (s : System n τ κ μ) : Nat :=
  ∑ r ∈ Finset.range s.node.readers.length, (s.history r).length

def readables (s : System n τ κ μ) : Finset Int :=
  s.node.kernel.interest.filter fun fd => 0 < s.node.kernel.counter fd

/-- How far a handler is from its end, apart from the samples it will take. At the entry
there is a counter to read first. -/
def HandlerPc.way : HandlerPc κ μ → Nat
  | .entry => 1
  | .done => 7
  | .draining => 8
  | .notifying => 9
  | .enqueueing _ => 10

/-- How far the loop is from reading the next counter, or from waiting again. -/
def place (pc : LoopPc (Handler τ κ)) (handlerPc : HandlerPc κ μ) : Nat :=
  match pc with
  | .outside | .left => 0
  | .test => 5
  | .calling => 4
  | .waiting => 3
  | .batch [] => 6
  | .batch (_ :: _) => 2
  | .callback _ _ => handlerPc.way

def drainRank (s : System n τ κ μ) : Nat ×ₗ Nat ×ₗ Nat ×ₗ Nat :=
  toLex (owedSignals s,
    toLex (unread s, toLex ((readables s).card, place s.node.loop.pc s.handlerPc)))

theorem drainRank_lt_iff : drainRank t < drainRank s ↔
    owedSignals t < owedSignals s ∨ owedSignals t = owedSignals s ∧
      (unread t < unread s ∨ unread t = unread s ∧
        ((readables t).card < (readables s).card ∨ (readables t).card = (readables s).card ∧
          place t.node.loop.pc t.handlerPc < place s.node.loop.pc s.handlerPc)) := by
  unfold drainRank
  simp only [Prod.Lex.toLex_lt_toLex]

private theorem sum_update_lt {f : Nat → Nat} {m i v : Nat} (hi : i < m) (hv : v < f i) :
    ∑ j ∈ Finset.range m, Function.update f i v j < ∑ j ∈ Finset.range m, f j := by
  apply Finset.sum_lt_sum
  · intro j _
    by_cases hj : j = i
    · subst hj
      rw [Function.update_self]
      exact hv.le
    · rw [Function.update_of_ne hj]
  · exact ⟨i, Finset.mem_range.mpr hi, by rwa [Function.update_self]⟩

private theorem unread_lt {reader i : Nat} (known : reader < s.node.readers.length)
    (present : i < (s.history reader).length) :
    ∑ r ∈ Finset.range s.node.readers.length,
      (Function.update s.history reader ((s.history reader).eraseIdx i) r).length < unread s := by
  have hshorter : ((s.history reader).eraseIdx i).length < (s.history reader).length := by
    rw [List.length_eraseIdx_of_lt present]
    omega
  have hlength : ∀ r, (Function.update s.history reader ((s.history reader).eraseIdx i) r).length =
      Function.update (fun r => (s.history r).length) reader
        ((s.history reader).eraseIdx i).length r := by
    intro r
    by_cases hr : r = reader
    · subst hr
      simp only [Function.update_self]
    · simp only [Function.update_of_ne hr]
  simp only [hlength]
  exact sum_update_lt known hshorter

theorem counter_read_self (s : System n τ κ μ) (handler : Handler τ κ) :
    (read s handler).node.kernel.counter handler.fd = 0 := by
  cases handler with
  | subscription msgType reader callback efd => simp [read, withKernel, Handler.fd]
  | timer callback tfd =>
      by_cases hdue : 0 < s.node.kernel.counter tfd
      · simp [read, hdue, withKernel, Handler.fd]
      · rw [read_failed (Nat.eq_zero_of_not_pos hdue)]
        exact Nat.eq_zero_of_not_pos hdue

theorem current_ahead {handler : Handler τ κ} (inside : current s.node = some handler) :
    handler.fd ∈ ahead s := by
  obtain ⟨rest, hpc⟩ := current_eq_some.mp inside
  unfold ahead
  rw [hpc]
  exact List.mem_cons_self

/-- A handler that has just been entered has something to read. -/
theorem Due.readable (h : Due s) {handler : Handler τ κ} (inside : current s.node = some handler)
    (here : s.handlerPc = .entry) : s.node.kernel.readable handler.fd = true := by
  obtain hreadable | ⟨hplace, -⟩ := h.due _ (current_ahead inside)
  · exact hreadable
  · exact absurd here hplace

theorem readables_read (h : Due s) {handler : Handler τ κ} (inside : current s.node = some handler)
    (here : s.handlerPc = .entry) : (readables (read s handler)).card < (readables s).card := by
  have hreadable := (Kernel.readable_iff _ _).mp (h.readable inside here)
  apply Finset.card_lt_card
  rw [Finset.ssubset_iff_of_subset]
  · refine ⟨handler.fd, Finset.mem_filter.mpr hreadable, ?_⟩
    simp [readables, counter_read_self]
  · intro fd hfd
    obtain ⟨hmem, hpos⟩ := Finset.mem_filter.mp hfd
    rw [(sameWiring_read handler).interest] at hmem
    refine Finset.mem_filter.mpr ⟨hmem, ?_⟩
    by_cases hown : handler.fd = fd
    · rw [← hown, counter_read_self] at hpos
      exact absurd hpos (Nat.lt_irrefl 0)
    · rwa [counter_read s handler hown] at hpos

/-- A step of the handler that only changes its place. -/
private theorem drainRank_moved (pool : ThreadPool.State n (Task κ μ)) (log : List (Int × Task κ μ))
    {handlerPc : HandlerPc κ μ}
    (h : place s.node.loop.pc handlerPc < place s.node.loop.pc s.handlerPc) :
    drainRank { s with pool := pool, log := log, handlerPc := handlerPc } < drainRank s :=
  drainRank_lt_iff.mpr (Or.inr ⟨rfl, Or.inr ⟨rfl, Or.inr ⟨rfl, h⟩⟩⟩)

theorem place_of_current {handler : Handler τ κ} (inside : current s.node = some handler)
    (handlerPc : HandlerPc κ μ) : place s.node.loop.pc handlerPc = handlerPc.way := by
  obtain ⟨rest, hpc⟩ := current_eq_some.mp inside
  rw [hpc]
  rfl

private theorem drainRank_looped (hd : Due s) (up : Up s) {e : EventLoop.Event}
    {loop : EventLoop (Handler τ κ)} (quiet : (Event.loop e : Event n τ κ μ).quiet = true)
    (may : loopMay s e = true) (move : EventLoop.Moves s.node.loop e loop) :
    drainRank { s with node := withLoop s.node loop, handlerPc := entering s.handlerPc e } <
      drainRank s := by
  refine drainRank_lt_iff.mpr (Or.inr ⟨rfl, Or.inr ⟨rfl, Or.inr ⟨rfl, ?_⟩⟩⟩)
  change place loop.pc (entering s.handlerPc e) < place s.node.loop.pc s.handlerPc
  cases move with
  | entered here => exact absurd here up.entered
  | looped here | ended here | waits here | batchDone here =>
      rw [here]
      simp [place]
  | woken r here =>
      rw [here]
      cases r with
      | interrupted | failed => cases quiet
      | events fds =>
          obtain ⟨fd, rest, rfl⟩ :=
            List.exists_cons_of_ne_nil ((Kernel.mayReport_iff _ _).mp may).1
          simp [place, EventLoop.afterWait]
  | called fd rest cb here =>
      rw [here]
      cases rest <;> simp [place, HandlerPc.way, entering]
  | skipped fd rest here missing =>
      obtain ⟨handler, hfound⟩ := hd.found here
      rw [missing] at hfound
      cases hfound
  | returned cb rest here =>
      have hdone : s.handlerPc = .done := by
        simp only [loopMay] at may
        split at may
        · assumption
        · cases may
      rw [here, hdone]
      cases rest <;> simp [place, HandlerPc.way]

theorem server_lowers {typeName : τ → String} (h : Reachable typeName s) (up : Up s)
    {e : Event n τ κ μ} (server : e.thread = some .dds ∨ e.thread = some .loop)
    (hstep : quietStep typeName s e = some t) : drainRank t < drainRank s := by
  have hd := due h
  obtain ⟨hquiet, hstep⟩ := quietStep_eq_some.mp hstep
  cases moves hstep with
  | subscribed | timerStarted | registered | inserted | evicted | expired =>
      simp [Event.thread] at server
  | worked e pool own =>
      obtain hserver | hserver := server <;> simp only [Event.thread] at hserver <;>
        split at hserver <;> cases hserver
  | signalled reader efd listens owes =>
      have hknown : reader < s.node.readers.length := by
        by_contra hge
        have hzero := (placed h).signals reader (Nat.le_of_not_lt hge)
        omega
      refine drainRank_lt_iff.mpr (Or.inl ?_)
      exact sum_update_lt hknown (by omega)
  | looped e loop may move => exact drainRank_looped hd up hquiet may move
  | read handler inside here =>
      obtain ⟨hhistory, hsignals, -⟩ := read_frame s handler
      have hreaders := (sameWiring_read (s := s) handler).readers
      refine drainRank_lt_iff.mpr (Or.inr ⟨?_, Or.inr ⟨?_, Or.inl (readables_read hd inside here)⟩⟩)
      · unfold owedSignals
        rw [hreaders, hsignals]
      · unfold unread
        rw [hreaders, hhistory]
  | tookNone m r cb efd inside here =>
      apply drainRank_moved s.pool s.log
      rw [place_of_current inside, here, place_of_current inside]
      simp [HandlerPc.way]
  | took m reader cb efd i sample inside here present =>
      have hlt := (List.getElem?_eq_some_iff.mp present).1
      have hknown : reader < s.node.readers.length := by
        by_contra hge
        rw [(noticed h).unused reader (Nat.le_of_not_lt hge)] at hlt
        exact absurd hlt (Nat.not_lt_zero i)
      exact drainRank_lt_iff.mpr (Or.inr ⟨rfl, Or.inl (unread_lt hknown hlt)⟩)
  | enqueued handler task pool inside here =>
      apply drainRank_moved
      rw [place_of_current inside, here, place_of_current inside]
      simp [HandlerPc.way]
  | dropped handler task pool inside here =>
      apply drainRank_moved pool s.log
      rw [place_of_current inside, here, place_of_current inside]
      cases handler <;> simp [HandlerPc.way, afterEnqueue]
  | notified woken handler pool inside here =>
      apply drainRank_moved pool s.log
      rw [place_of_current inside, here, place_of_current inside]
      cases handler <;> simp [HandlerPc.way, afterEnqueue]

theorem others_wait {typeName : τ → String} (h : Reachable typeName s) (up : Up s)
    {e : Event n τ κ μ} (other : ¬ (e.thread = some .dds ∨ e.thread = some .loop))
    (hstep : quietStep typeName s e = some t) : drainRank t ≤ drainRank s := by
  obtain ⟨hquiet, hstep⟩ := quietStep_eq_some.mp hstep
  cases moves hstep with
  | subscribed _ _ _ _ _ _ _ outside | timerStarted _ _ _ _ outside =>
      exact absurd outside up.entered
  | registered handler waits =>
      rw [up.pending (wiring h)] at waits
      cases waits
  | inserted | expired => cases hquiet
  | evicted reader i present =>
      have hknown : reader < s.node.readers.length := by
        by_contra hge
        rw [(noticed h).unused reader (Nat.le_of_not_lt hge)] at present
        exact absurd present (Nat.not_lt_zero i)
      apply le_of_lt
      exact drainRank_lt_iff.mpr (Or.inr ⟨rfl, Or.inl (unread_lt hknown present)⟩)
  | worked => exact le_rfl
  | looped => exact absurd (Or.inr (thread_of_quiet hquiet)) other
  | _ => simp [Event.thread] at other

end Rank

theorem listenerFd_isSome (hw : Wiring s) {r : Nat} (known : r < s.node.readers.length) :
    ∃ efd, listenerFd s.node r = some efd := by
  have hlistener := hw.listens r _ (List.getElem?_eq_getElem known)
  unfold listenerFd
  rw [List.getElem?_eq_getElem known]
  exact ⟨_, List.getElem?_eq_getElem hlistener⟩

section Enabling

variable {typeName : τ → String} {allowed : Event n τ κ μ → Bool}

theorem enabled_of_fires (admits : ∀ e : Event n τ κ μ, e.quiet = true → allowed e = true)
    {own : Event n τ κ μ → Prop} (e : Event n τ κ μ) (he : own e) (quiet : e.quiet = true)
    (fires : (step typeName s e).isSome = true) : Enabled (only typeName allowed) own s := by
  obtain ⟨t, ht⟩ := Option.isSome_iff_exists.mp fires
  exact ⟨e, t, he, restrict_eq_some.mpr ⟨admits e quiet, ht⟩⟩

theorem dds_enabled (admits : ∀ e : Event n τ κ μ, e.quiet = true → allowed e = true)
    (h : Reachable typeName s) {r : Nat} (owes : 0 < s.signals r) :
    Enabled (only typeName allowed) (fun e => e = .onDataAvailable r) s := by
  have hknown : r < s.node.readers.length := by
    by_contra hge
    have hzero := (placed h).signals r (Nat.le_of_not_lt hge)
    omega
  obtain ⟨efd, hefd⟩ := listenerFd_isSome (wiring h) hknown
  refine enabled_of_fires admits (.onDataAvailable r) rfl rfl ?_
  simp only [step, hefd, owes, if_true, Option.isSome_some]

/-- In a handler the thread of the loop can go on, but for the pool's mutex. -/
theorem handler_enabled (admits : ∀ e : Event n τ κ μ, e.quiet = true → allowed e = true)
    (h : Reachable typeName s) {handler : Handler τ κ} (inside : current s.node = some handler)
    (free : ∀ task, s.handlerPc = .enqueueing task → s.pool.queueMutex = none) :
    Enabled (only typeName allowed) (fun e => e.thread = some .loop) s := by
  obtain ⟨rest, hpc⟩ := current_eq_some.mp inside
  cases here : s.handlerPc with
  | entry =>
      refine enabled_of_fires admits .read rfl rfl ?_
      simp only [step, inside, here, Option.isSome_some]
  | draining =>
      obtain ⟨m, reader, callback, efd, rfl⟩ := (placed h).drains here handler inside
      obtain ⟨r, rfl, -⟩ := (wiring h).bound _ _ _ _ ((wiring h).known_current inside)
      cases hhistory : s.history r with
      | nil =>
          refine enabled_of_fires admits (.take none) rfl rfl ?_
          simp [step, inside, here, take, hhistory]
      | cons sample more =>
          refine enabled_of_fires admits (.take (some 0)) rfl rfl ?_
          simp [step, inside, here, take, hhistory]
  | enqueueing task =>
      have hpool : ∃ pool, ThreadPool.step s.pool (.enqueue task) = some pool := by
        simp only [ThreadPool.step, free task here, if_true]
        split <;> exact ⟨_, rfl⟩
      obtain ⟨pool, hpool⟩ := hpool
      refine enabled_of_fires admits .enqueue rfl rfl ?_
      simp [step, inside, here, hpool]
  | notifying =>
      have howes : s.pool.owed = 1 := by rw [(placed h).owes, here]
      obtain ⟨woken, pool, hpool⟩ :=
        ThreadPool.notifyOne_isSome { s.pool with owed := s.pool.owed - 1 }
      have hnotify : ThreadPool.step s.pool (.notify woken) = some pool := by
        have hpos : 0 < s.pool.owed := by omega
        simp only [ThreadPool.step, hpos, if_true]
        exact hpool
      refine enabled_of_fires admits (.notify woken) rfl rfl ?_
      simp [step, inside, here, hnotify]
  | done =>
      refine enabled_of_fires admits (.loop .ret) rfl rfl ?_
      simp [step, loopMay, here, EventLoop.step, hpc]

/-- What a worker of the pool can do, it can do in the node. -/
theorem worker_enabled (admits : ∀ e : Event n τ κ μ, e.quiet = true → allowed e = true)
    (h : Reachable typeName s) {w : Fin n}
    (can : Enabled ThreadPool.step (fun e => e.thread = some (.worker w)) s.pool) :
    Enabled (only typeName allowed) (fun e => e.thread = some (.worker w)) s := by
  obtain ⟨e, pool, hown, hstep⟩ := can
  have hplain := plain h
  have same : workerStep e = true →
      Enabled (only typeName allowed) (fun e => e.thread = some (.worker w)) s := by
    intro hworker
    refine enabled_of_fires admits (.worker e) ?_ rfl ?_
    · simp only [Event.thread, hown]
    · simp [step, hworker, hstep]
  cases ThreadPool.moves hstep with
  | enqueueDropped | enqueued | notified | notifiedNobody | woken | stopSet | notifiedAll |
      joined | destroyed => cases hown
  | locked | left | popped | idle | blocked | finished => exact same rfl
  | invoked v calls k task here =>
      cases hown
      refine enabled_of_fires admits (.worker (.invoke w [])) rfl rfl ?_
      simp [step, workerStep, ThreadPool.step, here]
  | callDropped v k task new calls here | called v k task new calls here =>
      have hcalls := hplain v
      rw [here] at hcalls
      cases hcalls
  | callNotified v _ k task calls here | callNotifiedNobody v k task calls here =>
      have hcalls := hplain v
      rw [here] at hcalls
      cases hcalls

/-- A handler that is about to enqueue stays there while a worker has the mutex, and
the worker hands it back. -/
theorem enqueue_waits {e : Event n τ κ μ} {handler : Handler τ κ}
    {task : Task κ μ} {v : Fin n} (h : Reachable typeName s)
    (inside : current s.node = some handler) (here : s.handlerPc = .enqueueing task)
    (busy : s.pool.queueMutex = some v) (hstep : step typeName s e = some t) :
    (current t.node = some handler ∧ t.handlerPc = .enqueueing task) ∧
      (t.pool.queueMutex = none ∨ t.pool.queueMutex = some v ∧
        (e.thread = some (.worker v) →
          (t.pool.workers v).toRelease < (s.pool.workers v).toRelease) ∧
        (e.thread ≠ some (.worker v) → t.pool.workers v = s.pool.workers v)) := by
  have hcontrol := ThreadPool.control (pool_reachable h)
  have outside : s.node.loop.pc ≠ .outside := by
    obtain ⟨rest, hpc⟩ := current_eq_some.mp inside
    simp [hpc]
  cases moves hstep with
  | subscribed _ _ _ _ _ _ _ hout | timerStarted _ _ _ _ hout => exact absurd hout outside
  | registered other waits => exact absurd ((wiring h).waiting other waits).1 outside
  | inserted | expired | evicted | signalled =>
      exact ⟨⟨inside, here⟩, Or.inr ⟨busy, by simp [Event.thread], fun _ => rfl⟩⟩
  | looped e loop may move =>
      obtain ⟨rest, hpc⟩ := current_eq_some.mp inside
      cases move with
      | returned =>
          simp [loopMay, here] at may
      | entered hat | looped hat | ended hat | waits hat | woken _ hat | batchDone hat
      | called _ _ _ hat | skipped _ _ hat =>
          rw [hpc] at hat
          cases hat
  | read _ _ hat | tookNone _ _ _ _ _ hat | took _ _ _ _ _ _ _ hat | notified _ _ _ _ hat =>
      rw [here] at hat
      cases hat
  | enqueued _ _ pool _ _ _ move | dropped _ _ pool _ _ _ move =>
      cases ThreadPool.moves move with
      | enqueueDropped _ free | enqueued _ free => exact absurd (busy.symm.trans free) (by simp)
  | worked e pool own move =>
      refine ⟨⟨inside, here⟩, ?_⟩
      obtain hfree | ⟨hheld, hlower, hsame⟩ :=
        ThreadPool.mutex_step hcontrol busy (ThreadPool.moves move)
      · exact Or.inl hfree
      · refine Or.inr ⟨hheld, fun hown => hlower ?_, fun hother => hsame ?_⟩
        · simp only [Event.thread] at hown
          split at hown
          · next w hw =>
              cases hown
              exact hw
          · cases hown
        · intro hown
          apply hother
          simp only [Event.thread, hown]

theorem enqueue_recurs (admits : ∀ e : Event n τ κ μ, e.quiet = true → allowed e = true)
    {x : Execution (only typeName allowed)}
    (fair : ∀ w, x.StronglyFair fun e => e.thread = some (.worker w))
    {handler : Handler τ κ} {task : Task κ μ} {v : Fin n} :
    x.LeadsTo (fun s => Reachable typeName s ∧ (current s.node = some handler ∧
        s.handlerPc = .enqueueing task) ∧ s.pool.queueMutex = some v)
      (fun s => Enabled (only typeName allowed) (fun e => e.thread = some .loop) s) := by
  have wants : ∀ s : System n τ κ μ, Reachable typeName s → (current s.node = some handler ∧
      s.handlerPc = .enqueueing task) → s.pool.queueMutex = none →
      Enabled (only typeName allowed) (fun e => e.thread = some .loop) s :=
    fun s h hat hfree => handler_enabled admits h hat.1 fun _ _ => hfree
  have descends : Descends (only typeName allowed) (fun e => e.thread = some (.worker v))
      (fun s => Reachable typeName s ∧ (current s.node = some handler ∧
        s.handlerPc = .enqueueing task) ∧ s.pool.queueMutex = some v)
      (fun s => Enabled (only typeName allowed) (fun e => e.thread = some .loop) s)
      (fun s : System n τ κ μ => (s.pool.workers v).toRelease) := by
    refine ⟨?_, ?_, ?_⟩
    · rintro s e t ⟨h, hat, hbusy⟩ _ hstep
      have ht := h.step (restrict_eq_some.mp hstep).2
      obtain ⟨hkept, hfree | ⟨hheld, -⟩⟩ := enqueue_waits h hat.1 hat.2 hbusy
        (restrict_eq_some.mp hstep).2
      · exact Or.inr (wants t ht hkept hfree)
      · exact Or.inl ⟨ht, hkept, hheld⟩
    · rintro s e t ⟨h, hat, hbusy⟩ _ hown hstep
      have ht := h.step (restrict_eq_some.mp hstep).2
      obtain ⟨hkept, hfree | ⟨-, hlower, -⟩⟩ := enqueue_waits h hat.1 hat.2 hbusy
        (restrict_eq_some.mp hstep).2
      · exact Or.inl (wants t ht hkept hfree)
      · exact Or.inr (hlower hown)
    · rintro s e t ⟨h, hat, hbusy⟩ _ hother hstep
      have ht := h.step (restrict_eq_some.mp hstep).2
      obtain ⟨hkept, hfree | ⟨-, -, hsame⟩⟩ := enqueue_waits h hat.1 hat.2 hbusy
        (restrict_eq_some.mp hstep).2
      · exact Or.inl (wants t ht hkept hfree)
      · exact Or.inr (by rw [hsame hother])
  apply descends.eventually_of_fair (fair v).fair
  rintro s ⟨h, -, hbusy⟩ _
  exact worker_enabled admits h
    (ThreadPool.holder_enabled (ThreadPool.control (pool_reachable h)) hbusy)

end Enabling

/-- With no signal to come and nothing readable, no reader has a sample left. -/
theorem history_of_silent {typeName : τ → String} (h : Reachable typeName s) (up : Up s)
    (idle : current s.node = none) (signals : ∀ r, s.signals r = 0)
    (silent : ∀ fd, s.node.kernel.readable fd = false) (r : Nat) : s.history r = [] := by
  by_contra hunread
  have hknown : r < s.node.readers.length := by
    by_contra hge
    exact hunread ((noticed h).unused r (Nat.le_of_not_lt hge))
  obtain ⟨efd, hefd⟩ := listenerFd_isSome (wiring h) hknown
  obtain hsignal | hcounter | hdraining := (noticed h).noticed r efd hefd hunread
  · rw [signals r] at hsignal
    exact absurd hsignal (Nat.lt_irrefl 0)
  · obtain ⟨m, cb, hmapped | hpending⟩ := (wiring h).served r efd hefd
    · have hreadable := (Kernel.readable_iff _ _).mpr ⟨((wiring h).own _ _ hmapped).2, hcounter⟩
      rw [silent] at hreadable
      cases hreadable
    · rw [up.pending (wiring h)] at hpending
      cases hpending
  · exact not_draining_of_not_current idle efd hdraining

/-- Until the node is drained somebody can go on, unless the loop's thread is waiting for
the pool's mutex. -/
theorem server_enabled {typeName : τ → String} (h : Reachable typeName s) (up : Up s)
    (busy : ¬ Drained s) :
    Enabled (quietStep typeName)
        (fun e => e.thread = some .dds ∨ e.thread = some .loop) s ∨
      ∃ handler task v, current s.node = some handler ∧ s.handlerPc = .enqueueing task ∧
        s.pool.queueMutex = some v := by
  by_cases hsignals : ∃ r, 0 < s.signals r
  · obtain ⟨r, hr⟩ := hsignals
    obtain ⟨e, t, rfl, hstep⟩ : Enabled (only typeName Event.quiet) _ s :=
      dds_enabled (fun _ he => he) h hr
    exact Or.inl ⟨_, t, Or.inl rfl, hstep⟩
  have hnone : ∀ r, s.signals r = 0 := fun r =>
    Nat.eq_zero_of_not_pos fun hr => hsignals ⟨r, hr⟩
  have goesOn : ∀ e : EventLoop.Event, (Event.loop e : Event n τ κ μ).quiet = true →
      loopMay s e = true → (s.node.loop.step e).isSome = true → Enabled (quietStep typeName)
        (fun e => e.thread = some .dds ∨ e.thread = some .loop) s := by
    intro e hquiet hmay hloop
    exact enabled_of_fires (fun _ he => he) (.loop e) (Or.inr (thread_of_quiet hquiet)) hquiet
      (by simpa [step, hmay] using hloop)
  cases hpc : s.node.loop.pc with
  | outside => exact absurd hpc up.entered
  | left => exact absurd hpc up.inRun
  | test => exact Or.inl (goesOn .test rfl rfl (by simp [EventLoop.step, hpc]))
  | calling => exact Or.inl (goesOn .wait rfl rfl (by simp [EventLoop.step, hpc]))
  | batch rest =>
      left
      cases rest <;> exact goesOn .next rfl rfl (by simp [EventLoop.step, hpc])
  | waiting =>
      left
      have hidle : current s.node = none := by
        unfold current
        rw [hpc]
      by_cases hsome : ∃ fd, s.node.kernel.readable fd = true
      · obtain ⟨fd, hfd⟩ := hsome
        refine goesOn (.result (.events [fd])) rfl ?_ (by simp [EventLoop.step, hpc])
        refine (Kernel.mayReport_iff _ _).mpr ⟨by simp, List.nodup_singleton fd, by
          simp [Kernel.maxEvents], ?_⟩
        simpa using hfd
      · have hsilent : ∀ fd, s.node.kernel.readable fd = false := fun fd =>
          Bool.eq_false_iff.mpr fun hfd => hsome ⟨fd, hfd⟩
        exact absurd ⟨hnone, history_of_silent h up hidle hnone hsilent, hsilent, hidle⟩ busy
  | callback handler rest =>
      have hinside : current s.node = some handler := current_eq_some.mpr ⟨rest, hpc⟩
      by_cases hfree : ∀ task, s.handlerPc = .enqueueing task → s.pool.queueMutex = none
      · obtain ⟨e, t, he, hstep⟩ : Enabled (only typeName Event.quiet) _ s :=
          handler_enabled (fun _ he => he) h hinside hfree
        exact Or.inl ⟨e, t, Or.inr he, hstep⟩
      · right
        push Not at hfree
        obtain ⟨task, hplace, hbusy⟩ := hfree
        obtain ⟨v, hv⟩ := Option.ne_none_iff_exists'.mp hbusy
        exact ⟨handler, task, v, hinside, hplace, hv⟩

theorem drained_eventually {typeName : τ → String}
    {x : Execution (quietStep (n := n) (κ := κ) (μ := μ) typeName)} (fair : Scheduled x) :
    x.LeadsTo (fun s => Reachable typeName s ∧ Up s) Drained := by
  have descends : Descends (quietStep typeName)
      (fun e : Event n τ κ μ => e.thread = some .dds ∨ e.thread = some .loop)
      (fun s => Reachable typeName s ∧ Up s) Drained drainRank := by
    refine ⟨?_, ?_, ?_⟩
    · rintro s e t ⟨h, up⟩ _ hstep
      exact Or.inl ⟨h.step (quietStep_eq_some.mp hstep).2, up.step (wiring h) hstep⟩
    · rintro s e t ⟨h, up⟩ _ hserver hstep
      exact Or.inr (server_lowers h up hserver hstep)
    · rintro s e t ⟨h, up⟩ _ hother hstep
      exact Or.inr (others_wait h up hother hstep)
  apply descends.eventually_of_stronglyFair ((fair .dds).or (fair .loop))
  rintro j ⟨⟨h, up⟩, hbusy⟩
  obtain hnow | ⟨handler, task, v, hinside, hplace, hv⟩ := server_enabled h up hbusy
  · exact ⟨j, le_rfl, hnow⟩
  · obtain ⟨i, hij, e, t, he, hstep⟩ :=
      enqueue_recurs (fun _ he => he) (fun w => fair (.worker w)) j ⟨h, ⟨hinside, hplace⟩, hv⟩
    exact ⟨i, hij, e, t, Or.inr he, hstep⟩

theorem Drained.step {typeName : τ → String} (hd : Drained s) (h : Reachable typeName s)
    (up : Up s) {e : Event n τ κ μ} (hstep : quietStep typeName s e = some t) :
    Drained t ∧ t.pool.accepted = s.pool.accepted := by
  have nobody : ∀ handler, current s.node ≠ some handler := by simp [hd.idle]
  obtain ⟨hquiet, hstep⟩ := quietStep_eq_some.mp hstep
  cases moves hstep with
  | subscribed _ _ _ _ _ _ _ outside | timerStarted _ _ _ _ outside =>
      exact absurd outside up.entered
  | registered handler waits => exact absurd ((wiring h).waiting handler waits).1 up.entered
  | inserted | expired => cases hquiet
  | evicted reader i present =>
      rw [hd.history] at present
      exact absurd present (Nat.not_lt_zero i)
  | signalled reader efd listens owes =>
      rw [hd.signals] at owes
      exact absurd owes (Nat.lt_irrefl 0)
  | looped e loop may move =>
      refine ⟨⟨hd.signals, hd.history, hd.silent, ?_⟩, rfl⟩
      cases move with
      | called fd rest cb here =>
          have hfd : fd ∈ ahead s := by
            unfold ahead
            rw [here]
            exact List.mem_cons_self
          obtain hreadable | ⟨-, hcurrent⟩ := (due h).due fd hfd
          · rw [hd.silent] at hreadable
            cases hreadable
          · rw [hd.idle] at hcurrent
            cases hcurrent
      | woken r => cases r <;> rfl
      | _ => rfl
  | read handler inside | enqueued handler _ _ inside | dropped handler _ _ inside
  | notified _ handler _ inside => exact absurd inside (nobody handler)
  | tookNone _ _ _ _ inside | took _ _ _ _ _ _ inside => exact absurd inside (nobody _)
  | worked e pool own move =>
      exact ⟨⟨hd.signals, hd.history, hd.silent, hd.idle⟩, (accepted_worker own move).1⟩

/-- What the pool sees of a step of the node. -/
def poolEvent (s : System n τ κ μ) : Event n τ κ μ → Option (ThreadPool.Event n (Task κ μ))
  | .enqueue =>
      match s.handlerPc with
      | .enqueueing task => some (.enqueue task)
      | _ => none
  | .notify woken => some (.notify woken)
  | .worker e => some e
  | _ => none

theorem poolEvent_matched {typeName : τ → String} {allowed : Event n τ κ μ → Bool}
    (s : System n τ κ μ) (e : Event n τ κ μ) (t : System n τ κ μ)
    (hstep : only typeName allowed s e = some t) :
    Follows ThreadPool.step s.pool t.pool (poolEvent s e) := by
  cases moves (restrict_eq_some.mp hstep).2 with
  | enqueued handler task pool inside here accepting move
  | dropped handler task pool inside here stopped move =>
      simp only [poolEvent, here]
      exact move
  | notified woken handler pool inside here move => exact move
  | worked e pool own move => exact move
  | read handler =>
      obtain ⟨-, -, -, -, hpool⟩ := read_frame s handler
      exact hpool
  | _ => rfl

/-- At rest: nothing is left in a reader, in a counter, in the handlers or in the pool. -/
structure Settled (s : System n τ κ μ) : Prop where
  drained : Drained s
  /-- The pool has got every valid sample taken from a reader, with that reader's callback, -/
  delivered : ∀ msgType r callback efd, Known s (.subscription msgType (some r) callback efd) →
    acceptedFrom s efd = messages callback (s.taken r)
  /-- and has run everything it got, once. -/
  returned : ∀ k < s.pool.accepted.length,
    s.pool.begun.count k = 1 ∧ s.pool.returned.count k = 1

/-- Between pushing a task and notifying the loop's thread does nothing else. -/
theorem notifying_step {typeName : τ → String} (h : Reachable typeName s) {e : Event n τ κ μ}
    (here : s.handlerPc = .notifying) (hstep : step typeName s e = some t) :
    (∃ woken, e = .notify woken) ∨ t.handlerPc = .notifying ∧ e.thread ≠ some .loop := by
  cases moves hstep with
  | notified woken => exact .inl ⟨woken, rfl⟩
  | looped e loop may move =>
      -- it is inside a handler, and not at its end
      obtain ⟨handler, hinside⟩ : ∃ handler, current s.node = some handler := by
        rw [← Option.ne_none_iff_exists']
        intro hidle
        obtain hplace | hplace := (placed h).outside hidle <;> simp [here] at hplace
      obtain ⟨rest, hpc⟩ := current_eq_some.mp hinside
      cases move with
      | returned => simp [loopMay, here] at may
      | entered hat | looped hat | ended hat | waits hat | woken _ hat | batchDone hat
      | called _ _ _ hat | skipped _ _ hat =>
          rw [hpc] at hat
          cases hat
  | worked e pool own =>
      refine .inr ⟨here, fun hloop => ?_⟩
      simp only [Event.thread] at hloop
      split at hloop <;> cases hloop
  | read _ _ hat | tookNone _ _ _ _ _ hat | took _ _ _ _ _ _ _ hat | enqueued _ _ _ _ hat
  | dropped _ _ _ _ hat =>
      rw [here] at hat
      cases hat
  | subscribed | timerStarted | registered | inserted | evicted | signalled | expired =>
      exact .inr ⟨here, by simp [Event.thread]⟩

theorem notify_recurs {typeName : τ → String} {allowed : Event n τ κ μ → Bool}
    (admits : ∀ e : Event n τ κ μ, e.quiet = true → allowed e = true)
    {x : Execution (only typeName allowed)} (loop : x.StronglyFair fun e => e.thread = some .loop)
    {k : Nat} (reach : ∀ j, k ≤ j → Reachable typeName (x.state j))
    (here : (x.state k).handlerPc = .notifying) :
    ∃ j woken, k ≤ j ∧ x.event j = some (.notify woken) := by
  by_contra hnever
  push Not at hnever
  have hstays : ∀ j, k ≤ j → (x.state j).handlerPc = .notifying := by
    intro j hkj
    induction hkj with
    | refl => exact here
    | @step j hkj ih =>
        have hnext := x.next j
        cases hevent : x.event j with
        | none =>
            rw [hevent] at hnext
            rw [Nat.succ_eq_add_one, hnext, ih]
        | some e =>
            rw [hevent] at hnext
            obtain ⟨woken, rfl⟩ | ⟨hkept, -⟩ :=
              notifying_step (reach j hkj) ih (restrict_eq_some.mp hnext).2
            · exact absurd hevent (hnever j woken hkj)
            · exact hkept
  obtain ⟨j, e, hkj, hown, hevent⟩ := loop.fair k fun j hkj => by
    obtain ⟨handler, hinside⟩ : ∃ handler, current (x.state j).node = some handler := by
      rw [← Option.ne_none_iff_exists']
      intro hidle
      obtain hplace | hplace := (placed (reach j hkj)).outside hidle <;>
        simp [hstays j hkj] at hplace
    exact handler_enabled admits (reach j hkj) hinside (by simp [hstays j hkj])
  have hnext := x.next j
  rw [hevent] at hnext
  obtain ⟨woken, rfl⟩ | ⟨-, hother⟩ :=
    notifying_step (reach j hkj) (hstays j hkj) (restrict_eq_some.mp hnext).2
  · exact hnever j woken hkj hevent
  · exact hother hown

/-- The pool in a node finishes everything it gets: its workers and, for the notification,
the loop's thread are treated fairly, and nobody destroys it. -/
theorem tasks_return (positive : 0 < n) {typeName : τ → String}
    {allowed : Event n τ κ μ → Bool}
    (admits : ∀ e : Event n τ κ μ, e.quiet = true → allowed e = true)
    {x : Execution (only typeName allowed)} (loop : x.StronglyFair fun e => e.thread = some .loop)
    (workers : ∀ w, x.StronglyFair fun e => e.thread = some (.worker w)) {k : Nat}
    (start : ∀ j, Reachable typeName (x.state (k + j))) (i : Nat)
    (hi : i < (x.state k).pool.accepted.length) : ∃ j, k ≤ j ∧ i ∈ (x.state j).pool.returned := by
  let y : Execution (ThreadPool.step (n := n) (α := Task κ μ)) :=
    (x.drop k).project System.pool poolEvent poolEvent_matched
  have reach : ∀ j, ThreadPool.Reachable (y.state j) := fun j => pool_reachable (start j)
  have sees : ∀ w (s : System n τ κ μ) (e : Event n τ κ μ), e.thread = some (.worker w) →
      ∃ d, poolEvent s e = some d ∧ d.thread = some (.worker w) := by
    intro w s e he
    cases e with
    | worker d =>
        refine ⟨d, rfl, ?_⟩
        simp only [Event.thread] at he
        split at he
        · next v hv =>
            cases he
            exact hv
        · cases he
    | loop l =>
        cases l with
        | result r => cases r <;> cases he
        | _ => cases he
    | _ => cases he
  have fairWorkers : ∀ w, y.StronglyFair fun e => e.thread = some (.worker w) := fun w =>
    ((workers w).drop k).project (fun j => worker_enabled admits (start j)) (sees w)
  have served : y.Fair fun e => ∃ thread, e.thread = some thread := by
    intro m always
    by_contra hnever
    push Not at hnever
    -- no worker moves any more, so from some moment on none can
    obtain ⟨b, hmb, hstuck⟩ : ∃ b, m ≤ b ∧ ∀ j, b ≤ j →
        ¬ Enabled ThreadPool.step (fun e => ∃ w, e.thread = some (.worker w)) (y.state j) := by
      by_contra hrecurs
      push Not at hrecurs
      obtain ⟨j, e, hmj, ⟨w, hw⟩, hevent⟩ :=
        Execution.stronglyFair_of_threads fairWorkers m hrecurs
      exact hnever j e hmj ⟨_, hw⟩ hevent
    have owes : ∀ j, b ≤ j → ((x.drop k).state j).handlerPc = .notifying ∧
        ∃ v, (y.state j).workers v = .blocked := by
      intro j hbj
      obtain ⟨e, pool, ⟨thread, hthread⟩, hstep⟩ := always j (hmb.trans hbj)
      cases thread with
      | worker w => exact absurd ⟨e, pool, ⟨w, hthread⟩, hstep⟩ (hstuck j hbj)
      | destructor =>
          have hopen : (y.state j).dtor = .notCalled := by
            by_contra hcalled
            have hstop := (ThreadPool.control (reach j)).stopping.mpr hcalled
            rw [show (y.state j).stop = false from (sequenced (start j)).accepting] at hstop
            cases hstop
          cases ThreadPool.moves hstep with
          | notifiedAll after => rw [hopen] at after; cases after
          | joined _ _ here => rw [hopen] at here; cases here
          | destroyed _ _ here => rw [hopen] at here; cases here
          | _ => cases hthread
      | notifier =>
          cases ThreadPool.moves hstep with
          | notified v howed hasleep =>
              refine ⟨?_, v, hasleep⟩
              have hplace := (placed (start j)).owes ▸ howed
              split at hplace
              · assumption
              · exact absurd hplace (Nat.lt_irrefl 0)
          | _ => cases hthread
    obtain ⟨j, woken, hbj, hevent⟩ := notify_recurs admits (loop.drop k)
      (fun j _ => start j) (owes b le_rfl).1
    have hseen : y.event j = some (.notify woken) := by
      change ((x.drop k).event j).bind (poolEvent ((x.drop k).state j)) = _
      rw [hevent]
      rfl
    cases woken with
    | some v => exact hnever j _ (hmb.trans hbj) ⟨.notifier, rfl⟩ hseen
    | none =>
        have hnext := y.next j
        rw [hseen] at hnext
        obtain ⟨v, hasleep⟩ := (owes j hbj).2
        have hnobody := ThreadPool.nobody_of_notify hnext v
        rw [hasleep] at hnobody
        cases hnobody
  obtain ⟨j, -, -, hreturned⟩ :=
    ThreadPool.returns_of_reachable positive reach ⟨fairWorkers, served⟩ i 0 hi
  exact ⟨k + j, Nat.le_add_right k j, List.count_pos_iff.mp (hreturned ▸ Nat.one_pos)⟩

theorem ran_once {typeName : τ → String} (h : Reachable typeName s) {i : Nat}
    (done : i ∈ s.pool.returned) : s.pool.begun.count i = 1 ∧ s.pool.returned.count i = 1 := by
  have hs := ThreadPool.accounts (pool_reachable h)
  exact ⟨List.count_eq_one_of_mem hs.begunNodup (hs.returnedBegun i done),
    List.count_eq_one_of_mem hs.sound.closed_nodup done⟩

theorem returned_kept {typeName : τ → String} {allowed : Event n τ κ μ → Bool}
    {e : Event n τ κ μ} {i : Nat} (done : i ∈ s.pool.returned)
    (hstep : only typeName allowed s e = some t) : i ∈ t.pool.returned := by
  have hmatched := poolEvent_matched s e t hstep
  cases hseen : poolEvent s e with
  | none =>
      rw [hseen] at hmatched
      rw [show t.pool = s.pool from hmatched]
      exact done
  | some d =>
      rw [hseen] at hmatched
      exact ThreadPool.returned_kept done (ThreadPool.moves hmatched)

/-- From any reachable state on, if nothing new comes in, every fair execution comes to
rest with every sample taken or evicted, and every callback that is due run once. -/
theorem quiet_node_settles (positive : 0 < n) {typeName : τ → String}
    {x : Execution (quietStep (n := n) (κ := κ) (μ := μ) typeName)} (fair : Scheduled x) :
    x.LeadsTo (fun s => Reachable typeName s ∧ Up s) Settled := by
  intro k hk
  obtain ⟨a, hka, hdrained⟩ := drained_eventually fair k hk
  have keep : ∀ s e t, (Reachable typeName s ∧ Up s) → quietStep (n := n) (κ := κ) (μ := μ)
      typeName s e = some t → Reachable typeName t ∧ Up t :=
    fun s e t hs hstep =>
      ⟨hs.1.step (quietStep_eq_some.mp hstep).2, hs.2.step (wiring hs.1) hstep⟩
  have ha := x.keeps keep hk hka
  have rest : ∀ j, a ≤ j → (Reachable typeName (x.state j) ∧ Up (x.state j)) ∧
      Drained (x.state j) ∧ (x.state j).pool.accepted = (x.state a).pool.accepted := by
    intro j haj
    refine x.keeps (I := fun s => (Reachable typeName s ∧ Up s) ∧ Drained s ∧
      s.pool.accepted = (x.state a).pool.accepted) ?_ ⟨ha, hdrained, rfl⟩ haj
    rintro s e t ⟨hs, hd, hsame⟩ hstep
    obtain ⟨ht, haccepted⟩ := hd.step hs.1 hs.2 hstep
    exact ⟨keep s e t hs hstep, ht, haccepted.trans hsame⟩
  obtain ⟨b, hab, hreturned⟩ := Execution.eventually_all (x := x) (k := a)
    (fun i s => i ∈ s.pool.returned)
    (fun i j j' hjj' hi => x.keeps (fun _ _ _ hdone hstep => returned_kept hdone hstep) hi hjj')
    (tasks_return positive (fun _ he => he) (fair .loop) (fun w => fair (.worker w)) fun j =>
      (rest _ (Nat.le_add_right a j)).1.1)
  obtain ⟨⟨hreach, -⟩, hd, haccepted⟩ := rest b hab
  refine ⟨b, hka.trans hab, hd, ?_, ?_⟩
  · intro msgType r callback efd hknown
    have hpaired := (sequenced hreach).paired msgType r callback efd hknown
    rw [inFlight_of_not_current hd.idle, List.append_nil] at hpaired
    exact hpaired
  · intro i hi
    rw [haccepted] at hi
    exact ran_once hreach (hreturned i hi)

/-- A drained node whose loop waits and whose workers sleep stays as it is. -/
theorem not_enabled_of_drained {typeName : τ → String} (h : Reachable typeName s)
    (hd : Drained s) (waits : s.node.loop.pc = .waiting)
    (asleep : ∀ w, s.pool.workers w = .blocked) (thread : Thread n) :
    ¬ Enabled (quietStep typeName) (fun e => e.thread = some thread) s := by
  have nobody : ∀ handler, current s.node ≠ some handler := by simp [hd.idle]
  rintro ⟨e, t, hthread, hstep⟩
  obtain ⟨hquiet, hstep⟩ := quietStep_eq_some.mp hstep
  cases moves hstep with
  | subscribed | timerStarted | registered | inserted | evicted | expired => cases hthread
  | signalled reader efd listens owes =>
      rw [hd.signals] at owes
      exact absurd owes (Nat.lt_irrefl 0)
  | looped e loop may move =>
      cases move with
      | woken r =>
          cases r with
          | interrupted | failed => cases hquiet
          | events fds =>
              obtain ⟨hsome, -, -, hreadable⟩ := (Kernel.mayReport_iff _ _).mp may
              obtain ⟨fd, rest, rfl⟩ := List.exists_cons_of_ne_nil hsome
              have hfd := hreadable fd List.mem_cons_self
              rw [hd.silent] at hfd
              cases hfd
      | entered hat | looped hat | ended hat | waits hat | batchDone hat | called _ _ _ hat
      | skipped _ _ hat | returned _ _ hat =>
          rw [waits] at hat
          cases hat
  | read handler inside | enqueued handler _ _ inside | dropped handler _ _ inside
  | notified _ handler _ inside => exact absurd inside (nobody handler)
  | tookNone _ _ _ _ inside | took _ _ _ _ _ _ inside => exact absurd inside (nobody _)
  | worked e pool own move =>
      have hidle : s.pool.owed = 0 := by
        obtain hplace | hplace := (placed h).outside hd.idle <;>
          exact (placed h).owes.trans (by rw [hplace])
      have hup : s.pool.dtor = .notCalled := by
        by_contra hcalled
        have hstop := (ThreadPool.control (pool_reachable h)).stopping.mpr hcalled
        rw [(sequenced h).accepting] at hstop
        cases hstop
      simp only [Event.thread] at hthread
      split at hthread
      · next w hw =>
          exact ThreadPool.not_enabled_of_asleep asleep hidle hup (.worker w) ⟨e, pool, hw, move⟩
      · cases hthread

/-- A sample that came in before `run` was called, and one worker. -/
theorem quiet_node_settles_one :
    ∃ x : Execution (quietStep (n := 1) (τ := Unit) (κ := Nat) (μ := Nat) fun _ => "HelloWorld"),
      (x.state 0).history 0 = [⟨7, true⟩] ∧ ∃ j, 0 ≤ j ∧ Settled (x.state j) := by
  obtain ⟨s, t, hbefore, hquiet, hhistory, hup, hdrained, hwaits, hasleep⟩ :
      ∃ s t : System 1 Unit Nat Nat,
        run (step fun _ => "HelloWorld") (init 1 Unit Nat Nat)
          [.subscribe 5 () "chatter" 10, .register, .insert 0 ⟨7, true⟩, .loop .run] = some s ∧
        run (quietStep fun _ => "HelloWorld") s
          [.onDataAvailable 0, .loop .test, .loop .wait, .loop (.result (.events [5])),
            .loop .next, .read, .take (some 0), .enqueue, .notify none, .take none, .loop .ret,
            .loop .next, .loop .test, .loop .wait, .worker (.lock 0), .worker (.test 0),
            .worker (.invoke 0 []), .worker (.finish 0), .worker (.lock 0), .worker (.test 0),
            .worker (.block 0)] = some t ∧
        s.history 0 = [⟨7, true⟩] ∧ Up s ∧ Drained t ∧ t.node.loop.pc = .waiting ∧
          ∀ w, t.pool.workers w = .blocked := by
    refine ⟨_, _, rfl, rfl, rfl, ⟨?_, ?_, rfl⟩, ⟨?_, ?_, ?_, rfl⟩, rfl, Fin.forall_fin_one.mpr rfl⟩
    · intro hpc
      cases hpc
    · intro hpc
      cases hpc
    · intro r
      cases r <;> rfl
    · intro r
      cases r <;> rfl
    · intro fd
      rw [Bool.eq_false_iff, Ne, Kernel.readable_iff]
      rintro ⟨hmem, hpos⟩
      obtain rfl | hmem := Finset.mem_insert.mp hmem
      · exact absurd hpos (Nat.lt_irrefl 0)
      · cases hmem
  have hreach := reachable_of_run hbefore
  have hend : Reachable (fun _ => "HelloWorld") t := by
    refine (reachable_of_run hquiet).keeps hreach ?_
    intro s e t hs hstep
    exact hs.step (quietStep_eq_some.mp hstep).2
  have fair : Scheduled (Execution.ofRun hquiet) := fun thread =>
    Execution.ofRun_stronglyFair hquiet (not_enabled_of_drained hend hdrained hwaits hasleep thread)
  have hstart := Execution.ofRun_start hquiet
  refine ⟨Execution.ofRun hquiet, by rw [hstart, hhistory], ?_⟩
  apply quiet_node_settles Nat.one_pos fair
  rw [hstart]
  exact ⟨hreach, hup⟩

end TinyMiddleware.Bridge
