import TinyMiddleware.Node.BridgeLiveness

/-! A node under load. However much comes in, every sample and every timer is served, as
long as no handler is fed faster than it drains. -/
namespace TinyMiddleware.Bridge

open TinyMiddleware.Core Runs Fairness

variable {n : Nat} {τ κ μ : Type} {s t : System n τ κ μ} {typeName : τ → String}

/-- Everything but an `epoll_wait` that fails: samples and expirations come in all the time. -/
def Event.serving : Event n τ κ μ → Bool
  | .loop (.result .failed) => false
  | _ => true

def reader : Handler τ κ → Option Nat
  | .subscription _ reader _ _ => reader
  | .timer _ _ => none

/-- A new sample for the reader that this handler drains. -/
def feeds (handler : Handler τ κ) : Event n τ κ μ → Bool
  | .insert r _ => decide (reader handler = some r)
  | _ => false

def Reports (fd : Int) : Event n τ κ μ → Prop
  | .loop (.result (.events fds)) => fd ∈ fds
  | _ => False

/-- Each thread gets its turn, each listener is called for its own reader, and
`epoll_wait` goes round the descriptors that are readable. -/
structure FairlyServed (x : Execution (only (n := n) (κ := κ) (μ := μ) typeName Event.serving)) :
    Prop where
  loop : x.StronglyFair fun e => e.thread = some .loop
  workers : ∀ w, x.StronglyFair fun e => e.thread = some (.worker w)
  listeners : ∀ r, x.StronglyFair fun e => e = .onDataAvailable r
  reported : ∀ fd, x.StronglyFair (Reports fd)

/-- A handler that does not come to an end is not fed for ever. -/
def Bounded (x : Execution (only (n := n) (κ := κ) (μ := μ) typeName Event.serving)) : Prop :=
  ∀ k handler, (∀ j, k ≤ j → current (x.state j).node = some handler) →
    ∃ i, k ≤ i ∧ ∀ j e, i ≤ j → x.event j = some e → feeds handler e = false

/-- Where a handler is when it has read a counter that was not zero. -/
def afterRead : Handler τ κ → HandlerPc κ μ
  | .subscription _ _ _ _ => .draining
  | .timer callback _ => .enqueueing (.tick callback)

def Served (s : System n τ κ μ) (fd : Int) : Prop :=
  ∃ handler, current s.node = some handler ∧ handler.fd = fd ∧ s.handlerPc = afterRead handler

theorem serving_of_quiet (e : Event n τ κ μ) (h : e.quiet = true) : e.serving = true := by
  cases e with
  | loop e =>
      cases e with
      | result r => cases r <;> simp_all [Event.quiet, Event.serving]
      | _ => rfl
  | _ => rfl

theorem up_serving (h : Up s) (hw : Wiring s) {e : Event n τ κ μ}
    (serving : e.serving = true) (hstep : step typeName s e = some t) : Up t := by
  by_cases hquiet : e.quiet = true
  · exact h.step hw (quietStep_eq_some.mpr ⟨hquiet, hstep⟩)
  · cases moves hstep with
    | inserted | expired => exact ⟨h.entered, h.inRun, h.running⟩
    | looped e loop may move =>
        cases move with
        | woken r here =>
            cases r with
            | interrupted =>
                exact ⟨by simp [withLoop, EventLoop.afterWait],
                  by simp [withLoop, EventLoop.afterWait], h.running⟩
            | failed => cases serving
            | events => exact absurd rfl hquiet
        | _ => exact absurd rfl hquiet
    | _ => exact absurd rfl hquiet

theorem alive_step (s : System n τ κ μ) (e : Event n τ κ μ) (t : System n τ κ μ)
    (hs : Reachable typeName s ∧ Up s) (hstep : only typeName Event.serving s e = some t) :
    Reachable typeName t ∧ Up t := by
  obtain ⟨hserving, hstep⟩ := restrict_eq_some.mp hstep
  exact ⟨hs.1.step hstep, up_serving hs.2 (wiring hs.1) hserving hstep⟩

section Handlers

/-- How far a handler is from its end, apart from the samples in its reader. -/
def HandlerPc.left : HandlerPc κ μ → Nat
  | .done => 0
  | .draining => 1
  | .notifying => 2
  | .enqueueing _ => 3
  | .entry => 4

def backlog (s : System n τ κ μ) (handler : Handler τ κ) : Nat :=
  (reader handler).elim 0 fun r => (s.history r).length

def handlerRank (handler : Handler τ κ) (s : System n τ κ μ) : Nat ×ₗ Nat :=
  toLex (backlog s handler, s.handlerPc.left)

theorem handlerRank_lt_iff {handler : Handler τ κ} : handlerRank handler t < handlerRank handler s ↔
    backlog t handler < backlog s handler ∨
      backlog t handler = backlog s handler ∧ t.handlerPc.left < s.handlerPc.left := by
  unfold handlerRank
  rw [Prod.Lex.toLex_lt_toLex]

/-- A step of the handler that only changes its place. -/
private theorem handlerRank_moved {handler : Handler τ κ} (pool : ThreadPool.State n (Task κ μ))
    (log : List (Int × Task κ μ)) {handlerPc : HandlerPc κ μ}
    (h : handlerPc.left < s.handlerPc.left) :
    handlerRank handler { s with pool := pool, log := log, handlerPc := handlerPc } <
      handlerRank handler s :=
  handlerRank_lt_iff.mpr (.inr ⟨rfl, h⟩)

/-- A handler goes on until it returns. Its own steps bring it nearer to its end, and
only what feeds it takes it further away. -/
theorem handler_step (hw : Wiring s) {e : Event n τ κ μ} {handler : Handler τ κ}
    (inside : current s.node = some handler) (hstep : step typeName s e = some t) :
    current t.node = none ∨ current t.node = some handler ∧
      (e.thread = some .loop → handlerRank handler t < handlerRank handler s) ∧
      (e.thread ≠ some .loop → feeds handler e = false →
        handlerRank handler t ≤ handlerRank handler s) := by
  obtain ⟨rest, hpc⟩ := current_eq_some.mp inside
  have outside : s.node.loop.pc ≠ .outside := by simp [hpc]
  have here {m : τ} {r : Option Nat} {cb : κ} {efd : Int}
      (hother : current s.node = some (.subscription m r cb efd)) : reader handler = r := by
    rw [inside] at hother
    cases hother
    rfl
  cases moves hstep with
  | subscribed _ _ _ _ _ _ _ hout | timerStarted _ _ _ _ hout => exact absurd hout outside
  | registered other waits => exact absurd (hw.waiting other waits).1 outside
  | inserted r sample =>
      refine .inr ⟨inside, by simp [Event.thread], fun _ hfeeds => ?_⟩
      -- the sample is for another reader
      have hlength : backlog { s with
          history := Function.update s.history r (s.history r ++ [sample])
          signals := Function.update s.signals r (s.signals r + 1) } handler =
            backlog s handler := by
        unfold backlog
        cases hreader : reader handler with
        | none => rfl
        | some own =>
            have hne : own ≠ r := by simpa [feeds, hreader] using hfeeds
            simp [Function.update_of_ne hne]
      unfold handlerRank
      rw [hlength]
  | evicted r i present =>
      refine .inr ⟨inside, by simp [Event.thread], fun _ _ => ?_⟩
      have hlength : backlog { s with
          history := Function.update s.history r ((s.history r).eraseIdx i) } handler ≤
            backlog s handler := by
        unfold backlog
        cases hreader : reader handler with
        | none => exact le_rfl
        | some own =>
            by_cases hr : own = r
            · subst hr
              simpa using (List.length_eraseIdx_le _ _)
            · simp [Function.update_of_ne hr]
      obtain hlt | heq := Nat.lt_or_eq_of_le hlength
      · exact (handlerRank_lt_iff.mpr (.inl hlt)).le
      · unfold handlerRank
        rw [heq]
  | signalled | expired =>
      exact .inr ⟨inside, by simp [Event.thread], fun _ _ => le_rfl⟩
  | worked e pool own =>
      refine .inr ⟨inside, fun hloop => ?_, fun _ _ => le_rfl⟩
      simp only [Event.thread] at hloop
      split at hloop <;> cases hloop
  | looped e loop may move =>
      cases move with
      | returned => exact .inl rfl
      | entered hat | looped hat | ended hat | waits hat | woken _ hat | batchDone hat
      | called _ _ _ hat | skipped _ _ hat =>
          rw [hpc] at hat
          cases hat
  | read other hother hat =>
      rw [inside] at hother
      cases hother
      refine .inr ⟨((sameWiring_read handler).current).trans inside, fun _ => ?_, ?_⟩
      · refine handlerRank_lt_iff.mpr (.inr ⟨?_, ?_⟩)
        · unfold backlog
          rw [(read_frame s handler).1]
        · rw [hat]
          obtain ⟨_, _, _, _, -, hplace⟩ | ⟨_, hplace⟩ | hplace := handlerPc_read s handler <;>
            simp [hplace, HandlerPc.left]
      · simp [Event.thread]
  | tookNone m r cb efd hother hat =>
      refine .inr ⟨inside, fun _ => handlerRank_moved s.pool s.log ?_, by simp [Event.thread]⟩
      simp [hat, HandlerPc.left]
  | took m r cb efd i sample hother hat present =>
      refine .inr ⟨inside, fun _ => handlerRank_lt_iff.mpr (.inl ?_), by simp [Event.thread]⟩
      unfold backlog
      rw [here hother]
      simp only [Option.elim_some, takeSample, Function.update_self]
      rw [List.length_eraseIdx_of_lt (List.getElem?_eq_some_iff.mp present).1]
      have := (List.getElem?_eq_some_iff.mp present).1
      omega
  | enqueued other task pool hother hat =>
      refine .inr ⟨inside, fun _ => handlerRank_moved pool _ ?_, by simp [Event.thread]⟩
      simp [hat, HandlerPc.left]
  | dropped other task pool hother hat =>
      refine .inr ⟨inside, fun _ => handlerRank_moved pool s.log ?_, by simp [Event.thread]⟩
      cases other <;> simp [hat, HandlerPc.left, afterEnqueue]
  | notified woken other pool hother hat =>
      refine .inr ⟨inside, fun _ => handlerRank_moved pool s.log ?_, by simp [Event.thread]⟩
      cases other <;> simp [hat, HandlerPc.left, afterEnqueue]

theorem not_feeds_of_quiet (handler : Handler τ κ) (e : Event n τ κ μ) (h : e.quiet = true) :
    feeds handler e = false := by
  cases e with
  | insert => cases h
  | _ => rfl

/-- A handler that is not fed for ever returns. -/
theorem handler_returns {x : Execution (only (n := n) (κ := κ) (μ := μ) typeName Event.serving)}
    (fair : FairlyServed x) (bounded : Bounded x) :
    x.LeadsTo (fun s => (Reachable typeName s ∧ Up s) ∧ current s.node ≠ none)
      fun s => current s.node = none := by
  rintro k ⟨hk, hbusy⟩
  by_contra hnever
  push Not at hnever
  obtain ⟨handler, hinside⟩ := Option.ne_none_iff_exists'.mp hbusy
  -- it is the same handler all the time
  have hsame : ∀ j, k ≤ j → current (x.state j).node = some handler := by
    intro j hkj
    by_contra hother
    obtain ⟨i, hki, hidle⟩ := x.reached_of_left
      (fun s => (Reachable typeName s ∧ Up s) ∧ current s.node = some handler)
      (fun s => current s.node = none)
      (fun s e t hs hstep => by
        obtain hidle | ⟨hstays, -⟩ :=
          handler_step (wiring hs.1.1) hs.2 (restrict_eq_some.mp hstep).2
        · exact .inr hidle
        · exact .inl ⟨alive_step s e t hs.1 hstep, hstays⟩)
      hkj ⟨hk, hinside⟩ fun h => hother h.2
    exact hnever i hki hidle
  obtain ⟨i, hki, hunfed⟩ := bounded k handler hsame
  -- from `i` on nothing feeds it, and it only gets nearer to its end
  let calm : Event n τ κ μ → Bool := fun e => e.serving && !feeds handler e
  have hcalm : ∀ e, calm e = true ↔ e.serving = true ∧ feeds handler e = false := by
    simp [calm]
  have admits : ∀ e : Event n τ κ μ, e.quiet = true → calm e = true := fun e he =>
    (hcalm e).mpr ⟨serving_of_quiet e he, not_feeds_of_quiet handler e he⟩
  have weaken : ∀ {own : Event n τ κ μ → Prop} (s : System n τ κ μ),
      Enabled (only typeName calm) own s → Enabled (only typeName Event.serving) own s := by
    rintro own s ⟨e, t, hown, hstep⟩
    obtain ⟨he, hstep⟩ := restrict_eq_some.mp hstep
    exact ⟨e, t, hown, restrict_eq_some.mpr ⟨((hcalm e).mp he).1, hstep⟩⟩
  let y : Execution (only typeName calm) := (x.drop i).recast (only typeName calm) <| by
    intro j e t hevent hstep
    obtain ⟨hserving, hstep⟩ := restrict_eq_some.mp hstep
    exact restrict_eq_some.mpr
      ⟨(hcalm e).mpr ⟨hserving, hunfed (i + j) e (Nat.le_add_right i j) hevent⟩, hstep⟩
  have descends : Descends (only typeName calm) (fun e => e.thread = some .loop)
      (fun s => (Reachable typeName s ∧ Up s) ∧ current s.node = some handler)
      (fun s => current s.node = none) (handlerRank handler) := by
    refine ⟨?_, ?_, ?_⟩
    · rintro s e t ⟨hs, hat⟩ _ hstep
      obtain ⟨he, hstep⟩ := restrict_eq_some.mp hstep
      have ht := alive_step s e t hs (restrict_eq_some.mpr ⟨((hcalm e).mp he).1, hstep⟩)
      obtain hidle | ⟨hstays, -⟩ := handler_step (wiring hs.1) hat hstep
      · exact .inr hidle
      · exact .inl ⟨ht, hstays⟩
    · rintro s e t ⟨hs, hat⟩ _ hown hstep
      obtain hidle | ⟨-, hlower, -⟩ :=
        handler_step (wiring hs.1) hat (restrict_eq_some.mp hstep).2
      · exact .inl hidle
      · exact .inr (hlower hown)
    · rintro s e t ⟨hs, hat⟩ _ hother hstep
      obtain ⟨he, hstep⟩ := restrict_eq_some.mp hstep
      obtain hidle | ⟨-, -, hkept⟩ := handler_step (wiring hs.1) hat hstep
      · exact .inl hidle
      · exact .inr (hkept hother ((hcalm e).mp he).2)
  have again : y.LeadsTo (fun s => ((Reachable typeName s ∧ Up s) ∧
      current s.node = some handler) ∧ ¬ current s.node = none)
      fun s => Enabled (only typeName calm) (fun e => e.thread = some .loop) s := by
    rintro j ⟨⟨hs, hat⟩, -⟩
    by_cases hfree : ∀ task, (y.state j).handlerPc = .enqueueing task →
        (y.state j).pool.queueMutex = none
    · exact ⟨j, le_rfl, handler_enabled admits hs.1 hat hfree⟩
    · push Not at hfree
      obtain ⟨task, hplace, hheld⟩ := hfree
      obtain ⟨v, hv⟩ := Option.ne_none_iff_exists'.mp hheld
      exact enqueue_recurs admits
        (fun w => ((fair.workers w).drop i).recast fun s hs => weaken s hs) j
        ⟨hs.1, ⟨hat, hplace⟩, hv⟩
  obtain ⟨j, -, hidle⟩ := descends.eventually_of_stronglyFair
    ((fair.loop.drop i).recast fun s hs => weaken s hs) again 0
    ⟨x.keeps alive_step hk hki, hsame i hki⟩
  exact hnever (i + j) (hki.trans (Nat.le_add_right i j)) hidle

end Handlers

section Loop

/-- How far the loop is from its next `epoll_wait`, handlers counted as one step. -/
def batchRank : LoopPc (Handler τ κ) → Nat
  | .outside | .left | .waiting => 0
  | .calling => 1
  | .test => 2
  | .batch rest => 3 + 2 * rest.length
  | .callback _ rest => 4 + 2 * rest.length

theorem batchRank_looped {e : EventLoop.Event} {loop : EventLoop (Handler τ κ)} (up : Up s)
    (move : EventLoop.Moves s.node.loop e loop) (busy : s.node.loop.pc ≠ .waiting) :
    batchRank loop.pc < batchRank s.node.loop.pc := by
  cases move with
  | entered here => exact absurd here up.entered
  | ended here off => exact absurd (off.symm.trans up.running) (by simp)
  | woken r here => exact absurd here busy
  | looped here | waits here | batchDone here =>
      rw [here]
      simp [batchRank]
  | called _ _ _ here | skipped _ _ here | returned _ _ here =>
      rw [here]
      simp only [batchRank, List.length_cons]
      omega

theorem pc_step {e : Event n τ κ μ} (hstep : step typeName s e = some t) :
    (∃ l, e = .loop l) ∨ t.node.loop.pc = s.node.loop.pc := by
  cases moves hstep with
  | looped e => exact .inl ⟨e, rfl⟩
  | registered handler => exact .inr (by cases handler <;> rfl)
  | read handler => exact .inr (by rw [(sameWiring_read handler).loop])
  | _ => exact .inr rfl

/-- Outside the handlers the thread in `run` makes the steps of the loop only. -/
theorem idle_loop_event {e : Event n τ κ μ} (idle : current s.node = none)
    (own : e.thread = some .loop) (hstep : step typeName s e = some t) : ∃ l, e = .loop l := by
  cases moves hstep with
  | looped l => exact ⟨l, rfl⟩
  | read _ inside | tookNone _ _ _ _ inside | took _ _ _ _ _ _ inside | enqueued _ _ _ inside
  | dropped _ _ _ inside | notified _ _ _ inside =>
      rw [idle] at inside
      cases inside
  | worked =>
      simp only [Event.thread] at own
      split at own <;> cases own
  | _ => cases own

variable {x : Execution (only (n := n) (κ := κ) (μ := μ) typeName Event.serving)}

theorem loop_enabled (up : Up s) (idle : current s.node = none) (busy : s.node.loop.pc ≠ .waiting) :
    Enabled (only (n := n) (κ := κ) (μ := μ) typeName Event.serving)
      (fun e => e.thread = some .loop) s := by
  have goesOn : ∀ e : EventLoop.Event, (Event.loop e : Event n τ κ μ).quiet = true →
      loopMay s e = true → (s.node.loop.step e).isSome = true →
      Enabled (only (n := n) (κ := κ) (μ := μ) typeName Event.serving)
        (fun e => e.thread = some .loop) s := fun e hquiet hmay hloop =>
    enabled_of_fires serving_of_quiet (.loop e) (thread_of_quiet hquiet) hquiet
      (by simpa [step, hmay] using hloop)
  cases hpc : s.node.loop.pc with
  | outside => exact absurd hpc up.entered
  | left => exact absurd hpc up.inRun
  | waiting => exact absurd hpc busy
  | test => exact goesOn .test rfl rfl (by simp [EventLoop.step, hpc])
  | calling => exact goesOn .wait rfl rfl (by simp [EventLoop.step, hpc])
  | batch rest => cases rest <;> exact goesOn .next rfl rfl (by simp [EventLoop.step, hpc])
  | callback handler rest =>
      rw [current_eq_some.mpr ⟨rest, hpc⟩] at idle
      cases idle

theorem loop_goes_on (fair : FairlyServed x) (bounded : Bounded x) {k : Nat}
    (hk : Reachable typeName (x.state k) ∧ Up (x.state k))
    (busy : (x.state k).node.loop.pc ≠ .waiting) : ∃ j l, k ≤ j ∧ x.event j = some (.loop l) := by
  by_contra hnever
  push Not at hnever
  have hsame : ∀ j, k ≤ j → (x.state j).node.loop.pc = (x.state k).node.loop.pc := by
    intro j hkj
    induction hkj with
    | refl => rfl
    | @step j hkj ih =>
        have hnext := x.next j
        cases hevent : x.event j with
        | none =>
            rw [hevent] at hnext
            rw [Nat.succ_eq_add_one, hnext, ih]
        | some e =>
            rw [hevent] at hnext
            obtain ⟨l, rfl⟩ | hpc := pc_step (restrict_eq_some.mp hnext).2
            · exact absurd hevent (hnever j l hkj)
            · exact hpc.trans ih
  have hcurrent : ∀ j, k ≤ j → current (x.state j).node = current (x.state k).node := by
    intro j hkj
    unfold current
    rw [hsame j hkj]
  by_cases hidle : current (x.state k).node = none
  · obtain ⟨j, e, hkj, hown, hevent⟩ := fair.loop.fair k fun j hkj =>
      loop_enabled (x.keeps alive_step hk hkj).2 ((hcurrent j hkj).trans hidle)
        (hsame j hkj ▸ busy)
    have hnext := x.next j
    rw [hevent] at hnext
    have hnobody := (hcurrent j hkj).trans hidle
    obtain ⟨l, rfl⟩ := idle_loop_event hnobody hown (restrict_eq_some.mp hnext).2
    exact hnever j l hkj hevent
  · obtain ⟨j, hkj, hgone⟩ := handler_returns fair bounded k ⟨hk, hidle⟩
    exact hidle ((hcurrent j hkj).symm.trans hgone)

theorem wait_recurs (fair : FairlyServed x) (bounded : Bounded x) :
    x.LeadsTo (fun s => Reachable typeName s ∧ Up s) fun s => s.node.loop.pc = .waiting := by
  have descends : Descends (only (n := n) (κ := κ) (μ := μ) typeName Event.serving)
      (fun e => ∃ l, e = .loop l) (fun s => Reachable typeName s ∧ Up s)
      (fun s => s.node.loop.pc = .waiting) (fun s => batchRank s.node.loop.pc) := by
    refine ⟨?_, ?_, ?_⟩
    · intro s e t hs _ hstep
      exact .inl (alive_step s e t hs hstep)
    · rintro s e t hs hbusy ⟨l, rfl⟩ hstep
      cases moves (restrict_eq_some.mp hstep).2 with
      | looped _ loop _ move => exact .inr (batchRank_looped hs.2 move hbusy)
    · intro s e t _ _ hother hstep
      have hpc := (pc_step (restrict_eq_some.mp hstep).2).resolve_left hother
      exact .inr (hpc ▸ le_rfl)
  intro k hk
  apply descends.eventually x hk
  intro hopen i hki
  obtain ⟨j, l, hij, hevent⟩ := loop_goes_on fair bounded (x.keeps alive_step hk hki) (hopen i hki)
  exact ⟨j, _, hij, ⟨l, rfl⟩, hevent⟩

end Loop

section Serving

/-- The loop comes to this descriptor before it waits again, and reads it then. -/
def Coming (s : System n τ κ μ) (fd : Int) : Prop :=
  match s.node.loop.pc with
  | .batch rest => fd ∈ rest
  | .callback handler rest => handler.fd = fd ∧ s.handlerPc = .entry ∨ fd ∈ rest
  | _ => False

theorem Coming.busy {fd : Int} (h : Coming s fd) : s.node.loop.pc ≠ .waiting := by
  intro hpc
  unfold Coming at h
  rw [hpc] at h
  exact h

/-- What happens outside of `run` leaves its place alone. -/
theorem Coming.frame {fd : Int} (h : Coming s fd) (hpc : t.node.loop.pc = s.node.loop.pc)
    (hplace : s.handlerPc = .entry → t.handlerPc = .entry) : Coming t fd := by
  unfold Coming at h ⊢
  rw [hpc]
  split at h
  · exact h
  · exact h.imp_left (And.imp_right hplace)
  · exact h.elim

/-- Entering a handler, the loop reads what was reported. -/
theorem served_read (hd : Due s) {handler : Handler τ κ} (inside : current s.node = some handler)
    (here : s.handlerPc = .entry) : Served (read s handler) handler.fd := by
  refine ⟨handler, ((sameWiring_read handler).current).trans inside, rfl, ?_⟩
  have hpos := ((Kernel.readable_iff _ _).mp (hd.readable inside here)).2
  cases handler with
  | subscription => rfl
  | timer callback tfd =>
      simp only [Handler.fd] at hpos
      simp [read, hpos, afterRead]

theorem coming_looped (hw : Wiring s) (hd : Due s) {fd : Int} {e : EventLoop.Event}
    {loop : EventLoop (Handler τ κ)} (may : loopMay s e = true)
    (move : EventLoop.Moves s.node.loop e loop) (coming : Coming s fd) :
    Coming { s with node := withLoop s.node loop, handlerPc := entering s.handlerPc e } fd := by
  unfold Coming at coming
  cases move with
  | entered here | looped here | ended here | waits here | woken _ here =>
      rw [here] at coming
      exact coming.elim
  | batchDone here =>
      rw [here] at coming
      cases coming
  | called first rest cb here found =>
      rw [here] at coming
      obtain rfl | hrest := List.mem_cons.mp coming
      · exact .inl ⟨(hw.own fd cb found).1, rfl⟩
      · exact .inr hrest
  | skipped first rest here missing =>
      rw [here] at coming
      obtain rfl | hrest := List.mem_cons.mp coming
      · obtain ⟨handler, hfound⟩ := hd.found here
        rw [missing] at hfound
        cases hfound
      · exact hrest
  | returned cb rest here =>
      rw [here] at coming
      obtain ⟨-, hentry⟩ | hrest := coming
      · simp [loopMay, hentry] at may
      · exact hrest

theorem coming_step (h : Reachable typeName s) (up : Up s) {e : Event n τ κ μ} {fd : Int}
    (coming : Coming s fd) (hstep : step typeName s e = some t) : Coming t fd ∨ Served t fd := by
  cases moves hstep with
  | subscribed _ _ _ _ _ _ _ outside | timerStarted _ _ _ _ outside =>
      exact absurd outside up.entered
  | registered handler waits => exact absurd ((wiring h).waiting handler waits).1 up.entered
  | inserted | evicted | signalled | expired | worked => exact .inl (coming.frame rfl id)
  | looped e loop may move => exact .inl (coming_looped (wiring h) (due h) may move coming)
  | read handler inside here =>
      by_cases hown : handler.fd = fd
      · subst hown
        exact .inr (served_read (due h) inside here)
      · left
        obtain ⟨rest, hpc⟩ := current_eq_some.mp inside
        have hpc' : (read s handler).node.loop.pc = .callback handler rest := by
          rw [(sameWiring_read handler).loop, hpc]
        simp only [Coming, hpc] at coming
        simp only [Coming, hpc']
        exact .inr (coming.resolve_left fun hfirst => hown hfirst.1)
  | tookNone _ _ _ _ _ here | took _ _ _ _ _ _ _ here | enqueued _ _ _ _ here
  | dropped _ _ _ _ here | notified _ _ _ _ here =>
      refine .inl (coming.frame rfl fun hentry => ?_)
      rw [here] at hentry
      cases hentry

theorem coming_reported {e : Event n τ κ μ} {fd : Int} (reports : Reports fd e)
    (hstep : step typeName s e = some t) : Coming t fd := by
  cases moves hstep with
  | looped e loop may move =>
      cases move with
      | woken r =>
          cases r with
          | events fds => exact reports
          | interrupted | failed => exact reports.elim
      | _ => exact reports.elim
  | _ => exact reports.elim

/-- Only its own handler makes a descriptor unreadable. -/
theorem readable_step (h : Reachable typeName s) (up : Up s) {e : Event n τ κ μ} {fd : Int}
    (readable : s.node.kernel.readable fd = true) (hstep : step typeName s e = some t) :
    t.node.kernel.readable fd = true ∨ Served t fd := by
  obtain ⟨hmem, hpos⟩ := (Kernel.readable_iff _ _).mp readable
  cases moves hstep with
  | subscribed _ _ _ _ _ _ _ outside | timerStarted _ _ _ _ outside =>
      exact absurd outside up.entered
  | registered handler waits => exact absurd ((wiring h).waiting handler waits).1 up.entered
  | signalled reader efd =>
      left
      rw [Kernel.readable_iff]
      by_cases hfd : fd = efd
      · subst hfd
        exact ⟨by simpa [withKernel] using hmem, Kernel.eventfdWrite_pos _ _⟩
      · simpa [withKernel, Kernel.counter_eventfdWrite_of_ne _ hfd] using ⟨hmem, hpos⟩
  | expired tfd =>
      left
      rw [Kernel.readable_iff]
      refine ⟨hmem, ?_⟩
      simp only [withKernel, Kernel.counter_setCounter]
      split
      · exact Nat.succ_pos _
      · exact hpos
  | read handler inside here =>
      by_cases hown : handler.fd = fd
      · subst hown
        exact .inr (served_read (due h) inside here)
      · left
        rw [Kernel.readable_iff, (sameWiring_read handler).interest, counter_read s handler hown]
        exact ⟨hmem, hpos⟩
  | _ => exact .inl readable

variable {x : Execution (only (n := n) (κ := κ) (μ := μ) typeName Event.serving)}

theorem coming_served (fair : FairlyServed x) (bounded : Bounded x) (fd : Int) :
    x.LeadsTo (fun s => (Reachable typeName s ∧ Up s) ∧ Coming s fd) fun s => Served s fd := by
  intro k hk
  obtain ⟨j, hkj, hwaits⟩ := wait_recurs fair bounded k hk.1
  refine x.reached_of_left (fun s => (Reachable typeName s ∧ Up s) ∧ Coming s fd)
    (fun s => Served s fd) ?_ hkj hk fun hcoming => hcoming.2.busy hwaits
  rintro s e t ⟨hs, hcoming⟩ hstep
  exact (coming_step hs.1 hs.2 hcoming (restrict_eq_some.mp hstep).2).imp_left
    fun hnext => ⟨alive_step s e t hs hstep, hnext⟩

/-- What is readable is reported in time, and what is reported is read. -/
theorem readable_served (fair : FairlyServed x) (bounded : Bounded x) (fd : Int) :
    x.LeadsTo (fun s => (Reachable typeName s ∧ Up s) ∧ s.node.kernel.readable fd = true)
      fun s => Served s fd := by
  intro k hk
  by_contra hnever
  push Not at hnever
  have hreadable : ∀ j, k ≤ j → (Reachable typeName (x.state j) ∧ Up (x.state j)) ∧
      (x.state j).node.kernel.readable fd = true := by
    intro j hkj
    by_contra hlost
    obtain ⟨i, hki, hserved⟩ := x.reached_of_left
      (fun s => (Reachable typeName s ∧ Up s) ∧ s.node.kernel.readable fd = true)
      (fun s => Served s fd) (fun s e t hs hstep =>
        (readable_step hs.1.1 hs.1.2 hs.2 (restrict_eq_some.mp hstep).2).imp_left
          fun hnext => ⟨alive_step s e t hs.1 hstep, hnext⟩) hkj hk hlost
    exact hnever i hki hserved
  obtain ⟨j, e, hkj, hreports, hevent⟩ := fair.reported fd k fun i hki => by
    obtain ⟨j, hij, hwaits⟩ := wait_recurs fair bounded i (hreadable i hki).1
    refine ⟨j, hij, enabled_of_fires serving_of_quiet (.loop (.result (.events [fd]))) ?_ rfl ?_⟩
    · exact List.mem_singleton_self fd
    · have hmay : (x.state j).node.kernel.mayReport [fd] = true := by
        rw [Kernel.mayReport_iff]
        exact ⟨by simp, List.nodup_singleton fd, by simp [Kernel.maxEvents],
          by simpa using (hreadable j (hki.trans hij)).2⟩
      simp [step, loopMay, hmay, EventLoop.step, hwaits]
  have hnext := x.next j
  rw [hevent] at hnext
  have hcoming := coming_reported hreports (restrict_eq_some.mp hnext).2
  obtain ⟨i, hji, hserved⟩ := coming_served fair bounded fd (j + 1)
    ⟨(hreadable (j + 1) (Nat.le_succ_of_le hkj)).1, hcoming⟩
  exact hnever i ((Nat.le_succ_of_le hkj).trans hji) hserved

end Serving

section Draining

/-- In the loop of `take_next_sample`. -/
def InDrain (s : System n τ κ μ) (handler : Handler τ κ) : Prop :=
  current s.node = some handler ∧ s.handlerPc ≠ .done ∧ s.handlerPc ≠ .entry

theorem Wiring.readable (hw : Wiring s) (up : Up s) {handler : Handler τ κ}
    (known : Known s handler) (pos : 0 < s.node.kernel.counter handler.fd) :
    s.node.kernel.readable handler.fd = true := by
  obtain hmapped | hpending := known
  · exact (Kernel.readable_iff _ _).mpr ⟨(hw.own _ _ hmapped).2, pos⟩
  · rw [up.pending hw] at hpending
    cases hpending

/-- A subscription's handler leaves the loop of `take_next_sample` only on an empty reader. -/
theorem inDrain_step (hw : Wiring s) {e : Event n τ κ μ} {m : τ} {r : Nat} {callback : κ}
    {efd : Int} (inside : InDrain s (.subscription m (some r) callback efd))
    (hstep : step typeName s e = some t) :
    InDrain t (.subscription m (some r) callback efd) ∨ t.history r = [] := by
  obtain ⟨hcurrent, hdone, hentry⟩ := inside
  obtain ⟨rest, hpc⟩ := current_eq_some.mp hcurrent
  have outside : s.node.loop.pc ≠ .outside := by simp [hpc]
  cases moves hstep with
  | subscribed _ _ _ _ _ _ _ hout | timerStarted _ _ _ _ hout => exact absurd hout outside
  | registered other waits => exact absurd (hw.waiting other waits).1 outside
  | inserted | evicted | signalled | expired | worked => exact .inl ⟨hcurrent, hdone, hentry⟩
  | looped e loop may move =>
      cases move with
      | returned =>
          simp only [loopMay] at may
          cases may
      | entered hat | looped hat | ended hat | waits hat | woken _ hat | batchDone hat
      | called _ _ _ hat | skipped _ _ hat =>
          rw [hpc] at hat
          cases hat
  | read _ _ hat => exact absurd hat hentry
  | tookNone m' r' cb efd' hother hat empty =>
      rw [hcurrent] at hother
      cases hother
      exact .inr empty
  | took _ _ _ _ _ sample =>
      refine .inl ⟨hcurrent, ?_⟩
      cases hvalid : sample.validData <;> simp [takeSample, hvalid]
  | enqueued => exact .inl ⟨hcurrent, by simp, by simp⟩
  | dropped other _ _ hother | notified _ other _ hother =>
      rw [hcurrent] at hother
      cases hother
      exact .inl ⟨hcurrent, by simp [afterEnqueue], by simp [afterEnqueue]⟩

theorem Served.handler (hw : Wiring s) {handler : Handler τ κ} (known : Known s handler)
    (served : Served s handler.fd) :
    current s.node = some handler ∧ s.handlerPc = afterRead handler := by
  obtain ⟨other, hcurrent, hfd, hplace⟩ := served
  cases hw.known_unique (hw.known_current hcurrent) known hfd
  exact ⟨hcurrent, hplace⟩

theorem signals_step {e : Event n τ κ μ} {r : Nat} (owes : 0 < s.signals r)
    (other : e ≠ .onDataAvailable r) (hstep : step typeName s e = some t) : 0 < t.signals r := by
  cases moves hstep with
  | inserted reader =>
      by_cases hr : r = reader
      · simp [hr]
      · simpa [Function.update_of_ne hr] using owes
  | signalled reader =>
      have hr : r ≠ reader := by
        rintro rfl
        exact other rfl
      simpa [Function.update_of_ne hr] using owes
  | read handler => exact (read_frame s handler).2.1 ▸ owes
  | _ => exact owes

theorem counter_of_signal (hw : Wiring s) {m : τ} {r : Nat} {callback : κ} {efd : Int}
    (known : Known s (.subscription m (some r) callback efd))
    (hstep : step typeName s (.onDataAvailable r) = some t) : 0 < t.node.kernel.counter efd := by
  obtain ⟨r', hr, hefd⟩ := hw.bound _ _ _ _ known
  cases hr
  cases moves hstep with
  | signalled _ efd' listens =>
      rw [hefd] at listens
      cases listens
      exact Kernel.eventfdWrite_pos _ _

variable {x : Execution (only (n := n) (κ := κ) (μ := μ) typeName Event.serving)}

theorem known_later {handler : Handler τ κ} {k j : Nat} (hkj : k ≤ j)
    (hk : Reachable typeName (x.state k) ∧ Up (x.state k)) (known : Known (x.state k) handler) :
    Known (x.state j) handler := by
  have both := x.keeps
    (I := fun s => (Reachable typeName s ∧ Up s) ∧ Known s handler)
    (fun s e t hs hstep => ⟨alive_step s e t hs.1 hstep,
      known_kept (wiring hs.1.1) (restrict_eq_some.mp hstep).2 hs.2⟩) ⟨hk, known⟩ hkj
  exact both.2

theorem drain_empties (fair : FairlyServed x) (bounded : Bounded x) {m : τ} {r : Nat}
    {callback : κ} {efd : Int} :
    x.LeadsTo (fun s => (Reachable typeName s ∧ Up s) ∧
      InDrain s (.subscription m (some r) callback efd)) fun s => s.history r = [] := by
  rintro k ⟨hk, hinside⟩
  obtain ⟨j, hkj, hidle⟩ := handler_returns fair bounded k ⟨hk, by simp [hinside.1]⟩
  refine x.reached_of_left (fun s => (Reachable typeName s ∧ Up s) ∧
    InDrain s (.subscription m (some r) callback efd)) (fun s => s.history r = []) ?_ hkj
    ⟨hk, hinside⟩ fun h => by simp [hidle, InDrain] at h
  rintro s e t ⟨hs, hin⟩ hstep
  exact (inDrain_step (wiring hs.1) hin (restrict_eq_some.mp hstep).2).imp_left
    fun hnext => ⟨alive_step s e t hs hstep, hnext⟩

theorem counter_drains (fair : FairlyServed x) (bounded : Bounded x) {m : τ} {r : Nat}
    {callback : κ} {efd : Int} :
    x.LeadsTo (fun s => (Reachable typeName s ∧ Up s) ∧
      Known s (.subscription m (some r) callback efd) ∧ 0 < s.node.kernel.counter efd)
      fun s => s.history r = [] := by
  rintro k ⟨hk, hknown, hpos⟩
  obtain ⟨j, hkj, hserved⟩ := readable_served fair bounded efd k
    ⟨hk, (wiring hk.1).readable hk.2 hknown hpos⟩
  have hj := x.keeps alive_step hk hkj
  obtain ⟨hcurrent, hplace⟩ := hserved.handler (wiring hj.1) (known_later hkj hk hknown)
  obtain ⟨i, hji, hempty⟩ := drain_empties fair bounded j
    ⟨hj, hcurrent, by simp [hplace, afterRead], by simp [hplace, afterRead]⟩
  exact ⟨i, hkj.trans hji, hempty⟩

/-- A signal that is owed is given, and makes the descriptor readable. -/
theorem signal_given (fair : FairlyServed x) {m : τ} {r : Nat} {callback : κ} {efd : Int} :
    x.LeadsTo (fun s => (Reachable typeName s ∧ Up s) ∧
      Known s (.subscription m (some r) callback efd) ∧ 0 < s.signals r)
      fun s => 0 < s.node.kernel.counter efd := by
  rintro k ⟨hk, hknown, howes⟩
  by_contra hnever
  push Not at hnever
  have hnone : ∀ j, k ≤ j → x.event j ≠ some (.onDataAvailable r) := by
    intro j hkj hevent
    have hnext := x.next j
    rw [hevent] at hnext
    have hpos := counter_of_signal
      (wiring (x.keeps alive_step hk hkj).1) (known_later hkj hk hknown)
      (restrict_eq_some.mp hnext).2
    exact absurd hpos (Nat.not_lt_of_le (hnever (j + 1) (Nat.le_succ_of_le hkj)))
  have howed : ∀ j, k ≤ j → 0 < (x.state j).signals r := by
    intro j hkj
    induction hkj with
    | refl => exact howes
    | @step j hkj ih =>
        have hnext := x.next j
        cases hevent : x.event j with
        | none =>
            rw [hevent] at hnext
            simpa only [Nat.succ_eq_add_one, hnext] using ih
        | some e =>
            rw [hevent] at hnext
            refine signals_step ih ?_ (restrict_eq_some.mp hnext).2
            rintro rfl
            exact hnone j hkj hevent
  obtain ⟨j, e, hkj, rfl, hevent⟩ := (fair.listeners r).fair k fun j hkj =>
    dds_enabled serving_of_quiet (x.keeps alive_step hk hkj).1 (howed j hkj)
  exact hnone j hkj hevent

/-- Every reader is drained. -/
theorem reader_drains (fair : FairlyServed x) (bounded : Bounded x) (r : Nat) :
    x.LeadsTo (fun s => (Reachable typeName s ∧ Up s) ∧ s.history r ≠ [])
      fun s => s.history r = [] := by
  rintro k ⟨hk, hunread⟩
  have hw := wiring hk.1
  have hknown : r < (x.state k).node.readers.length := by
    by_contra hge
    exact hunread ((noticed hk.1).unused r (Nat.le_of_not_lt hge))
  obtain ⟨efd, hefd⟩ := listenerFd_isSome hw hknown
  obtain ⟨m, callback, hhandler⟩ := hw.served r efd hefd
  obtain hsignal | hcounter | hdraining := (noticed hk.1).noticed r efd hefd hunread
  · obtain ⟨j, hkj, hpos⟩ := signal_given fair k ⟨hk, hhandler, hsignal⟩
    obtain ⟨i, hji, hempty⟩ := counter_drains fair bounded j
      ⟨x.keeps alive_step hk hkj, known_later hkj hk hhandler, hpos⟩
    exact ⟨i, hkj.trans hji, hempty⟩
  · exact counter_drains fair bounded k ⟨hk, hhandler, hcounter⟩
  · obtain ⟨hcurrent, hdone⟩ := hdraining
    obtain ⟨handler, hinside, hfd⟩ := Option.map_eq_some_iff.mp hcurrent
    cases hw.known_unique (hw.known_current hinside) hhandler hfd
    by_cases hentry : (x.state k).handlerPc = .entry
    · have hpos := ((Kernel.readable_iff _ _).mp ((due hk.1).readable hinside hentry)).2
      exact counter_drains fair bounded k ⟨hk, hhandler, hpos⟩
    · exact drain_empties fair bounded k ⟨hk, hinside, hdone, hentry⟩

end Draining

section Ticking

theorem log_step {e : Event n τ κ μ} (hstep : step typeName s e = some t) :
    s.log.length ≤ t.log.length := by
  cases moves hstep with
  | enqueued => simp
  | read handler => rw [(read_frame s handler).2.2.2.1]
  | _ => exact le_rfl

/-- A task that is about to be enqueued stays so until it is. -/
theorem enqueueing_step (h : Reachable typeName s) {e : Event n τ κ μ} {handler : Handler τ κ}
    {task : Task κ μ} {m : Nat} (inside : current s.node = some handler)
    (here : s.handlerPc = .enqueueing task) (hm : m ≤ s.log.length)
    (hstep : step typeName s e = some t) :
    (current t.node = some handler ∧ t.handlerPc = .enqueueing task) ∨
      ∃ i, m ≤ i ∧ t.log[i]? = some (handler.fd, task) := by
  obtain ⟨rest, hpc⟩ := current_eq_some.mp inside
  have outside : s.node.loop.pc ≠ .outside := by simp [hpc]
  cases moves hstep with
  | subscribed _ _ _ _ _ _ _ hout | timerStarted _ _ _ _ hout => exact absurd hout outside
  | registered other waits => exact absurd ((wiring h).waiting other waits).1 outside
  | inserted | evicted | signalled | expired | worked => exact .inl ⟨inside, here⟩
  | looped e loop may move =>
      cases move with
      | returned => simp [loopMay, here] at may
      | entered hat | looped hat | ended hat | waits hat | woken _ hat | batchDone hat
      | called _ _ _ hat | skipped _ _ hat =>
          rw [hpc] at hat
          cases hat
  | read _ _ hat | tookNone _ _ _ _ _ hat | took _ _ _ _ _ _ _ hat | notified _ _ _ _ hat =>
      rw [here] at hat
      cases hat
  | enqueued other task pool hother hat =>
      rw [inside] at hother
      rw [here] at hat
      cases hother
      cases hat
      exact .inr ⟨s.log.length, hm, List.getElem?_concat_length⟩
  | dropped _ _ _ _ _ stopped =>
      rw [(sequenced h).accepting] at stopped
      cases stopped

variable {x : Execution (only (n := n) (κ := κ) (μ := μ) typeName Event.serving)}

theorem enqueueing_logged (fair : FairlyServed x) (bounded : Bounded x) {k m : Nat}
    (hk : Reachable typeName (x.state k) ∧ Up (x.state k)) {handler : Handler τ κ}
    {task : Task κ μ} (inside : current (x.state k).node = some handler)
    (here : (x.state k).handlerPc = .enqueueing task) (hm : m ≤ (x.state k).log.length) :
    ∃ j i, k ≤ j ∧ m ≤ i ∧ (x.state j).log[i]? = some (handler.fd, task) := by
  obtain ⟨b, hkb, hidle⟩ := handler_returns fair bounded k ⟨hk, by simp [inside]⟩
  obtain ⟨j, hkj, i, hi, hlogged⟩ := x.reached_of_left
    (fun s => (Reachable typeName s ∧ Up s) ∧ (current s.node = some handler ∧
      s.handlerPc = .enqueueing task) ∧ m ≤ s.log.length)
    (fun s => ∃ i, m ≤ i ∧ s.log[i]? = some (handler.fd, task))
    (by
      rintro s e t ⟨hs, ⟨hat, hhere⟩, hle⟩ hstep
      have hmove := (restrict_eq_some.mp hstep).2
      exact (enqueueing_step hs.1 hat hhere hle hmove).imp_left fun hnext =>
        ⟨alive_step s e t hs hstep, hnext, hle.trans (log_step hmove)⟩)
    hkb ⟨hk, ⟨inside, here⟩, hm⟩ fun h => by simp [hidle] at h
  exact ⟨j, i, hkj, hi, hlogged⟩

/-- Every expiration is followed by a tick. -/
theorem expiration_ticks (fair : FairlyServed x) (bounded : Bounded x) {k : Nat}
    (hk : Reachable typeName (x.state k) ∧ Up (x.state k)) {callback : κ} {tfd : Int}
    (known : Known (x.state k) (.timer callback tfd))
    (expired : 0 < (x.state k).node.kernel.counter tfd) :
    ∃ j i, k ≤ j ∧ (x.state k).log.length ≤ i ∧
      (x.state j).log[i]? = some (tfd, .tick callback) := by
  obtain ⟨a, hka, hserved⟩ := readable_served fair bounded tfd k
    ⟨hk, (wiring hk.1).readable hk.2 known expired⟩
  have ha := x.keeps alive_step hk hka
  obtain ⟨hcurrent, hplace⟩ := hserved.handler (wiring ha.1) (known_later hka hk known)
  have hlog : (x.state k).log.length ≤ (x.state a).log.length :=
    x.keeps (I := fun s => (x.state k).log.length ≤ s.log.length)
      (fun _ _ _ hle hstep => hle.trans (log_step (restrict_eq_some.mp hstep).2)) le_rfl hka
  obtain ⟨j, i, haj, hi, htick⟩ := enqueueing_logged fair bounded ha hcurrent hplace hlog
  exact ⟨j, i, hka.trans haj, hi, htick⟩

end Ticking

/-- What a node that is up does for everybody, whatever else comes in meanwhile. -/
structure Serves (x : Execution (only (n := n) (κ := κ) (μ := μ) typeName Event.serving)) :
    Prop where
  /-- A reader with samples is drained, -/
  readers : ∀ r, x.LeadsTo (fun s => s.history r ≠ []) fun s => s.history r = []
  /-- an expiration is followed by a tick of that timer, -/
  timers : ∀ k callback tfd, Known (x.state k) (.timer callback tfd) →
    0 < (x.state k).node.kernel.counter tfd →
      ∃ j i, k ≤ j ∧ (x.state k).log.length ≤ i ∧
        (x.state j).log[i]? = some (tfd, .tick callback)
  /-- and whatever the pool has accepted is run, once. -/
  tasks : ∀ i, x.LeadsTo (fun s => i < s.pool.accepted.length) fun s =>
    s.pool.begun.count i = 1 ∧ s.pool.returned.count i = 1

/-- Nobody starves in a node under load, unless a handler is fed for ever. -/
theorem busy_node_serves (positive : 0 < n)
    {x : Execution (only (n := n) (κ := κ) (μ := μ) typeName Event.serving)}
    (start : Reachable typeName (x.state 0)) (up : Up (x.state 0)) (fair : FairlyServed x)
    (bounded : Bounded x) : Serves x := by
  have alive : ∀ k, Reachable typeName (x.state k) ∧ Up (x.state k) := fun k =>
    x.keeps alive_step ⟨start, up⟩ (Nat.zero_le k)
  refine ⟨fun r => (reader_drains fair bounded r).under alive, ?_, ?_⟩
  · intro k callback tfd hknown hexpired
    exact expiration_ticks fair bounded (alive k) hknown hexpired
  · intro i k hi
    obtain ⟨j, hkj, hdone⟩ := tasks_return positive serving_of_quiet fair.loop fair.workers
      (fun j => (alive (k + j)).1) i hi
    exact ⟨j, hkj, ran_once (alive j).1 hdone⟩

theorem quiet_of_thread {e : Event n τ κ μ} {thread : Thread n} (h : e.thread = some thread) :
    e.quiet = true := by
  cases e with
  | insert | expire => cases h
  | loop l =>
      cases l with
      | result r =>
          cases r with
          | events => rfl
          | interrupted | failed => cases h
      | _ => rfl
  | _ => rfl

theorem fairlyServed_of_drained {u : System n τ κ μ} {events : List (Event n τ κ μ)}
    (hrun : run (only typeName Event.serving) s events = some u) (h : Reachable typeName u)
    (hd : Drained u) (waits : u.node.loop.pc = .waiting)
    (asleep : ∀ w, u.pool.workers w = .blocked) : FairlyServed (Execution.ofRun hrun) := by
  have hthread : ∀ thread, ¬ Enabled (only typeName Event.serving)
      (fun e : Event n τ κ μ => e.thread = some thread) u := by
    rintro thread ⟨e, v, hown, hstep⟩
    exact not_enabled_of_drained h hd waits asleep thread ⟨e, v, hown,
      quietStep_eq_some.mpr ⟨quiet_of_thread hown, (restrict_eq_some.mp hstep).2⟩⟩
  refine ⟨Execution.ofRun_stronglyFair hrun (hthread .loop),
    fun w => Execution.ofRun_stronglyFair hrun (hthread (.worker w)),
    fun r => Execution.ofRun_stronglyFair hrun ?_, fun fd => Execution.ofRun_stronglyFair hrun ?_⟩
  · rintro ⟨e, v, rfl, hstep⟩
    exact hthread .dds ⟨_, v, rfl, hstep⟩
  · rintro ⟨e, v, hreports, hstep⟩
    refine hthread .loop ⟨e, v, ?_, hstep⟩
    cases e with
    | loop l =>
        cases l with
        | result r =>
            cases r with
            | events => rfl
            | interrupted | failed => cases hreports
        | _ => cases hreports
    | _ => cases hreports

/-- A subscription and a timer; a sample comes in during a drain, and a wait is interrupted. -/
theorem busy_node_serves_two :
    ∃ x : Execution (only (n := 1) (τ := Unit) (κ := Nat) (μ := Nat) (fun _ => "HelloWorld")
        Event.serving),
      x.event 12 = some (.insert 0 ⟨8, true⟩) ∧ Serves x := by
  obtain ⟨s, u, hbefore, hrun, hup, hdrained, hwaits, hasleep⟩ :
      ∃ s u : System 1 Unit Nat Nat,
        run (step fun _ => "HelloWorld") (init 1 Unit Nat Nat)
          [.subscribe 5 () "chatter" 10, .register, .startTimer 6 100 20, .register,
            .insert 0 ⟨7, true⟩, .loop .run] = some s ∧
        run (only (fun _ => "HelloWorld") Event.serving) s
          [.onDataAvailable 0, .expire 6, .loop .test, .loop .wait,
            .loop (.result (.events [5, 6])), .loop .next, .read, .take (some 0), .enqueue,
            .worker (.lock 0), .worker (.test 0), .notify none, .insert 0 ⟨8, true⟩,
            .onDataAvailable 0, .take (some 0), .enqueue, .notify none, .take none, .loop .ret,
            .loop .next, .read, .enqueue, .notify none, .loop .ret, .loop .next, .loop .test,
            .loop .wait, .loop (.result .interrupted), .loop .test, .loop .wait,
            .loop (.result (.events [5])), .loop .next, .read, .take none, .loop .ret, .loop .next,
            .loop .test, .loop .wait, .worker (.invoke 0 []), .worker (.finish 0),
            .worker (.lock 0), .worker (.test 0), .worker (.invoke 0 []), .worker (.finish 0),
            .worker (.lock 0), .worker (.test 0), .worker (.invoke 0 []), .worker (.finish 0),
            .worker (.lock 0), .worker (.test 0), .worker (.block 0)] = some u ∧
        Up s ∧ Drained u ∧ u.node.loop.pc = .waiting ∧ ∀ w, u.pool.workers w = .blocked := by
    refine ⟨_, _, rfl, rfl, ⟨?_, ?_, rfl⟩, ⟨?_, ?_, ?_, rfl⟩, rfl, Fin.forall_fin_one.mpr rfl⟩
    · intro hpc
      cases hpc
    · intro hpc
      cases hpc
    · intro r
      cases r <;> rfl
    · intro r
      cases r <;> rfl
    · intro fd
      rw [Bool.eq_false_iff, Ne, Kernel.readable_iff]
      rintro ⟨hmem, hpos⟩
      obtain rfl | hmem := Finset.mem_insert.mp hmem
      · exact absurd hpos (Nat.lt_irrefl 0)
      · obtain rfl | hmem := Finset.mem_insert.mp hmem
        · exact absurd hpos (Nat.lt_irrefl 0)
        · cases hmem
  have hend : Reachable (fun _ => "HelloWorld") u :=
    (reachable_of_run hrun).keeps (reachable_of_run hbefore)
      fun _ _ _ hs hstep => hs.step (restrict_eq_some.mp hstep).2
  have hstart := Execution.ofRun_start hrun
  refine ⟨Execution.ofRun hrun, rfl, ?_⟩
  apply busy_node_serves Nat.one_pos
  · rw [hstart]
    exact reachable_of_run hbefore
  · rw [hstart]
    exact hup
  · exact fairlyServed_of_drained hrun hend hdrained hwaits hasleep
  · -- at the end no handler runs
    intro k handler hforever
    have hlast := hforever (max k 51) (le_max_left k 51)
    rw [Execution.ofRun_end hrun (le_max_right k 51), hdrained.idle] at hlast
    cases hlast

end TinyMiddleware.Bridge
