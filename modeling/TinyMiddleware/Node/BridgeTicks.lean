import TinyMiddleware.Node.BridgeDelivery
import TinyMiddleware.Lib.Latch

/-! The ticks of the node's timers. A timerfd is a latch: expirations raise it, the
handler's successful `read` takes what has expired, and one enqueue delivers it. -/
namespace TinyMiddleware.Bridge

open TinyMiddleware.Core Runs

variable {n : Nat} {τ κ μ : Type} {s t : System n τ κ μ}

/-- What an observer of the timers sees in a step, with the timerfd it is about. -/
def tickMarks (s : System n τ κ μ) : Event n τ κ μ → List (Int × Latch.Mark)
  | .expire tfd => [(tfd, .raised)]
  | .read =>
      match current s.node with
      | some (.timer _ tfd) => if 0 < s.node.kernel.counter tfd then [(tfd, .taken)] else []
      | _ => []
  | .enqueue =>
      match current s.node with
      | some (.timer _ tfd) => if s.pool.stop then [] else [(tfd, .delivered)]
      | _ => []
  | _ => []

abbrev Observed (typeName : τ → String) (s : System n τ κ μ) (marks : List (Int × Latch.Mark)) :
    Prop :=
  Runs.Reachable (observe (step typeName) tickMarks) (init n τ κ μ, []) (s, marks)

def marksOf (fd : Int) (marks : List (Int × Latch.Mark)) : List Latch.Mark :=
  (marks.filter fun entry => decide (entry.1 = fd)).map Prod.snd

/-- The timerfd's count, and whether its handler is between a successful `read` and
the enqueue. -/
def latchOf (s : System n τ κ μ) (fd : Int) : Latch where
  count := s.node.kernel.counter fd
  holding := !(inFlight s fd).isEmpty

def ticks (callback : κ) (marks : List Latch.Mark) : List (Task κ μ) :=
  List.replicate (marks.count .delivered) (.tick callback)

/-- `armed` is about the kernel, the rest about what has been observed. -/
structure Ticking (s : System n τ κ μ) (marks : List (Int × Latch.Mark)) : Prop where
  armed : ∀ fd spec, s.node.kernel.armed fd = some spec → ∃ callback, Known s (.timer callback fd)
  marked : ∀ entry ∈ marks, ∃ callback, Known s (.timer callback entry.1)
  latched : ∀ callback fd, Known s (.timer callback fd) →
    run Latch.step Latch.clear (marksOf fd marks) = some (latchOf s fd)
  carried : ∀ callback fd, Known s (.timer callback fd) →
    ∀ task ∈ inFlight s fd, task = .tick callback
  logged : ∀ callback fd, Known s (.timer callback fd) →
    acceptedFrom s fd = ticks callback (marksOf fd marks)

theorem marksOf_append (fd : Int) (marks more : List (Int × Latch.Mark)) :
    marksOf fd (marks ++ more) = marksOf fd marks ++ marksOf fd more := by
  simp [marksOf]

theorem marksOf_single (fd d : Int) (mark : Latch.Mark) :
    marksOf fd [(d, mark)] = if d = fd then [mark] else [] := by
  unfold marksOf
  by_cases h : d = fd <;> simp [h]

theorem ticks_append (callback : κ) (marks more : List Latch.Mark) :
    (ticks callback (marks ++ more) : List (Task κ μ)) =
      ticks callback marks ++ ticks callback more := by
  unfold ticks
  rw [List.count_append, List.replicate_append_replicate]

theorem kernel_startTimer {typeName : τ → String} {fd : Nat} {periodMs : Int} {callback : κ}
    (h : step typeName s (.startTimer fd periodMs callback) = some t) :
    t.pending = some (.timer callback fd) ∧
      (∀ d, d ≠ (fd : Int) → ∀ spec, t.node.kernel.armed d = some spec →
        s.node.kernel.armed d = some spec) ∧ t.node.kernel.counter fd = 0 := by
  obtain ⟨hmay, h⟩ := Option.ite_none_right_eq_some.mp h
  have hfd := (Kernel.openFd_some (mayCreate_iff.mp hmay).2.2).1
  have hvalid : (fd : Int) ≠ -1 := by omega
  simp only [Node.prepareWallTimer, hfd, hvalid, if_false] at h
  split at h
  · next node handler heq =>
      split at heq
      · next hset =>
          simp only [Prod.mk.injEq, Option.some.injEq] at heq
          obtain ⟨rfl, rfl⟩ := heq
          cases Option.some.inj h
          refine ⟨rfl, ?_, Kernel.counter_timerfdSettime hset⟩
          intro d hd spec harmed
          rw [Kernel.armed_timerfdSettime _ hd] at harmed
          exact Kernel.armed_of_openFd harmed
      · simp at heq
  · cases h

theorem armed_subscribe {typeName : τ → String} {fd : Nat} {msgType : τ} {topicName : String}
    {callback : κ} (h : step typeName s (.subscribe fd msgType topicName callback) = some t)
    {d : Int} {spec : ITimerSpec} (harmed : t.node.kernel.armed d = some spec) :
    s.node.kernel.armed d = some spec := by
  obtain ⟨hmay, h⟩ := Option.ite_none_right_eq_some.mp h
  split at h
  · next node handler heq =>
      cases Option.some.inj h
      unfold Node.prepareSubscription at heq
      dsimp only at heq
      split at heq
      · simp at heq
      · simp only [Prod.mk.injEq, Option.some.injEq] at heq
        obtain ⟨rfl, -⟩ := heq
        exact Kernel.armed_of_openFd harmed
  · cases h

theorem armed_read (s : System n τ κ μ) (handler : Handler τ κ) :
    (read s handler).node.kernel.armed = s.node.kernel.armed := by
  cases handler with
  | subscription => rfl
  | timer callback tfd =>
      unfold read
      dsimp only
      split <;> rfl

/-- A timerfd is armed by the creation of its timer and by nothing else. -/
theorem armed_step {typeName : τ → String} {e : Event n τ κ μ} (h : step typeName s e = some t)
    {fd : Int} {spec : ITimerSpec} (harmed : t.node.kernel.armed fd = some spec) :
    s.node.kernel.armed fd = some spec ∨ ∃ callback, t.pending = some (.timer callback fd) := by
  cases moves h with
  | subscribed => exact .inl (armed_subscribe h harmed)
  | timerStarted tfd periodMs callback kernel outside free opens =>
      obtain ⟨hpending, hother, -⟩ := kernel_startTimer h
      by_cases hfd : fd = tfd
      · rw [hfd]
        exact .inr ⟨callback, hpending⟩
      · exact .inl (hother fd hfd spec harmed)
  | registered handler waits =>
      simp only [kernel_registered, Kernel.armed_epollAdd] at harmed
      exact .inl harmed
  | signalled reader efd listens owes =>
      simp only [withKernel, Kernel.armed_eventfdWrite] at harmed
      exact .inl harmed
  | read handler inside here =>
      rw [armed_read] at harmed
      exact .inl harmed
  | _ => exact .inl harmed

/-- A handler, once known, stays known. -/
theorem known_kept {typeName : τ → String} (hw : Wiring s) {e : Event n τ κ μ}
    (h : step typeName s e = some t) {handler : Handler τ κ} (known : Known s handler) :
    Known t handler := by
  have hmove := moves h
  cases hplain : e.rewires with
  | false => exact ((hmove.sameWiring hplain).known handler).mpr known
  | true =>
      cases hmove with
      | subscribed fd msgType topicName callback kernel participant topic outside free opens
      | timerStarted fd periodMs callback kernel outside free opens =>
          obtain hmapped | hpending := known
          · exact .inl hmapped
          · rw [free] at hpending
            cases hpending
      | registered handler' waits => exact (hw.known_registered waits handler).mpr known
      | looped e loop may move =>
          exact (known_withLoop (EventLoop.callbacks_step move) _ handler).mpr known
      | _ => cases hplain

theorem known_timer_step {typeName : τ → String} (hw : Wiring s) {e : Event n τ κ μ}
    (h : step typeName s e = some t) {callback : κ} {fd : Int}
    (known : Known t (.timer callback fd)) :
    Known s (.timer callback fd) ∨
      ∃ (tfd : Nat) (periodMs : Int), e = .startTimer tfd periodMs callback ∧ fd = tfd := by
  have hmove := moves h
  cases hplain : e.rewires with
  | false => exact .inl (((hmove.sameWiring hplain).known _).mp known)
  | true =>
      cases hmove with
      | subscribed fd' msgType topicName callback' kernel participant topic outside free opens =>
          obtain hmapped | hpending := known
          · exact .inl (.inl hmapped)
          · cases hpending
      | timerStarted tfd periodMs callback' kernel outside free opens =>
          obtain hmapped | hpending := known
          · exact .inl (.inl hmapped)
          · cases Option.some.inj hpending
            exact .inr ⟨tfd, periodMs, rfl, rfl⟩
      | registered handler waits => exact .inl ((hw.known_registered waits _).mp known)
      | looped e loop may move =>
          exact .inl ((known_withLoop (EventLoop.callbacks_step move) _ _).mp known)
      | _ => cases hplain

/-- What a step does to one timer. -/
inductive TickMoves (s t : System n τ κ μ) (callback : κ) (fd : Int) : List Latch.Mark → Prop
  | quiet (counter : t.node.kernel.counter fd = s.node.kernel.counter fd)
      (flight : inFlight t fd = inFlight s fd) (accepted : acceptedFrom t fd = acceptedFrom s fd) :
      TickMoves s t callback fd []
  | expired (counter : t.node.kernel.counter fd = s.node.kernel.counter fd + 1)
      (flight : inFlight t fd = inFlight s fd) (accepted : acceptedFrom t fd = acceptedFrom s fd) :
      TickMoves s t callback fd [.raised]
  | taken (due : 0 < s.node.kernel.counter fd) (counter : t.node.kernel.counter fd = 0)
      (before : inFlight s fd = []) (after : inFlight t fd = [.tick callback])
      (accepted : acceptedFrom t fd = acceptedFrom s fd) : TickMoves s t callback fd [.taken]
  | delivered (task : Task κ μ) (counter : t.node.kernel.counter fd = s.node.kernel.counter fd)
      (before : inFlight s fd = [task]) (after : inFlight t fd = [])
      (accepted : acceptedFrom t fd = acceptedFrom s fd ++ [task]) :
      TickMoves s t callback fd [.delivered]

theorem tickMarks_of_handler {handler : Handler τ κ} (inside : current s.node = some handler)
    {fd : Int} (hne : handler.fd ≠ fd) :
    marksOf fd (tickMarks s .read) = [] ∧ marksOf fd (tickMarks s .enqueue) = [] := by
  cases handler with
  | subscription => simp [tickMarks, inside, marksOf]
  | timer callback tfd =>
      simp only [tickMarks, inside]
      constructor <;> split <;> simp [marksOf, show tfd ≠ fd from hne]

/-- A `read` that fails changes nothing but the place of the handler. -/
theorem read_failed {callback : κ} {tfd : Int} (early : s.node.kernel.counter tfd = 0) :
    read s (.timer callback tfd) = { s with handlerPc := .done } := by
  simp [read, early]

theorem tickMoves_read (hw : Wiring s) {handler : Handler τ κ}
    (inside : current s.node = some handler) (here : s.handlerPc = .entry) {callback : κ} {fd : Int}
    (known : Known s (.timer callback fd)) :
    TickMoves s (read s handler) callback fd (marksOf fd (tickMarks s .read)) := by
  have hcurrent := (sameWiring_read handler).current.trans inside
  have hbefore : inFlight s fd = [] := inFlight_of_not_enqueueing (by simp [here]) fd
  have haccepted : acceptedFrom (read s handler) fd = acceptedFrom s fd := by
    unfold acceptedFrom
    rw [(read_frame s handler).2.2.2.1]
  by_cases hfd : handler.fd = fd
  · cases hw.known_unique (hw.known_current inside) known hfd
    simp only [tickMarks, inside]
    by_cases hdue : 0 < s.node.kernel.counter fd
    · have hpc : (read s (.timer callback fd)).handlerPc = .enqueueing (.tick callback) := by
        simp [read, hdue]
      rw [if_pos hdue, marksOf_single, if_pos rfl]
      refine .taken hdue ?_ hbefore ?_ haccepted
      · simp [read, hdue, withKernel]
      · rw [inFlight_of_enqueueing hcurrent hpc, if_pos hfd]
    · rw [if_neg hdue, read_failed (Nat.eq_zero_of_not_pos hdue)]
      refine .quiet rfl ?_ rfl
      rw [hbefore, inFlight_of_not_enqueueing (by simp)]
  · rw [(tickMarks_of_handler inside hfd).1]
    refine .quiet (counter_read s handler hfd) ?_ haccepted
    rw [hbefore]
    cases hpc : (read s handler).handlerPc with
    | enqueueing task => rw [inFlight_of_enqueueing hcurrent hpc, if_neg hfd]
    | _ =>
        apply inFlight_of_not_enqueueing
        simp [hpc]

theorem tickMoves_enqueued (hw : Wiring s) {handler : Handler τ κ} {task : Task κ μ}
    {pool : ThreadPool.State n (Task κ μ)} (inside : current s.node = some handler)
    (here : s.handlerPc = .enqueueing task) (accepting : s.pool.stop = false) {callback : κ}
    {fd : Int} (known : Known s (.timer callback fd)) :
    TickMoves s
      { s with pool := pool, handlerPc := .notifying, log := s.log ++ [(handler.fd, task)] }
      callback fd (marksOf fd (tickMarks s .enqueue)) := by
  have hafter : inFlight
      { s with pool := pool, handlerPc := .notifying, log := s.log ++ [(handler.fd, task)] } fd =
        [] :=
    inFlight_of_not_enqueueing (by simp) fd
  have hbefore := inFlight_of_enqueueing inside here fd
  by_cases hfd : handler.fd = fd
  · cases hw.known_unique (hw.known_current inside) known hfd
    rw [if_pos hfd] at hbefore
    simp only [tickMarks, inside, accepting, Bool.false_eq_true, if_false]
    rw [marksOf_single, if_pos rfl]
    refine .delivered task rfl hbefore hafter ?_
    rw [acceptedFrom_append rfl, if_pos hfd]
  · rw [if_neg hfd] at hbefore
    rw [(tickMarks_of_handler inside hfd).2]
    refine .quiet rfl (hafter.trans hbefore.symm) ?_
    rw [acceptedFrom_append rfl, if_neg hfd, List.append_nil]

theorem tickMoves {typeName : τ → String} (hw : Wiring s) (hs : Sequenced s) {e : Event n τ κ μ}
    (h : step typeName s e = some t) {callback : κ} {fd : Int}
    (known : Known s (.timer callback fd)) :
    TickMoves s t callback fd (marksOf fd (tickMarks s e)) := by
  have hsubscription : ∀ {msgType reader cb efd}, Known s (.subscription msgType reader cb efd) →
      efd ≠ fd := by
    rintro m r cb efd hknown rfl
    cases hw.known_unique hknown known rfl
  cases moves h with
  | subscribed fd' msgType topicName callback' kernel participant topic outside free opens
  | timerStarted fd' periodMs callback' kernel outside free opens =>
      have hne : fd ≠ fd' := by
        rintro rfl
        exact opens.fresh (hw.known_open known)
      exact .quiet (opens.counter fd hne) rfl rfl
  | registered handler waits =>
      refine .quiet ?_ ?_ rfl
      · simp only [kernel_registered, Kernel.counter_epollAdd]
      · unfold inFlight
        rw [current_registered]
  | inserted | evicted => exact .quiet rfl rfl rfl
  | worked e pool own move => exact .quiet rfl rfl rfl
  | signalled reader efd listens owes =>
      obtain ⟨m, cb, hknown⟩ := hw.served reader efd listens
      exact .quiet (Kernel.counter_eventfdWrite_of_ne _ (hsubscription hknown).symm) rfl rfl
  | expired tfd =>
      simp only [tickMarks, marksOf_single]
      by_cases htfd : tfd = fd
      · subst htfd
        rw [if_pos rfl]
        exact .expired (by simp [withKernel]) rfl rfl
      · rw [if_neg htfd]
        exact .quiet (by simp [withKernel, Ne.symm htfd]) rfl rfl
  | looped e loop may move =>
      obtain ⟨hbefore, hafter⟩ := inFlight_looped may move fd
      exact .quiet rfl (hafter.trans hbefore.symm) rfl
  | read handler inside here => exact tickMoves_read hw inside here known
  | tookNone m r cb efd inside here empty =>
      refine .quiet rfl ?_ rfl
      rw [inFlight_of_not_enqueueing (by simp), inFlight_of_not_enqueueing (by simp [here])]
  | took m r cb efd i sample inside here present =>
      refine .quiet rfl ?_ rfl
      rw [inFlight_takeSample inside, inFlight_of_not_enqueueing (s := s) (by simp [here]), if_neg]
      exact fun heq => hsubscription (hw.known_current inside) heq.2
  | enqueued handler task pool inside here accepting move =>
      exact tickMoves_enqueued hw inside here accepting known
  | dropped handler task pool inside here stopped move =>
      rw [hs.accepting] at stopped
      cases stopped
  | notified woken handler pool inside here move =>
      refine .quiet rfl ?_ rfl
      rw [inFlight_of_not_enqueueing (afterEnqueue_ne_enqueueing handler),
        inFlight_of_not_enqueueing (by simp [here])]

theorem tickMarks_known {typeName : τ → String} {marks : List (Int × Latch.Mark)} (hw : Wiring s)
    (ht : Ticking s marks) {e : Event n τ κ μ} (h : step typeName s e = some t)
    {entry : Int × Latch.Mark} (hentry : entry ∈ tickMarks s e) :
    ∃ callback, Known s (.timer callback entry.1) := by
  cases e with
  | expire tfd =>
      rw [List.mem_singleton.mp hentry]
      simp only [step] at h
      split at h
      · next spec harmed => exact ht.armed tfd spec harmed
      · cases h
  | read =>
      simp only [tickMarks] at hentry
      split at hentry
      · next callback tfd inside =>
          split at hentry
          · rw [List.mem_singleton.mp hentry]
            exact ⟨callback, hw.known_current inside⟩
          · cases hentry
      · cases hentry
  | enqueue =>
      simp only [tickMarks] at hentry
      split at hentry
      · next callback tfd inside =>
          split at hentry
          · cases hentry
          · rw [List.mem_singleton.mp hentry]
            exact ⟨callback, hw.known_current inside⟩
      · cases hentry
  | _ => cases hentry

/-- Nothing has been observed of a descriptor that is not open. -/
theorem Ticking.marksOf_fresh {marks : List (Int × Latch.Mark)} (ht : Ticking s marks)
    (hw : Wiring s) {fd : Int} (fresh : fd ∉ s.node.kernel.isOpen) : marksOf fd marks = [] := by
  unfold marksOf
  rw [List.filter_eq_nil_iff.mpr, List.map_nil]
  intro entry hentry heq
  obtain ⟨callback, hknown⟩ := ht.marked entry hentry
  rw [decide_eq_true_eq] at heq
  exact fresh (heq ▸ hw.known_open hknown)

theorem latchOf_of_eq {fd : Int} (counter : t.node.kernel.counter fd = s.node.kernel.counter fd)
    (flight : inFlight t fd = inFlight s fd) : latchOf t fd = latchOf s fd := by
  unfold latchOf
  rw [counter, flight]

/-- A step of the node is a step of the latch, or none. -/
theorem TickMoves.latch {callback : κ} {fd : Int} {marks : List Latch.Mark}
    (h : TickMoves s t callback fd marks) :
    run Latch.step (latchOf s fd) marks = some (latchOf t fd) := by
  cases h with
  | quiet counter flight => rw [latchOf_of_eq counter flight, run]
  | expired counter flight => simp [run, Latch.step, latchOf, counter, flight]
  | taken due counter before after => simp [run, Latch.step, latchOf, due, counter, before, after]
  | delivered task counter before after =>
      simp [run, Latch.step, latchOf, counter, before, after]

theorem TickMoves.log {callback : κ} {fd : Int} {marks : List Latch.Mark}
    (h : TickMoves s t callback fd marks)
    (carried : ∀ task ∈ inFlight s fd, task = .tick callback) :
    acceptedFrom t fd = acceptedFrom s fd ++ ticks callback marks ∧
      ∀ task ∈ inFlight t fd, task = .tick callback := by
  cases h with
  | quiet counter flight accepted
  | expired counter flight accepted =>
      rw [accepted, flight]
      exact ⟨by simp [ticks], carried⟩
  | taken due counter before after accepted =>
      rw [accepted, after]
      exact ⟨by simp [ticks], by simp⟩
  | delivered task counter before after accepted =>
      have htask : task = .tick callback := carried task (by simp [before])
      rw [accepted, after, htask]
      exact ⟨by simp [ticks], by simp⟩

/-- A timer that has just been created has a clear latch, and nothing is known of it. -/
theorem Ticking.started {typeName : τ → String} {marks : List (Int × Latch.Mark)}
    (ht : Ticking s marks) (hw : Wiring s) (hs : Sequenced s) {e : Event n τ κ μ}
    (h : step typeName s e = some t) {callback : κ} {fd : Int} (known : Known t (.timer callback fd))
    (unknown : ¬ Known s (.timer callback fd)) :
    marksOf fd (marks ++ tickMarks s e) = [] ∧ latchOf t fd = Latch.clear ∧
      inFlight t fd = [] ∧ acceptedFrom t fd = [] := by
  obtain hold | ⟨tfd, periodMs, rfl, rfl⟩ := known_timer_step hw h known
  · exact absurd hold unknown
  · have hcounter := (kernel_startTimer h).2.2
    cases moves h with
    | timerStarted tfd periodMs callback kernel outside free opens =>
        have hflight : ∀ pending, inFlight
            { s with node := withKernel s.node kernel, pending := pending } tfd = [] := by
          intro pending
          apply inFlight_of_not_current
          simp [current, withKernel, outside]
        refine ⟨?_, ?_, hflight _, hs.acceptedFrom_fresh opens.fresh⟩
        · rw [marksOf_append, ht.marksOf_fresh hw opens.fresh]
          rfl
        · unfold latchOf
          rw [hcounter, hflight]
          rfl

theorem Ticking.step {typeName : τ → String} {marks : List (Int × Latch.Mark)}
    (ht : Ticking s marks) (hw : Wiring s) (hs : Sequenced s) {e : Event n τ κ μ}
    (h : step typeName s e = some t) : Ticking t (marks ++ tickMarks s e) := by
  constructor
  · intro fd spec harmed
    obtain hold | ⟨callback, hpending⟩ := armed_step h harmed
    · obtain ⟨callback, hknown⟩ := ht.armed fd spec hold
      exact ⟨callback, known_kept hw h hknown⟩
    · exact ⟨callback, .inr hpending⟩
  · intro entry hentry
    obtain hold | hentry := List.mem_append.mp hentry
    · obtain ⟨callback, hknown⟩ := ht.marked entry hold
      exact ⟨callback, known_kept hw h hknown⟩
    · obtain ⟨callback, hknown⟩ := tickMarks_known hw ht h hentry
      exact ⟨callback, known_kept hw h hknown⟩
  · intro callback fd hknown
    by_cases hold : Known s (.timer callback fd)
    · rw [marksOf_append, run_append, ht.latched callback fd hold]
      exact (tickMoves hw hs h hold).latch
    · obtain ⟨hmarks, hlatch, -⟩ := ht.started hw hs h hknown hold
      rw [hmarks, hlatch]
      rfl
  · intro callback fd hknown
    by_cases hold : Known s (.timer callback fd)
    · exact ((tickMoves hw hs h hold).log (ht.carried callback fd hold)).2
    · obtain ⟨-, -, hflight, -⟩ := ht.started hw hs h hknown hold
      simp [hflight]
  · intro callback fd hknown
    by_cases hold : Known s (.timer callback fd)
    · rw [((tickMoves hw hs h hold).log (ht.carried callback fd hold)).1, marksOf_append,
        ticks_append, ht.logged callback fd hold]
    · obtain ⟨hmarks, -, -, haccepted⟩ := ht.started hw hs h hknown hold
      rw [hmarks, haccepted]
      rfl

theorem ticking_init : Ticking (init n τ κ μ) [] where
  armed := nofun
  marked := nofun
  latched := fun _ _ hknown => absurd hknown (not_known_init _)
  carried := fun _ _ hknown => absurd hknown (not_known_init _)
  logged := fun _ _ hknown => absurd hknown (not_known_init _)

theorem ticking {typeName : τ → String} {marks : List (Int × Latch.Mark)}
    (h : Observed typeName s marks) : Ticking s marks := by
  refine h.keepsUnder (I := fun p => Wiring p.1 ∧ Sequenced p.1) (J := fun p => Ticking p.1 p.2)
    ?_ ticking_init ?_
  · intro p hp
    exact ⟨wiring hp.unobserved, sequenced hp.unobserved⟩
  · rintro p e q ⟨hw, hs⟩ ht hstep
    obtain ⟨hstep, hmarks⟩ := observe_eq_some.mp hstep
    rw [hmarks]
    exact ht.step hw hs hstep

/-- What the node owes to one timer; `marks` is what has been observed of it. -/
structure Covered (s : System n τ κ μ) (marks : List Latch.Mark) (callback : κ) (tfd : Int) :
    Prop where
  /-- The pool has got from its handler one tick for each enqueue, and nothing else. -/
  enqueued : acceptedFrom s tfd = ticks callback marks
  bounded : (acceptedFrom s tfd).length ≤ marks.count .raised
  /-- Between the reads behind two consecutive enqueues there is an expiration. -/
  separated : ∀ pre mid post, marks = pre ++ .delivered :: (mid ++ .delivered :: post) →
    .delivered ∉ mid → ∃ a b c d, pre = a ++ .taken :: b ∧ .taken ∉ b ∧ .delivered ∉ b ∧
      mid = c ++ .taken :: d ∧ .taken ∉ d ∧ .raised ∈ b ++ c
  /-- No expiration is left behind. -/
  followed : s.node.kernel.counter tfd = 0 → inFlight s tfd = [] →
    ∀ pre post, marks = pre ++ .raised :: post → .delivered ∈ post

theorem ticks_covered {typeName : τ → String} {marks : List (Int × Latch.Mark)}
    (h : Observed typeName s marks) :
    s.log.map Prod.snd = s.pool.accepted ∧
      (∀ callback tfd, Known s (.timer callback tfd) →
        Covered s (marksOf tfd marks) callback tfd) ∧
      ∀ callback tfd t, current s.node = some (.timer callback tfd) →
        s.node.kernel.counter tfd = 0 → step typeName s .read = some t →
          t = { s with handlerPc := .done } ∧ tickMarks s .read = [] := by
  refine ⟨(sequenced h.unobserved).accepted, ?_, ?_⟩
  · intro callback tfd hknown
    have hlatch := (ticking h).latched callback tfd hknown
    have hlogged := (ticking h).logged callback tfd hknown
    refine ⟨hlogged, ?_, ?_, ?_⟩
    · rw [hlogged]
      simpa [ticks] using Latch.count_delivered_le hlatch
    · intro pre mid post hmarks _
      rw [hmarks] at hlatch
      obtain ⟨a, b, c, d, hpre, hb, hb', hmid, hd, -, hraised⟩ :=
        Latch.raised_between_deliveries hlatch
      exact ⟨a, b, c, d, hpre, hb, hb', hmid, hd, hraised⟩
    · intro hcounter hflight pre post hmarks
      rw [hmarks] at hlatch
      exact Latch.delivered_after_raised hlatch hcounter (by simp [latchOf, hflight])
  · intro callback tfd t hinside hcounter hstep
    refine ⟨?_, by simp [tickMarks, hinside, hcounter]⟩
    cases moves hstep with
    | read handler inside here =>
        rw [hinside] at inside
        cases Option.some.inj inside
        exact read_failed hcounter

/-- Two expirations merged into one enqueue. -/
theorem ticks_covered_merged : ∃ (s : System 1 Unit Unit Unit) (marks : List (Int × Latch.Mark)),
    marks = [(5, .raised), (5, .raised), (5, .taken), (5, .delivered)] ∧
      s.log.map Prod.snd = s.pool.accepted ∧
      (∀ callback tfd, Known s (.timer callback tfd) →
        Covered s (marksOf tfd marks) callback tfd) ∧
      ∀ callback tfd t, current s.node = some (.timer callback tfd) →
        s.node.kernel.counter tfd = 0 → step (fun _ => "HelloWorld") s .read = some t →
          t = { s with handlerPc := .done } ∧ tickMarks s .read = [] := by
  have hrun : run (observe (step fun _ => "HelloWorld") tickMarks) (init 1 Unit Unit Unit, [])
      [.startTimer 5 10 (), .expire 5, .register, .loop .run, .loop .test, .loop .wait,
        .loop (.result (.events [5])), .loop .next, .expire 5, .read, .enqueue] = some _ := rfl
  exact ⟨_, _, rfl, ticks_covered (reachable_of_run hrun)⟩

/-- An expiration between a read and its enqueue is delivered by the next enqueue, with
no further one in between. -/
theorem not_expired_between : ¬ ∀ (s : System 1 Unit Unit Unit) (marks : List (Int × Latch.Mark)),
    Observed (fun _ => "HelloWorld") s marks → ∀ tfd, Known s (.timer () tfd) →
      ∀ pre mid post, marksOf tfd marks = pre ++ .delivered :: (mid ++ .delivered :: post) →
        .delivered ∉ mid → .raised ∈ mid := by
  intro hall
  have hrun : run (observe (step fun _ => "HelloWorld") tickMarks) (init 1 Unit Unit Unit, [])
      [.startTimer 5 10 (), .register, .expire 5, .loop .run, .loop .test, .loop .wait,
        .loop (.result (.events [5])), .loop .next, .read, .expire 5, .enqueue, .notify none,
        .loop .ret, .loop .next, .loop .test, .loop .wait, .loop (.result (.events [5])),
        .loop .next, .read, .enqueue] = some _ := rfl
  have hmem := hall _ _ (reachable_of_run hrun) 5 (.inl rfl) [.raised, .taken, .raised] [.taken] []
    rfl (by simp)
  simp at hmem

end TinyMiddleware.Bridge
