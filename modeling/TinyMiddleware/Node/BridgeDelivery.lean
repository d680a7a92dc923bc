import TinyMiddleware.Node.BridgeWiring

/-! What the bridge delivers: the pool gets from each subscription's handler what was
taken from its own reader, and no sample is left behind without a wake-up. -/
namespace TinyMiddleware.Bridge

open TinyMiddleware.Core Runs

variable {n : Nat} {τ κ μ : Type} {s t : System n τ κ μ}

/-- The tasks that the pool has accepted from the handler of one descriptor. -/
def acceptedFrom (s : System n τ κ μ) (fd : Int) : List (Task κ μ) :=
  (s.log.filter fun entry => decide (entry.1 = fd)).map Prod.snd

/-- The task that this handler is about to put into the pool. -/
def inFlight (s : System n τ κ μ) (fd : Int) : List (Task κ μ) :=
  match current s.node, s.handlerPc with
  | some handler, .enqueueing task => if handler.fd = fd then [task] else []
  | _, _ => []

def messages (callback : κ) (samples : List (Sample μ)) : List (Task κ μ) :=
  (samples.filter (·.validData)).map fun sample => .message callback sample.content

/-- The loop's thread is in this handler and will call `take_next_sample` again. -/
def Draining (s : System n τ κ μ) (fd : Int) : Prop :=
  (current s.node).map Handler.fd = some fd ∧ s.handlerPc ≠ .done

structure Sequenced (s : System n τ κ μ) : Prop where
  accepted : s.log.map Prod.snd = s.pool.accepted
  accepting : s.pool.stop = false
  logged : ∀ entry ∈ s.log, entry.1 ∈ s.node.kernel.isOpen
  unused : ∀ r, s.node.readers.length ≤ r → s.taken r = []
  paired : ∀ msgType r callback efd, Known s (.subscription msgType (some r) callback efd) →
    acceptedFrom s efd ++ inFlight s efd = messages callback (s.taken r)

/-- A reader with samples has a signal to come, a signal that has come, or the loop
in its handler. -/
structure Noticed (s : System n τ κ μ) : Prop where
  unused : ∀ r, s.node.readers.length ≤ r → s.history r = []
  noticed : ∀ r efd, listenerFd s.node r = some efd → s.history r ≠ [] →
    0 < s.signals r ∨ 0 < s.node.kernel.counter efd ∨ Draining s efd

theorem messages_concat (callback : κ) (samples : List (Sample μ)) (sample : Sample μ) :
    messages callback (samples ++ [sample]) = messages callback samples ++
      if sample.validData then [.message callback sample.content] else [] := by
  unfold messages
  rw [List.filter_append, List.map_append]
  cases hvalid : sample.validData <;> simp [hvalid]

theorem inFlight_of_not_current (h : current s.node = none) (fd : Int) : inFlight s fd = [] := by
  unfold inFlight
  rw [h]

theorem inFlight_of_not_enqueueing (h : ∀ task, s.handlerPc ≠ .enqueueing task) (fd : Int) :
    inFlight s fd = [] := by
  unfold inFlight
  split
  · next task _ hpc => exact absurd hpc (h task)
  · rfl

theorem inFlight_of_enqueueing {handler : Handler τ κ} {task : Task κ μ}
    (inside : current s.node = some handler) (here : s.handlerPc = .enqueueing task) (fd : Int) :
    inFlight s fd = if handler.fd = fd then [task] else [] := by
  unfold inFlight
  rw [inside, here]

theorem afterEnqueue_ne_enqueueing (handler : Handler τ κ) (task : Task κ μ) :
    afterEnqueue handler ≠ .enqueueing task := by
  cases handler <;> simp [afterEnqueue]

theorem acceptedFrom_append {s t : System n τ κ μ} {fd : Int} {task : Task κ μ}
    (hlog : t.log = s.log ++ [(fd, task)]) (efd : Int) :
    acceptedFrom t efd = acceptedFrom s efd ++ if fd = efd then [task] else [] := by
  unfold acceptedFrom
  rw [hlog, List.filter_append, List.map_append]
  by_cases hfd : fd = efd <;> simp [hfd]

/-- A worker takes tasks off the pool's hands; it does not touch what was accepted. -/
theorem accepted_worker {p q : ThreadPool.State n (Task κ μ)} {e : ThreadPool.Event n (Task κ μ)}
    (own : workerStep e = true) (h : ThreadPool.step p e = some q) :
    q.accepted = p.accepted ∧ q.stop = p.stop := by
  cases ThreadPool.moves h with
  | locked | left | popped | idle | blocked | woken | invoked | finished => exact ⟨rfl, rfl⟩
  | _ => cases own

theorem accepted_notify {p q : ThreadPool.State n (Task κ μ)} {woken : Option (Fin n)}
    (h : ThreadPool.step p (.notify woken) = some q) :
    q.accepted = p.accepted ∧ q.stop = p.stop := by
  cases ThreadPool.moves h <;> exact ⟨rfl, rfl⟩

theorem accepted_enqueue {p q : ThreadPool.State n (Task κ μ)} {task : Task κ μ}
    (accepting : p.stop = false) (h : ThreadPool.step p (.enqueue task) = some q) :
    q.accepted = p.accepted ++ [task] ∧ q.stop = p.stop := by
  cases ThreadPool.moves h with
  | enqueueDropped task free stopped =>
      rw [accepting] at stopped
      cases stopped
  | enqueued => exact ⟨rfl, rfl⟩

theorem sequenced_init : Sequenced (init n τ κ μ) where
  accepted := rfl
  accepting := rfl
  logged := nofun
  unused := fun _ _ => rfl
  paired := fun _ _ _ _ hknown => absurd hknown (not_known_init _)

/-- Nothing was ever accepted under a descriptor that is not open. -/
theorem Sequenced.acceptedFrom_fresh (hs : Sequenced s) {fd : Int}
    (fresh : fd ∉ s.node.kernel.isOpen) : acceptedFrom s fd = [] := by
  unfold acceptedFrom
  rw [List.filter_eq_nil_iff.mpr, List.map_nil]
  intro entry hentry heq
  rw [decide_eq_true_eq] at heq
  exact fresh (heq ▸ hs.logged entry hentry)

theorem Sequenced.frame (h : Sequenced s)
    (known : ∀ msgType r callback efd, Known t (.subscription msgType (some r) callback efd) →
      Known s (.subscription msgType (some r) callback efd) ∧ inFlight t efd = inFlight s efd)
    (isOpen : s.node.kernel.isOpen ⊆ t.node.kernel.isOpen)
    (readers : s.node.readers.length ≤ t.node.readers.length)
    (taken : t.taken = s.taken) (log : t.log = s.log)
    (pool : t.pool.accepted = s.pool.accepted ∧ t.pool.stop = s.pool.stop) : Sequenced t where
  accepted := by
    rw [log, pool.1]
    exact h.accepted
  accepting := pool.2.trans h.accepting
  logged := by
    intro entry hentry
    exact isOpen (h.logged entry (log ▸ hentry))
  unused := by
    intro r hr
    rw [taken]
    exact h.unused r (Nat.le_trans readers hr)
  paired := by
    intro msgType r callback efd hknown
    obtain ⟨hknown, hflight⟩ := known msgType r callback efd hknown
    rw [hflight, taken]
    unfold acceptedFrom
    rw [log]
    exact h.paired msgType r callback efd hknown

theorem Sequenced.plain (h : Sequenced s) (same : SameWiring s t)
    (flight : ∀ msgType r callback efd, Known s (.subscription msgType (some r) callback efd) →
      inFlight t efd = inFlight s efd)
    (taken : t.taken = s.taken) (log : t.log = s.log)
    (pool : t.pool.accepted = s.pool.accepted ∧ t.pool.stop = s.pool.stop) : Sequenced t := by
  refine h.frame ?_ (same.isOpen ▸ Finset.Subset.refl _) (same.readers ▸ Nat.le_refl _) taken log
    pool
  intro msgType r callback efd hknown
  have hknown := (same.known _).mp hknown
  exact ⟨hknown, flight msgType r callback efd hknown⟩

theorem Wiring.known_current (h : Wiring s) {handler : Handler τ κ}
    (inside : current s.node = some handler) : Known s handler :=
  Or.inl (h.inside handler inside)

theorem Wiring.known_reader (h : Wiring s) {msgType msgType' : τ} {r r' : Nat}
    {callback callback' : κ} {efd efd' : Int}
    (hr : Known s (.subscription msgType (some r) callback efd))
    (hr' : Known s (.subscription msgType' (some r') callback' efd')) : r = r' ↔ efd = efd' := by
  obtain ⟨_, heq, hfd⟩ := h.bound _ _ _ _ hr
  obtain ⟨_, heq', hfd'⟩ := h.bound _ _ _ _ hr'
  cases Option.some.inj heq
  cases Option.some.inj heq'
  constructor
  · rintro rfl
    rw [hfd] at hfd'
    exact Option.some.inj hfd'
  · rintro rfl
    exact h.reader_unique hfd hfd'

/-- While the loop is at one of its own steps, no handler has a task in its hands. -/
theorem inFlight_looped {e : EventLoop.Event} {loop : EventLoop (Handler τ κ)}
    (may : loopMay s e = true) (move : EventLoop.Moves s.node.loop e loop) (fd : Int) :
    inFlight s fd = [] ∧
      inFlight { s with node := withLoop s.node loop, handlerPc := entering s.handlerPc e } fd =
        [] := by
  have hbefore : ∀ {pc}, s.node.loop.pc = pc → (∀ cb rest, pc ≠ .callback cb rest) →
      inFlight s fd = [] := by
    intro pc hpc hne
    apply inFlight_of_not_current
    cases hcurrent : current s.node with
    | none => rfl
    | some handler =>
        obtain ⟨rest, hrest⟩ := current_eq_some.mp hcurrent
        exact absurd (hpc.symm.trans hrest) (hne handler rest)
  cases move with
  | returned cb rest here =>
      -- a handler returns from its end only
      have hdone : s.handlerPc = .done := by
        simp only [loopMay] at may
        split at may
        · assumption
        · cases may
      exact ⟨inFlight_of_not_enqueueing (by simp [hdone]) fd, inFlight_of_not_current rfl fd⟩
  | called fd' rest cb here found =>
      refine ⟨hbefore here (by simp), inFlight_of_not_enqueueing ?_ fd⟩
      intro task hpc
      cases hpc
  | entered here | looped here | ended here | waits here | batchDone here | skipped _ _ here =>
      exact ⟨hbefore here (by simp), inFlight_of_not_current rfl fd⟩
  | woken r here =>
      refine ⟨hbefore here (by simp), inFlight_of_not_current ?_ fd⟩
      cases r <;> rfl

theorem Sequenced.subscribed (h : Sequenced s) {fd : Int} {msgType : τ} {callback : κ}
    {kernel : Kernel} {participant : Participant τ} {topic : Topic}
    (outside : s.node.loop.pc = .outside) (opens : Opens s.node.kernel fd kernel) :
    Sequenced (withReader s kernel participant topic fd msgType callback) where
  accepted := h.accepted
  accepting := h.accepting
  logged := by
    intro entry hentry
    simp only [withReader, opens.isOpen]
    exact Finset.mem_insert_of_mem (h.logged entry hentry)
  unused := by
    intro r hr
    simp only [withReader, List.length_append, List.length_singleton] at hr
    exact h.unused r (by omega)
  paired := by
    have hidle : current s.node = none := by
      unfold current
      rw [outside]
    have hflight : ∀ d,
        inFlight (withReader s kernel participant topic fd msgType callback) d = [] :=
      inFlight_of_not_current hidle
    rintro m r cb efd (hmapped | hpending)
    · rw [hflight, ← inFlight_of_not_current hidle efd]
      exact h.paired m r cb efd (Or.inl hmapped)
    · simp only [withReader, Option.some.injEq, Handler.subscription.injEq] at hpending
      obtain ⟨-, rfl, -, rfl⟩ := hpending
      have hnone := h.acceptedFrom_fresh opens.fresh
      rw [hflight, List.append_nil]
      change acceptedFrom s fd = messages cb (s.taken s.node.readers.length)
      rw [hnone, h.unused _ (Nat.le_refl _)]
      rfl

theorem inFlight_takeSample {handler : Handler τ κ} (inside : current s.node = some handler)
    (reader i : Nat) (callback : κ) (sample : Sample μ) (fd : Int) :
    inFlight (takeSample s reader i callback sample) fd =
      if sample.validData ∧ handler.fd = fd then [.message callback sample.content] else [] := by
  cases hvalid : sample.validData with
  | true =>
      have hpc : (takeSample s reader i callback sample).handlerPc =
          .enqueueing (.message callback sample.content) := by
        simp [takeSample, hvalid]
      have hcurrent : current (takeSample s reader i callback sample).node = some handler := inside
      rw [inFlight_of_enqueueing hcurrent hpc]
      simp
  | false =>
      rw [inFlight_of_not_enqueueing (by simp [takeSample, hvalid])]
      simp

theorem Sequenced.took (h : Sequenced s) (hw : Wiring s) {msgType : τ} {reader : Nat}
    {callback : κ} {efd : Int} {i : Nat} {sample : Sample μ}
    (inside : current s.node = some (.subscription msgType (some reader) callback efd))
    (here : s.handlerPc = .draining) : Sequenced (takeSample s reader i callback sample) where
  accepted := h.accepted
  accepting := h.accepting
  logged := h.logged
  unused := by
    intro r hr
    simp only [takeSample]
    obtain ⟨_, heq, hfd⟩ := hw.bound _ _ _ _ (hw.known_current inside)
    cases Option.some.inj heq
    rw [Function.update_of_ne]
    · exact h.unused r hr
    · rintro rfl
      unfold listenerFd at hfd
      have hnone : s.node.readers[r]? = none := List.getElem?_eq_none hr
      rw [hnone] at hfd
      cases hfd
  paired := by
    intro m r cb d hknown
    have hold := h.paired m r cb d hknown
    rw [inFlight_of_not_enqueueing (by simp [here]), List.append_nil] at hold
    have hunique := hw.known_reader hknown (hw.known_current inside)
    change acceptedFrom s d ++ inFlight (takeSample s reader i callback sample) d = _
    rw [hold, inFlight_takeSample inside]
    simp only [takeSample]
    by_cases hd : d = efd
    · have hr := hunique.mpr hd
      subst hd hr
      have hsame := hw.known_unique hknown (hw.known_current inside) rfl
      simp only [Handler.subscription.injEq] at hsame
      obtain ⟨-, -, rfl, -⟩ := hsame
      rw [Function.update_self, messages_concat]
      simp [Handler.fd]
    · have hr : r ≠ reader := fun heq => hd (hunique.mp heq)
      rw [Function.update_of_ne hr]
      simp [Handler.fd, Ne.symm hd]

theorem Sequenced.enqueued (h : Sequenced s) (hw : Wiring s) {handler : Handler τ κ}
    {task : Task κ μ} {pool : ThreadPool.State n (Task κ μ)}
    (inside : current s.node = some handler) (here : s.handlerPc = .enqueueing task)
    (move : ThreadPool.step s.pool (.enqueue task) = some pool) :
    Sequenced { s with
      pool := pool, handlerPc := .notifying, log := s.log ++ [(handler.fd, task)] } := by
  obtain ⟨haccepted, hstop⟩ := accepted_enqueue h.accepting move
  constructor
  · simp only [List.map_append, List.map_cons, List.map_nil, haccepted, h.accepted]
  · exact hstop.trans h.accepting
  · intro entry hentry
    obtain hold | hentry := List.mem_append.mp hentry
    · exact h.logged entry hold
    · rw [List.mem_singleton.mp hentry]
      exact hw.known_open (hw.known_current inside)
  · exact h.unused
  · intro m r cb efd hknown
    have hold := h.paired m r cb efd hknown
    rw [inFlight_of_enqueueing inside here] at hold
    rw [inFlight_of_not_enqueueing, acceptedFrom_append rfl, List.append_nil]
    · exact hold
    · simp

theorem read_frame (s : System n τ κ μ) (handler : Handler τ κ) :
    (read s handler).history = s.history ∧ (read s handler).signals = s.signals ∧
      (read s handler).taken = s.taken ∧ (read s handler).log = s.log ∧
        (read s handler).pool = s.pool := by
  cases handler with
  | subscription => exact ⟨rfl, rfl, rfl, rfl, rfl⟩
  | timer callback tfd =>
      unfold read
      dsimp only
      split <;> exact ⟨rfl, rfl, rfl, rfl, rfl⟩

theorem counter_read (s : System n τ κ μ) (handler : Handler τ κ) {fd : Int}
    (hne : handler.fd ≠ fd) :
    (read s handler).node.kernel.counter fd = s.node.kernel.counter fd := by
  cases handler with
  | subscription =>
      simp only [read, withKernel, Kernel.counter_setCounter]
      exact if_neg hne.symm
  | timer callback tfd =>
      unfold read
      dsimp only
      split
      · simp only [withKernel, Kernel.counter_setCounter]
        exact if_neg hne.symm
      · rfl

theorem Sequenced.read (h : Sequenced s) (hw : Wiring s) {handler : Handler τ κ}
    (inside : current s.node = some handler) (here : s.handlerPc = .entry) :
    Sequenced (read s handler) := by
  obtain ⟨-, -, htaken, hlog, hpool⟩ := read_frame s handler
  have hcurrent := (sameWiring_read handler).current.trans inside
  refine h.plain (sameWiring_read handler) ?_ htaken hlog (by simp [hpool])
  intro m r cb efd hknown
  rw [inFlight_of_not_enqueueing (s := s) (by simp [here])]
  cases hpc : (Bridge.read s handler).handlerPc with
  | enqueueing task =>
      rw [inFlight_of_enqueueing hcurrent hpc, if_neg]
      -- it is the handler of a timer, and this descriptor is a subscription's
      intro heq
      cases hw.known_unique (hw.known_current inside) hknown heq
      cases hpc
  | _ =>
      rw [inFlight_of_not_enqueueing]
      simp [hpc]

theorem Sequenced.idle (h : Sequenced s) (same : SameWiring s t)
    (before : ∀ task, s.handlerPc ≠ .enqueueing task)
    (after : ∀ task, t.handlerPc ≠ .enqueueing task) (taken : t.taken = s.taken)
    (log : t.log = s.log)
    (pool : t.pool.accepted = s.pool.accepted ∧ t.pool.stop = s.pool.stop) : Sequenced t := by
  refine h.plain same ?_ taken log pool
  intro _ _ _ d _
  rw [inFlight_of_not_enqueueing before, inFlight_of_not_enqueueing after]

theorem Sequenced.step {typeName : τ → String} (h : Sequenced s) (hw : Wiring s)
    {e : Event n τ κ μ} (hstep : step typeName s e = some t) : Sequenced t := by
  cases moves hstep with
  | subscribed fd msgType topicName callback kernel participant topic outside free opens =>
      exact h.subscribed outside opens
  | timerStarted fd periodMs callback kernel outside free opens =>
      refine h.frame ?_ ?_ (Nat.le_refl _) rfl rfl ⟨rfl, rfl⟩
      · rintro m r cb efd (hmapped | hpending)
        · exact ⟨Or.inl hmapped, rfl⟩
        · cases hpending
      · simp only [withKernel, opens.isOpen]
        exact Finset.subset_insert _ _
  | registered handler waits =>
      refine h.frame ?_ ?_ ?_ rfl rfl ⟨rfl, rfl⟩
      · intro m r cb efd hknown
        refine ⟨(hw.known_registered waits _).mp hknown, ?_⟩
        unfold inFlight
        rw [current_registered]
      · rw [kernel_registered, Kernel.isOpen_epollAdd]
      · rw [readers_registered]
  | looped e loop may move =>
      refine h.frame ?_ (Finset.Subset.refl _) (Nat.le_refl _) rfl rfl ⟨rfl, rfl⟩
      intro m r cb efd hknown
      obtain ⟨hbefore, hafter⟩ := inFlight_looped may move efd
      exact ⟨(known_withLoop (EventLoop.callbacks_step move) _ _).mp hknown,
        hafter.trans hbefore.symm⟩
  | inserted | evicted | expired | signalled =>
      exact h.plain ((moves hstep).sameWiring rfl) (fun _ _ _ _ _ => rfl) rfl rfl ⟨rfl, rfl⟩
  | read handler inside here => exact h.read hw inside here
  | tookNone m r cb efd inside here empty =>
      refine h.idle (.of_node rfl rfl) ?_ (by simp) rfl rfl ⟨rfl, rfl⟩
      simp [here]
  | took m r cb efd i sample inside here present => exact h.took hw inside here
  | enqueued handler task pool inside here accepting move => exact h.enqueued hw inside here move
  | dropped handler task pool inside here stopped move =>
      rw [h.accepting] at stopped
      cases stopped
  | notified woken handler pool inside here move =>
      refine h.idle (.of_node rfl rfl) ?_
        (afterEnqueue_ne_enqueueing handler) rfl rfl (accepted_notify move)
      simp [here]
  | worked e pool own move =>
      exact h.plain (.of_node rfl rfl) (fun _ _ _ _ _ => rfl) rfl rfl
        (accepted_worker own move)

theorem noticed_init : Noticed (init n τ κ μ) where
  unused := fun _ _ => rfl
  noticed := fun _ _ _ hunread => absurd rfl hunread

theorem draining_of_current {handler : Handler τ κ} (inside : current s.node = some handler)
    (fd : Int) : Draining s fd ↔ handler.fd = fd ∧ s.handlerPc ≠ .done := by
  unfold Draining
  rw [inside]
  simp

theorem not_draining_of_not_current (h : current s.node = none) (fd : Int) : ¬ Draining s fd := by
  unfold Draining
  rw [h]
  simp

theorem not_draining_looped {e : EventLoop.Event} {loop : EventLoop (Handler τ κ)}
    (may : loopMay s e = true) (move : EventLoop.Moves s.node.loop e loop) (fd : Int) :
    ¬ Draining s fd := by
  intro hdraining
  cases hcurrent : current s.node with
  | none => exact not_draining_of_not_current hcurrent fd hdraining
  | some handler =>
      obtain ⟨rest, hpc⟩ := current_eq_some.mp hcurrent
      cases move with
      | returned cb rest here =>
          simp only [loopMay] at may
          split at may
          · next hdone => exact hdraining.2 hdone
          · cases may
      | entered here | looped here | ended here | waits here | woken _ here | batchDone here
      | called _ _ _ here | skipped _ _ here =>
          rw [hpc] at here
          cases here

theorem Wiring.listener_open (h : Wiring s) {r : Nat} {efd : Int}
    (hr : listenerFd s.node r = some efd) : efd ∈ s.node.kernel.isOpen := by
  obtain ⟨msgType, callback, hknown⟩ := h.served r efd hr
  exact h.known_open hknown

theorem Wiring.timer_ne (h : Wiring s) {callback : κ} {tfd : Int}
    (inside : current s.node = some (.timer callback tfd)) {r : Nat} {efd : Int}
    (hr : listenerFd s.node r = some efd) : tfd ≠ efd := by
  rintro rfl
  obtain ⟨m, cb, hknown⟩ := h.served r tfd hr
  cases h.known_unique hknown (h.known_current inside) rfl

/-- Steps that give no reader a sample, take no signal and clear no counter. -/
theorem Noticed.frame (h : Noticed s) (same : SameWiring s t)
    (history : ∀ r, t.history r ≠ [] → s.history r ≠ []) (signals : t.signals = s.signals)
    (counter : ∀ fd, 0 < s.node.kernel.counter fd → 0 < t.node.kernel.counter fd)
    (draining : ∀ r efd, listenerFd s.node r = some efd → t.history r ≠ [] →
      Draining s efd → Draining t efd) : Noticed t where
  unused := by
    intro r hr
    by_contra hunread
    exact history r hunread (h.unused r (same.readers ▸ hr))
  noticed := by
    intro r efd hr hunread
    rw [same.listenerFd] at hr
    rw [signals]
    obtain hsignal | hcounter | hdraining := h.noticed r efd hr (history r hunread)
    · exact Or.inl hsignal
    · exact Or.inr (Or.inl (counter efd hcounter))
    · exact Or.inr (Or.inr (draining r efd hr hunread hdraining))

theorem Noticed.subscribed (h : Noticed s) (hw : Wiring s) {fd : Int} {msgType : τ} {callback : κ}
    {kernel : Kernel} {participant : Participant τ} {topic : Topic}
    (opens : Opens s.node.kernel fd kernel) :
    Noticed (withReader s kernel participant topic fd msgType callback) where
  unused := by
    intro r hr
    simp only [withReader, List.length_append, List.length_singleton] at hr
    exact h.unused r (by omega)
  noticed := by
    intro r efd hr hunread
    obtain hr | ⟨rfl, -⟩ := (listenerFd_append rfl rfl hw.listens r efd).mp hr
    · have hne : efd ≠ fd := by
        intro heq
        exact opens.fresh (heq ▸ hw.listener_open hr)
      obtain hsignal | hcounter | hdraining := h.noticed r efd hr hunread
      · exact Or.inl hsignal
      · refine Or.inr (Or.inl ?_)
        simp only [withReader, opens.counter efd hne]
        exact hcounter
      · exact Or.inr (Or.inr hdraining)
    · exact absurd (h.unused _ (Nat.le_refl _)) hunread

/-- `write` makes the counter positive before the signal is spent. -/
theorem Noticed.signalled (h : Noticed s) (hw : Wiring s) {reader : Nat} {efd : Int}
    (listens : listenerFd s.node reader = some efd) :
    Noticed { s with
      node := withKernel s.node (s.node.kernel.eventfdWrite efd)
      signals := Function.update s.signals reader (s.signals reader - 1) } where
  unused := h.unused
  noticed := by
    intro r d hr hunread
    by_cases heq : r = reader
    · subst heq
      change listenerFd s.node r = some d at hr
      rw [listens] at hr
      cases Option.some.inj hr
      exact Or.inr (Or.inl (Kernel.eventfdWrite_pos _ _))
    · have hne : d ≠ efd := by
        rintro rfl
        exact heq (hw.reader_unique hr listens)
      simp only [withKernel, Function.update_of_ne heq, Kernel.counter_eventfdWrite_of_ne _ hne]
      exact h.noticed r d hr hunread

/-- The handler clears the counter first, and only then looks at the history. -/
theorem Noticed.read (h : Noticed s) (hw : Wiring s) {handler : Handler τ κ}
    (inside : current s.node = some handler) : Noticed (read s handler) := by
  obtain ⟨hhistory, hsignals, -, -, -⟩ := read_frame s handler
  have hcurrent := (sameWiring_read handler).current.trans inside
  constructor
  · intro r hr
    rw [hhistory]
    exact h.unused r ((sameWiring_read handler).readers ▸ hr)
  · intro r efd hr hunread
    rw [(sameWiring_read handler).listenerFd] at hr
    rw [hhistory] at hunread
    rw [hsignals]
    by_cases heq : handler.fd = efd
    · obtain ⟨m, cb, hknown⟩ := hw.served r efd hr
      cases hw.known_unique (hw.known_current inside) hknown heq
      refine Or.inr (Or.inr ((draining_of_current hcurrent efd).mpr ⟨rfl, ?_⟩))
      simp [Bridge.read]
    · rw [counter_read s handler heq]
      obtain hsignal | hcounter | hdraining := h.noticed r efd hr hunread
      · exact Or.inl hsignal
      · exact Or.inr (Or.inl hcounter)
      · exact absurd ((draining_of_current inside efd).mp hdraining).1 heq

theorem Noticed.took (h : Noticed s) {reader i : Nat} {callback : κ} {sample : Sample μ}
    (present : (s.history reader)[i]? = some sample) :
    Noticed (takeSample s reader i callback sample) := by
  have hsome : s.history reader ≠ [] := List.ne_nil_of_mem (List.mem_of_getElem? present)
  refine h.frame (.of_node rfl rfl) ?_ rfl (fun _ hpos => hpos) ?_
  · intro r hunread
    by_cases heq : r = reader
    · rw [heq]
      exact hsome
    · simpa only [takeSample, Function.update_of_ne heq] using hunread
  · rintro r d hr - ⟨hinside, -⟩
    refine ⟨hinside, ?_⟩
    simp only [takeSample]
    split <;> simp

/-- `take_next_sample` fails on an empty history only. -/
theorem Noticed.tookNone (h : Noticed s) (hw : Wiring s) {msgType : τ} {reader : Nat}
    {callback : κ} {efd : Int}
    (inside : current s.node = some (.subscription msgType (some reader) callback efd))
    (empty : s.history reader = []) : Noticed { s with handlerPc := .done } := by
  refine h.frame (.of_node rfl rfl) (fun _ hunread => hunread) rfl
    (fun _ hpos => hpos) ?_
  intro r d hr hunread hdraining
  have hd := ((draining_of_current inside d).mp hdraining).1
  obtain ⟨_, heq, hfd⟩ := hw.bound _ _ _ _ (hw.known_current inside)
  cases Option.some.inj heq
  subst hd
  rw [hw.reader_unique hr hfd] at hunread
  exact absurd empty hunread

/-- After `enqueue` a subscription's handler goes on; a timer's does not, but it is no
reader's. -/
theorem Noticed.notified (h : Noticed s) (hw : Wiring s) {handler : Handler τ κ}
    {pool : ThreadPool.State n (Task κ μ)} (inside : current s.node = some handler) :
    Noticed { s with pool := pool, handlerPc := afterEnqueue handler } := by
  refine h.frame (.of_node rfl rfl) (fun _ hunread => hunread) rfl
    (fun _ hpos => hpos) ?_
  intro r d hr _ hdraining
  refine ⟨hdraining.1, ?_⟩
  have hd := ((draining_of_current inside d).mp hdraining).1
  cases handler with
  | subscription => simp [afterEnqueue]
  | timer callback tfd => exact absurd hd (hw.timer_ne inside hr)

theorem Noticed.step {typeName : τ → String} (h : Noticed s) (hw : Wiring s) {e : Event n τ κ μ}
    (hstep : step typeName s e = some t) : Noticed t := by
  cases moves hstep with
  | subscribed fd msgType topicName callback kernel participant topic outside free opens =>
      exact h.subscribed hw opens
  | timerStarted fd periodMs callback kernel outside free opens =>
      refine ⟨h.unused, ?_⟩
      intro r efd hr hunread
      have hne : efd ≠ fd := by
        rintro rfl
        exact opens.fresh (hw.listener_open hr)
      simp only [withKernel, opens.counter efd hne]
      exact h.noticed r efd hr hunread
  | registered handler waits =>
      constructor
      · simp only [readers_registered]
        exact h.unused
      · simp only [listenerFd_registered, kernel_registered, Kernel.counter_epollAdd, Draining,
          current_registered]
        exact h.noticed
  | looped e loop may move =>
      refine ⟨h.unused, ?_⟩
      intro r efd hr hunread
      obtain hsignal | hcounter | hdraining := h.noticed r efd hr hunread
      · exact Or.inl hsignal
      · exact Or.inr (Or.inl hcounter)
      · exact absurd hdraining (not_draining_looped may move efd)
  | inserted reader sample known =>
      constructor
      · intro r hr
        have hne : r ≠ reader := by
          rintro rfl
          exact absurd known (Nat.not_lt.mpr hr)
        simp only [Function.update_of_ne hne]
        exact h.unused r hr
      · intro r efd hr hunread
        by_cases heq : r = reader
        · subst heq
          simp only [Function.update_self]
          exact Or.inl (Nat.succ_pos _)
        · simp only [Function.update_of_ne heq] at hunread ⊢
          exact h.noticed r efd hr hunread
  | evicted reader i present =>
      refine h.frame (.of_node rfl rfl) ?_ rfl (fun _ hpos => hpos)
        (fun _ _ _ _ hdraining => hdraining)
      intro r hunread
      by_cases heq : r = reader
      · rw [heq]
        exact List.ne_nil_of_length_pos (Nat.zero_lt_of_lt present)
      · simpa only [Function.update_of_ne heq] using hunread
  | signalled reader efd listens owes => exact h.signalled hw listens
  | expired tfd =>
      refine h.frame ((moves hstep).sameWiring rfl) (fun _ hunread => hunread) rfl ?_
        (fun _ _ _ _ hdraining => hdraining)
      intro fd hpos
      simp only [withKernel, Kernel.counter_setCounter]
      split
      · exact Nat.succ_pos _
      · exact hpos
  | read handler inside here => exact h.read hw inside
  | tookNone m r cb efd inside here empty => exact h.tookNone hw inside empty
  | took m r cb efd i sample inside here present => exact h.took present
  | enqueued handler task pool inside here accepting move =>
      exact h.frame (.of_node rfl rfl) (fun _ hunread => hunread) rfl
        (fun _ hpos => hpos) (fun _ _ _ _ hdraining => ⟨hdraining.1, by simp⟩)
  | dropped handler task pool inside here stopped move => exact h.notified hw inside
  | notified woken handler pool inside here move => exact h.notified hw inside
  | worked e pool own move =>
      exact h.frame (.of_node rfl rfl) (fun _ hunread => hunread) rfl
        (fun _ hpos => hpos) (fun _ _ _ _ hdraining => hdraining)

theorem sequenced {typeName : τ → String} (h : Reachable typeName s) : Sequenced s :=
  h.keepsUnder (fun _ => wiring) sequenced_init fun _ _ _ hw hs hstep => hs.step hw hstep

theorem noticed {typeName : τ → String} (h : Reachable typeName s) : Noticed s :=
  h.keepsUnder (fun _ => wiring) noticed_init fun _ _ _ hw hs hstep => hs.step hw hstep

/-- The pool inside the node is a pool: what holds of every pool holds here. -/
theorem pool_reachable {typeName : τ → String} (h : Reachable typeName s) :
    ThreadPool.Reachable s.pool := by
  have sim : Simulation (step typeName) ThreadPool.step (fun _ => True)
      (System.pool (n := n) (τ := τ) (κ := κ) (μ := μ)) := by
    refine ⟨fun _ _ _ _ _ => trivial, ?_⟩
    intro u e v _ hstep
    cases moves hstep with
    | enqueued handler task pool inside here accepting move => exact .single move
    | dropped handler task pool inside here stopped move => exact .single move
    | notified woken handler pool inside here move => exact .single move
    | worked e pool own move => exact .single move
    | read handler =>
        rw [(read_frame u handler).2.2.2.2]
    | _ => exact .refl
  exact sim.reachable h trivial

/-- What the bridge owes to one subscription. -/
structure Delivered (s : System n τ κ μ) (reader : Nat) (callback : κ) (efd : Int) : Prop where
  /-- Its tasks in the pool are the valid samples taken from its reader, in that order,
  but for one that is about to be enqueued. -/
  sequence : acceptedFrom s efd ++ inFlight s efd = messages callback (s.taken reader)
  /-- No other subscription has its reader or its descriptor. -/
  alone : ∀ msgType r cb d, Known s (.subscription msgType (some r) cb d) →
    (r = reader ↔ d = efd) ∧ (r = reader → cb = callback)
  /-- No wake-up is lost. -/
  noticed : s.history reader ≠ [] →
    0 < s.signals reader ∨ 0 < s.node.kernel.counter efd ∨ Draining s efd
  /-- `epoll_wait` will see it. -/
  watched : s.pending = none → (s.node.kernel.readable efd = true ↔ 0 < s.node.kernel.counter efd)

theorem end_to_end_delivery {typeName : τ → String} (h : Reachable typeName s) :
    s.log.map Prod.snd = s.pool.accepted ∧
      (∀ ctx ∈ s.node.subs, ∃ msgType callback,
        Known s (.subscription msgType ctx.reader callback ctx.eventFd)) ∧
      ∀ msgType reader callback efd, Known s (.subscription msgType reader callback efd) →
        ∃ r, reader = some r ∧ Delivered s r callback efd := by
  have hw := wiring h
  have hs := sequenced h
  refine ⟨hs.accepted, ?_, ?_⟩
  · intro ctx hctx
    obtain ⟨r, hr, hfd⟩ := hw.kept ctx hctx
    rw [hr]
    exact hw.served r _ hfd
  · intro msgType reader callback efd hknown
    obtain ⟨r, rfl, hfd⟩ := hw.bound _ _ _ _ hknown
    refine ⟨r, rfl, hs.paired _ _ _ _ hknown, ?_, (noticed h).noticed r efd hfd, ?_⟩
    · intro m r' cb d hother
      have hiff := hw.known_reader hother hknown
      refine ⟨hiff, ?_⟩
      intro hr
      cases hw.known_unique hother hknown (hiff.mp hr)
      rfl
    · intro hpending
      obtain hmapped | hwaits := hknown
      · rw [Kernel.readable_iff]
        exact and_iff_right (hw.own _ _ hmapped).2
      · rw [hpending] at hwaits
        cases hwaits

/-- Two subscriptions on one topic, the first with a sample from before it was registered. -/
theorem end_to_end_delivery_two : ∃ s : System 4 Unit Nat Nat,
    s.log = [(6, .message 20 7), (5, .message 10 8)] ∧
      s.log.map Prod.snd = s.pool.accepted ∧
      (∀ ctx ∈ s.node.subs, ∃ msgType callback,
        Known s (.subscription msgType ctx.reader callback ctx.eventFd)) ∧
      ∀ msgType reader callback efd, Known s (.subscription msgType reader callback efd) →
        ∃ r, reader = some r ∧ Delivered s r callback efd := by
  have hrun : run (step fun _ => "HelloWorld") (init 4 Unit Nat Nat)
      [.subscribe 5 () "chatter" 10, .insert 0 ⟨8, true⟩, .onDataAvailable 0, .register,
        .subscribe 6 () "chatter" 20, .register, .insert 1 ⟨7, true⟩, .onDataAvailable 1,
        .loop .run, .loop .test, .loop .wait, .loop (.result (.events [6, 5])),
        .loop .next, .read, .take (some 0), .enqueue, .notify none, .take none, .loop .ret,
        .loop .next, .read, .take (some 0), .enqueue] = some _ := rfl
  exact ⟨_, rfl, end_to_end_delivery (reachable_of_run hrun)⟩

end TinyMiddleware.Bridge
