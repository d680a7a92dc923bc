import TinyMiddleware.Core.ThreadPool
import TinyMiddleware.Node.Subscriptions

/-! A whole `Node` at work: DDS threads, the loop's thread with the handlers it calls,
and the workers of the pool. Subscriptions and timers are created before `run`, all
successfully, and DDS and the timers do not wait for `run` to begin. -/
namespace TinyMiddleware.Bridge

open TinyMiddleware.Core Runs

variable {n : Nat} {τ κ μ : Type}

structure Sample (μ : Type) where
  content : μ
  validData : Bool
  deriving DecidableEq, Repr

/-- The lambdas that handlers put into the pool. -/
inductive Task (κ μ : Type) where
  | message (callback : κ) (sample : μ)
  | tick (callback : κ)
  deriving DecidableEq, Repr

/-- Where the loop's thread stands in a handler. `draining` is before a call of
`take_next_sample`; at `notifying`, `enqueue` has pushed and let go of the mutex. -/
inductive HandlerPc (κ μ : Type) where
  | entry
  | draining
  | enqueueing (task : Task κ μ)
  | notifying
  | done

/-- `history` and `signals` belong to the readers: the samples that can be taken, and
the calls of `on_data_available` still to come. `pending` is the handler that a
creation function is about to register. `taken` and `log` are histories: the samples
taken from each reader, and each task with the descriptor of the handler it is from. -/
structure System (n : Nat) (τ κ μ : Type) where
  node : Node τ κ
  pending : Option (Handler τ κ)
  pool : ThreadPool.State n (Task κ μ)
  handlerPc : HandlerPc κ μ
  history : Nat → List (Sample μ)
  signals : Nat → Nat
  taken : Nat → List (Sample μ)
  log : List (Int × Task κ μ)

/-- `subscribe` and `startTimer` are the creation functions up to `addEvent`, which
is `register`. A task never enqueues: the pool is private to the node. -/
inductive Event (n : Nat) (τ κ μ : Type) where
  | subscribe (fd : Nat) (msgType : τ) (topicName : String) (callback : κ)
  | startTimer (fd : Nat) (periodMs : Int) (callback : κ)
  | register
  | insert (reader : Nat) (sample : Sample μ)
  | evict (reader i : Nat)
  | onDataAvailable (reader : Nat)
  | expire (tfd : Int)
  | loop (e : EventLoop.Event)
  | read
  | take (i : Option Nat)
  | enqueue
  | notify (woken : Option (Fin n))
  | worker (e : ThreadPool.Event n (Task κ μ))

def init (n : Nat) (τ κ μ : Type) : System n τ κ μ where
  node := Node.init τ κ
  pending := none
  pool := ThreadPool.init n _
  handlerPc := .done
  history := fun _ => []
  signals := fun _ => 0
  taken := fun _ => []
  log := []

/-- The `efd_` of the listener that a reader was created with. -/
def listenerFd (node : Node τ κ) (reader : Nat) : Option Int :=
  node.readers[reader]?.bind fun r => node.listeners[r.listener]?

def current (node : Node τ κ) : Option (Handler τ κ) :=
  match node.loop.pc with
  | .callback handler _ => some handler
  | _ => none

/-- Before `run`, with no other creation under way. -/
def mayCreate (s : System n τ κ μ) (fd : Nat) : Bool :=
  match s.node.loop.pc, s.pending with
  | .outside, none => decide ((fd : Int) ∉ s.node.kernel.isOpen)
  | _, _ => false

def withKernel (node : Node τ κ) (kernel : Kernel) : Node τ κ :=
  { node with kernel := kernel }

def withLoop (node : Node τ κ) (loop : EventLoop (Handler τ κ)) : Node τ κ :=
  { node with loop := loop }

/-- `addEvent`, and what `create_wall_timer` does after it. -/
def registered (node : Node τ κ) (handler : Handler τ κ) : Node τ κ :=
  match handler with
  | .subscription _ _ _ _ => node.addEvent handler true
  | .timer callback tfd =>
      { node.addEvent handler true with timers := node.timers ++ [⟨tfd, callback⟩] }

/-- The kernel reports readable descriptors only, and a handler returns at its end. -/
def loopMay (s : System n τ κ μ) : EventLoop.Event → Bool
  | .run => s.pending.isNone
  | .result (.events fds) => s.node.kernel.mayReport fds
  | .ret => match s.handlerPc with
    | .done => true
    | _ => false
  | _ => true

def entering (pc : HandlerPc κ μ) : EventLoop.Event → HandlerPc κ μ
  | .next => .entry
  | _ => pc

/-- After `enqueue`: a subscription takes the next sample, a timer is done. -/
def afterEnqueue : Handler τ κ → HandlerPc κ μ
  | .subscription _ _ _ _ => .draining
  | .timer _ _ => .done

/-- The steps of a worker whose task makes no `enqueue` call. -/
def workerStep : ThreadPool.Event n (Task κ μ) → Bool
  | .lock _ | .test _ | .block _ | .spurious _ | .finish _ => true
  | .invoke _ calls => calls.isEmpty
  | _ => false

/-- The `read` at the start of a handler. It clears the count, and fails when that is
zero; only a timer's handler looks at the outcome. -/
def read (s : System n τ κ μ) : Handler τ κ → System n τ κ μ
  | .subscription _ _ _ efd =>
      { s with
        node := withKernel s.node (s.node.kernel.setCounter efd 0)
        handlerPc := .draining }
  | .timer callback tfd =>
      if 0 < s.node.kernel.counter tfd then
        { s with
          node := withKernel s.node (s.node.kernel.setCounter tfd 0)
          handlerPc := .enqueueing (.tick callback) }
      else { s with handlerPc := .done }

/-- A successful `take_next_sample`, and the test of `valid_data`. Which sample comes
next is the reader's business. -/
def takeSample (s : System n τ κ μ) (reader i : Nat) (callback : κ) (sample : Sample μ) :
    System n τ κ μ :=
  { s with
    history := Function.update s.history reader ((s.history reader).eraseIdx i)
    taken := Function.update s.taken reader (s.taken reader ++ [sample])
    handlerPc := if sample.validData then .enqueueing (.message callback sample.content)
      else .draining }

def take (s : System n τ κ μ) (reader : Nat) (callback : κ) : Option Nat → Option (System n τ κ μ)
  | none => if (s.history reader).isEmpty then some { s with handlerPc := .done } else none
  | some i => ((s.history reader)[i]?).map (takeSample s reader i callback)

section
variable (typeName : τ → String)

def step (s : System n τ κ μ) : Event n τ κ μ → Option (System n τ κ μ)
  | .subscribe fd msgType topicName callback =>
      if mayCreate s fd then
        match s.node.prepareSubscription typeName ⟨some fd, true, true, true⟩ msgType topicName
          callback with
        | (node, some handler) => some { s with node := node, pending := some handler }
        | (_, none) => none
      else none
  | .startTimer fd periodMs callback =>
      if mayCreate s fd then
        match s.node.prepareWallTimer (some fd) periodMs callback with
        | (node, some handler) => some { s with node := node, pending := some handler }
        | (_, none) => none
      else none
  | .register => s.pending.map fun handler =>
      { s with node := registered s.node handler, pending := none }
  | .insert reader sample =>
      if reader < s.node.readers.length then
        some { s with
          history := Function.update s.history reader (s.history reader ++ [sample])
          signals := Function.update s.signals reader (s.signals reader + 1) }
      else none
  | .evict reader i =>
      if i < (s.history reader).length then
        some { s with history := Function.update s.history reader ((s.history reader).eraseIdx i) }
      else none
  | .onDataAvailable reader =>
      match listenerFd s.node reader with
      | some efd =>
          if 0 < s.signals reader then
            some { s with
              node := withKernel s.node (s.node.kernel.eventfdWrite efd)
              signals := Function.update s.signals reader (s.signals reader - 1) }
          else none
      | none => none
  | .expire tfd =>
      match s.node.kernel.armed tfd with
      | some _ => some { s with
          node := withKernel s.node (s.node.kernel.setCounter tfd (s.node.kernel.counter tfd + 1)) }
      | none => none
  | .loop e =>
      if loopMay s e then
        (s.node.loop.step e).map fun loop =>
          { s with
            node := withLoop s.node loop
            handlerPc := entering s.handlerPc e }
      else none
  | .read =>
      match current s.node, s.handlerPc with
      | some handler, .entry => some (read s handler)
      | _, _ => none
  | .take i =>
      match current s.node, s.handlerPc with
      | some (.subscription _ (some reader) callback _), .draining => take s reader callback i
      | _, _ => none
  | .enqueue =>
      match current s.node, s.handlerPc with
      | some handler, .enqueueing task =>
          (ThreadPool.step s.pool (.enqueue task)).map fun pool =>
            if s.pool.stop then { s with pool := pool, handlerPc := afterEnqueue handler }
            else { s with
              pool := pool
              handlerPc := .notifying
              log := s.log ++ [(handler.fd, task)] }
      | _, _ => none
  | .notify woken =>
      match current s.node, s.handlerPc with
      | some handler, .notifying =>
          (ThreadPool.step s.pool (.notify woken)).map fun pool =>
            { s with pool := pool, handlerPc := afterEnqueue handler }
      | _, _ => none
  | .worker e =>
      if workerStep e then
        (ThreadPool.step s.pool e).map fun pool => { s with pool := pool }
      else none

abbrev Reachable (s : System n τ κ μ) : Prop :=
  Runs.Reachable (step typeName) (init n τ κ μ) s

end

/-- The kernel has handed out `fd` and done nothing else to anybody. -/
structure Opens (before : Kernel) (fd : Int) (after : Kernel) : Prop where
  fresh : fd ∉ before.isOpen
  isOpen : after.isOpen = insert fd before.isOpen
  interest : after.interest = before.interest
  counter : ∀ d, d ≠ fd → after.counter d = before.counter d

/-- What `create_subscription` has done when it comes to `addEvent`. -/
def withReader (s : System n τ κ μ) (kernel : Kernel) (participant : Participant τ) (topic : Topic)
    (fd : Int) (msgType : τ) (callback : κ) : System n τ κ μ :=
  { s with
    node := { s.node with
      kernel := kernel
      participant := participant
      listeners := s.node.listeners ++ [fd]
      readers := s.node.readers ++ [⟨topic, s.node.listeners.length⟩]
      subs := s.node.subs ++ [⟨topic, some s.node.readers.length, s.node.listeners.length, fd⟩] }
    pending := some (.subscription msgType (some s.node.readers.length) callback fd) }

inductive Moves (s : System n τ κ μ) : Event n τ κ μ → System n τ κ μ → Prop
  | subscribed (fd : Nat) (msgType : τ) (topicName : String) (callback : κ) (kernel : Kernel)
      (participant : Participant τ) (topic : Topic) (outside : s.node.loop.pc = .outside)
      (free : s.pending = none) (opens : Opens s.node.kernel fd kernel) :
      Moves s (.subscribe fd msgType topicName callback)
        (withReader s kernel participant topic fd msgType callback)
  | timerStarted (fd : Nat) (periodMs : Int) (callback : κ) (kernel : Kernel)
      (outside : s.node.loop.pc = .outside) (free : s.pending = none)
      (opens : Opens s.node.kernel fd kernel) :
      Moves s (.startTimer fd periodMs callback)
        { s with node := withKernel s.node kernel, pending := some (.timer callback fd) }
  | registered (handler : Handler τ κ) (waits : s.pending = some handler) :
      Moves s .register { s with node := registered s.node handler, pending := none }
  | inserted (reader : Nat) (sample : Sample μ) (known : reader < s.node.readers.length) :
      Moves s (.insert reader sample)
        { s with
          history := Function.update s.history reader (s.history reader ++ [sample])
          signals := Function.update s.signals reader (s.signals reader + 1) }
  | evicted (reader i : Nat) (present : i < (s.history reader).length) :
      Moves s (.evict reader i)
        { s with history := Function.update s.history reader ((s.history reader).eraseIdx i) }
  | signalled (reader : Nat) (efd : Int) (listens : listenerFd s.node reader = some efd)
      (owes : 0 < s.signals reader) :
      Moves s (.onDataAvailable reader)
        { s with
          node := withKernel s.node (s.node.kernel.eventfdWrite efd)
          signals := Function.update s.signals reader (s.signals reader - 1) }
  | expired (tfd : Int) :
      Moves s (.expire tfd)
        { s with
          node := withKernel s.node (s.node.kernel.setCounter tfd (s.node.kernel.counter tfd + 1)) }
  | looped (e : EventLoop.Event) (loop : EventLoop (Handler τ κ)) (may : loopMay s e = true)
      (move : EventLoop.Moves s.node.loop e loop) :
      Moves s (.loop e)
        { s with
          node := withLoop s.node loop
          handlerPc := entering s.handlerPc e }
  | read (handler : Handler τ κ) (inside : current s.node = some handler)
      (here : s.handlerPc = .entry) :
      Moves s .read (read s handler)
  | tookNone (msgType : τ) (reader : Nat) (callback : κ) (efd : Int)
      (inside : current s.node = some (.subscription msgType (some reader) callback efd))
      (here : s.handlerPc = .draining) (empty : s.history reader = []) :
      Moves s (.take none) { s with handlerPc := .done }
  | took (msgType : τ) (reader : Nat) (callback : κ) (efd : Int) (i : Nat) (sample : Sample μ)
      (inside : current s.node = some (.subscription msgType (some reader) callback efd))
      (here : s.handlerPc = .draining) (present : (s.history reader)[i]? = some sample) :
      Moves s (.take (some i)) (takeSample s reader i callback sample)
  | enqueued (handler : Handler τ κ) (task : Task κ μ) (pool : ThreadPool.State n (Task κ μ))
      (inside : current s.node = some handler) (here : s.handlerPc = .enqueueing task)
      (accepting : s.pool.stop = false)
      (move : ThreadPool.step s.pool (.enqueue task) = some pool) :
      Moves s .enqueue
        { s with pool := pool, handlerPc := .notifying, log := s.log ++ [(handler.fd, task)] }
  | dropped (handler : Handler τ κ) (task : Task κ μ) (pool : ThreadPool.State n (Task κ μ))
      (inside : current s.node = some handler) (here : s.handlerPc = .enqueueing task)
      (stopped : s.pool.stop = true)
      (move : ThreadPool.step s.pool (.enqueue task) = some pool) :
      Moves s .enqueue { s with pool := pool, handlerPc := afterEnqueue handler }
  | notified (woken : Option (Fin n)) (handler : Handler τ κ)
      (pool : ThreadPool.State n (Task κ μ)) (inside : current s.node = some handler)
      (here : s.handlerPc = .notifying)
      (move : ThreadPool.step s.pool (.notify woken) = some pool) :
      Moves s (.notify woken) { s with pool := pool, handlerPc := afterEnqueue handler }
  | worked (e : ThreadPool.Event n (Task κ μ)) (pool : ThreadPool.State n (Task κ μ))
      (own : workerStep e = true) (move : ThreadPool.step s.pool e = some pool) :
      Moves s (.worker e) { s with pool := pool }

theorem mayCreate_iff {s : System n τ κ μ} {fd : Nat} :
    mayCreate s fd = true ↔
      s.node.loop.pc = .outside ∧ s.pending = none ∧ (fd : Int) ∉ s.node.kernel.isOpen := by
  unfold mayCreate
  cases hpc : s.node.loop.pc <;> cases hpending : s.pending <;> simp

theorem opens_openFd {k : Kernel} {fd : Nat} (fresh : (fd : Int) ∉ k.isOpen) :
    Opens k fd (k.openFd (some fd)).1 where
  fresh := fresh
  isOpen := (Kernel.openFd_some fresh).2.1
  interest := (Kernel.openFd_some fresh).2.2
  counter := by
    intro d hd
    simp [Kernel.openFd, fresh, hd]

theorem Opens.timerfdSettime {k k' : Kernel} {fd : Int} (h : Opens k fd k') (spec : ITimerSpec) :
    Opens k fd (k'.timerfdSettime fd spec).1 where
  fresh := h.fresh
  isOpen := by
    rw [Kernel.isOpen_timerfdSettime, h.isOpen]
  interest := by
    rw [Kernel.interest_timerfdSettime, h.interest]
  counter := by
    intro d hd
    rw [← h.counter d hd]
    unfold Kernel.timerfdSettime
    split
    · exact Function.update_of_ne hd _ _
    · rfl

private theorem moves_subscribe {typeName : τ → String} {s t : System n τ κ μ} {fd : Nat}
    {msgType : τ} {topicName : String} {callback : κ}
    (h : step typeName s (.subscribe fd msgType topicName callback) = some t) :
    Moves s (.subscribe fd msgType topicName callback) t := by
  obtain ⟨hmay, h⟩ := Option.ite_none_right_eq_some.mp h
  obtain ⟨houtside, hfree, hfresh⟩ := mayCreate_iff.mp hmay
  have hfd := (Kernel.openFd_some hfresh).1
  cases htopic : Node.topicFor typeName s.node true msgType topicName with
  | none =>
      have hmissing := (Node.topicFor_eq_none_iff typeName s.node ⟨none, true, true, true⟩ msgType
        topicName).mp htopic
      exact Bool.noConfusion hmissing.2
  | some topic =>
      unfold Node.topicFor at htopic
      simp only [Node.prepareSubscription, htopic, if_true, hfd, Option.some.injEq] at h
      subst h
      exact .subscribed fd msgType topicName callback _ _ topic houtside hfree (opens_openFd hfresh)

private theorem moves_startTimer {typeName : τ → String} {s t : System n τ κ μ} {fd : Nat}
    {periodMs : Int} {callback : κ}
    (h : step typeName s (.startTimer fd periodMs callback) = some t) :
    Moves s (.startTimer fd periodMs callback) t := by
  obtain ⟨hmay, h⟩ := Option.ite_none_right_eq_some.mp h
  obtain ⟨houtside, hfree, hfresh⟩ := mayCreate_iff.mp hmay
  have hfd := (Kernel.openFd_some hfresh).1
  have hvalid : (fd : Int) ≠ -1 := by omega
  simp only [Node.prepareWallTimer, hfd, hvalid, if_false] at h
  split at h
  · next node handler heq =>
      split at heq
      · simp only [Prod.mk.injEq, Option.some.injEq] at heq
        obtain ⟨rfl, rfl⟩ := heq
        cases Option.some.inj h
        exact .timerStarted fd periodMs callback _ houtside hfree
          ((opens_openFd hfresh).timerfdSettime _)
      · simp at heq
  · cases h

/-- Every proof about the node's steps starts here. -/
theorem moves {typeName : τ → String} {s t : System n τ κ μ} {e : Event n τ κ μ}
    (h : step typeName s e = some t) : Moves s e t := by
  cases e with
  | subscribe fd msgType topicName callback => exact moves_subscribe h
  | startTimer fd periodMs callback => exact moves_startTimer h
  | register =>
      obtain ⟨handler, hwaits, rfl⟩ := Option.map_eq_some_iff.mp h
      exact .registered handler hwaits
  | insert reader sample =>
      obtain ⟨hknown, h⟩ := Option.ite_none_right_eq_some.mp h
      exact Option.some.inj h ▸ .inserted reader sample hknown
  | evict reader i =>
      obtain ⟨hpresent, h⟩ := Option.ite_none_right_eq_some.mp h
      exact Option.some.inj h ▸ .evicted reader i hpresent
  | onDataAvailable reader =>
      simp only [step] at h
      split at h
      · next efd hlistens =>
          obtain ⟨howes, h⟩ := Option.ite_none_right_eq_some.mp h
          exact Option.some.inj h ▸ .signalled reader efd hlistens howes
      · cases h
  | expire tfd =>
      simp only [step] at h
      split at h
      · exact Option.some.inj h ▸ .expired tfd
      · cases h
  | loop e =>
      obtain ⟨hmay, h⟩ := Option.ite_none_right_eq_some.mp h
      obtain ⟨loop, hloop, rfl⟩ := Option.map_eq_some_iff.mp h
      exact .looped e loop hmay (EventLoop.moves hloop)
  | read =>
      simp only [step] at h
      split at h
      · next handler hinside hhere => exact Option.some.inj h ▸ .read handler hinside hhere
      · cases h
  | take i =>
      simp only [step] at h
      split at h
      · next msgType reader callback efd hinside hhere =>
          cases i with
          | none =>
              obtain ⟨hempty, h⟩ := Option.ite_none_right_eq_some.mp h
              exact Option.some.inj h ▸ .tookNone msgType reader callback efd hinside hhere
                (List.isEmpty_iff.mp hempty)
          | some i =>
              obtain ⟨sample, hpresent, rfl⟩ := Option.map_eq_some_iff.mp h
              exact .took msgType reader callback efd i sample hinside hhere hpresent
      · cases h
  | enqueue =>
      simp only [step] at h
      split at h
      · next handler task hinside hhere =>
          obtain ⟨pool, hpool, rfl⟩ := Option.map_eq_some_iff.mp h
          cases hstop : s.pool.stop with
          | true => exact .dropped handler task pool hinside hhere hstop hpool
          | false => exact .enqueued handler task pool hinside hhere hstop hpool
      · cases h
  | notify woken =>
      simp only [step] at h
      split at h
      · next handler hinside hhere =>
          obtain ⟨pool, hpool, rfl⟩ := Option.map_eq_some_iff.mp h
          exact .notified woken handler pool hinside hhere hpool
      · cases h
  | worker e =>
      obtain ⟨hown, h⟩ := Option.ite_none_right_eq_some.mp h
      obtain ⟨pool, hpool, rfl⟩ := Option.map_eq_some_iff.mp h
      exact .worked e pool hown hpool

theorem registered_prepareSubscription {typeName : τ → String} {node prepared : Node τ κ}
    {o : Node.SubOutcome} {msgType : τ} {topicName : String} {callback : κ} {handler : Handler τ κ}
    (h : node.prepareSubscription typeName o msgType topicName callback = (prepared, some handler))
    (hepoll : o.epoll = true) :
    node.createSubscription typeName o msgType topicName callback =
      registered prepared handler := by
  have hkind : ∃ reader efd, handler = .subscription msgType reader callback efd := by
    unfold Node.prepareSubscription at h
    dsimp only at h
    split at h
    · simp at h
    · simp only [Prod.mk.injEq, Option.some.injEq] at h
      exact ⟨_, _, h.2.symm⟩
  obtain ⟨reader, efd, rfl⟩ := hkind
  unfold Node.createSubscription
  rw [h, hepoll]
  rfl

theorem registered_prepareWallTimer {node prepared : Node τ κ} {timerfd : Option Nat}
    {periodMs : Int} {callback : κ} {handler : Handler τ κ}
    (h : node.prepareWallTimer timerfd periodMs callback = (prepared, some handler)) :
    node.createWallTimer timerfd true periodMs callback =
      (registered prepared handler, some ⟨handler.fd, callback⟩) := by
  have hkind : ∃ tfd, handler = .timer callback tfd := by
    unfold Node.prepareWallTimer at h
    dsimp only at h
    split at h
    · simp at h
    · split at h
      · simp only [Prod.mk.injEq, Option.some.injEq] at h
        exact ⟨_, h.2.symm⟩
      · simp at h
  obtain ⟨tfd, rfl⟩ := hkind
  unfold Node.createWallTimer
  rw [h]
  rfl

/-- A call of `create_subscription` is `subscribe` and then `register`, if DDS keeps still. -/
theorem subscribe_register {typeName : τ → String} {s t : System n τ κ μ} {fd : Nat} {msgType : τ}
    {topicName : String} {callback : κ}
    (h : step typeName s (.subscribe fd msgType topicName callback) = some t) :
    ∃ u, step typeName t .register = some u ∧ u.pending = none ∧
      u.node = s.node.createSubscription typeName ⟨some fd, true, true, true⟩ msgType topicName
        callback := by
  obtain ⟨-, h⟩ := Option.ite_none_right_eq_some.mp h
  split at h
  · next node handler hprepared =>
      cases Option.some.inj h
      exact ⟨_, rfl, rfl, (registered_prepareSubscription hprepared rfl).symm⟩
  · cases h

/-- A call of `create_wall_timer` is `startTimer` and then `register`. -/
theorem startTimer_register {typeName : τ → String} {s t : System n τ κ μ} {fd : Nat}
    {periodMs : Int} {callback : κ}
    (h : step typeName s (.startTimer fd periodMs callback) = some t) :
    ∃ u, step typeName t .register = some u ∧ u.pending = none ∧
      u.node = (s.node.createWallTimer (some fd) true periodMs callback).1 := by
  obtain ⟨-, h⟩ := Option.ite_none_right_eq_some.mp h
  split at h
  · next node handler hprepared =>
      cases Option.some.inj h
      exact ⟨_, rfl, rfl, (congrArg Prod.fst (registered_prepareWallTimer hprepared)).symm⟩
  · cases h

end TinyMiddleware.Bridge
