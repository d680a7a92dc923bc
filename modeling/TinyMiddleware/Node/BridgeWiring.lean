import TinyMiddleware.Node.Bridge

/-! Who is connected to what: each descriptor to its handler, each handler to its
reader, each reader through its listener back to the descriptor. -/
namespace TinyMiddleware.Bridge

open TinyMiddleware.Core Runs

variable {n : Nat} {τ κ μ : Type} {s t : System n τ κ μ}

/-- In the map, or about to be. -/
def Known (s : System n τ κ μ) (handler : Handler τ κ) : Prop :=
  s.node.loop.callbacks handler.fd = some handler ∨ s.pending = some handler

structure Wiring (s : System n τ κ μ) : Prop where
  own : ∀ fd handler, s.node.loop.callbacks fd = some handler →
    handler.fd = fd ∧ fd ∈ s.node.kernel.interest
  waiting : ∀ handler, s.pending = some handler → s.node.loop.pc = .outside ∧
    s.node.loop.callbacks handler.fd = none ∧ handler.fd ∈ s.node.kernel.isOpen ∧
      handler.fd ∉ s.node.kernel.interest
  listens : ∀ (r : Nat) reader, s.node.readers[r]? = some reader →
    reader.listener < s.node.listeners.length
  bound : ∀ msgType reader callback efd, Known s (.subscription msgType reader callback efd) →
    ∃ r, reader = some r ∧ listenerFd s.node r = some efd
  served : ∀ r efd, listenerFd s.node r = some efd →
    ∃ msgType callback, Known s (.subscription msgType (some r) callback efd)
  inside : ∀ handler, current s.node = some handler →
    s.node.loop.callbacks handler.fd = some handler
  kept : ∀ ctx ∈ s.node.subs, ∃ r, ctx.reader = some r ∧ listenerFd s.node r = some ctx.eventFd

theorem current_eq_some {node : Node τ κ} {handler : Handler τ κ} :
    current node = some handler ↔ ∃ rest, node.loop.pc = .callback handler rest := by
  unfold current
  cases node.loop.pc <;> simp

theorem Wiring.known_open (h : Wiring s) {handler : Handler τ κ} (known : Known s handler) :
    handler.fd ∈ s.node.kernel.isOpen := by
  obtain hmapped | hpending := known
  · exact s.node.kernel.interest_open (h.own _ _ hmapped).2
  · exact (h.waiting handler hpending).2.2.1

theorem Wiring.known_unique (h : Wiring s) {a b : Handler τ κ} (ha : Known s a) (hb : Known s b)
    (hfd : a.fd = b.fd) : a = b := by
  obtain ha | ha := ha <;> obtain hb | hb := hb
  · rw [hfd, hb] at ha
    exact (Option.some.inj ha).symm
  · rw [hfd, (h.waiting b hb).2.1] at ha
    cases ha
  · rw [← hfd, (h.waiting a ha).2.1] at hb
    cases hb
  · rw [ha] at hb
    exact Option.some.inj hb

/-- So does a reader: its listener signals one descriptor, and no other reader's does. -/
theorem Wiring.reader_unique (h : Wiring s) {r r' : Nat} {efd : Int}
    (hr : listenerFd s.node r = some efd) (hr' : listenerFd s.node r' = some efd) : r = r' := by
  obtain ⟨msgType, callback, hknown⟩ := h.served r efd hr
  obtain ⟨msgType', callback', hknown'⟩ := h.served r' efd hr'
  have heq := h.known_unique hknown hknown' rfl
  simp only [Handler.subscription.injEq, Option.some.injEq] at heq
  exact heq.2.1

theorem not_known_init (handler : Handler τ κ) : ¬ Known (init n τ κ μ) handler := by
  rintro (hmapped | hpending)
  · cases hmapped
  · cases hpending

theorem wiring_init : Wiring (init n τ κ μ) where
  own := nofun
  waiting := nofun
  listens := nofun
  bound := fun _ _ _ _ hknown => absurd hknown (not_known_init _)
  served := nofun
  inside := nofun
  kept := nofun

/-- Steps outside the creation functions and the loop leave all of this alone. -/
structure SameWiring (s t : System n τ κ μ) : Prop where
  pending : t.pending = s.pending
  loop : t.node.loop = s.node.loop
  readers : t.node.readers = s.node.readers
  listeners : t.node.listeners = s.node.listeners
  subs : t.node.subs = s.node.subs
  isOpen : t.node.kernel.isOpen = s.node.kernel.isOpen
  interest : t.node.kernel.interest = s.node.kernel.interest

theorem SameWiring.of_node (pending : t.pending = s.pending) (node : t.node = s.node) :
    SameWiring s t := by
  constructor <;> simp only [pending, node]

theorem SameWiring.known (h : SameWiring s t) (handler : Handler τ κ) :
    Known t handler ↔ Known s handler := by
  unfold Known
  rw [h.loop, h.pending]

theorem SameWiring.listenerFd (h : SameWiring s t) (r : Nat) :
    listenerFd t.node r = listenerFd s.node r := by
  unfold Bridge.listenerFd
  rw [h.readers, h.listeners]

theorem SameWiring.current (h : SameWiring s t) : current t.node = current s.node := by
  unfold Bridge.current
  rw [h.loop]

theorem SameWiring.wiring (h : SameWiring s t) (hs : Wiring s) : Wiring t where
  own := by
    rw [h.loop, h.interest]
    exact hs.own
  waiting := by
    rw [h.pending, h.loop, h.isOpen, h.interest]
    exact hs.waiting
  listens := by
    rw [h.readers, h.listeners]
    exact hs.listens
  bound := by
    intro msgType reader callback efd hknown
    obtain ⟨r, hr, hfd⟩ := hs.bound _ _ _ _ ((h.known _).mp hknown)
    exact ⟨r, hr, (h.listenerFd r).trans hfd⟩
  served := by
    intro r efd hfd
    obtain ⟨msgType, callback, hknown⟩ := hs.served r efd ((h.listenerFd r).symm.trans hfd)
    exact ⟨msgType, callback, (h.known _).mpr hknown⟩
  inside := by
    rw [h.current, h.loop]
    exact hs.inside
  kept := by
    intro ctx hctx
    obtain ⟨r, hr, hfd⟩ := hs.kept ctx (h.subs ▸ hctx)
    exact ⟨r, hr, (h.listenerFd r).trans hfd⟩

/-- A new reader and its listener, and nothing else. -/
theorem listenerFd_append {node node' : Node τ κ} {topic : Topic} {fd : Int}
    (hreaders : node'.readers = node.readers ++ [⟨topic, node.listeners.length⟩])
    (hlisteners : node'.listeners = node.listeners ++ [fd])
    (listens : ∀ (r : Nat) reader, node.readers[r]? = some reader →
      reader.listener < node.listeners.length) (r : Nat) (efd : Int) :
    listenerFd node' r = some efd ↔
      listenerFd node r = some efd ∨ r = node.readers.length ∧ efd = fd := by
  unfold listenerFd
  rw [hreaders, hlisteners]
  obtain hlt | heq | hgt := Nat.lt_trichotomy r node.readers.length
  · have hold := listens r _ (List.getElem?_eq_getElem hlt)
    rw [List.getElem?_append_left hlt, List.getElem?_eq_getElem hlt]
    simp only [Option.bind_some]
    rw [List.getElem?_append_left hold]
    constructor
    · exact Or.inl
    · rintro (h | ⟨h, -⟩)
      · exact h
      · omega
  · subst heq
    rw [List.getElem?_concat_length, List.getElem?_eq_none (Nat.le_refl _)]
    simp [eq_comm]
  · rw [List.getElem?_eq_none (by simp; omega), List.getElem?_eq_none (Nat.le_of_lt hgt)]
    simp
    omega

theorem Wiring.listenerFd_withReader (h : Wiring s) (kernel : Kernel) (participant : Participant τ)
    (topic : Topic) (fd : Int) (msgType : τ) (callback : κ) (r : Nat) (efd : Int) :
    listenerFd (withReader s kernel participant topic fd msgType callback).node r = some efd ↔
      listenerFd s.node r = some efd ∨ r = s.node.readers.length ∧ efd = fd :=
  listenerFd_append rfl rfl h.listens r efd

theorem Wiring.subscribed (h : Wiring s) {fd : Int} {msgType : τ} {callback : κ} {kernel : Kernel}
    {participant : Participant τ} {topic : Topic} (outside : s.node.loop.pc = .outside)
    (free : s.pending = none) (opens : Opens s.node.kernel fd kernel) :
    Wiring (withReader s kernel participant topic fd msgType callback) := by
  have hnew : s.node.loop.callbacks fd = none := by
    by_contra hsome
    obtain ⟨handler, hhandler⟩ := Option.ne_none_iff_exists'.mp hsome
    exact opens.fresh (s.node.kernel.interest_open (h.own fd handler hhandler).2)
  have hlistener := h.listenerFd_withReader kernel participant topic fd msgType callback
  constructor
  · intro d handler hmapped
    simp only [withReader, opens.interest]
    exact h.own d handler hmapped
  · rintro handler hpending
    cases Option.some.inj hpending
    simp only [withReader, opens.interest, opens.isOpen]
    exact ⟨outside, hnew, Finset.mem_insert_self _ _,
      fun hmem => opens.fresh (s.node.kernel.interest_open hmem)⟩
  · intro r reader hreader
    simp only [withReader, List.length_append, List.length_singleton]
    obtain hold | hnew := List.mem_append.mp (List.mem_of_getElem? hreader)
    · obtain ⟨i, hi⟩ := List.getElem?_of_mem hold
      exact Nat.lt_succ_of_lt (h.listens i reader hi)
    · rw [List.mem_singleton.mp hnew]
      exact Nat.lt_succ_self _
  · rintro m reader cb efd (hmapped | hpending)
    · obtain ⟨r, hr, hfd⟩ := h.bound m reader cb efd (Or.inl hmapped)
      exact ⟨r, hr, (hlistener r efd).mpr (Or.inl hfd)⟩
    · simp only [withReader, Option.some.injEq, Handler.subscription.injEq] at hpending
      obtain ⟨-, rfl, -, rfl⟩ := hpending
      exact ⟨_, rfl, (hlistener _ _).mpr (Or.inr ⟨rfl, rfl⟩)⟩
  · intro r efd hfd
    obtain hfd | ⟨rfl, rfl⟩ := (hlistener r efd).mp hfd
    · obtain ⟨m, cb, hmapped | hpending⟩ := h.served r efd hfd
      · exact ⟨m, cb, Or.inl hmapped⟩
      · rw [free] at hpending
        cases hpending
    · exact ⟨msgType, callback, Or.inr rfl⟩
  · exact h.inside
  · intro ctx hctx
    obtain hold | hctx := List.mem_append.mp hctx
    · obtain ⟨r, hr, hfd⟩ := h.kept ctx hold
      exact ⟨r, hr, (hlistener r _).mpr (Or.inl hfd)⟩
    · rw [List.mem_singleton.mp hctx]
      exact ⟨_, rfl, (hlistener _ _).mpr (Or.inr ⟨rfl, rfl⟩)⟩

theorem Wiring.timerStarted (h : Wiring s) {fd : Int} {callback : κ} {kernel : Kernel}
    (outside : s.node.loop.pc = .outside) (free : s.pending = none)
    (opens : Opens s.node.kernel fd kernel) :
    Wiring { s with node := withKernel s.node kernel, pending := some (.timer callback fd) } := by
  have hnew : s.node.loop.callbacks fd = none := by
    by_contra hsome
    obtain ⟨handler, hhandler⟩ := Option.ne_none_iff_exists'.mp hsome
    exact opens.fresh (s.node.kernel.interest_open (h.own fd handler hhandler).2)
  have hknown : ∀ m reader cb efd,
      Known s (.subscription m reader cb efd) ↔
        s.node.loop.callbacks efd = some (.subscription m reader cb efd) := by
    intro m reader cb efd
    unfold Known
    rw [free]
    simp [Handler.fd]
  constructor
  · intro d handler hmapped
    simp only [withKernel, opens.interest]
    exact h.own d handler hmapped
  · rintro handler hpending
    cases Option.some.inj hpending
    simp only [withKernel, opens.interest, opens.isOpen]
    exact ⟨outside, hnew, Finset.mem_insert_self _ _,
      fun hmem => opens.fresh (s.node.kernel.interest_open hmem)⟩
  · exact h.listens
  · rintro m reader cb efd (hmapped | hpending)
    · exact h.bound m reader cb efd (Or.inl hmapped)
    · cases hpending
  · intro r efd hfd
    obtain ⟨m, cb, hmapped⟩ := h.served r efd hfd
    exact ⟨m, cb, Or.inl ((hknown _ _ _ _).mp hmapped)⟩
  · exact h.inside
  · exact h.kept

theorem loop_registered (node : Node τ κ) (handler : Handler τ κ) :
    (registered node handler).loop = { node.loop with
      callbacks := Function.update node.loop.callbacks handler.fd (some handler) } := by
  cases handler <;> rfl

theorem kernel_registered (node : Node τ κ) (handler : Handler τ κ) :
    (registered node handler).kernel = (node.kernel.epollAdd handler.fd true).1 := by
  cases handler <;> rfl

theorem readers_registered (node : Node τ κ) (handler : Handler τ κ) :
    (registered node handler).readers = node.readers := by
  cases handler <;> rfl

theorem listeners_registered (node : Node τ κ) (handler : Handler τ κ) :
    (registered node handler).listeners = node.listeners := by
  cases handler <;> rfl

theorem subs_registered (node : Node τ κ) (handler : Handler τ κ) :
    (registered node handler).subs = node.subs := by
  cases handler <;> rfl

theorem listenerFd_registered (node : Node τ κ) (handler : Handler τ κ) (r : Nat) :
    listenerFd (registered node handler) r = listenerFd node r := by
  unfold listenerFd
  rw [readers_registered, listeners_registered]

theorem current_registered (node : Node τ κ) (handler : Handler τ κ) :
    current (registered node handler) = current node := by
  unfold current
  rw [loop_registered]

/-- Registration turns what was pending into what is mapped. -/
theorem Wiring.known_registered (h : Wiring s) {handler : Handler τ κ}
    (waits : s.pending = some handler) (other : Handler τ κ) :
    Known { s with node := registered s.node handler, pending := none } other ↔
      Known s other := by
  have hfree := (h.waiting handler waits).2.1
  unfold Known
  simp only [loop_registered, waits, Function.update_apply, reduceCtorEq, or_false,
    Option.some.injEq]
  constructor
  · intro hmapped
    split at hmapped
    · exact Or.inr (Option.some.inj hmapped)
    · exact Or.inl hmapped
  · rintro (hmapped | rfl)
    · rw [if_neg]
      · exact hmapped
      · intro heq
        rw [heq, hfree] at hmapped
        cases hmapped
    · rw [if_pos rfl]

theorem Wiring.registered (h : Wiring s) {handler : Handler τ κ}
    (waits : s.pending = some handler) :
    Wiring { s with node := registered s.node handler, pending := none } := by
  obtain ⟨houtside, -, hopen, hnot⟩ := h.waiting handler waits
  have hadded : (s.node.kernel.epollAdd handler.fd true).2 = true :=
    Kernel.epollAdd_eq_true.mpr ⟨rfl, hopen, hnot⟩
  have hcurrent : current s.node = none := by
    unfold current
    rw [houtside]
  constructor
  · intro fd other hmapped
    simp only [loop_registered, Function.update_apply] at hmapped
    simp only [kernel_registered, Kernel.interest_epollAdd hadded]
    split at hmapped
    · next hfd =>
        cases Option.some.inj hmapped
        exact ⟨hfd.symm, hfd ▸ Finset.mem_insert_self _ _⟩
    · obtain ⟨hfd, hmem⟩ := h.own fd other hmapped
      exact ⟨hfd, Finset.mem_insert_of_mem hmem⟩
  · intro other hpending
    cases hpending
  · simp only [readers_registered, listeners_registered]
    exact h.listens
  · intro m reader cb efd hknown
    obtain ⟨r, hr, hfd⟩ := h.bound m reader cb efd ((h.known_registered waits _).mp hknown)
    exact ⟨r, hr, (listenerFd_registered _ _ _).trans hfd⟩
  · intro r efd hfd
    obtain ⟨m, cb, hknown⟩ := h.served r efd ((listenerFd_registered _ _ _).symm.trans hfd)
    exact ⟨m, cb, (h.known_registered waits _).mpr hknown⟩
  · intro other hinside
    simp only [current_registered, hcurrent] at hinside
    cases hinside
  · intro ctx hctx
    simp only [subs_registered] at hctx
    obtain ⟨r, hr, hfd⟩ := h.kept ctx hctx
    exact ⟨r, hr, (listenerFd_registered _ _ _).trans hfd⟩

theorem known_withLoop {loop : EventLoop (Handler τ κ)}
    (hcallbacks : loop.callbacks = s.node.loop.callbacks) (pc : HandlerPc κ μ)
    (handler : Handler τ κ) :
    Known { s with node := withLoop s.node loop, handlerPc := pc } handler ↔ Known s handler := by
  unfold Known withLoop
  rw [hcallbacks]

/-- The loop only goes into handlers that it finds in the map. -/
theorem Wiring.looped (h : Wiring s) {e : EventLoop.Event} {loop : EventLoop (Handler τ κ)}
    (may : loopMay s e = true) (move : EventLoop.Moves s.node.loop e loop) :
    Wiring { s with node := withLoop s.node loop, handlerPc := entering s.handlerPc e } := by
  have hcallbacks := EventLoop.callbacks_step move
  constructor
  · simp only [withLoop, hcallbacks]
    exact h.own
  · intro handler hpending
    obtain ⟨houtside, hfree, hopen, hnot⟩ := h.waiting handler hpending
    -- nothing but `run` leads away from `outside`, and `run` waits for the creation
    exfalso
    have hrun : e = .run := by
      cases move with
      | entered => rfl
      | looped here | ended here | waits here | woken _ here | batchDone here | called _ _ _ here
      | skipped _ _ here | returned _ _ here => simp [houtside] at here
    subst hrun
    simp only [loopMay, Option.isNone_iff_eq_none] at may
    rw [may] at hpending
    cases hpending
  · exact h.listens
  · intro m reader cb efd hknown
    exact h.bound m reader cb efd ((known_withLoop hcallbacks _ _).mp hknown)
  · intro r efd hfd
    obtain ⟨m, cb, hknown⟩ := h.served r efd hfd
    exact ⟨m, cb, (known_withLoop hcallbacks _ _).mpr hknown⟩
  · intro handler hinside
    simp only [withLoop, hcallbacks]
    obtain ⟨rest, hpc⟩ := current_eq_some.mp hinside
    cases move with
    | called fd rest' cb here found =>
        cases hpc
        have hfd := (h.own fd _ found).1
        rw [hfd]
        exact found
    | woken r => cases r <;> cases hpc
    | _ => cases hpc
  · exact h.kept

def Event.rewires : Event n τ κ μ → Bool
  | .subscribe _ _ _ _ | .startTimer _ _ _ | .register | .loop _ => true
  | _ => false

theorem sameWiring_read (handler : Handler τ κ) : SameWiring s (read s handler) := by
  cases handler with
  | subscription => exact ⟨rfl, rfl, rfl, rfl, rfl, rfl, rfl⟩
  | timer callback tfd =>
      unfold read
      dsimp only
      split <;> exact ⟨rfl, rfl, rfl, rfl, rfl, rfl, rfl⟩

theorem Moves.sameWiring {e : Event n τ κ μ} (h : Moves s e t) (plain : e.rewires = false) :
    SameWiring s t := by
  cases h with
  | subscribed | timerStarted | registered | looped => cases plain
  | signalled =>
      exact ⟨rfl, rfl, rfl, rfl, rfl, Kernel.isOpen_eventfdWrite _ _,
        Kernel.interest_eventfdWrite _ _⟩
  | read handler => exact sameWiring_read handler
  | expired => exact ⟨rfl, rfl, rfl, rfl, rfl, rfl, rfl⟩
  | inserted | evicted | tookNone | took | enqueued | dropped | notified | worked =>
      exact .of_node rfl rfl

theorem Wiring.step {typeName : τ → String} (h : Wiring s) {e : Event n τ κ μ}
    (hstep : step typeName s e = some t) : Wiring t := by
  have hmove := moves hstep
  cases hplain : e.rewires with
  | false => exact (hmove.sameWiring hplain).wiring h
  | true =>
      cases hmove with
      | subscribed fd msgType topicName callback kernel participant topic outside free opens =>
          exact h.subscribed outside free opens
      | timerStarted fd periodMs callback kernel outside free opens =>
          exact h.timerStarted outside free opens
      | registered handler waits => exact h.registered waits
      | looped e loop may move => exact h.looped may move
      | _ => cases hplain

theorem wiring {typeName : τ → String} (h : Reachable typeName s) : Wiring s :=
  h.keeps wiring_init fun _ _ _ hs hstep => hs.step hstep

end TinyMiddleware.Bridge
