import TinyMiddleware.Lib.Accounts
import TinyMiddleware.Node.Teardown

/-! What a `Node` opens and allocates, and what of it is given back by the time the
node and the last timer pointer are gone. -/
namespace TinyMiddleware.Resources

open TinyMiddleware.Core Runs Teardown

variable {τ κ : Type} (typeName : τ → String)

/-- A descriptor goes by its number, which the kernel may hand out again. The
participant stands for its entities too, for they go with it or not at all. -/
inductive Resource where
  | descriptor (fd : Int)
  | listener (place : Nat)
  | participant
  deriving DecidableEq, Repr

/-- Some thread is inside `run`. -/
def inRun {κ : Type} : LoopPc κ → Bool
  | .outside | .left => false
  | _ => true

/-- `vector` and `users` are the places in `timers` whose contexts `timers_` and the
user still point to. `spinning` says whether a thread was in `run` when the body of
`~Node` ran, and `hazards` are the descriptors that were closed while they were
registered and a thread was in `run`. -/
structure State (τ κ : Type) where
  node : Node τ κ
  ledger : Ledger Resource Resource
  vector : Finset Nat
  users : Finset Nat
  stage : Stage
  spinning : Bool
  hazards : List Int

/-- The constructor exits the process when it gets no participant. -/
def init (τ κ : Type) : State τ κ where
  node := Node.init τ κ
  ledger := Ledger.acquire ⟨[], 0, fun _ => none, []⟩ .participant
  vector := ∅
  users := ∅
  stage := .body
  spinning := false
  hazards := []

/-- `unref` is the end of one reference in `timers_`, whose destructor has returned
when all of them have ended; `destroy` is as in the teardown of the other members. -/
inductive Event (τ κ : Type) where
  | subscribe (call : Node.SubCall τ κ)
  | publisher (outcome : Node.PubOutcome) (msgType : τ) (topicName : String)
  | timer (timerfd : Option Nat) (epoll : Bool) (periodMs : Int) (callback : κ)
  | drop (i : Nat)
  | loop (e : EventLoop.Event)
  | body
  | unref (i : Nat)
  | destroy

/-- What `eventfd` or `timerfd_create` has given, if anything. -/
def opened (l : Ledger Resource Resource) (fd : Int) : Ledger Resource Resource :=
  if fd = -1 then l else l.acquire (.descriptor fd)

def hazard (k : Kernel) (pc : LoopPc (Handler τ κ)) (fd : Int) : List Int :=
  if fd ∈ k.interest ∧ inRun pc = true then [fd] else []

namespace State

def refs (s : State τ κ) : Finset Nat :=
  s.vector ∪ s.users

/-- The eventfd is closed by hand where there is no topic; else the listener is allocated. -/
def subscribe (s : State τ κ) (call : Node.SubCall τ κ) : State τ κ :=
  let fd := s.node.kernel.openFd call.outcome.eventfd
  match (s.node.prepareSubscription typeName call.outcome call.msgType call.topicName
    call.callback).2 with
  | none => { s with
      node := s.node.subscribe typeName call
      ledger := (opened s.ledger fd.2).release (.descriptor fd.2)
      hazards := s.hazards ++ hazard fd.1 s.node.loop.pc fd.2 }
  | some _ => { s with
      node := s.node.subscribe typeName call
      ledger := (opened s.ledger fd.2).acquire (.listener s.node.listeners.length) }

/-- The timerfd is closed by hand where `timerfd_settime` fails; else two pointers to
the context come to be. -/
def createTimer (s : State τ κ) (timerfd : Option Nat) (epoll : Bool) (periodMs : Int)
    (callback : κ) : State τ κ :=
  let fd := s.node.kernel.openFd timerfd
  let created := s.node.createWallTimer timerfd epoll periodMs callback
  match created.2 with
  | none =>
      if fd.2 = -1 then { s with node := created.1 }
      else { s with
        node := created.1
        ledger := (opened s.ledger fd.2).release (.descriptor fd.2)
        hazards := s.hazards ++
          hazard (fd.1.timerfdSettime fd.2 (Node.timerSpec periodMs)).1 s.node.loop.pc fd.2 }
  | some _ => { s with
      node := created.1
      ledger := opened s.ledger fd.2
      vector := insert s.node.timers.length s.vector
      users := insert s.node.timers.length s.users }

def close (s : State τ κ) (fd : Int) : State τ κ :=
  { s with
    node := { s.node with kernel := s.node.kernel.close fd }
    ledger := s.ledger.release (.descriptor fd)
    hazards := s.hazards ++ hazard s.node.kernel s.node.loop.pc fd }

/-- `~TimerContext`. -/
def destroyContext (s : State τ κ) (ctx : TimerContext κ) : State τ κ :=
  if 0 < ctx.timerFd then s.close ctx.timerFd else s

/-- The context of this place goes with the last pointer to it. -/
def unref (s : State τ κ) (i : Nat) : State τ κ :=
  if i ∈ s.refs then s
  else
    match s.node.timers[i]? with
    | some ctx => s.destroyContext ctx
    | none => s

def mayLoop (s : State τ κ) : EventLoop.Event → Bool
  | .run => decide (s.stage = .body)
  | _ => s.stage.alive .loop

def finished (s : State τ κ) : Member → Bool
  | .timers => decide (s.vector = ∅)
  | _ => true

/-- `~EventLoop` closes the epoll instance. `SubContext` has no destructor, and the
members for the DDS entities are raw pointers. -/
def destroyed (s : State τ κ) : Member → State τ κ
  | .loop => { s with node := { s.node with kernel := { s.node.kernel with
      interest := ∅
      interest_open := Finset.empty_subset _ } } }
  | _ => s

end State

/-- The creation functions and `spin` are called while the node is alive. -/
def step (s : State τ κ) : Event τ κ → Option (State τ κ)
  | .subscribe call => if s.stage = .body then some (s.subscribe typeName call) else none
  | .publisher o msgType topicName =>
      if s.stage = .body then
        some { s with node := (s.node.createPublisher typeName o msgType topicName).1 }
      else none
  | .timer timerfd epoll periodMs callback =>
      if s.stage = .body then some (s.createTimer timerfd epoll periodMs callback) else none
  | .drop i =>
      if i ∈ s.users then some ({ s with users := s.users.erase i }.unref i) else none
  | .loop e =>
      if s.mayLoop e then
        (s.node.loop.step e).map fun loop => { s with node := { s.node with loop := loop } }
      else none
  | .body =>
      match s.stage with
      | .body => some { s with
          node := { s.node with loop := s.node.loop.stop }
          stage := .members Member.declared.reverse
          spinning := inRun s.node.loop.pc }
      | _ => none
  | .unref i =>
      match s.stage with
      | .members (.timers :: _) =>
          if i ∈ s.vector then some ({ s with vector := s.vector.erase i }.unref i) else none
      | _ => none
  | .destroy =>
      match s.stage with
      | .members (m :: rest) =>
          if s.finished m then some { s.destroyed m with stage := .members rest } else none
      | _ => none

/-- What each event does, with what it needs. -/
inductive Moves (s : State τ κ) : Event τ κ → State τ κ → Prop
  | subscribed (call : Node.SubCall τ κ) (body : s.stage = .body) :
      Moves s (.subscribe call) (s.subscribe typeName call)
  | published (o : Node.PubOutcome) (msgType : τ) (topicName : String)
      (participant : Participant τ) (writers : List Topic) :
      Moves s (.publisher o msgType topicName)
        { s with node := { s.node with participant := participant, writers := writers } }
  | timerCreated (timerfd : Option Nat) (epoll : Bool) (periodMs : Int) (callback : κ)
      (body : s.stage = .body) :
      Moves s (.timer timerfd epoll periodMs callback)
        (s.createTimer timerfd epoll periodMs callback)
  | dropped (i : Nat) (pointed : i ∈ s.users) :
      Moves s (.drop i) ({ s with users := s.users.erase i }.unref i)
  | looped (e : EventLoop.Event) (loop : EventLoop (Handler τ κ)) (may : s.mayLoop e = true)
      (move : s.node.loop.step e = some loop) :
      Moves s (.loop e) { s with node := { s.node with loop := loop } }
  | bodyRun (body : s.stage = .body) :
      Moves s .body { s with
        node := { s.node with loop := s.node.loop.stop }
        stage := .members Member.declared.reverse
        spinning := inRun s.node.loop.pc }
  | unreferenced (i : Nat) (rest : List Member) (here : s.stage = .members (.timers :: rest))
      (pointed : i ∈ s.vector) :
      Moves s (.unref i) ({ s with vector := s.vector.erase i }.unref i)
  | memberDestroyed (m : Member) (rest : List Member) (here : s.stage = .members (m :: rest))
      (finished : s.finished m = true) :
      Moves s .destroy { s.destroyed m with stage := .members rest }

theorem createPublisher_frame (node : Node τ κ) (o : Node.PubOutcome) (msgType : τ)
    (topicName : String) : ∃ participant writers,
      (node.createPublisher typeName o msgType topicName).1 =
        { node with participant := participant, writers := writers } := by
  simp only [Node.createPublisher]
  split
  · exact ⟨_, _, rfl⟩
  · split <;> exact ⟨_, _, rfl⟩

variable {typeName} in
theorem moves {s t : State τ κ} {e : Event τ κ} (h : step typeName s e = some t) :
    Moves typeName s e t := by
  cases e with
  | subscribe call =>
      obtain ⟨hbody, h⟩ := Option.ite_none_right_eq_some.mp h
      cases Option.some.inj h
      exact .subscribed call hbody
  | publisher o msgType topicName =>
      obtain ⟨-, h⟩ := Option.ite_none_right_eq_some.mp h
      obtain ⟨participant, writers, hcreated⟩ :=
        createPublisher_frame typeName s.node o msgType topicName
      rw [hcreated] at h
      cases Option.some.inj h
      exact .published o msgType topicName participant writers
  | timer timerfd epoll periodMs callback =>
      obtain ⟨hbody, h⟩ := Option.ite_none_right_eq_some.mp h
      cases Option.some.inj h
      exact .timerCreated timerfd epoll periodMs callback hbody
  | drop i =>
      obtain ⟨hpointed, h⟩ := Option.ite_none_right_eq_some.mp h
      cases Option.some.inj h
      exact .dropped i hpointed
  | loop e =>
      obtain ⟨hmay, h⟩ := Option.ite_none_right_eq_some.mp h
      obtain ⟨loop, hmove, rfl⟩ := Option.map_eq_some_iff.mp h
      exact .looped e loop hmay hmove
  | body =>
      simp only [step] at h
      split at h
      · next hbody =>
          cases Option.some.inj h
          exact .bodyRun hbody
      · cases h
  | unref i =>
      simp only [step] at h
      split at h
      · next rest here =>
          obtain ⟨hpointed, h⟩ := Option.ite_none_right_eq_some.mp h
          cases Option.some.inj h
          exact .unreferenced i rest here hpointed
      · cases h
  | destroy =>
      simp only [step] at h
      split at h
      · next m rest here =>
          obtain ⟨hfinished, h⟩ := Option.ite_none_right_eq_some.mp h
          cases Option.some.inj h
          exact .memberDestroyed m rest here hfinished
      · cases h

/-- What a creation function makes of the descriptor that it is offered: the kernel
refuses it, it is closed by hand again, or it goes to a context. -/
inductive Creates (s : State τ κ) (offer : Option Nat) : State τ κ → Prop
  | nothing (kernel : Kernel) (isOpen : kernel.isOpen = s.node.kernel.isOpen) :
      Creates s offer { s with node := { s.node with kernel := kernel } }
  | byHand (kernel : Kernel) (participant : Participant τ)
      (isOpen : kernel.isOpen = s.node.kernel.isOpen) :
      Creates s offer { s with
        node := { s.node with kernel := kernel, participant := participant }
        ledger := (opened s.ledger (s.node.kernel.openFd offer).2).release
          (.descriptor (s.node.kernel.openFd offer).2) }
  | subscription (node : Node τ κ) (topic : Topic) (reader : Option Nat)
      (isOpen : node.kernel.isOpen = (s.node.kernel.openFd offer).1.isOpen)
      (listeners : node.listeners = s.node.listeners ++ [(s.node.kernel.openFd offer).2])
      (subs : node.subs = s.node.subs ++
        [⟨topic, reader, s.node.listeners.length, (s.node.kernel.openFd offer).2⟩])
      (timers : node.timers = s.node.timers) :
      Creates s offer { s with
        node := node
        ledger := (opened s.ledger (s.node.kernel.openFd offer).2).acquire
          (.listener s.node.listeners.length) }
  | timer (node : Node τ κ) (callback : κ) (given : (s.node.kernel.openFd offer).2 ≠ -1)
      (isOpen : node.kernel.isOpen = (s.node.kernel.openFd offer).1.isOpen)
      (listeners : node.listeners = s.node.listeners) (subs : node.subs = s.node.subs)
      (timers : node.timers = s.node.timers ++ [⟨(s.node.kernel.openFd offer).2, callback⟩]) :
      Creates s offer { s with
        node := node
        ledger := opened s.ledger (s.node.kernel.openFd offer).2
        vector := insert s.node.timers.length s.vector
        users := insert s.node.timers.length s.users }

theorem hazard_of_notMem {k : Kernel} {pc : LoopPc (Handler τ κ)} {fd : Int}
    (h : fd ∉ k.interest) : hazard k pc fd = [] :=
  if_neg fun hboth => h hboth.1

theorem hazard_of_outside {k : Kernel} {pc : LoopPc (Handler τ κ)} {fd : Int}
    (h : inRun pc = false) : hazard k pc fd = [] := by
  unfold hazard
  rw [h]
  simp

/-- What a creation function closes by hand it has never registered. -/
theorem hazard_openFd (k set : Kernel) (offer : Option Nat) (pc : LoopPc (Handler τ κ))
    (same : set.interest = k.interest) : hazard set pc (k.openFd offer).2 = [] :=
  hazard_of_notMem fun h => k.openFd_notMem offer (k.interest_open (same ▸ h))

theorem creates_subscribe (s : State τ κ) (call : Node.SubCall τ κ) :
    Creates s call.outcome.eventfd (s.subscribe typeName call) := by
  cases htopic :
      Node.topicFor typeName s.node call.outcome.topic call.msgType call.topicName with
  | none =>
      have hprepared : (s.node.prepareSubscription typeName call.outcome call.msgType
          call.topicName call.callback).2 = none := by
        unfold Node.topicFor at htopic
        simp only [Node.prepareSubscription, htopic]
      rw [State.subscribe, hprepared, Node.subscribe, Node.createSubscription_of_noTopic htopic]
      simp only [hazard_openFd _ _ _ _ (s.node.kernel.interest_openFd _), List.append_nil]
      exact .byHand _ _ (s.node.kernel.close_openFd call.outcome.eventfd).1
  | some topic =>
      obtain ⟨handler, hprepared⟩ : ∃ handler, (s.node.prepareSubscription typeName call.outcome
          call.msgType call.topicName call.callback).2 = some handler := by
        unfold Node.topicFor at htopic
        simp only [Node.prepareSubscription, htopic]
        exact ⟨_, rfl⟩
      rw [State.subscribe, hprepared, Node.subscribe, Node.createSubscription_of_topic htopic]
      refine .subscription _ topic _ ?_ rfl rfl rfl
      simp only [Node.addEvent, EventLoop.addEvent, Kernel.isOpen_epollAdd]

theorem creates_timer (s : State τ κ) (timerfd : Option Nat) (epoll : Bool) (periodMs : Int)
    (callback : κ) : Creates s timerfd (s.createTimer timerfd epoll periodMs callback) := by
  by_cases hrefused : (s.node.kernel.openFd timerfd).2 = -1
  · have hopen := s.node.kernel.isOpen_openFd timerfd
    rw [if_pos hrefused] at hopen
    simp only [State.createTimer, Node.createWallTimer, Node.prepareWallTimer, hrefused, if_true]
    exact .nothing _ hopen
  · obtain ⟨⟨set, legal⟩, hset⟩ : ∃ result, (s.node.kernel.openFd timerfd).1.timerfdSettime
        (s.node.kernel.openFd timerfd).2 (Node.timerSpec periodMs) = result := ⟨_, rfl⟩
    have hopen := (s.node.kernel.openFd timerfd).1.isOpen_timerfdSettime
      (s.node.kernel.openFd timerfd).2 (Node.timerSpec periodMs)
    have hinterest := (s.node.kernel.openFd timerfd).1.interest_timerfdSettime
      (s.node.kernel.openFd timerfd).2 (Node.timerSpec periodMs)
    simp only [hset] at hopen hinterest
    cases legal with
    | false =>
        have hclosed : (set.close (s.node.kernel.openFd timerfd).2).isOpen =
            s.node.kernel.isOpen := by
          rw [← (s.node.kernel.close_openFd timerfd).1]
          simp only [Kernel.close, hopen]
        simp only [State.createTimer, Node.createWallTimer, Node.prepareWallTimer, hrefused, hset,
          if_false, Bool.false_eq_true]
        rw [hazard_openFd _ _ _ _ (hinterest.trans (s.node.kernel.interest_openFd timerfd)),
          List.append_nil]
        exact .byHand _ s.node.participant hclosed
    | true =>
        simp only [State.createTimer, Node.createWallTimer, Node.prepareWallTimer, hrefused, hset,
          if_false, if_true]
        refine .timer _ callback hrefused ?_ rfl rfl rfl
        simp only [Node.addEvent, EventLoop.addEvent, Kernel.isOpen_epollAdd, hopen]

/-- `~Node` has returned, and the user has dropped every timer pointer. -/
def Gone (s : State τ κ) : Prop :=
  s.stage = .members [] ∧ s.users = ∅

/-- Each time this resource was acquired it has been given back, exactly once. -/
def Settled (s : State τ κ) (r : Resource) : Prop :=
  ∀ k, s.ledger.accepted[k]? = some r → s.ledger.closed.count k = 1

structure Balanced (s : State τ κ) : Prop where
  descriptors : ∀ fd, Settled s (.descriptor fd)
  listeners : ∀ place, Settled s (.listener place)
  participant : Settled s .participant
  noHazards : s.hazards = []

inductive Owner where
  | sub (place : Nat)
  | timer (place : Nat)
  | node

/-- Who answers for what. A timer context keeps its descriptor while there are pointers
to it, and for ever where the sign test of its destructor fails. -/
def State.Owns (s : State τ κ) : Owner → Resource → Prop
  | .sub i, r => ∃ ctx, s.node.subs[i]? = some ctx ∧
      (r = .descriptor ctx.eventFd ∧ ctx.eventFd ≠ -1 ∨ r = .listener ctx.listener)
  | .timer i, r => ∃ ctx, s.node.timers[i]? = some ctx ∧ r = .descriptor ctx.timerFd ∧
      (i ∈ s.refs ∨ ¬ 0 < ctx.timerFd)
  | .node, r => r = .participant

/-- The ledger, the owners and the kernel agree. -/
structure Books (s : State τ κ) : Prop where
  accounts : s.ledger.Accounts s.Owns
  valid : ∀ fd, s.ledger.held (.descriptor fd) ≠ none ↔ fd ∈ s.node.kernel.isOpen
  listeners : ∀ place, s.ledger.held (.listener place) ≠ none →
    place < s.node.listeners.length
  places : ∀ i ∈ s.refs, i < s.node.timers.length

theorem getElem?_concat_eq_some {α : Type*} {l : List α} {x y : α} {i : Nat} :
    (l ++ [x])[i]? = some y ↔ l[i]? = some y ∨ i = l.length ∧ y = x := by
  obtain hlt | rfl | hgt := Nat.lt_trichotomy i l.length
  · rw [List.getElem?_append_left hlt]
    exact (or_iff_left fun hnew => Nat.ne_of_lt hlt hnew.1).symm
  · simp [eq_comm]
  · have hlong : (l ++ [x]).length ≤ i := by
      rw [List.length_append, List.length_singleton]
      exact hgt
    rw [List.getElem?_eq_none hlong, List.getElem?_eq_none (Nat.le_of_lt hgt)]
    simp [Nat.ne_of_gt hgt]

theorem held_opened (l : Ledger Resource Resource) (fd : Int) (r : Resource) :
    (opened l fd).held r =
      if fd ≠ -1 ∧ r = .descriptor fd then some l.taken else l.held r := by
  unfold opened
  split
  · next hnone => simp [hnone]
  · next hsome => simp [Ledger.held_acquire, hsome]

section
variable {l : Ledger Resource Resource} {owns after : Owner → Resource → Prop}

theorem accounts_opened (h : l.Accounts owns) (o : Owner) {fd : Int}
    (free : l.held (.descriptor fd) = none)
    (gain : ∀ p r, after p r ↔ owns p r ∨ p = o ∧ r = .descriptor fd ∧ fd ≠ -1) :
    (opened l fd).Accounts after := by
  unfold opened
  split
  · next hnone =>
      apply h.congr
      intro p r
      rw [gain p r]
      exact or_iff_left fun hnew => hnew.2.2 hnone
  · next hsome =>
      apply h.acquire o free
      intro p r
      rw [gain p r, and_iff_left hsome]

/-- What is closed by hand leaves the accounts as they were. -/
theorem accounts_reopened (h : l.Accounts owns) {fd : Int}
    (free : l.held (.descriptor fd) = none) :
    ((opened l fd).release (.descriptor fd)).Accounts owns := by
  have hopened : (opened l fd).Accounts fun p r =>
      owns p r ∨ p = .node ∧ r = .descriptor fd ∧ fd ≠ -1 :=
    accounts_opened h .node free fun _ _ => Iff.rfl
  apply hopened.release
  intro p r
  constructor
  · intro howns
    refine ⟨Or.inl howns, ?_⟩
    rintro rfl
    exact h.unowned free p howns
  · rintro ⟨howns | ⟨-, hr, -⟩, hne⟩
    · exact howns
    · exact absurd hr hne

theorem held_reopened {fd : Int} (free : l.held (.descriptor fd) = none) (r : Resource) :
    ((opened l fd).release (.descriptor fd)).held r = l.held r := by
  rw [Ledger.held_release, held_opened]
  split
  · next hr => rw [hr, free]
  · next hr => rw [if_neg fun hnew => hr hnew.2]

end

section
variable {s : State τ κ}

/-- A number the kernel has just handed out is in no account. -/
theorem Books.free (h : Books s) (offer : Option Nat) :
    s.ledger.held (.descriptor (s.node.kernel.openFd offer).2) = none := by
  by_contra hheld
  exact s.node.kernel.openFd_notMem offer ((h.valid _).mp hheld)

theorem Books.valid_opened (h : Books s) (offer : Option Nat) (fd : Int) :
    (opened s.ledger (s.node.kernel.openFd offer).2).held (.descriptor fd) ≠ none ↔
      fd ∈ (s.node.kernel.openFd offer).1.isOpen := by
  rw [held_opened, Kernel.isOpen_openFd]
  by_cases hnone : (s.node.kernel.openFd offer).2 = -1
  · simp only [hnone, ne_eq, not_true_eq_false, false_and, if_false, if_true]
    exact h.valid fd
  · simp only [hnone, ne_eq, not_false_eq_true, true_and, if_false, Finset.mem_insert,
      Resource.descriptor.injEq]
    split
    · next hfd => exact iff_of_true (Option.some_ne_none _) (Or.inl hfd)
    · next hfd => rw [or_iff_right hfd, ← h.valid fd]

/-- A new context in `subs_` takes its eventfd and its listener on itself. -/
theorem owns_of_subs {t : State τ κ} {p : Owner} {r : Resource} {topic : Topic}
    {reader : Option Nat} {listener : Nat} {fd : Int}
    (subs : t.node.subs = s.node.subs ++ [⟨topic, reader, listener, fd⟩])
    (timers : t.node.timers = s.node.timers) (refs : t.refs = s.refs) :
    t.Owns p r ↔ s.Owns p r ∨ p = .sub s.node.subs.length ∧
      (r = .descriptor fd ∧ fd ≠ -1 ∨ r = .listener listener) := by
  cases p with
  | sub i =>
      simp only [State.Owns, subs, getElem?_concat_eq_some, or_and_right, exists_or,
        Owner.sub.injEq, and_assoc, exists_and_left, exists_eq_left]
  | timer i => simp only [State.Owns, timers, refs, reduceCtorEq, false_and, or_false]
  | node => simp only [State.Owns, reduceCtorEq, false_and, or_false]

/-- A new context in `timers_`, with a pointer to it there, takes its timerfd on itself. -/
theorem owns_of_timers {t : State τ κ} {p : Owner} {r : Resource} {fd : Int} {callback : κ}
    (subs : t.node.subs = s.node.subs)
    (timers : t.node.timers = s.node.timers ++ [⟨fd, callback⟩])
    (refs : t.refs = insert s.node.timers.length s.refs) :
    t.Owns p r ↔ s.Owns p r ∨ p = .timer s.node.timers.length ∧ r = .descriptor fd := by
  cases p with
  | sub i => simp only [State.Owns, subs, reduceCtorEq, false_and, or_false]
  | timer i =>
      simp only [State.Owns, timers, refs, getElem?_concat_eq_some, or_and_right, exists_or,
        Owner.timer.injEq, and_assoc, exists_and_left, exists_eq_left, Finset.mem_insert]
      apply or_congr
      · apply exists_congr
        intro ctx
        apply and_congr_right
        intro hctx
        have hne : i ≠ s.node.timers.length :=
          Nat.ne_of_lt (List.getElem?_eq_some_iff.mp hctx).1
        rw [or_iff_right hne]
      · apply and_congr_right
        intro hi
        exact and_iff_left (Or.inl (Or.inl hi))
  | node => simp only [State.Owns, reduceCtorEq, false_and, or_false]

/-- First the eventfd, then the listener, both for the new place in `subs`. -/
theorem Books.accounts_subscribed (h : Books s) (offer : Option Nat)
    {after : Owner → Resource → Prop}
    (gain : ∀ p r, after p r ↔ s.Owns p r ∨ p = .sub s.node.subs.length ∧
      (r = .descriptor (s.node.kernel.openFd offer).2 ∧ (s.node.kernel.openFd offer).2 ≠ -1 ∨
        r = .listener s.node.listeners.length)) :
    ((opened s.ledger (s.node.kernel.openFd offer).2).acquire
      (.listener s.node.listeners.length)).Accounts after := by
  have hopened : (opened s.ledger (s.node.kernel.openFd offer).2).Accounts fun p r =>
      s.Owns p r ∨ p = .sub s.node.subs.length ∧
        r = .descriptor (s.node.kernel.openFd offer).2 ∧ (s.node.kernel.openFd offer).2 ≠ -1 :=
    accounts_opened h.accounts (.sub s.node.subs.length) (h.free offer) fun _ _ => Iff.rfl
  apply hopened.acquire (.sub s.node.subs.length)
  · rw [held_opened, if_neg fun hnew => Resource.noConfusion hnew.2]
    by_contra hheld
    exact Nat.lt_irrefl _ (h.listeners _ hheld)
  · intro p r
    rw [gain p r, or_assoc, ← and_or_left]

theorem Books.created {t : State τ κ} {offer : Option Nat} (h : Books s)
    (hcreates : Creates s offer t) : Books t := by
  have hfree := h.free offer
  have hvalid := h.valid_opened offer
  cases hcreates with
  | nothing kernel isOpen =>
      exact ⟨h.accounts, fun fd => isOpen ▸ h.valid fd, h.listeners, h.places⟩
  | byHand kernel participant isOpen =>
      refine ⟨accounts_reopened h.accounts hfree, ?_, ?_, h.places⟩
      · intro fd
        rw [held_reopened hfree]
        exact isOpen ▸ h.valid fd
      · intro place hheld
        rw [held_reopened hfree] at hheld
        exact h.listeners place hheld
  | subscription node topic reader isOpen listeners subs timers =>
      refine ⟨?_, ?_, ?_, ?_⟩
      · exact h.accounts_subscribed offer fun p r => owns_of_subs subs timers rfl
      · intro fd
        rw [Ledger.held_acquire, if_neg (by simp), isOpen]
        exact hvalid fd
      · intro place hheld
        rw [Ledger.held_acquire] at hheld
        simp only [listeners, List.length_append, List.length_singleton]
        split at hheld
        · next hplace =>
            cases hplace
            exact Nat.lt_succ_self _
        · rw [held_opened, if_neg fun hnew => Resource.noConfusion hnew.2] at hheld
          exact Nat.lt_succ_of_lt (h.listeners place hheld)
      · simp only [timers]
        exact h.places
  | timer node callback given isOpen listeners subs timers =>
      refine ⟨?_, ?_, ?_, ?_⟩
      · apply accounts_opened h.accounts (.timer s.node.timers.length) hfree
        intro p r
        rw [and_iff_left given]
        refine owns_of_timers subs timers ?_
        simp only [State.refs, Finset.insert_union_distrib]
      · intro fd
        rw [isOpen]
        exact hvalid fd
      · intro place hheld
        rw [held_opened, if_neg fun hnew => Resource.noConfusion hnew.2] at hheld
        rw [listeners]
        exact h.listeners place hheld
      · intro i hi
        simp only [timers, List.length_append, List.length_singleton]
        have hi : i = s.node.timers.length ∨ i ∈ s.refs := by
          simpa [State.refs, or_assoc, or_left_comm] using hi
        obtain rfl | hi := hi
        · exact Nat.lt_succ_self _
        · exact Nat.lt_succ_of_lt (h.places i hi)

section
variable {t : State τ κ} {i : Nat} {ctx : TimerContext κ} (h : Books s) (pointed : i ∈ s.refs)
  (refs : ∀ j, j ≠ i → (j ∈ t.refs ↔ j ∈ s.refs))
include h pointed refs

theorem Books.places_unref : ∀ j ∈ t.refs, j < s.node.timers.length := by
  intro j hj
  by_cases hji : j = i
  · exact h.places j (hji ▸ pointed)
  · exact h.places j ((refs j hji).mp hj)

variable (node : t.node = s.node) (ledger : t.ledger = s.ledger)
  (found : s.node.timers[i]? = some ctx)
include node ledger found

/-- As long as the context is not closed, everybody owns what he owned. -/
theorem Books.repointed (stays : i ∈ t.refs ∨ ¬ 0 < ctx.timerFd) : Books t := by
  refine ⟨?_, ?_, ?_, ?_⟩
  · rw [ledger]
    apply h.accounts.congr
    intro p r
    cases p with
    | sub j => simp only [State.Owns, node]
    | timer j =>
        simp only [State.Owns, node]
        apply exists_congr
        intro other
        apply and_congr_right
        intro hother
        apply and_congr_right
        intro hr
        by_cases hji : j = i
        · rw [hji, found] at hother
          cases Option.some.inj hother
          rw [hji]
          exact iff_of_true stays (Or.inl pointed)
        · rw [refs j hji]
    | node => rfl
  · rw [ledger, node]
    exact h.valid
  · rw [ledger, node]
    exact h.listeners
  · rw [node]
    exact h.places_unref pointed refs

/-- The context of `i` gives up its descriptor, and nobody else has it. -/
theorem Books.closed (gone : i ∉ t.refs) (positive : 0 < ctx.timerFd) :
    Books (t.close ctx.timerFd) := by
  refine ⟨?_, ?_, ?_, ?_⟩
  · simp only [State.close, ledger]
    refine h.accounts.resign (o := .timer i) ⟨ctx, found, rfl, Or.inl pointed⟩ ?_ ?_ ?_
    · rintro r ⟨other, hother, hr, -⟩
      rw [found] at hother
      cases Option.some.inj hother
      exact hr
    · rintro r ⟨other, hother, -, hstays⟩
      simp only [node, found, Option.some.injEq] at hother
      subst hother
      exact hstays.elim gone fun hsign => hsign positive
    · intro p r hne
      cases p with
      | sub j => simp only [State.Owns, node]
      | timer j =>
          have hji : j ≠ i := fun hji => hne (hji ▸ rfl)
          have hrefs := refs j hji
          simp only [State.refs] at hrefs
          simp only [State.Owns, State.refs, node, hrefs]
      | node => rfl
  · intro fd
    simp only [State.close, ledger, node, Kernel.close, Ledger.held_release, Finset.mem_erase,
      Resource.descriptor.injEq]
    split
    · next hfd => simp [hfd]
    · next hfd => rw [h.valid fd, and_iff_right hfd]
  · intro place
    simp only [State.close, ledger, node, Ledger.held_release, reduceCtorEq, if_false]
    exact h.listeners place
  · simp only [State.close, node]
    exact fun j hj => h.places_unref pointed refs j hj

omit found

/-- With the last pointer the context gives up what its destructor closes; where the
sign test fails it gives up nothing. -/
theorem Books.unref : Books (t.unref i) := by
  obtain ⟨ctx, hctx⟩ : ∃ ctx, s.node.timers[i]? = some ctx :=
    ⟨_, List.getElem?_eq_getElem (h.places i pointed)⟩
  unfold State.unref
  split
  · next hin => exact h.repointed pointed refs node ledger hctx (Or.inl hin)
  · next hout =>
      simp only [node, hctx, State.destroyContext]
      split
      · next hpositive => exact h.closed pointed refs node ledger hctx hout hpositive
      · next hsign => exact h.repointed pointed refs node ledger hctx (Or.inr hsign)

end

end

theorem books_init : Books (init τ κ) where
  accounts := by
    have hempty : (⟨[], 0, fun _ => none, []⟩ : Ledger Resource Resource).Accounts
        fun (_ : Owner) _ => False := by
      refine ⟨Ledger.kept_of_unused, ?_, ?_⟩ <;> simp
    apply hempty.acquire .node rfl
    intro p r
    cases p <;> simp [State.Owns, init, Node.init]
  valid := by simp [init, Node.init, Kernel.empty, Ledger.held_acquire]
  listeners := by simp [init, Ledger.held_acquire]
  places := by simp [init, State.refs]

theorem Books.step {typeName : τ → String} {s t : State τ κ} {e : Event τ κ} (h : Books s)
    (hstep : Resources.step typeName s e = some t) : Books t := by
  cases moves hstep with
  | subscribed => exact h.created (creates_subscribe _ _ _)
  | timerCreated => exact h.created (creates_timer _ _ _ _ _)
  | dropped i pointed =>
      refine h.unref (Finset.mem_union_right _ pointed) ?_ rfl rfl
      intro j hji
      simp [State.refs, hji]
  | unreferenced i rest here pointed =>
      refine h.unref (Finset.mem_union_left _ pointed) ?_ rfl rfl
      intro j hji
      simp [State.refs, hji]
  | published | looped | bodyRun => exact ⟨h.accounts, h.valid, h.listeners, h.places⟩
  | memberDestroyed m => cases m <;> exact ⟨h.accounts, h.valid, h.listeners, h.places⟩

/-- While the node is alive its vector has every context the user has. A loop that no
thread is in when the body runs stays that way, and then nothing goes wrong. -/
structure Orderly (s : State τ κ) : Prop where
  users_vector : s.stage = .body → s.users ⊆ s.vector
  vector_gone : s.stage.alive .timers = false → s.vector = ∅
  outside : s.stage ≠ .body → s.spinning = false → inRun s.node.loop.pc = false
  noHazards : s.stage = .body ∨ s.spinning = false → s.hazards = []

theorem orderly_init : Orderly (init τ κ) where
  users_vector := fun _ => Finset.Subset.refl _
  vector_gone := fun _ => rfl
  outside := fun hbody => absurd rfl hbody
  noHazards := fun _ => rfl

/-- Nobody enters the loop but by `run`. -/
theorem inRun_step {κ : Type} {l m : EventLoop κ} {e : EventLoop.Event}
    (hstep : l.step e = some m) (other : e ≠ .run) (outside : inRun l.pc = false) :
    inRun m.pc = false := by
  cases EventLoop.moves hstep with
  | entered => exact absurd rfl other
  | _ =>
      -- every other step starts inside
      simp_all [inRun]

theorem destroyed_frame (s : State τ κ) (m : Member) : ∃ kernel,
    s.destroyed m = { s with node := { s.node with kernel := kernel } } := by
  cases m <;> exact ⟨_, rfl⟩

section
variable {s : State τ κ} {i : Nat}

theorem unref_frame : ∃ kernel, (s.unref i).node = { s.node with kernel := kernel } ∧
    (s.unref i).vector = s.vector ∧ (s.unref i).users = s.users ∧ (s.unref i).stage = s.stage ∧
      (s.unref i).spinning = s.spinning := by
  unfold State.unref State.destroyContext
  split
  · exact ⟨_, rfl, rfl, rfl, rfl, rfl⟩
  · split
    · split <;> exact ⟨_, rfl, rfl, rfl, rfl, rfl⟩
    · exact ⟨_, rfl, rfl, rfl, rfl, rfl⟩

theorem hazards_unref (h : i ∈ s.refs ∨ inRun s.node.loop.pc = false) :
    (s.unref i).hazards = s.hazards := by
  unfold State.unref State.destroyContext
  split
  · rfl
  · next hout =>
      have houtside := h.resolve_left hout
      split
      · split
        · simp only [State.close, hazard_of_outside houtside, List.append_nil]
        · rfl
      · rfl

end

section
variable {s : State τ κ}

theorem Orderly.created {t : State τ κ} {offer : Option Nat} (h : Orderly s)
    (body : s.stage = .body) (hcreates : Creates s offer t) : Orderly t := by
  cases hcreates with
  | nothing | byHand => exact ⟨h.users_vector, h.vector_gone, h.outside, h.noHazards⟩
  | subscription =>
      exact ⟨h.users_vector, h.vector_gone, fun hbody => absurd body hbody, h.noHazards⟩
  | timer =>
      refine ⟨?_, ?_, fun hbody => absurd body hbody, h.noHazards⟩
      · exact fun hbody => Finset.insert_subset_insert _ (h.users_vector hbody)
      · intro hgone
        simp only [body, Stage.alive] at hgone
        cases hgone

theorem Orderly.unref (h : Orderly s) {i : Nat} (safe : s.stage = .body → i ∈ s.refs) :
    Orderly (s.unref i) := by
  obtain ⟨kernel, hnode, hvector, husers, hstage, hspinning⟩ := unref_frame (s := s) (i := i)
  refine ⟨?_, ?_, ?_, ?_⟩
  · rw [hstage, husers, hvector]
    exact h.users_vector
  · rw [hstage, hvector]
    exact h.vector_gone
  · rw [hstage, hspinning, hnode]
    exact h.outside
  · rw [hstage, hspinning]
    intro hcalm
    rw [hazards_unref, h.noHazards hcalm]
    by_cases hbody : s.stage = .body
    · exact Or.inl (safe hbody)
    · exact Or.inr (h.outside hbody (hcalm.resolve_left hbody))

end

theorem Orderly.step {typeName : τ → String} {s t : State τ κ} {e : Event τ κ} (h : Orderly s)
    (hstep : Resources.step typeName s e = some t) : Orderly t := by
  have hlater : ∀ {members}, s.stage = .members members → s.stage ≠ .body := by
    intro members here
    rw [here]
    exact Stage.noConfusion
  cases moves hstep with
  | subscribed call body => exact h.created body (creates_subscribe _ _ _)
  | timerCreated _ _ _ _ body => exact h.created body (creates_timer _ _ _ _ _)
  | published => exact ⟨h.users_vector, h.vector_gone, h.outside, h.noHazards⟩
  | dropped i pointed =>
      have herased : Orderly { s with users := s.users.erase i } :=
        ⟨fun hbody => (Finset.erase_subset _ _).trans (h.users_vector hbody), h.vector_gone,
          h.outside, h.noHazards⟩
      exact herased.unref fun hbody => Finset.mem_union_left _ (h.users_vector hbody pointed)
  | looped e loop may move =>
      refine ⟨h.users_vector, h.vector_gone, ?_, h.noHazards⟩
      intro hbody hspinning
      refine inRun_step move ?_ (h.outside hbody hspinning)
      rintro rfl
      exact hbody (of_decide_eq_true may)
  | bodyRun body =>
      refine ⟨?_, ?_, fun _ houtside => houtside, fun _ => h.noHazards (Or.inl body)⟩
      · intro hbody
        cases hbody
      · intro hgone
        cases hgone
  | unreferenced i rest here pointed =>
      have herased : Orderly { s with vector := s.vector.erase i } :=
        ⟨fun hbody => absurd hbody (hlater here), fun hgone => by simp [h.vector_gone hgone],
          h.outside, h.noHazards⟩
      exact herased.unref fun hbody => absurd hbody (hlater here)
  | memberDestroyed m rest here finished =>
      obtain ⟨kernel, hdestroyed⟩ := destroyed_frame s m
      rw [hdestroyed]
      refine ⟨?_, ?_, fun _ => h.outside (hlater here), fun hcalm => h.noHazards (hcalm.imp ?_ id)⟩
      · intro hbody
        cases hbody
      · intro hgone
        by_cases hm : m = .timers
        · subst hm
          exact of_decide_eq_true finished
        · apply h.vector_gone
          rw [here]
          simp only [Stage.alive, List.contains_cons, Bool.or_eq_false_iff] at hgone ⊢
          exact ⟨beq_eq_false_iff_ne.mpr (Ne.symm hm), hgone⟩
      · intro hbody
        cases hbody

section
variable {typeName : τ → String} {s : State τ κ}

theorem books (h : Reachable (step typeName) (init τ κ) s) : Books s :=
  h.keeps (I := Books) books_init fun _ _ _ hs hstep => hs.step hstep

theorem orderly (h : Reachable (step typeName) (init τ κ) s) : Orderly s :=
  h.keeps (I := Orderly) orderly_init fun _ _ _ hs hstep => hs.step hstep

theorem Books.settled_iff (h : Books s) (r : Resource) : Settled s r ↔ ∀ o, ¬ s.Owns o r := by
  unfold Settled
  rw [h.accounts.kept.all_closed_iff, ← not_iff_not, ← ne_eq, h.accounts.owned, not_forall_not]

theorem refs_of_gone (h : Orderly s) (gone : Gone s) : s.refs = ∅ := by
  have halive : s.stage.alive .timers = false := by
    rw [gone.1]
    rfl
  rw [State.refs, h.vector_gone halive, gone.2, Finset.union_empty]

/-- What is still open when all is over: the eventfd of each subscription that got one,
and descriptor 0 if a timer has it. -/
theorem descriptors_settled_iff (h : Books s) (nobody : s.refs = ∅) :
    (∀ fd, Settled s (.descriptor fd)) ↔
      (∀ ctx ∈ s.node.subs, ctx.eventFd = -1) ∧ ∀ ctx ∈ s.node.timers, ctx.timerFd ≠ 0 := by
  simp only [h.settled_iff]
  constructor
  · intro hunowned
    constructor
    · intro ctx hctx
      obtain ⟨i, hi⟩ := List.mem_iff_getElem?.mp hctx
      by_contra hgiven
      exact hunowned ctx.eventFd (.sub i) ⟨ctx, hi, Or.inl ⟨rfl, hgiven⟩⟩
    · intro ctx hctx hzero
      obtain ⟨i, hi⟩ := List.mem_iff_getElem?.mp hctx
      exact hunowned ctx.timerFd (.timer i) ⟨ctx, hi, rfl, Or.inr (by omega)⟩
  · rintro ⟨hsubs, htimers⟩ fd o howns
    cases o with
    | sub i =>
        obtain ⟨ctx, hctx, ⟨-, hgiven⟩ | hlistener⟩ := howns
        · exact hgiven (hsubs ctx (List.mem_of_getElem? hctx))
        · cases hlistener
    | timer i =>
        have hopen := (h.valid fd).mp ((h.accounts.owned _).mpr ⟨_, howns⟩)
        obtain ⟨ctx, hctx, hfd, hpointed | hsign⟩ := howns
        · simp [nobody] at hpointed
        · cases hfd
          have hnonneg := s.node.kernel.nonneg _ hopen
          exact htimers ctx (List.mem_of_getElem? hctx) (by omega)
    | node => cases howns

theorem listeners_settled_iff (h : Books s) :
    (∀ place, Settled s (.listener place)) ↔ s.node.subs = [] := by
  simp only [h.settled_iff]
  constructor
  · intro hunowned
    apply List.eq_nil_iff_forall_not_mem.mpr
    intro ctx hctx
    obtain ⟨i, hi⟩ := List.mem_iff_getElem?.mp hctx
    exact hunowned ctx.listener (.sub i) ⟨ctx, hi, Or.inr rfl⟩
  · intro hnone place o howns
    cases o with
    | sub i =>
        obtain ⟨ctx, hctx, -⟩ := howns
        simp [hnone] at hctx
    | timer i =>
        obtain ⟨ctx, -, hfd, -⟩ := howns
        cases hfd
    | node => cases howns

/-- Nothing is given back twice, and with nobody in the loop nothing registered is
closed. When all is over the participant is still there, and so are the listener and
the eventfd of each subscription, and a timer's descriptor 0. -/
theorem resources_leaked (h : Reachable (step typeName) (init τ κ) s) :
    (∀ k, s.ledger.closed.count k ≤ 1) ∧ (s.spinning = false → s.hazards = []) ∧
      (Gone s → ¬ Balanced s ∧ ¬ Settled s .participant ∧
        ((∀ place, Settled s (.listener place)) ↔ s.node.subs = []) ∧
        ((∀ fd, Settled s (.descriptor fd)) ↔
          (∀ ctx ∈ s.node.subs, ctx.eventFd = -1) ∧ ∀ ctx ∈ s.node.timers, ctx.timerFd ≠ 0)) := by
  have hbooks := books h
  have horderly := orderly h
  have hparticipant : ¬ Settled s .participant := by
    rw [hbooks.settled_iff]
    exact fun hnobody => hnobody .node rfl
  refine ⟨hbooks.accounts.kept.count_closed_le, fun hspinning => horderly.noHazards
    (Or.inr hspinning), ?_⟩
  intro hgone
  exact ⟨fun hbalanced => hparticipant hbalanced.participant, hparticipant,
    listeners_settled_iff hbooks, descriptors_settled_iff hbooks (refs_of_gone horderly hgone)⟩

end

/-- `~Node`, with these places in `timers_`. -/
def destruction (places : List Nat) : List (Event Unit Unit) :=
  [.body, .destroy] ++ places.map .unref ++ List.replicate 8 .destroy

/-- A subscription without a topic, and a timer that the user drops last: all
descriptors are closed, but the participant is not released. -/
theorem resources_leaked_timer : ∃ s : State Unit Unit, Gone s ∧ s.node.timers ≠ [] ∧
    (∀ fd, Settled s (.descriptor fd)) ∧ ¬ Balanced s := by
  have hrun : run (step fun _ => "HelloWorld") (init Unit Unit)
      ([.subscribe ⟨⟨some 5, false, true, true⟩, (), "chatter", ()⟩, .timer (some 5) true 100 ()] ++
        destruction [0] ++ [.drop 0]) = some _ := rfl
  obtain ⟨hunbalanced, -, -, hdescriptors⟩ :=
    (resources_leaked (reachable_of_run hrun)).2.2 ⟨rfl, rfl⟩
  refine ⟨_, ⟨rfl, rfl⟩, List.cons_ne_nil _ _, hdescriptors.mpr ⟨nofun, ?_⟩, hunbalanced⟩
  decide

/-- A subscription keeps its eventfd. -/
theorem eventfd_leaked :
    ¬ ∀ s : State Unit Unit, Reachable (step fun _ => "HelloWorld") (init Unit Unit) s →
      Gone s → Balanced s := by
  intro hall
  have hrun : run (step fun _ => "HelloWorld") (init Unit Unit)
      (.subscribe ⟨⟨some 5, true, true, true⟩, (), "chatter", ()⟩ :: destruction []) =
        some _ := rfl
  have hsettled := (hall _ (reachable_of_run hrun) ⟨rfl, rfl⟩).descriptors 5 1 rfl
  cases hsettled

end TinyMiddleware.Resources
