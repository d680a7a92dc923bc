import TinyMiddleware.Core.EventLoop

/-! `Node`: what its creation functions do to the event loop, the kernel and the DDS
participant. Each call is given the outcomes of the calls it makes. -/
namespace TinyMiddleware

open TinyMiddleware.Core

/-- A topic of the participant; DDS readers and writers of it use the type support
that is registered under its type name. -/
structure Topic where
  name : String
  typeName : String
  deriving DecidableEq, Repr

/-- The participant's registered types, by type name, and its topics, by topic name.
`τ` are the C++ message types. -/
structure Participant (τ : Type) where
  types : String → Option τ
  topics : String → Option Topic

namespace Participant

variable {τ : Type}

/-- `register_type`: the first type support registered under a name stays. -/
def registerType (p : Participant τ) (typeName : String) (msgType : τ) : Participant τ :=
  match p.types typeName with
  | some _ => p
  | none => { p with types := Function.update p.types typeName (some msgType) }

/-- `lookup_topicdescription`, whatever the type of the topic. -/
def lookupTopicdescription (p : Participant τ) (name : String) : Option Topic :=
  p.topics name

/-- `create_topic`, which may return null. -/
def createTopic (p : Participant τ) (name typeName : String) (ok : Bool) :
    Participant τ × Option Topic :=
  if ok then
    ({ p with topics := Function.update p.topics name (some ⟨name, typeName⟩) },
      some ⟨name, typeName⟩)
  else (p, none)

/-- The get-or-create path that both creation functions contain. -/
def getOrCreateTopic (p : Participant τ) (name typeName : String) (ok : Bool) :
    Participant τ × Option Topic :=
  match p.lookupTopicdescription name with
  | some topic => (p, some topic)
  | none => p.createTopic name typeName ok

end Participant

/-- What the lambdas given to `addEvent` capture. A null reader is `none`. -/
inductive Handler (τ κ : Type) where
  | subscription (msgType : τ) (reader : Option Nat) (callback : κ) (efd : Int)
  | timer (callback : κ) (tfd : Int)

def Handler.fd {τ κ : Type} : Handler τ κ → Int
  | .subscription _ _ _ efd => efd
  | .timer _ tfd => tfd

def Handler.callback {τ κ : Type} : Handler τ κ → κ
  | .subscription _ _ callback _ => callback
  | .timer callback _ => callback

structure DataReader where
  topic : Topic
  listener : Nat

structure SubContext where
  topic : Topic
  reader : Option Nat
  listener : Nat
  eventFd : Int

structure TimerContext (κ : Type) where
  timerFd : Int
  callback : κ

structure Publisher (τ : Type) where
  msgType : τ
  writer : Nat

/-- The members of a `Node` and the DDS entities it has created. Pointers to readers,
writers and listeners are places in `readers`, `writers` and `listeners`; a
listener is its `efd_`. -/
structure Node (τ κ : Type) where
  loop : EventLoop (Handler τ κ)
  kernel : Kernel
  participant : Participant τ
  readers : List DataReader
  writers : List Topic
  listeners : List Int
  subs : List SubContext
  timers : List (TimerContext κ)

namespace Node

variable {τ κ : Type}

/-- A node fresh from its constructor, as far as the creation functions see it. -/
def init (τ κ : Type) : Node τ κ where
  loop := EventLoop.init _
  kernel := Kernel.empty
  participant := ⟨fun _ => none, fun _ => none⟩
  readers := []
  writers := []
  listeners := []
  subs := []
  timers := []

def addEvent (node : Node τ κ) (handler : Handler τ κ) (permitted : Bool) : Node τ κ :=
  { node with
    loop := (node.loop.addEvent node.kernel handler.fd handler permitted).1
    kernel := (node.loop.addEvent node.kernel handler.fd handler permitted).2 }

/-- The outcomes of the calls inside `create_subscription`: the descriptor `eventfd`
gets, if any, and whether `create_topic`, `create_datareader` and `epoll_ctl` succeed. -/
structure SubOutcome where
  eventfd : Option Nat
  topic : Bool
  reader : Bool
  epoll : Bool

section
variable (typeName : τ → String)

/-- `create_subscription` up to and including `subs_.push_back(ctx)`, with the handler
that is to be registered next; none after the early return. -/
def prepareSubscription (node : Node τ κ) (o : SubOutcome) (msgType : τ) (topicName : String)
    (callback : κ) : Node τ κ × Option (Handler τ κ) :=
  let opened := node.kernel.openFd o.eventfd
  let efd := opened.2
  let found := (node.participant.registerType (typeName msgType) msgType).getOrCreateTopic
    topicName (typeName msgType) o.topic
  match found.2 with
  | none => ({ node with kernel := opened.1.close efd, participant := found.1 }, none)
  | some topic =>
      let listener := node.listeners.length
      let reader := if o.reader then some node.readers.length else none
      ({ node with
         kernel := opened.1
         participant := found.1
         listeners := node.listeners ++ [efd]
         readers := if o.reader then node.readers ++ [⟨topic, listener⟩] else node.readers
         subs := node.subs ++ [⟨topic, reader, listener, efd⟩] },
       some (.subscription msgType reader callback efd))

def createSubscription (node : Node τ κ) (o : SubOutcome) (msgType : τ) (topicName : String)
    (callback : κ) : Node τ κ :=
  match node.prepareSubscription typeName o msgType topicName callback with
  | (prepared, some handler) => prepared.addEvent handler o.epoll
  | (returned, none) => returned

structure PubOutcome where
  topic : Bool
  writer : Bool

def createPublisher (node : Node τ κ) (o : PubOutcome) (msgType : τ) (topicName : String) :
    Node τ κ × Option (Publisher τ) :=
  let found := (node.participant.registerType (typeName msgType) msgType).getOrCreateTopic
    topicName (typeName msgType) o.topic
  match found.2 with
  | none => ({ node with participant := found.1 }, none)
  | some topic =>
      if o.writer then
        ({ node with participant := found.1, writers := node.writers ++ [topic] },
         some ⟨msgType, node.writers.length⟩)
      else ({ node with participant := found.1 }, none)

end

/-- `/` and `%` of C++ truncate towards zero. -/
def timerSpec (periodMs : Int) : ITimerSpec where
  value := ⟨periodMs.tdiv 1000, periodMs.tmod 1000 * 1000000⟩
  interval := ⟨periodMs.tdiv 1000, periodMs.tmod 1000 * 1000000⟩

/-- `create_wall_timer` up to `timerfd_settime`, with the handler that is to be
registered next; none after one of the two early returns. -/
def prepareWallTimer (node : Node τ κ) (timerfd : Option Nat) (periodMs : Int) (callback : κ) :
    Node τ κ × Option (Handler τ κ) :=
  let opened := node.kernel.openFd timerfd
  let tfd := opened.2
  if tfd = -1 then ({ node with kernel := opened.1 }, none)
  else
    let set := opened.1.timerfdSettime tfd (timerSpec periodMs)
    if set.2 then ({ node with kernel := set.1 }, some (.timer callback tfd))
    else ({ node with kernel := set.1.close tfd }, none)

def createWallTimer (node : Node τ κ) (timerfd : Option Nat) (epoll : Bool) (periodMs : Int)
    (callback : κ) : Node τ κ × Option (TimerContext κ) :=
  match node.prepareWallTimer timerfd periodMs callback with
  | (prepared, some handler) =>
      let registered := prepared.addEvent handler epoll
      ({ registered with timers := registered.timers ++ [⟨handler.fd, callback⟩] },
       some ⟨handler.fd, callback⟩)
  | (returned, none) => (returned, none)

end Node

end TinyMiddleware
