import TinyMiddleware.Lib.Runs
import TinyMiddleware.Node.Api

/-! Which calls of `create_subscription` are all or nothing. Of the five things it
acquires only the topic is checked. -/
namespace TinyMiddleware.Node

open TinyMiddleware.Core Runs

variable {τ κ : Type} (typeName : τ → String)

/-- A subscription that can deliver: its reader is not null, the reader's listener
writes to its eventfd, that descriptor is open and registered, and the map has its
handler under it. -/
structure Delivers (node : Node τ κ) (ctx : SubContext) (handler : Handler τ κ) : Prop where
  reader : ∃ r msgType callback, ctx.reader = some r ∧
    handler = .subscription msgType (some r) callback ctx.eventFd ∧
    node.readers[r]? = some ⟨ctx.topic, ctx.listener⟩
  bridged : node.listeners[ctx.listener]? = some ctx.eventFd
  valid : ctx.eventFd ∈ node.kernel.isOpen
  registered : ctx.eventFd ∈ node.kernel.interest
  mapped : node.loop.callbacks ctx.eventFd = some handler

/-- `subs_` has gained one context, and it delivers to this callback. -/
def Gained (before after : Node τ κ) (msgType : τ) (callback : κ) : Prop :=
  ∃ ctx, after.subs = before.subs ++ [ctx] ∧
    Delivers after ctx (.subscription msgType ctx.reader callback ctx.eventFd)

/-- What the node and its event loop keep is as before, and the eventfd is closed. -/
def Unchanged (before after : Node τ κ) : Prop :=
  after.subs = before.subs ∧ after.loop.callbacks = before.loop.callbacks ∧
    after.kernel.interest = before.kernel.interest ∧ after.kernel.isOpen = before.kernel.isOpen

/-- No topic of that name, and `create_topic` gives null. -/
def NoTopic (node : Node τ κ) (o : SubOutcome) (topicName : String) : Prop :=
  node.participant.topics topicName = none ∧ o.topic = false

/-- None of the unchecked calls fails. -/
def NoFailure (node : Node τ κ) (o : SubOutcome) : Prop :=
  (∃ fd : Nat, o.eventfd = some fd ∧ (fd : Int) ∉ node.kernel.isOpen) ∧ o.reader = true ∧
    o.epoll = true

theorem topics_registerType {τ : Type} (p : Participant τ) (name : String) (msgType : τ) :
    (p.registerType name msgType).topics = p.topics := by
  unfold Participant.registerType
  split <;> rfl

/-- The topic a creation function gets hold of. -/
def topicFor (node : Node τ κ) (ok : Bool) (msgType : τ) (topicName : String) : Option Topic :=
  ((node.participant.registerType (typeName msgType) msgType).getOrCreateTopic
    topicName (typeName msgType) ok).2

/-- The participant after a creation function has registered its type and looked for
its topic. -/
def participantFor (node : Node τ κ) (ok : Bool) (msgType : τ) (topicName : String) :
    Participant τ :=
  ((node.participant.registerType (typeName msgType) msgType).getOrCreateTopic
    topicName (typeName msgType) ok).1

theorem topicFor_eq (node : Node τ κ) (ok : Bool) (msgType : τ) (topicName : String) :
    topicFor typeName node ok msgType topicName =
      match node.participant.topics topicName with
      | some topic => some topic
      | none => if ok then some ⟨topicName, typeName msgType⟩ else none := by
  unfold topicFor Participant.getOrCreateTopic Participant.lookupTopicdescription
    Participant.createTopic
  rw [topics_registerType]
  cases node.participant.topics topicName with
  | some topic => rfl
  | none => cases ok <;> rfl

theorem topicFor_eq_none_iff (node : Node τ κ) (o : SubOutcome) (msgType : τ)
    (topicName : String) :
    topicFor typeName node o.topic msgType topicName = none ↔ NoTopic node o topicName := by
  rw [topicFor_eq]
  unfold NoTopic
  cases node.participant.topics topicName <;> simp

section
variable {typeName} {node : Node τ κ} {o : SubOutcome} {msgType : τ} {topicName : String}
  {callback : κ}

theorem createSubscription_of_noTopic
    (missing : topicFor typeName node o.topic msgType topicName = none) :
    createSubscription typeName node o msgType topicName callback =
      { node with
        kernel := (node.kernel.openFd o.eventfd).1.close (node.kernel.openFd o.eventfd).2
        participant := participantFor typeName node o.topic msgType topicName } := by
  unfold topicFor at missing
  simp only [createSubscription, prepareSubscription, missing]
  rfl

theorem createSubscription_of_topic {topic : Topic}
    (found : topicFor typeName node o.topic msgType topicName = some topic) :
    createSubscription typeName node o msgType topicName callback =
      addEvent
        { node with
          kernel := (node.kernel.openFd o.eventfd).1
          participant := participantFor typeName node o.topic msgType topicName
          listeners := node.listeners ++ [(node.kernel.openFd o.eventfd).2]
          readers := if o.reader then node.readers ++ [⟨topic, node.listeners.length⟩]
            else node.readers
          subs := node.subs ++ [⟨topic, if o.reader then some node.readers.length else none,
            node.listeners.length, (node.kernel.openFd o.eventfd).2⟩] }
        (.subscription msgType (if o.reader then some node.readers.length else none) callback
          (node.kernel.openFd o.eventfd).2) o.epoll := by
  unfold topicFor at found
  simp only [createSubscription, prepareSubscription, found]
  rfl

theorem unchanged_of_noTopic (missing : NoTopic node o topicName) :
    Unchanged node (createSubscription typeName node o msgType topicName callback) := by
  rw [createSubscription_of_noTopic ((topicFor_eq_none_iff typeName node o msgType topicName).mpr
    missing)]
  obtain ⟨hopen, hinterest⟩ := node.kernel.close_openFd o.eventfd
  exact ⟨rfl, rfl, hinterest, hopen⟩

/-- With a topic, the context that is pushed delivers exactly when nothing else failed. -/
theorem gained_iff {topic : Topic}
    (found : topicFor typeName node o.topic msgType topicName = some topic) :
    Gained node (createSubscription typeName node o msgType topicName callback) msgType callback ↔
      NoFailure node o := by
  rw [createSubscription_of_topic found]
  constructor
  · rintro ⟨ctx, hsubs, hdelivers⟩
    -- the context that was gained is the one that was pushed
    obtain rfl : _ = ctx := List.singleton_inj.mp (List.append_cancel_left hsubs)
    obtain ⟨r, -, -, hreader, -, -⟩ := hdelivers.reader
    have hvalid := hdelivers.valid
    have hregistered := hdelivers.registered
    simp only [addEvent, EventLoop.addEvent, Handler.fd, Kernel.isOpen_epollAdd] at hvalid
    refine ⟨(node.kernel.mem_isOpen_openFd o.eventfd).mp hvalid, ?_, ?_⟩
    · by_contra hnull
      simp [hnull] at hreader
    · by_contra hrefused
      simp only [addEvent, EventLoop.addEvent, Handler.fd] at hregistered
      rw [Kernel.epollAdd_of_failed, Kernel.interest_openFd] at hregistered
      · exact node.kernel.openFd_notMem o.eventfd (node.kernel.interest_open hregistered)
      · exact Bool.eq_false_iff.mpr fun h => hrefused (Kernel.epollAdd_eq_true.mp h).1
  · rintro ⟨hfresh, hreader, hepoll⟩
    have hvalid := (node.kernel.mem_isOpen_openFd o.eventfd).mpr hfresh
    have hadded : ((node.kernel.openFd o.eventfd).1.epollAdd (node.kernel.openFd o.eventfd).2
        o.epoll).2 = true := by
      rw [Kernel.epollAdd_eq_true, Kernel.interest_openFd]
      exact ⟨hepoll, hvalid, fun h =>
        node.kernel.openFd_notMem o.eventfd (node.kernel.interest_open h)⟩
    refine ⟨_, rfl, ?_, ?_, ?_, ?_, ?_⟩
    · exact ⟨node.readers.length, msgType, callback, by simp [hreader], by simp [hreader],
        by simp [addEvent, hreader]⟩
    · simp [addEvent]
    · simpa [addEvent, EventLoop.addEvent] using hvalid
    · simp only [addEvent, EventLoop.addEvent, Handler.fd, Kernel.interest_epollAdd hadded]
      exact Finset.mem_insert_self _ _
    · simp [addEvent, EventLoop.addEvent, Handler.fd]

/-- Later calls never take a descriptor or a place that an earlier subscription has. -/
theorem Delivers.keep {ctx : SubContext} {handler : Handler τ κ} (h : Delivers node ctx handler) :
    Delivers (createSubscription typeName node o msgType topicName callback) ctx handler := by
  have hother : ctx.eventFd ≠ (node.kernel.openFd o.eventfd).2 := by
    intro heq
    exact node.kernel.openFd_notMem o.eventfd (heq ▸ h.valid)
  cases htopic : topicFor typeName node o.topic msgType topicName with
  | none =>
      rw [createSubscription_of_noTopic htopic]
      obtain ⟨hopen, hinterest⟩ := node.kernel.close_openFd o.eventfd
      exact ⟨h.reader, h.bridged, hopen ▸ h.valid, hinterest ▸ h.registered, h.mapped⟩
  | some topic =>
      rw [createSubscription_of_topic htopic]
      refine ⟨?_, ?_, ?_, ?_, ?_⟩
      · obtain ⟨r, msg, cb, hreader, hhandler, hplace⟩ := h.reader
        refine ⟨r, msg, cb, hreader, hhandler, ?_⟩
        simp only [addEvent]
        split
        · exact List.getElem?_append_left (List.getElem?_eq_some_iff.mp hplace).1 ▸ hplace
        · exact hplace
      · exact List.getElem?_append_left (List.getElem?_eq_some_iff.mp h.bridged).1 ▸ h.bridged
      · simp only [addEvent, EventLoop.addEvent, Kernel.isOpen_epollAdd]
        exact node.kernel.isOpen_subset_openFd _ h.valid
      · simp only [addEvent, EventLoop.addEvent]
        apply Kernel.interest_subset_epollAdd
        rw [Kernel.interest_openFd]
        exact h.registered
      · simp only [addEvent, EventLoop.addEvent, Handler.fd]
        rw [Function.update_of_ne hother]
        exact h.mapped

end

structure SubCall (τ κ : Type) where
  outcome : SubOutcome
  msgType : τ
  topicName : String
  callback : κ

def subscribe (node : Node τ κ) (call : SubCall τ κ) : Node τ κ :=
  createSubscription typeName node call.outcome call.msgType call.topicName call.callback

def AllOrNothing (before : Node τ κ) (call : SubCall τ κ) : Prop :=
  Gained before (subscribe typeName before call) call.msgType call.callback ∨
    Unchanged before (subscribe typeName before call)

/-- If a call inside fails, it is `create_topic`. -/
def OnlyTopicFails (before : Node τ κ) (call : SubCall τ κ) : Prop :=
  NoTopic before call.outcome call.topicName ∨ NoFailure before call.outcome

def EveryEntryDelivers (node : Node τ κ) : Prop :=
  ∀ ctx ∈ node.subs, ∃ handler, Delivers node ctx handler

variable {typeName}

theorem allOrNothing_iff_onlyTopicFails (node : Node τ κ) (call : SubCall τ κ) :
    AllOrNothing typeName node call ↔ OnlyTopicFails node call := by
  cases htopic : topicFor typeName node call.outcome.topic call.msgType call.topicName with
  | none =>
      have hmissing := (topicFor_eq_none_iff typeName node _ _ _).mp htopic
      exact iff_of_true (Or.inr (unchanged_of_noTopic hmissing)) (Or.inl hmissing)
  | some topic =>
      have hnotopic : ¬ NoTopic node call.outcome call.topicName := by
        rw [← topicFor_eq_none_iff typeName node call.outcome call.msgType, htopic]
        exact Option.some_ne_none topic
      have hchanged : ¬ Unchanged node (subscribe typeName node call) := by
        rintro ⟨hsubs, -⟩
        rw [subscribe, createSubscription_of_topic htopic] at hsubs
        exact List.cons_ne_nil _ _ (List.append_right_eq_self.mp hsubs)
      rw [AllOrNothing, OnlyTopicFails, or_iff_left hchanged, or_iff_right hnotopic]
      exact gained_iff htopic

theorem everyEntryDelivers_of_allOrNothing {node : Node τ κ} {call : SubCall τ κ}
    (h : EveryEntryDelivers node) (hcall : AllOrNothing typeName node call) :
    EveryEntryDelivers (subscribe typeName node call) := by
  intro ctx hctx
  obtain ⟨new, hsubs, hnew⟩ | ⟨hsubs, -⟩ := hcall
  · rw [hsubs] at hctx
    obtain hold | hctx := List.mem_append.mp hctx
    · obtain ⟨handler, hhandler⟩ := h ctx hold
      exact ⟨handler, hhandler.keep⟩
    · rw [List.mem_singleton.mp hctx]
      exact ⟨_, hnew⟩
  · obtain ⟨handler, hhandler⟩ := h ctx (hsubs ▸ hctx)
    exact ⟨handler, hhandler.keep⟩

/-- One call, from any state, and then a whole sequence of them. -/
theorem subscriptions_whole_iff :
    (∀ (node : Node τ κ) call, AllOrNothing typeName node call ↔ OnlyTopicFails node call) ∧
      ∀ (node : Node τ κ) calls, EveryEntryDelivers node →
        (Throughout (subscribe typeName) (fun before call => AllOrNothing typeName before call ∧
            EveryEntryDelivers (subscribe typeName before call)) node calls ↔
          Throughout (subscribe typeName) OnlyTopicFails node calls) := by
  refine ⟨allOrNothing_iff_onlyTopicFails, ?_⟩
  intro node calls hnode
  refine throughout_iff ?_ ?_ hnode calls
  · intro before call hbefore
    rw [← allOrNothing_iff_onlyTopicFails (τ := τ)]
    exact and_iff_left_of_imp (everyEntryDelivers_of_allOrNothing hbefore)
  · exact fun _ _ _ hcall => hcall.2

/-- Two subscriptions to one topic, and a third one that finds no topic. -/
theorem subscriptions_whole_three :
    Throughout (subscribe fun _ : Unit => "HelloWorld") (fun before call =>
        AllOrNothing (fun _ => "HelloWorld") before call ∧
          EveryEntryDelivers (subscribe (fun _ => "HelloWorld") before call))
      (init Unit Nat)
      [⟨⟨some 5, true, true, true⟩, (), "chatter", 0⟩,
        ⟨⟨some 6, false, true, true⟩, (), "chatter", 1⟩,
        ⟨⟨some 7, false, true, true⟩, (), "scan", 2⟩] := by
  refine (subscriptions_whole_iff.2 (init Unit Nat) _ nofun).mpr ⟨?_, ?_, ?_, trivial⟩
  · exact Or.inr ⟨⟨5, rfl, by decide⟩, rfl, rfl⟩
  · exact Or.inr ⟨⟨6, rfl, by decide⟩, rfl, rfl⟩
  · exact Or.inl ⟨by decide, rfl⟩

/-- `create_datareader` returns null. -/
theorem half_made_subscription :
    ¬ ∀ (node : Node Unit Unit) call, AllOrNothing (fun _ => "HelloWorld") node call := by
  intro hall
  have hcall := (allOrNothing_iff_onlyTopicFails _ _).mp
    (hall (init Unit Unit) ⟨⟨some 5, true, false, true⟩, (), "chatter", ()⟩)
  obtain ⟨-, htopic⟩ | ⟨-, hreader, -⟩ := hcall
  · exact Bool.noConfusion htopic
  · exact Bool.noConfusion hreader

end TinyMiddleware.Node
