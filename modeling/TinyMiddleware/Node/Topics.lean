import TinyMiddleware.Node.Subscriptions

/-! When publishers and subscriptions get a topic of their own type. Both creation
functions reuse an existing topic by its name alone. -/
namespace TinyMiddleware.Node

open TinyMiddleware.Core Runs

variable {τ κ : Type} (typeName : τ → String)

/-- What `write` or `take_next_sample` passes as `void*` is what the type support of
this topic expects. -/
def TypedFor (p : Participant τ) (topic : Topic) (msgType : τ) : Prop :=
  topic.typeName = typeName msgType ∧ p.types topic.typeName = some msgType

structure Session (τ κ : Type) where
  node : Node τ κ
  publishers : List (Publisher τ)

namespace Session

def init (τ κ : Type) : Session τ κ where
  node := Node.init τ κ
  publishers := []

inductive Call (τ κ : Type) where
  | subscription (call : SubCall τ κ)
  | publisher (outcome : PubOutcome) (msgType : τ) (topicName : String)

def apply (s : Session τ κ) : Call τ κ → Session τ κ
  | .subscription call => { s with node := subscribe typeName s.node call }
  | .publisher o msgType topicName =>
      let created := createPublisher typeName s.node o msgType topicName
      ⟨created.1, s.publishers ++ created.2.toList⟩

/-- Every publisher and every handler in the loop is bound to a topic of its type.
A handler with a null reader is bound to nothing. -/
structure Agreement (s : Session τ κ) : Prop where
  publishers : ∀ pub ∈ s.publishers, ∃ topic, s.node.writers[pub.writer]? = some topic ∧
    TypedFor typeName s.node.participant topic pub.msgType
  handlers : ∀ fd msgType r callback efd,
    s.node.loop.callbacks fd = some (.subscription msgType (some r) callback efd) →
      ∃ reader, s.node.readers[r]? = some reader ∧
        TypedFor typeName s.node.participant reader.topic msgType

/-- The call gets as far as binding a writer or a reader to a topic. -/
def Binds (s : Session τ κ) : Call τ κ → Prop
  | .subscription call => ¬ NoTopic s.node call.outcome call.topicName ∧ call.outcome.reader = true
  | .publisher o _ topicName =>
      (s.node.participant.topics topicName ≠ none ∨ o.topic = true) ∧ o.writer = true

/-- No topic of this name has another type name, and no other type has this type's name. -/
def NoClash (p : Participant τ) (msgType : τ) (topicName : String) : Prop :=
  (∀ topic, p.topics topicName = some topic → topic.typeName = typeName msgType) ∧
    ∀ other, p.types (typeName msgType) = some other → other = msgType

def Fits (s : Session τ κ) : Call τ κ → Prop
  | .subscription call =>
      Binds s (.subscription call) → NoClash typeName s.node.participant call.msgType call.topicName
  | .publisher o msgType topicName =>
      Binds s (.publisher o msgType topicName : Call τ κ) →
        NoClash typeName s.node.participant msgType topicName

end Session

section
variable {typeName} {node : Node τ κ} {ok : Bool} {msgType : τ} {topicName : String}

theorem types_participantFor (name : String) :
    (participantFor typeName node ok msgType topicName).types name =
      if node.participant.types (typeName msgType) = none ∧ name = typeName msgType then
        some msgType
      else node.participant.types name := by
  have hcreate : (participantFor typeName node ok msgType topicName).types =
      (node.participant.registerType (typeName msgType) msgType).types := by
    unfold participantFor Participant.getOrCreateTopic Participant.createTopic
    split
    · rfl
    · split <;> rfl
  rw [hcreate]
  unfold Participant.registerType
  split
  · next other hother => simp [hother]
  · next hnone =>
      simp [hnone, Function.update_apply]

theorem TypedFor.participantFor {topic : Topic} {other : τ}
    (h : TypedFor typeName node.participant topic other) :
    TypedFor typeName (node.participantFor typeName ok msgType topicName) topic other := by
  refine ⟨h.1, ?_⟩
  rw [types_participantFor, if_neg, h.2]
  rintro ⟨hnone, hname⟩
  rw [← hname, h.2] at hnone
  cases hnone

/-- The topic that is used has the type asked for exactly when nothing clashes. -/
theorem typedFor_topicFor_iff {topic : Topic}
    (found : topicFor typeName node ok msgType topicName = some topic) :
    TypedFor typeName (participantFor typeName node ok msgType topicName) topic msgType ↔
      Session.NoClash typeName node.participant msgType topicName := by
  have htypes : (participantFor typeName node ok msgType topicName).types (typeName msgType) =
      some msgType ↔ ∀ other, node.participant.types (typeName msgType) = some other →
        other = msgType := by
    rw [types_participantFor]
    cases node.participant.types (typeName msgType) <;> simp
  have hname : topic.typeName = typeName msgType ↔ ∀ existing,
      node.participant.topics topicName = some existing →
        existing.typeName = typeName msgType := by
    rw [topicFor_eq] at found
    split at found
    · next existing hexisting =>
        cases Option.some.inj found
        simp [hexisting]
    · next hnone =>
        obtain ⟨-, htopic⟩ := Option.ite_none_right_eq_some.mp found
        cases Option.some.inj htopic
        simp [hnone]
  unfold TypedFor Session.NoClash
  rw [← hname, ← htypes]
  apply and_congr_right
  intro heq
  rw [heq]

end

namespace Session

variable {typeName} {s : Session τ κ}

/-- Bindings stay typed when the node only gains readers, writers and type supports. -/
theorem Agreement.handlers_append (h : Agreement typeName s) {ok : Bool} {msgType : τ}
    {topicName : String} (more : List DataReader) {fd : Int} {other : τ} {r : Nat} {callback : κ}
    {efd : Int}
    (mapped : s.node.loop.callbacks fd = some (.subscription other (some r) callback efd)) :
    ∃ reader, (s.node.readers ++ more)[r]? = some reader ∧
      TypedFor typeName (participantFor typeName s.node ok msgType topicName) reader.topic
        other := by
  obtain ⟨reader, hreader, htyped⟩ := h.handlers fd other r callback efd mapped
  refine ⟨reader, ?_, htyped.participantFor⟩
  rw [List.getElem?_append_left (List.getElem?_eq_some_iff.mp hreader).1]
  exact hreader

theorem Agreement.publishers_append (h : Agreement typeName s) {ok : Bool} {msgType : τ}
    {topicName : String} (more : List Topic) {pub : Publisher τ} (known : pub ∈ s.publishers) :
    ∃ topic, (s.node.writers ++ more)[pub.writer]? = some topic ∧
      TypedFor typeName (participantFor typeName s.node ok msgType topicName) topic
        pub.msgType := by
  obtain ⟨topic, htopic, htyped⟩ := h.publishers pub known
  refine ⟨topic, ?_, htyped.participantFor⟩
  rw [List.getElem?_append_left (List.getElem?_eq_some_iff.mp htopic).1]
  exact htopic

theorem agreement_subscription_iff (h : Agreement typeName s) (call : SubCall τ κ) :
    Agreement typeName (apply typeName s (.subscription call)) ↔
      Fits typeName s (.subscription call) := by
  obtain ⟨o, msgType, topicName, callback⟩ := call
  cases htopic : topicFor typeName s.node o.topic msgType topicName with
  | none =>
      have hmissing := (topicFor_eq_none_iff typeName s.node o msgType topicName).mp htopic
      refine iff_of_true ?_ fun hbinds => absurd hmissing hbinds.1
      simp only [apply, subscribe, createSubscription_of_noTopic htopic]
      constructor
      · intro pub hpub
        simpa using h.publishers_append [] hpub
      · intro fd other r cb efd hmapped
        simpa using h.handlers_append [] hmapped
  | some topic =>
      have hfound : ¬ NoTopic s.node o topicName := by
        rw [← topicFor_eq_none_iff typeName s.node o msgType, htopic]
        exact Option.some_ne_none topic
      have htyped := typedFor_topicFor_iff htopic
      simp only [apply, subscribe, createSubscription_of_topic htopic, Fits, Binds, ← htyped]
      constructor
      · rintro hafter ⟨-, hreader⟩
        obtain ⟨reader, hplace, hnew⟩ := hafter.handlers (s.node.kernel.openFd o.eventfd).2 msgType
          s.node.readers.length callback (s.node.kernel.openFd o.eventfd).2
          (by simp [addEvent, EventLoop.addEvent, Handler.fd, hreader])
        simp only [addEvent, hreader, if_true, List.getElem?_concat_length, Option.some.injEq]
          at hplace
        subst hplace
        exact hnew
      · intro hfits
        constructor
        · intro pub hpub
          simpa [addEvent] using h.publishers_append [] hpub
        · intro fd other r cb efd hmapped
          simp only [addEvent, EventLoop.addEvent, Handler.fd, Function.update_apply] at hmapped ⊢
          split at hmapped
          · -- the handler that this call has registered
            simp only [Option.some.injEq, Handler.subscription.injEq,
              Option.ite_none_right_eq_some] at hmapped
            obtain ⟨rfl, ⟨hreader, rfl⟩, rfl, rfl⟩ := hmapped
            refine ⟨⟨topic, s.node.listeners.length⟩, ?_, hfits ⟨hfound, hreader⟩⟩
            simp [hreader]
          · split
            · exact h.handlers_append _ hmapped
            · simpa using h.handlers_append [] hmapped

theorem createPublisher_eq (node : Node τ κ) (o : PubOutcome) (msgType : τ) (topicName : String) :
    createPublisher typeName node o msgType topicName =
      match topicFor typeName node o.topic msgType topicName with
      | none => ({ node with
          participant := participantFor typeName node o.topic msgType topicName }, none)
      | some topic => if o.writer then
          ({ node with
             participant := participantFor typeName node o.topic msgType topicName
             writers := node.writers ++ [topic] }, some ⟨msgType, node.writers.length⟩)
        else ({ node with
          participant := participantFor typeName node o.topic msgType topicName }, none) :=
  rfl

theorem agreement_publisher_iff (h : Agreement typeName s) (o : PubOutcome) (msgType : τ)
    (topicName : String) :
    Agreement typeName (apply typeName s (.publisher o msgType topicName)) ↔
      Fits typeName s (.publisher o msgType topicName) := by
  have hbound : (s.node.participant.topics topicName ≠ none ∨ o.topic = true) ↔
      topicFor typeName s.node o.topic msgType topicName ≠ none := by
    rw [topicFor_eq]
    cases s.node.participant.topics topicName <;> simp
  have hhandlers : ∀ fd other r cb efd,
      s.node.loop.callbacks fd = some (.subscription other (some r) cb efd) →
        ∃ reader, s.node.readers[r]? = some reader ∧ TypedFor typeName
          (participantFor typeName s.node o.topic msgType topicName) reader.topic other := by
    intro fd other r cb efd hmapped
    simpa using h.handlers_append [] hmapped
  simp only [apply, Fits, Binds, hbound, createPublisher_eq]
  cases htopic : topicFor typeName s.node o.topic msgType topicName with
  | none =>
      refine iff_of_true ⟨?_, hhandlers⟩ fun hbinds => absurd rfl hbinds.1
      intro pub hpub
      simpa using h.publishers_append [] (by simpa using hpub)
  | some topic =>
      rw [← typedFor_topicFor_iff htopic]
      cases hwriter : o.writer with
      | false =>
          refine iff_of_true ⟨?_, hhandlers⟩ fun hbinds => Bool.noConfusion hbinds.2
          intro pub hpub
          simpa using h.publishers_append [] (by simpa using hpub)
      | true =>
          constructor
          · rintro hafter -
            obtain ⟨found, hplace, hnew⟩ := hafter.publishers ⟨msgType, s.node.writers.length⟩
              (by simp)
            simp only [if_true, List.getElem?_concat_length, Option.some.injEq] at hplace
            subst hplace
            exact hnew
          · intro hfits
            refine ⟨?_, hhandlers⟩
            intro pub hpub
            obtain hold | hpub := List.mem_append.mp hpub
            · exact h.publishers_append [topic] hold
            · obtain rfl : pub = ⟨msgType, s.node.writers.length⟩ := by simpa using hpub
              exact ⟨topic, List.getElem?_concat_length, hfits ⟨Option.some_ne_none _, rfl⟩⟩

theorem agreement_iff (h : Agreement typeName s) (call : Call τ κ) :
    Agreement typeName (apply typeName s call) ↔ Fits typeName s call := by
  cases call with
  | subscription call => exact agreement_subscription_iff h call
  | publisher o msgType topicName => exact agreement_publisher_iff h o msgType topicName

theorem agreement_init : Agreement typeName (init τ κ) :=
  ⟨nofun, nofun⟩

/-- The types agree after every call exactly when every call that binds something
meets no clash in the state it is made in. -/
theorem type_agreement_iff (calls : List (Call τ κ)) :
    Throughout (apply typeName) (fun before call => Agreement typeName (apply typeName before call))
        (init τ κ) calls ↔
      Throughout (apply typeName) (Fits typeName) (init τ κ) calls :=
  throughout_iff (I := Agreement typeName) (fun _ call h => agreement_iff h call)
    (fun _ _ _ hafter => hafter) agreement_init calls

/-- Two message types on one topic name. -/
theorem type_clash :
    ¬ ∀ calls : List (Call Bool Unit),
      Throughout (apply fun big => if big then "BlobMsg" else "HelloWorld")
      (fun before call => Agreement (fun big => if big then "BlobMsg" else "HelloWorld")
        (apply (fun big => if big then "BlobMsg" else "HelloWorld") before call))
      (init Bool Unit) calls := by
  intro hall
  have hcalls := hall [.publisher ⟨true, true⟩ false "chatter",
    .subscription ⟨⟨some 5, true, true, true⟩, true, "chatter", ()⟩]
  obtain ⟨reader, hreader, hname, -⟩ := hcalls.2.1.handlers 5 true 0 () 5 rfl
  cases hreader
  revert hname
  decide

end Session

end TinyMiddleware.Node
