import TinyMiddleware.Node.BridgeDelivery
import TinyMiddleware.Node.Resources

/-! Processes that talk to each other: each has a node, and what one publishes on a topic
DDS carries to the readers of that topic in all of them. -/
namespace TinyMiddleware.Domain

open TinyMiddleware.Core TinyMiddleware.Bridge Runs

variable {ι τ κ μ : Type} {n : Nat}

/-- A message and the number of the write that it is from. The number is not sent; it is
only there to be talked about. -/
structure Post (μ : Type) where
  write : Nat
  content : μ
  deriving DecidableEq, Repr

/-- What a `DataWriter` has accepted. -/
structure Written (μ : Type) where
  topic : Topic
  content : μ

/-- A written message on its way to one reader of one process. -/
structure Copy (ι : Type) where
  process : ι
  reader : Nat
  write : Nat
  deriving DecidableEq, Repr

structure State (ι : Type) (n : Nat) (τ κ μ : Type) where
  node : ι → System n τ κ (Post μ)
  writes : List (Written μ)
  flight : List (Copy ι)

/-- `found` are the readers that the writer has discovered by the time of the `write`. -/
inductive Event (ι : Type) (n : Nat) (τ κ μ : Type) where
  | node (p : ι) (e : Bridge.Event n τ κ (Post μ))
  | createPublisher (p : ι) (o : Node.PubOutcome) (msgType : τ) (topicName : String)
  | publish (p : ι) (writer : Nat) (content : μ) (found : List (ι × Nat))
  | arrive (k : Nat)
  | lose (k : Nat)

def init (ι : Type) (n : Nat) (τ κ μ : Type) : State ι n τ κ μ where
  node := fun _ => Bridge.init n τ κ (Post μ)
  writes := []
  flight := []

/-- Of itself a reader only comes by samples without data, such as the end of an instance. -/
def ofItself : Bridge.Event n τ κ (Post μ) → Bool
  | .insert _ sample => !sample.validData
  | _ => true

/-- A writer and a reader match if their topics agree in name and in type name. -/
def matchesTopic (s : State ι n τ κ μ) (topic : Topic) (target : ι × Nat) : Bool :=
  match (s.node target.1).node.readers[target.2]? with
  | some reader => decide (reader.topic = topic)
  | none => false

def copies (write : Nat) (found : List (ι × Nat)) : List (Copy ι) :=
  found.map fun target => ⟨target.1, target.2, write⟩

variable [DecidableEq ι]

def State.setNode (s : State ι n τ κ μ) (p : ι) (system : System n τ κ (Post μ)) :
    State ι n τ κ μ :=
  { s with node := Function.update s.node p system }

def withNode (system : System n τ κ (Post μ)) (node : Node τ κ) : System n τ κ (Post μ) :=
  { system with node := node }

def step (typeName : τ → String) (s : State ι n τ κ μ) : Event ι n τ κ μ → Option (State ι n τ κ μ)
  | .node p e =>
      if ofItself e then (Bridge.step typeName (s.node p) e).map (s.setNode p) else none
  | .createPublisher p o msgType topicName =>
      some (s.setNode p (withNode (s.node p)
        ((s.node p).node.createPublisher typeName o msgType topicName).1))
  | .publish p writer content found =>
      match (s.node p).node.writers[writer]? with
      | some topic =>
          if found.Nodup ∧ found.all (matchesTopic s topic) then
            some { s with
              writes := s.writes ++ [⟨topic, content⟩]
              flight := s.flight ++ copies s.writes.length found }
          else none
      | none => none
  | .arrive k =>
      match s.flight[k]? with
      | some copy =>
          match s.writes[copy.write]? with
          | some written =>
              (Bridge.step typeName (s.node copy.process)
                (.insert copy.reader ⟨⟨copy.write, written.content⟩, true⟩)).map fun system =>
                { s.setNode copy.process system with flight := s.flight.eraseIdx k }
          | none => none
      | none => none
  | .lose k => if k < s.flight.length then some { s with flight := s.flight.eraseIdx k } else none

abbrev Reachable (typeName : τ → String) (s : State ι n τ κ μ) : Prop :=
  Runs.Reachable (step typeName) (init ι n τ κ μ) s

inductive Moves (typeName : τ → String) (s : State ι n τ κ μ) :
    Event ι n τ κ μ → State ι n τ κ μ → Prop
  | node (p : ι) (e : Bridge.Event n τ κ (Post μ)) (own : ofItself e = true)
      (system : System n τ κ (Post μ)) (move : Bridge.step typeName (s.node p) e = some system) :
      Moves typeName s (.node p e) (s.setNode p system)
  | publisherCreated (p : ι) (o : Node.PubOutcome) (msgType : τ) (topicName : String)
      (participant : Participant τ) (writers : List Topic) :
      Moves typeName s (.createPublisher p o msgType topicName)
        (s.setNode p (withNode (s.node p)
          { (s.node p).node with participant := participant, writers := writers }))
  | published (p : ι) (writer : Nat) (content : μ) (found : List (ι × Nat)) (topic : Topic)
      (distinct : found.Nodup) (matching : ∀ target ∈ found, matchesTopic s topic target = true) :
      Moves typeName s (.publish p writer content found)
        { s with
          writes := s.writes ++ [⟨topic, content⟩]
          flight := s.flight ++ copies s.writes.length found }
  | arrived (k : Nat) (copy : Copy ι) (here : s.flight[k]? = some copy) (written : Written μ)
      (accepted : s.writes[copy.write]? = some written)
      (system : System n τ κ (Post μ))
      (move : Bridge.step typeName (s.node copy.process)
        (.insert copy.reader ⟨⟨copy.write, written.content⟩, true⟩) = some system) :
      Moves typeName s (.arrive k)
        { s.setNode copy.process system with flight := s.flight.eraseIdx k }
  | lost (k : Nat) (here : k < s.flight.length) :
      Moves typeName s (.lose k) { s with flight := s.flight.eraseIdx k }

theorem moves {typeName : τ → String} {s t : State ι n τ κ μ} {e : Event ι n τ κ μ}
    (h : step typeName s e = some t) : Moves typeName s e t := by
  cases e with
  | node p e =>
      obtain ⟨hown, h⟩ := Option.ite_none_right_eq_some.mp h
      obtain ⟨system, hmove, rfl⟩ := Option.map_eq_some_iff.mp h
      exact .node p e hown system hmove
  | createPublisher p o msgType topicName =>
      obtain ⟨participant, writers, hcreated⟩ :=
        Resources.createPublisher_frame typeName (s.node p).node o msgType topicName
      have heq := Option.some.inj h
      rw [hcreated] at heq
      exact heq ▸ .publisherCreated p o msgType topicName participant writers
  | publish p writer content found =>
      simp only [step] at h
      split at h
      · next topic _ =>
          obtain ⟨⟨hdistinct, hmatching⟩, h⟩ := Option.ite_none_right_eq_some.mp h
          exact Option.some.inj h ▸ .published p writer content found topic hdistinct
            (List.all_eq_true.mp hmatching)
      · cases h
  | arrive k =>
      simp only [step] at h
      split at h
      · next copy hhere =>
          split at h
          · next written haccepted =>
              obtain ⟨system, hmove, rfl⟩ := Option.map_eq_some_iff.mp h
              exact .arrived k copy hhere written haccepted system hmove
          · cases h
      · cases h
  | lose k =>
      obtain ⟨hhere, h⟩ := Option.ite_none_right_eq_some.mp h
      exact Option.some.inj h ▸ .lost k hhere

end TinyMiddleware.Domain
