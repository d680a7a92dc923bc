import TinyMiddleware.Node.BridgeDelivery

/-! What a node delivers does not depend on its publishers, nor on what its topics are
called: two nodes that only differ in these go on alike. -/
namespace TinyMiddleware.Bridge

open TinyMiddleware.Core Runs

variable {n : Nat} {τ κ μ : Type} {s t : System n τ κ μ} {typeName : τ → String}

def noTopic : Topic := ⟨"", ""⟩

/-- A node without what DDS knows by name. -/
def bareNode (node : Node τ κ) : Node τ κ :=
  { node with
    participant := ⟨fun _ => none, fun _ => none⟩
    writers := []
    readers := node.readers.map fun reader => ⟨noTopic, reader.listener⟩
    subs := node.subs.map fun ctx => { ctx with topic := noTopic } }

def bare (s : System n τ κ μ) : System n τ κ μ :=
  { s with node := bareNode s.node }

theorem bare_bare (s : System n τ κ μ) : bare (bare s) = bare s := by
  simp [bare, bareNode, Function.comp_def]

theorem listenerFd_bareNode (node : Node τ κ) (r : Nat) :
    listenerFd (bareNode node) r = listenerFd node r := by
  simp only [listenerFd, bareNode, List.getElem?_map]
  cases node.readers[r]? <;> rfl

theorem registered_bareNode (node : Node τ κ) (handler : Handler τ κ) :
    registered (bareNode node) handler = bareNode (registered node handler) := by
  cases handler <;> rfl

theorem read_bare (s : System n τ κ μ) (handler : Handler τ κ) :
    read (bare s) handler = bare (read s handler) := by
  cases handler with
  | subscription => rfl
  | timer callback tfd =>
      simp only [read]
      rw [apply_ite bare]
      rfl

def isSubscribe : Event n τ κ μ → Bool
  | .subscribe .. => true
  | _ => false

theorem step_bare {e : Event n τ κ μ} (plain : isSubscribe e = false) :
    step typeName (bare s) e = (step typeName s e).map bare := by
  have hcurrent : current (bare s).node = current s.node := rfl
  have hpc : (bare s).handlerPc = s.handlerPc := rfl
  have hpool : (bare s).pool = s.pool := rfl
  cases e with
  | subscribe => cases plain
  | startTimer fd periodMs callback =>
      have hmay : mayCreate (bare s) fd = mayCreate s fd := rfl
      have hkernel : (bare s).node.kernel = s.node.kernel := rfl
      simp only [step, hmay]
      split
      · simp only [Node.prepareWallTimer, hkernel]
        split_ifs <;> rfl
      · rfl
  | register =>
      have hpending : (bare s).pending = s.pending := rfl
      simp only [step, hpending, Option.map_map]
      congr 1
      funext handler
      simp only [Function.comp_apply, bare, registered_bareNode]
  | insert reader sample =>
      have hlength : (bare s).node.readers.length = s.node.readers.length := List.length_map _
      simp only [step, hlength]
      split <;> rfl
  | evict reader i =>
      simp only [step]
      rw [apply_ite (Option.map bare)]
      rfl
  | onDataAvailable reader =>
      have hlistener : listenerFd (bare s).node reader = listenerFd s.node reader :=
        listenerFd_bareNode s.node reader
      simp only [step, hlistener]
      cases listenerFd s.node reader with
      | none => rfl
      | some efd =>
          simp only
          rw [apply_ite (Option.map bare)]
          rfl
  | expire tfd =>
      have hkernel : (bare s).node.kernel = s.node.kernel := rfl
      simp only [step, hkernel]
      cases s.node.kernel.armed tfd <;> rfl
  | loop e =>
      have hmay : loopMay (bare s) e = loopMay s e := by
        cases e <;> rfl
      have hloop : (bare s).node.loop = s.node.loop := rfl
      simp only [step, hmay, hloop]
      rw [apply_ite (Option.map bare), Option.map_map]
      rfl
  | read =>
      simp only [step, hcurrent, hpc]
      split
      · simp [read_bare]
      · rfl
  | take i =>
      simp only [step, hcurrent, hpc]
      split
      · cases i with
        | none =>
            simp only [take]
            rw [apply_ite (Option.map bare)]
            rfl
        | some i =>
            simp only [take, Option.map_map]
            rfl
      · rfl
  | enqueue =>
      simp only [step, hcurrent, hpc, hpool]
      split
      · rw [Option.map_map]
        congr 1
        funext pool
        simp only [Function.comp_apply]
        rw [apply_ite bare]
        rfl
      · rfl
  | notify woken =>
      simp only [step, hcurrent, hpc, hpool]
      split
      · rw [Option.map_map]
        rfl
      · rfl
  | worker e =>
      simp only [step, hpool]
      rw [apply_ite (Option.map bare), Option.map_map]
      rfl

theorem subscribe_eq (typeName : τ → String) {fd : Nat} (may : mayCreate s fd = true)
    (msgType : τ) (topicName : String) (callback : κ) : ∃ participant topic,
      step typeName s (.subscribe fd msgType topicName callback) =
        some (withReader s (s.node.kernel.openFd (some fd)).1 participant topic fd msgType
          callback) := by
  have hfd := (Kernel.openFd_some (mayCreate_iff.mp may).2.2).1
  cases htopic : Node.topicFor typeName s.node true msgType topicName with
  | none =>
      have hmissing := (Node.topicFor_eq_none_iff typeName s.node ⟨none, true, true, true⟩ msgType
        topicName).mp htopic
      exact Bool.noConfusion hmissing.2
  | some topic =>
      unfold Node.topicFor at htopic
      simp only [step, may, if_true, Node.prepareSubscription, htopic, hfd]
      exact ⟨_, _, rfl⟩

theorem bare_withReader (kernel : Kernel) (participant participant' : Participant τ)
    (topic topic' : Topic) (fd : Int) (msgType : τ) (callback : κ) :
    bare (withReader (bare s) kernel participant' topic' fd msgType callback) =
      bare (withReader s kernel participant topic fd msgType callback) := by
  simp [bare, bareNode, withReader, Function.comp_def]

/-- A node that knows of other topics does the same things. -/
theorem map_bare_step (s : System n τ κ μ) (e : Event n τ κ μ) :
    (step typeName (bare s) e).map bare = (step typeName s e).map bare := by
  cases hplain : isSubscribe e with
  | false =>
      rw [step_bare hplain, Option.map_map]
      congr 1
      funext t
      exact bare_bare t
  | true =>
      cases e with
      | subscribe fd msgType topicName callback =>
          cases hmay : mayCreate s fd with
          | false =>
              have hmay' : mayCreate (bare s) fd = false := hmay
              simp [step, hmay, hmay']
          | true =>
              have hmay' : mayCreate (bare s) fd = true := hmay
              obtain ⟨p, topic, hstep⟩ := subscribe_eq typeName hmay msgType topicName callback
              obtain ⟨p', topic', hstep'⟩ := subscribe_eq typeName hmay' msgType topicName callback
              rw [hstep, hstep', Option.map_some, Option.map_some]
              exact congrArg some (bare_withReader _ _ _ _ _ _ _ _)
      | _ => cases hplain

/-- Two nodes that differ in their publishers and in what their topics are called. -/
def Alike (s t : System n τ κ μ) : Prop :=
  bare s = bare t

theorem Alike.step (h : Alike s t) {e : Event n τ κ μ} {s' : System n τ κ μ}
    (hstep : Bridge.step typeName s e = some s') :
    ∃ t', Bridge.step typeName t e = some t' ∧ Alike s' t' := by
  have hmap : (Bridge.step typeName t e).map bare = some (bare s') := by
    rw [← map_bare_step, ← h, map_bare_step, hstep]
    rfl
  obtain ⟨t', hstep', hbare⟩ := Option.map_eq_some_iff.mp hmap
  exact ⟨t', hstep', hbare.symm⟩

theorem Alike.symm (h : Alike s t) : Alike t s :=
  Eq.symm h

section Fields
variable (h : Alike s t)
include h

theorem Alike.loop : s.node.loop = t.node.loop :=
  congrArg (fun s => s.node.loop) h

theorem Alike.kernel : s.node.kernel = t.node.kernel :=
  congrArg (fun s => s.node.kernel) h

theorem Alike.pending : s.pending = t.pending :=
  congrArg (fun s => s.pending) h

theorem Alike.pool : s.pool = t.pool :=
  congrArg (fun s => s.pool) h

theorem Alike.handlerPc : s.handlerPc = t.handlerPc :=
  congrArg (fun s => s.handlerPc) h

theorem Alike.signals : s.signals = t.signals :=
  congrArg (fun s => s.signals) h

theorem Alike.history : s.history = t.history :=
  congrArg (fun s => s.history) h

theorem Alike.taken : s.taken = t.taken :=
  congrArg (fun s => s.taken) h

theorem Alike.log : s.log = t.log :=
  congrArg (fun s => s.log) h

theorem Alike.current : current s.node = current t.node := by
  unfold Bridge.current
  rw [h.loop]

theorem Alike.known (handler : Handler τ κ) : Known s handler ↔ Known t handler := by
  unfold Known
  rw [h.loop, h.pending]

theorem Alike.acceptedFrom (fd : Int) : acceptedFrom s fd = acceptedFrom t fd := by
  unfold Bridge.acceptedFrom
  rw [h.log]

theorem Alike.inFlight (fd : Int) : inFlight s fd = inFlight t fd := by
  unfold Bridge.inFlight
  rw [h.current, h.handlerPc]

end Fields

end TinyMiddleware.Bridge
