import TinyMiddleware.Node.BridgeAlike
import TinyMiddleware.Node.Domain
import Mathlib.Data.List.Perm.Subperm

/-! What reaches a callback: messages that were written on its topic, each at most once,
whatever DDS loses and in whatever order the processes take their steps. -/
namespace TinyMiddleware.Domain

open TinyMiddleware.Core TinyMiddleware.Bridge Runs

variable {ι τ κ μ : Type} {n : Nat}

def isPost (w : Nat) (sample : Sample (Post μ)) : Bool :=
  sample.validData && decide (sample.content.write = w)

def isCall (w : Nat) : Task κ (Post μ) → Bool
  | .message _ post => decide (post.write = w)
  | .tick _ => false

/-- How often one message is with a reader, or has been taken from it. -/
def held (s : System n τ κ (Post μ)) (r w : Nat) : Nat :=
  (s.history r).countP (isPost w) + (s.taken r).countP (isPost w)

/-- Whether an event brings a reader the message of one write. -/
def brings (r w : Nat) : Bridge.Event n τ κ (Post μ) → Nat
  | .insert reader sample => if reader = r ∧ isPost w sample = true then 1 else 0
  | _ => 0

def topicAt (s : System n τ κ (Post μ)) (r : Nat) : Option Topic :=
  (s.node.readers[r]?).map (·.topic)

/-- How often a subscription's callback has been called with the message of one write. -/
def calls (s : System n τ κ (Post μ)) (efd : Int) (w : Nat) : Nat :=
  s.pool.begun.countP fun k =>
    (s.log[k]?).any fun entry => decide (entry.1 = efd) && isCall w entry.2

theorem brings_copy (r w reader write : Nat) (content : μ) :
    brings r w (.insert reader ⟨⟨write, content⟩, true⟩ : Bridge.Event n τ κ (Post μ)) =
      if reader = r ∧ write = w then 1 else 0 := by
  simp [brings, isPost]

section Counting
variable {α β : Type*}

theorem countP_eraseIdx_add (p : α → Bool) {l : List α} {i : Nat} {a : α} (h : l[i]? = some a) :
    (l.eraseIdx i).countP p + (if p a then 1 else 0) = l.countP p := by
  obtain ⟨hi, rfl⟩ := List.getElem?_eq_some_iff.mp h
  rw [← (List.getElem_cons_eraseIdx_perm hi).countP_eq p, List.countP_cons]

theorem countP_eraseIdx_le (p : α → Bool) (l : List α) (i : Nat) :
    (l.eraseIdx i).countP p ≤ l.countP p :=
  (List.eraseIdx_sublist l i).countP_le

theorem countP_range (p : α → Bool) (l : List α) :
    (List.range l.length).countP (fun k => (l[k]?).any p) = l.countP p := by
  induction l using List.reverseRecOn with
  | nil => rfl
  | append_singleton l a ih =>
      have hold : (List.range l.length).countP (fun k => ((l ++ [a])[k]?).any p) =
          (List.range l.length).countP fun k => (l[k]?).any p := by
        apply List.countP_congr
        intro k hk
        rw [List.getElem?_append_left (List.mem_range.mp hk)]
      rw [List.length_append, List.length_singleton, List.range_succ, List.countP_append, hold, ih,
        List.countP_append]
      simp

/-- Different places in a list hold no more entries of a kind than the list does. -/
theorem countP_places_le (p : α → Bool) {l : List α} {places : List Nat}
    (distinct : places.Nodup) (inside : ∀ k ∈ places, k < l.length) :
    places.countP (fun k => (l[k]?).any p) ≤ l.countP p := by
  rw [← countP_range p l]
  exact (distinct.subperm fun k hk => List.mem_range.mpr (inside k hk)).countP_le _

end Counting

theorem countP_messages (callback : κ) (samples : List (Sample (Post μ))) (w : Nat) :
    (messages callback samples).countP (isCall w) = samples.countP (isPost w) := by
  unfold messages
  rw [List.countP_map, List.countP_filter]
  apply List.countP_congr
  intro sample _
  simp [isCall, isPost, Bool.and_comm]

theorem countP_acceptedFrom (s : System n τ κ (Post μ)) (efd : Int) (w : Nat) :
    (acceptedFrom s efd).countP (isCall w) =
      s.log.countP fun entry => decide (entry.1 = efd) && isCall w entry.2 := by
  unfold acceptedFrom
  rw [List.countP_map, List.countP_filter]
  apply List.countP_congr
  intro entry _
  simp [Bool.and_comm]

section Nodes
variable {s t : System n τ κ (Post μ)} {typeName : τ → String}

theorem topicAt_append {r : Nat} {topic : Topic} {readers more : List DataReader}
    (h : (readers[r]?).map (·.topic) = some topic) :
    ((readers ++ more)[r]?).map (·.topic) = some topic := by
  obtain ⟨reader, hreader, rfl⟩ := Option.map_eq_some_iff.mp h
  rw [List.getElem?_append_left (List.getElem?_eq_some_iff.mp hreader).1, hreader]
  rfl

/-- A reader keeps its topic. -/
theorem topicAt_step {e : Bridge.Event n τ κ (Post μ)} (h : Bridge.step typeName s e = some t)
    {r : Nat} {topic : Topic} (at_topic : topicAt s r = some topic) : topicAt t r = some topic := by
  cases Bridge.moves h with
  | subscribed => exact topicAt_append at_topic
  | registered handler waits =>
      unfold topicAt
      rw [readers_registered]
      exact at_topic
  | read handler =>
      unfold topicAt
      rw [(sameWiring_read handler).readers]
      exact at_topic
  | _ => exact at_topic

/-- What a node holds is what it held, but for what is inserted. -/
theorem held_step {e : Bridge.Event n τ κ (Post μ)} (h : Bridge.step typeName s e = some t)
    (r w : Nat) : held t r w ≤ held s r w + brings r w e := by
  cases Bridge.moves h with
  | inserted reader sample known =>
      simp only [held, brings]
      by_cases hr : r = reader
      · subst hr
        rw [Function.update_self, List.countP_append, List.countP_singleton]
        simp only [true_and]
        omega
      · rw [Function.update_of_ne hr]
        omega
  | evicted reader i present =>
      simp only [held, brings, Nat.add_zero]
      by_cases hr : r = reader
      · subst hr
        rw [Function.update_self]
        exact Nat.add_le_add_right (countP_eraseIdx_le _ _ _) _
      · rw [Function.update_of_ne hr]
  | took m reader callback efd i sample inside here present =>
      simp only [held, brings, takeSample, Nat.add_zero]
      by_cases hr : r = reader
      · subst hr
        rw [Function.update_self, Function.update_self, List.countP_append, List.countP_singleton,
          ← countP_eraseIdx_add (isPost w) present]
        omega
      · rw [Function.update_of_ne hr, Function.update_of_ne hr]
  | read handler =>
      obtain ⟨hhistory, -, htaken, -, -⟩ := read_frame s handler
      simp only [held, brings, hhistory, htaken, Nat.add_zero, le_refl]
  | _ => exact le_rfl

/-- Whatever a reader holds was there before or is being inserted. -/
theorem mem_held_step {e : Bridge.Event n τ κ (Post μ)} (h : Bridge.step typeName s e = some t)
    {r : Nat} {sample : Sample (Post μ)} (hmem : sample ∈ t.history r ∨ sample ∈ t.taken r) :
    (sample ∈ s.history r ∨ sample ∈ s.taken r) ∨ e = .insert r sample := by
  cases Bridge.moves h with
  | inserted reader other known =>
      by_cases hr : r = reader
      · subst hr
        simp only [Function.update_self, List.mem_append, List.mem_singleton] at hmem
        obtain (hold | rfl) | htaken := hmem
        · exact .inl (.inl hold)
        · exact .inr rfl
        · exact .inl (.inr htaken)
      · simp only [Function.update_of_ne hr] at hmem
        exact .inl hmem
  | evicted reader i present =>
      by_cases hr : r = reader
      · subst hr
        simp only [Function.update_self] at hmem
        exact .inl (hmem.imp_left List.mem_of_mem_eraseIdx)
      · simp only [Function.update_of_ne hr] at hmem
        exact .inl hmem
  | took m reader callback efd i other inside here present =>
      by_cases hr : r = reader
      · subst hr
        simp only [takeSample, Function.update_self, List.mem_append, List.mem_singleton] at hmem
        obtain hhistory | htaken | rfl := hmem
        · exact .inl (.inl (List.mem_of_mem_eraseIdx hhistory))
        · exact .inl (.inr htaken)
        · exact .inl (.inl (List.mem_of_getElem? present))
      · simp only [takeSample, Function.update_of_ne hr] at hmem
        exact .inl hmem
  | read handler =>
      obtain ⟨hhistory, -, htaken, -, -⟩ := read_frame s handler
      rw [hhistory, htaken] at hmem
      exact .inl hmem
  | _ => exact .inl hmem

end Nodes

/-- The message of some write on the topic of this reader. -/
def Genuine (s : State ι n τ κ μ) (p : ι) (r : Nat) (post : Post μ) : Prop :=
  ∃ written, s.writes[post.write]? = some written ∧ written.content = post.content ∧
    topicAt (s.node p) r = some written.topic

section Carrying
variable [DecidableEq ι] {s t : State ι n τ κ μ} {typeName : τ → String}

structure Carried (typeName : τ → String) (s : State ι n τ κ μ) : Prop where
  alike : ∀ p, ∃ u, Bridge.Reachable typeName u ∧ Alike (s.node p) u
  flying : ∀ copy ∈ s.flight, ∃ written, s.writes[copy.write]? = some written ∧
    topicAt (s.node copy.process) copy.reader = some written.topic
  genuine : ∀ p r sample, (sample ∈ (s.node p).history r ∨ sample ∈ (s.node p).taken r) →
    sample.validData = true → Genuine s p r sample.content
  once : ∀ p r w, s.flight.count ⟨p, r, w⟩ + held (s.node p) r w ≤ 1

theorem carried_init : Carried typeName (init ι n τ κ μ) where
  alike := fun _ => ⟨_, .refl, rfl⟩
  flying := fun _ h => by cases h
  genuine := by
    rintro p r sample (h | h) _ <;> cases h
  once := fun _ _ _ => Nat.zero_le 1

theorem setNode_node (s : State ι n τ κ μ) (p q : ι) (system : System n τ κ (Post μ)) :
    (s.setNode p system).node q = if q = p then system else s.node q :=
  Function.update_apply _ _ _ _

/-- A step of one process that leaves the topics of its readers alone. -/
theorem Carried.setNode (h : Carried typeName s) {p : ι} {system : System n τ κ (Post μ)}
    (alike : ∃ u, Bridge.Reachable typeName u ∧ Alike system u)
    (topics : ∀ r topic, topicAt (s.node p) r = some topic → topicAt system r = some topic)
    (members : ∀ r sample, (sample ∈ system.history r ∨ sample ∈ system.taken r) →
      sample.validData = true → sample ∈ (s.node p).history r ∨ sample ∈ (s.node p).taken r)
    (fewer : ∀ r w, held system r w ≤ held (s.node p) r w) :
    Carried typeName (s.setNode p system) := by
  have htopics : ∀ q r topic, topicAt (s.node q) r = some topic →
      topicAt ((s.setNode p system).node q) r = some topic := by
    intro q r topic htopic
    rw [setNode_node]
    split
    · next heq =>
        subst heq
        exact topics r topic htopic
    · exact htopic
  refine ⟨?_, ?_, ?_, ?_⟩
  · intro q
    rw [setNode_node]
    split
    · exact alike
    · exact h.alike q
  · intro copy hcopy
    obtain ⟨written, hwritten, htopic⟩ := h.flying copy hcopy
    exact ⟨written, hwritten, htopics _ _ _ htopic⟩
  · intro q r sample hmem hvalid
    have hold : sample ∈ (s.node q).history r ∨ sample ∈ (s.node q).taken r := by
      rw [setNode_node] at hmem
      split at hmem
      · next heq =>
          subst heq
          exact members r sample hmem hvalid
      · exact hmem
    obtain ⟨written, hwritten, hcontent, htopic⟩ := h.genuine q r sample hold hvalid
    exact ⟨written, hwritten, hcontent, htopics _ _ _ htopic⟩
  · intro q r w
    have hheld : held ((s.setNode p system).node q) r w ≤ held (s.node q) r w := by
      rw [setNode_node]
      split
      · next heq =>
          subst heq
          exact fewer r w
      · exact le_rfl
    exact (Nat.add_le_add_left hheld _).trans (h.once q r w)

theorem Carried.node (h : Carried typeName s) {p : ι} {e : Bridge.Event n τ κ (Post μ)}
    (own : ofItself e = true) {system : System n τ κ (Post μ)}
    (move : Bridge.step typeName (s.node p) e = some system) :
    Carried typeName (s.setNode p system) := by
  refine h.setNode ?_ (fun r topic => topicAt_step move) ?_ ?_
  · obtain ⟨u, hu, halike⟩ := h.alike p
    obtain ⟨v, hv, halike'⟩ := halike.step move
    exact ⟨v, hu.step hv, halike'⟩
  · intro r sample hmem hvalid
    obtain hold | rfl := mem_held_step move hmem
    · exact hold
    · simp [ofItself, hvalid] at own
  · intro r w
    have hbrings : brings r w e = 0 := by
      cases e with
      | insert reader sample =>
          have hinvalid : sample.validData = false := by simpa [ofItself] using own
          simp [brings, isPost, hinvalid]
      | _ => rfl
    simpa [hbrings] using held_step move r w

theorem Carried.publish (h : Carried typeName s) {topic : Topic} {content : μ}
    {found : List (ι × Nat)} (distinct : found.Nodup)
    (matching : ∀ target ∈ found, matchesTopic s topic target = true) :
    Carried typeName
      { s with
        writes := s.writes ++ [⟨topic, content⟩]
        flight := s.flight ++ copies s.writes.length found } := by
  have hkept : ∀ {w : Nat} {written : Written μ}, s.writes[w]? = some written →
      (s.writes ++ [⟨topic, content⟩])[w]? = some written := by
    intro w written hwritten
    rw [List.getElem?_append_left (List.getElem?_eq_some_iff.mp hwritten).1]
    exact hwritten
  refine ⟨h.alike, ?_, ?_, ?_⟩
  · intro copy hcopy
    obtain hold | hnew := List.mem_append.mp hcopy
    · obtain ⟨written, hwritten, htopic⟩ := h.flying copy hold
      exact ⟨written, hkept hwritten, htopic⟩
    · obtain ⟨target, htarget, rfl⟩ := List.mem_map.mp hnew
      refine ⟨⟨topic, content⟩, List.getElem?_concat_length, ?_⟩
      have hmatch := matching target htarget
      unfold matchesTopic at hmatch
      split at hmatch
      · next reader hreader =>
          unfold topicAt
          rw [hreader]
          exact congrArg some (of_decide_eq_true hmatch)
      · cases hmatch
  · intro p r sample hmem hvalid
    obtain ⟨written, hwritten, hrest⟩ := h.genuine p r sample hmem hvalid
    exact ⟨written, hkept hwritten, hrest⟩
  · intro p r w
    rw [List.count_append]
    by_cases hw : w = s.writes.length
    · -- of a write that is yet to come nothing is on its way
      subst hw
      have hflight : s.flight.count ⟨p, r, s.writes.length⟩ = 0 := by
        apply List.count_eq_zero.mpr
        intro hcopy
        obtain ⟨written, hwritten, -⟩ := h.flying _ hcopy
        exact Nat.lt_irrefl _ (List.getElem?_eq_some_iff.mp hwritten).1
      have hnone : ∀ sample : Sample (Post μ),
          (sample ∈ (s.node p).history r ∨ sample ∈ (s.node p).taken r) →
            isPost s.writes.length sample ≠ true := by
        intro sample hmem hpost
        obtain ⟨hvalid, hwrite⟩ := Bool.and_eq_true_iff.mp hpost
        obtain ⟨written, hwritten, -⟩ := h.genuine p r sample hmem hvalid
        rw [of_decide_eq_true hwrite] at hwritten
        exact Nat.lt_irrefl _ (List.getElem?_eq_some_iff.mp hwritten).1
      have hheld : held (s.node p) r s.writes.length = 0 := by
        unfold held
        rw [List.countP_eq_zero.mpr fun sample hmem => hnone sample (.inl hmem),
          List.countP_eq_zero.mpr fun sample hmem => hnone sample (.inr hmem)]
      have hinjective : Function.Injective
          fun target : ι × Nat => (⟨target.1, target.2, s.writes.length⟩ : Copy ι) := by
        rintro ⟨p, r⟩ ⟨q, k⟩ heq
        cases heq
        rfl
      have hcopies : (copies s.writes.length found).Nodup := distinct.map hinjective
      have hone := List.nodup_iff_count_le_one.mp hcopies ⟨p, r, s.writes.length⟩
      dsimp only
      omega
    · have hnot : (copies s.writes.length found).count ⟨p, r, w⟩ = 0 := by
        apply List.count_eq_zero.mpr
        intro hcopy
        obtain ⟨target, -, heq⟩ := List.mem_map.mp hcopy
        exact hw (congrArg Copy.write heq).symm
      rw [hnot]
      exact h.once p r w

theorem count_eraseIdx_add {α : Type*} [DecidableEq α] {l : List α} {i : Nat} {a : α}
    (h : l[i]? = some a) (b : α) :
    (l.eraseIdx i).count b + (if a = b then 1 else 0) = l.count b := by
  simpa [List.count, beq_iff_eq] using countP_eraseIdx_add (· == b) h

theorem Carried.arrive (h : Carried typeName s) {k : Nat} {copy : Copy ι}
    (here : s.flight[k]? = some copy) {written : Written μ}
    (accepted : s.writes[copy.write]? = some written) {system : System n τ κ (Post μ)}
    (move : Bridge.step typeName (s.node copy.process)
      (.insert copy.reader ⟨⟨copy.write, written.content⟩, true⟩) = some system) :
    Carried typeName { s.setNode copy.process system with flight := s.flight.eraseIdx k } := by
  have htopics : ∀ q r topic, topicAt (s.node q) r = some topic →
      topicAt ((s.setNode copy.process system).node q) r = some topic := by
    intro q r topic htopic
    rw [setNode_node]
    split
    · next heq =>
        subst heq
        exact topicAt_step move htopic
    · exact htopic
  refine ⟨?_, ?_, ?_, ?_⟩
  · intro q
    change ∃ u, Bridge.Reachable typeName u ∧ Alike ((s.setNode copy.process system).node q) u
    rw [setNode_node]
    split
    · obtain ⟨u, hu, halike⟩ := h.alike copy.process
      obtain ⟨v, hv, halike'⟩ := halike.step move
      exact ⟨v, hu.step hv, halike'⟩
    · exact h.alike q
  · intro other hother
    obtain ⟨written', hwritten, htopic⟩ := h.flying other (List.mem_of_mem_eraseIdx hother)
    exact ⟨written', hwritten, htopics _ _ _ htopic⟩
  · intro q r sample hmem hvalid
    have hgenuine : Genuine s q r sample.content := by
      rw [setNode_node] at hmem
      split at hmem
      · next heq =>
          subst heq
          obtain hold | heq := mem_held_step move hmem
          · exact h.genuine _ _ _ hold hvalid
          · cases heq
            obtain ⟨written', hwritten, htopic⟩ := h.flying copy (List.mem_of_getElem? here)
            rw [accepted] at hwritten
            cases Option.some.inj hwritten
            exact ⟨written, accepted, rfl, htopic⟩
      · exact h.genuine _ _ _ hmem hvalid
    obtain ⟨written', hwritten, hcontent, htopic⟩ := hgenuine
    exact ⟨written', hwritten, hcontent, htopics _ _ _ htopic⟩
  · intro q r w
    have honce := h.once q r w
    have hflight := count_eraseIdx_add here ⟨q, r, w⟩
    change (s.flight.eraseIdx k).count ⟨q, r, w⟩ +
      held ((s.setNode copy.process system).node q) r w ≤ 1
    rw [setNode_node]
    split
    · next heq =>
        subst heq
        have hheld := held_step move r w
        rw [brings_copy] at hheld
        -- the copy that has gone is the sample that has come
        by_cases hcopy : copy.reader = r ∧ copy.write = w
        · obtain ⟨rfl, rfl⟩ := hcopy
          rw [if_pos rfl] at hflight
          rw [if_pos ⟨rfl, rfl⟩] at hheld
          omega
        · rw [if_neg hcopy] at hheld
          omega
    · have hle := (List.eraseIdx_sublist s.flight k).count_le ⟨q, r, w⟩
      omega

theorem Carried.step (h : Carried typeName s) {e : Event ι n τ κ μ}
    (hstep : Domain.step typeName s e = some t) : Carried typeName t := by
  cases moves hstep with
  | node p e own system move => exact h.node own move
  | publisherCreated p o msgType topicName participant writers =>
      refine h.setNode ?_ (fun _ _ htopic => htopic) (fun _ _ hmem _ => hmem) fun _ _ => le_rfl
      obtain ⟨u, hu, halike⟩ := h.alike p
      exact ⟨u, hu, halike⟩
  | published p writer content found topic distinct matching => exact h.publish distinct matching
  | arrived k copy here written accepted system move => exact h.arrive here accepted move
  | lost k here =>
      refine ⟨h.alike, fun copy hcopy => h.flying copy (List.mem_of_mem_eraseIdx hcopy), h.genuine,
        ?_⟩
      intro p r w
      exact (Nat.add_le_add_right ((List.eraseIdx_sublist _ _).count_le _) _).trans (h.once p r w)

theorem carried (h : Reachable typeName s) : Carried typeName s :=
  h.keeps carried_init fun _ _ _ hs hstep => hs.step hstep

/-- What a subscription's callback has got of what was written anywhere. -/
structure Received (s : State ι n τ κ μ) (p : ι) (r : Nat) (callback : κ) (efd : Int) : Prop where
  /-- Each of its calls is for a message that was written on the reader's topic. -/
  written : ∀ task ∈ acceptedFrom (s.node p) efd,
    ∃ post, task = .message callback post ∧ Genuine s p r post
  /-- On its way, unread or handed to the pool, a message is in one place at most. -/
  once : ∀ w, s.flight.count ⟨p, r, w⟩ + ((s.node p).history r).countP (isPost w) +
    (acceptedFrom (s.node p) efd ++ inFlight (s.node p) efd).countP (isCall w) ≤ 1
  called : ∀ w, calls (s.node p) efd w ≤ (acceptedFrom (s.node p) efd).countP (isCall w)

theorem calls_le {u : System n τ κ (Post μ)} (h : Bridge.Reachable typeName u) (efd : Int)
    (w : Nat) : calls u efd w ≤ (acceptedFrom u efd).countP (isCall w) := by
  have hpool := ThreadPool.accounts (pool_reachable h)
  have hlog : u.log.length = u.pool.accepted.length := by
    rw [← (sequenced h).accepted, List.length_map]
  rw [countP_acceptedFrom]
  apply countP_places_le _ hpool.begunNodup
  intro k hk
  have hdequeued : u.pool.dequeued.length ≤ u.pool.accepted.length := by
    rw [← hpool.queue, List.length_append]
    exact Nat.le_add_right _ _
  have := hpool.begunTaken k hk
  omega

theorem Carried.received (h : Carried typeName s) {p : ι} {msgType : τ} {r : Nat} {callback : κ}
    {efd : Int} (known : Known (s.node p) (.subscription msgType (some r) callback efd)) :
    Received s p r callback efd := by
  obtain ⟨u, hu, halike⟩ := h.alike p
  have hpaired := (sequenced hu).paired _ _ _ _ ((halike.known _).mp known)
  rw [← halike.acceptedFrom, ← halike.inFlight, ← halike.taken] at hpaired
  refine ⟨?_, ?_, ?_⟩
  · intro task htask
    have hmem : task ∈ messages callback ((s.node p).taken r) := by
      rw [← hpaired]
      exact List.mem_append_left _ htask
    obtain ⟨sample, hsample, rfl⟩ := List.mem_map.mp hmem
    obtain ⟨htaken, hvalid⟩ := List.mem_filter.mp hsample
    exact ⟨_, rfl, h.genuine p r sample (.inr htaken) hvalid⟩
  · intro w
    rw [hpaired, countP_messages, Nat.add_assoc]
    exact h.once p r w
  · intro w
    have hcalls := calls_le hu efd w
    unfold calls at hcalls ⊢
    rw [halike.pool, halike.log, halike.acceptedFrom]
    exact hcalls

/-- In every run of any number of processes, a callback is only ever called for what was
written on its topic, and at most once for each write. Subscriptions are created while their
own process is not in `run`, publishers at any time. -/
theorem received_at_most_once (h : Reachable typeName s) {p : ι} {msgType : τ} {r : Nat}
    {callback : κ} {efd : Int}
    (known : Known (s.node p) (.subscription msgType (some r) callback efd)) :
    Received s p r callback efd :=
  (carried h).received known

end Carrying

/-- Two processes; of what one publishes, its own copy is lost and the other's is delivered. -/
theorem received_at_most_once_remote : ∃ s : State Bool 1 Unit Nat Nat,
    s.writes.length = 1 ∧ calls (s.node true) 5 0 = 1 ∧ Received s true 0 10 5 := by
  obtain ⟨s, hrun, hwrites, hcalls, hmapped⟩ : ∃ s : State Bool 1 Unit Nat Nat,
      run (step fun _ => "HelloWorld") (init Bool 1 Unit Nat Nat)
        [.createPublisher false ⟨true, true⟩ () "chatter",
          .node true (.subscribe 5 () "chatter" 10), .node true .register,
          .node false (.subscribe 5 () "chatter" 20), .node false .register,
          .publish false 0 7 [(false, 0), (true, 0)], .arrive 1, .lose 0,
          .node true (.onDataAvailable 0), .node true (.loop .run), .node true (.loop .test),
          .node true (.loop .wait), .node true (.loop (.result (.events [5]))),
          .node true (.loop .next), .node true .read, .node true (.take (some 0)),
          .node true .enqueue, .node true (.worker (.lock 0)), .node true (.worker (.test 0)),
          .node true (.worker (.invoke 0 []))] = some s ∧
      s.writes.length = 1 ∧ calls (s.node true) 5 0 = 1 ∧
        (s.node true).node.loop.callbacks 5 = some (.subscription () (some 0) 10 5) :=
    ⟨_, rfl, rfl, rfl, rfl⟩
  exact ⟨s, hwrites, hcalls, received_at_most_once (reachable_of_run hrun) (.inl hmapped)⟩

end TinyMiddleware.Domain
