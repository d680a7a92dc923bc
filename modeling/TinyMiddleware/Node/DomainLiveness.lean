import TinyMiddleware.Node.BridgeSamples
import TinyMiddleware.Node.DomainDelivery

/-! A message that a publisher has written is delivered, unless DDS loses or evicts it.
Seen from one process the others only bring samples in. -/
namespace TinyMiddleware.Domain

open TinyMiddleware.Core TinyMiddleware.Bridge Runs Fairness

variable {ι τ κ μ : Type} {n : Nat} {s t : State ι n τ κ μ} {typeName : τ → String}

/-- Its node is one that by itself could have come about without publishers. -/
def Stands (typeName : τ → String) (p : ι) (s : State ι n τ κ μ)
    (u : System n τ κ (Post μ)) : Prop :=
  Bridge.Reachable typeName u ∧ Alike (s.node p) u

theorem Stands.step {p : ι} {u : System n τ κ (Post μ)} (h : Stands typeName p s u)
    {e : Bridge.Event n τ κ (Post μ)} {system : System n τ κ (Post μ)}
    (serves : e.serving = true) (move : Bridge.step typeName (s.node p) e = some system) :
    ∃ v, only typeName Event.serving u e = some v ∧
      Bridge.Reachable typeName v ∧ Alike system v := by
  obtain ⟨v, hmove, halike⟩ := h.2.step move
  exact ⟨v, restrict_eq_some.mpr ⟨serves, hmove⟩, h.1.step hmove, halike⟩

/-- An event of one process that is of a certain kind. -/
def At (p : ι) (part : Bridge.Event n τ κ (Post μ) → Prop) : Event ι n τ κ μ → Prop
  | .node q e => q = p ∧ part e
  | _ => False

theorem At.imp {p : ι} {part other : Bridge.Event n τ κ (Post μ) → Prop} {e : Event ι n τ κ μ}
    (h : At p part e) (imp : ∀ e, part e → other e) : At p other e := by
  cases e with
  | node q e => exact ⟨h.1, imp e h.2⟩
  | _ => cases h

theorem up_of_alike {a b : System n τ κ μ} (h : Alike a b) (up : Up a) : Up b := by
  have hloop := h.loop
  exact ⟨hloop ▸ up.entered, hloop ▸ up.inRun, hloop ▸ up.running⟩

theorem drained_of_alike {a b : System n τ κ μ} (h : Alike a b) (hd : Drained a) : Drained b where
  signals := h.signals ▸ hd.signals
  history := h.history ▸ hd.history
  silent := h.kernel ▸ hd.silent
  idle := h.current ▸ hd.idle

variable [DecidableEq ι]

/-- No `epoll_wait` of this process fails. -/
def serving (p : ι) : Event ι n τ κ μ → Bool
  | .node q e => !decide (q = p) || e.serving
  | _ => true

abbrev onlyServing (typeName : τ → String) (p : ι) :
    State ι n τ κ μ → Event ι n τ κ μ → Option (State ι n τ κ μ) :=
  restrict (step typeName) fun _ e => serving p e = true

/-- What one process sees of a step. -/
def seen (p : ι) (s : State ι n τ κ μ) : Event ι n τ κ μ → Option (Bridge.Event n τ κ (Post μ))
  | .node q e => if q = p then some e else none
  | .arrive k =>
      (s.flight[k]?).bind fun copy =>
        if copy.process = p then
          (s.writes[copy.write]?).map fun written =>
            .insert copy.reader ⟨⟨copy.write, written.content⟩, true⟩
        else none
  | _ => none

theorem seen_matched {p : ι} (s : State ι n τ κ μ) (e : Event ι n τ κ μ) (t : State ι n τ κ μ)
    (u : System n τ κ (Post μ)) (h : Stands typeName p s u)
    (hstep : onlyServing typeName p s e = some t) :
    ∃ v, Follows (only typeName Event.serving) u v (seen p s e) ∧ Stands typeName p t v := by
  obtain ⟨hserving, hstep⟩ := restrict_eq_some.mp hstep
  cases moves hstep with
  | node q e own system move =>
      by_cases hq : q = p
      · subst hq
        have hserves : e.serving = true := by simpa [serving] using hserving
        obtain ⟨v, hmove, hreach, halike⟩ := h.step hserves move
        refine ⟨v, by simpa [seen, Follows] using hmove, hreach, ?_⟩
        rwa [setNode_node, if_pos rfl]
      · refine ⟨u, by simp [seen, Follows, hq], h.1, ?_⟩
        rw [setNode_node, if_neg fun heq => hq heq.symm]
        exact h.2
  | publisherCreated q o msgType topicName participant writers =>
      refine ⟨u, rfl, h.1, ?_⟩
      rw [setNode_node]
      split
      · next heq =>
          subst heq
          exact h.2
      · exact h.2
  | published | lost => exact ⟨u, rfl, h⟩
  | arrived k copy here written accepted system move =>
      by_cases hp : copy.process = p
      · subst hp
        obtain ⟨v, hmove, hreach, halike⟩ := h.step rfl move
        refine ⟨v, by simpa [seen, Follows, here, accepted] using hmove, hreach, ?_⟩
        change Alike ((s.setNode copy.process system).node copy.process) v
        rwa [setNode_node, if_pos rfl]
      · refine ⟨u, by simp [seen, Follows, here, hp], h.1, ?_⟩
        change Alike ((s.setNode copy.process system).node p) u
        rw [setNode_node, if_neg fun heq => hp heq.symm]
        exact h.2

theorem node_enabled {p : ι} {u : System n τ κ (Post μ)} (h : Stands typeName p s u)
    {part : Bridge.Event n τ κ (Post μ) → Prop} (own : ∀ e, part e → ofItself e = true)
    (enabled : Enabled (only typeName Event.serving) part u) :
    Enabled (onlyServing typeName p) (At p part) s := by
  obtain ⟨e, v, hpart, hstep⟩ := enabled
  obtain ⟨hserving, hstep⟩ := restrict_eq_some.mp hstep
  obtain ⟨system, hmove, -⟩ := h.2.symm.step hstep
  refine ⟨.node p e, s.setNode p system, ⟨rfl, hpart⟩, restrict_eq_some.mpr ⟨?_, ?_⟩⟩
  · simp [serving, hserving]
  · simp only [step, own e hpart, if_true, hmove, Option.map_some]

/-- What is asked for one process: its threads get their turns, as in `FairlyServed`, and
no copy for it is on its way for ever. Nothing is asked of the other processes. -/
structure FairlyCarried (p : ι)
    (x : Execution (onlyServing (n := n) (κ := κ) (μ := μ) typeName p)) : Prop where
  loop : x.StronglyFair (At p fun e => e.thread = some .loop)
  workers : ∀ w, x.StronglyFair (At p fun e => e.thread = some (.worker w))
  listeners : ∀ r, x.StronglyFair (At p fun e => e = .onDataAvailable r)
  reported : ∀ fd, x.StronglyFair (At p (Reports fd))
  settled : ∀ r w, x.LeadsTo (fun s => ⟨p, r, w⟩ ∈ s.flight) fun s => ⟨p, r, w⟩ ∉ s.flight

/-- No handler of this process is fed for ever. -/
def BoundedAt (p : ι) (x : Execution (onlyServing (n := n) (κ := κ) (μ := μ) typeName p)) : Prop :=
  ∀ k handler, (∀ j, k ≤ j → current ((x.state j).node p).node = some handler) →
    ∃ i, k ≤ i ∧ ∀ j e, i ≤ j → (x.event j).bind (seen p (x.state j)) = some e →
      feeds handler e = false

theorem ofItself_of_thread {e : Bridge.Event n τ κ (Post μ)} {thread : Thread n}
    (h : e.thread = some thread) : ofItself e = true := by
  cases e with
  | insert => cases h
  | _ => rfl

theorem ofItself_of_reports {e : Bridge.Event n τ κ (Post μ)} {fd : Int} (h : Reports fd e) :
    ofItself e = true := by
  cases e with
  | insert => cases h
  | _ => rfl

theorem seen_at {p : ι} {part : Bridge.Event n τ κ (Post μ) → Prop} (s : State ι n τ κ μ)
    (e : Event ι n τ κ μ) (h : At p part e) : ∃ d, seen p s e = some d ∧ part d := by
  cases e with
  | node q e =>
      obtain ⟨rfl, hpart⟩ := h
      exact ⟨e, by simp [seen], hpart⟩
  | _ => cases h

section Process
variable {p : ι} {x : Execution (onlyServing (n := n) (κ := κ) (μ := μ) typeName p)}

/-- The process by itself, with what arrives from the others as its samples. -/
theorem process_execution (start : Reachable typeName (x.state 0)) :
    ∃ y : Execution (only typeName Event.serving),
      (∀ k, Stands typeName p (x.state k) (y.state k)) ∧
        ∀ k, y.event k = (x.event k).bind (seen p (x.state k)) := by
  obtain ⟨u, hu, halike⟩ := (carried start).alike p
  exact x.follow (Stands typeName p) (seen p) seen_matched ⟨hu, halike⟩

variable {y : Execution (only (n := n) (κ := κ) (μ := Post μ) typeName Event.serving)}
  (stands : ∀ k, Stands typeName p (x.state k) (y.state k))
  (events : ∀ k, y.event k = (x.event k).bind (seen p (x.state k)))
include stands events

theorem fairlyServed (fair : FairlyCarried p x) : FairlyServed y where
  loop := fair.loop.followed events
    (fun k => node_enabled (stands k) fun _ => ofItself_of_thread) seen_at
  workers := fun w => (fair.workers w).followed events
    (fun k => node_enabled (stands k) fun _ => ofItself_of_thread) seen_at
  listeners := fun r => (fair.listeners r).followed events
    (fun k => node_enabled (stands k) fun _ h => h ▸ rfl) seen_at
  reported := fun fd => (fair.reported fd).followed events
    (fun k => node_enabled (stands k) fun _ => ofItself_of_reports) seen_at

theorem bounded_process (bounded : BoundedAt p x) : Bounded y := by
  intro k handler hforever
  obtain ⟨i, hki, hquiet⟩ := bounded k handler fun j hkj => by
    rw [(stands j).2.current]
    exact hforever j hkj
  refine ⟨i, hki, fun j e hij hevent => hquiet j e hij ?_⟩
  rw [← events]
  exact hevent

end Process

theorem writes_kept {e : Event ι n τ κ μ} {w : Nat} {written : Written μ}
    (accepted : s.writes[w]? = some written) (hstep : step typeName s e = some t) :
    t.writes[w]? = some written := by
  cases moves hstep with
  | published =>
      rw [List.getElem?_append_left (List.getElem?_eq_some_iff.mp accepted).1]
      exact accepted
  | _ => exact accepted

/-- The write puts a copy on its way to each reader that the writer has found. -/
theorem published_flies {q : ι} {writer : Nat} {content : μ} {found : List (ι × Nat)}
    (hstep : step typeName s (.publish q writer content found) = some t) :
    (∃ topic, t.writes[s.writes.length]? = some ⟨topic, content⟩) ∧
      ∀ p r, (p, r) ∈ found → ⟨p, r, s.writes.length⟩ ∈ t.flight := by
  cases moves hstep with
  | published _ _ _ _ topic =>
      refine ⟨⟨topic, List.getElem?_concat_length⟩, fun p r htarget => ?_⟩
      exact List.mem_append_right _ (List.mem_map.mpr ⟨(p, r), htarget, rfl⟩)

/-- A copy that has gone was lost, or is now the last sample of its reader. -/
theorem flight_ends {e : Event ι n τ κ μ} {copy : Copy ι} (flying : copy ∈ s.flight)
    (gone : copy ∉ t.flight) (hstep : step typeName s e = some t) :
    (∃ m, e = .lose m ∧ s.flight[m]? = some copy) ∨
      ∃ written, s.writes[copy.write]? = some written ∧
        ⟨⟨copy.write, written.content⟩, true⟩ ∈ (t.node copy.process).history copy.reader := by
  obtain ⟨i, hi⟩ := List.mem_iff_getElem?.mp flying
  have hplace : ∀ k, copy ∉ s.flight.eraseIdx k → k = i := by
    intro k hgone
    by_contra hne
    exact hgone (List.mem_eraseIdx_iff_getElem?.mpr ⟨i, fun h => hne h.symm, hi⟩)
  cases moves hstep with
  | node | publisherCreated => exact absurd flying gone
  | published => exact absurd (List.mem_append_left _ flying) gone
  | lost k here =>
      obtain rfl := hplace k gone
      exact .inl ⟨k, rfl, hi⟩
  | arrived k other here written accepted system move =>
      obtain rfl := hplace k gone
      cases Option.some.inj (here.symm.trans hi)
      refine .inr ⟨written, accepted, ?_⟩
      change _ ∈ ((s.setNode copy.process system).node copy.process).history copy.reader
      rw [setNode_node, if_pos rfl]
      cases Bridge.moves move with
      | inserted => simp

theorem seen_evict {p : ι} {e : Event ι n τ κ μ} {r i : Nat}
    (h : seen p s e = some (.evict r i)) : e = .node p (.evict r i) := by
  cases e with
  | node q e =>
      obtain ⟨rfl, hevent⟩ := Option.ite_none_right_eq_some.mp h
      exact congrArg _ (Option.some.inj hevent)
  | arrive k =>
      obtain ⟨copy, -, h⟩ := Option.bind_eq_some_iff.mp h
      obtain ⟨-, h⟩ := Option.ite_none_right_eq_some.mp h
      obtain ⟨written, -, heq⟩ := Option.map_eq_some_iff.mp h
      cases heq
  | _ => cases h

/-- The callback behind a reader has been called for this message, once, and that call
has returned. -/
def CalledOnce (s : System n τ κ (Post μ)) (r : Nat) (post : Post μ) : Prop :=
  ∃ msgType callback efd, Known s (.subscription msgType (some r) callback efd) ∧
    calls s efd post.write = 1 ∧ ∃ i : Nat, s.log[i]? = some (efd, .message callback post) ∧
      s.pool.begun.count i = 1 ∧ s.pool.returned.count i = 1

/-- What has returned was the one call. -/
theorem calledOnce_of_returned (h : Carried typeName s) {p : ι} {msgType : τ} {r i : Nat}
    {callback : κ} {efd : Int} {post : Post μ}
    (known : Known (s.node p) (.subscription msgType (some r) callback efd))
    (logged : (s.node p).log[i]? = some (efd, .message callback post))
    (done : i ∈ (s.node p).pool.returned) : CalledOnce (s.node p) r post := by
  obtain ⟨u, hu, halike⟩ := h.alike p
  have hran : (s.node p).pool.begun.count i = 1 ∧ (s.node p).pool.returned.count i = 1 := by
    rw [halike.pool] at done ⊢
    exact ran_once hu done
  refine ⟨msgType, callback, efd, known, ?_, i, logged, hran⟩
  have hreceived := h.received known
  have hmost : calls (s.node p) efd post.write ≤ 1 := by
    have honce := hreceived.once post.write
    have hcalled := hreceived.called post.write
    rw [List.countP_append] at honce
    omega
  have hleast : 0 < calls (s.node p) efd post.write := by
    refine List.countP_pos_iff.mpr ⟨i, List.count_pos_iff.mp (hran.1 ▸ Nat.one_pos), ?_⟩
    simp [logged, isCall]
  omega

section Delivery
variable {p : ι} {x : Execution (onlyServing (n := n) (κ := κ) (μ := μ) typeName p)}

theorem carried_later (start : Reachable typeName (x.state 0)) (k : Nat) :
    Carried typeName (x.state k) :=
  x.keeps (I := Carried typeName) (fun _ _ _ hs hstep => hs.step (restrict_eq_some.mp hstep).2)
    (carried start) (Nat.zero_le k)

/-- A message that has come to its reader is evicted from it, or its callback is called. -/
theorem arrived_called (positive : 0 < n) (start : Reachable typeName (x.state 0))
    (fair : FairlyCarried p x) (bounded : BoundedAt p x) {k : Nat} (up : Up ((x.state k).node p))
    {r : Nat} {post : Post μ} {a : Nat} (hka : k ≤ a)
    (unread : ⟨post, true⟩ ∈ ((x.state a).node p).history r) :
    (∃ j i, a ≤ j ∧ x.event j = some (.node p (.evict r i)) ∧
      (((x.state j).node p).history r)[i]? = some ⟨post, true⟩) ∨
    ∃ j, a ≤ j ∧ ∀ i, j ≤ i → CalledOnce ((x.state i).node p) r post := by
  obtain ⟨y, hstands, hevents⟩ := process_execution start
  have hfair := fairlyServed hstands hevents fair
  have hbounded := bounded_process hstands hevents bounded
  have halive : ∀ j, k ≤ j → Bridge.Reachable typeName (y.state j) ∧ Up (y.state j) :=
    fun j hkj => y.keeps alive_step ⟨(hstands k).1, up_of_alike (hstands k).2 up⟩ hkj
  rw [or_iff_not_imp_left]
  intro hkept
  have hunread : ⟨post, true⟩ ∈ (y.state a).history r := by
    rw [← (hstands a).2.history]
    exact unread
  obtain ⟨msgType, callback, efd, hknown, j, i, haj, hlogged, hreturned⟩ :=
    sample_called positive hfair hbounded (halive a hka) hunread (by
      intro j i haj hevent hplace
      rw [hevents] at hevent
      obtain ⟨e, he, hseen⟩ := Option.bind_eq_some_iff.mp hevent
      rw [← (hstands j).2.history] at hplace
      exact hkept ⟨j, i, haj, (seen_evict hseen) ▸ he, hplace⟩)
  refine ⟨j, haj, fun b hjb => ?_⟩
  have hkept' : (y.state b).log[i]? = some (efd, .message callback post) ∧
      i ∈ (y.state b).pool.returned :=
    y.keeps (I := fun s => s.log[i]? = some (efd, .message callback post) ∧
        i ∈ s.pool.returned)
      (fun _ _ _ hs hstep => ⟨log_kept hs.1 (restrict_eq_some.mp hstep).2,
        returned_kept hs.2 hstep⟩) ⟨hlogged, hreturned⟩ hjb
  have halike := (hstands b).2
  have hknown' := known_later (haj.trans hjb) (halive a hka) hknown
  refine calledOnce_of_returned (i := i) (carried_later start b) ((halike.known _).mpr hknown')
    ?_ ?_
  · rw [halike.log]
    exact hkept'.1
  · rw [halike.pool]
    exact hkept'.2

/-- Whatever the other processes do, a message reaches the callback of each reader that
its writer has found, once, unless DDS loses it on the way or evicts it there. -/
theorem published_is_called (positive : 0 < n) (start : Reachable typeName (x.state 0))
    (fair : FairlyCarried p x) (bounded : BoundedAt p x) {k : Nat} {q : ι} {writer r : Nat}
    {content : μ} {found : List (ι × Nat)}
    (published : x.event k = some (.publish q writer content found)) (target : (p, r) ∈ found)
    (up : Up ((x.state k).node p)) :
    (∃ j m, k < j ∧ x.event j = some (.lose m) ∧
      (x.state j).flight[m]? = some ⟨p, r, (x.state k).writes.length⟩) ∨
    (∃ j i, k < j ∧ x.event j = some (.node p (.evict r i)) ∧
      (((x.state j).node p).history r)[i]? =
        some ⟨⟨(x.state k).writes.length, content⟩, true⟩) ∨
    ∃ j, k < j ∧ ∀ i, j ≤ i →
      CalledOnce ((x.state i).node p) r ⟨(x.state k).writes.length, content⟩ := by
  have hnext := x.next k
  rw [published] at hnext
  obtain ⟨⟨topic, hwritten⟩, hflies⟩ := published_flies (restrict_eq_some.mp hnext).2
  obtain ⟨b, hkb, hgone⟩ := fair.settled r _ (k + 1) (hflies p r target)
  obtain ⟨i, e, hki, hflying, hleft, hevent, hstep⟩ :=
    x.ends (I := fun s => ⟨p, r, (x.state k).writes.length⟩ ∈ s.flight) hkb (hflies p r target)
      hgone
  obtain ⟨m, rfl, hm⟩ | ⟨written, haccepted, hunread⟩ :=
    flight_ends hflying hleft (restrict_eq_some.mp hstep).2
  · exact .inl ⟨i, m, hki, hevent, hm⟩
  · have hcontent : (x.state i).writes[(x.state k).writes.length]? = some ⟨topic, content⟩ :=
      x.keeps (I := fun s => s.writes[(x.state k).writes.length]? = some ⟨topic, content⟩)
        (fun _ _ _ hs hstep => writes_kept hs (restrict_eq_some.mp hstep).2) hwritten hki
    cases Option.some.inj (haccepted.symm.trans hcontent)
    have hka : k < i + 1 := Nat.lt_succ_of_le (Nat.le_of_lt hki)
    obtain ⟨j, c, haj, hevicted, hplace⟩ | ⟨j, haj, hcalled⟩ :=
      arrived_called positive start fair bounded up (Nat.le_of_lt hka) hunread
    · exact .inr (.inl ⟨j, c, hka.trans_le haj, hevicted, hplace⟩)
    · exact .inr (.inr ⟨j, hka.trans_le haj, hcalled⟩)

end Delivery

theorem not_at_of_drained {p : ι} {u : System n τ κ (Post μ)} (h : Stands typeName p s u)
    (hd : Drained u) (waits : u.node.loop.pc = .waiting)
    (asleep : ∀ w, u.pool.workers w = .blocked) (thread : Thread n) :
    ¬ Enabled (onlyServing typeName p) (At p fun e => e.thread = some thread) s := by
  rintro ⟨e, t, hat, hstep⟩
  obtain ⟨-, hstep⟩ := restrict_eq_some.mp hstep
  cases moves hstep with
  | node q e own system move =>
      obtain ⟨rfl, hthread⟩ := hat
      obtain ⟨v, hmove, -⟩ := h.2.step move
      exact not_enabled_of_drained h.1 hd waits asleep thread
        ⟨e, v, hthread, quietStep_eq_some.mpr ⟨quiet_of_thread hthread, hmove⟩⟩
  | _ => cases hat

theorem thread_of_reports {e : Bridge.Event n τ κ (Post μ)} {fd : Int} (h : Reports fd e) :
    e.thread = some .loop := by
  cases e with
  | loop l =>
      cases l with
      | result r =>
          cases r with
          | events => rfl
          | interrupted | failed => cases h
      | _ => cases h
  | _ => cases h

theorem fairlyCarried_of_drained {p : ι} {u : State ι n τ κ μ} {events : List (Event ι n τ κ μ)}
    (hrun : run (onlyServing typeName p) s events = some u) (h : Reachable typeName u)
    (hd : Drained (u.node p)) (waits : (u.node p).node.loop.pc = .waiting)
    (asleep : ∀ w, (u.node p).pool.workers w = .blocked)
    (settled : ∀ r w, ⟨p, r, w⟩ ∉ u.flight) : FairlyCarried p (Execution.ofRun hrun) := by
  obtain ⟨v, hreach, halike⟩ := (carried h).alike p
  have hthread := not_at_of_drained (s := u) ⟨hreach, halike⟩
    (drained_of_alike halike hd) (halike.loop ▸ waits) (halike.pool ▸ asleep)
  refine ⟨Execution.ofRun_stronglyFair hrun (hthread .loop),
    fun w => Execution.ofRun_stronglyFair hrun (hthread (.worker w)),
    fun r => Execution.ofRun_stronglyFair hrun ?_, fun fd => Execution.ofRun_stronglyFair hrun ?_,
    ?_⟩
  · rintro ⟨e, t, hat, hstep⟩
    exact hthread .dds ⟨e, t, hat.imp fun _ heq => heq ▸ rfl, hstep⟩
  · rintro ⟨e, t, hat, hstep⟩
    exact hthread .loop ⟨e, t, hat.imp fun _ => thread_of_reports, hstep⟩
  · intro r w k _
    refine ⟨max k events.length, le_max_left k _, ?_⟩
    rw [Execution.ofRun_end hrun (le_max_right k _)]
    exact settled r w

/-- One process writes, another gets the message; a second copy is still on its way to a
process that does nothing. -/
theorem published_is_called_remote :
    ∃ x : Execution (onlyServing (ι := Bool) (n := 1) (τ := Unit) (κ := Nat) (μ := Nat)
        (fun _ => "HelloWorld") true), ∃ j,
      CalledOnce ((x.state j).node true) 0 ⟨0, 7⟩ := by
  obtain ⟨s, u, hbefore, hrun, hup, hdrained, hwaits, hasleep, hflight, hnone⟩ :
      ∃ s u : State Bool 1 Unit Nat Nat,
        run (step fun _ => "HelloWorld") (init Bool 1 Unit Nat Nat)
          [.createPublisher false ⟨true, true⟩ () "chatter",
            .node true (.subscribe 5 () "chatter" 10), .node true .register,
            .node false (.subscribe 5 () "chatter" 20), .node false .register,
            .node true (.loop .run)] = some s ∧
        run (onlyServing (fun _ => "HelloWorld") true) s
          [.publish false 0 7 [(false, 0), (true, 0)], .node true (.loop .test), .arrive 1,
            .node true (.loop .wait), .node true (.onDataAvailable 0),
            .node true (.loop (.result (.events [5]))), .node true (.loop .next),
            .node true .read, .node true (.take (some 0)), .node true .enqueue,
            .node true (.notify none), .node true (.take none), .node true (.loop .ret),
            .node true (.loop .next), .node true (.loop .test), .node true (.loop .wait),
            .node true (.worker (.lock 0)), .node true (.worker (.test 0)),
            .node true (.worker (.invoke 0 [])), .node true (.worker (.finish 0)),
            .node true (.worker (.lock 0)), .node true (.worker (.test 0)),
            .node true (.worker (.block 0))] = some u ∧
        Up (s.node true) ∧ Drained (u.node true) ∧ (u.node true).node.loop.pc = .waiting ∧
        (∀ w, (u.node true).pool.workers w = .blocked) ∧ u.flight = [⟨false, 0, 0⟩] ∧
        s.writes.length = 0 := by
    refine ⟨_, _, rfl, rfl, ⟨?_, ?_, rfl⟩, ⟨?_, ?_, ?_, rfl⟩, rfl, Fin.forall_fin_one.mpr rfl, rfl,
      rfl⟩
    · intro hpc
      cases hpc
    · intro hpc
      cases hpc
    · intro r
      cases r <;> rfl
    · intro r
      cases r <;> rfl
    · intro fd
      rw [Bool.eq_false_iff, Ne, Kernel.readable_iff]
      rintro ⟨hmem, hpos⟩
      obtain rfl | hmem := Finset.mem_insert.mp hmem
      · exact absurd hpos (Nat.lt_irrefl 0)
      · cases hmem
  have hend : Reachable (fun _ => "HelloWorld") u :=
    (reachable_of_run hrun).keeps (reachable_of_run hbefore)
      fun _ _ _ hs hstep => hs.step (restrict_eq_some.mp hstep).2
  have hstart := Execution.ofRun_start hrun
  have hfate := published_is_called Nat.one_pos (x := Execution.ofRun hrun) (p := true) (k := 0)
    (q := false) (r := 0)
    (by
      rw [hstart]
      exact reachable_of_run hbefore)
    (fairlyCarried_of_drained hrun hend hdrained hwaits hasleep (by simp [hflight]))
    (by
      -- at the end no handler runs
      intro k handler hforever
      have hlast := hforever (max k 23) (le_max_left k 23)
      rw [Execution.ofRun_end hrun (le_max_right k 23), hdrained.idle] at hlast
      cases hlast)
    rfl (List.mem_cons_of_mem _ List.mem_cons_self)
    (by
      rw [hstart]
      exact hup)
  obtain ⟨j, m, -, hlost, -⟩ | ⟨j, i, -, hevicted, -⟩ | ⟨j, -, hcalled⟩ := hfate
  · exact absurd (List.mem_of_getElem? hlost) (by simp)
  · exact absurd (List.mem_of_getElem? hevicted) (by simp)
  · refine ⟨Execution.ofRun hrun, j, ?_⟩
    have hwrites : ((Execution.ofRun hrun).state 0).writes.length = 0 := by
      rw [hstart]
      exact hnone
    rw [hwrites] at hcalled
    exact hcalled j le_rfl

end TinyMiddleware.Domain
