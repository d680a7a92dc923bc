import TinyMiddleware.Core.ThreadPoolControl
import TinyMiddleware.Node.BridgeTicks

/-! Where the loop's thread is in its batch and in its handler. What `epoll_wait` has
reported stays readable until its own handler reads it, so no handler runs for nothing;
and the place in the handler says what the pool is owed. -/
namespace TinyMiddleware.Bridge

open TinyMiddleware.Core Runs

variable {n : Nat} {τ κ μ : Type} {s t : System n τ κ μ}

/-- What is still in front of the loop in its batch, the handler it is in included. -/
def ahead (s : System n τ κ μ) : List Int :=
  match s.node.loop.pc with
  | .batch rest => rest
  | .callback handler rest => handler.fd :: rest
  | _ => []

/-- Nobody but the loop clears a counter, so what `epoll_wait` reported stays readable
until its handler has read it. -/
structure Due (s : System n τ κ μ) : Prop where
  mapped : ∀ fd ∈ s.node.kernel.interest, ∃ handler, s.node.loop.callbacks fd = some handler
  distinct : (ahead s).Nodup
  due : ∀ fd ∈ ahead s, s.node.kernel.readable fd = true ∨
    s.handlerPc ≠ .entry ∧ (current s.node).map Handler.fd = some fd

/-- Where the handler can be, and what its place means for the pool. -/
structure Placed (s : System n τ κ μ) : Prop where
  drains : s.handlerPc = .draining → ∀ handler, current s.node = some handler →
    ∃ msgType reader callback efd, handler = .subscription msgType reader callback efd
  owes : s.pool.owed = match s.handlerPc with
    | .notifying => 1
    | _ => 0
  outside : current s.node = none → s.handlerPc = .done ∨ s.handlerPc = .entry
  signals : ∀ r, s.node.readers.length ≤ r → s.signals r = 0

theorem ahead_of_outside (h : s.node.loop.pc = .outside) : ahead s = [] := by
  unfold ahead
  rw [h]

theorem current_of_outside (h : s.node.loop.pc = .outside) : current s.node = none := by
  unfold current
  rw [h]

theorem SameWiring.ahead (h : SameWiring s t) : ahead t = ahead s := by
  unfold Bridge.ahead
  rw [h.loop]

/-- What was reported is registered, and what is registered is in the map. -/
theorem Due.found (h : Due s) {fd : Int} {rest : List Int}
    (here : s.node.loop.pc = .batch (fd :: rest)) :
    ∃ handler, s.node.loop.callbacks fd = some handler := by
  have hidle : current s.node = none := by
    unfold current
    rw [here]
  have hfd : fd ∈ ahead s := by
    unfold ahead
    rw [here]
    exact List.mem_cons_self
  obtain hreadable | ⟨-, hcurrent⟩ := h.due fd hfd
  · exact h.mapped fd ((Kernel.readable_iff _ _).mp hreadable).1
  · rw [hidle] at hcurrent
    cases hcurrent

theorem due_init : Due (init n τ κ μ) where
  mapped := by simp [init, Node.init, Kernel.empty]
  distinct := List.nodup_nil
  due := by simp [ahead, init, Node.init, EventLoop.init]

/-- Steps that clear no counter and do not go back to the entry. -/
theorem Due.frame (h : Due s) (same : SameWiring s t)
    (counter : ∀ fd, 0 < s.node.kernel.counter fd → 0 < t.node.kernel.counter fd)
    (entry : t.handlerPc = .entry → s.handlerPc = .entry) : Due t where
  mapped := by
    rw [same.interest, same.loop]
    exact h.mapped
  distinct := by
    rw [same.ahead]
    exact h.distinct
  due := by
    intro fd hfd
    rw [same.ahead] at hfd
    rw [same.current, Kernel.readable_iff, same.interest]
    obtain hreadable | ⟨hplace, hcurrent⟩ := h.due fd hfd
    · rw [Kernel.readable_iff] at hreadable
      exact Or.inl ⟨hreadable.1, counter fd hreadable.2⟩
    · exact Or.inr ⟨fun hentry => hplace (entry hentry), hcurrent⟩

/-- Where the `read` at the start of a handler leads. -/
theorem handlerPc_read (s : System n τ κ μ) (handler : Handler τ κ) :
    (∃ msgType reader callback efd, handler = .subscription msgType reader callback efd ∧
      (read s handler).handlerPc = .draining) ∨
      (∃ task, (read s handler).handlerPc = .enqueueing task) ∨
        (read s handler).handlerPc = .done := by
  cases handler with
  | subscription msgType reader callback efd => exact Or.inl ⟨_, _, _, _, rfl, rfl⟩
  | timer callback tfd =>
      right
      unfold read
      dsimp only
      split
      · exact Or.inl ⟨_, rfl⟩
      · exact Or.inr rfl

theorem Due.read (h : Due s) {handler : Handler τ κ} (inside : current s.node = some handler) :
    Due (read s handler) where
  mapped := by
    rw [(sameWiring_read handler).interest, (sameWiring_read handler).loop]
    exact h.mapped
  distinct := by
    rw [(sameWiring_read handler).ahead]
    exact h.distinct
  due := by
    intro fd hfd
    rw [(sameWiring_read handler).ahead] at hfd
    rw [(sameWiring_read handler).current, inside]
    by_cases hown : handler.fd = fd
    · refine Or.inr ⟨?_, by rw [← hown]; rfl⟩
      obtain ⟨_, _, _, _, -, hpc⟩ | ⟨_, hpc⟩ | hpc := handlerPc_read s handler <;> simp [hpc]
    · rw [Kernel.readable_iff, (sameWiring_read handler).interest, counter_read s handler hown,
        ← Kernel.readable_iff]
      obtain hreadable | ⟨-, hcurrent⟩ := h.due fd hfd
      · exact Or.inl hreadable
      · rw [inside] at hcurrent
        exact absurd (Option.some.inj hcurrent) hown

theorem Due.looped (h : Due s) (hw : Wiring s) {e : EventLoop.Event}
    {loop : EventLoop (Handler τ κ)} (may : loopMay s e = true)
    (move : EventLoop.Moves s.node.loop e loop) :
    Due { s with node := withLoop s.node loop, handlerPc := entering s.handlerPc e } := by
  have hcallbacks := EventLoop.callbacks_step move
  have hmapped : ∀ fd ∈ s.node.kernel.interest, ∃ handler, loop.callbacks fd = some handler := by
    rw [hcallbacks]
    exact h.mapped
  have readable_of_idle : current s.node = none → ∀ fd ∈ ahead s,
      s.node.kernel.readable fd = true := by
    intro hidle fd hfd
    obtain hreadable | ⟨-, hcurrent⟩ := h.due fd hfd
    · exact hreadable
    · rw [hidle] at hcurrent
      cases hcurrent
  refine ⟨hmapped, ?_, ?_⟩
  · cases move with
    | woken r here =>
        cases r with
        | events fds => exact ((Kernel.mayReport_iff _ _).mp may).2.1
        | interrupted | failed => exact List.nodup_nil
    | called fd rest cb here found =>
        have hdistinct := h.distinct
        unfold ahead at hdistinct ⊢
        rw [here] at hdistinct
        rw [← (hw.own fd cb found).1] at hdistinct
        exact hdistinct
    | skipped fd rest here =>
        have hdistinct := h.distinct
        unfold ahead at hdistinct
        rw [here] at hdistinct
        exact (List.nodup_cons.mp hdistinct).2
    | returned cb rest here =>
        have hdistinct := h.distinct
        unfold ahead at hdistinct
        rw [here] at hdistinct
        exact (List.nodup_cons.mp hdistinct).2
    | entered | looped | ended | waits | batchDone => exact List.nodup_nil
  · intro fd hfd
    left
    change s.node.kernel.readable fd = true
    cases move with
    | woken r here =>
        cases r with
        | events fds => exact ((Kernel.mayReport_iff _ _).mp may).2.2.2 fd hfd
        | interrupted | failed => cases hfd
    | called fd' rest cb here found =>
        apply readable_of_idle
        · unfold current
          rw [here]
        · unfold ahead
          rw [here]
          rw [← (hw.own fd' cb found).1]
          exact hfd
    | skipped fd' rest here =>
        apply readable_of_idle
        · unfold current
          rw [here]
        · unfold ahead
          rw [here]
          exact List.mem_cons_of_mem _ hfd
    | returned cb rest here =>
        -- what comes after the handler that returns is not that handler's own descriptor
        have hdistinct := h.distinct
        have hdue := h.due fd
        unfold ahead current at hdue
        unfold ahead at hdistinct
        rw [here] at hdue hdistinct
        obtain hreadable | ⟨-, hcurrent⟩ := hdue (List.mem_cons_of_mem _ hfd)
        · exact hreadable
        · cases Option.some.inj hcurrent
          exact absurd hfd (List.nodup_cons.mp hdistinct).1
    | entered | looped | ended | waits | batchDone => cases hfd

theorem Due.registered (h : Due s) (hw : Wiring s) {handler : Handler τ κ}
    (waits : s.pending = some handler) :
    Due { s with node := registered s.node handler, pending := none } := by
  obtain ⟨houtside, -, hopen, hnot⟩ := hw.waiting handler waits
  have hadded : (s.node.kernel.epollAdd handler.fd true).2 = true :=
    Kernel.epollAdd_eq_true.mpr ⟨rfl, hopen, hnot⟩
  have hpc : (Bridge.registered s.node handler).loop.pc = .outside := by
    rw [loop_registered]
    exact houtside
  have hahead := ahead_of_outside (s := { s with
    node := Bridge.registered s.node handler, pending := none }) hpc
  refine ⟨?_, ?_, ?_⟩
  · intro fd hfd
    simp only [kernel_registered, Kernel.interest_epollAdd hadded, Finset.mem_insert] at hfd
    simp only [loop_registered, Function.update_apply]
    split
    · exact ⟨handler, rfl⟩
    · next hne => exact h.mapped fd (hfd.resolve_left hne)
  · rw [hahead]
    exact List.nodup_nil
  · rw [hahead]
    simp

theorem Due.step {typeName : τ → String} (h : Due s) (hw : Wiring s) {e : Event n τ κ μ}
    (hstep : step typeName s e = some t) : Due t := by
  cases moves hstep with
  | subscribed fd msgType topicName callback kernel participant topic outside free opens =>
      have hahead := ahead_of_outside
        (s := withReader s kernel participant topic fd msgType callback) outside
      refine ⟨?_, ?_, ?_⟩
      · simp only [withReader, opens.interest]
        exact h.mapped
      · rw [hahead]
        exact List.nodup_nil
      · rw [hahead]
        simp
  | timerStarted fd periodMs callback kernel outside free opens =>
      have hahead := ahead_of_outside (s := { s with
        node := withKernel s.node kernel, pending := some (.timer callback fd) }) outside
      refine ⟨?_, ?_, ?_⟩
      · simp only [withKernel, opens.interest]
        exact h.mapped
      · rw [hahead]
        exact List.nodup_nil
      · rw [hahead]
        simp
  | registered handler waits => exact h.registered hw waits
  | looped e loop may move => exact h.looped hw may move
  | inserted | evicted | worked => exact h.frame (.of_node rfl rfl) (fun _ hpos => hpos) id
  | signalled reader efd listens owes =>
      refine h.frame ((moves hstep).sameWiring rfl) ?_ id
      intro fd hpos
      by_cases hfd : fd = efd
      · rw [hfd]
        exact Kernel.eventfdWrite_pos _ _
      · simp only [withKernel, Kernel.counter_eventfdWrite_of_ne _ hfd]
        exact hpos
  | expired tfd =>
      refine h.frame ((moves hstep).sameWiring rfl) ?_ id
      intro fd hpos
      simp only [withKernel, Kernel.counter_setCounter]
      split
      · exact Nat.succ_pos _
      · exact hpos
  | read handler inside here => exact h.read inside
  | tookNone => exact h.frame (.of_node rfl rfl) (fun _ hpos => hpos) (by simp)
  | took m r cb efd i sample =>
      refine h.frame (.of_node rfl rfl) (fun _ hpos => hpos) ?_
      cases hvalid : sample.validData <;> simp [takeSample, hvalid]
  | enqueued => exact h.frame (.of_node rfl rfl) (fun _ hpos => hpos) (by simp)
  | dropped handler | notified _ handler =>
      refine h.frame (.of_node rfl rfl) (fun _ hpos => hpos) ?_
      cases handler <;> simp [afterEnqueue]

theorem placed_init : Placed (init n τ κ μ) where
  drains := by simp [init]
  owes := rfl
  outside := fun _ => Or.inl rfl
  signals := fun _ _ => rfl

theorem owed_worker {p q : ThreadPool.State n (Task κ μ)} {e : ThreadPool.Event n (Task κ μ)}
    (own : workerStep e = true) (h : ThreadPool.step p e = some q) : q.owed = p.owed := by
  cases ThreadPool.moves h with
  | locked | left | popped | idle | blocked | woken | invoked | finished => rfl
  | _ => cases own

theorem owed_notify {p q : ThreadPool.State n (Task κ μ)} {woken : Option (Fin n)}
    (h : ThreadPool.step p (.notify woken) = some q) : q.owed = p.owed - 1 := by
  cases ThreadPool.moves h <;> rfl

theorem owed_enqueue {p q : ThreadPool.State n (Task κ μ)} {task : Task κ μ}
    (accepting : p.stop = false) (h : ThreadPool.step p (.enqueue task) = some q) :
    q.owed = p.owed + 1 := by
  cases ThreadPool.moves h with
  | enqueueDropped task free stopped =>
      rw [accepting] at stopped
      cases stopped
  | enqueued => rfl

/-- Only `next` changes the handler's place, and then the handler has just been entered
or there is none. -/
theorem Placed.looped (h : Placed s) {e : EventLoop.Event} {loop : EventLoop (Handler τ κ)}
    (may : loopMay s e = true) (move : EventLoop.Moves s.node.loop e loop) :
    Placed { s with node := withLoop s.node loop, handlerPc := entering s.handlerPc e } := by
  have idle : ∀ {pc}, s.node.loop.pc = pc → (∀ cb rest, pc ≠ .callback cb rest) →
      current s.node = none := by
    intro pc hpc hne
    rw [Option.eq_none_iff_forall_not_mem]
    intro handler hcurrent
    obtain ⟨rest, hrest⟩ := current_eq_some.mp hcurrent
    exact hne handler rest (hpc.symm.trans hrest)
  have settled : current s.node = none → s.pool.owed = 0 := by
    intro hidle
    have howes := h.owes
    obtain hplace | hplace := h.outside hidle <;> rw [hplace] at howes <;> exact howes
  refine ⟨?_, ?_, ?_, h.signals⟩
  · intro hplace handler hcurrent
    obtain ⟨rest, hpc⟩ := current_eq_some.mp hcurrent
    cases move with
    | called => cases hplace
    | woken r => cases r <;> cases hpc
    | _ => cases hpc
  · cases move with
    | batchDone here | called _ _ _ here | skipped _ _ here => exact settled (idle here (by simp))
    | _ => exact h.owes
  · intro _
    cases move with
    | batchDone | called | skipped => exact Or.inr rfl
    | returned cb rest here =>
        simp only [loopMay] at may
        split at may
        · next hdone => exact Or.inl hdone
        · cases may
    | entered here | looped here | ended here | waits here | woken _ here =>
        exact h.outside (idle here (by simp))

theorem Placed.step {typeName : τ → String} (h : Placed s) (hs : Sequenced s)
    {e : Event n τ κ μ} (hstep : step typeName s e = some t) : Placed t := by
  cases moves hstep with
  | subscribed fd msgType topicName callback kernel participant topic outside free opens =>
      have hidle : current s.node = none := current_of_outside outside
      refine ⟨?_, h.owes, fun _ => h.outside hidle, ?_⟩
      · intro _ handler hcurrent
        change current s.node = some handler at hcurrent
        rw [hidle] at hcurrent
        cases hcurrent
      · intro r hr
        simp only [withReader, List.length_append, List.length_singleton] at hr
        exact h.signals r (by omega)
  | timerStarted => exact ⟨h.drains, h.owes, h.outside, h.signals⟩
  | registered handler waits =>
      refine ⟨?_, h.owes, ?_, ?_⟩
      · intro hplace other hcurrent
        rw [current_registered] at hcurrent
        exact h.drains hplace other hcurrent
      · intro hcurrent
        rw [current_registered] at hcurrent
        exact h.outside hcurrent
      · simp only [readers_registered]
        exact h.signals
  | inserted reader sample known =>
      refine ⟨h.drains, h.owes, h.outside, ?_⟩
      intro r hr
      have hne : r ≠ reader := by
        rintro rfl
        exact absurd known (Nat.not_lt.mpr hr)
      simp only [Function.update_of_ne hne]
      exact h.signals r hr
  | signalled reader efd listens owes =>
      refine ⟨h.drains, h.owes, h.outside, ?_⟩
      intro r hr
      simp only [Function.update_apply]
      split
      · next heq =>
          have hzero := h.signals r hr
          rw [heq] at hzero
          omega
      · exact h.signals r hr
  | evicted | expired => exact ⟨h.drains, h.owes, h.outside, h.signals⟩
  | looped e loop may move => exact h.looped may move
  | read handler inside here =>
      have hcurrent := (sameWiring_read handler).current.trans inside
      obtain ⟨-, hsignals, -, -, hpool⟩ := read_frame s handler
      refine ⟨?_, ?_, by simp [hcurrent], ?_⟩
      · intro hplace other hother
        cases Option.some.inj (hcurrent.symm.trans hother)
        obtain ⟨_, _, _, _, hkind, -⟩ | ⟨_, hpc⟩ | hpc := handlerPc_read s handler
        · exact ⟨_, _, _, _, hkind⟩
        · rw [hplace] at hpc
          cases hpc
        · rw [hplace] at hpc
          cases hpc
      · have howes := h.owes
        rw [here] at howes
        rw [hpool, howes]
        obtain ⟨_, _, _, _, -, hpc⟩ | ⟨_, hpc⟩ | hpc := handlerPc_read s handler <;> rw [hpc]
      · rw [hsignals, (sameWiring_read handler).readers]
        exact h.signals
  | tookNone m r cb efd inside here =>
      have howes := h.owes
      rw [here] at howes
      exact ⟨by simp, howes, fun _ => Or.inl rfl, h.signals⟩
  | took m r cb efd i sample inside here present =>
      have howes := h.owes
      rw [here] at howes
      refine ⟨fun _ handler hcurrent => ?_, ?_, ?_, h.signals⟩
      · exact h.drains here handler hcurrent
      · cases hvalid : sample.validData <;> simpa [takeSample, hvalid] using howes
      · intro hcurrent
        change current s.node = none at hcurrent
        rw [inside] at hcurrent
        cases hcurrent
  | enqueued handler task pool inside here accepting move =>
      have howes := h.owes
      rw [here] at howes
      refine ⟨by simp, (owed_enqueue accepting move).trans (by rw [howes]), ?_, h.signals⟩
      intro hcurrent
      rw [inside] at hcurrent
      cases hcurrent
  | dropped handler task pool inside here stopped =>
      rw [hs.accepting] at stopped
      cases stopped
  | notified woken handler pool inside here move =>
      have howes := h.owes
      rw [here] at howes
      refine ⟨?_, ?_, ?_, h.signals⟩
      · intro hplace other hcurrent
        cases Option.some.inj (inside.symm.trans hcurrent)
        cases handler with
        | subscription => exact ⟨_, _, _, _, rfl⟩
        | timer => cases hplace
      · rw [owed_notify move, howes]
        cases handler <;> rfl
      · intro hcurrent
        rw [inside] at hcurrent
        cases hcurrent
  | worked e pool own move =>
      exact ⟨h.drains, (owed_worker own move).trans h.owes, h.outside, h.signals⟩

/-- The pool is private to the node and its tasks never enqueue. -/
def Plain (pool : ThreadPool.State n (Task κ μ)) : Prop :=
  ∀ w, match pool.workers w with
    | .running _ _ calls => calls = []
    | .notifying _ _ _ => False
    | _ => True

theorem plain_setPc {p : ThreadPool.State n (Task κ μ)} (h : Plain p) {w : Fin n}
    {pc : ThreadPool.Pc (Task κ μ)}
    (hpc : match pc with
      | .running _ _ calls => calls = []
      | .notifying _ _ _ => False
      | _ => True) : Plain (p.setPc w pc) := by
  intro v
  rw [ThreadPool.workers_setPc]
  by_cases hv : v = w
  · rw [if_pos hv]
    exact hpc
  · rw [if_neg hv]
    exact h v

theorem plain_worker {p q : ThreadPool.State n (Task κ μ)} {e : ThreadPool.Event n (Task κ μ)}
    (h : Plain p) (own : workerStep e = true) (hstep : ThreadPool.step p e = some q) :
    Plain q := by
  cases ThreadPool.moves hstep with
  | locked | left | popped | idle | blocked | woken | finished =>
      exact plain_setPc (p := p) h trivial
  | invoked w calls k task here =>
      exact plain_setPc (p := p) h (List.isEmpty_iff.mp own)
  | _ => cases own

theorem plain {typeName : τ → String} (h : Reachable typeName s) : Plain s.pool := by
  refine h.keeps (I := fun s => Plain s.pool) (fun _ => trivial) ?_
  intro u e v hu hstep
  cases moves hstep with
  | enqueued handler task pool inside here accepting move
  | dropped handler task pool inside here accepting move =>
      cases ThreadPool.moves move <;> exact hu
  | notified woken handler pool inside here move =>
      cases ThreadPool.moves move with
      | notified => exact plain_setPc (p := u.pool) hu trivial
      | notifiedNobody => exact hu
  | worked e pool own move => exact plain_worker hu own move
  | read handler =>
      rw [(read_frame u handler).2.2.2.2]
      exact hu
  | _ => exact hu

theorem due {typeName : τ → String} (h : Reachable typeName s) : Due s :=
  h.keepsUnder (fun _ => wiring) due_init fun _ _ _ hw hs hstep => hs.step hw hstep

theorem placed {typeName : τ → String} (h : Reachable typeName s) : Placed s :=
  h.keepsUnder (fun _ => sequenced) placed_init fun _ _ _ hs hp hstep => hp.step hs hstep

end TinyMiddleware.Bridge
