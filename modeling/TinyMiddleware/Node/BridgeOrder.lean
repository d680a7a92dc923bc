import TinyMiddleware.Core.ThreadPoolAccounting
import TinyMiddleware.Node.BridgeDelivery

/-! In which order the callbacks of one subscription or timer run. The queue keeps the
order of its handler; the workers that take from it do not. -/
namespace TinyMiddleware.Bridge

open TinyMiddleware.Core Runs

variable {n : Nat} {τ κ μ : Type} {s : System n τ κ μ}

def isFrom (s : System n τ κ μ) (fd : Int) (ticket : Nat) : Bool :=
  (s.log[ticket]?).any fun entry => decide (entry.1 = fd)

/-- The tickets of a source, in the order in which its handler enqueued the tasks. -/
def ticketsFrom (s : System n τ κ μ) (fd : Int) : List Nat :=
  (List.range s.log.length).filter (isFrom s fd)

def dequeuedFrom (s : System n τ κ μ) (fd : Int) : List Nat :=
  (List.range s.pool.dequeued.length).filter (isFrom s fd)

def begunFrom (s : System n τ κ μ) (fd : Int) : List Nat :=
  s.pool.begun.filter (isFrom s fd)

/-- The tasks of a source that were enqueued before this one and have not returned. -/
def openBefore (s : System n τ κ μ) (fd : Int) (ticket : Nat) : List Nat :=
  (ticketsFrom s fd).filter fun j => decide (j < ticket) && !s.pool.returned.contains j

def BeginsInOrder (s : System n τ κ μ) (fd : Int) : Prop :=
  begunFrom s fd <+: ticketsFrom s fd

/-- Each invocation but the last to begin has returned. -/
def OneAtATime (s : System n τ κ μ) (fd : Int) : Prop :=
  ∀ ticket ∈ (begunFrom s fd).dropLast, ticket ∈ s.pool.returned

/-- What does hold of a source's invocations. -/
structure Ordered (s : System n τ κ μ) (fd : Int) : Prop where
  /-- The tickets stand for the tasks that the handler enqueued. -/
  tickets : (ticketsFrom s fd).filterMap (fun k => s.pool.accepted[k]?) = acceptedFrom s fd
  /-- For a subscription these are the valid samples, in the order of `take_next_sample`. -/
  samples : ∀ msgType r callback, Known s (.subscription msgType (some r) callback fd) →
    acceptedFrom s fd ++ inFlight s fd = messages callback (s.taken r)
  /-- A worker that holds a ticket holds the task it stands for. -/
  content : ∀ w k, (s.pool.workers w).ticket = some k →
    (s.pool.workers w).task = s.pool.accepted[k]?
  dequeued : dequeuedFrom s fd <+: ticketsFrom s fd
  once : (begunFrom s fd).Nodup
  /-- An invocation begins after everything before it has left the queue. -/
  behind : ∀ k ∈ begunFrom s fd, ∀ j ∈ ticketsFrom s fd, j ≤ k → j ∈ dequeuedFrom s fd
  /-- While a task is with a worker, the earlier ones are with the others or over. -/
  overlap : ∀ w k, (s.pool.workers w).ticket = some k → (openBefore s fd k).length < n

theorem tasks_of_tickets {α : Type} (log : List (Int × α)) (fd : Int) :
    ((List.range log.length).filter fun k =>
        (log[k]?).any fun entry => decide (entry.1 = fd)).filterMap
          (fun k => (log.map Prod.snd)[k]?) =
      (log.filter fun entry => decide (entry.1 = fd)).map Prod.snd := by
  induction log using List.reverseRecOn with
  | nil => rfl
  | append_singleton log entry ih =>
      have hold : ∀ k ∈ List.range log.length, (log ++ [entry])[k]? = log[k]? := by
        intro k hk
        exact List.getElem?_append_left (List.mem_range.mp hk)
      have hfilter : ((List.range log.length).filter fun k =>
          ((log ++ [entry])[k]?).any fun entry => decide (entry.1 = fd)) =
            (List.range log.length).filter fun k =>
              (log[k]?).any fun entry => decide (entry.1 = fd) := by
        apply List.filter_congr
        intro k hk
        rw [hold k hk]
      have hmap : ∀ k ∈ (List.range log.length).filter fun k =>
          (log[k]?).any fun entry => decide (entry.1 = fd),
            ((log ++ [entry]).map Prod.snd)[k]? = (log.map Prod.snd)[k]? := by
        intro k hk
        rw [List.getElem?_map, List.getElem?_map, hold k (List.mem_of_mem_filter hk)]
      rw [List.length_append, List.length_singleton, List.range_succ, List.filter_append,
        List.filterMap_append, hfilter, List.filterMap_congr hmap, ih, List.filter_append,
        List.map_append]
      by_cases hfd : entry.1 = fd <;> simp [hfd]

theorem length_log {typeName : τ → String} (h : Reachable typeName s) :
    s.log.length = s.pool.accepted.length := by
  rw [← (sequenced h).accepted, List.length_map]

/-- Per source, the order of the queue and nothing more. -/
theorem callback_order {typeName : τ → String} (h : Reachable typeName s) (fd : Int) :
    Ordered s fd := by
  have hpool := ThreadPool.accounts (pool_reachable h)
  have hlen := length_log h
  have hdequeued : s.pool.dequeued.length ≤ s.log.length := by
    rw [hlen]
    exact hpool.sound.taken_le
  constructor
  · rw [← (sequenced h).accepted]
    exact tasks_of_tickets s.log fd
  · intro msgType r callback hknown
    exact (sequenced h).paired msgType r callback fd hknown
  · intro w k hk
    have hlt : k < s.pool.dequeued.length := hpool.sound.held_lt w k hk
    rw [← hpool.content w k hk, ← hpool.queue, List.getElem?_append_left hlt]
  · apply List.IsPrefix.filter
    obtain ⟨rest, hrest⟩ := Nat.exists_eq_add_of_le hdequeued
    rw [hrest, List.range_add]
    exact List.prefix_append _ _
  · exact hpool.begunNodup.filter _
  · intro k hk j hj hle
    obtain ⟨hbegun, -⟩ := List.mem_filter.mp hk
    obtain ⟨-, hfrom⟩ := List.mem_filter.mp hj
    exact List.mem_filter.mpr ⟨List.mem_range.mpr (hle.trans_lt (hpool.begunTaken k hbegun)), hfrom⟩
  · intro w k hk
    have hdistinct : (openBefore s fd k).Nodup := (List.nodup_range.filter _).filter _
    have hbefore : ∀ j ∈ openBefore s fd k, j < k ∧ j ∉ s.pool.returned := by
      intro j hj
      simpa using (List.mem_filter.mp hj).2
    have hopen := hpool.sound.open_before_lt hk hdistinct hbefore
    rwa [Fintype.card_fin] at hopen

/-- One subscription with two samples, both popped by workers, up to the first `invoke`. -/
private def overtaking : List (Event 4 Unit Nat Nat) :=
  [.subscribe 5 () "chatter" 10, .register, .insert 0 ⟨1, true⟩, .onDataAvailable 0,
    .insert 0 ⟨2, true⟩, .onDataAvailable 0, .loop .run, .loop .test, .loop .wait,
    .loop (.result (.events [5])), .loop .next, .read, .take (some 0), .enqueue, .notify none,
    .take (some 0), .enqueue, .notify none, .worker (.lock 0), .worker (.test 0),
    .worker (.lock 1), .worker (.test 1)]

/-- The second worker calls its task first, and the first one does not wait for it. -/
theorem callback_order_overtaken : ∃ s : System 4 Unit Nat Nat,
    begunFrom s 5 = [1, 0] ∧ s.pool.returned = [] ∧ Ordered s 5 := by
  have hrun : run (step fun _ => "HelloWorld") (init 4 Unit Nat Nat)
      (overtaking ++ [.worker (.invoke 1 []), .worker (.invoke 0 [])]) = some _ := rfl
  exact ⟨_, rfl, rfl, callback_order (reachable_of_run hrun) 5⟩

/-- Neither half of the law holds of a pool of four. -/
theorem callbacks_overtake :
    (¬ ∀ s : System 4 Unit Nat Nat, Reachable (fun _ => "HelloWorld") s → ∀ fd, BeginsInOrder s fd) ∧
      ¬ ∀ s : System 4 Unit Nat Nat, Reachable (fun _ => "HelloWorld") s → ∀ fd, OneAtATime s fd := by
  have hrun : run (step fun _ => "HelloWorld") (init 4 Unit Nat Nat)
      (overtaking ++ [.worker (.invoke 1 []), .worker (.invoke 0 [])]) = some _ := rfl
  constructor
  · intro hall
    have hprefix := (hall _ (reachable_of_run hrun) 5).eq_of_length_le (by decide)
    revert hprefix
    decide
  · intro hall
    exact absurd (hall _ (reachable_of_run hrun) 5 1 (by decide)) (by decide)

end TinyMiddleware.Bridge
