import TinyMiddleware.Core.ThreadPoolAccounting
import TinyMiddleware.Lib.Gaps

/-! `day08_testpubsub/perf_sub.cpp`: the callback that counts lost messages, run by the
workers of the node's pool, one atomic access at a time. -/
namespace TinyMiddleware.PerfSub

open TinyMiddleware.Core Runs

variable {n : Nat}

/-- Where a worker stands in the callback: before `g_count++`, before each of the two
loads of `g_last_index`, before the addition to `g_lost_count`, before the store. -/
inductive CallbackPc where
  | counting
  | expecting
  | testing (expected : BitVec 64)
  | adding (expected : BitVec 64)
  | storing
  | done
  deriving DecidableEq, Repr

/-- `unsigned long` has 64 bits, `int` 32. A task is a message's `index()`. -/
structure State (n : Nat) where
  pool : ThreadPool.State n (BitVec 32)
  callback : Fin n → CallbackPc
  gCount : BitVec 32
  gLastIndex : BitVec 64
  gLostCount : BitVec 32

/-- `stats` is the other thread, which takes `g_count` every second. -/
inductive Event (n : Nat) where
  | pool (e : ThreadPool.Event n (BitVec 32))
  | advance (w : Fin n)
  | stats

def init (n : Nat) : State n where
  pool := ThreadPool.init n _
  callback := fun _ => .counting
  gCount := 0
  gLastIndex := 0
  gLostCount := 0

def State.goTo (s : State n) (w : Fin n) (pc : CallbackPc) : State n :=
  { s with callback := Function.update s.callback w pc }

/-- The next atomic access of the callback. The difference of two `unsigned long`s
is converted to `int` where it is added. -/
def access (s : State n) (w : Fin n) (currentIdx : BitVec 64) : Option (State n) :=
  match s.callback w with
  | .counting => some ({ s with gCount := s.gCount + 1 }.goTo w .expecting)
  | .expecting => some (s.goTo w (.testing (s.gLastIndex + 1)))
  | .testing expected =>
      some (s.goTo w (if s.gLastIndex ≠ 0 ∧ expected < currentIdx then .adding expected
        else .storing))
  | .adding expected =>
      some ({ s with gLostCount := s.gLostCount + (currentIdx - expected).setWidth 32 }.goTo w
        .storing)
  | .storing => some ({ s with gLastIndex := currentIdx }.goTo w .done)
  | .done => none

/-- The callback enqueues nothing, and it returns from its end. -/
def poolMay (s : State n) : ThreadPool.Event n (BitVec 32) → Bool
  | .invoke _ calls => calls.isEmpty
  | .finish w => decide (s.callback w = .done)
  | _ => true

def afterPool (callback : Fin n → CallbackPc) :
    ThreadPool.Event n (BitVec 32) → Fin n → CallbackPc
  | .finish w => Function.update callback w .counting
  | _ => callback

def step (s : State n) : Event n → Option (State n)
  | .pool e =>
      if poolMay s e then
        (ThreadPool.step s.pool e).map fun pool =>
          { s with pool := pool, callback := afterPool s.callback e }
      else none
  | .advance w =>
      match s.pool.workers w with
      | .running _ index [] => access s w (index.setWidth 64)
      | _ => none
  | .stats => some { s with gCount := 0 }

/-- The delivered indices, in the order in which the subscription handler enqueued them. -/
def indices (s : State n) : List Nat :=
  s.pool.accepted.map BitVec.toNat

def AllReturned (s : State n) : Prop :=
  s.pool.tasks = [] ∧ ∀ w, (s.pool.workers w).ticket = none

instance : DecidablePred (AllReturned (n := n)) :=
  fun s => inferInstanceAs
    (Decidable (s.pool.tasks = [] ∧ ∀ w, (s.pool.workers w).ticket = none))

/-- `g_lost_count`, an `int`, is the number of missing indices. -/
def CountsLost (s : State n) : Prop :=
  s.gLostCount.toInt = Gaps.missing (indices s)

instance : DecidablePred (CountsLost (n := n)) :=
  fun s => inferInstanceAs (Decidable (s.gLostCount.toInt = Gaps.missing (indices s)))

/-- Worker `v` has a message that was delivered before the one of `w`. -/
def earlier (s : State n) (v w : Fin n) : Bool :=
  match (s.pool.workers v).ticket, (s.pool.workers w).ticket with
  | some j, some k => decide (j < k)
  | _, _ => false

/-- A callback makes its first load only after the callbacks of all messages that were
delivered earlier have stored. -/
def InOrder (s : State n) : Event n → Prop
  | .advance w => s.callback w = .expecting → ∀ v, earlier s v w = true → s.callback v = .done
  | _ => True

instance (s : State n) : ∀ e, Decidable (InOrder s e)
  | .advance w =>
      inferInstanceAs (Decidable (s.callback w = .expecting →
        ∀ v, earlier s v w = true → s.callback v = .done))
  | .pool _ => .isTrue trivial
  | .stats => .isTrue trivial

/-- What a step of the pool does to the tasks that its workers have. -/
inductive PoolMoves (p q : ThreadPool.State n (BitVec 32)) :
    ThreadPool.Event n (BitVec 32) → Prop
  | kept (e : ThreadPool.Event n (BitVec 32))
      (same : ∀ v, (p.workers v).SameTask (q.workers v)) (returned : q.returned = p.returned)
      (dequeued : q.dequeued = p.dequeued) (inside : ∀ w, e ≠ .finish w) : PoolMoves p q e
  | popped (w : Fin n) (index : BitVec 32) (idle : (p.workers w).isRunning = false)
      (here : q.workers w = .popped p.dequeued.length index)
      (others : ∀ v, v ≠ w → q.workers v = p.workers v) (returned : q.returned = p.returned)
      (dequeued : q.dequeued = p.dequeued ++ [index]) : PoolMoves p q (.test w)
  | invoked (w : Fin n) (k : Nat) (index : BitVec 32) (calls : List (BitVec 32))
      (before : p.workers w = .popped k index) (here : q.workers w = .running k index calls)
      (others : ∀ v, v ≠ w → q.workers v = p.workers v) (returned : q.returned = p.returned)
      (dequeued : q.dequeued = p.dequeued) : PoolMoves p q (.invoke w calls)
  | finished (w : Fin n) (k : Nat) (index : BitVec 32) (before : p.workers w = .running k index [])
      (here : q.workers w = .start) (others : ∀ v, v ≠ w → q.workers v = p.workers v)
      (returned : q.returned = p.returned ++ [k]) (dequeued : q.dequeued = p.dequeued) :
      PoolMoves p q (.finish w)

theorem sameTask_setPc {p : ThreadPool.State n (BitVec 32)} {w : Fin n}
    {old : ThreadPool.Pc (BitVec 32)} (here : p.workers w = old) (pc : ThreadPool.Pc (BitVec 32))
    (same : old.SameTask pc) (v : Fin n) : (p.workers v).SameTask ((p.setPc w pc).workers v) := by
  rw [ThreadPool.workers_setPc]
  split
  · next hv => rwa [hv, here]
  · exact ⟨rfl, rfl, rfl⟩

theorem poolMoves {p q : ThreadPool.State n (BitVec 32)} {e : ThreadPool.Event n (BitVec 32)}
    (h : ThreadPool.step p e = some q) : PoolMoves p q e := by
  cases ThreadPool.moves h with
  | enqueueDropped | enqueued | notifiedNobody | stopSet | joined | destroyed =>
      exact .kept _ (fun _ => ⟨rfl, rfl, rfl⟩) rfl rfl (by simp)
  | notified v _ waits =>
      exact .kept _ (sameTask_setPc waits _ ⟨rfl, rfl, rfl⟩) rfl rfl (by simp)
  | locked w outside =>
      obtain here | here := outside <;>
        exact .kept _ (sameTask_setPc here _ ⟨rfl, rfl, rfl⟩) rfl rfl (by simp)
  | left w here | idle w here | blocked w here | woken w here | callDropped w _ _ _ _ here
  | called w _ _ _ _ here | callNotifiedNobody w _ _ _ here =>
      exact .kept _ (sameTask_setPc here _ ⟨rfl, rfl, rfl⟩) rfl rfl (by simp)
  | popped w here task rest front =>
      refine .popped w task (by rw [here]; rfl) (by simp) ?_ rfl rfl
      intro v hv
      simp [hv]
  | invoked w calls k task here =>
      refine .invoked w k task calls here (by simp) ?_ rfl rfl
      intro v hv
      simp [hv]
  | callNotified w v k task calls here other waits =>
      have hv : (p.setPc w (.running k task calls)).workers v = .blocked := by simp [other, waits]
      refine .kept _ ?_ rfl rfl (by simp)
      intro u
      have hfirst := sameTask_setPc here (.running k task calls) ⟨rfl, rfl, rfl⟩ u
      have hsecond := sameTask_setPc hv .awake ⟨rfl, rfl, rfl⟩ u
      exact ⟨hsecond.ticket.trans hfirst.ticket, hsecond.task.trans hfirst.task,
        hsecond.isRunning.trans hfirst.isRunning⟩
  | finished w k task here =>
      refine .finished w k task here (by simp) ?_ rfl rfl
      intro v hv
      simp [hv]
  | notifiedAll =>
      refine .kept _ ?_ rfl rfl (by simp)
      intro v
      rw [ThreadPool.workers_notifyAll]
      exact ⟨ThreadPool.ticket_wake _, ThreadPool.task_wake _, ThreadPool.isRunning_wake _⟩

/-- What the callbacks of the first `m` messages leave behind, one after the other. -/
def counted (s : State n) (m : Nat) : Gaps :=
  Gaps.count ((indices s).take m)

/-- Between the first load and the store. -/
def CallbackPc.isInside : CallbackPc → Bool
  | .testing _ | .adding _ | .storing => true
  | _ => false

def Fits (lostCount : BitVec 32) (g : Gaps) (index : BitVec 32) : CallbackPc → Prop
  | .testing expected => expected.toNat = g.last + 1
  | .adding expected =>
      expected.toNat = g.last + 1 ∧ g.last ≠ 0 ∧ g.last + 1 < index.toNat
  | .storing => lostCount = BitVec.ofNat 32 (g.see index.toNat).lost
  | _ => True

/-- The callbacks of the first `m` messages have stored, the next one may be inside, and
the others have not begun to look. -/
structure Tallied (s : State n) (m : Nat) : Prop where
  le : m ≤ s.pool.dequeued.length
  idle : ∀ w, (s.pool.workers w).isRunning = false → s.callback w = .counting
  stored : ∀ w k, (s.pool.workers w).ticket = some k → (s.callback w = .done ↔ k < m)
  returned : ∀ k ∈ s.pool.returned, k < m
  inside : ∀ w k, (s.pool.workers w).ticket = some k → (s.callback w).isInside = true → k = m
  last : s.gLastIndex.toNat = (counted s m).last
  lost : (∀ w, s.callback w ≠ .storing) → s.gLostCount = BitVec.ofNat 32 (counted s m).lost
  fits : ∀ w index, (s.pool.workers w).task = some index →
    Fits s.gLostCount (counted s m) index (s.callback w)

theorem tallied_init : Tallied (init n) 0 where
  le := Nat.le_refl 0
  idle := fun _ _ => rfl
  stored := by simp [init, ThreadPool.init, ThreadPool.Pc.ticket]
  returned := by simp [init, ThreadPool.init]
  inside := by simp [init, ThreadPool.init, ThreadPool.Pc.ticket]
  last := by simp [init, counted, Gaps.count, Gaps.none]
  lost := by simp [init, counted, Gaps.count, Gaps.none]
  fits := by simp [init, ThreadPool.init, ThreadPool.Pc.task]

theorem accepted_step {p q : ThreadPool.State n (BitVec 32)}
    {e : ThreadPool.Event n (BitVec 32)} (h : ThreadPool.step p e = some q) :
    p.accepted <+: q.accepted := by
  cases ThreadPool.moves h with
  | enqueued => exact List.prefix_append _ _
  | called => exact List.prefix_append _ _
  | _ => exact List.prefix_rfl

/-- What comes later in the queue does not change the count so far. -/
theorem counted_of_prefix {s t : State n} {m : Nat} (le : m ≤ s.pool.accepted.length)
    (h : s.pool.accepted <+: t.pool.accepted) : counted t m = counted s m := by
  obtain ⟨more, hmore⟩ := h
  unfold counted indices
  rw [← hmore, List.map_append, List.take_append_of_le_length (by simpa using le)]

/-- A step of the pool after which every worker that it concerns is still before its
first load, or is rid of its task. -/
theorem Tallied.poolKept {s t : State n} {m : Nat} (h : Tallied s m)
    (counted : counted t m = counted s m) (last : t.gLastIndex = s.gLastIndex)
    (lost : t.gLostCount = s.gLostCount) (callback : t.callback = s.callback)
    (dequeued : s.pool.dequeued.length ≤ t.pool.dequeued.length)
    (returned : t.pool.returned = s.pool.returned)
    (workers : ∀ w, (s.pool.workers w).SameTask (t.pool.workers w) ∨ s.callback w = .counting ∧
      ∀ k, (t.pool.workers w).ticket = some k → m ≤ k) : Tallied t m where
  le := Nat.le_trans h.le dequeued
  idle := by
    intro w hidle
    rw [callback]
    obtain hsame | ⟨hcounting, -⟩ := workers w
    · exact h.idle w (hsame.isRunning ▸ hidle)
    · exact hcounting
  stored := by
    intro w k hk
    rw [callback]
    obtain hsame | ⟨hcounting, hlater⟩ := workers w
    · exact h.stored w k (hsame.ticket ▸ hk)
    · simp [hcounting, hlater k hk]
  returned := by
    rw [returned]
    exact h.returned
  inside := by
    intro w k hk hinside
    rw [callback] at hinside
    obtain hsame | ⟨hcounting, -⟩ := workers w
    · exact h.inside w k (hsame.ticket ▸ hk) hinside
    · rw [hcounting] at hinside
      cases hinside
  last := by
    rw [last, counted]
    exact h.last
  lost := by
    rw [callback, lost, counted]
    exact h.lost
  fits := by
    intro w index hindex
    rw [callback, lost, counted]
    obtain hsame | ⟨hcounting, -⟩ := workers w
    · exact h.fits w index (hsame.task ▸ hindex)
    · rw [hcounting]
      trivial

theorem Tallied.finished {s : State n} {m : Nat} (h : Tallied s m)
    {q : ThreadPool.State n (BitVec 32)} {w : Fin n} {k : Nat} {index : BitVec 32}
    (before : s.pool.workers w = .running k index []) (here : q.workers w = .start)
    (others : ∀ v, v ≠ w → q.workers v = s.pool.workers v)
    (returned : q.returned = s.pool.returned ++ [k]) (dequeued : q.dequeued = s.pool.dequeued)
    (accepted : q.accepted = s.pool.accepted) (done : s.callback w = .done) :
    Tallied { s with pool := q, callback := Function.update s.callback w .counting } m := by
  have hcounted : counted
      { s with pool := q, callback := Function.update s.callback w .counting } m =
        counted s m := by
    simp only [counted, indices, accepted]
  have hticket : (s.pool.workers w).ticket = some k := by
    rw [before]
    rfl
  constructor
  · exact dequeued ▸ h.le
  · intro v hidle
    by_cases hv : v = w
    · simp [hv]
    · simp only [Function.update_of_ne hv]
      exact h.idle v (others v hv ▸ hidle)
  · intro v j hj
    by_cases hv : v = w
    · simp only [hv, here] at hj
      cases hj
    · simp only [Function.update_of_ne hv]
      exact h.stored v j (others v hv ▸ hj)
  · intro j hj
    simp only [returned] at hj
    obtain hj | hj := List.mem_append.mp hj
    · exact h.returned j hj
    · rw [List.mem_singleton.mp hj]
      exact (h.stored w k hticket).mp done
  · intro v j hj hinside
    by_cases hv : v = w
    · simp only [hv, here] at hj
      cases hj
    · simp only [Function.update_of_ne hv] at hinside
      exact h.inside v j (others v hv ▸ hj) hinside
  · rw [hcounted]
    exact h.last
  · intro hnone
    rw [hcounted]
    apply h.lost
    intro v
    by_cases hv : v = w
    · simp [hv, done]
    · simpa only [Function.update_of_ne hv] using hnone v
  · intro v index' hindex
    rw [hcounted]
    by_cases hv : v = w
    · simp only [hv, here] at hindex
      cases hindex
    · simp only [Function.update_of_ne hv]
      exact h.fits v index' (others v hv ▸ hindex)

theorem Tallied.pool {s : State n} {m : Nat} (h : Tallied s m)
    (hs : ThreadPool.Accounts s.pool) {e : ThreadPool.Event n (BitVec 32)}
    {q : ThreadPool.State n (BitVec 32)} (may : poolMay s e = true)
    (hstep : ThreadPool.step s.pool e = some q) :
    Tallied { s with pool := q, callback := afterPool s.callback e } m := by
  have haccepted := accepted_step hstep
  have hcounted : ∀ callback, counted { s with pool := q, callback } m = counted s m := by
    intro callback
    apply counted_of_prefix ?_ haccepted
    rw [← hs.queue, List.length_append]
    exact Nat.le_trans h.le (Nat.le_add_right _ _)
  cases poolMoves hstep with
  | kept e same returned dequeued inside =>
      have hcallback : afterPool s.callback e = s.callback := by
        cases e with
        | finish w => exact absurd rfl (inside w)
        | _ => rfl
      exact h.poolKept (hcounted _) rfl rfl hcallback (by simp [dequeued]) returned
        fun w => .inl (same w)
  | popped w index idle here others returned dequeued =>
      refine h.poolKept (hcounted _) rfl rfl rfl (by simp [dequeued]) returned ?_
      intro v
      by_cases hv : v = w
      · subst hv
        refine .inr ⟨h.idle v idle, ?_⟩
        intro k hk
        simp only [here, ThreadPool.Pc.ticket, Option.some.injEq] at hk
        exact hk ▸ h.le
      · simp only [others v hv]
        exact .inl ⟨rfl, rfl, rfl⟩
  | invoked w k index calls before here others returned dequeued =>
      refine h.poolKept (hcounted _) rfl rfl rfl (by simp [dequeued]) returned ?_
      intro v
      by_cases hv : v = w
      · subst hv
        have hcounting := h.idle v (by rw [before]; rfl)
        refine .inr ⟨hcounting, ?_⟩
        intro j hj
        simp only [here, ThreadPool.Pc.ticket, Option.some.injEq] at hj
        subst hj
        have hstored := h.stored v k (by rw [before]; rfl)
        rw [hcounting] at hstored
        simpa using hstored
      · simp only [others v hv]
        exact .inl ⟨rfl, rfl, rfl⟩
  | finished w k index before here others returned dequeued =>
      have hsame : q.accepted = s.pool.accepted := by
        cases ThreadPool.moves hstep
        rfl
      exact h.finished before here others returned dequeued hsame (of_decide_eq_true may)

theorem toNat_currentIdx (index : BitVec 32) : (index.setWidth 64).toNat = index.toNat := by
  have hlt := index.isLt
  rw [BitVec.toNat_setWidth, Nat.mod_eq_of_lt]
  omega

theorem toNat_expected {lastIndex : BitVec 64} (h : lastIndex.toNat ≤ 4294967295) :
    (lastIndex + 1).toNat = lastIndex.toNat + 1 := by
  bv_omega

theorem last_counted_le (s : State n) (m : Nat) : (counted s m).last ≤ 4294967295 := by
  apply Gaps.last_count_le
  intro i hi
  obtain ⟨index, -, rfl⟩ := List.mem_map.mp (List.mem_of_mem_take hi)
  have hlt := index.isLt
  omega

theorem fits_of_not_inside {lostCount : BitVec 32} {g : Gaps} {index : BitVec 32} {pc : CallbackPc}
    (h : pc.isInside = false) : Fits lostCount g index pc := by
  cases pc <;> trivial

/-- The test of the callback, in terms of what has been counted. -/
theorem test_iff {lastIndex expected : BitVec 64} {g : Gaps} (last : lastIndex.toNat = g.last)
    (expects : expected.toNat = g.last + 1) (index : BitVec 32) :
    lastIndex ≠ 0 ∧ expected < index.setWidth 64 ↔ g.last ≠ 0 ∧ g.last + 1 < index.toNat := by
  rw [BitVec.lt_def, toNat_currentIdx, expects, ← last, ne_eq, ne_eq, ← BitVec.toNat_inj]
  rfl

/-- The addition in `int` is the addition of the gap, as far as an `int` goes. -/
theorem gap_added {lostCount : BitVec 32} {expected : BitVec 64} {g : Gaps} {index : BitVec 32}
    (lost : lostCount = BitVec.ofNat 32 g.lost) (expects : expected.toNat = g.last + 1)
    (seen : g.last ≠ 0) (gap : g.last + 1 < index.toNat) :
    lostCount + (index.setWidth 64 - expected).setWidth 32 =
      BitVec.ofNat 32 (g.see index.toNat).lost := by
  have hsub : (index.setWidth 64 - expected).toNat = index.toNat - (g.last + 1) := by
    rw [BitVec.toNat_sub_of_le, toNat_currentIdx, expects]
    rw [BitVec.le_def, toNat_currentIdx, expects]
    omega
  have hsee : (g.see index.toNat).lost = g.lost + (index.toNat - (g.last + 1)) := by
    simp [Gaps.see, seen, gap]
  rw [hsee, lost, BitVec.ofNat_add]
  congr 1
  apply BitVec.eq_of_toNat_eq
  rw [BitVec.toNat_setWidth, BitVec.toNat_ofNat, hsub]

section
variable {s : State n} {m k : Nat} {w : Fin n} {index : BitVec 32}

theorem ne_of_idle (running : s.pool.workers w = .running k index []) {v : Fin n}
    (idle : (s.pool.workers v).isRunning = false) : v ≠ w := by
  rintro rfl
  rw [running] at idle
  cases idle

/-- At most the holder of the next ticket is inside. -/
theorem Tallied.alone (h : Tallied s m) (hs : ThreadPool.Accounts s.pool)
    (holds : (s.pool.workers w).ticket = some m) {v : Fin n} (hv : v ≠ w) :
    (s.callback v).isInside = false := by
  by_contra hinside
  rw [Bool.not_eq_false] at hinside
  cases hrunning : (s.pool.workers v).isRunning with
  | false =>
      rw [h.idle v hrunning] at hinside
      cases hinside
  | true =>
      obtain ⟨j, hj⟩ := ThreadPool.ticket_of_isRunning hrunning
      cases h.inside v j hj hinside
      exact hv (hs.sound.held_unique v w m hj holds)

theorem Tallied.not_storing_of_turn (h : Tallied s m) (hs : ThreadPool.Accounts s.pool)
    (holds : (s.pool.workers w).ticket = some m) (here : s.callback w ≠ .storing) (v : Fin n) :
    s.callback v ≠ .storing := by
  by_cases hv : v = w
  · exact hv ▸ here
  · intro hstoring
    have houtside := h.alone hs holds hv
    rw [hstoring] at houtside
    cases houtside

/-- If all earlier messages have stored, it is this one's turn. -/
theorem Tallied.turn (h : Tallied s m) (hs : ThreadPool.Accounts s.pool)
    (holds : (s.pool.workers w).ticket = some k) (here : s.callback w ≠ .done)
    (order : ∀ v, earlier s v w = true → s.callback v = .done) : k = m := by
  have hle : m ≤ k := Nat.le_of_not_lt fun hlt => here ((h.stored w k holds).mpr hlt)
  by_contra hne
  have hlt : m < k := by omega
  obtain ⟨v, hv⟩ | hclosed :=
    hs.sound.covered m (Nat.lt_trans hlt (hs.sound.held_lt w k holds))
  · have hdone := order v (by simp [earlier, show (s.pool.workers v).ticket = some m from hv,
      holds, hlt])
    exact Nat.lt_irrefl m ((h.stored v m hv).mp hdone)
  · exact Nat.lt_irrefl m (h.returned m hclosed)

/-- A callback goes on, short of its store. -/
theorem Tallied.goesOn (h : Tallied s m) (running : s.pool.workers w = .running k index [])
    (here : s.callback w ≠ .done) {t : State n} (pc : CallbackPc) (pool : t.pool = s.pool)
    (callback : t.callback = Function.update s.callback w pc)
    (last : t.gLastIndex = s.gLastIndex) (notDone : pc ≠ .done)
    (inside : pc.isInside = true → k = m)
    (lost : (∀ v, t.callback v ≠ .storing) → t.gLostCount = BitVec.ofNat 32 (counted s m).lost)
    (fits : Fits t.gLostCount (counted s m) index pc)
    (others : t.gLostCount = s.gLostCount ∨ ∀ v, v ≠ w → (s.callback v).isInside = false) :
    Tallied t m := by
  have hticket : (s.pool.workers w).ticket = some k := by
    rw [running]
    rfl
  have hcounted : counted t m = counted s m := by
    simp only [counted, indices, pool]
  constructor
  · exact pool ▸ h.le
  · intro v hidle
    rw [pool] at hidle
    rw [callback, Function.update_of_ne (ne_of_idle running hidle)]
    exact h.idle v hidle
  · intro v j hj
    rw [pool] at hj
    rw [callback]
    by_cases hv : v = w
    · subst hv
      rw [Function.update_self, ← h.stored v j hj]
      exact iff_of_false notDone here
    · rw [Function.update_of_ne hv]
      exact h.stored v j hj
  · rw [pool]
    exact h.returned
  · intro v j hj hinside
    rw [pool] at hj
    rw [callback] at hinside
    by_cases hv : v = w
    · subst hv
      rw [hticket] at hj
      rw [Function.update_self] at hinside
      exact Option.some.inj hj ▸ inside hinside
    · rw [Function.update_of_ne hv] at hinside
      exact h.inside v j hj hinside
  · rw [last, hcounted]
    exact h.last
  · rw [hcounted]
    exact lost
  · intro v index' hindex
    rw [pool] at hindex
    rw [callback, hcounted]
    by_cases hv : v = w
    · subst hv
      rw [running] at hindex
      cases hindex
      rw [Function.update_self]
      exact fits
    · rw [Function.update_of_ne hv]
      obtain hsame | houtside := others
      · rw [hsame]
        exact h.fits v index' hindex
      · exact fits_of_not_inside (houtside v hv)

/-- The message that a worker has is the next one to be counted after those before it. -/
theorem counted_succ (hs : ThreadPool.Accounts s.pool)
    (running : s.pool.workers w = .running k index []) :
    counted s (k + 1) = (counted s k).see index.toNat := by
  have hticket : (s.pool.workers w).ticket = some k := by
    rw [running]
    rfl
  have hplace : (indices s)[k]? = some index.toNat := by
    have hcontent := hs.content w k hticket
    rw [running] at hcontent
    unfold indices
    rw [← hs.queue, List.getElem?_map, List.getElem?_append_left (hs.sound.held_lt w k hticket),
      hcontent]
    rfl
  unfold counted
  rw [List.take_add_one, hplace]
  exact Gaps.count_concat _ _

/-- The store hands over to the next message. -/
theorem Tallied.stores (h : Tallied s m) (hs : ThreadPool.Accounts s.pool)
    (running : s.pool.workers w = .running k index []) (here : s.callback w = .storing)
    {t : State n} (pool : t.pool = s.pool)
    (callback : t.callback = Function.update s.callback w .done)
    (last : t.gLastIndex.toNat = index.toNat) (lost : t.gLostCount = s.gLostCount) :
    Tallied t (m + 1) := by
  have hticket : (s.pool.workers w).ticket = some k := by
    rw [running]
    rfl
  have hturn : k = m := h.inside w k hticket (by rw [here]; rfl)
  subst hturn
  have hlt := hs.sound.held_lt w k hticket
  have hcounted : counted t (k + 1) = (counted s k).see index.toNat := by
    rw [← counted_succ hs running]
    simp only [counted, indices, pool]
  have halone : ∀ v, v ≠ w → (s.callback v).isInside = false := fun v hv => h.alone hs hticket hv
  constructor
  · rw [pool]
    exact hlt
  · intro v hidle
    rw [pool] at hidle
    rw [callback, Function.update_of_ne (ne_of_idle running hidle)]
    exact h.idle v hidle
  · intro v j hj
    rw [pool] at hj
    rw [callback]
    by_cases hv : v = w
    · subst hv
      rw [hticket] at hj
      cases hj
      rw [Function.update_self]
      exact iff_of_true rfl (Nat.lt_succ_self k)
    · have hne : j ≠ k := by
        rintro rfl
        exact hv (hs.sound.held_unique v w j hj hticket)
      rw [Function.update_of_ne hv, h.stored v j hj]
      omega
  · intro j hj
    rw [pool] at hj
    exact Nat.lt_succ_of_lt (h.returned j hj)
  · intro v j hj hinside
    rw [callback] at hinside
    by_cases hv : v = w
    · subst hv
      rw [Function.update_self] at hinside
      cases hinside
    · rw [Function.update_of_ne hv, halone v hv] at hinside
      cases hinside
  · rw [hcounted, last]
    rfl
  · intro _
    rw [hcounted, lost]
    have hfits := h.fits w index (by rw [running]; rfl)
    rw [here] at hfits
    exact hfits
  · intro v index' _
    rw [callback]
    by_cases hv : v = w
    · subst hv
      rw [Function.update_self]
      trivial
    · rw [Function.update_of_ne hv]
      exact fits_of_not_inside (halone v hv)

/-- Nobody is at the store, once it is known of the worker that moves. -/
theorem not_storing {callback : Fin n → CallbackPc} {pc : CallbackPc}
    (here : callback w ≠ .storing)
    (after : ∀ v, Function.update callback w pc v ≠ .storing) (v : Fin n) :
    callback v ≠ .storing := by
  by_cases hv : v = w
  · exact hv ▸ here
  · have hother := after v
    rwa [Function.update_of_ne hv] at hother

end

theorem Tallied.access {s t : State n} {m k : Nat} {w : Fin n} {index : BitVec 32}
    (h : Tallied s m) (hs : ThreadPool.Accounts s.pool)
    (running : s.pool.workers w = .running k index []) (order : InOrder s (.advance w))
    (hstep : access s w (index.setWidth 64) = some t) : ∃ m', Tallied t m' := by
  have hticket : (s.pool.workers w).ticket = some k := by
    rw [running]
    rfl
  have hfits := h.fits w index (by rw [running]; rfl)
  unfold PerfSub.access at hstep
  split at hstep
  · next here =>
      cases Option.some.inj hstep
      refine ⟨m, h.goesOn running (by simp [here]) .expecting rfl rfl rfl (by simp) nofun ?_
        trivial (.inl rfl)⟩
      intro hnone
      exact h.lost (not_storing (by simp [here]) hnone)
  · next here =>
      cases Option.some.inj hstep
      have hturn := h.turn hs hticket (by simp [here]) (order here)
      refine ⟨m, h.goesOn running (by simp [here]) (.testing (s.gLastIndex + 1)) rfl rfl rfl
        (by simp) (fun _ => hturn) ?_ ?_ (.inl rfl)⟩
      · intro hnone
        exact h.lost (not_storing (by simp [here]) hnone)
      · have hle := last_counted_le s m
        rw [← h.last] at hle
        have hexpected : (s.gLastIndex + 1).toNat = (counted s m).last + 1 := by
          rw [toNat_expected hle, h.last]
        exact hexpected
  · next expected here =>
      cases Option.some.inj hstep
      have hturn := h.inside w k hticket (by rw [here]; rfl)
      rw [here] at hfits
      have htest := test_iff h.last hfits index
      by_cases hgap : s.gLastIndex ≠ 0 ∧ expected < index.setWidth 64
      · refine ⟨m, h.goesOn running (by simp [here]) (.adding expected) rfl ?_ rfl (by simp)
          (fun _ => hturn) ?_ ⟨hfits, htest.mp hgap⟩ (.inl rfl)⟩
        · simp only [State.goTo, if_pos hgap]
        · intro hnone
          exact h.lost (not_storing (by simp [here]) hnone)
      · have hlost := h.lost (h.not_storing_of_turn hs (hturn ▸ hticket) (by simp [here]))
        refine ⟨m, h.goesOn running (by simp [here]) .storing rfl ?_ rfl (by simp)
          (fun _ => hturn) ?_ ?_ (.inl rfl)⟩
        · simp only [State.goTo, if_neg hgap]
        · intro _
          exact hlost
        · have hsee : ((counted s m).see index.toNat).lost = (counted s m).lost :=
            if_neg fun hcond => hgap (htest.mpr hcond)
          exact hlost.trans (congrArg _ hsee.symm)
  · next expected here =>
      cases Option.some.inj hstep
      have hturn := h.inside w k hticket (by rw [here]; rfl)
      rw [here] at hfits
      have hlost := h.lost (h.not_storing_of_turn hs (hturn ▸ hticket) (by simp [here]))
      refine ⟨m, h.goesOn running (by simp [here]) .storing rfl rfl rfl (by simp)
        (fun _ => hturn) ?_ ?_ (.inr fun v hv => h.alone hs (hturn ▸ hticket) hv)⟩
      · intro hnone
        exact absurd (Function.update_self w _ _) (hnone w)
      · exact gap_added hlost hfits.1 hfits.2.1 hfits.2.2
  · next here =>
      cases Option.some.inj hstep
      exact ⟨m + 1, h.stores hs running here rfl rfl (toNat_currentIdx index) rfl⟩
  · cases hstep

theorem pool_reachable {s : State n} (h : Reachable (restrict step InOrder) (init n) s) :
    ThreadPool.Reachable s.pool := by
  have sim : Simulation (restrict step InOrder) ThreadPool.step (fun _ => True)
      (State.pool (n := n)) := by
    refine ⟨fun _ _ _ _ _ => trivial, ?_⟩
    intro u e v _ hstep
    obtain ⟨-, hstep⟩ := restrict_eq_some.mp hstep
    cases e with
    | pool e =>
        obtain ⟨-, hstep⟩ := Option.ite_none_right_eq_some.mp hstep
        obtain ⟨pool, hpool, rfl⟩ := Option.map_eq_some_iff.mp hstep
        exact .single hpool
    | advance w =>
        have hsame : v.pool = u.pool := by
          simp only [step] at hstep
          split at hstep
          · unfold access at hstep
            split at hstep <;> cases hstep <;> rfl
          · cases hstep
        rw [hsame]
    | stats =>
        cases Option.some.inj hstep
        exact .refl
  exact sim.reachable h trivial

theorem tallied {s : State n} (h : Reachable (restrict step InOrder) (init n) s) :
    ∃ m, Tallied s m := by
  refine h.keepsUnder (I := fun s => ThreadPool.Accounts s.pool) (J := fun s => ∃ m, Tallied s m)
    (fun t ht => ThreadPool.accounts (pool_reachable ht)) ⟨0, tallied_init⟩ ?_
  rintro u e v hs ⟨m, hm⟩ hstep
  obtain ⟨horder, hstep⟩ := restrict_eq_some.mp hstep
  cases e with
  | pool e =>
      obtain ⟨hmay, hstep⟩ := Option.ite_none_right_eq_some.mp hstep
      obtain ⟨pool, hpool, rfl⟩ := Option.map_eq_some_iff.mp hstep
      exact ⟨m, hm.pool hs hmay hpool⟩
  | advance w =>
      simp only [step] at hstep
      split at hstep
      · next k index hrunning => exact hm.access hs hrunning horder hstep
      · cases hstep
  | stats =>
      cases Option.some.inj hstep
      exact ⟨m, hm.le, hm.idle, hm.stored, hm.returned, hm.inside, hm.last, hm.lost, hm.fits⟩

/-- When everybody is done, all messages have been counted. -/
theorem Tallied.complete {s : State n} {m : Nat} (h : Tallied s m)
    (hs : ThreadPool.Accounts s.pool) (all : AllReturned s) :
    s.gLostCount = BitVec.ofNat 32 (Gaps.count (indices s)).lost := by
  obtain ⟨hempty, hidle⟩ := all
  have haccepted : s.pool.dequeued = s.pool.accepted := by
    rw [← hs.queue, hempty, List.append_nil]
  have hm : m = (indices s).length := by
    have hle := h.le
    rw [indices, List.length_map, ← haccepted]
    by_contra hne
    obtain ⟨v, hv⟩ | hclosed := hs.sound.covered m (Nat.lt_of_le_of_ne hle hne)
    · rw [show s.pool.ledger.held v = none from hidle v] at hv
      cases hv
    · exact Nat.lt_irrefl m (h.returned m hclosed)
  have hlost := h.lost fun v hv => by
    have hrunning : (s.pool.workers v).isRunning = false := by
      by_contra hrunning
      rw [Bool.not_eq_false] at hrunning
      obtain ⟨k, hk⟩ := ThreadPool.ticket_of_isRunning hrunning
      rw [hidle v] at hk
      cases hk
    rw [h.idle v hrunning] at hv
    cases hv
  rw [hlost, counted, hm, List.take_length]

/-- Where the callbacks look and store in the order of delivery, the counter is right as
long as an `int` can hold it. -/
theorem countsLost_iff {s : State n} (h : Reachable (restrict step InOrder) (init n) s)
    (increasing : Gaps.Increasing (indices s)) (all : AllReturned s) :
    CountsLost s ↔ Gaps.missing (indices s) < 2147483648 := by
  obtain ⟨m, hm⟩ := tallied h
  have hlost := hm.complete (ThreadPool.accounts (pool_reachable h)) all
  have hle : Gaps.missing (indices s) ≤ 4294967295 := by
    apply Gaps.missing_le
    intro i hi
    obtain ⟨index, -, rfl⟩ := List.mem_map.mp hi
    have hlt := index.isLt
    omega
  unfold CountsLost
  rw [hlost, Gaps.lost_count increasing, BitVec.toInt_eq_toNat_cond, BitVec.toNat_ofNat,
    Nat.mod_eq_of_lt (Nat.lt_succ_of_le hle)]
  split <;> omega

/-- Two workers at work at once, on the messages 3 and 5. -/
theorem countsLost_two : ∃ s : State 4, indices s = [3, 5] ∧ CountsLost s := by
  have hrun : run (restrict step InOrder) (init 4)
      [.pool (.enqueue 3), .pool (.notify none), .pool (.enqueue 5), .pool (.notify none),
        .pool (.lock 0), .pool (.test 0), .pool (.lock 1), .pool (.test 1),
        .pool (.invoke 1 []), .advance 1, .pool (.invoke 0 []), .advance 0, .advance 0, .advance 0,
        .advance 0, .advance 1, .advance 1, .advance 1, .advance 1, .pool (.finish 1),
        .pool (.finish 0)] = some _ := rfl
  exact ⟨_, rfl, (countsLost_iff (reachable_of_run hrun) (by decide) (by decide)).mpr (by decide)⟩

/-- Four workers and the messages 1, 2 and 3; the last overtakes the second. -/
theorem overtaken : ¬ ∀ s : State 4, Reachable step (init 4) s →
    Gaps.Increasing (indices s) → AllReturned s → CountsLost s := by
  intro hall
  have hrun : run step (init 4)
      [.pool (.enqueue 1), .pool (.notify none), .pool (.enqueue 2), .pool (.notify none),
        .pool (.enqueue 3), .pool (.notify none),
        .pool (.lock 0), .pool (.test 0), .pool (.invoke 0 []), .advance 0, .advance 0, .advance 0,
        .advance 0, .pool (.finish 0),
        .pool (.lock 0), .pool (.test 0), .pool (.lock 1), .pool (.test 1),
        .pool (.invoke 1 []), .advance 1, .advance 1, .advance 1, .advance 1, .advance 1,
        .pool (.finish 1),
        .pool (.invoke 0 []), .advance 0, .advance 0, .advance 0, .advance 0, .pool (.finish 0)] =
      some _ := rfl
  have hcounts := hall _ (reachable_of_run hrun) (by decide) (by decide)
  revert hcounts
  decide

end TinyMiddleware.PerfSub
