import TinyMiddleware.Lib.Stamps
import TinyMiddleware.Node.BridgeTicks
import TinyMiddleware.Node.WallTimer

/-! Wall timers against the clock. A timerfd expires at fixed times after it was set; when
its ticks reach the pool is up to the loop's thread. -/
namespace TinyMiddleware.Bridge

open TinyMiddleware.Core Runs Stamps

variable {n : Nat} {τ κ μ : Type}

section Armed
variable {s t : System n τ κ μ} {typeName : τ → String}

theorem kernel_subscribe {fd : Nat} {msgType : τ} {topicName : String} {callback : κ}
    (h : step typeName s (.subscribe fd msgType topicName callback) = some t) :
    (fd : Int) ∉ s.node.kernel.isOpen ∧ t.node.kernel = (s.node.kernel.openFd (some fd)).1 := by
  obtain ⟨hmay, h⟩ := Option.ite_none_right_eq_some.mp h
  refine ⟨(mayCreate_iff.mp hmay).2.2, ?_⟩
  split at h
  · next node handler heq =>
      cases Option.some.inj h
      unfold Node.prepareSubscription at heq
      dsimp only at heq
      split at heq
      · simp at heq
      · simp only [Prod.mk.injEq, Option.some.injEq] at heq
        obtain ⟨rfl, -⟩ := heq
        rfl
  · cases h

/-- The timers that can be started at all, and what `timerfd_settime` does with them. -/
theorem kernel_started {fd : Nat} {periodMs : Int} {callback : κ}
    (h : step typeName s (.startTimer fd periodMs callback) = some t) :
    (fd : Int) ∉ s.node.kernel.isOpen ∧ 0 ≤ periodMs ∧
      t.node.kernel =
        ((s.node.kernel.openFd (some fd)).1.timerfdSettime fd (Node.timerSpec periodMs)).1 := by
  obtain ⟨hmay, h⟩ := Option.ite_none_right_eq_some.mp h
  have hfresh := (mayCreate_iff.mp hmay).2.2
  have hfd := (Kernel.openFd_some hfresh).1
  have hvalid : (fd : Int) ≠ -1 := by omega
  simp only [Node.prepareWallTimer, hfd, hvalid, if_false] at h
  split at h
  · next node handler heq =>
      split at heq
      · next hset =>
          simp only [Prod.mk.injEq, Option.some.injEq] at heq
          obtain ⟨rfl, rfl⟩ := heq
          cases Option.some.inj h
          refine ⟨hfresh, (Node.legal_timerSpec_iff periodMs).mp ?_, rfl⟩
          by_contra hillegal
          simp [Kernel.timerfdSettime, hillegal] at hset
      · simp at heq
  · cases h

theorem armed_started {fd : Nat} {periodMs : Int} {callback : κ}
    (h : step typeName s (.startTimer fd periodMs callback) = some t) :
    t.node.kernel.armed fd = if periodMs = 0 then none else some (Node.timerSpec periodMs) := by
  obtain ⟨-, hlegal, hkernel⟩ := kernel_started h
  have hset := (Node.legal_timerSpec_iff periodMs).mpr hlegal
  rw [hkernel]
  simp [Kernel.timerfdSettime, hset, Node.value_timerSpec_eq_zero_iff]

/-- Nobody sets an open timerfd again. -/
theorem armed_kept {e : Event n τ κ μ} (h : step typeName s e = some t) {fd : Int}
    (isOpen : fd ∈ s.node.kernel.isOpen) :
    fd ∈ t.node.kernel.isOpen ∧ t.node.kernel.armed fd = s.node.kernel.armed fd := by
  cases moves h with
  | subscribed fd' msgType topicName callback kernel participant topic outside free opens =>
      obtain ⟨hfresh, hkernel⟩ := kernel_subscribe h
      rw [hkernel]
      have hne : fd ≠ fd' := fun heq => hfresh (heq ▸ isOpen)
      simp [Kernel.openFd, hfresh, hne, isOpen]
  | timerStarted fd' periodMs callback kernel outside free opens =>
      obtain ⟨hfresh, -, hkernel⟩ := kernel_started h
      rw [hkernel]
      have hne : fd ≠ fd' := fun heq => hfresh (heq ▸ isOpen)
      rw [Kernel.isOpen_timerfdSettime, Kernel.armed_timerfdSettime _ hne]
      simp [Kernel.openFd, hfresh, hne, isOpen]
  | registered handler waits =>
      rw [kernel_registered]
      exact ⟨by simpa using isOpen, by simp⟩
  | signalled reader efd listens owes =>
      exact ⟨by simpa [withKernel] using isOpen, by simp [withKernel]⟩
  | read handler inside here =>
      rw [(sameWiring_read handler).isOpen, armed_read]
      exact ⟨isOpen, rfl⟩
  | _ => exact ⟨isOpen, rfl⟩

end Armed

/-- A node beside the monotonic clock, in nanoseconds. `since` is when a timerfd was set,
and `fired` how often it has expired since then. -/
structure Clocked (n : Nat) (τ κ μ : Type) where
  system : System n τ κ μ
  now : Nat
  since : Int → Nat
  fired : Int → Nat

namespace Clocked

inductive Event (n : Nat) (τ κ μ : Type) where
  | node (e : Bridge.Event n τ κ μ)
  | pass (ns : Nat)

def init (n : Nat) (τ κ μ : Type) : Clocked n τ κ μ where
  system := Bridge.init n τ κ μ
  now := 0
  since := fun _ => 0
  fired := fun _ => 0

/-- When a timerfd expires next: first after `it_value`, then every `it_interval`, and
only once if that is zero. -/
def expiry (s : Clocked n τ κ μ) (fd : Int) : Option Int :=
  (s.system.node.kernel.armed fd).bind fun spec =>
    if s.fired fd = 0 ∨ 0 < Node.nanoseconds spec.interval then
      some (s.since fd + Node.nanoseconds spec.value +
        s.fired fd * Node.nanoseconds spec.interval)
    else none

/-- Time does not pass over an expiration. -/
def mayPass (s : Clocked n τ κ μ) (ns : Nat) : Bool :=
  decide (∀ fd ∈ s.system.node.kernel.isOpen,
    (s.expiry fd).all (fun due : Int => decide ((s.now : Int) + ns ≤ due)) = true)

def punctual (s : Clocked n τ κ μ) : Bridge.Event n τ κ μ → Bool
  | .expire tfd => decide (s.expiry tfd = some (s.now : Int))
  | _ => true

/-- `timerfd_settime` starts the count of a timerfd's expirations anew. -/
def after (s : Clocked n τ κ μ) (e : Bridge.Event n τ κ μ) (system : System n τ κ μ) :
    Clocked n τ κ μ :=
  match e with
  | .startTimer fd _ _ =>
      { s with
        system := system
        since := Function.update s.since fd s.now
        fired := Function.update s.fired fd 0 }
  | .expire tfd =>
      { s with
        system := system
        fired := Function.update s.fired tfd (s.fired tfd + 1) }
  | _ => { s with system := system }

def step (typeName : τ → String) (s : Clocked n τ κ μ) : Event n τ κ μ → Option (Clocked n τ κ μ)
  | .node e => if s.punctual e then (Bridge.step typeName s.system e).map (s.after e) else none
  | .pass ns => if s.mayPass ns then some { s with now := s.now + ns } else none

/-- What an observer of the timers sees in a step, and when. -/
def stamps (s : Clocked n τ κ μ) : Event n τ κ μ → List (Nat × Int × Latch.Mark)
  | .node e => (tickMarks s.system e).map fun mark => (s.now, mark)
  | .pass _ => []

abbrev Observed (typeName : τ → String) (s : Clocked n τ κ μ)
    (marks : List (Nat × Int × Latch.Mark)) : Prop :=
  Runs.Reachable (observe (step typeName) stamps) (init n τ κ μ, []) (s, marks)

inductive Moves (typeName : τ → String) (s : Clocked n τ κ μ) :
    Event n τ κ μ → Clocked n τ κ μ → Prop
  | node (e : Bridge.Event n τ κ μ) (system : System n τ κ μ) (punctual : s.punctual e = true)
      (move : Bridge.step typeName s.system e = some system) :
      Moves typeName s (.node e) (s.after e system)
  | passed (ns : Nat) (may : ∀ fd ∈ s.system.node.kernel.isOpen, ∀ due, s.expiry fd = some due →
      (s.now : Int) + ns ≤ due) :
      Moves typeName s (.pass ns) { s with now := s.now + ns }

theorem moves {typeName : τ → String} {s t : Clocked n τ κ μ} {e : Event n τ κ μ}
    (h : step typeName s e = some t) : Moves typeName s e t := by
  cases e with
  | node e =>
      obtain ⟨hpunctual, h⟩ := Option.ite_none_right_eq_some.mp h
      obtain ⟨system, hmove, rfl⟩ := Option.map_eq_some_iff.mp h
      exact .node e system hpunctual hmove
  | pass ns =>
      obtain ⟨hmay, h⟩ := Option.ite_none_right_eq_some.mp h
      cases Option.some.inj h
      refine .passed ns ?_
      intro fd hfd due hdue
      have hall := of_decide_eq_true hmay fd hfd
      rw [hdue] at hall
      exact of_decide_eq_true hall

theorem node_step {typeName : τ → String} {s t : Clocked n τ κ μ} {e : Bridge.Event n τ κ μ}
    (h : step typeName s (.node e) = some t) :
    ∃ system, Bridge.step typeName s.system e = some system ∧ t = s.after e system := by
  cases moves h with
  | node e system punctual move => exact ⟨system, move, rfl⟩

@[simp] theorem after_system (s : Clocked n τ κ μ) (e : Bridge.Event n τ κ μ)
    (system : System n τ κ μ) : (s.after e system).system = system := by
  cases e <;> rfl

@[simp] theorem after_now (s : Clocked n τ κ μ) (e : Bridge.Event n τ κ μ)
    (system : System n τ κ μ) : (s.after e system).now = s.now := by
  cases e <;> rfl

theorem map_stamps (s : Clocked n τ κ μ) (e : Bridge.Event n τ κ μ) :
    (s.stamps (.node e)).map Prod.snd = tickMarks s.system e := by
  simp [stamps, Function.comp_def]

/-- The clock only watches. -/
theorem Observed.forget {typeName : τ → String} {s : Clocked n τ κ μ}
    {marks : List (Nat × Int × Latch.Mark)} (h : Observed typeName s marks) :
    Bridge.Observed typeName s.system (marks.map Prod.snd) := by
  refine Reachable.keeps h (I := fun p => Bridge.Observed typeName p.1.system (p.2.map Prod.snd))
    .refl ?_
  rintro ⟨s, marks⟩ e ⟨t, more⟩ hbefore hstep
  obtain ⟨hstep, hmarks⟩ := observe_eq_some.mp hstep
  dsimp only at hstep hmarks hbefore ⊢
  cases moves hstep with
  | node e system punctual move =>
      rw [hmarks, List.map_append, map_stamps, after_system]
      exact hbefore.step (observe_eq_some.mpr ⟨move, rfl⟩)
  | passed ns may =>
      rw [hmarks]
      simpa [stamps] using hbefore

def stampsOf (fd : Int) (marks : List (Nat × Int × Latch.Mark)) : List (Nat × Latch.Mark) :=
  (marks.filter fun entry => decide (entry.2.1 = fd)).map fun entry => (entry.1, entry.2.2)

theorem stampsOf_append (fd : Int) (marks more : List (Nat × Int × Latch.Mark)) :
    stampsOf fd (marks ++ more) = stampsOf fd marks ++ stampsOf fd more := by
  simp [stampsOf]

theorem map_stampsOf (fd : Int) (marks : List (Nat × Int × Latch.Mark)) :
    (stampsOf fd marks).map Prod.snd = marksOf fd (marks.map Prod.snd) := by
  simp [stampsOf, marksOf, List.filter_map, Function.comp_def]

theorem stampsOf_stamps (s : Clocked n τ κ μ) (e : Bridge.Event n τ κ μ) (fd : Int) :
    stampsOf fd (s.stamps (.node e)) =
      (marksOf fd (tickMarks s.system e)).map fun mark => (s.now, mark) := by
  simp [stampsOf, stamps, marksOf, List.filter_map, Function.comp_def]

/-- Whether an event is an expiration of this timerfd. -/
def expirations (fd : Int) : Bridge.Event n τ κ μ → Nat
  | .expire tfd => if tfd = fd then 1 else 0
  | _ => 0

theorem times_eq_nil_of_other {mark other : Latch.Mark} (hne : other ≠ mark)
    {marks : List (Int × Latch.Mark)} (h : ∀ entry ∈ marks, entry.2 = other) {fd : Int}
    {now : Nat} : times mark ((marksOf fd marks).map fun mark => (now, mark)) = [] := by
  apply List.eq_nil_iff_forall_not_mem.mpr
  intro time htime
  obtain ⟨mark', hmark', heq⟩ := List.mem_map.mp (mem_times.mp htime)
  obtain ⟨entry, hentry, rfl⟩ := List.mem_map.mp hmark'
  cases heq
  exact hne (h entry (List.mem_of_mem_filter hentry)).symm

/-- An expiration is seen when a timerfd expires, and only then. -/
theorem times_raised_stamps (s : Clocked n τ κ μ) (e : Bridge.Event n τ κ μ) (fd : Int) :
    times .raised (stampsOf fd (s.stamps (.node e))) =
      List.replicate (expirations fd e) s.now := by
  rw [stampsOf_stamps]
  cases e with
  | expire tfd =>
      simp only [tickMarks, marksOf_single, expirations]
      split <;> simp [times]
  | read =>
      have hmark : ∀ entry ∈ tickMarks s.system .read, entry.2 = .taken := by
        simp only [tickMarks]
        split
        · split <;> simp
        · simp
      exact times_eq_nil_of_other (by decide) hmark
  | enqueue =>
      have hmark : ∀ entry ∈ tickMarks s.system .enqueue, entry.2 = .delivered := by
        simp only [tickMarks]
        split
        · split <;> simp
        · simp
      exact times_eq_nil_of_other (by decide) hmark
  | _ => rfl

theorem mem_stamps_now (s : Clocked n τ κ μ) (e : Event n τ κ μ) :
    ∀ entry ∈ s.stamps e, entry.1 = s.now := by
  intro entry hentry
  cases e with
  | node e =>
      obtain ⟨mark, -, rfl⟩ := List.mem_map.mp hentry
      rfl
  | pass ns => cases hentry

/-- The stamps are in order, and none is of a time to come. -/
theorem ordered {typeName : τ → String} {s : Clocked n τ κ μ}
    {marks : List (Nat × Int × Latch.Mark)} (h : Observed typeName s marks) :
    InOrder marks ∧ ∀ entry ∈ marks, entry.1 ≤ s.now := by
  refine Reachable.keeps h
    (I := fun p => InOrder p.2 ∧ ∀ entry ∈ p.2, entry.1 ≤ p.1.now)
    ⟨show InOrder [] from List.Pairwise.nil, fun entry hentry => by cases hentry⟩ ?_
  rintro ⟨s, marks⟩ e ⟨t, more⟩ ⟨hordered, hpast⟩ hstep
  obtain ⟨hstep, hmarks⟩ := observe_eq_some.mp hstep
  dsimp only at hstep hmarks hordered hpast ⊢
  have hnow : s.now ≤ t.now := by
    cases moves hstep with
    | node e system => simp
    | passed ns => exact Nat.le_add_right _ _
  rw [hmarks]
  refine ⟨hordered.append_now hpast (mem_stamps_now s e), ?_⟩
  intro entry hentry
  obtain hold | hnew := List.mem_append.mp hentry
  · exact (hpast entry hold).trans hnow
  · exact (mem_stamps_now s e entry hnew).le.trans hnow

theorem ordered_stampsOf {marks : List (Nat × Int × Latch.Mark)} (h : InOrder marks) (fd : Int) :
    InOrder (stampsOf fd marks) :=
  (List.Pairwise.filter _ h).map _ fun _ _ hle => hle

section Beats
variable {s t : Clocked n τ κ μ} {typeName : τ → String}

/-- A timerfd that was set at `start`, with equal `it_value` and `it_interval`. -/
structure Beating (s : Clocked n τ κ μ) (fd : Int) (start period : Nat)
    (expired : List Nat) : Prop where
  isOpen : fd ∈ s.system.node.kernel.isOpen
  armed : ∃ spec, s.system.node.kernel.armed fd = some spec ∧
    Node.nanoseconds spec.value = period ∧ Node.nanoseconds spec.interval = period
  since : s.since fd = start
  beats : expired = (List.range (s.fired fd)).map fun i => start + (i + 1) * period
  ahead : s.now ≤ start + (s.fired fd + 1) * period

theorem Beating.expiry_eq {fd : Int} {start period : Nat} {expired : List Nat}
    (h : Beating s fd start period expired) (positive : 0 < period) :
    s.expiry fd = some ((start + (s.fired fd + 1) * period : Nat) : Int) := by
  obtain ⟨spec, harmed, hvalue, hinterval⟩ := h.armed
  have hpos : (0 : Int) < period := by exact_mod_cast positive
  simp only [expiry, harmed, Option.bind_some, hvalue, hinterval, hpos, or_true, if_true, h.since]
  congr 1
  push_cast
  ring

theorem since_after (e : Bridge.Event n τ κ μ) (system : System n τ κ μ) {fd : Int}
    (other : ∀ fd' periodMs callback, e = .startTimer fd' periodMs callback → fd ≠ fd') :
    (s.after e system).since fd = s.since fd ∧
      (s.after e system).fired fd = s.fired fd + expirations fd e := by
  cases e with
  | startTimer fd' periodMs callback =>
      have hne := other fd' periodMs callback rfl
      simp [after, expirations, hne]
  | expire tfd =>
      by_cases htfd : tfd = fd
      · subst htfd
        simp [after, expirations]
      · have hne : fd ≠ tfd := fun heq => htfd heq.symm
        simp [after, expirations, hne, htfd]
  | _ => exact ⟨rfl, rfl⟩

/-- Expirations come when they are due. -/
theorem Beating.beat {fd : Int} {start period : Nat} {expired : List Nat}
    (h : Beating s fd start period expired) (positive : 0 < period) {e : Bridge.Event n τ κ μ}
    (punctual : s.punctual e = true) :
    List.replicate (expirations fd e) s.now =
      (List.range (expirations fd e)).map fun i => start + (s.fired fd + i + 1) * period := by
  cases e with
  | expire tfd =>
      by_cases htfd : tfd = fd
      · subst htfd
        have hexact := (h.expiry_eq positive).symm.trans (of_decide_eq_true punctual)
        have hnow : start + (s.fired tfd + 1) * period = s.now := by
          exact_mod_cast Option.some.inj hexact
        simp [expirations, hnow]
      · simp [expirations, htfd]
  | _ => rfl

theorem Beating.step {fd : Int} {start period : Nat} {marks : List (Nat × Int × Latch.Mark)}
    (h : Beating s fd start period (times .raised (stampsOf fd marks))) (positive : 0 < period)
    {e : Event n τ κ μ} (hstep : Clocked.step typeName s e = some t) :
    Beating t fd start period (times .raised (stampsOf fd (marks ++ s.stamps e))) := by
  rw [stampsOf_append, times_append]
  cases moves hstep with
  | passed ns may =>
      have hdue := may fd h.isOpen _ (h.expiry_eq positive)
      refine ⟨h.isOpen, h.armed, h.since, ?_, ?_⟩
      · simpa [stamps, stampsOf, times] using h.beats
      · dsimp only
        exact_mod_cast hdue
  | node e system punctual move =>
      obtain ⟨hopen, harmed⟩ := armed_kept move h.isOpen
      have hother : ∀ fd' periodMs callback, e = .startTimer fd' periodMs callback → fd ≠ fd' := by
        rintro fd' periodMs callback rfl rfl
        exact (kernel_started move).1 h.isOpen
      obtain ⟨hsince, hfired⟩ := since_after (s := s) e system hother
      refine ⟨by simpa using hopen, ?_, hsince.trans h.since, ?_, ?_⟩
      · rw [after_system, harmed]
        exact h.armed
      · rw [times_raised_stamps, hfired, h.beat positive punctual, List.range_add, List.map_append,
          List.map_map, ← h.beats]
        rfl
      · rw [after_now, hfired]
        have hmono : (s.fired fd + 1) * period ≤
            (s.fired fd + expirations fd e + 1) * period :=
          Nat.mul_le_mul_right period (by omega)
        exact h.ahead.trans (Nat.add_le_add_left hmono start)

/-- A timer that is not armed never expires. -/
theorem silent_step {fd : Int} {marks : List (Nat × Int × Latch.Mark)}
    (isOpen : fd ∈ s.system.node.kernel.isOpen) (off : s.system.node.kernel.armed fd = none)
    (none_so_far : times .raised (stampsOf fd marks) = []) {e : Event n τ κ μ}
    (hstep : Clocked.step typeName s e = some t) :
    fd ∈ t.system.node.kernel.isOpen ∧ t.system.node.kernel.armed fd = none ∧
      times .raised (stampsOf fd (marks ++ s.stamps e)) = [] := by
  rw [stampsOf_append, times_append, none_so_far]
  cases moves hstep with
  | passed ns may => exact ⟨isOpen, off, rfl⟩
  | node e system punctual move =>
      obtain ⟨hopen, harmed⟩ := armed_kept move isOpen
      rw [after_system, harmed, times_raised_stamps]
      refine ⟨hopen, off, ?_⟩
      cases e with
      | expire tfd =>
          have hne : tfd ≠ fd := by
            rintro rfl
            simp [Bridge.step, off] at move
          simp [expirations, hne]
      | _ => rfl

end Beats

/-- How a timer that was created at `start` keeps time. -/
structure KeepsTime (s : Clocked n τ κ μ) (marks : List (Nat × Latch.Mark)) (callback : κ)
    (fd : Int) (start period : Nat) : Prop where
  /-- Each delivery is one tick for the pool, and the pool gets no others. -/
  enqueued : acceptedFrom s.system fd = ticks callback (marks.map Prod.snd)
  /-- The first tick comes after a period at the earliest, the second after two. -/
  never_early : ∀ k time, (times .delivered marks)[k]? = some time →
    start + (k + 1) * period ≤ time
  /-- However late the loop is, it makes up for no more than two ticks at once. -/
  never_burst : ∀ x y,
    ((times .delivered marks).filter (within x y)).length ≤ (y - x) / period + 3
  /-- A loop that is not behind has ticked since the last whole period. -/
  followed : 0 < period → s.system.node.kernel.counter fd = 0 → inFlight s.system fd = [] →
    ∀ j, start + (j + 1) * period < s.now →
      ∃ time ∈ times .delivered marks, start + (j + 1) * period ≤ time
  disarmed : period = 0 → times .delivered marks = []

theorem known_run {typeName : τ → String} {s t : Clocked n τ κ μ}
    {marks more : List (Nat × Int × Latch.Mark)}
    (hrun : Runs.Reachable (observe (step typeName) stamps) (s, marks) (t, more))
    (h : Observed typeName s marks) {handler : Handler τ κ} (known : Known s.system handler) :
    Known t.system handler := by
  refine hrun.keepsUnder (I := fun p => Observed typeName p.1 p.2)
    (J := fun p => Known p.1.system handler) (fun _ hp => h.trans hp) known ?_
  rintro ⟨s, marks⟩ e ⟨t, more⟩ hs hknown hstep
  obtain ⟨hstep, -⟩ := observe_eq_some.mp hstep
  dsimp only at hstep hs hknown ⊢
  cases moves hstep with
  | node e system punctual move =>
      rw [after_system]
      exact known_kept (wiring hs.forget.unobserved) move hknown
  | passed ns may => exact hknown

/-- From the creation of a timer on, it is either beating or was not armed at all. -/
theorem beating_run {typeName : τ → String} {s t u : Clocked n τ κ μ}
    {before marks : List (Nat × Int × Latch.Mark)} (h : Observed typeName s before) {fd : Nat}
    {periodMs : Int} {callback : κ}
    (start : step typeName s (.node (.startTimer fd periodMs callback)) = some t)
    (hrun : Runs.Reachable (observe (step typeName) stamps) (t, before) (u, marks)) :
    (0 < periodMs → Beating u fd s.now (periodMs.toNat * 1000000)
        (times .raised (stampsOf fd marks))) ∧
      (periodMs = 0 → times .raised (stampsOf fd marks) = []) := by
  obtain ⟨system, hmove, rfl⟩ := node_step start
  obtain ⟨hfresh, hlegal, hkernel⟩ := kernel_started hmove
  have harmed := armed_started hmove
  have hopen : (fd : Int) ∈ system.node.kernel.isOpen := by
    rw [hkernel, Kernel.isOpen_timerfdSettime, (Kernel.openFd_some hfresh).2.1]
    exact Finset.mem_insert_self _ _
  have hnone : stampsOf fd before = [] := by
    have hmarks := (ticking h.forget).marksOf_fresh (wiring h.forget.unobserved) hfresh
    rw [← map_stampsOf] at hmarks
    exact List.map_eq_nil_iff.mp hmarks
  constructor
  · intro hpos
    have hperiod : 0 < periodMs.toNat * 1000000 := by omega
    refine hrun.keeps (I := fun p => Beating p.1 fd s.now (periodMs.toNat * 1000000)
      (times .raised (stampsOf fd p.2))) ?_ ?_
    · rw [if_neg (by omega)] at harmed
      obtain ⟨hvalue, hinterval⟩ := Node.nanoseconds_timerSpec periodMs
      refine ⟨hopen, ⟨_, harmed, ?_, ?_⟩, by simp [after], ?_, ?_⟩
      · rw [hvalue]
        omega
      · rw [hinterval]
        omega
      · simp [hnone, after, times]
      · simp [after]
    · rintro ⟨s, marks⟩ e ⟨t, more⟩ hs hstep
      obtain ⟨hstep, hmarks⟩ := observe_eq_some.mp hstep
      dsimp only at hstep hmarks hs ⊢
      rw [hmarks]
      exact hs.step hperiod hstep
  · intro hzero
    rw [if_pos hzero] at harmed
    have hsilent := hrun.keeps
      (I := fun p => (fd : Int) ∈ p.1.system.node.kernel.isOpen ∧
        p.1.system.node.kernel.armed fd = none ∧ times .raised (stampsOf fd p.2) = [])
      ⟨hopen, harmed, by simp [hnone, times]⟩ (by
        rintro ⟨s, marks⟩ e ⟨t, more⟩ ⟨hopen, hoff, hnone⟩ hstep
        obtain ⟨hstep, hmarks⟩ := observe_eq_some.mp hstep
        dsimp only at hstep hmarks hopen hoff hnone ⊢
        rw [hmarks]
        exact silent_step hopen hoff hnone hstep)
    exact hsilent.2.2

section Keeping
variable {u : Clocked n τ κ μ} {marks : List (Nat × Latch.Mark)} {callback : κ} {fd : Int}
  {start period : Nat}

theorem keepsTime_of_beating (positive : 0 < period)
    (enqueued : acceptedFrom u.system fd = ticks callback (marks.map Prod.snd))
    (ordered : InOrder marks)
    (latched : run Latch.step Latch.clear (marks.map Prod.snd) = some (latchOf u.system fd))
    (h : Beating u fd start period (times .raised marks)) :
    KeepsTime u marks callback fd start period := by
  refine ⟨enqueued, ?_, ?_, ?_, ?_⟩
  · intro k time htime
    obtain ⟨expired, hexpired, hle⟩ := times_le_of_lag ordered (delivered_lags latched) htime
    rw [h.beats, List.getElem?_map] at hexpired
    obtain ⟨i, hi, rfl⟩ := Option.map_eq_some_iff.mp hexpired
    obtain ⟨hlt, rfl⟩ := List.getElem?_eq_some_iff.mp hi
    simpa using hle
  · intro x y
    exact length_window_le ordered positive h.beats (delivered_lags_by_two latched) x y
  · intro _ hcounter hflight j hj
    refine delivered_since latched ordered hcounter (by simp [latchOf, hflight]) ?_
    rw [h.beats, List.mem_map]
    refine ⟨j, List.mem_range.mpr ?_, rfl⟩
    -- the clock has not got past the next expiration
    by_contra hge
    have hmono : (u.fired fd + 1) * period ≤ (j + 1) * period :=
      Nat.mul_le_mul_right period (by omega)
    have hahead := h.ahead
    omega
  · intro hzero
    omega

theorem keepsTime_of_silent (zero : period = 0)
    (enqueued : acceptedFrom u.system fd = ticks callback (marks.map Prod.snd))
    (latched : run Latch.step Latch.clear (marks.map Prod.snd) = some (latchOf u.system fd))
    (silent : times .raised marks = []) : KeepsTime u marks callback fd start period := by
  have hnone : times .delivered marks = [] := by
    have hle := delivered_lags latched marks [] (List.append_nil marks).symm
    rw [← length_times, ← length_times, silent] at hle
    exact List.length_eq_zero_iff.mp (Nat.le_zero.mp hle)
  refine ⟨enqueued, ?_, ?_, ?_, fun _ => hnone⟩
  · intro k time htime
    rw [hnone] at htime
    cases htime
  · intro x y
    rw [hnone]
    exact Nat.zero_le _
  · intro hpositive
    omega

end Keeping

/-- In every run a timer ticks by the clock, with the period that was asked for. -/
theorem wall_timer_keeps_time {typeName : τ → String} {s t u : Clocked n τ κ μ}
    {before marks : List (Nat × Int × Latch.Mark)} (h : Observed typeName s before) {fd : Nat}
    {periodMs : Int} {callback : κ}
    (start : step typeName s (.node (.startTimer fd periodMs callback)) = some t)
    (hrun : Runs.Reachable (observe (step typeName) stamps) (t, before) (u, marks)) :
    KeepsTime u (stampsOf fd marks) callback fd s.now (periodMs.toNat * 1000000) := by
  obtain ⟨hbeating, hsilent⟩ := beating_run h start hrun
  obtain ⟨system, hmove, ht⟩ := node_step start
  have hstarted : Observed typeName t before := by
    refine h.step (observe_eq_some.mpr ⟨start, ?_⟩)
    simp [stamps, tickMarks]
  have hu : Observed typeName u marks := hstarted.trans hrun
  have hknown : Known u.system (.timer callback fd) := by
    refine known_run hrun hstarted ?_
    rw [ht, after_system]
    exact .inr (kernel_startTimer hmove).1
  have hordered := ordered_stampsOf (ordered hu).1 (fd : Int)
  have hlatch := (ticking hu.forget).latched callback fd hknown
  rw [← map_stampsOf] at hlatch
  have hticks := (ticking hu.forget).logged callback fd hknown
  rw [← map_stampsOf] at hticks
  obtain hzero | hpos := (kernel_started hmove).2.1.eq_or_lt
  · exact keepsTime_of_silent (by omega) hticks hlatch (hsilent hzero.symm)
  · exact keepsTime_of_beating (by omega) hticks hordered hlatch (hbeating hpos)

/-- A timer of ten milliseconds, whose loop is up to date at first and then falls behind. -/
theorem wall_timer_keeps_time_late :
    ∃ (u : Clocked 1 Unit Unit Unit) (marks : List (Nat × Latch.Mark)),
      times .delivered marks = [10000012, 40000007] ∧ u.now = 40000007 ∧
        KeepsTime u marks () 5 7 10000000 := by
  have hstart : run (observe (step fun _ => "HelloWorld") stamps) (init 1 Unit Unit Unit, [])
      [.pass 7] = some _ := rfl
  obtain ⟨t, u, marks, hset, hrun, htimes, hnow⟩ :
      ∃ (t u : Clocked 1 Unit Unit Unit) (marks : List (Nat × Int × Latch.Mark)),
        step (fun _ => "HelloWorld") { init 1 Unit Unit Unit with now := 7 }
          (.node (.startTimer 5 10 ())) = some t ∧
        run (observe (step fun _ => "HelloWorld") stamps) (t, [])
          [.node .register, .node (.loop .run), .node (.loop .test), .node (.loop .wait),
            .pass 10000000, .node (.expire 5), .pass 5, .node (.loop (.result (.events [5]))),
            .node (.loop .next), .node .read, .node .enqueue, .pass 9999995, .node (.expire 5),
            .pass 10000000, .node (.expire 5), .pass 10000000, .node (.expire 5),
            .node (.notify none), .node (.loop .ret), .node (.loop .next), .node (.loop .test),
            .node (.loop .wait), .node (.loop (.result (.events [5]))), .node (.loop .next),
            .node .read, .node .enqueue] = some (u, marks) ∧
        times .delivered (stampsOf 5 marks) = [10000012, 40000007] ∧ u.now = 40000007 := by
    exact ⟨_, _, _, rfl, rfl, rfl, rfl⟩
  exact ⟨u, _, htimes, hnow,
    wall_timer_keeps_time (reachable_of_run hstart) hset (reachable_of_run hrun)⟩

end Clocked

end TinyMiddleware.Bridge
