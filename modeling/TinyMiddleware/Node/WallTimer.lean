import TinyMiddleware.Node.Api

/-! Which periods `create_wall_timer` can arm. The period is split into seconds and
nanoseconds by truncating division, and a period of zero is a request to disarm. -/
namespace TinyMiddleware.Node

open TinyMiddleware.Core

variable {τ κ : Type}

/-- The values of `int`. -/
def InInt (x : Int) : Prop :=
  -2147483648 ≤ x ∧ x ≤ 2147483647

/-- The values of the `int` expressions in `create_wall_timer`, intermediate ones included. -/
def intExpressions (periodMs : Int) : List Int :=
  [periodMs.tdiv 1000, periodMs.tmod 1000, periodMs.tmod 1000 * 1000000]

def nanoseconds (t : Timespec) : Int :=
  t.sec * 1000000000 + t.nsec

/-- What `create_wall_timer` owes to its caller when the kernel gives it a descriptor and
`epoll_ctl` succeeds. -/
structure ArmsExactly (node : Node τ κ) (fd : Nat) (periodMs : Int) (callback : κ) : Prop where
  noOverflow : ∀ x ∈ intExpressions periodMs, InInt x
  exactly : (node.createWallTimer (some fd) true periodMs callback).2.isSome = true ↔
    ((node.createWallTimer (some fd) true periodMs callback).1.kernel.armed fd).isSome = true
  period : ∀ ctx, (node.createWallTimer (some fd) true periodMs callback).2 = some ctx →
    ctx.timerFd = fd ∧ ∃ spec,
      (node.createWallTimer (some fd) true periodMs callback).1.kernel.armed fd = some spec ∧
        nanoseconds spec.value = periodMs * 1000000 ∧
          nanoseconds spec.interval = periodMs * 1000000 ∧
            spec.value.legal = true ∧ spec.interval.legal = true
  refused : periodMs ≤ 0 →
    (node.createWallTimer (some fd) true periodMs callback).2 = none ∧
      (node.createWallTimer (some fd) true periodMs callback).1.timers = node.timers ∧
        (node.createWallTimer (some fd) true periodMs callback).1.loop.callbacks =
            node.loop.callbacks ∧
          (node.createWallTimer (some fd) true periodMs callback).1.kernel.isOpen =
            node.kernel.isOpen

/-- Quotient and remainder have the sign of the period. -/
theorem split_period (periodMs : Int) :
    1000 * periodMs.tdiv 1000 + periodMs.tmod 1000 = periodMs ∧
      -1000 < periodMs.tmod 1000 ∧ periodMs.tmod 1000 < 1000 ∧
        (0 ≤ periodMs → 0 ≤ periodMs.tdiv 1000 ∧ 0 ≤ periodMs.tmod 1000) ∧
          (periodMs ≤ 0 → periodMs.tdiv 1000 ≤ 0 ∧ periodMs.tmod 1000 ≤ 0) := by
  have hsplit := Int.mul_tdiv_add_tmod periodMs 1000
  have hupper := Int.tmod_lt_of_pos periodMs (b := 1000) (by decide)
  have hlower : -1000 < periodMs.tmod 1000 := by
    have hneg := Int.tmod_lt_of_pos (-periodMs) (b := 1000) (by decide)
    rw [Int.neg_tmod] at hneg
    omega
  refine ⟨hsplit, hlower, hupper, ?_, ?_⟩
  · intro hpos
    exact ⟨Int.tdiv_nonneg hpos (by decide), Int.tmod_nonneg 1000 hpos⟩
  · intro hneg
    have hquotient := Int.tdiv_nonneg (a := -periodMs) (b := 1000) (by omega) (by decide)
    have hremainder := Int.tmod_nonneg (a := -periodMs) 1000 (by omega)
    rw [Int.neg_tdiv] at hquotient
    rw [Int.neg_tmod] at hremainder
    omega

theorem inInt_intExpressions {periodMs : Int} (h : InInt periodMs) :
    ∀ x ∈ intExpressions periodMs, InInt x := by
  obtain ⟨hsplit, hlower, hupper, hpos, hneg⟩ := split_period periodMs
  unfold InInt at h ⊢
  intro x hx
  simp only [intExpressions, List.mem_cons, List.not_mem_nil, or_false] at hx
  obtain rfl | rfl | rfl := hx <;> omega

theorem legal_timerSpec_iff (periodMs : Int) :
    ((timerSpec periodMs).value.legal && (timerSpec periodMs).interval.legal) = true ↔
      0 ≤ periodMs := by
  obtain ⟨hsplit, hlower, hupper, hpos, hneg⟩ := split_period periodMs
  rw [Bool.and_eq_true, Timespec.legal_iff, Timespec.legal_iff]
  simp only [timerSpec]
  omega

theorem value_timerSpec_eq_zero_iff (periodMs : Int) :
    (timerSpec periodMs).value = ⟨0, 0⟩ ↔ periodMs = 0 := by
  obtain ⟨hsplit, hlower, hupper, hpos, hneg⟩ := split_period periodMs
  simp only [timerSpec, Timespec.mk.injEq]
  omega

theorem nanoseconds_timerSpec (periodMs : Int) :
    nanoseconds (timerSpec periodMs).value = periodMs * 1000000 ∧
      nanoseconds (timerSpec periodMs).interval = periodMs * 1000000 := by
  obtain ⟨hsplit, -⟩ := split_period periodMs
  simp only [timerSpec, nanoseconds]
  omega

section
variable {node : Node τ κ} {fd : Nat} {periodMs : Int}

/-- The timer is set, registered and kept; the kernel has armed it unless the period is zero. -/
theorem createWallTimer_of_legal (fresh : (fd : Int) ∉ node.kernel.isOpen) (legal : 0 ≤ periodMs)
    (callback : κ) :
    (node.createWallTimer (some fd) true periodMs callback).2 = some ⟨fd, callback⟩ ∧
      (node.createWallTimer (some fd) true periodMs callback).1.kernel.armed fd =
        if periodMs = 0 then none else some (timerSpec periodMs) := by
  have hfd := (Kernel.openFd_some fresh).1
  have hvalid : (fd : Int) ≠ -1 := by omega
  have hset := (legal_timerSpec_iff periodMs).mpr legal
  simp only [createWallTimer, prepareWallTimer, hfd, hvalid, if_false, Kernel.timerfdSettime, hset,
    if_true]
  refine ⟨rfl, ?_⟩
  simp only [addEvent, EventLoop.addEvent, Handler.fd, Kernel.armed_epollAdd,
    Function.update_self, value_timerSpec_eq_zero_iff]

/-- `timerfd_settime` fails, and the descriptor is closed by hand. -/
theorem createWallTimer_of_illegal (fresh : (fd : Int) ∉ node.kernel.isOpen)
    (illegal : periodMs < 0) (callback : κ) :
    node.createWallTimer (some fd) true periodMs callback =
      ({ node with kernel := (node.kernel.openFd (some fd)).1.close fd }, none) := by
  have hfd := (Kernel.openFd_some fresh).1
  have hvalid : (fd : Int) ≠ -1 := by omega
  have hset : ((timerSpec periodMs).value.legal && (timerSpec periodMs).interval.legal) =
      false := by
    rw [Bool.eq_false_iff, ne_eq, legal_timerSpec_iff]
    omega
  simp only [createWallTimer, prepareWallTimer, hfd, hvalid, if_false, Kernel.timerfdSettime, hset,
    Bool.false_eq_true]

end

/-- For a period of zero the caller gets a timer that the kernel has disarmed; all other
periods are treated right. -/
theorem armsExactly_iff {node : Node τ κ} {fd : Nat} (fresh : (fd : Int) ∉ node.kernel.isOpen)
    (period : BitVec 32) (callback : κ) :
    ArmsExactly node fd period.toInt callback ↔ period.toInt ≠ 0 := by
  have hint : InInt period.toInt := ⟨BitVec.le_toInt period, Int.le_of_lt_add_one period.toInt_lt⟩
  constructor
  · intro harms hzero
    have hrefused := (harms.refused (Int.le_of_eq hzero)).1
    rw [(createWallTimer_of_legal fresh (Int.le_of_eq hzero.symm) callback).1] at hrefused
    cases hrefused
  · intro hne
    obtain hpos | hneg := Int.lt_or_gt_of_ne hne.symm
    · obtain ⟨hreturned, harmed⟩ :=
        createWallTimer_of_legal fresh (Int.le_of_lt hpos) callback
      rw [if_neg hne] at harmed
      have hlegal := (legal_timerSpec_iff period.toInt).mpr (Int.le_of_lt hpos)
      obtain ⟨hvalue, hinterval⟩ := nanoseconds_timerSpec period.toInt
      refine ⟨inInt_intExpressions hint, ?_, ?_, ?_⟩
      · rw [hreturned, harmed]
        simp
      · intro ctx hctx
        rw [hreturned] at hctx
        cases Option.some.inj hctx
        exact ⟨rfl, _, harmed, hvalue, hinterval, Bool.and_eq_true_iff.mp hlegal⟩
      · intro hle
        omega
    · have hrefused := createWallTimer_of_illegal fresh hneg callback
      have hclosed := node.kernel.close_openFd (some fd)
      rw [(Kernel.openFd_some fresh).1] at hclosed
      refine ⟨inInt_intExpressions hint, ?_, ?_, ?_⟩
      · rw [hrefused]
        simp [Kernel.close]
      · intro ctx hctx
        rw [hrefused] at hctx
        cases hctx
      · intro _
        rw [hrefused]
        exact ⟨rfl, rfl, rfl, hclosed.1⟩

/-- The shortest period, on a new node. -/
theorem armsExactly_one : ArmsExactly (init Unit Unit) 5 (1#32).toInt () :=
  (armsExactly_iff (by decide) 1#32 ()).mpr (by decide)

theorem not_armsExactly :
    ¬ ∀ (node : Node Unit Unit) (fd : Nat) (period : BitVec 32), (fd : Int) ∉ node.kernel.isOpen →
      ArmsExactly node fd period.toInt () := by
  intro hall
  have hzero := hall (init Unit Unit) 5 0#32 (by decide)
  cases (hzero.refused (by decide)).1

end TinyMiddleware.Node
