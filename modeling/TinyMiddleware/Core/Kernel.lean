import Mathlib.Data.Finset.Basic
import Mathlib.Data.Finset.Insert
import Mathlib.Data.List.Nodup

/-! The kernel's side of one `EventLoop`: the process's descriptors, the counters
behind eventfds and timerfds, and the interest list of its epoll instance. -/
namespace TinyMiddleware.Core

structure Timespec where
  sec : Int
  nsec : Int
  deriving DecidableEq, Repr

structure ITimerSpec where
  interval : Timespec
  value : Timespec
  deriving DecidableEq, Repr

def Timespec.legal (t : Timespec) : Bool :=
  decide (0 ≤ t.sec) && decide (0 ≤ t.nsec) && decide (t.nsec ≤ 999999999)

theorem Timespec.legal_iff (t : Timespec) :
    t.legal = true ↔ 0 ≤ t.sec ∧ 0 ≤ t.nsec ∧ t.nsec ≤ 999999999 := by
  simp [Timespec.legal, and_assoc]

/-- Closing the last reference to a descriptor takes it off the interest list, so
the list only ever has open descriptors on it. -/
structure Kernel where
  isOpen : Finset Int
  interest : Finset Int
  counter : Int → Nat
  armed : Int → Option ITimerSpec
  interest_open : interest ⊆ isOpen
  nonneg : ∀ fd ∈ isOpen, 0 ≤ fd

namespace Kernel

def empty : Kernel where
  isOpen := ∅
  interest := ∅
  counter := fun _ => 0
  armed := fun _ => none
  interest_open := Finset.Subset.refl _
  nonneg := by simp

/-- `eventfd` and `timerfd_create`. The kernel hands out any number that is not in
use, or refuses; the caller then sees -1. -/
def openFd (k : Kernel) (offer : Option Nat) : Kernel × Int :=
  match offer with
  | none => (k, -1)
  | some fd =>
      if (fd : Int) ∈ k.isOpen then (k, -1)
      else
        ({ isOpen := insert (fd : Int) k.isOpen
           interest := k.interest
           counter := Function.update k.counter fd 0
           armed := Function.update k.armed fd none
           interest_open := k.interest_open.trans (Finset.subset_insert _ _)
           nonneg := by
             intro d hd
             obtain rfl | hd := Finset.mem_insert.mp hd
             · exact Int.natCast_nonneg fd
             · exact k.nonneg d hd }, fd)

/-- `close`. Anything but an open descriptor is `EBADF` and changes nothing. -/
def close (k : Kernel) (fd : Int) : Kernel where
  isOpen := k.isOpen.erase fd
  interest := k.interest.erase fd
  counter := k.counter
  armed := Function.update k.armed fd none
  interest_open := Finset.erase_subset_erase fd k.interest_open
  nonneg := fun d hd => k.nonneg d (Finset.mem_of_mem_erase hd)

/-- `epoll_ctl` with `EPOLL_CTL_ADD`, and whether it succeeds. A descriptor that is
not open (`EBADF`) or already on the list (`EEXIST`) always fails; `permitted` is
the kernel's say in the rest (`EPERM`, `ENOSPC`, `ENOMEM`). -/
def epollAdd (k : Kernel) (fd : Int) (permitted : Bool) : Kernel × Bool :=
  if h : permitted = true ∧ fd ∈ k.isOpen ∧ fd ∉ k.interest then
    ({ k with
       interest := insert fd k.interest
       interest_open := Finset.insert_subset h.2.1 k.interest_open }, true)
  else (k, false)

def setCounter (k : Kernel) (fd : Int) (value : Nat) : Kernel :=
  { k with counter := Function.update k.counter fd value }

/-- `timerfd_settime`, and whether it succeeds: an illegal timespec is `EINVAL`, and
an all-zero `it_value` disarms the timer. -/
def timerfdSettime (k : Kernel) (fd : Int) (spec : ITimerSpec) : Kernel × Bool :=
  if spec.value.legal && spec.interval.legal then
    ({ k with
       counter := Function.update k.counter fd 0
       armed := Function.update k.armed fd
        (if spec.value = ⟨0, 0⟩ then none else some spec) }, true)
  else (k, false)

def eventfdMax : Nat := 0xfffffffffffffffe

/-- A `write` of 1 to an eventfd opened with `EFD_NONBLOCK`: where the counter
would overflow it fails with `EAGAIN`. -/
def eventfdWrite (k : Kernel) (fd : Int) : Kernel :=
  if k.counter fd < eventfdMax then k.setCounter fd (k.counter fd + 1) else k

/-- What `epoll_wait` may report, level-triggered. -/
def readable (k : Kernel) (fd : Int) : Bool :=
  decide (fd ∈ k.interest) && decide (0 < k.counter fd)

/-- `MAX_EVENTS`. -/
def maxEvents : Nat := 16

/-- With no timeout `epoll_wait` returns at least one event, at most `MAX_EVENTS`,
each for another descriptor. -/
def mayReport (k : Kernel) (fds : List Int) : Bool :=
  !fds.isEmpty && decide fds.Nodup && decide (fds.length ≤ maxEvents) && fds.all k.readable

@[simp] theorem counter_setCounter (k : Kernel) (fd d : Int) (value : Nat) :
    (k.setCounter fd value).counter d = if d = fd then value else k.counter d :=
  Function.update_apply _ _ _ _

@[simp] theorem interest_eventfdWrite (k : Kernel) (fd : Int) :
    (k.eventfdWrite fd).interest = k.interest := by
  unfold eventfdWrite
  split <;> rfl

@[simp] theorem isOpen_eventfdWrite (k : Kernel) (fd : Int) :
    (k.eventfdWrite fd).isOpen = k.isOpen := by
  unfold eventfdWrite
  split <;> rfl

/-- A write never leaves the counter at zero, whether it succeeds or not. -/
theorem eventfdWrite_pos (k : Kernel) (fd : Int) : 0 < (k.eventfdWrite fd).counter fd := by
  unfold eventfdWrite
  split
  · simp
  · next hmax =>
      have hpos : 0 < eventfdMax := by decide
      omega

theorem counter_eventfdWrite_of_ne (k : Kernel) {fd d : Int} (h : d ≠ fd) :
    (k.eventfdWrite fd).counter d = k.counter d := by
  unfold eventfdWrite
  split
  · simp [h]
  · rfl

@[simp] theorem isOpen_timerfdSettime (k : Kernel) (fd : Int) (spec : ITimerSpec) :
    (k.timerfdSettime fd spec).1.isOpen = k.isOpen := by
  unfold timerfdSettime
  split <;> rfl

@[simp] theorem interest_timerfdSettime (k : Kernel) (fd : Int) (spec : ITimerSpec) :
    (k.timerfdSettime fd spec).1.interest = k.interest := by
  unfold timerfdSettime
  split <;> rfl

@[simp] theorem armed_eventfdWrite (k : Kernel) (fd : Int) :
    (k.eventfdWrite fd).armed = k.armed := by
  unfold eventfdWrite
  split <;> rfl

/-- A new descriptor is not armed. -/
theorem armed_of_openFd {k : Kernel} {offer : Option Nat} {d : Int} {spec : ITimerSpec}
    (h : (k.openFd offer).1.armed d = some spec) : k.armed d = some spec := by
  unfold openFd at h
  split at h
  · exact h
  · split at h
    · exact h
    · simp only [Function.update_apply] at h
      split at h
      · cases h
      · exact h

theorem armed_timerfdSettime (k : Kernel) {fd d : Int} (h : d ≠ fd) (spec : ITimerSpec) :
    (k.timerfdSettime fd spec).1.armed d = k.armed d := by
  unfold timerfdSettime
  split
  · exact Function.update_of_ne h _ _
  · rfl

theorem counter_timerfdSettime {k : Kernel} {fd : Int} {spec : ITimerSpec}
    (h : (k.timerfdSettime fd spec).2 = true) : (k.timerfdSettime fd spec).1.counter fd = 0 := by
  unfold timerfdSettime at h ⊢
  split
  · exact Function.update_self _ _ _
  · next hillegal => simp [hillegal] at h

theorem openFd_some {k : Kernel} {fd : Nat} (fresh : (fd : Int) ∉ k.isOpen) :
    (k.openFd (some fd)).2 = fd ∧ (k.openFd (some fd)).1.isOpen = insert (fd : Int) k.isOpen ∧
      (k.openFd (some fd)).1.interest = k.interest := by
  simp [openFd, fresh]

theorem openFd_refused {k : Kernel} {offer : Option Nat}
    (h : ∀ fd, offer = some fd → (fd : Int) ∈ k.isOpen) : k.openFd offer = (k, -1) := by
  cases offer with
  | none => rfl
  | some fd => simp [openFd, h fd rfl]

theorem neg_notMem_isOpen (k : Kernel) : (-1 : Int) ∉ k.isOpen := by
  intro hmem
  have hnonneg := k.nonneg (-1) hmem
  omega

theorem openFd_notMem (k : Kernel) (offer : Option Nat) : (k.openFd offer).2 ∉ k.isOpen := by
  unfold openFd
  split
  · exact neg_notMem_isOpen k
  · split
    · exact neg_notMem_isOpen k
    · next hfresh => exact hfresh

theorem isOpen_subset_openFd (k : Kernel) (offer : Option Nat) :
    k.isOpen ⊆ (k.openFd offer).1.isOpen := by
  unfold openFd
  split
  · exact Finset.Subset.refl _
  · split
    · exact Finset.Subset.refl _
    · exact Finset.subset_insert _ _

@[simp] theorem interest_openFd (k : Kernel) (offer : Option Nat) :
    (k.openFd offer).1.interest = k.interest := by
  unfold openFd
  split
  · rfl
  · split <;> rfl

theorem isOpen_openFd (k : Kernel) (offer : Option Nat) :
    (k.openFd offer).1.isOpen =
      if (k.openFd offer).2 = -1 then k.isOpen else insert (k.openFd offer).2 k.isOpen := by
  by_cases hfresh : ∃ fd : Nat, offer = some fd ∧ (fd : Int) ∉ k.isOpen
  · obtain ⟨fd, rfl, hfresh⟩ := hfresh
    obtain ⟨hfd, hopen, -⟩ := openFd_some hfresh
    rw [hfd, hopen, if_neg (by omega)]
  · rw [openFd_refused fun fd hfd => by_contra fun h => hfresh ⟨fd, hfd, h⟩, if_pos rfl]

/-- The caller holds an open descriptor exactly when the kernel gave it a fresh one. -/
theorem mem_isOpen_openFd (k : Kernel) (offer : Option Nat) :
    (k.openFd offer).2 ∈ (k.openFd offer).1.isOpen ↔
      ∃ fd : Nat, offer = some fd ∧ (fd : Int) ∉ k.isOpen := by
  constructor
  · intro hmem
    by_contra hnone
    have hrefused := openFd_refused fun fd hfd => by_contra fun h => hnone ⟨fd, hfd, h⟩
    rw [hrefused] at hmem
    exact neg_notMem_isOpen k hmem
  · rintro ⟨fd, rfl, hfresh⟩
    obtain ⟨hfd, hopen, -⟩ := openFd_some hfresh
    rw [hfd, hopen]
    exact Finset.mem_insert_self _ _

/-- What was just opened, if anything, is closed again. -/
theorem close_openFd (k : Kernel) (offer : Option Nat) :
    ((k.openFd offer).1.close (k.openFd offer).2).isOpen = k.isOpen ∧
      ((k.openFd offer).1.close (k.openFd offer).2).interest = k.interest := by
  by_cases hfresh : ∃ fd : Nat, offer = some fd ∧ (fd : Int) ∉ k.isOpen
  · obtain ⟨fd, rfl, hfresh⟩ := hfresh
    obtain ⟨hfd, hopen, hinterest⟩ := openFd_some hfresh
    constructor
    · simp only [close, hfd, hopen, Finset.erase_insert hfresh]
    · simp only [close, hfd, hinterest]
      exact Finset.erase_eq_of_notMem fun h => hfresh (k.interest_open h)
  · rw [openFd_refused fun fd hfd => by_contra fun h => hfresh ⟨fd, hfd, h⟩]
    have hneg := neg_notMem_isOpen k
    exact ⟨Finset.erase_eq_of_notMem hneg,
      Finset.erase_eq_of_notMem fun h => hneg (k.interest_open h)⟩

theorem readable_iff (k : Kernel) (fd : Int) :
    k.readable fd = true ↔ fd ∈ k.interest ∧ 0 < k.counter fd := by
  simp [readable]

theorem mayReport_iff (k : Kernel) (fds : List Int) :
    k.mayReport fds = true ↔
      fds ≠ [] ∧ fds.Nodup ∧ fds.length ≤ maxEvents ∧ ∀ fd ∈ fds, k.readable fd = true := by
  simp [mayReport, and_assoc]

theorem epollAdd_eq_true {k : Kernel} {fd : Int} {permitted : Bool} :
    (k.epollAdd fd permitted).2 = true ↔
      permitted = true ∧ fd ∈ k.isOpen ∧ fd ∉ k.interest := by
  unfold epollAdd
  split <;> simp_all

theorem epollAdd_of_failed {k : Kernel} {fd : Int} {permitted : Bool}
    (h : (k.epollAdd fd permitted).2 = false) : (k.epollAdd fd permitted).1 = k := by
  unfold epollAdd at h ⊢
  split
  · next hok => rw [dif_pos hok] at h; cases h
  · rfl

theorem interest_epollAdd {k : Kernel} {fd : Int} {permitted : Bool}
    (h : (k.epollAdd fd permitted).2 = true) :
    (k.epollAdd fd permitted).1.interest = insert fd k.interest := by
  unfold epollAdd at h ⊢
  split
  · rfl
  · next hfail => rw [dif_neg hfail] at h; cases h

@[simp] theorem isOpen_epollAdd (k : Kernel) (fd : Int) (permitted : Bool) :
    (k.epollAdd fd permitted).1.isOpen = k.isOpen := by
  unfold epollAdd
  split <;> rfl

@[simp] theorem counter_epollAdd (k : Kernel) (fd : Int) (permitted : Bool) :
    (k.epollAdd fd permitted).1.counter = k.counter := by
  unfold epollAdd
  split <;> rfl

@[simp] theorem armed_epollAdd (k : Kernel) (fd : Int) (permitted : Bool) :
    (k.epollAdd fd permitted).1.armed = k.armed := by
  unfold epollAdd
  split <;> rfl

theorem interest_subset_epollAdd (k : Kernel) (fd : Int) (permitted : Bool) :
    k.interest ⊆ (k.epollAdd fd permitted).1.interest := by
  unfold epollAdd
  split
  · exact Finset.subset_insert _ _
  · exact Finset.Subset.refl _

end Kernel

end TinyMiddleware.Core
