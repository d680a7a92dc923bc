import TinyMiddleware.Lib.Runs
import Mathlib.Data.List.Induction

/-! A latch: it is raised any number of times, a reader takes all that has been raised
at once, and delivers once for each time that it took. -/
namespace TinyMiddleware

open Runs

structure Latch where
  count : Nat
  holding : Bool

namespace Latch

inductive Mark where
  | raised
  | taken
  | delivered
  deriving DecidableEq

def clear : Latch where
  count := 0
  holding := false

/-- Nothing can be taken where nothing has been raised. -/
def step (l : Latch) : Mark → Option Latch
  | .raised => some { l with count := l.count + 1 }
  | .taken => if 0 < l.count ∧ l.holding = false then some ⟨0, true⟩ else none
  | .delivered => if l.holding then some { l with holding := false } else none

inductive Moves (l : Latch) : Mark → Latch → Prop
  | raised : Moves l .raised ⟨l.count + 1, l.holding⟩
  | taken (some : 0 < l.count) (free : l.holding = false) : Moves l .taken ⟨0, true⟩
  | delivered (held : l.holding = true) : Moves l .delivered ⟨l.count, false⟩

theorem moves {l m : Latch} {mark : Mark} (h : l.step mark = some m) : Moves l mark m := by
  cases mark with
  | raised =>
      cases Option.some.inj h
      exact .raised
  | taken =>
      obtain ⟨⟨hsome, hfree⟩, h⟩ := Option.ite_none_right_eq_some.mp h
      cases Option.some.inj h
      exact .taken hsome hfree
  | delivered =>
      obtain ⟨hheld, h⟩ := Option.ite_none_right_eq_some.mp h
      cases Option.some.inj h
      exact .delivered hheld

variable {l m : Latch} {marks pre mid post : List Mark}

/-- A run over a list that is split falls into two. -/
theorem run_split (h : run step l (pre ++ post) = some m) :
    ∃ k, run step l pre = some k ∧ run step k post = some m := by
  rw [run_append] at h
  exact Option.bind_eq_some_iff.mp h

theorem run_cons {mark : Mark} (h : run step l (mark :: post) = some m) :
    ∃ k, Moves l mark k ∧ run step k post = some m := by
  obtain ⟨k, hstep, hrest⟩ := Option.bind_eq_some_iff.mp h
  exact ⟨k, moves hstep, hrest⟩

/-- Deliveries lag behind takes by what is held; takes lag behind raises. -/
theorem counts (h : run step l marks = some m) :
    marks.count .delivered + m.holding.toNat = marks.count .taken + l.holding.toNat ∧
      marks.count .taken + (if 0 < m.count then 1 else 0) ≤
        marks.count .raised + if 0 < l.count then 1 else 0 := by
  induction marks generalizing l with
  | nil =>
      cases Option.some.inj h
      simp
  | cons mark rest ih =>
      obtain ⟨k, hmove, hrest⟩ := run_cons h
      obtain ⟨hdelivered, htaken⟩ := ih hrest
      cases hmove with
      | raised => grind
      | taken hsome hfree => grind
      | delivered hheld => grind

theorem count_delivered_le (h : run step clear marks = some m) :
    marks.count .delivered ≤ marks.count .raised := by
  obtain ⟨hdelivered, htaken⟩ := counts h
  simp only [clear, Bool.toNat_false, Nat.add_zero, Nat.lt_irrefl, if_false] at hdelivered htaken
  omega

theorem empty_of_not_raised (h : run step l mid = some m) (empty : l.count = 0)
    (quiet : .raised ∉ mid) : m.count = 0 := by
  induction mid generalizing l with
  | nil =>
      cases Option.some.inj h
      exact empty
  | cons mark rest ih =>
      obtain ⟨k, hmove, hrest⟩ := run_cons h
      have hquiet : .raised ∉ rest := fun hmem => quiet (List.mem_cons_of_mem mark hmem)
      apply ih hrest ?_ hquiet
      cases hmove with
      | raised => exact absurd List.mem_cons_self quiet
      | taken => rfl
      | delivered => exact empty

/-- Between two takes something has been raised. -/
theorem raised_between (h : run step l (pre ++ .taken :: (mid ++ .taken :: post)) = some m) :
    .raised ∈ mid := by
  obtain ⟨k, -, hrest⟩ := run_split h
  obtain ⟨first, hfirst, hrest⟩ := run_cons hrest
  obtain ⟨second, hmid, hrest⟩ := run_split hrest
  obtain ⟨_, hsecond, _⟩ := run_cons hrest
  by_contra hquiet
  cases hfirst with
  | taken =>
      have hempty := empty_of_not_raised hmid rfl hquiet
      cases hsecond with
      | taken hsome => omega

/-- What is held has been taken since, and not been delivered. -/
theorem last_taken (h : run step l marks = some m) (free : l.holding = false)
    (held : m.holding = true) :
    ∃ before after, marks = before ++ .taken :: after ∧ .taken ∉ after ∧ .delivered ∉ after := by
  induction marks using List.reverseRecOn generalizing m with
  | nil =>
      cases Option.some.inj h
      rw [free] at held
      cases held
  | append_singleton marks mark ih =>
      obtain ⟨k, hbefore, hlast⟩ := run_split h
      obtain ⟨k', hmove, hnil⟩ := run_cons hlast
      cases Option.some.inj hnil
      cases hmove with
      | raised =>
          obtain ⟨before, after, rfl, htaken, hdelivered⟩ := ih hbefore held
          exact ⟨before, after ++ [.raised], by simp, by simp [htaken], by simp [hdelivered]⟩
      | taken => exact ⟨marks, [], rfl, List.not_mem_nil, List.not_mem_nil⟩
      | delivered => cases held

/-- Behind each delivery is a take, and the take behind a delivery comes after something
that was raised after the take behind the delivery before. -/
theorem raised_between_deliveries
    (h : run step clear (pre ++ .delivered :: (mid ++ .delivered :: post)) = some m) :
    ∃ a b c d, pre = a ++ .taken :: b ∧ .taken ∉ b ∧ .delivered ∉ b ∧
      mid = c ++ .taken :: d ∧ .taken ∉ d ∧ .delivered ∉ d ∧ .raised ∈ b ++ c := by
  obtain ⟨k, hpre, hrest⟩ := run_split h
  obtain ⟨first, hfirst, hrest⟩ := run_cons hrest
  obtain ⟨k', hmid, hrest⟩ := run_split hrest
  obtain ⟨second, hsecond, _⟩ := run_cons hrest
  cases hfirst with
  | delivered held =>
      cases hsecond with
      | delivered held' =>
          obtain ⟨a, b, rfl, hb, hb'⟩ := last_taken hpre rfl held
          obtain ⟨c, d, rfl, hd, hd'⟩ := last_taken hmid rfl held'
          refine ⟨a, b, c, d, rfl, hb, hb', rfl, hd, hd', ?_⟩
          have hsplit : run step clear (a ++ .taken :: ((b ++ .delivered :: c) ++
              .taken :: (d ++ .delivered :: post))) = some m := by
            simpa using h
          simpa using raised_between hsplit

theorem pending_of_not_delivered (h : run step l post = some m)
    (pending : 0 < l.count ∨ l.holding = true) (undelivered : .delivered ∉ post) :
    0 < m.count ∨ m.holding = true := by
  induction post generalizing l with
  | nil =>
      cases Option.some.inj h
      exact pending
  | cons mark rest ih =>
      obtain ⟨k, hmove, hrest⟩ := run_cons h
      apply ih hrest ?_ fun hmem => undelivered (List.mem_cons_of_mem mark hmem)
      cases hmove with
      | raised => exact .inl (Nat.succ_pos _)
      | taken => exact .inr rfl
      | delivered => exact absurd List.mem_cons_self undelivered

/-- Where nothing is left and nothing is held, every raise has been followed by a delivery. -/
theorem delivered_after_raised (h : run step l (pre ++ .raised :: post) = some m)
    (empty : m.count = 0) (free : m.holding = false) : .delivered ∈ post := by
  obtain ⟨k, -, hrest⟩ := run_split h
  obtain ⟨k', hmove, hpost⟩ := run_cons hrest
  by_contra hundelivered
  cases hmove with
  | raised =>
      obtain hsome | hheld := pending_of_not_delivered hpost (.inl (Nat.succ_pos _)) hundelivered
      · omega
      · rw [free] at hheld
        cases hheld

end Latch

end TinyMiddleware
