import TinyMiddleware.Lib.Latch
import Mathlib.Data.Finset.Card
import Mathlib.Data.List.TakeWhile
import Mathlib.Order.Interval.Finset.Nat
import Mathlib.Tactic.Ring

/-! Marks with the times they were made at. What is spaced out in time spaces out whatever
cannot get ahead of it. -/
namespace TinyMiddleware.Stamps

variable {α β : Type*}

/-- The clock does not go back. -/
def InOrder (marks : List (Nat × α)) : Prop :=
  marks.Pairwise fun a b => a.1 ≤ b.1

def within (x y : Nat) (time : Nat) : Bool :=
  decide (x ≤ time) && decide (time ≤ y)

theorem within_iff {x y time : Nat} : within x y time = true ↔ x ≤ time ∧ time ≤ y := by
  simp [within]

theorem InOrder.append_now {marks more : List (Nat × α)} (h : InOrder marks) {now : Nat}
    (past : ∀ entry ∈ marks, entry.1 ≤ now) (current : ∀ entry ∈ more, entry.1 = now) :
    InOrder (marks ++ more) := by
  refine List.pairwise_append.mpr ⟨h, ?_, ?_⟩
  · apply List.pairwise_of_forall_mem_list
    intro a ha b hb
    rw [current a ha, current b hb]
  · intro a ha b hb
    rw [current b hb]
    exact past a ha

section Windows

/-- In an ordered list the elements past a downward closed property form its end. -/
theorem of_mem_dropWhile {r : β → β → Prop} {p : β → Bool} {l : List β} (ordered : l.Pairwise r)
    (closed : ∀ a b, r a b → p b = true → p a = true) : ∀ b ∈ l.dropWhile p, p b = false := by
  induction l with
  | nil => exact fun b hb => absurd hb List.not_mem_nil
  | cons a rest ih =>
      obtain ⟨hfirst, hrest⟩ := List.pairwise_cons.mp ordered
      cases hp : p a with
      | true =>
          rw [List.dropWhile_cons_of_pos hp]
          exact ih hrest
      | false =>
          rw [List.dropWhile_cons_of_neg (by simp [hp])]
          intro b hb
          obtain rfl | hb := List.mem_cons.mp hb
          · exact hp
          · by_contra hpb
            have hpa := closed a b (hfirst b hb) (by simpa using hpb)
            rw [hp] at hpa
            cases hpa

/-- The marks of a window of time stand together. -/
theorem InOrder.window {marks : List (Nat × α)} (h : InOrder marks) (x y : Nat) :
    ∃ pre mid post, marks = pre ++ (mid ++ post) ∧
      (marks.filter fun entry => within x y entry.1) = mid := by
  let early : Nat × α → Bool := fun entry => decide (entry.1 < x)
  let soon : Nat × α → Bool := fun entry => decide (entry.1 ≤ y)
  refine ⟨marks.takeWhile early, (marks.dropWhile early).takeWhile soon,
    (marks.dropWhile early).dropWhile soon, ?_, ?_⟩
  · rw [List.takeWhile_append_dropWhile, List.takeWhile_append_dropWhile]
  have hlate : ∀ entry ∈ marks.dropWhile early, x ≤ entry.1 := by
    intro entry hentry
    have hnot := of_mem_dropWhile h (p := early)
      (fun a b hab hb => by simp only [early, decide_eq_true_eq] at hb ⊢; omega) entry hentry
    simpa [early] using hnot
  have hrest : InOrder (marks.dropWhile early) := h.sublist (List.dropWhile_sublist early)
  have hafter : ∀ entry ∈ (marks.dropWhile early).dropWhile soon, y < entry.1 := by
    intro entry hentry
    have hnot := of_mem_dropWhile hrest (p := soon)
      (fun a b hab hb => by simp only [soon, decide_eq_true_eq] at hb ⊢; omega) entry hentry
    simpa [soon] using hnot
  conv_lhs =>
    rw [← List.takeWhile_append_dropWhile (p := early) (l := marks),
      ← List.takeWhile_append_dropWhile (p := soon) (l := marks.dropWhile early)]
  rw [List.filter_append, List.filter_append, List.filter_eq_nil_iff.mpr, List.nil_append,
    List.filter_eq_self.mpr, List.filter_eq_nil_iff.mpr, List.append_nil]
  · intro entry hentry hin
    have := hafter entry hentry
    have := (within_iff.mp hin).2
    omega
  · intro entry hentry
    have hsoon := List.mem_takeWhile_imp hentry
    simp only [soon, decide_eq_true_eq] at hsoon
    exact within_iff.mpr ⟨hlate entry (List.takeWhile_subset soon hentry), hsoon⟩
  · intro entry hentry hin
    have hearly := List.mem_takeWhile_imp hentry
    simp only [early, decide_eq_true_eq] at hearly
    have := (within_iff.mp hin).1
    omega

/-- A window has room for one beat more than there are whole periods in it. -/
theorem length_beats_le (start m x y : Nat) {period : Nat} (positive : 0 < period) :
    (((List.range m).map fun i => start + (i + 1) * period).filter (within x y)).length ≤
      (y - x) / period + 1 := by
  rw [List.filter_map, List.length_map]
  set beats := (List.range m).filter (within x y ∘ fun i => start + (i + 1) * period) with hbeats
  have hmem : ∀ i ∈ beats, x ≤ start + (i + 1) * period ∧ start + (i + 1) * period ≤ y := by
    intro i hi
    rw [hbeats, List.mem_filter] at hi
    exact within_iff.mp hi.2
  have hnodup : beats.Nodup := List.nodup_range.filter _
  cases hfirst : beats with
  | nil => simp
  | cons first rest =>
      rw [← hfirst, ← List.toFinset_card_of_nodup hnodup]
      -- no beat is more than `(y - x) / period` after the first one
      have hsubset : beats.toFinset ⊆ Finset.Icc first (first + (y - x) / period) := by
        intro i hi
        rw [List.mem_toFinset] at hi
        have hordered : beats.Pairwise (· < ·) := List.pairwise_lt_range.filter _
        have hge : first ≤ i := by
          rw [hfirst] at hordered hi
          obtain rfl | hi := List.mem_cons.mp hi
          · exact le_rfl
          · exact ((List.pairwise_cons.mp hordered).1 i hi).le
        have hlow := (hmem first (by simp [hfirst])).1
        have hhigh := (hmem i hi).2
        have hspan : (i - first) * period ≤ y - x := by
          obtain ⟨d, rfl⟩ := Nat.exists_eq_add_of_le hge
          have hexpand : (first + d + 1) * period = (first + 1) * period + d * period := by ring
          rw [Nat.add_sub_cancel_left]
          omega
        have hdiv := (Nat.le_div_iff_mul_le positive).mpr hspan
        exact Finset.mem_Icc.mpr ⟨hge, by omega⟩
      calc beats.toFinset.card
          ≤ (Finset.Icc first (first + (y - x) / period)).card := Finset.card_le_card hsubset
        _ = (y - x) / period + 1 := by rw [Nat.card_Icc, Nat.add_assoc, Nat.add_sub_cancel_left]

end Windows

section Times
variable [DecidableEq α] {marks : List (Nat × α)}

def times (mark : α) (marks : List (Nat × α)) : List Nat :=
  (marks.filter fun entry => decide (entry.2 = mark)).map Prod.fst

theorem times_append (mark : α) (marks more : List (Nat × α)) :
    times mark (marks ++ more) = times mark marks ++ times mark more := by
  simp [times]

theorem mem_times {mark : α} {time : Nat} : time ∈ times mark marks ↔ (time, mark) ∈ marks := by
  simp [times]

theorem length_times (mark : α) (marks : List (Nat × α)) :
    (times mark marks).length = (marks.map Prod.snd).count mark := by
  induction marks with
  | nil => rfl
  | cons entry rest ih =>
      by_cases h : entry.2 = mark <;> simp_all [times]

theorem times_filter (mark : α) (marks : List (Nat × α)) (p : Nat → Bool) :
    (times mark marks).filter p = times mark (marks.filter fun entry => p entry.1) := by
  simp only [times, List.filter_map, List.filter_filter]
  congr 1
  apply List.filter_congr
  intro entry _
  exact Bool.and_comm _ _

/-- Split at the time of the `k`-th mark of a kind. -/
theorem split_at {mark : α} {k time : Nat} (h : (times mark marks)[k]? = some time) :
    ∃ pre post, marks = pre ++ (time, mark) :: post ∧ (times mark pre).length = k := by
  induction marks generalizing k with
  | nil => cases h
  | cons entry rest ih =>
      obtain ⟨at', mark'⟩ := entry
      by_cases hmark : mark' = mark
      · subst hmark
        cases k with
        | zero =>
            have hat : at' = time := by simpa [times] using h
            exact ⟨[], rest, by rw [hat]; rfl, rfl⟩
        | succ k =>
            obtain ⟨pre, post, rfl, hlength⟩ := ih (by simpa [times] using h)
            exact ⟨(at', mark') :: pre, post, rfl, by simpa [times] using hlength⟩
      · obtain ⟨pre, post, rfl, hlength⟩ := ih (by simpa [times, hmark] using h)
        exact ⟨(at', mark') :: pre, post, rfl, by simpa [times, hmark] using hlength⟩

/-- Where one kind of mark never gets ahead of another, its `k`-th comes after the other's. -/
theorem times_le_of_lag {leader lagger : α} (ordered : InOrder marks)
    (lag : ∀ pre post, marks = pre ++ post →
      (pre.map Prod.snd).count lagger ≤ (pre.map Prod.snd).count leader)
    {k time : Nat} (h : (times lagger marks)[k]? = some time) :
    ∃ before, (times leader marks)[k]? = some before ∧ before ≤ time := by
  obtain ⟨pre, post, rfl, hlength⟩ := split_at h
  have hsplit : pre ++ (time, lagger) :: post = (pre ++ [(time, lagger)]) ++ post := by simp
  have hcount := lag _ _ hsplit
  rw [← length_times, ← length_times, times_append, List.length_append, hlength] at hcount
  have hself : (times lagger [(time, lagger)]).length = 1 := by simp [times]
  rw [hself] at hcount
  have hpast : ∀ entry ∈ pre ++ [(time, lagger)], entry.1 ≤ time := by
    intro entry hentry
    obtain hentry | hentry := List.mem_append.mp hentry
    · exact (List.pairwise_append.mp ordered).2.2 entry hentry _ List.mem_cons_self
    · rw [List.mem_singleton.mp hentry]
  have hk : k < (times leader (pre ++ [(time, lagger)])).length := hcount
  refine ⟨(times leader (pre ++ [(time, lagger)])).get ⟨k, hk⟩, ?_, ?_⟩
  · rw [hsplit, times_append, List.getElem?_append_left hk, List.getElem?_eq_getElem hk]
    rfl
  · exact hpast _ (mem_times.mp (List.get_mem _ _))

/-- Where one kind of mark comes in beats, and another has no more than `slack` above it in any
stretch, a window of time has no more than `slack` above what beats it has room for. -/
theorem length_window_le {leader lagger : α} {start m period slack : Nat}
    (ordered : InOrder marks) (positive : 0 < period)
    (beats : times leader marks = (List.range m).map fun i => start + (i + 1) * period)
    (lag : ∀ pre mid post, marks = pre ++ (mid ++ post) →
      (mid.map Prod.snd).count lagger ≤ (mid.map Prod.snd).count leader + slack) (x y : Nat) :
    ((times lagger marks).filter (within x y)).length ≤ (y - x) / period + 1 + slack := by
  obtain ⟨pre, mid, post, hsplit, hwindow⟩ := ordered.window x y
  have hleader := length_beats_le start m x y positive
  rw [← beats, times_filter, hwindow, length_times] at hleader
  rw [times_filter, hwindow, length_times]
  exact (lag pre mid post hsplit).trans (Nat.add_le_add_right hleader slack)

end Times

section Latches
open Runs
variable {marks : List (Nat × Latch.Mark)} {l : Latch}

theorem delivered_lags (h : run Latch.step Latch.clear (marks.map Prod.snd) = some l) :
    ∀ pre post, marks = pre ++ post →
      (pre.map Prod.snd).count Latch.Mark.delivered ≤ (pre.map Prod.snd).count .raised := by
  rintro pre post rfl
  rw [List.map_append] at h
  obtain ⟨k, hpre, -⟩ := Latch.run_split h
  exact Latch.count_delivered_le hpre

/-- At any time no more than two deliveries are owed: what is held and what is not yet taken. -/
theorem delivered_lags_by_two (h : run Latch.step Latch.clear (marks.map Prod.snd) = some l) :
    ∀ pre mid post, marks = pre ++ (mid ++ post) →
      (mid.map Prod.snd).count Latch.Mark.delivered ≤ (mid.map Prod.snd).count .raised + 2 := by
  rintro pre mid post rfl
  rw [List.map_append, List.map_append] at h
  obtain ⟨k, -, hrest⟩ := Latch.run_split h
  obtain ⟨k', hmid, -⟩ := Latch.run_split hrest
  obtain ⟨hdelivered, htaken⟩ := Latch.counts hmid
  have hheld : k.holding.toNat ≤ 1 := Bool.toNat_le k.holding
  have howed : (if 0 < k.count then 1 else 0) ≤ 1 := by split <;> omega
  omega

theorem delivered_since (h : run Latch.step Latch.clear (marks.map Prod.snd) = some l)
    (ordered : InOrder marks) (empty : l.count = 0) (free : l.holding = false) {time : Nat}
    (raised : time ∈ times .raised marks) : ∃ later ∈ times .delivered marks, time ≤ later := by
  obtain ⟨pre, post, rfl⟩ := List.append_of_mem (mem_times.mp raised)
  rw [List.map_append] at h
  obtain ⟨⟨later, mark⟩, hentry, hmark⟩ :=
    List.mem_map.mp (Latch.delivered_after_raised h empty free)
  cases hmark
  refine ⟨later, mem_times.mpr (by simp [hentry]), ?_⟩
  exact (List.pairwise_cons.mp (List.pairwise_append.mp ordered).2.1).1 _ hentry

end Latches

end TinyMiddleware.Stamps
