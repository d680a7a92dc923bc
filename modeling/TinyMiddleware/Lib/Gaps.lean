import Mathlib.Data.List.Induction

/-! Counting what is missing from an increasing stream of sequence numbers, by looking
at each number and the one before it. Zero stands for no number seen yet. -/
namespace TinyMiddleware

structure Gaps where
  last : Nat
  lost : Nat

namespace Gaps

def none : Gaps where
  last := 0
  lost := 0

def see (g : Gaps) (i : Nat) : Gaps where
  last := i
  lost := if g.last ≠ 0 ∧ g.last + 1 < i then g.lost + (i - (g.last + 1)) else g.lost

def count (stream : List Nat) : Gaps :=
  stream.foldl see none

def Increasing (stream : List Nat) : Prop :=
  stream.Pairwise (· < ·) ∧ ∀ i ∈ stream, 1 ≤ i

instance : DecidablePred Increasing :=
  fun stream => inferInstanceAs (Decidable (stream.Pairwise (· < ·) ∧ ∀ i ∈ stream, 1 ≤ i))

/-- The numbers that are missing between the first and the last of the stream. -/
def missing : List Nat → Nat
  | [] => 0
  | first :: rest => rest.getLastD first - first + 1 - (first :: rest).length

theorem count_concat (stream : List Nat) (i : Nat) :
    count (stream ++ [i]) = (count stream).see i := by
  simp [count]

theorem last_count_le {stream : List Nat} {bound : Nat} (h : ∀ i ∈ stream, i ≤ bound) :
    (count stream).last ≤ bound := by
  induction stream using List.reverseRecOn with
  | nil => exact Nat.zero_le bound
  | append_singleton stream i _ =>
      rw [count_concat]
      exact h i (by simp)

theorem lost_see {g : Gaps} {i : Nat} (positive : g.last ≠ 0) (lt : g.last < i) :
    (g.see i).lost + g.last + 1 = g.lost + i := by
  simp only [see]
  split <;> omega

/-- What was lost, what was seen, and where the stream began add up to where it is. -/
theorem lost_foldl {rest : List Nat} {g : Gaps} (positive : g.last ≠ 0)
    (increasing : (g.last :: rest).Pairwise (· < ·)) :
    (rest.foldl see g).last = rest.getLastD g.last ∧
      (rest.foldl see g).lost + rest.length + g.last = g.lost + (rest.foldl see g).last := by
  induction rest generalizing g with
  | nil => simp
  | cons i rest ih =>
      obtain ⟨hfirst, hrest⟩ := List.pairwise_cons.mp increasing
      have hlt : g.last < i := hfirst i List.mem_cons_self
      have hi : (g.see i).last = i := rfl
      have hseen := lost_see positive hlt
      obtain ⟨hlast, hsum⟩ := ih (by omega : (g.see i).last ≠ 0) hrest
      rw [hi] at hlast hsum
      rw [List.foldl_cons, List.getLastD_cons, List.length_cons]
      exact ⟨hlast, by omega⟩

/-- The count does not depend on how the gaps lie. -/
theorem lost_count {stream : List Nat} (h : Increasing stream) :
    (count stream).lost = missing stream := by
  cases stream with
  | nil => rfl
  | cons first rest =>
      have hfirst : 1 ≤ first := h.2 first List.mem_cons_self
      obtain ⟨hlast, hsum⟩ := lost_foldl (g := ⟨first, 0⟩) (by simp; omega) h.1
      have hstart : count (first :: rest) = rest.foldl see ⟨first, 0⟩ := by
        simp [count, see, none]
      rw [hstart, missing, ← hlast, List.length_cons]
      simp only at hsum
      omega

theorem missing_le {stream : List Nat} {bound : Nat} (h : ∀ i ∈ stream, i ≤ bound) :
    missing stream ≤ bound := by
  cases stream with
  | nil => exact Nat.zero_le bound
  | cons first rest =>
      have hlast := h (rest.getLastD first) List.getLastD_mem_cons
      simp only [missing, List.length_cons]
      omega

end Gaps

end TinyMiddleware
