import Mathlib.Data.Fintype.Card
import Mathlib.Data.List.Nodup
import Mathlib.Logic.Function.Basic

/-! A work ledger: jobs are accepted in order, handed out in that order, each to
one holder, and closed by the holder that has them. Nothing is said about where
the jobs wait or who the holders are. -/
namespace TinyMiddleware

/-- A job is named by its ticket, its place in the order of acceptance. -/
structure Ledger (ι α : Type*) where
  accepted : List α
  taken : Nat
  held : ι → Option Nat
  closed : List Nat

namespace Ledger

variable {ι α : Type*}

/-- Each ticket handed out is either with exactly one holder or closed once. -/
structure Sound (l : Ledger ι α) : Prop where
  taken_le : l.taken ≤ l.accepted.length
  held_lt : ∀ i k, l.held i = some k → k < l.taken
  held_unique : ∀ i j k, l.held i = some k → l.held j = some k → i = j
  closed_lt : ∀ k ∈ l.closed, k < l.taken
  closed_nodup : l.closed.Nodup
  held_open : ∀ i k, l.held i = some k → k ∉ l.closed
  covered : ∀ k < l.taken, (∃ i, l.held i = some k) ∨ k ∈ l.closed

theorem sound_of_unused (held : ι → Option Nat) (h : ∀ i, held i = none) :
    Sound (⟨[], 0, held, []⟩ : Ledger ι α) := by
  constructor <;> simp [h]

theorem Sound.accept {l : Ledger ι α} (h : Sound l) (job : α) :
    Sound { l with accepted := l.accepted ++ [job] } where
  taken_le := by
    simp only [List.length_append]
    exact Nat.le_trans h.taken_le (Nat.le_add_right _ _)
  held_lt := h.held_lt
  held_unique := h.held_unique
  closed_lt := h.closed_lt
  closed_nodup := h.closed_nodup
  held_open := h.held_open
  covered := h.covered

theorem Sound.all_closed {l : Ledger ι α} (h : Sound l) (idle : ∀ i, l.held i = none) {k : Nat}
    (hk : k < l.taken) : l.closed.count k = 1 := by
  obtain ⟨i, hi⟩ | hclosed := h.covered k hk
  · rw [idle i] at hi
    cases hi
  · exact List.count_eq_one_of_mem h.closed_nodup hclosed

/-- The dichotomy behind `Sound`: with exactly one holder, or closed exactly once. -/
theorem Sound.held_xor_closed {l : Ledger ι α} (h : Sound l) {k : Nat} (hk : k < l.taken) :
    ((∃! i, l.held i = some k) ∧ l.closed.count k = 0) ∨
      ((∀ i, l.held i ≠ some k) ∧ l.closed.count k = 1) := by
  obtain ⟨i, hi⟩ | hclosed := h.covered k hk
  · exact Or.inl ⟨⟨i, hi, fun j hj => h.held_unique j i k hj hi⟩,
      List.count_eq_zero.mpr (h.held_open i k hi)⟩
  · exact Or.inr ⟨fun i hi => h.held_open i k hi hclosed,
      List.count_eq_one_of_mem h.closed_nodup hclosed⟩

/-- While a ticket is held, the open ones before it are with other holders. -/
theorem Sound.open_before_lt [Fintype ι] {l : Ledger ι α} (h : Sound l) {i : ι} {k : Nat}
    (held : l.held i = some k) {tickets : List Nat} (distinct : tickets.Nodup)
    (before : ∀ j ∈ tickets, j < k ∧ j ∉ l.closed) : tickets.length < Fintype.card ι := by
  classical
  have hcover : insert k tickets.toFinset ⊆
      Finset.univ.image fun i => (l.held i).getD 0 := by
    intro j hj
    rw [Finset.mem_image]
    obtain rfl | hj := Finset.mem_insert.mp hj
    · exact ⟨i, Finset.mem_univ i, by rw [held]; rfl⟩
    · obtain ⟨hlt, hopen⟩ := before j (List.mem_toFinset.mp hj)
      obtain ⟨i', hi'⟩ | hclosed := h.covered j (hlt.trans (h.held_lt i k held))
      · exact ⟨i', Finset.mem_univ i', by rw [hi']; rfl⟩
      · exact absurd hclosed hopen
  have hnew : k ∉ tickets.toFinset := by
    intro hk
    exact Nat.lt_irrefl k (before k (List.mem_toFinset.mp hk)).1
  have hcard := (Finset.card_le_card hcover).trans Finset.card_image_le
  rw [Finset.card_insert_of_notMem hnew, List.toFinset_card_of_nodup distinct] at hcard
  exact hcard

variable [DecidableEq ι]

inductive Step : Ledger ι α → Ledger ι α → Prop
  | accept (l : Ledger ι α) (job : α) :
      Step l { l with accepted := l.accepted ++ [job] }
  | take (l : Ledger ι α) (i : ι) (free : l.held i = none)
      (waiting : l.taken < l.accepted.length) :
      Step l { l with
        taken := l.taken + 1
        held := Function.update l.held i (some l.taken) }
  | close (l : Ledger ι α) (i : ι) (ticket : Nat) (holds : l.held i = some ticket) :
      Step l { l with
        held := Function.update l.held i none
        closed := l.closed ++ [ticket] }

theorem Sound.take {l : Ledger ι α} (h : Sound l) (i : ι) (free : l.held i = none)
    (waiting : l.taken < l.accepted.length) :
    Sound { l with
      taken := l.taken + 1
      held := Function.update l.held i (some l.taken) } where
  taken_le := waiting
  held_lt := by
    intro j k hj
    dsimp only at hj ⊢
    by_cases hji : j = i
    · subst j
      simp only [Function.update_self, Option.some.injEq] at hj
      subst k
      exact Nat.lt_succ_self _
    · rw [Function.update_of_ne hji] at hj
      exact Nat.lt_succ_of_lt (h.held_lt j k hj)
  held_unique := by
    -- the new ticket is above every ticket held before
    have hfresh : ∀ j, l.held j ≠ some l.taken := fun j hj => Nat.lt_irrefl _ (h.held_lt j _ hj)
    intro j j' k hj hj'
    dsimp only at hj hj'
    by_cases hji : j = i <;> by_cases hji' : j' = i
    · rw [hji, hji']
    · subst j
      simp only [Function.update_self, Option.some.injEq] at hj
      rw [Function.update_of_ne hji', ← hj] at hj'
      exact absurd hj' (hfresh j')
    · subst j'
      simp only [Function.update_self, Option.some.injEq] at hj'
      rw [Function.update_of_ne hji, ← hj'] at hj
      exact absurd hj (hfresh j)
    · rw [Function.update_of_ne hji] at hj
      rw [Function.update_of_ne hji'] at hj'
      exact h.held_unique j j' k hj hj'
  closed_lt := fun k hk => Nat.lt_succ_of_lt (h.closed_lt k hk)
  closed_nodup := h.closed_nodup
  held_open := by
    intro j k hj hk
    dsimp only at hj hk
    by_cases hji : j = i
    · subst j
      simp only [Function.update_self, Option.some.injEq] at hj
      have hlt := h.closed_lt k hk
      omega
    · rw [Function.update_of_ne hji] at hj
      exact h.held_open j k hj hk
  covered := by
    intro k hk
    change k < l.taken + 1 at hk
    by_cases hnew : k = l.taken
    · subst k
      exact Or.inl ⟨i, Function.update_self _ _ _⟩
    · obtain ⟨j, hj⟩ | hclosed := h.covered k (by omega)
      · have hji : j ≠ i := by
          rintro rfl
          rw [free] at hj
          cases hj
        exact Or.inl ⟨j, (Function.update_of_ne hji _ _).trans hj⟩
      · exact Or.inr hclosed

theorem Sound.close {l : Ledger ι α} (h : Sound l) (i : ι) (ticket : Nat)
    (holds : l.held i = some ticket) :
    Sound { l with
      held := Function.update l.held i none
      closed := l.closed ++ [ticket] } := by
  have hkept : ∀ j k, Function.update l.held i none j = some k → j ≠ i ∧ l.held j = some k := by
    intro j k hj
    by_cases hji : j = i
    · subst j
      simp at hj
    · rw [Function.update_of_ne hji] at hj
      exact ⟨hji, hj⟩
  refine ⟨h.taken_le, ?_, ?_, ?_, ?_, ?_, ?_⟩
  · exact fun j k hj => h.held_lt j k (hkept j k hj).2
  · exact fun j j' k hj hj' => h.held_unique j j' k (hkept j k hj).2 (hkept j' k hj').2
  · intro k hk
    obtain hk | hk := List.mem_append.mp hk
    · exact h.closed_lt k hk
    · rw [List.mem_singleton.mp hk]
      exact h.held_lt i ticket holds
  · exact List.nodup_append'.mpr
      ⟨h.closed_nodup, List.nodup_singleton _, by simpa using h.held_open i ticket holds⟩
  · intro j k hj hk
    obtain ⟨hji, hheld⟩ := hkept j k hj
    obtain hk | hk := List.mem_append.mp hk
    · exact h.held_open j k hheld hk
    · rw [List.mem_singleton.mp hk] at hheld
      exact hji (h.held_unique j i ticket hheld holds)
  · intro k hk
    obtain ⟨j, hj⟩ | hclosed := h.covered k hk
    · by_cases hji : j = i
      · subst j
        rw [holds] at hj
        cases hj
        exact Or.inr (by simp)
      · exact Or.inl ⟨j, (Function.update_of_ne hji _ _).trans hj⟩
    · exact Or.inr (List.mem_append_left _ hclosed)

theorem Step.sound {l m : Ledger ι α} (h : Step l m) (sound : Sound l) : Sound m := by
  cases h with
  | accept job => exact sound.accept job
  | take i free waiting => exact sound.take i free waiting
  | close i ticket holds => exact sound.close i ticket holds

end Ledger

end TinyMiddleware
