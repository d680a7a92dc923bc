import TinyMiddleware.Lib.Runs
import Mathlib.Order.WellFounded

/-! Infinite executions and what weak fairness gives. The scheduler is only
assumed not to neglect for ever a class of events of which one is always enabled. -/
namespace TinyMiddleware.Fairness

open Runs

variable {σ ε β : Type*}

/-- An infinite execution. An index without an event is one at which the machine
does not move, so a machine that has finished still has executions. -/
structure Execution (step : σ → ε → Option σ) where
  state : Nat → σ
  event : Nat → Option ε
  next : ∀ k, match event k with
    | none => state (k + 1) = state k
    | some e => step (state k) e = some (state (k + 1))

def Enabled (step : σ → ε → Option σ) (own : ε → Prop) (s : σ) : Prop :=
  ∃ e t, own e ∧ step s e = some t

/-- Weak fairness for a class of events. -/
def Execution.Fair {step : σ → ε → Option σ} (x : Execution step) (own : ε → Prop) : Prop :=
  ∀ k, (∀ j, k ≤ j → Enabled step own (x.state j)) →
    ∃ j e, k ≤ j ∧ own e ∧ x.event j = some e

theorem Execution.keeps {step : σ → ε → Option σ} (x : Execution step) {I : σ → Prop}
    (keep : ∀ s e t, I s → step s e = some t → I t) {k : Nat} (hk : I (x.state k)) :
    ∀ {j : Nat}, k ≤ j → I (x.state j) := by
  intro j hkj
  induction hkj with
  | refl => exact hk
  | @step j _ ih =>
      have hnext := x.next j
      cases hevent : x.event j with
      | none =>
          rw [hevent] at hnext
          simpa only [Nat.succ_eq_add_one, hnext] using ih
      | some e =>
          rw [hevent] at hnext
          exact keep _ e _ ih hnext

theorem Execution.reachable {step : σ → ε → Option σ} (x : Execution step) {k j : Nat}
    (hkj : k ≤ j) : Reachable step (x.state k) (x.state j) :=
  x.keeps (I := fun s => Reachable step (x.state k) s)
    (fun _ _ _ h hstep => h.step hstep) .refl hkj

/-- A goal that a class of events works towards: some own event is enabled until
the goal is reached, each own event lowers the rank and no other event raises it. -/
structure Progress (step : σ → ε → Option σ) (own : ε → Prop) (I goal : σ → Prop)
    [Preorder β] (rank : σ → β) : Prop where
  keep : ∀ s e t, I s → step s e = some t → I t
  enabled : ∀ s, I s → ¬ goal s → Enabled step own s
  down : ∀ s e t, I s → own e → step s e = some t → rank t < rank s
  others : ∀ s e t, I s → ¬ own e → step s e = some t → rank t ≤ rank s

variable {step : σ → ε → Option σ} {own : ε → Prop} {I goal : σ → Prop}
  [Preorder β] {rank : σ → β}

theorem Progress.rank_le (p : Progress step own I goal rank) {s t : σ} {e : ε}
    (hs : I s) (hstep : step s e = some t) : rank t ≤ rank s := by
  by_cases hown : own e
  · exact (p.down s e t hs hown hstep).le
  · exact p.others s e t hs hown hstep

theorem Progress.rank_antitone (p : Progress step own I goal rank) (x : Execution step)
    {k : Nat} (hk : I (x.state k)) {j : Nat} (hkj : k ≤ j) :
    rank (x.state j) ≤ rank (x.state k) := by
  have both : I (x.state j) ∧ rank (x.state j) ≤ rank (x.state k) :=
    x.keeps (I := fun s => I s ∧ rank s ≤ rank (x.state k))
      (fun s e t ⟨hs, hle⟩ hstep =>
        ⟨p.keep s e t hs hstep, (p.rank_le hs hstep).trans hle⟩) ⟨hk, le_rfl⟩ hkj
  exact both.2

/-- A fair execution reaches the goal: while it does not, own events keep
happening, and the rank cannot go down for ever. -/
theorem Progress.eventually [WellFoundedLT β] (p : Progress step own I goal rank)
    (x : Execution step) (fair : x.Fair own) {k : Nat} (hk : I (x.state k)) :
    ∃ j, k ≤ j ∧ goal (x.state j) := by
  induction hr : rank (x.state k) using WellFoundedLT.induction generalizing k with
  | ind r ih =>
      by_contra hnever
      have hopen : ∀ j, k ≤ j → ¬ goal (x.state j) :=
        fun j hkj hgoal => hnever ⟨j, hkj, hgoal⟩
      obtain ⟨j, e, hkj, hown, hevent⟩ := fair k fun j hkj =>
        p.enabled _ (x.keeps p.keep hk hkj) (hopen j hkj)
      have hnext := x.next j
      rw [hevent] at hnext
      have hj := x.keeps p.keep hk hkj
      have hlower : rank (x.state (j + 1)) < r := by
        rw [← hr]
        exact (p.down _ e _ hj hown hnext).trans_le (p.rank_antitone x hk hkj)
      obtain ⟨i, hji, hgoal⟩ := ih _ hlower (p.keep _ e _ hj hnext) rfl
      exact hopen i (by omega) hgoal

/-- With the own events alone the goal is reached, whatever the scheduler does
elsewhere: some run leads there. -/
theorem Progress.reaches [WellFoundedLT β] (p : Progress step own I goal rank) {s : σ}
    (hs : I s) : ∃ t, Reachable step s t ∧ I t ∧ goal t := by
  induction hr : rank s using WellFoundedLT.induction generalizing s with
  | ind r ih =>
      by_cases hgoal : goal s
      · exact ⟨s, .refl, hs, hgoal⟩
      · obtain ⟨e, t, hown, hstep⟩ := p.enabled s hs hgoal
        have ht := p.keep s e t hs hstep
        obtain ⟨u, hrun, hu⟩ := ih _ (hr ▸ p.down s e t hs hown hstep) ht rfl
        exact ⟨u, .head ⟨e, hstep⟩ hrun, hu⟩

end TinyMiddleware.Fairness
