import Mathlib.Logic.Relation
import Mathlib.Data.Option.Basic

/-! Runs of a machine given by a partial step function. An event that is not
enabled has no successor, so a run is a list of events that all fire. -/
namespace TinyMiddleware.Runs

variable {σ ε τ δ : Type*}

def Next (step : σ → ε → Option σ) (s t : σ) : Prop :=
  ∃ e, step s e = some t

abbrev Reachable (step : σ → ε → Option σ) : σ → σ → Prop :=
  Relation.ReflTransGen (Next step)

theorem Reachable.step {step : σ → ε → Option σ} {s t u : σ} {e : ε}
    (h : Reachable step s t) (hstep : step t e = some u) : Reachable step s u :=
  h.tail ⟨e, hstep⟩

theorem Reachable.single {step : σ → ε → Option σ} {s t : σ} {e : ε}
    (hstep : step s e = some t) : Reachable step s t :=
  Relation.ReflTransGen.single ⟨e, hstep⟩

def run (step : σ → ε → Option σ) (s : σ) : List ε → Option σ
  | [] => some s
  | e :: rest => (step s e).bind fun t => run step t rest

theorem run_append {step : σ → ε → Option σ} {s : σ} (events more : List ε) :
    run step s (events ++ more) = (run step s events).bind fun t => run step t more := by
  induction events generalizing s with
  | nil => rfl
  | cons e rest ih =>
      simp only [List.cons_append, run, Option.bind_assoc]
      congr 1
      funext t
      exact ih

theorem reachable_of_run {step : σ → ε → Option σ} {s t : σ} {events : List ε}
    (h : run step s events = some t) : Reachable step s t := by
  induction events generalizing s with
  | nil =>
      cases Option.some.inj h
      exact .refl
  | cons e rest ih =>
      obtain ⟨u, hstep, hrest⟩ := Option.bind_eq_some_iff.mp h
      exact .head ⟨e, hstep⟩ (ih hrest)

/-- What every step keeps, every run keeps. -/
theorem Reachable.keeps {step : σ → ε → Option σ} {I : σ → Prop} {s t : σ}
    (h : Reachable step s t) (initial : I s)
    (keep : ∀ s e t, I s → step s e = some t → I t) : I t := by
  induction h with
  | refl => exact initial
  | tail _ hnext ih =>
      obtain ⟨e, hstep⟩ := hnext
      exact keep _ e _ ih hstep

/-- The same, on top of what is known of every reachable state already. -/
theorem Reachable.keepsUnder {step : σ → ε → Option σ} {I J : σ → Prop} {s t : σ}
    (h : Reachable step s t) (known : ∀ t, Reachable step s t → I t) (initial : J s)
    (keep : ∀ s e t, I s → J s → step s e = some t → J t) : J t := by
  induction h with
  | refl => exact initial
  | tail hbefore hnext ih =>
      obtain ⟨e, hstep⟩ := hnext
      exact keep _ e _ (known _ hbefore) ih hstep

/-- A step of the concrete machine is matched by a run of the abstract one. The
invariant `I` holds of the concrete states that the matching may rely on. -/
structure Simulation (step : σ → ε → Option σ) (above : τ → δ → Option τ)
    (I : σ → Prop) (view : σ → τ) : Prop where
  keep : ∀ s e t, I s → step s e = some t → I t
  matched : ∀ s e t, I s → step s e = some t → Reachable above (view s) (view t)

theorem Simulation.reachable {step : σ → ε → Option σ} {above : τ → δ → Option τ}
    {I : σ → Prop} {view : σ → τ} (sim : Simulation step above I view) {s t : σ}
    (h : Reachable step s t) (initial : I s) : Reachable above (view s) (view t) := by
  have both : I t ∧ Reachable above (view s) (view t) :=
    h.keeps (I := fun t => I t ∧ Reachable above (view s) (view t)) ⟨initial, .refl⟩
      fun u e v ⟨hu, hrun⟩ hstep =>
        ⟨sim.keep u e v hu hstep, hrun.trans (sim.matched u e v hu hstep)⟩
  exact both.2

/-- The machine with only those steps that satisfy a condition on the state
before the step and the event. -/
def restrict (step : σ → ε → Option σ) (allowed : σ → ε → Prop)
    [∀ s e, Decidable (allowed s e)] (s : σ) (e : ε) : Option σ :=
  if allowed s e then step s e else none

theorem restrict_eq_some {step : σ → ε → Option σ} {allowed : σ → ε → Prop}
    [∀ s e, Decidable (allowed s e)] {s t : σ} {e : ε} :
    restrict step allowed s e = some t ↔ allowed s e ∧ step s e = some t := by
  unfold restrict
  split <;> simp_all

/-- The machine beside a record of what an observer sees in each step. -/
def observe {ρ : Type*} (step : σ → ε → Option σ) (sees : σ → ε → List ρ) (s : σ × List ρ)
    (e : ε) : Option (σ × List ρ) :=
  (step s.1 e).map fun t => (t, s.2 ++ sees s.1 e)

section
variable {ρ : Type*} {step : σ → ε → Option σ} {sees : σ → ε → List ρ}

theorem observe_eq_some {s t : σ × List ρ} {e : ε} :
    observe step sees s e = some t ↔ step s.1 e = some t.1 ∧ t.2 = s.2 ++ sees s.1 e := by
  unfold observe
  cases hstep : step s.1 e with
  | none => simp
  | some u => simp [Prod.ext_iff, eq_comm]

/-- The observer does not disturb the machine. -/
theorem Reachable.unobserved {s t : σ × List ρ} (h : Reachable (observe step sees) s t) :
    Reachable step s.1 t.1 :=
  h.keeps (I := fun t => Reachable step s.1 t.1) .refl
    fun _ _ _ hbefore hstep => hbefore.step (observe_eq_some.mp hstep).1

/-- Nor does it miss a run. -/
theorem Reachable.observed {s t : σ} (h : Reachable step s t) (seen : List ρ) :
    ∃ more, Reachable (observe step sees) (s, seen) (t, more) := by
  induction h with
  | refl => exact ⟨seen, .refl⟩
  | tail _ hnext ih =>
      obtain ⟨e, hstep⟩ := hnext
      obtain ⟨more, hmore⟩ := ih
      exact ⟨_, hmore.step (observe_eq_some.mpr ⟨hstep, rfl⟩)⟩

end

variable {γ : Type*}

/-- For a machine that takes every call: a property of each call in a sequence and
of the state the call is made in. -/
def Throughout (apply : σ → γ → σ) (P : σ → γ → Prop) (s : σ) : List γ → Prop
  | [] => True
  | call :: rest => P s call ∧ Throughout apply P (apply s call) rest

/-- Two properties that agree where `I` holds agree throughout, if either of them
keeps `I`. -/
theorem throughout_iff {apply : σ → γ → σ} {P Q : σ → γ → Prop} {I : σ → Prop}
    (agree : ∀ s call, I s → (P s call ↔ Q s call))
    (keep : ∀ s call, I s → P s call → I (apply s call)) {s : σ} (hs : I s) (calls : List γ) :
    Throughout apply P s calls ↔ Throughout apply Q s calls := by
  induction calls generalizing s with
  | nil => exact Iff.rfl
  | cons call rest ih =>
      unfold Throughout
      rw [← agree s call hs]
      apply and_congr_right
      intro hcall
      exact ih (keep s call hs hcall)

end TinyMiddleware.Runs
