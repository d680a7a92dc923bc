import TinyMiddleware.Lib.CondWait
import TinyMiddleware.Lib.LeadsTo

/-! A machine with a thread that ends when a flag is set, and that may wait on a condition
variable meanwhile. Others set the flag without the mutex, and notify after that. -/
namespace TinyMiddleware.CondWait

open Runs Fairness

variable {σ ε ω ρ : Type*}

/-- Where the thread is: in one of its waits, or elsewhere. -/
inductive Place (ω ρ : Type*) where
  | within (wait : ω) (pc : Pc)
  | beyond (place : ρ)

def Place.notified : Place ω ρ → Place ω ρ
  | .within wait pc => .within wait pc.notified
  | .beyond place => .beyond place

/-- Which of the waits have a deadline, and how many steps are left after a wait, or from
elsewhere, when the flag is set. -/
structure Plan (ω ρ : Type*) where
  deadline : ω → Bool
  after : ω → Nat
  elsewhere : ρ → Nat

/-- Asleep in a wait without a deadline. -/
def Plan.dozes (plan : Plan ω ρ) : Place ω ρ → Bool
  | .within wait pc => !plan.deadline wait && pc.asleep
  | .beyond _ => false

/-- About to block in such a wait, so that a notification is lost. -/
def Plan.misses (plan : Plan ω ρ) : Place ω ρ → Bool
  | .within wait .blocking => !plan.deadline wait
  | _ => false

def Plan.left (plan : Plan ω ρ) : Place ω ρ → Nat
  | .within wait pc => plan.after wait + pc.left
  | .beyond place => plan.elsewhere place

/-- What the thread does itself, or its deadline. -/
inductive Own (plan : Plan ω ρ) (flag : Bool) : Place ω ρ → Place ω ρ → Prop
  | waited (wait : ω) (pc next : Pc) (free predicate : Bool)
      (sees : flag = true → predicate = true) (move : pc.advance free predicate = some next) :
      Own plan flag (.within wait pc) (.within wait next)
  | timedOut (wait : ω) (pc next : Pc) (timed : plan.deadline wait = true)
      (move : pc.timedOut = some next) : Own plan flag (.within wait pc) (.within wait next)
  | onward (p q : Place ω ρ) (awake : plan.dozes p = false) (still : plan.dozes q = false)
      (lowers : flag = true → plan.left q < plan.left p) : Own plan flag p q

/-- How a machine has to fit: the thread moves by its own events, and by those of others only
when they wake it. -/
structure Fits (plan : Plan ω ρ) (step : σ → ε → Option σ) (place : σ → Place ω ρ)
    (flag : σ → Bool) (wakes : σ → ε → Bool) (own : ε → Prop) (I : σ → Prop) : Prop where
  keep : ∀ s e t, I s → step s e = some t → I t
  set : ∀ s e t, flag s = true → step s e = some t → flag t = true
  mine : ∀ s e t, own e → step s e = some t → Own plan (flag s) (place s) (place t)
  others : ∀ s e t, ¬ own e → step s e = some t →
    place t = place s ∨ wakes s e = true ∧ place t = (place s).notified

/-- The flag is set, and the thread will see it. -/
structure Stopping (plan : Plan ω ρ) (place : σ → Place ω ρ) (flag : σ → Bool) (I : σ → Prop)
    (s : σ) : Prop where
  inv : I s
  set : flag s = true
  awake : plan.dozes (place s) = false

section Places
variable {plan : Plan ω ρ} {flag : Bool} {p q : Place ω ρ}

theorem left_notified_le (p : Place ω ρ) : plan.left p.notified ≤ plan.left p := by
  cases p with
  | within wait pc => exact Nat.add_le_add_left (left_notified pc) _
  | beyond => exact Nat.le_refl _

/-- A notification wakes whoever does not miss it. -/
theorem dozes_notified (hears : plan.misses p = false) : plan.dozes p.notified = false := by
  cases p with
  | within wait pc =>
      cases hdeadline : plan.deadline wait with
      | true => simp [Place.notified, Plan.dozes, hdeadline]
      | false =>
          have hearly : pc ≠ .blocking := by
            rintro rfl
            simp [Plan.misses, hdeadline] at hears
          simp [Place.notified, Plan.dozes, awake_notified hearly]
  | beyond => rfl

theorem dozes_of_misses (misses : plan.misses p = true) : plan.dozes p.notified = true := by
  cases p with
  | within wait pc =>
      cases pc with
      | blocking =>
          simpa [Plan.misses, Plan.dozes, Place.notified, Pc.notified, Pc.asleep] using misses
      | _ => cases misses
  | beyond => cases misses

theorem misses_of_awake (awake : plan.dozes p = false) : plan.misses p = false := by
  cases p with
  | within wait pc =>
      cases pc with
      | blocking => simpa [Plan.misses, Plan.dozes, Pc.asleep] using awake
      | _ => rfl
  | beyond => rfl

theorem Own.lowers (h : Own plan flag p q) (set : flag = true) : plan.left q < plan.left p := by
  cases h with
  | waited wait pc next free predicate sees move =>
      rw [sees set] at move
      exact Nat.add_lt_add_left (left_advance move) _
  | timedOut wait pc next timed move => exact Nat.add_lt_add_left (left_timedOut move) _
  | onward _ _ _ _ lowers => exact lowers set

theorem Own.awake (h : Own plan flag p q) (set : flag = true) (awake : plan.dozes p = false) :
    plan.dozes q = false := by
  cases h with
  | waited wait pc next free predicate sees move =>
      rw [sees set] at move
      simp only [Plan.dozes, Bool.and_eq_false_iff] at awake ⊢
      exact awake.imp_right (awake_advance move)
  | timedOut wait pc next timed => simp [Plan.dozes, timed]
  | onward _ _ _ still => exact still

/-- Of itself the thread does not wake up. -/
theorem Own.dozes (h : Own plan flag p q) (dozing : plan.dozes p = true) :
    plan.dozes q = true := by
  cases h with
  | waited wait pc next free predicate sees move =>
      simp only [Plan.dozes, Bool.and_eq_true_iff] at dozing ⊢
      exact ⟨dozing.1, asleep_advance move dozing.2⟩
  | timedOut wait pc next timed => simp [Plan.dozes, timed] at dozing
  | onward _ _ awake => exact absurd (dozing.symm.trans awake) (by simp)

end Places

section Machine
variable {plan : Plan ω ρ} {step : σ → ε → Option σ} {place : σ → Place ω ρ} {flag : σ → Bool}
  {wakes : σ → ε → Bool} {own : ε → Prop} {I : σ → Prop} {s t : σ} {e : ε}
  (fits : Fits plan step place flag wakes own I)
include fits

theorem Fits.stopping_step (h : Stopping plan place flag I s) (hstep : step s e = some t) :
    Stopping plan place flag I t := by
  refine ⟨fits.keep s e t h.inv hstep, fits.set s e t h.set hstep, ?_⟩
  by_cases hown : own e
  · exact (fits.mine s e t hown hstep).awake h.set h.awake
  · obtain hsame | ⟨-, hnotified⟩ := fits.others s e t hown hstep
    · rw [hsame]
      exact h.awake
    · rw [hnotified]
      exact dozes_notified (misses_of_awake h.awake)

/-- Once the flag is set the thread's own events bring it to its end, if they happen. -/
theorem Fits.descends (goal : σ → Prop) : Descends step own (Stopping plan place flag I) goal
    fun s => plan.left (place s) := by
  refine ⟨fun s e t h _ hstep => .inl (fits.stopping_step h hstep),
    fun s e t h _ hown hstep => .inr ((fits.mine s e t hown hstep).lowers h.set),
    fun s e t _ _ hother hstep => .inr ?_⟩
  obtain hsame | ⟨-, hnotified⟩ := fits.others s e t hother hstep
  · rw [hsame]
  · rw [hnotified]
    exact left_notified_le _

/-- A sleeper is woken by nothing but a notification. -/
theorem Fits.dozes_step (dozing : plan.dozes (place s) = true) (quiet : wakes s e = false)
    (hstep : step s e = some t) : plan.dozes (place t) = true := by
  by_cases hown : own e
  · exact (fits.mine s e t hown hstep).dozes dozing
  · obtain hsame | ⟨hwakes, -⟩ := fits.others s e t hown hstep
    · rw [hsame]
      exact dozing
    · exact absurd (hwakes.symm.trans quiet) (by simp)

/-- A notification after the flag is set ends the thread, unless the thread misses it. Then
it sleeps until the next one. -/
theorem Fits.notified {x : Execution step} {returned : σ → Prop}
    (returns : x.LeadsTo (Stopping plan place flag I) returned) {k : Nat} {e : ε}
    (event : x.event k = some e) (inv : I (x.state k)) (set : flag (x.state k) = true)
    (notifies : place (x.state (k + 1)) = (place (x.state k)).notified) :
    (plan.misses (place (x.state k)) = false → ∃ j, k < j ∧ returned (x.state j)) ∧
    (plan.misses (place (x.state k)) = true →
      (∀ j e, k < j → x.event j = some e → wakes (x.state j) e = false) →
        ∀ j, k < j → plan.dozes (place (x.state j)) = true) := by
  constructor
  · intro hears
    have hnext := x.next k
    rw [event] at hnext
    obtain ⟨j, hkj, hreturned⟩ := returns (k + 1) ⟨fits.keep _ e _ inv hnext,
      fits.set _ e _ set hnext, notifies ▸ dozes_notified hears⟩
    exact ⟨j, hkj, hreturned⟩
  · intro hmisses hquiet j hkj
    by_contra hawake
    obtain ⟨i, e, hki, hdozing, hwoken, hevent, hstep⟩ :=
      x.ends (I := fun s => plan.dozes (place s) = true) hkj (notifies ▸ dozes_of_misses hmisses)
        hawake
    exact hwoken (fits.dozes_step hdozing (hquiet i e hki hevent) hstep)

end Machine

end TinyMiddleware.CondWait
