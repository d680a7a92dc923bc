import TinyMiddleware.Lib.Fairness
import Mathlib.Data.Fintype.Order

/-! What fair executions come to, when each thread of a machine is treated fairly by
itself. A goal need not last: nothing is asked of the steps taken once it is reached. -/
namespace TinyMiddleware.Fairness

open Runs

variable {σ ε τ δ β ι : Type*} {step : σ → ε → Option σ}

/-- Strong fairness: a class of events of which one is enabled again and again. -/
def Execution.StronglyFair (x : Execution step) (own : ε → Prop) : Prop :=
  ∀ k, (∀ i, k ≤ i → ∃ j, i ≤ j ∧ Enabled step own (x.state j)) →
    ∃ j e, k ≤ j ∧ own e ∧ x.event j = some e

theorem Execution.StronglyFair.fair {x : Execution step} {own : ε → Prop}
    (h : x.StronglyFair own) : x.Fair own := by
  intro k always
  exact h k fun i hi => ⟨i, le_rfl, always i hi⟩

/-- Finitely many threads, each treated fairly, are not all neglected: if one or the
other can move again and again, one or the other does. -/
theorem Execution.stronglyFair_of_threads [Finite ι] {x : Execution step} {own : ι → ε → Prop}
    (threads : ∀ i, x.StronglyFair (own i)) : x.StronglyFair fun e => ∃ i, own i e := by
  intro k again
  by_contra hnever
  have hquiet : ∀ i, ∃ bound, ∀ j, bound ≤ j → ¬ Enabled step (own i) (x.state j) := by
    intro i
    by_contra hrecurs
    apply hnever
    obtain ⟨j, e, hj, hown, hevent⟩ := threads i k fun b _ => by
      by_contra hstuck
      exact hrecurs ⟨b, fun j hj henabled => hstuck ⟨j, hj, henabled⟩⟩
    exact ⟨j, e, hj, ⟨i, hown⟩, hevent⟩
  choose bound hbound using hquiet
  obtain ⟨top, htop⟩ := Finite.exists_le bound
  obtain ⟨j, hj, e, t, ⟨i, hown⟩, hstep⟩ := again (max k top) (le_max_left k top)
  exact hbound i j ((htop i).trans ((le_max_right k top).trans hj)) ⟨e, t, hown, hstep⟩

theorem Execution.StronglyFair.or {x : Execution step} {own other : ε → Prop}
    (h : x.StronglyFair own) (h' : x.StronglyFair other) :
    x.StronglyFair fun e => own e ∨ other e := by
  have each : ∀ b, x.StronglyFair (cond b own other) := by
    intro b
    cases b
    · exact h'
    · exact h
  have both := Execution.stronglyFair_of_threads each
  simpa [Bool.exists_bool, or_comm] using both

def Execution.LeadsTo (x : Execution step) (P Q : σ → Prop) : Prop :=
  ∀ k, P (x.state k) → ∃ j, k ≤ j ∧ Q (x.state j)

theorem Execution.LeadsTo.trans {x : Execution step} {P Q R : σ → Prop} (hpq : x.LeadsTo P Q)
    (hqr : x.LeadsTo Q R) : x.LeadsTo P R := by
  intro k hk
  obtain ⟨i, hki, hi⟩ := hpq k hk
  obtain ⟨j, hij, hj⟩ := hqr i hi
  exact ⟨j, hki.trans hij, hj⟩

/-- What holds of every state may be used on the way. -/
theorem Execution.LeadsTo.under {x : Execution step} {I P Q : σ → Prop}
    (known : ∀ k, I (x.state k)) (h : x.LeadsTo (fun s => I s ∧ P s) Q) : x.LeadsTo P Q :=
  fun k hk => h k ⟨known k, hk⟩

/-- Until the goal is reached, own events lower the rank and no other event raises it. -/
structure Descends (step : σ → ε → Option σ) (own : ε → Prop) (I goal : σ → Prop)
    [Preorder β] (rank : σ → β) : Prop where
  keep : ∀ s e t, I s → ¬ goal s → step s e = some t → I t ∨ goal t
  down : ∀ s e t, I s → ¬ goal s → own e → step s e = some t → goal t ∨ rank t < rank s
  others : ∀ s e t, I s → ¬ goal s → ¬ own e → step s e = some t → goal t ∨ rank t ≤ rank s

section
variable {own : ε → Prop} {I goal : σ → Prop} [Preorder β] {rank : σ → β}

private theorem Descends.keeps (d : Descends step own I goal rank) (x : Execution step) {k : Nat}
    (hk : I (x.state k)) (hopen : ∀ j, k ≤ j → ¬ goal (x.state j)) :
    ∀ {j : Nat}, k ≤ j → I (x.state j) := by
  intro j hkj
  induction hkj with
  | refl => exact hk
  | @step j hkj ih =>
      have hnext := x.next j
      cases hevent : x.event j with
      | none =>
          rw [hevent] at hnext
          simpa only [Nat.succ_eq_add_one, hnext] using ih
      | some e =>
          rw [hevent] at hnext
          exact (d.keep _ e _ ih (hopen j hkj) hnext).resolve_right
            (hopen (j + 1) (Nat.le_succ_of_le hkj))

private theorem Descends.antitone (d : Descends step own I goal rank) (x : Execution step)
    {k : Nat} (hk : I (x.state k)) (hopen : ∀ j, k ≤ j → ¬ goal (x.state j)) :
    ∀ {j : Nat}, k ≤ j → rank (x.state j) ≤ rank (x.state k) := by
  intro j hkj
  induction hkj with
  | refl => exact le_rfl
  | @step j hkj ih =>
      have hnext := x.next j
      have hlast := hopen (j + 1) (Nat.le_succ_of_le hkj)
      cases hevent : x.event j with
      | none =>
          rw [hevent] at hnext
          simpa only [Nat.succ_eq_add_one, hnext] using ih
      | some e =>
          rw [hevent] at hnext
          have hj := d.keeps x hk hopen hkj
          by_cases hown : own e
          · have hlt := (d.down _ e _ hj (hopen j hkj) hown hnext).resolve_left hlast
            exact hlt.le.trans ih
          · exact ((d.others _ e _ hj (hopen j hkj) hown hnext).resolve_left hlast).trans ih

/-- The goal is reached if own events keep happening while it is not. -/
theorem Descends.eventually [WellFoundedLT β] (d : Descends step own I goal rank)
    (x : Execution step) {k : Nat} (hk : I (x.state k))
    (recurs : (∀ j, k ≤ j → ¬ goal (x.state j)) → ∀ i, k ≤ i →
      ∃ j e, i ≤ j ∧ own e ∧ x.event j = some e) : ∃ j, k ≤ j ∧ goal (x.state j) := by
  by_contra hnever
  have hopen : ∀ j, k ≤ j → ¬ goal (x.state j) := fun j hkj hgoal => hnever ⟨j, hkj, hgoal⟩
  have hsink : ∀ r i, k ≤ i → rank (x.state i) = r → False := by
    intro r
    induction r using WellFoundedLT.induction with
    | ind r ih =>
        rintro i hki rfl
        obtain ⟨j, e, hij, hown, hevent⟩ := recurs hopen i hki
        have hkj := hki.trans hij
        have hnext := x.next j
        rw [hevent] at hnext
        have hlower := (d.down _ e _ (d.keeps x hk hopen hkj) (hopen j hkj) hown hnext).resolve_left
          (hopen (j + 1) (Nat.le_succ_of_le hkj))
        have hle := d.antitone x (d.keeps x hk hopen hki)
          (fun j hj => hopen j (hki.trans hj)) hij
        exact ih _ (hlower.trans_le hle) (j + 1) (Nat.le_succ_of_le hkj) rfl
  exact hsink _ k le_rfl rfl

theorem Descends.eventually_of_fair [WellFoundedLT β] (d : Descends step own I goal rank)
    {x : Execution step} (fair : x.Fair own)
    (enabled : ∀ s, I s → ¬ goal s → Enabled step own s) : x.LeadsTo I goal := by
  intro k hk
  apply d.eventually x hk
  intro hopen i hki
  exact fair i fun j hij =>
    enabled _ (d.keeps x hk hopen (hki.trans hij)) (hopen j (hki.trans hij))

/-- Under strong fairness it is enough that own events are enabled again and again. -/
theorem Descends.eventually_of_stronglyFair [WellFoundedLT β]
    (d : Descends step own I goal rank) {x : Execution step} (fair : x.StronglyFair own)
    (again : x.LeadsTo (fun s => I s ∧ ¬ goal s) fun s => Enabled step own s) :
    x.LeadsTo I goal := by
  intro k hk
  apply d.eventually x hk
  intro hopen i hki
  exact fair i fun j hij =>
    again j ⟨d.keeps x hk hopen (hki.trans hij), hopen j (hki.trans hij)⟩

end

/-- How a component goes on in a step of which it sees an event, or nothing. -/
def Follows (above : τ → δ → Option τ) (before after : τ) : Option δ → Prop
  | none => after = before
  | some d => above before d = some after

/-- What an execution looks like in one component: a step that the component does
not see is one at which it does not move. -/
def Execution.project {above : τ → δ → Option τ} (x : Execution step) (view : σ → τ)
    (seen : σ → ε → Option δ)
    (matched : ∀ s e t, step s e = some t → Follows above (view s) (view t) (seen s e)) :
    Execution above where
  state k := view (x.state k)
  event k := (x.event k).bind (seen (x.state k))
  next k := by
    have hnext := x.next k
    cases hevent : x.event k with
    | none =>
        rw [hevent] at hnext
        exact congrArg view hnext
    | some e =>
        rw [hevent] at hnext
        have hmatched := matched _ e _ hnext
        simp only [Option.bind_some]
        cases hseen : seen (x.state k) e with
        | none =>
            rw [hseen] at hmatched
            exact hmatched
        | some d =>
            rw [hseen] at hmatched
            exact hmatched

/-- The same where the component is known up to a relation that its steps keep. -/
theorem Execution.follow {above : τ → δ → Option τ} (x : Execution step) (R : σ → τ → Prop)
    (seen : σ → ε → Option δ)
    (matched : ∀ s e t u, R s u → step s e = some t → ∃ v, Follows above u v (seen s e) ∧ R t v)
    {u : τ} (start : R (x.state 0) u) :
    ∃ y : Execution above, (∀ k, R (x.state k) (y.state k)) ∧
      ∀ k, y.event k = (x.event k).bind (seen (x.state k)) := by
  have hmove : ∀ k u, R (x.state k) u →
      ∃ v, Follows above u v ((x.event k).bind (seen (x.state k))) ∧ R (x.state (k + 1)) v := by
    intro k u hu
    have hnext := x.next k
    cases hevent : x.event k with
    | none =>
        rw [hevent] at hnext
        exact ⟨u, rfl, by rwa [hnext]⟩
    | some e =>
        rw [hevent] at hnext
        exact matched _ e _ u hu hnext
  choose after hfollows hrelated using hmove
  let chain : (k : Nat) → { u // R (x.state k) u } := fun k =>
    Nat.rec ⟨u, start⟩ (fun k v => ⟨after k v.1 v.2, hrelated k v.1 v.2⟩) k
  refine ⟨⟨fun k => (chain k).1, fun k => (x.event k).bind (seen (x.state k)), ?_⟩,
    fun k => (chain k).2, fun k => rfl⟩
  intro k
  have hk := hfollows k (chain k).1 (chain k).2
  cases hseen : (x.event k).bind (seen (x.state k)) with
  | none =>
      rw [hseen] at hk
      exact hk
  | some d =>
      rw [hseen] at hk
      exact hk

/-- A component's thread is treated fairly if the events behind its steps are, and are
enabled when its steps are. -/
theorem Execution.StronglyFair.followed {above : τ → δ → Option τ} {x : Execution step}
    {y : Execution above} {own : ε → Prop} (h : x.StronglyFair own) {seen : σ → ε → Option δ}
    (events : ∀ k, y.event k = (x.event k).bind (seen (x.state k))) {part : δ → Prop}
    (enabled : ∀ k, Enabled above part (y.state k) → Enabled step own (x.state k))
    (sees : ∀ s e, own e → ∃ d, seen s e = some d ∧ part d) : y.StronglyFair part := by
  intro k again
  obtain ⟨j, e, hj, hown, hevent⟩ := h k fun i hi => by
    obtain ⟨j, hj, hpart⟩ := again i hi
    exact ⟨j, hj, enabled j hpart⟩
  obtain ⟨d, hd, hpart⟩ := sees (x.state j) e hown
  refine ⟨j, d, hj, hpart, ?_⟩
  rw [events, hevent]
  exact hd

theorem Execution.StronglyFair.project {above : τ → δ → Option τ} {x : Execution step}
    {own : ε → Prop} (h : x.StronglyFair own) {view : σ → τ} {seen : σ → ε → Option δ}
    {matched : ∀ s e t, step s e = some t → Follows above (view s) (view t) (seen s e)}
    {part : δ → Prop}
    (enabled : ∀ k, Enabled above part (view (x.state k)) → Enabled step own (x.state k))
    (sees : ∀ s e, own e → ∃ d, seen s e = some d ∧ part d) :
    (x.project view seen matched).StronglyFair part :=
  h.followed (fun _ => rfl) enabled sees

/-- Finitely many lasting goals that are each reached are all reached together. -/
theorem Execution.eventually_all {x : Execution step} (goal : Nat → σ → Prop) {k : Nat}
    (lasting : ∀ i j j', j ≤ j' → goal i (x.state j) → goal i (x.state j')) {m : Nat}
    (each : ∀ i, i < m → ∃ j, k ≤ j ∧ goal i (x.state j)) :
    ∃ j, k ≤ j ∧ ∀ i, i < m → goal i (x.state j) := by
  induction m with
  | zero => exact ⟨k, le_rfl, fun i hi => absurd hi (Nat.not_lt_zero i)⟩
  | succ m ih =>
      obtain ⟨a, ha, hbefore⟩ := ih fun i hi => each i (Nat.lt_succ_of_lt hi)
      obtain ⟨b, hb, hlast⟩ := each m (Nat.lt_succ_self m)
      refine ⟨max a b, ha.trans (le_max_left a b), ?_⟩
      intro i hi
      obtain hi | rfl := Nat.lt_succ_iff_lt_or_eq.mp hi
      · exact lasting i a _ (le_max_left a b) (hbefore i hi)
      · exact lasting i b _ (le_max_right a b) hlast

/-- An execution from some moment on. -/
def Execution.drop (x : Execution step) (k : Nat) : Execution step where
  state j := x.state (k + j)
  event j := x.event (k + j)
  next j := x.next (k + j)

theorem Execution.StronglyFair.drop {x : Execution step} {own : ε → Prop}
    (h : x.StronglyFair own) (k : Nat) : (x.drop k).StronglyFair own := by
  intro i again
  obtain ⟨j, e, hj, hown, hevent⟩ := h (k + i) fun b hb => by
    obtain ⟨j, hj, henabled⟩ := again (b - k) (by omega)
    exact ⟨k + j, by omega, henabled⟩
  obtain ⟨m, rfl⟩ := Nat.exists_eq_add_of_le ((Nat.le_add_right k i).trans hj)
  exact ⟨m, e, by omega, hown, hevent⟩

/-- What holds now and not later on ends with some step. -/
theorem Execution.ends (x : Execution step) {I : σ → Prop} {k j : Nat} (hkj : k ≤ j)
    (hk : I (x.state k)) (hj : ¬ I (x.state j)) : ∃ i e, k ≤ i ∧ I (x.state i) ∧
      ¬ I (x.state (i + 1)) ∧ x.event i = some e ∧ step (x.state i) e = some (x.state (i + 1)) := by
  by_contra hnever
  apply hj
  induction hkj with
  | refl => exact hk
  | @step j hkj ih =>
      have hbefore : I (x.state j) := by
        by_contra hlost
        exact hlost (ih hlost)
      have hnext := x.next j
      cases hevent : x.event j with
      | none =>
          rw [hevent] at hnext
          simpa only [Nat.succ_eq_add_one, hnext] using hbefore
      | some e =>
          rw [hevent] at hnext
          by_contra hafter
          exact hnever ⟨j, e, hkj, hbefore, hafter, hevent, hnext⟩

/-- What is kept until a goal and does not hold later on has been lost to the goal. -/
theorem Execution.reached_of_left (x : Execution step) (I goal : σ → Prop)
    (keep : ∀ s e t, I s → step s e = some t → I t ∨ goal t) {k j : Nat} (hkj : k ≤ j)
    (hk : I (x.state k)) (hj : ¬ I (x.state j)) : ∃ i, k ≤ i ∧ goal (x.state i) := by
  obtain ⟨i, e, hki, hi, hlost, -, hstep⟩ := x.ends hkj hk hj
  exact ⟨i + 1, Nat.le_succ_of_le hki, (keep _ e _ hi hstep).resolve_left hlost⟩

/-- An execution of one machine is one of another that makes the same steps. -/
def Execution.recast (x : Execution step) (other : σ → ε → Option σ)
    (same : ∀ k e t, x.event k = some e → step (x.state k) e = some t →
      other (x.state k) e = some t) : Execution other where
  state := x.state
  event := x.event
  next k := by
    have hnext := x.next k
    cases hevent : x.event k with
    | none =>
        rw [hevent] at hnext
        exact hnext
    | some e =>
        rw [hevent] at hnext
        exact same k e _ hevent hnext

theorem Execution.StronglyFair.recast {x : Execution step} {own : ε → Prop}
    (h : x.StronglyFair own) {other : σ → ε → Option σ}
    {same : ∀ k e t, x.event k = some e → step (x.state k) e = some t →
      other (x.state k) e = some t}
    (enabled : ∀ s, Enabled other own s → Enabled step own s) :
    (x.recast other same).StronglyFair own := by
  intro k again
  apply h k
  intro i hi
  obtain ⟨j, hj, henabled⟩ := again i hi
  exact ⟨j, hj, enabled _ henabled⟩

/-- A finite run, with nothing happening after it. -/
def Execution.ofRun {s t : σ} {events : List ε} (h : run step s events = some t) :
    Execution step where
  state k := (run step s (events.take k)).getD t
  event k := events[k]?
  next k := by
    have hsplit : run step s (events.take k ++ events.drop k) = some t := by
      rw [List.take_append_drop]
      exact h
    rw [run_append] at hsplit
    obtain ⟨u, hu, hrest⟩ := Option.bind_eq_some_iff.mp hsplit
    cases hevent : events[k]? with
    | none =>
        have hlen := List.getElem?_eq_none_iff.mp hevent
        simp only [List.take_of_length_le hlen, List.take_of_length_le (Nat.le_succ_of_le hlen)]
    | some e =>
        obtain ⟨hk, rfl⟩ := List.getElem?_eq_some_iff.mp hevent
        rw [List.drop_eq_getElem_cons hk] at hrest
        obtain ⟨v, hv, -⟩ := Option.bind_eq_some_iff.mp hrest
        have hnext : run step s (events.take (k + 1)) = some v := by
          rw [List.take_succ_eq_append_getElem hk, run_append, hu]
          simpa only [run, Option.bind_some] using congrArg (Option.bind · some) hv
        simp only [hu, hnext, Option.getD_some]
        exact hv

theorem Execution.ofRun_start {s t : σ} {events : List ε} (h : run step s events = some t) :
    (ofRun h).state 0 = s := by
  simp [ofRun, run]

theorem Execution.ofRun_end {s t : σ} {events : List ε} (h : run step s events = some t) {j : Nat}
    (hj : events.length ≤ j) : (ofRun h).state j = t := by
  simp only [ofRun, List.take_of_length_le hj, h, Option.getD_some]

/-- It is fair to whoever can do nothing at its end. -/
theorem Execution.ofRun_stronglyFair {s t : σ} {events : List ε} {own : ε → Prop}
    (h : run step s events = some t) (stuck : ¬ Enabled step own t) :
    (ofRun h).StronglyFair own := by
  intro k again
  obtain ⟨j, hj, henabled⟩ := again (max k events.length) (le_max_left k _)
  rw [ofRun_end h ((le_max_right k _).trans hj)] at henabled
  exact absurd henabled stuck

end TinyMiddleware.Fairness
