import Mathlib.Data.Set.Function
import Mathlib.Logic.Function.Basic

/-! A map whose keys and values are stored in another representation. Coding need
not be injective; the question is for which operations it does not show. -/
namespace TinyMiddleware.CodedMap

variable {σ τ K V K' V' : Type*}

inductive Op (K V : Type*) where
  | put (key : K) (value : V)
  | look (key : K)

/-- What a client sees of a sequence of operations: the results of its lookups. -/
def answers (put : σ → K → V → σ) (look : σ → K → V) : σ → List (Op K V) → List V
  | _, [] => []
  | s, .put key value :: rest => answers put look (put s key value) rest
  | s, .look key :: rest => look s key :: answers put look s rest

def after (put : σ → K → V → σ) : σ → List (Op K V) → σ
  | s, [] => s
  | s, .put key value :: rest => after put (put s key value) rest
  | s, .look _ :: rest => after put s rest

/-- The latest put under one of the keys that `p` picks out. -/
def lastPut (p : K → Bool) : List (Op K V) → Option (K × V)
  | [] => none
  | .put key value :: rest => (lastPut p rest).or (if p key then some (key, value) else none)
  | .look _ :: rest => lastPut p rest

def Within (keys : Set K) (values : Set V) : List (Op K V) → Prop
  | [] => True
  | .put key value :: rest => key ∈ keys ∧ value ∈ values ∧ Within keys values rest
  | .look key :: rest => key ∈ keys ∧ Within keys values rest

theorem within_append {keys : Set K} {values : Set V} {ops later : List (Op K V)} :
    Within keys values (ops ++ later) ↔ Within keys values ops ∧ Within keys values later := by
  induction ops with
  | nil => simp [Within]
  | cons op rest ih => cases op <;> simp [Within, ih, and_assoc]

theorem lastPut_within {keys : Set K} {values : Set V} {p : K → Bool} {ops : List (Op K V)}
    (hops : Within keys values ops) {key : K} {value : V}
    (h : lastPut p ops = some (key, value)) : p key = true ∧ key ∈ keys ∧ value ∈ values := by
  induction ops with
  | nil => cases h
  | cons op rest ih =>
      cases op with
      | look other => exact ih hops.2 h
      | put other new =>
          simp only [lastPut, Option.or_eq_some_iff] at h
          obtain hrest | ⟨-, hhere⟩ := h
          · exact ih hops.2.2 hrest
          · obtain ⟨hp, heq⟩ := Option.ite_none_right_eq_some.mp hhere
            cases Option.some.inj heq
            exact ⟨hp, hops.1, hops.2.1⟩

/-- Where fewer keys count, an earlier put may be the latest, but no later one. -/
theorem lastPut_of_imp {p q : K → Bool} (hqp : ∀ key, q key = true → p key = true)
    (ops : List (Op K V)) :
    (lastPut p ops = none → lastPut q ops = none) ∧
      ∀ key value, lastPut p ops = some (key, value) → q key = true →
        lastPut q ops = some (key, value) := by
  induction ops with
  | nil => exact ⟨fun _ => rfl, fun _ _ h => by cases h⟩
  | cons op rest ih =>
      obtain ⟨hnone, hsome⟩ := ih
      cases op with
      | look other => exact ⟨hnone, hsome⟩
      | put other new =>
          simp only [lastPut]
          cases hrest : lastPut p rest with
          | none =>
              rw [hnone hrest]
              simp only [Option.none_or]
              constructor
              · intro h
                have hp : ¬ p other = true := by simpa using h
                rw [if_neg fun hq => hp (hqp other hq)]
              · intro key value h hq
                obtain ⟨-, heq⟩ := Option.ite_none_right_eq_some.mp h
                cases Option.some.inj heq
                rw [if_pos hq]
          | some last =>
              refine ⟨fun h => by simp at h, ?_⟩
              intro key value h hq
              simp only [Option.some_or, Option.some.injEq] at h
              subst h
              rw [hsome key value hrest hq, Option.some_or]

theorem answers_eq_iff (put : σ → K → V → σ) (look : σ → K → V) (put' : τ → K → V → τ)
    (look' : τ → K → V) (s : σ) (t : τ) (ops : List (Op K V)) :
    answers put look s ops = answers put' look' t ops ↔
      ∀ earlier key later, ops = earlier ++ .look key :: later →
        look (after put s earlier) key = look' (after put' t earlier) key := by
  induction ops generalizing s t with
  | nil => simp [answers]
  | cons op rest ih =>
      cases op with
      | put new value =>
          rw [answers, answers, ih]
          constructor
          · intro h earlier key later hops
            cases earlier with
            | nil => cases hops
            | cons op earlier =>
                obtain ⟨rfl, hrest⟩ := List.cons.inj hops
                exact h earlier key later hrest
          · intro h earlier key later hops
            exact h (.put new value :: earlier) key later (congrArg _ hops)
      | look here =>
          rw [answers, answers, List.cons.injEq, ih]
          constructor
          · rintro ⟨hhere, h⟩ earlier key later hops
            cases earlier with
            | nil =>
                cases hops
                exact hhere
            | cons op earlier =>
                obtain ⟨rfl, hrest⟩ := List.cons.inj hops
                exact h earlier key later hrest
          · intro h
            refine ⟨h [] here rest rfl, ?_⟩
            intro earlier key later hops
            exact h (.look here :: earlier) key later (congrArg _ hops)

variable [DecidableEq K]

/-- The map itself; a key that was never put has the default value. -/
def direct (fallback : V) (ops : List (Op K V)) : List V :=
  answers Function.update (fun m key => m key) (fun _ => fallback) ops

theorem after_update (m : K → V) (ops : List (Op K V)) (key : K) :
    after Function.update m ops key =
      (lastPut (fun other => decide (other = key)) ops).elim (m key) Prod.snd := by
  induction ops generalizing m with
  | nil => rfl
  | cons op rest ih =>
      cases op with
      | look => exact ih m
      | put other value =>
          rw [after, ih, lastPut]
          cases lastPut (fun other => decide (other = key)) rest with
          | some last => rfl
          | none =>
              by_cases hkey : other = key
              · subst hkey
                simp
              · simp [hkey, Ne.symm hkey]

structure Coding (K V K' V' : Type*) where
  key : K → K'
  store : V → V'
  load : V' → V

namespace Coding

variable [DecidableEq K'] (c : Coding K V K' V') (fallback : V)

def put (m : K' → Option V') (key : K) (value : V) : K' → Option V' :=
  Function.update m (c.key key) (some (c.store value))

def look (m : K' → Option V') (key : K) : V :=
  (m (c.key key)).elim fallback c.load

def coded (ops : List (Op K V)) : List V :=
  answers c.put (c.look fallback) (fun _ => none) ops

/-- A lookup of `key` after these operations gives what it should: what was stored last
under the key's code was put under `key` itself and survives the round trip, or comes
back as the value that `key` should have anyway. -/
def Faithful (earlier : List (Op K V)) (key : K) : Prop :=
  ∀ other value,
    lastPut (fun other => decide (c.key other = c.key key)) earlier = some (other, value) →
      if other = key then c.load (c.store value) = value
      else c.load (c.store value) =
        (lastPut (fun other => decide (other = key)) earlier).elim fallback Prod.snd

omit [DecidableEq K] in
theorem after_put (m : K' → Option V') (ops : List (Op K V)) (code : K') :
    after c.put m ops code =
      ((lastPut (fun key => decide (c.key key = code)) ops).map fun last =>
        c.store last.2).or (m code) := by
  induction ops generalizing m with
  | nil => rfl
  | cons op rest ih =>
      cases op with
      | look => exact ih m
      | put key value =>
          rw [after, ih, lastPut]
          cases lastPut (fun key => decide (c.key key = code)) rest with
          | some last => rfl
          | none =>
              by_cases hcode : c.key key = code
              · subst hcode
                simp [put]
              · simp [put, hcode, Function.update_of_ne (Ne.symm hcode)]

theorem look_eq_iff (earlier : List (Op K V)) (key : K) :
    c.look fallback (after c.put (fun _ => none) earlier) key =
        after Function.update (fun _ => fallback) earlier key ↔
      c.Faithful fallback earlier key := by
  have hnarrow := lastPut_of_imp (p := fun other => decide (c.key other = c.key key))
    (q := fun other => decide (other = key)) (by simp +contextual) earlier
  unfold look Faithful
  rw [after_put, after_update]
  cases hlast : lastPut (fun other => decide (c.key other = c.key key)) earlier with
  | none => simp [hnarrow.1 hlast]
  | some last =>
      obtain ⟨other, value⟩ := last
      have hhere : ∀ P : K → V → Prop,
          (∀ other' value', some (other, value) = some (other', value') → P other' value') ↔
            P other value := by
        intro P
        constructor
        · intro h
          exact h other value rfl
        · rintro h other' value' heq
          cases heq
          exact h
      rw [hhere]
      simp only [Option.map_some, Option.some_or, Option.elim_some]
      by_cases hkey : other = key
      · rw [if_pos hkey, hnarrow.2 other value hlast (by simpa using hkey), Option.elim_some]
      · rw [if_neg hkey]

/-- For one sequence of operations: each lookup has to be faithful where it stands. -/
theorem coded_eq_direct_iff (ops : List (Op K V)) :
    c.coded fallback ops = direct fallback ops ↔
      ∀ earlier key later, ops = earlier ++ .look key :: later →
        c.Faithful fallback earlier key := by
  unfold coded direct
  rw [answers_eq_iff]
  simp only [c.look_eq_iff fallback]

theorem faithful_of_injOn {keys : Set K} {values : Set V} (apart : Set.InjOn c.key keys)
    (survive : ∀ value ∈ values, c.load (c.store value) = value) {earlier : List (Op K V)}
    (hops : Within keys values earlier) {key : K} (hkey : key ∈ keys) :
    c.Faithful fallback earlier key := by
  intro other value hlast
  obtain ⟨hcode, hother, hvalue⟩ := lastPut_within hops hlast
  rw [if_pos (apart hother hkey (of_decide_eq_true hcode))]
  exact survive value hvalue

theorem faithful_of_default {keys : Set K} {values : Set V}
    (survive : ∀ value ∈ values, c.load (c.store value) = value)
    (constant : ∀ value ∈ values, value = fallback) {earlier : List (Op K V)}
    (hops : Within keys values earlier) (key : K) : c.Faithful fallback earlier key := by
  intro other value hlast
  have hvalue := (lastPut_within hops hlast).2.2
  rw [survive value hvalue, constant value hvalue]
  split
  · rfl
  · cases hsame : lastPut (fun other => decide (other = key)) earlier with
    | none => rfl
    | some last => exact (constant last.2 (lastPut_within hops hsame).2.2).symm

/-- For all sequences over given keys and values: every value survives, and keys that
share a code are told apart only by values that equal the default anyway. -/
theorem coded_eq_direct_on_iff (keys : Set K) (values : Set V) :
    (∀ ops, Within keys values ops → c.coded fallback ops = direct fallback ops) ↔
      (keys.Nonempty → ∀ value ∈ values, c.load (c.store value) = value) ∧
        (Set.InjOn c.key keys ∨ ∀ value ∈ values, value = fallback) := by
  simp only [c.coded_eq_direct_iff fallback]
  constructor
  · intro h
    have hpair : ∀ key ∈ keys, ∀ key' ∈ keys, ∀ value ∈ values,
        c.Faithful fallback [.put key value] key' := by
      intro key hkey key' hkey' value hvalue
      exact h [.put key value, .look key'] ⟨hkey, hvalue, hkey', trivial⟩ _ _ [] rfl
    have survive : keys.Nonempty → ∀ value ∈ values, c.load (c.store value) = value := by
      rintro ⟨key, hkey⟩ value hvalue
      have hsame := hpair key hkey key hkey value hvalue key value (by simp [lastPut])
      rwa [if_pos rfl] at hsame
    refine ⟨survive, ?_⟩
    by_contra hboth
    obtain ⟨hapart, hvalues⟩ := not_or.mp hboth
    obtain ⟨value, hvalue, hne⟩ : ∃ value, value ∈ values ∧ value ≠ fallback := by
      simpa using hvalues
    apply hapart
    intro key hkey key' hkey' hsame
    by_contra hdiff
    have hother := hpair key hkey key' hkey' value hvalue key value (by simp [lastPut, hsame])
    rw [if_neg hdiff, survive ⟨key, hkey⟩ value hvalue] at hother
    exact hne (by simpa [lastPut, hdiff] using hother)
  · rintro ⟨survive, hkeys⟩ ops hops earlier key later rfl
    obtain ⟨hearlier, hkey, -⟩ := within_append.mp hops
    obtain apart | constant := hkeys
    · exact c.faithful_of_injOn fallback apart (survive ⟨key, hkey⟩) hearlier hkey
    · exact c.faithful_of_default fallback (survive ⟨key, hkey⟩) constant hearlier key

end Coding

end TinyMiddleware.CodedMap
