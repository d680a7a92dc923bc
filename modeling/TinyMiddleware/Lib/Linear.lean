import Mathlib.Data.List.Nodup

/-! Linearizability. A timeline says when calls are made, take effect and return. If each
call takes effect at most once, and before it returns an answer, then the effects in their
order are a sequential history that agrees with real time. -/
namespace TinyMiddleware.Linear

variable {κ σ α ρ : Type*}

/-- A call that returns without an answer has failed. It may have taken effect, and may
still do so. -/
inductive Mark (κ α ρ : Type*) where
  | call (id : κ) (op : α)
  | effect (id : κ) (op : α) (answer : ρ)
  | ret (id : κ) (answer : Option ρ)

structure Effect (κ α ρ : Type*) where
  id : κ
  op : α
  answer : ρ

def effects : List (Mark κ α ρ) → List (Effect κ α ρ)
  | [] => []
  | .effect id op answer :: rest => ⟨id, op, answer⟩ :: effects rest
  | .call _ _ :: rest | .ret _ _ :: rest => effects rest

/-- What the callers see. -/
def history : List (Mark κ α ρ) → List (Mark κ α ρ)
  | [] => []
  | .effect _ _ _ :: rest => history rest
  | .call id op :: rest => .call id op :: history rest
  | .ret id answer :: rest => .ret id answer :: history rest

/-- Operations one after the other with the answers they give. -/
def Legal (apply : σ → α → σ × ρ) : σ → List (Effect κ α ρ) → Prop
  | _, [] => True
  | s, e :: rest => (apply s e.op).2 = e.answer ∧ Legal apply (apply s e.op).1 rest

/-- An order of operations that explains what the callers have seen: each was called, each
answer is the answer of one of them, and no operation comes before one that had returned an
answer when it was called. -/
structure Explains (apply : σ → α → σ × ρ) (s : σ) (seen : List (Mark κ α ρ))
    (order : List (Effect κ α ρ)) : Prop where
  legal : Legal apply s order
  once : (order.map Effect.id).Nodup
  called : ∀ e ∈ order, Mark.call e.id e.op ∈ seen
  answered : ∀ id answer, Mark.ret id (some answer) ∈ seen →
    ∃ op, (⟨id, op, answer⟩ : Effect κ α ρ) ∈ order
  realTime : ∀ before between after id answer later op,
    seen = before ++ .ret id (some answer) :: between ++ .call later op :: after →
      ∀ (i j : Nat) (e f : Effect κ α ρ), order[i]? = some e → order[j]? = some f →
        e.id = id → f.id = later → i < j

def Linearizable (apply : σ → α → σ × ρ) (s : σ) (seen : List (Mark κ α ρ)) : Prop :=
  ∃ order, Explains apply s seen order

section Timelines
variable {mark : Mark κ α ρ} {marks more : List (Mark κ α ρ)}

theorem effects_append : effects (marks ++ more) = effects marks ++ effects more := by
  induction marks with
  | nil => rfl
  | cons mark rest ih => cases mark <;> simp [effects, ih]

theorem mem_effects {id : κ} {op : α} {answer : ρ} :
    (⟨id, op, answer⟩ : Effect κ α ρ) ∈ effects marks ↔ Mark.effect id op answer ∈ marks := by
  induction marks with
  | nil => simp [effects]
  | cons first rest ih => cases first <;> simp [effects, ih]

theorem mem_history (hmark : ∀ id op answer, mark ≠ .effect id op answer) :
    mark ∈ history marks ↔ mark ∈ marks := by
  induction marks with
  | nil => exact Iff.rfl
  | cons first rest ih =>
      cases first with
      | effect id op answer => simp [history, ih, hmark]
      | call => simp [history, ih]
      | ret => simp [history, ih]

/-- A place in the history is a place in the timeline. -/
theorem split_of_history {before after : List (Mark κ α ρ)}
    (h : history marks = before ++ mark :: after) :
    ∃ earlier later, marks = earlier ++ mark :: later ∧ history later = after := by
  induction marks generalizing before with
  | nil => simp [history] at h
  | cons first rest ih =>
      have hrest : ∀ {before}, history rest = before ++ mark :: after →
          ∃ earlier later,
            first :: rest = earlier ++ mark :: later ∧ history later = after := by
        intro before hsplit
        obtain ⟨earlier, later, rfl, hlater⟩ := ih hsplit
        exact ⟨first :: earlier, later, rfl, hlater⟩
      have hhere : history (first :: rest) = first :: history rest →
          ∃ earlier later,
            first :: rest = earlier ++ mark :: later ∧ history later = after := by
        intro hfirst
        rw [hfirst] at h
        cases before with
        | nil =>
            obtain ⟨rfl, hafter⟩ := List.cons.inj h
            exact ⟨[], rest, rfl, hafter⟩
        | cons _ before => exact hrest (List.cons.inj h).2
      cases first with
      | effect => exact hrest h
      | call => exact hhere rfl
      | ret => exact hhere rfl

/-- A history explained by one object is explained by another that answers alike. -/
theorem Linearizable.simulate {τ : Type*} {apply : σ → α → σ × ρ} {apply' : τ → α → τ × ρ}
    {R : σ → τ → Prop} {P : α → Prop}
    (alike : ∀ s t op, R s t → P op →
      (apply s op).2 = (apply' t op).2 ∧ R (apply s op).1 (apply' t op).1)
    {s : σ} {t : τ} (related : R s t) (only : ∀ id op, Mark.call id op ∈ marks → P op)
    (h : Linearizable apply s marks) : Linearizable apply' t marks := by
  obtain ⟨order, explains⟩ := h
  refine ⟨order, { explains with legal := ?_ }⟩
  have hall : ∀ e ∈ order, P e.op := fun e he => only _ _ (explains.called e he)
  have hlegal := explains.legal
  clear explains
  induction order generalizing s t with
  | nil => trivial
  | cons e rest ih =>
      obtain ⟨hanswer, hrest⟩ := hlegal
      obtain ⟨hsame, hnext⟩ := alike s t e.op related (hall e (List.mem_cons_self ..))
      exact ⟨hsame ▸ hanswer,
        ih hnext (fun f hf => hall f (List.mem_cons_of_mem _ hf)) hrest⟩

end Timelines

section Objects
variable [DecidableEq κ]

inductive Phase (α ρ : Type*) where
  | unused
  | called (op : α)
  | abandoned (op : α)
  | effected (op : α) (answer : ρ)
  | returned

/-- One object on which every operation takes effect in an instant. -/
structure Atomic (κ σ α ρ : Type*) where
  value : σ
  phase : κ → Phase α ρ

def Atomic.init (s : σ) : Atomic κ σ α ρ where
  value := s
  phase := fun _ => .unused

def Atomic.setPhase (o : Atomic κ σ α ρ) (id : κ) (phase : Phase α ρ) : Atomic κ σ α ρ :=
  { o with phase := Function.update o.phase id phase }

@[simp] theorem phase_setPhase (o : Atomic κ σ α ρ) (id other : κ) (phase : Phase α ρ) :
    (o.setPhase id phase).phase other = if other = id then phase else o.phase other :=
  Function.update_apply _ _ _ _

/-- What the object allows next, given what each operation does to it. -/
inductive Atomic.Moves (apply : σ → α → σ × ρ) (o : Atomic κ σ α ρ) :
    Mark κ α ρ → Atomic κ σ α ρ → Prop
  | called (id : κ) (op : α) (fresh : o.phase id = .unused) :
      Moves apply o (.call id op) (o.setPhase id (.called op))
  | effected (id : κ) (op : α) (here : o.phase id = .called op) :
      Moves apply o (.effect id op (apply o.value op).2)
        (Atomic.mk (apply o.value op).1 o.phase |>.setPhase id
          (.effected op (apply o.value op).2))
  | effectedLate (id : κ) (op : α) (here : o.phase id = .abandoned op) :
      Moves apply o (.effect id op (apply o.value op).2)
        (Atomic.mk (apply o.value op).1 o.phase |>.setPhase id .returned)
  | answered (id : κ) (op : α) (answer : ρ) (here : o.phase id = .effected op answer) :
      Moves apply o (.ret id (some answer)) (o.setPhase id .returned)
  | abandoned (id : κ) (op : α) (here : o.phase id = .called op) :
      Moves apply o (.ret id none) (o.setPhase id (.abandoned op))
  | failed (id : κ) (op : α) (answer : ρ) (here : o.phase id = .effected op answer) :
      Moves apply o (.ret id none) (o.setPhase id .returned)

/-- The object goes through a timeline. -/
inductive Atomic.Accepts (apply : σ → α → σ × ρ) :
    Atomic κ σ α ρ → List (Mark κ α ρ) → Atomic κ σ α ρ → Prop
  | nil (o : Atomic κ σ α ρ) : Accepts apply o [] o
  | cons {o p q : Atomic κ σ α ρ} {mark : Mark κ α ρ} {rest : List (Mark κ α ρ)}
      (first : o.Moves apply mark p) (more : Accepts apply p rest q) :
      Accepts apply o (mark :: rest) q

variable {apply : σ → α → σ × ρ} {o p q : Atomic κ σ α ρ} {mark : Mark κ α ρ}
  {marks more : List (Mark κ α ρ)}

theorem Atomic.Accepts.append (h : o.Accepts apply marks p) (h' : p.Accepts apply more q) :
    o.Accepts apply (marks ++ more) q := by
  induction h with
  | nil => exact h'
  | cons first _ ih => exact .cons first (ih h')

theorem Atomic.Accepts.single (h : o.Moves apply mark p) : o.Accepts apply [mark] p :=
  .cons h (.nil p)

theorem Atomic.Accepts.split (h : o.Accepts apply (marks ++ more) q) :
    ∃ p, o.Accepts apply marks p ∧ p.Accepts apply more q := by
  induction marks generalizing o with
  | nil => exact ⟨o, .nil o, h⟩
  | cons mark rest ih =>
      cases h with
      | cons first hrest =>
          obtain ⟨p, hp, hq⟩ := ih hrest
          exact ⟨p, .cons first hp, hq⟩

/-- A call goes through its phases in their order. -/
def Phase.age : Phase α ρ → Nat
  | .unused => 0
  | .called _ | .abandoned _ => 1
  | .effected _ _ => 2
  | .returned => 3

theorem Atomic.Moves.age_le (h : o.Moves apply mark p) (id : κ) :
    (o.phase id).age ≤ (p.phase id).age := by
  cases h with
  | called _ _ here | effected _ _ here | effectedLate _ _ here | answered _ _ _ here
  | abandoned _ _ here | failed _ _ _ here =>
      simp only [phase_setPhase]
      split
      · next heq =>
          rw [heq, here]
          simp [Phase.age]
      · exact Nat.le_refl _

theorem Atomic.Accepts.age_le (h : o.Accepts apply marks p) (id : κ) :
    (o.phase id).age ≤ (p.phase id).age := by
  induction h with
  | nil => exact Nat.le_refl _
  | cons first _ ih => exact Nat.le_trans (first.age_le id) ih

theorem Atomic.Moves.effect_age {id : κ} {op : α} {answer : ρ}
    (h : o.Moves apply (.effect id op answer) p) :
    (o.phase id).age = 1 ∧ 2 ≤ (p.phase id).age := by
  cases h with
  | effected _ _ here | effectedLate _ _ here => simp [here, Phase.age]

/-- An effect comes in the middle of its call. -/
theorem Atomic.Accepts.effect_age (h : o.Accepts apply marks p) {e : Effect κ α ρ}
    (he : e ∈ effects marks) : (o.phase e.id).age ≤ 1 ∧ 2 ≤ (p.phase e.id).age := by
  induction h with
  | nil => cases he
  | @cons o p q mark rest first hrest ih =>
      have later (hlater : e ∈ effects rest) :
          (o.phase e.id).age ≤ 1 ∧ 2 ≤ (q.phase e.id).age :=
        ⟨Nat.le_trans (first.age_le e.id) (ih hlater).1, (ih hlater).2⟩
      cases mark with
      | call | ret => exact later he
      | effect id op answer =>
          obtain rfl | hlater := List.mem_cons.mp he
          · obtain ⟨hopen, hpast⟩ := first.effect_age
            exact ⟨Nat.le_of_eq hopen, Nat.le_trans hpast (hrest.age_le id)⟩
          · exact later hlater

theorem Atomic.Accepts.legal (h : o.Accepts apply marks p) :
    Legal apply o.value (effects marks) := by
  induction h with
  | nil => trivial
  | cons first _ ih =>
      cases first with
      | called | answered | abandoned | failed => exact ih
      | effected | effectedLate => exact ⟨rfl, ih⟩

theorem Atomic.Accepts.once (h : o.Accepts apply marks p) :
    ((effects marks).map Effect.id).Nodup := by
  induction h with
  | nil => exact List.nodup_nil
  | @cons o p q mark rest first hrest ih =>
      cases mark with
      | call | ret => exact ih
      | effect id op answer =>
          refine List.nodup_cons.mpr ⟨?_, ih⟩
          intro hagain
          obtain ⟨e, he, heq⟩ := List.mem_map.mp hagain
          have hopen := (hrest.effect_age he).1
          have hpast := first.effect_age.2
          dsimp only at heq
          rw [heq] at hopen
          omega

/-- The operation of a call that may still take effect. -/
def Phase.pending : Phase α ρ → Option α
  | .called op | .abandoned op => some op
  | .unused | .effected _ _ | .returned => none

theorem Atomic.Moves.pending_of (h : o.Moves apply mark p) {id : κ} {op : α}
    (hp : (p.phase id).pending = some op) :
    (o.phase id).pending = some op ∨ mark = .call id op := by
  cases h with
  | called k new fresh =>
      simp only [phase_setPhase] at hp
      split at hp
      · next heq =>
          cases hp
          exact .inr (by rw [heq])
      · exact .inl hp
  | abandoned k old here =>
      simp only [phase_setPhase] at hp
      split at hp
      · next heq =>
          rw [heq, here]
          exact .inl hp
      · exact .inl hp
  | effected | effectedLate | answered | failed =>
      simp only [phase_setPhase] at hp
      split at hp
      · cases hp
      · exact .inl hp

/-- A call can still take effect until it does. -/
theorem Atomic.Moves.still_pending (h : o.Moves apply mark p) {id : κ} {op : α}
    (ho : (o.phase id).pending = some op) (hnot : ∀ new answer, mark ≠ .effect id new answer) :
    (p.phase id).pending = some op := by
  cases h with
  | called k new here | answered k new answer here | failed k new answer here =>
      rw [phase_setPhase, if_neg]
      · exact ho
      · rintro rfl
        simp [here, Phase.pending] at ho
  | abandoned k old here =>
      rw [phase_setPhase]
      split
      · next heq =>
          rw [heq, here] at ho
          exact ho
      · exact ho
  | effected k new here | effectedLate k new here =>
      rw [phase_setPhase, if_neg]
      · exact ho
      · rintro rfl
        exact hnot _ _ rfl

theorem Atomic.Accepts.still_pending (h : o.Accepts apply marks p) {id : κ} {op : α}
    (ho : (o.phase id).pending = some op) (hnot : ∀ new answer, Mark.effect id new answer ∉ marks) :
    (p.phase id).pending = some op := by
  induction h with
  | nil => exact ho
  | cons first _ ih =>
      refine ih (first.still_pending ho ?_) ?_
      · rintro new answer rfl
        exact hnot new answer (List.mem_cons_self ..)
      · intro new answer hin
        exact hnot new answer (List.mem_cons_of_mem _ hin)

theorem Atomic.Moves.effected_of (h : o.Moves apply mark p) {id : κ} {op : α} {answer : ρ}
    (hp : p.phase id = .effected op answer) :
    o.phase id = .effected op answer ∨ mark = .effect id op answer := by
  cases h with
  | effected k new here =>
      simp only [phase_setPhase] at hp
      split at hp
      · next heq =>
          cases hp
          exact .inr (by rw [heq])
      · exact .inl hp
  | called | abandoned | effectedLate | answered | failed =>
      simp only [phase_setPhase] at hp
      split at hp
      · cases hp
      · exact .inl hp

theorem Atomic.Accepts.called (h : o.Accepts apply marks p) {e : Effect κ α ρ}
    (he : e ∈ effects marks) :
    (o.phase e.id).pending = some e.op ∨ Mark.call e.id e.op ∈ marks := by
  induction h with
  | nil => cases he
  | @cons o p q mark rest first hrest ih =>
      have later (hlater : e ∈ effects rest) :
          (o.phase e.id).pending = some e.op ∨ Mark.call e.id e.op ∈ mark :: rest := by
        obtain hpending | hin := ih hlater
        · obtain hbefore | rfl := first.pending_of hpending
          · exact .inl hbefore
          · exact .inr (List.mem_cons_self ..)
        · exact .inr (List.mem_cons_of_mem _ hin)
      cases mark with
      | call | ret => exact later he
      | effect id op answer =>
          obtain rfl | hlater := List.mem_cons.mp he
          · cases first with
            | effected _ _ here | effectedLate _ _ here =>
                exact .inl (by simp [here, Phase.pending])
          · exact later hlater

theorem Atomic.Accepts.answered (h : o.Accepts apply marks p) {id : κ} {answer : ρ}
    (hret : Mark.ret id (some answer) ∈ marks) :
    ∃ op, o.phase id = .effected op answer ∨
      (⟨id, op, answer⟩ : Effect κ α ρ) ∈ effects marks := by
  induction h with
  | nil => cases hret
  | @cons o p q mark rest first hrest ih =>
      obtain rfl | hlater := List.mem_cons.mp hret
      · cases first with
        | answered _ op _ here => exact ⟨op, .inl here⟩
      · obtain ⟨op, heffected | hin⟩ := ih hlater
        · obtain hbefore | rfl := first.effected_of heffected
          · exact ⟨op, .inl hbefore⟩
          · exact ⟨op, .inr (List.mem_cons_self ..)⟩
        · refine ⟨op, .inr ?_⟩
          cases mark with
          | call | ret => exact hin
          | effect => exact List.mem_cons_of_mem _ hin

/-- What may still take effect has not, and has not been answered either. -/
theorem Atomic.Accepts.silent (h : o.Accepts apply marks p) {id : κ} {op : α}
    (hp : (p.phase id).pending = some op) :
    (∀ old answer, Mark.effect id old answer ∉ marks) ∧
      ∀ answer, Mark.ret id (some answer) ∉ marks := by
  have hage : (p.phase id).age = 1 := by
    cases hphase : p.phase id <;> simp_all [Phase.pending, Phase.age]
  constructor
  · intro old answer hin
    have hpast := (h.effect_age (mem_effects.mpr hin)).2
    dsimp only at hpast
    omega
  · intro answer hin
    obtain ⟨new, heffected | heffect⟩ := h.answered hin
    · have hle := h.age_le id
      rw [heffected, hage] at hle
      simp [Phase.age] at hle
    · have hpast := (h.effect_age heffect).2
      dsimp only at hpast
      omega

/-- What had returned before a call was made has had its effect before it. -/
theorem Atomic.Accepts.realTime {before between after : List (Mark κ α ρ)} {id later : κ}
    {answer : ρ} {op : α}
    (h : o.Accepts apply (before ++ .ret id (some answer) :: between ++ .call later op :: after) p)
    {i j : Nat} {e f : Effect κ α ρ}
    (hi : (effects (before ++ .ret id (some answer) :: between ++ .call later op :: after))[i]? =
      some e)
    (hj : (effects (before ++ .ret id (some answer) :: between ++ .call later op :: after))[j]? =
      some f)
    (he : e.id = id) (hf : f.id = later) : i < j := by
  obtain ⟨q, hq, hafter⟩ := h.split
  obtain ⟨r, -, hr⟩ := hq.split
  rw [effects_append] at hi hj
  -- the answer is given when the effect is past, and the call made when it has not come
  have hpast : 3 ≤ (q.phase id).age := by
    cases hr with
    | cons first hrest =>
        have hage := hrest.age_le id
        cases first with
        | answered _ _ _ here => simpa [Phase.age] using hage
  have hfresh : (q.phase later).age = 0 := by
    cases hafter with
    | cons first hrest =>
        cases first with
        | called _ _ fresh => simp [fresh, Phase.age]
  have hlow : i < (effects (before ++ .ret id (some answer) :: between)).length := by
    by_contra hnot
    rw [List.getElem?_append_right (by omega)] at hi
    have hopen := (hafter.effect_age (List.mem_of_getElem? hi)).1
    rw [he] at hopen
    omega
  have hhigh : (effects (before ++ .ret id (some answer) :: between)).length ≤ j := by
    by_contra hnot
    rw [List.getElem?_append_left (by omega)] at hj
    have hclosed := (hq.effect_age (List.mem_of_getElem? hj)).2
    rw [hf] at hclosed
    omega
  omega

/-- The effects in the order in which they happen explain what the callers see. -/
theorem Atomic.Accepts.explains {s : σ} (h : (Atomic.init s).Accepts apply marks p) :
    Explains apply s (history marks) (effects marks) where
  legal := h.legal
  once := h.once
  called := by
    intro e he
    obtain hpending | hin := h.called he
    · cases hpending
    · exact (mem_history nofun).mpr hin
  answered := by
    intro id answer hret
    obtain ⟨op, heffected | hin⟩ := h.answered ((mem_history nofun).mp hret)
    · cases heffected
    · exact ⟨op, hin⟩
  realTime := by
    intro before between after id answer later op hseen i j e f hi hj he hf
    rw [List.append_assoc] at hseen
    obtain ⟨earlier, rest, rfl, hrest⟩ := split_of_history hseen
    obtain ⟨middle, last, rfl, -⟩ := split_of_history hrest
    rw [← List.cons_append, ← List.append_assoc] at h hi hj
    exact h.realTime hi hj he hf

end Objects

end TinyMiddleware.Linear
