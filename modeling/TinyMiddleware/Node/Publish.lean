import TinyMiddleware.Node.Topics

/-! `Publisher::publish` on the publishers of a node, from any number of threads. The
`DataWriter` decides what becomes of a message; `publish` only passes its answer on. -/
namespace TinyMiddleware

open TinyMiddleware.Core Runs

abbrev ReturnCode := BitVec 32

def retcodeOk : ReturnCode := 0

/-- The implicit conversion of an integer to `bool`. -/
def intToBool (code : ReturnCode) : Bool :=
  code != 0

/-- What `publish` returns when `DataWriter::write` has returned `code`. -/
def Publisher.publishResult (code : ReturnCode) : Bool :=
  intToBool code

/-- What the generated `HelloWorldPublisherApp::publish` returns. -/
def HelloWorldPublisherApp.publishResult (code : ReturnCode) : Bool :=
  retcodeOk == code

/-- The drain loop of the subscription handler goes on after `take_next_sample`. -/
def drainGoesOn (code : ReturnCode) : Bool :=
  code == 0

/-- The same header reads return codes both ways round. -/
theorem publishResult_eq (code : ReturnCode) :
    Publisher.publishResult code = !drainGoesOn code ∧
      Publisher.publishResult code = !HelloWorldPublisherApp.publishResult code := by
  refine ⟨rfl, ?_⟩
  simp only [Publisher.publishResult, intToBool, HelloWorldPublisherApp.publishResult, retcodeOk,
    bne, Bool.beq_comm]

theorem publishResult_eq_true_iff (code : ReturnCode) :
    Publisher.publishResult code = true ↔ code ≠ retcodeOk := by
  rw [(publishResult_eq code).2, HelloWorldPublisherApp.publishResult, Bool.not_eq_true',
    beq_eq_false_iff_ne]
  exact ne_comm

inductive Progress where
  | entered
  | written (code : ReturnCode)
  | returned (code : ReturnCode) (result : Bool)

/-- One call of `publish`. -/
structure PublishCall (τ μ : Type) where
  publisher : Publisher τ
  msg : μ
  progress : Progress

structure Publishing (τ κ μ : Type) where
  session : Node.Session τ κ
  calls : List (PublishCall τ μ)

namespace Publishing

variable {τ κ μ : Type} (typeName : τ → String)

def init (τ κ μ : Type) : Publishing τ κ μ where
  session := Node.Session.init τ κ
  calls := []

/-- `publish p msg` enters a call on the publisher in place `p`; `write` and `ret` are
the two steps of the call in place `i`. -/
inductive Event (τ κ μ : Type) where
  | create (call : Node.Session.Call τ κ)
  | publish (p : Nat) (msg : μ)
  | write (i : Nat) (code : ReturnCode)
  | ret (i : Nat)

/-- The call in place `i` gets on, if it stands where `next` expects it. -/
def advance (s : Publishing τ κ μ) (i : Nat) (next : Progress → Option Progress) :
    Option (Publishing τ κ μ) :=
  s.calls[i]?.bind fun call => (next call.progress).map fun progress =>
    { s with calls := s.calls.set i { call with progress } }

def answer (code : ReturnCode) : Progress → Option Progress
  | .entered => some (.written code)
  | _ => none

def handBack : Progress → Option Progress
  | .written code => some (.returned code (Publisher.publishResult code))
  | _ => none

def step (s : Publishing τ κ μ) : Event τ κ μ → Option (Publishing τ κ μ)
  | .create call => some { s with session := s.session.apply typeName call }
  | .publish p msg => s.session.publishers[p]?.map fun publisher =>
      { s with calls := s.calls ++ [⟨publisher, msg, .entered⟩] }
  | .write i code => s.advance i (answer code)
  | .ret i => s.advance i handBack

/-- The call in place `i` is over; its writer had answered `code`. -/
def Returned (s : Publishing τ κ μ) (i : Nat) (code : ReturnCode) (result : Bool) : Prop :=
  (s.calls[i]?).map PublishCall.progress = some (.returned code result)

/-- The messages for which `publish` has returned true are those that the writers have
accepted, and the rest are those that they have refused. -/
structure Faithful (s : Publishing τ κ μ) : Prop where
  accepted : ∀ i code result, s.Returned i code result → (result = true ↔ code = retcodeOk)
  refused : ∀ i code result, s.Returned i code result → (result = false ↔ code ≠ retcodeOk)

def HasReturned (s : Publishing τ κ μ) : Prop :=
  ∃ i code result, s.Returned i code result

/-- Every result is the one that `publishResult` makes of the writer's answer. -/
def Converted (s : Publishing τ κ μ) : Prop :=
  ∀ i code result, s.Returned i code result → result = Publisher.publishResult code

variable {typeName} {s t : Publishing τ κ μ}

theorem advance_eq_some {i : Nat} {next : Progress → Option Progress}
    (h : s.advance i next = some t) :
    (∃ before after, (s.calls[i]?).map PublishCall.progress = some before ∧
      next before = some after ∧ (t.calls[i]?).map PublishCall.progress = some after) ∧
        ∀ j, j ≠ i → t.calls[j]? = s.calls[j]? := by
  obtain ⟨call, hcall, h⟩ := Option.bind_eq_some_iff.mp h
  obtain ⟨progress, hnext, rfl⟩ := Option.map_eq_some_iff.mp h
  have hlength := (List.getElem?_eq_some_iff.mp hcall).1
  refine ⟨⟨call.progress, progress, by rw [hcall]; rfl, hnext, ?_⟩, ?_⟩
  · simp only [List.getElem?_set_self hlength, Option.map_some]
  · intro j hj
    exact List.getElem?_set_ne hj.symm

/-- What a step does to the results: only `ret` makes one, and none is ever changed. -/
theorem returned_step {e : Event τ κ μ} (h : step typeName s e = some t) (j : Nat) :
    (e ≠ .ret j ∧ ∀ code result, t.Returned j code result ↔ s.Returned j code result) ∨
      (e = .ret j ∧ (∀ code result, ¬ s.Returned j code result) ∧
        ∃ code, ∀ code' result, t.Returned j code' result ↔
          code' = code ∧ result = Publisher.publishResult code) := by
  unfold Returned
  cases e with
  | create call =>
      cases Option.some.inj h
      exact .inl ⟨nofun, fun _ _ => Iff.rfl⟩
  | publish p msg =>
      obtain ⟨publisher, -, rfl⟩ := Option.map_eq_some_iff.mp h
      refine .inl ⟨nofun, fun code result => ?_⟩
      simp only [List.getElem?_append]
      split
      · exact Iff.rfl
      · next hj =>
          rw [List.getElem?_eq_none (Nat.le_of_not_lt hj)]
          cases hplace : j - s.calls.length <;> simp
  | write i code =>
      obtain ⟨⟨before, after, hbefore, hnext, hafter⟩, hkept⟩ := advance_eq_some h
      refine .inl ⟨nofun, fun code' result => ?_⟩
      by_cases hj : j = i
      · subst hj
        rw [hbefore, hafter]
        unfold answer at hnext
        split at hnext
        · cases Option.some.inj hnext
          simp
        · cases hnext
      · rw [hkept j hj]
  | ret i =>
      obtain ⟨⟨before, after, hbefore, hnext, hafter⟩, hkept⟩ := advance_eq_some h
      by_cases hj : j = i
      · subst hj
        unfold handBack at hnext
        split at hnext
        · next code =>
            cases Option.some.inj hnext
            refine .inr ⟨rfl, fun _ _ => by rw [hbefore]; simp, code, fun code' result => ?_⟩
            rw [hafter, Option.some.injEq, Progress.returned.injEq, eq_comm (a := code)]
            apply and_congr_right
            intro _
            exact eq_comm
        · cases hnext
      · refine .inl ⟨?_, fun code result => by rw [hkept j hj]⟩
        intro heq
        cases heq
        exact hj rfl

theorem Converted.after {e : Event τ κ μ} (h : Converted s) (hstep : step typeName s e = some t) :
    Converted t := by
  intro j code result hreturned
  obtain ⟨-, hsame⟩ | ⟨-, -, code', hnew⟩ := returned_step hstep j
  · exact h j code result ((hsame code result).mp hreturned)
  · obtain ⟨rfl, rfl⟩ := (hnew code result).mp hreturned
    rfl

theorem hasReturned_step {e : Event τ κ μ} (hstep : step typeName s e = some t) :
    HasReturned t ↔ HasReturned s ∨ ∃ i, e = .ret i := by
  constructor
  · rintro ⟨j, code, result, hreturned⟩
    obtain ⟨-, hsame⟩ | ⟨hret, -⟩ := returned_step hstep j
    · exact .inl ⟨j, code, result, (hsame code result).mp hreturned⟩
    · exact .inr ⟨j, hret⟩
  · rintro (⟨j, code, result, hreturned⟩ | ⟨j, hret⟩)
    · obtain ⟨-, hsame⟩ | ⟨-, hnone, -⟩ := returned_step hstep j
      · exact ⟨j, code, result, (hsame code result).mpr hreturned⟩
      · exact absurd hreturned (hnone code result)
    · obtain ⟨hother, -⟩ | ⟨-, -, code, hnew⟩ := returned_step hstep j
      · exact absurd hret hother
      · exact ⟨j, code, _, (hnew code _).mpr ⟨rfl, rfl⟩⟩

theorem hasReturned_run {events : List (Event τ κ μ)} (h : run (step typeName) s events = some t) :
    HasReturned t ↔ HasReturned s ∨ ∃ i, .ret i ∈ events := by
  induction events generalizing s with
  | nil =>
      cases Option.some.inj h
      simp
  | cons e rest ih =>
      obtain ⟨u, hstep, hrest⟩ := Option.bind_eq_some_iff.mp h
      rw [ih hrest, hasReturned_step hstep, or_assoc]
      apply or_congr_right
      simp only [List.mem_cons, exists_or, eq_comm]

/-- The conversion is wrong for every answer, so one result is enough to go wrong. -/
theorem faithful_iff_not_hasReturned (h : Converted s) : Faithful s ↔ ¬ HasReturned s := by
  constructor
  · rintro hfaithful ⟨i, code, result, hreturned⟩
    have hresult := hfaithful.accepted i code result hreturned
    rw [h i code result hreturned, publishResult_eq_true_iff] at hresult
    exact iff_not_self hresult.symm
  · intro hnone
    constructor
    · intro i code result hreturned
      exact absurd ⟨i, code, result, hreturned⟩ hnone
    · intro i code result hreturned
      exact absurd ⟨i, code, result, hreturned⟩ hnone

/-- `publish` reports acceptance faithfully in those runs in which no call of it returns. -/
theorem publish_faithful_iff {events : List (Event τ κ μ)}
    (h : run (step typeName) (init τ κ μ) events = some s) :
    Faithful s ↔ ∀ i, .ret i ∉ events := by
  have hconverted : Converted s :=
    (reachable_of_run h).keeps (by simp [Converted, Returned, init])
      fun _ _ _ hbefore hstep => hbefore.after hstep
  have hnone : ¬ HasReturned (init τ κ μ) := by
    simp [HasReturned, Returned, init]
  rw [faithful_iff_not_hasReturned hconverted, hasReturned_run h, or_iff_right hnone, not_exists]

/-- One publisher, and a message that its writer has accepted. -/
theorem publish_faithful_pending :
    ∃ s : Publishing Unit Unit Unit,
      run (step fun _ => "HelloWorld") (init Unit Unit Unit)
          [.create (.publisher ⟨true, true⟩ () "chatter"), .publish 0 (), .write 0 0] = some s ∧
        s.calls.length = 1 ∧ Faithful s := by
  have hrun : run (step fun _ => "HelloWorld") (init Unit Unit Unit)
    [.create (.publisher ⟨true, true⟩ () "chatter"), .publish 0 (), .write 0 0] = some _ := rfl
  exact ⟨_, rfl, rfl, (publish_faithful_iff hrun).mpr (by simp)⟩

/-- The same message, once `publish` has returned. -/
theorem not_publish_faithful :
    ¬ ∀ (events : List (Event Unit Unit Unit)) (s : Publishing Unit Unit Unit),
      run (step fun _ => "HelloWorld") (init Unit Unit Unit) events = some s → Faithful s := by
  intro hall
  have hfaithful := hall [.create (.publisher ⟨true, true⟩ () "chatter"), .publish 0 (),
    .write 0 0, .ret 0] _ rfl
  have haccepted := hfaithful.accepted 0 0 false rfl
  revert haccepted
  decide

end Publishing

end TinyMiddleware
