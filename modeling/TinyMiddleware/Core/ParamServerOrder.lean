import TinyMiddleware.Core.ParamServer
import Mathlib.Tactic.Common

/-! The parameters of all clients are one atomic map. A command takes effect where the
server executes it, and the mutex sees to it that its reply reaches the call that waits. -/
namespace TinyMiddleware.Core.ParamServer

open Runs Linear CodedMap

variable {ι θ : Type}

/-- One call after the other on the server, as a client alone on it would make them. -/
def apply (db : Redis) : Call → Redis × Bytes
  | .put key value => ((ParamClient.mk true).set db .answered key value, [])
  | .look key => (db, (ParamClient.mk true).get db .answered key)

theorem apply_eq (db : Redis) (call : Call) : apply db call =
    ((db.execute (command call)).1, result call (db.execute (command call)).2) := by
  cases call with
  | put => rfl
  | look key =>
      simp only [apply, ParamClient.get, command, redisCommand, Redis.execute, if_true]
      cases db (cString key) <;> rfl

def Pc.inside : Pc → Bool
  | .idle | .calling _ => false
  | .entered _ | .waiting _ | .leaving _ _ => true

/-- How far the call that a thread is in may have come. -/
def Pc.Agrees : Pc → Phase Call Bytes → Prop
  | .idle, phase => phase = .unused
  | .calling call, phase | .entered call, phase => phase = .called call
  | .waiting call, phase => phase = .called call ∨ ∃ answer, phase = .effected call answer
  | .leaving true result, phase => ∃ call, phase = .effected call result
  | .leaving false _, phase =>
      ∃ call, phase = .called call ∨ ∃ answer, phase = .effected call answer

abbrev Server (θ : Type) := Atomic (θ × Nat) Redis Call Bytes

/-- What is on a connection: nothing, the command or the reply of the one thread that
waits, or the command of a call that was given up. -/
inductive Line (client : θ → ι) (s : State ι θ) (o : Server θ) (i : ι) : Prop
  | quiet (noRequest : (s.connection i).requests = []) (noReply : (s.connection i).replies = [])
      (nobody : (s.connection i).err = false →
        ∀ t, client t = i → ∀ call, s.thread t ≠ .waiting call)
  | asked (t : θ) (call : Call) (whose : client t = i) (here : s.thread t = .waiting call)
      (request : (s.connection i).requests = [⟨(t, s.made t), call⟩])
      (noReply : (s.connection i).replies = [])
      (pending : o.phase (t, s.made t) = .called call)
  | answered (t : θ) (call : Call) (reply : Reply) (whose : client t = i)
      (here : s.thread t = .waiting call) (sound : (s.connection i).err = false)
      (noRequest : (s.connection i).requests = [])
      (replies : (s.connection i).replies = [reply])
      (done : o.phase (t, s.made t) = .effected call (result call reply))
  | stray (t : θ) (n : Nat) (call : Call) (whose : client t = i)
      (broken : (s.connection i).err = true)
      (request : (s.connection i).requests = [⟨(t, n), call⟩])
      (noReply : (s.connection i).replies = [])
      (pending : (n < s.made t ∧ o.phase (t, n) = .abandoned call) ∨
        (n = s.made t ∧ (∃ result, s.thread t = .leaving false result) ∧
          o.phase (t, n) = .called call))

structure Agrees (client : θ → ι) (s : State ι θ) (o : Server θ) : Prop where
  value : o.value = s.db
  fresh : ∀ t n, s.made t < n → o.phase (t, n) = .unused
  guarded : ∀ t, (s.thread t).inside = true ↔ s.mutex (client t) = some t
  thread : ∀ t, (s.thread t).Agrees (o.phase (t, s.made t))
  line : ∀ i, Line client s o i

variable {client : θ → ι} {params : ι → ParamClient} {s u : State ι θ} {o p : Server θ}

theorem agrees_init (client : θ → ι) (db : Redis) : Agrees client (init db) (Atomic.init db) where
  value := rfl
  fresh := fun _ _ _ => rfl
  guarded := by simp [init, Pc.inside]
  thread := fun _ => rfl
  line := fun _ => .quiet rfl rfl (by simp [init])

/-- Two threads of one client are not inside together. -/
theorem Agrees.alone (h : Agrees client s o) (t other : θ) (ht : (s.thread t).inside = true)
    (hother : (s.thread other).inside = true) (same : client other = client t) : other = t := by
  have hmine := (h.guarded t).mp ht
  have htheirs := (h.guarded other).mp hother
  rw [same, hmine] at htheirs
  exact (Option.some.inj htheirs).symm

theorem Agrees.caller (h : Agrees client s o) {i : ι} {request : Request θ}
    (hin : request ∈ (s.connection i).requests) :
    ∃ t n, request.caller = (t, n) ∧ client t = i ∧ (n = s.made t → s.thread t ≠ .idle) := by
  cases h.line i with
  | quiet noRequest => simp [noRequest] at hin
  | answered _ _ _ _ _ _ noRequest => simp [noRequest] at hin
  | asked t call whose here only =>
      rw [only, List.mem_singleton] at hin
      exact ⟨t, _, by rw [hin], whose, fun _ => by simp [here]⟩
  | stray t n call whose broken only noReply pending =>
      rw [only, List.mem_singleton] at hin
      refine ⟨t, n, by rw [hin], whose, fun heq => ?_⟩
      obtain ⟨hlt, -⟩ | ⟨-, ⟨result, hat⟩, -⟩ := pending
      · exact absurd heq hlt.ne
      · simp [hat]

/-- Nothing that concerns a connection has changed. -/
theorem Line.frame {i : ι} (h : Line client s o i)
    (hconnection : u.connection i = s.connection i)
    (hthread : ∀ t, client t = i → u.thread t = s.thread t)
    (hmade : ∀ t, client t = i → u.made t = s.made t)
    (hphase : ∀ t n, client t = i → p.phase (t, n) = o.phase (t, n)) : Line client u p i := by
  cases h with
  | quiet noRequest noReply nobody =>
      rw [← hconnection] at noRequest noReply nobody
      exact .quiet noRequest noReply fun hsound t ht => hthread t ht ▸ nobody hsound t ht
  | asked t call whose here request noReply pending =>
      rw [← hconnection] at request noReply
      rw [← hmade t whose] at request pending
      exact .asked t call whose (hthread t whose ▸ here) request noReply
        (hphase t _ whose ▸ pending)
  | answered t call reply whose here sound noRequest replies done =>
      rw [← hconnection] at sound noRequest replies
      rw [← hmade t whose] at done
      exact .answered t call reply whose (hthread t whose ▸ here) sound noRequest replies
        (hphase t _ whose ▸ done)
  | stray t n call whose broken request noReply pending =>
      rw [← hconnection] at broken request noReply
      rw [← hmade t whose, ← hthread t whose, ← hphase t n whose] at pending
      exact .stray t n call whose broken request noReply pending

section Connections
variable [DecidableEq ι]

@[simp] theorem connection_setConnection (s : State ι θ) (i j : ι) (line : Connection θ) :
    (s.setConnection i line).connection j = if j = i then line else s.connection j :=
  Function.update_apply _ _ _ _

@[simp] theorem mutex_setMutex (s : State ι θ) (i j : ι) (owner : Option θ) :
    (s.setMutex i owner).mutex j = if j = i then owner else s.mutex j :=
  Function.update_apply _ _ _ _

theorem Agrees.setConnection (h : Agrees client s o) {i : ι} {line : Connection θ}
    (hline : Line client (s.setConnection i line) o i) :
    Agrees client (s.setConnection i line) o where
  value := h.value
  fresh := h.fresh
  guarded := h.guarded
  thread := h.thread
  line := by
    intro j
    by_cases hj : j = i
    · rw [hj]
      exact hline
    · exact (h.line j).frame ((connection_setConnection ..).trans (if_neg hj)) (fun _ _ => rfl)
        (fun _ _ => rfl) (fun _ _ _ => rfl)

theorem Agrees.drop (h : Agrees client s o) {i : ι} (sound : (s.connection i).err = false) :
    Agrees client (s.setConnection i { s.connection i with err := true, replies := [] }) o := by
  refine h.setConnection ?_
  cases h.line i with
  | quiet noRequest =>
      exact .quiet (by simp [noRequest]) (by simp) (by simp)
  | asked t call whose here request _ pending =>
      exact .asked t call whose here (by simp [request, State.setConnection]) (by simp) pending
  | answered _ _ _ _ _ _ noRequest =>
      exact .quiet (by simp [noRequest]) (by simp) (by simp)
  | stray _ _ _ _ broken =>
      rw [sound] at broken
      cases broken

theorem Agrees.forget (h : Agrees client s o) {i : ι} (broken : (s.connection i).err = true) :
    Agrees client (s.setConnection i { s.connection i with requests := [] }) o := by
  refine h.setConnection ?_
  have hreplies : (s.connection i).replies = [] := by
    cases h.line i with
    | quiet _ noReply => exact noReply
    | asked _ _ _ _ _ noReply => exact noReply
    | answered _ _ _ _ _ sound =>
        rw [broken] at sound
        cases sound
    | stray _ _ _ _ _ _ noReply => exact noReply
  exact .quiet (by simp) (by simp [hreplies]) (by simp [broken])

end Connections

variable [DecidableEq θ]

@[simp] theorem thread_setThread (s : State ι θ) (t other : θ) (pc : Pc) :
    (s.setThread t pc).thread other = if other = t then pc else s.thread other :=
  Function.update_apply _ _ _ _

/-- A thread with nothing on its connection goes on to where it still has nothing there. -/
theorem Line.pass {i : ι} (h : Line client s o i) {t : θ} {pc : Pc}
    (hnotWaiting : ∀ call, s.thread t ≠ .waiting call)
    (hnotLeaving : ∀ result, s.thread t ≠ .leaving false result)
    (hnext : ∀ call, pc ≠ .waiting call)
    (hconnection : u.connection i = s.connection i)
    (hthread : ∀ other, u.thread other = if other = t then pc else s.thread other)
    (hmade : u.made = s.made)
    (hphase : ∀ id, id ≠ (t, s.made t) → p.phase id = o.phase id) : Line client u p i := by
  have hother : ∀ {other call}, s.thread other = .waiting call →
      u.thread other = .waiting call ∧ other ≠ t := by
    intro other call hat
    have hne : other ≠ t := by
      rintro rfl
      exact hnotWaiting call hat
    exact ⟨by rw [hthread, if_neg hne, hat], hne⟩
  cases h with
  | quiet noRequest noReply nobody =>
      rw [← hconnection] at noRequest noReply nobody
      refine .quiet noRequest noReply fun hsound other hclient call => ?_
      rw [hthread]
      split
      · exact hnext call
      · exact nobody hsound other hclient call
  | asked other call whose here request noReply pending =>
      obtain ⟨hat, hne⟩ := hother here
      rw [← hconnection] at request noReply
      rw [← hmade] at request pending
      exact .asked other call whose hat request noReply
        ((hphase _ (by simp [hne])).trans pending)
  | answered other call reply whose here sound noRequest replies done =>
      obtain ⟨hat, hne⟩ := hother here
      rw [← hconnection] at sound noRequest replies
      rw [← hmade] at done
      exact .answered other call reply whose hat sound noRequest replies
        ((hphase _ (by simp [hne])).trans done)
  | stray other n call whose broken request noReply pending =>
      rw [← hconnection] at broken request noReply
      refine .stray other n call whose broken request noReply ?_
      rw [hmade]
      obtain ⟨hlt, hgone⟩ | ⟨rfl, ⟨result, hat⟩, hcalled⟩ := pending
      · refine .inl ⟨hlt, (hphase _ ?_).trans hgone⟩
        intro heq
        cases heq
        exact Nat.lt_irrefl _ hlt
      · have hne : other ≠ t := by
          rintro rfl
          exact hnotLeaving result hat
        refine .inr ⟨rfl, ⟨result, ?_⟩, (hphase _ (by simp [hne])).trans hcalled⟩
        rw [hthread, if_neg hne, hat]

/-- What keeps the books when only one thread goes on. -/
theorem Agrees.pass (h : Agrees client s o) (t : θ) (pc : Pc)
    (hnotWaiting : ∀ call, s.thread t ≠ .waiting call)
    (hnotLeaving : ∀ result, s.thread t ≠ .leaving false result)
    (hnext : ∀ call, pc ≠ .waiting call) (hvalue : p.value = o.value)
    (hphase : ∀ id, id ≠ (t, s.made t) → p.phase id = o.phase id)
    (hagrees : pc.Agrees (p.phase (t, s.made t))) (hdb : u.db = s.db) (hmade : u.made = s.made)
    (hconnection : u.connection = s.connection)
    (hthread : ∀ other, u.thread other = if other = t then pc else s.thread other)
    (hguarded : ∀ other, (u.thread other).inside = true ↔ u.mutex (client other) = some other) :
    Agrees client u p where
  value := by rw [hvalue, h.value, hdb]
  fresh := by
    intro other n hlt
    rw [hmade] at hlt
    rw [hphase _ ?_]
    · exact h.fresh other n hlt
    · intro heq
      cases heq
      exact Nat.lt_irrefl _ hlt
  guarded := hguarded
  thread := by
    intro other
    rw [hthread, hmade]
    split
    · next heq =>
        rw [heq]
        exact hagrees
    · next hne =>
        rw [hphase _ (by simp [hne])]
        exact h.thread other
  line := fun i => (h.line i).pass hnotWaiting hnotLeaving hnext (congrFun hconnection i) hthread
    hmade hphase

theorem Agrees.guarded_setThread (h : Agrees client s o) {t : θ} {pc : Pc}
    (hinside : pc.inside = (s.thread t).inside) (other : θ) :
    ((s.setThread t pc).thread other).inside = true ↔ s.mutex (client other) = some other := by
  rw [thread_setThread]
  split
  · next heq =>
      rw [hinside, heq]
      exact h.guarded t
  · exact h.guarded other

theorem Agrees.call (h : Agrees client s o) {t : θ} (call : Call) (here : s.thread t = .idle) :
    ∃ p, o.Moves apply (.call (t, s.made t) call) p ∧
      Agrees client (s.setThread t (.calling call)) p := by
  have hunused := h.thread t
  rw [here] at hunused
  refine ⟨_, .called _ call hunused, ?_⟩
  refine h.pass t (.calling call) (by simp [here]) (by simp [here]) (by simp) rfl
    ?_ ?_ rfl rfl rfl (fun _ => thread_setThread ..)
    (h.guarded_setThread (by rw [here]; rfl))
  · intro id hne
    rw [phase_setPhase, if_neg hne]
  · rw [phase_setPhase, if_pos rfl]
    rfl

theorem Agrees.refuse (h : Agrees client s o) {t : θ} {call : Call}
    (here : s.thread t = .entered call) :
    Agrees client (s.setThread t (.leaving false [])) o := by
  have hcalled := h.thread t
  rw [here] at hcalled
  exact h.pass t (.leaving false []) (by simp [here]) (by simp [here]) (by simp) rfl
    (fun _ _ => rfl) ⟨call, .inl hcalled⟩ rfl rfl rfl (fun _ => thread_setThread ..)
    (h.guarded_setThread (by rw [here]; rfl))

variable [DecidableEq ι]

theorem Agrees.lock (h : Agrees client s o) {t : θ} {call : Call}
    (here : s.thread t = .calling call) (free : s.mutex (client t) = none) :
    Agrees client ((s.setMutex (client t) (some t)).setThread t (.entered call)) o := by
  have hcalled := h.thread t
  rw [here] at hcalled
  refine h.pass t (.entered call) (by simp [here]) (by simp [here]) (by simp) rfl
    (fun _ _ => rfl) hcalled rfl rfl rfl (fun _ => thread_setThread ..) ?_
  intro other
  rw [thread_setThread]
  change _ ↔ (s.setMutex (client t) (some t)).mutex (client other) = some other
  rw [mutex_setMutex]
  by_cases heq : other = t
  · simp [heq, Pc.inside]
  · rw [if_neg heq]
    split
    · next hclient =>
        have hother := h.guarded other
        rw [hclient, free] at hother
        change (s.thread other).inside = true ↔ _
        rw [hother]
        simp [Ne.symm heq]
    · exact h.guarded other

/-- What keeps the books when a thread inside goes on, on its own connection. -/
theorem Agrees.exchange (h : Agrees client s o) (t : θ) (pc : Pc) (line : Connection θ)
    (hinside : pc.inside = (s.thread t).inside)
    (hagrees : pc.Agrees (o.phase (t, s.made t)))
    (hline : Line client ((s.setConnection (client t) line).setThread t pc) o (client t)) :
    Agrees client ((s.setConnection (client t) line).setThread t pc) o where
  value := h.value
  fresh := h.fresh
  guarded := h.guarded_setThread hinside
  thread := by
    intro other
    rw [thread_setThread]
    split
    · next heq =>
        rw [heq]
        exact hagrees
    · exact h.thread other
  line := by
    intro i
    by_cases hi : i = client t
    · rw [hi]
      exact hline
    · have hne : ∀ other, client other = i → other ≠ t := by
        rintro other rfl rfl
        exact hi rfl
      refine (h.line i).frame ?_ ?_ (fun _ _ => rfl) (fun _ _ _ => rfl)
      · exact (connection_setConnection ..).trans (if_neg hi)
      · intro other hother
        rw [thread_setThread, if_neg (hne other hother)]
        rfl

theorem Agrees.send (h : Agrees client s o) {t : θ} {call : Call}
    (here : s.thread t = .entered call) (sound : (s.connection (client t)).err = false) :
    Agrees client ((s.setConnection (client t) { s.connection (client t) with
      requests := (s.connection (client t)).requests ++ [⟨(t, s.made t), call⟩] }).setThread t
        (.waiting call)) o := by
  have hcalled := h.thread t
  rw [here] at hcalled
  have hinside : (s.thread t).inside = true := by
    rw [here]
    rfl
  -- the mutex is ours, so nobody else waits here
  have hnobody : ∀ other, client other = client t → ∀ old, s.thread other ≠ .waiting old := by
    intro other hother old hat
    have hsame := h.alone t other hinside (by rw [hat]; rfl) hother
    rw [hsame, here] at hat
    cases hat
  refine h.exchange t _ _ (by rw [here]; rfl) (.inl hcalled) ?_
  cases h.line (client t) with
  | quiet noRequest noReply _ =>
      refine .asked t call rfl ((thread_setThread ..).trans (if_pos rfl)) ?_ ?_ hcalled
      · change ((s.setConnection _ _).connection _).requests = _
        simp [noRequest, State.setThread, State.setConnection]
      · change ((s.setConnection _ _).connection _).replies = _
        simp [noReply]
  | asked other old whose hat => exact absurd hat (hnobody other whose old)
  | answered other old _ whose hat => exact absurd hat (hnobody other whose old)
  | stray other n old whose broken =>
      rw [sound] at broken
      cases broken

theorem Agrees.receive (h : Agrees client s o) {t : θ} {call : Call}
    (here : s.thread t = .waiting call) {reply : Reply} {rest : List Reply}
    (front : (s.connection (client t)).replies = reply :: rest) :
    Agrees client ((s.setConnection (client t)
      { s.connection (client t) with replies := rest }).setThread t
        (.leaving true (result call reply))) o := by
  have hinside : (s.thread t).inside = true := by
    rw [here]
    rfl
  cases h.line (client t) with
  | quiet _ noReply => simp [noReply] at front
  | asked _ _ _ _ _ noReply => simp [noReply] at front
  | stray _ _ _ _ _ _ noReply => simp [noReply] at front
  | answered other mine kept whose hat sound noRequest replies done =>
      -- the reply is for whoever waits, and only we do
      obtain rfl := h.alone t other hinside (by rw [hat]; rfl) whose
      rw [here] at hat
      cases hat
      rw [front] at replies
      obtain ⟨rfl, rfl⟩ := List.cons.inj replies
      refine h.exchange other _ _ (by rw [here]; rfl) ⟨call, done⟩ (.quiet ?_ ?_ ?_)
      · change ((s.setConnection _ _).connection _).requests = _
        simp [noRequest]
      · change ((s.setConnection _ _).connection _).replies = _
        simp
      · intro _ third hthird old
        rw [thread_setThread]
        split
        · simp
        · next hne =>
            intro hat
            change s.thread third = .waiting old at hat
            exact hne (h.alone _ third hinside (by rw [hat]; rfl) hthird)

/-- A broken connection has no reply for the thread that waits; its command may still
arrive. -/
theorem Agrees.fail (h : Agrees client s o) {t : θ} {call : Call}
    (here : s.thread t = .waiting call) (broken : (s.connection (client t)).err = true) :
    Agrees client (s.setThread t (.leaving false [])) o := by
  have hself : s.setConnection (client t) (s.connection (client t)) = s := by
    simp [State.setConnection]
  have hphase := h.thread t
  rw [here] at hphase
  have hnext := h.exchange t (.leaving false []) (s.connection (client t)) (by rw [here]; rfl)
    ⟨call, hphase⟩
  rw [hself] at hnext
  refine hnext ?_
  have hleft : (s.setThread t (.leaving false [])).thread t = .leaving false [] := by simp
  cases h.line (client t) with
  | quiet noRequest noReply _ =>
      refine .quiet noRequest noReply fun hsound => ?_
      change (s.connection (client t)).err = false at hsound
      rw [broken] at hsound
      cases hsound
  | asked other mine whose hat request noReply pending =>
      obtain rfl := h.alone t other (by rw [here]; rfl) (by rw [hat]; rfl) whose
      exact .stray other _ mine rfl broken request noReply (.inr ⟨rfl, ⟨[], hleft⟩, pending⟩)
  | answered _ _ _ _ _ sound =>
      rw [broken] at sound
      cases sound
  | stray other n old whose _ request noReply pending =>
      refine .stray other n old whose broken request noReply ?_
      obtain hgone | ⟨rfl, ⟨result, hat⟩, hcalled⟩ := pending
      · exact .inl hgone
      · have hne : other ≠ t := by
          rintro rfl
          rw [here] at hat
          cases hat
        exact .inr ⟨rfl, ⟨result, by rw [thread_setThread, if_neg hne, hat]⟩, hcalled⟩

/-- A command has its effect, on the call it is for and on the connection it came by. -/
theorem Agrees.effect (h : Agrees client s o) {i : ι} {t : θ} {n : Nat} {db : Redis}
    {line : Connection θ} {phase : Phase Call Bytes} (whose : client t = i) (hle : n ≤ s.made t)
    (hagrees : n = s.made t → (s.thread t).Agrees phase)
    (hline : Line client { s.setConnection i line with db := db }
      ((Atomic.mk db o.phase).setPhase (t, n) phase) i) :
    Agrees client { s.setConnection i line with db := db }
      ((Atomic.mk db o.phase).setPhase (t, n) phase) where
  value := rfl
  fresh := by
    intro other k hlt
    change s.made other < k at hlt
    rw [phase_setPhase, if_neg]
    · exact h.fresh other k hlt
    · intro heq
      cases heq
      omega
  guarded := h.guarded
  thread := by
    intro other
    change (s.thread other).Agrees (_ : Phase Call Bytes)
    rw [phase_setPhase]
    split
    · next heq =>
        obtain ⟨rfl, hn⟩ := Prod.mk.inj heq
        exact hagrees hn.symm
    · exact h.thread other
  line := by
    intro j
    by_cases hj : j = i
    · rw [hj]
      exact hline
    · refine (h.line j).frame ((connection_setConnection ..).trans (if_neg hj)) (fun _ _ => rfl)
        (fun _ _ => rfl) ?_
      intro other k hother
      rw [phase_setPhase, if_neg]
      intro heq
      cases heq
      exact hj (hother.symm.trans whose)

theorem Agrees.execute (h : Agrees client s o) {i : ι} {request : Request θ}
    {rest : List (Request θ)} (front : (s.connection i).requests = request :: rest)
    {replies : List Reply} (reply : replies = if (s.connection i).err then (s.connection i).replies
      else (s.connection i).replies ++ [(s.db.execute (command request.call)).2]) :
    ∃ p, o.Moves apply (.effect request.caller request.call
        (result request.call (s.db.execute (command request.call)).2)) p ∧
      Agrees client { s.setConnection i ⟨(s.connection i).err, rest, replies⟩ with
        db := (s.db.execute (command request.call)).1 } p := by
  cases h.line i with
  | quiet noRequest => simp [noRequest] at front
  | answered _ _ _ _ _ _ noRequest => simp [noRequest] at front
  | asked t call whose here only noReply pending =>
      rw [front] at only
      obtain ⟨rfl, rfl⟩ := List.cons.inj only
      have hmove : o.Moves apply _ _ := .effected _ call pending
      rw [h.value, apply_eq] at hmove
      refine ⟨_, hmove, h.effect whose le_rfl (fun _ => ?_) ?_⟩
      · rw [here]
        exact .inr ⟨_, rfl⟩
      · rw [noReply] at reply
        cases herr : (s.connection i).err with
        | true => exact .quiet (by simp) (by simp [reply, herr]) (by simp)
        | false =>
            exact .answered t call _ whose here (by simp) (by simp) (by simp [reply, herr])
              ((phase_setPhase ..).trans (if_pos rfl))
  | stray t n call whose broken only noReply pending =>
      rw [front] at only
      obtain ⟨rfl, rfl⟩ := List.cons.inj only
      have hquiet : ∀ db (q : Server θ), Line client
          { s.setConnection i ⟨(s.connection i).err, [], replies⟩ with db := db } q i := by
        intro db q
        exact .quiet (by simp) (by simp [reply, broken, noReply]) (by simp [broken])
      obtain ⟨hlt, hgone⟩ | ⟨rfl, ⟨result, hat⟩, hcalled⟩ := pending
      · have hmove : o.Moves apply _ _ := .effectedLate _ call hgone
        rw [h.value, apply_eq] at hmove
        exact ⟨_, hmove, h.effect whose hlt.le (fun heq => absurd heq hlt.ne) (hquiet _ _)⟩
      · have hmove : o.Moves apply _ _ := .effected _ call hcalled
        rw [h.value, apply_eq] at hmove
        refine ⟨_, hmove, h.effect whose le_rfl (fun _ => ?_) (hquiet _ _)⟩
        rw [hat]
        exact ⟨call, .inr ⟨_, rfl⟩⟩

@[simp] theorem thread_leave (s : State ι θ) (i : ι) (t other : θ) :
    (s.leave i t).thread other = if other = t then .idle else s.thread other :=
  thread_setThread ..

@[simp] theorem made_leave (s : State ι θ) (i : ι) (t other : θ) :
    (s.leave i t).made other = if other = t then s.made t + 1 else s.made other :=
  Function.update_apply _ _ _ _

@[simp] theorem mutex_leave (s : State ι θ) (i j : ι) (t : θ) :
    (s.leave i t).mutex j = if j = i then none else s.mutex j :=
  mutex_setMutex ..

/-- A call ends, and if it failed before its effect the command is a stray one. -/
theorem Agrees.leave (h : Agrees client s o) {t : θ} {replied : Bool} {result : Bytes}
    (here : s.thread t = .leaving replied result) (phase : Phase Call Bytes)
    (hstray : replied = false → ∀ call, o.phase (t, s.made t) = .called call →
      phase = .abandoned call) :
    Agrees client (s.leave (client t) t) (o.setPhase (t, s.made t) phase) where
  value := h.value
  fresh := by
    intro other n hlt
    rw [made_leave] at hlt
    have hold : s.made other < n := by
      split at hlt
      · next heq =>
          rw [heq]
          omega
      · exact hlt
    rw [phase_setPhase, if_neg]
    · exact h.fresh other n hold
    · intro heq
      cases heq
      exact Nat.lt_irrefl _ hold
  guarded := by
    intro other
    rw [thread_leave, mutex_leave]
    by_cases heq : other = t
    · simp [heq, Pc.inside]
    · rw [if_neg heq]
      split
      · next hclient =>
          have hmine := (h.guarded t).mp (by rw [here]; rfl)
          have hother := h.guarded other
          rw [hclient, hmine] at hother
          rw [hother]
          simp [Ne.symm heq]
      · exact h.guarded other
  thread := by
    intro other
    rw [thread_leave, made_leave]
    split
    · next heq =>
        rw [heq, phase_setPhase, if_neg (by simp)]
        exact h.fresh t _ (Nat.lt_succ_self _)
    · next hne =>
        rw [phase_setPhase, if_neg (by simp [hne])]
        exact h.thread other
  line := by
    intro i
    have hother : ∀ {other call}, s.thread other = .waiting call → other ≠ t := by
      rintro other call hat rfl
      rw [here] at hat
      cases hat
    cases h.line i with
    | quiet noRequest noReply nobody =>
        refine .quiet noRequest noReply fun hsound other hclient call => ?_
        rw [thread_leave]
        split
        · simp
        · exact nobody hsound other hclient call
    | asked other call whose hat request noReply pending =>
        have hne := hother hat
        refine .asked other call whose (by simp [hne, hat]) ?_ noReply ?_
        · rw [made_leave, if_neg hne]
          exact request
        · rw [made_leave, if_neg hne, phase_setPhase, if_neg (by simp [hne])]
          exact pending
    | answered other call reply whose hat sound noRequest replies done =>
        have hne := hother hat
        refine .answered other call reply whose (by simp [hne, hat]) sound noRequest replies ?_
        rw [made_leave, if_neg hne, phase_setPhase, if_neg (by simp [hne])]
        exact done
    | stray other n call whose broken request noReply pending =>
        refine .stray other n call whose broken request noReply ?_
        by_cases hsame : other = t
        · subst hsame
          left
          rw [made_leave, if_pos rfl, phase_setPhase]
          obtain ⟨hlt, hgone⟩ | ⟨rfl, ⟨kept, hat⟩, hcalled⟩ := pending
          · rw [if_neg (by simp [hlt.ne])]
            exact ⟨by omega, hgone⟩
          · rw [here] at hat
            cases hat
            rw [if_pos rfl]
            exact ⟨by omega, hstray rfl call hcalled⟩
        · rw [made_leave, if_neg hsame, thread_leave, if_neg hsame, phase_setPhase,
            if_neg (by simp [hsame])]
          exact pending

theorem Agrees.ret (h : Agrees client s o) {t : θ} {replied : Bool} {result : Bytes}
    (here : s.thread t = .leaving replied result) :
    ∃ p, o.Moves apply (.ret (t, s.made t) (if replied then some result else none)) p ∧
      Agrees client (s.leave (client t) t) p := by
  have hphase := h.thread t
  rw [here] at hphase
  cases replied with
  | true =>
      obtain ⟨call, hdone⟩ := hphase
      exact ⟨_, .answered _ call result hdone, h.leave here _ (by simp)⟩
  | false =>
      obtain ⟨call, hcalled | ⟨answer, hdone⟩⟩ := hphase
      · refine ⟨_, .abandoned _ call hcalled, h.leave here _ ?_⟩
        intro _ other hother
        rw [hcalled] at hother
        cases hother
        rfl
      · refine ⟨_, .failed _ call answer hdone, h.leave here _ ?_⟩
        intro _ other hother
        rw [hdone] at hother
        cases hother

/-- Each step is one of the atomic object, or none. -/
theorem Agrees.step (h : Agrees client s o) {e : Event ι θ}
    (hstep : step client params s e = some u) :
    ∃ p, o.Accepts apply (marks s e) p ∧ Agrees client u p := by
  cases moves hstep with
  | called t call here =>
      obtain ⟨p, hmove, hp⟩ := h.call call here
      exact ⟨p, .single hmove, hp⟩
  | locked t call here free => exact ⟨o, .nil o, h.lock here free⟩
  | sent t call here _ sound => exact ⟨o, .nil o, h.send here sound⟩
  | refused t call here => exact ⟨o, .nil o, h.refuse here⟩
  | executed i request rest front replies reply =>
      obtain ⟨p, hmove, hp⟩ := h.execute front reply
      refine ⟨p, ?_, hp⟩
      simp only [marks, front]
      exact .single hmove
  | received t call here reply rest front => exact ⟨o, .nil o, h.receive here front⟩
  | failed t call here broken => exact ⟨o, .nil o, h.fail here broken⟩
  | returned t replied result here =>
      obtain ⟨p, hmove, hp⟩ := h.ret here
      refine ⟨p, ?_, hp⟩
      simp only [marks, here]
      exact .single hmove
  | dropped i sound => exact ⟨o, .nil o, h.drop sound⟩
  | forgotten i broken => exact ⟨o, .nil o, h.forget broken⟩

/-- A run of the clients is a run of the atomic object. -/
theorem Agrees.run (h : Agrees client s o) {timeline : List (Mark (θ × Nat) Call Bytes)}
    (hrun : Reachable (observe (ParamServer.step client params) marks) (s, []) (u, timeline)) :
    ∃ p, o.Accepts apply timeline p ∧ Agrees client u p := by
  suffices hall : ∀ v, Reachable (observe (ParamServer.step client params) marks) (s, []) v →
      ∃ p, o.Accepts apply v.2 p ∧ Agrees client v.1 p from hall _ hrun
  intro v hv
  refine hv.keeps (I := fun v => ∃ p, o.Accepts apply v.2 p ∧ Agrees client v.1 p)
    ⟨o, .nil o, h⟩ ?_
  rintro v e w ⟨p, haccepts, hagrees⟩ hstep
  obtain ⟨hmove, hseen⟩ := observe_eq_some.mp hstep
  obtain ⟨q, hmore, hq⟩ := hagrees.step hmove
  exact ⟨q, hseen ▸ haccepts.append hmore, hq⟩

/-- Nothing in a call is cut off on the way. -/
def Whole : Call → Prop
  | .put key value => (0 : UInt8) ∉ key ∧ (0 : UInt8) ∉ value
  | .look key => (0 : UInt8) ∉ key

/-- What parameters are for: a map from strings to strings. -/
def applyMap (params : Bytes → Bytes) : Call → (Bytes → Bytes) × Bytes
  | .put key value => (Function.update params key value, [])
  | .look key => (params, params key)

/-- What a client alone on the server would get under each key. -/
def view (db : Redis) (key : Bytes) : Bytes :=
  (ParamClient.mk true).get db .answered key

def Shows (db : Redis) (map : Bytes → Bytes) : Prop :=
  ∀ key, (0 : UInt8) ∉ key → view db key = map key

theorem Shows.call {db : Redis} {map : Bytes → Bytes} {call : Call} (related : Shows db map)
    (whole : Whole call) : (apply db call).2 = (applyMap map call).2 ∧
      Shows (apply db call).1 (applyMap map call).1 := by
  cases call with
  | look key => exact ⟨related key whole, related⟩
  | put key value =>
      refine ⟨rfl, fun other hother => ?_⟩
      have hold := related other hother
      have hput : (apply db (.put key value)).1 = ParamClient.coding.put db key value :=
        ParamClient.set_eq_put rfl db key value
      unfold view at hold ⊢
      rw [ParamClient.get_eq_look rfl] at hold ⊢
      rw [hput]
      have hcut := (cString_eq_self_iff _).mpr whole.1
      have hcut' := (cString_eq_self_iff _).mpr hother
      simp only [Coding.look, Coding.put, ParamClient.coding, hcut, hcut'] at hold ⊢
      simp only [applyMap, Function.update_apply]
      split
      · simp [(cString_eq_self_iff _).mpr whole.2]
      · exact hold

/-- Whatever the threads, the clients and the failing connections do, there is one order of
the calls that explains all the answers; and for strings without NUL the parameters in that
order are a map. -/
theorem parameters_linearizable {db : Redis} {timeline : List (Mark (θ × Nat) Call Bytes)}
    (h : Reachable (observe (step client params) marks) (init db, []) (s, timeline)) :
    Linearizable apply db (history timeline) ∧
      ((∀ id call, Mark.call id call ∈ history timeline → Whole call) →
        Linearizable applyMap (view db) (history timeline)) := by
  obtain ⟨o, haccepts, -⟩ := (agrees_init client db).run h
  have hlinear : Linearizable apply db (history timeline) := ⟨_, haccepts.explains⟩
  refine ⟨hlinear, fun hwhole => ?_⟩
  have halike : ∀ (db : Redis) (map : Bytes → Bytes) (call : Call), Shows db map → Whole call →
      (apply db call).2 = (applyMap map call).2 ∧
        Shows (apply db call).1 (applyMap map call).1 :=
    fun _ _ _ related whole => related.call whole
  exact hlinear.simulate halike (fun _ _ => rfl) hwhole

/-- Two threads of one client and one of another: the second `get` finds the value. -/
theorem parameters_linearizable_shared :
    Linearizable applyMap (view fun _ => none)
      [.call ((0, 0) : Fin 3 × Nat) (.put [107] [118]), .call (2, 0) (.look [107]),
        .call (1, 0) (.look [107]),
        .ret (0, 0) (some []), .ret (2, 0) (some []), .ret (1, 0) (some [118])] := by
  obtain ⟨s, hrun⟩ : ∃ s, run (observe
      (step (fun t : Fin 3 => if t = 2 then (1 : Fin 2) else 0) fun _ => ⟨true⟩) marks)
      (init fun _ => none, [])
      [.call 0 (.put [107] [118]), .lock 0, .call 2 (.look [107]), .lock 2, .send 2, .execute 1,
        .send 0, .call 1 (.look [107]), .execute 0, .receive 0, .ret 0, .lock 1, .receive 2,
        .send 1, .execute 0, .ret 2, .receive 1, .ret 1] =
      some (s, [.call (0, 0) (.put [107] [118]), .call (2, 0) (.look [107]),
        .effect (2, 0) (.look [107]) [], .call (1, 0) (.look [107]),
        .effect (0, 0) (.put [107] [118]) [], .ret (0, 0) (some []),
        .effect (1, 0) (.look [107]) [118], .ret (2, 0) (some []),
        .ret (1, 0) (some [118])]) := ⟨_, rfl⟩
  refine (parameters_linearizable (reachable_of_run hrun)).2 ?_
  intro id call hcall
  simp only [history, List.mem_cons, Mark.call.injEq, reduceCtorEq, List.not_mem_nil,
    or_false] at hcall
  obtain ⟨-, rfl⟩ | ⟨-, rfl⟩ | ⟨-, rfl⟩ := hcall <;> simp [Whole]

/-- What a client can still do that has no connection, and to which calls. -/
structure Cut (client : θ → ι) (params : ι → ParamClient) (i : ι) (s : State ι θ) (o : Server θ)
    (later : List (Mark (θ × Nat) Call Bytes)) : Prop where
  broken : (params i).context = false ∨ (s.connection i).err = true
  pending : ∀ t n call, client t = i → Mark.call (t, n) call ∈ later →
    ∃ op, (o.phase (t, n)).pending = some op
  unsent : ∀ t n call, client t = i → Mark.call (t, n) call ∈ later →
    ∀ request ∈ (s.connection i).requests, request.caller ≠ (t, n)

/-- Nothing repairs a connection, and nothing is sent on a broken one. -/
theorem broken_step {i : ι} {e : Event ι θ} (hstep : step client params s e = some u)
    (hcut : (params i).context = false ∨ (s.connection i).err = true) :
    ((params i).context = false ∨ (u.connection i).err = true) ∧
      ∀ request ∈ (u.connection i).requests, request ∈ (s.connection i).requests := by
  cases moves hstep with
  | called | locked | refused | failed | returned => exact ⟨hcut, fun _ hin => hin⟩
  | sent t call here connected sound =>
      have hi : i ≠ client t := by
        rintro rfl
        simp [connected, sound] at hcut
      have hsame := (connection_setConnection s (client t) i
        { s.connection (client t) with
          requests := (s.connection (client t)).requests ++ [⟨(t, s.made t), call⟩] }).trans
        (if_neg hi)
      change (_ ∨ ((s.setConnection _ _).connection i).err = true) ∧
        ∀ request ∈ ((s.setConnection _ _).connection i).requests, _
      rw [hsame]
      exact ⟨hcut, fun _ hin => hin⟩
  | executed j request rest front replies =>
      change (_ ∨ ((s.setConnection _ _).connection i).err = true) ∧
        ∀ request ∈ ((s.setConnection _ _).connection i).requests, _
      rw [connection_setConnection]
      split
      · next heq =>
          rw [heq] at hcut ⊢
          exact ⟨hcut, fun _ hin => front ▸ List.mem_cons_of_mem _ hin⟩
      · exact ⟨hcut, fun _ hin => hin⟩
  | received t call here reply rest =>
      change (_ ∨ ((s.setConnection _ _).connection i).err = true) ∧
        ∀ request ∈ ((s.setConnection _ _).connection i).requests, _
      rw [connection_setConnection]
      split
      · next heq =>
          rw [heq] at hcut ⊢
          exact ⟨hcut, fun _ hin => hin⟩
      · exact ⟨hcut, fun _ hin => hin⟩
  | dropped j =>
      rw [connection_setConnection]
      split
      · next heq =>
          rw [heq]
          exact ⟨.inr rfl, fun _ hin => hin⟩
      · exact ⟨hcut, fun _ hin => hin⟩
  | forgotten j =>
      rw [connection_setConnection]
      split
      · next heq =>
          rw [heq] at hcut ⊢
          exact ⟨hcut, fun _ hin => by cases hin⟩
      · exact ⟨hcut, fun _ hin => hin⟩

theorem call_mem_marks {t : θ} {n : Nat} {call : Call} {e : Event ι θ}
    (hstep : step client params s e = some u) (hin : Mark.call (t, n) call ∈ marks s e) :
    e = .call t call ∧ n = s.made t ∧ s.thread t = .idle := by
  cases moves hstep with
  | called other new here =>
      simp only [marks, List.mem_singleton, Mark.call.injEq, Prod.mk.injEq] at hin
      obtain ⟨⟨rfl, rfl⟩, rfl⟩ := hin
      exact ⟨rfl, rfl, here⟩
  | executed _ _ _ front => simp [marks, front] at hin
  | returned _ _ _ here => simp [marks, here] at hin
  | locked | sent | refused | received | failed | dropped | forgotten => cases hin

theorem effect_mem_marks {id : θ × Nat} {call : Call} {answer : Bytes} {e : Event ι θ}
    (hstep : step client params s e = some u) (hin : Mark.effect id call answer ∈ marks s e) :
    ∃ i, ∃ request ∈ (s.connection i).requests, request.caller = id := by
  cases moves hstep with
  | executed i request rest front =>
      simp only [marks, front, List.mem_singleton, Mark.effect.injEq] at hin
      exact ⟨i, request, front ▸ List.mem_cons_self .., hin.1.symm⟩
  | called => simp [marks] at hin
  | returned _ _ _ here => simp [marks, here] at hin
  | locked | sent | refused | received | failed | dropped | forgotten => cases hin

theorem Cut.step {i : ι} {later : List (Mark (θ × Nat) Call Bytes)} {e : Event ι θ}
    (hcut : Cut client params i s o later) (h : Agrees client s o)
    (hstep : ParamServer.step client params s e = some u) (hmarks : o.Accepts apply (marks s e) p)
    (h' : Agrees client u p) : Cut client params i u p (later ++ marks s e) where
  broken := (broken_step hstep hcut.broken).1
  pending := by
    intro t n call whose hin
    obtain hold | hnew := List.mem_append.mp hin
    · obtain ⟨op, hop⟩ := hcut.pending t n call whose hold
      refine ⟨op, hmarks.still_pending hop ?_⟩
      -- its command would have to be on the connection
      intro new answer heffect
      obtain ⟨j, request, hrequest, hcaller⟩ := effect_mem_marks hstep heffect
      obtain ⟨t', n', hcaller', rfl, -⟩ := h.caller hrequest
      rw [hcaller] at hcaller'
      cases hcaller'
      exact hcut.unsent t n call whose hold request (whose ▸ hrequest) hcaller
    · obtain ⟨rfl, rfl, here⟩ := call_mem_marks hstep hnew
      cases moves hstep with
      | called =>
          have hphase := h'.thread t
          rw [thread_setThread, if_pos rfl] at hphase
          exact ⟨call, by rw [show p.phase (t, s.made t) = .called call from hphase]; rfl⟩
  unsent := by
    intro t n call whose hin request hrequest hcaller
    have hbefore := (broken_step hstep hcut.broken).2 request hrequest
    obtain hold | hnew := List.mem_append.mp hin
    · exact hcut.unsent t n call whose hold request hbefore hcaller
    · obtain ⟨-, rfl, here⟩ := call_mem_marks hstep hnew
      obtain ⟨t', n', hcaller', -, hbusy⟩ := h.caller hbefore
      rw [hcaller] at hcaller'
      cases hcaller'
      exact hbusy rfl here

theorem Cut.run {i : ι} {later : List (Mark (θ × Nat) Call Bytes)} (h : Agrees client s o)
    (broken : (params i).context = false ∨ (s.connection i).err = true)
    (hrun : Reachable (observe (ParamServer.step client params) marks) (s, []) (u, later)) :
    ∃ p, o.Accepts apply later p ∧ Agrees client u p ∧ Cut client params i u p later := by
  suffices hall : ∀ v, Reachable (observe (ParamServer.step client params) marks) (s, []) v →
      ∃ p, o.Accepts apply v.2 p ∧ Agrees client v.1 p ∧ Cut client params i v.1 p v.2 from
    hall _ hrun
  intro v hv
  refine hv.keeps (I := fun v =>
      ∃ p, o.Accepts apply v.2 p ∧ Agrees client v.1 p ∧ Cut client params i v.1 p v.2)
    ⟨o, .nil o, h, broken, nofun, nofun⟩ ?_
  rintro v e w ⟨p, haccepts, hagrees, hcut⟩ hstep
  obtain ⟨hmove, hseen⟩ := observe_eq_some.mp hstep
  obtain ⟨q, hmore, hq⟩ := hagrees.step hmove
  exact ⟨q, hseen ▸ haccepts.append hmore, hq, hseen ▸ hcut.step hagrees hmove hmore hq⟩

/-- What failed gives the empty string. -/
theorem failed_result {db : Redis} (h : Reachable (step client params) (init db) s) :
    ∀ t result, s.thread t = .leaving false result → result = [] := by
  refine h.keeps (I := fun s => ∀ t result, s.thread t = .leaving false result → result = [])
    (by simp [init]) ?_
  intro s e u hs hstep
  have hsetThread : ∀ {v : State ι θ} {t : θ} {pc : Pc}, v.thread = s.thread →
      (∀ result, pc = .leaving false result → result = []) →
        ∀ other result, (v.setThread t pc).thread other = .leaving false result → result = [] := by
    intro v t pc hv hpc other result hat
    rw [thread_setThread, hv] at hat
    split at hat
    · exact hpc result hat
    · exact hs other result hat
  cases moves hstep with
  | called | locked | sent | returned => exact hsetThread rfl (by simp)
  | received => exact hsetThread rfl (by simp)
  | refused | failed => exact hsetThread rfl (by simp)
  | executed | dropped | forgotten => exact hs

/-- Once a client's connection has failed, or if it never had one, no later call of any of
its threads has an effect or an answer: `set` is lost and `get` gives the empty string. -/
theorem broken_client_is_silent {db : Redis} {i : ι}
    (before : Reachable (step client params) (init db) s)
    (broken : (params i).context = false ∨ (s.connection i).err = true)
    {later : List (Mark (θ × Nat) Call Bytes)}
    (h : Reachable (observe (step client params) marks) (s, []) (u, later)) {t : θ} {n : Nat}
    {call : Call} (whose : client t = i) (made : Mark.call (t, n) call ∈ later) :
    (∀ call answer, Mark.effect (t, n) call answer ∉ later) ∧
      (∀ answer, Mark.ret (t, n) (some answer) ∉ later) ∧
      ∀ replied result, u.thread t = .leaving replied result → u.made t = n → result = [] := by
  obtain ⟨seen, hseen⟩ :
      ∃ seen, Reachable (observe (step client params) marks) (init db, []) (s, seen) :=
    before.observed []
  obtain ⟨o, -, hs⟩ := (agrees_init client db).run hseen
  obtain ⟨p, haccepts, hu, hcut⟩ := Cut.run hs broken h
  obtain ⟨op, hpending⟩ := hcut.pending t n call whose made
  obtain ⟨hnoEffect, hnoAnswer⟩ := haccepts.silent hpending
  refine ⟨hnoEffect, hnoAnswer, fun replied result hat hn => ?_⟩
  cases replied with
  | false => exact failed_result (before.trans h.unobserved) t result hat
  | true =>
      have hphase := hu.thread t
      rw [hat, hn] at hphase
      obtain ⟨answered, hdone⟩ := hphase
      rw [hdone] at hpending
      cases hpending

/-- A connection fails under a `set` that the server still executes, but a `get` by another
thread of the client gives nothing. -/
theorem broken_client_is_silent_second :
    ∃ (u : State (Fin 2) (Fin 3)) (later : List (Mark (Fin 3 × Nat) Call Bytes)),
      u.db [107] = some [118] ∧ Mark.ret (1, 0) none ∈ later ∧
        (∀ call answer, Mark.effect (1, 0) call answer ∉ later) ∧
        ∀ answer, Mark.ret (1, 0) (some answer) ∉ later := by
  obtain ⟨s, hbefore, hbroken, u, hrun, hdb⟩ : ∃ s,
      run (step (fun t : Fin 3 => if t = 2 then (1 : Fin 2) else 0) fun _ => ⟨true⟩)
        (init fun _ => none) [.call 0 (.put [107] [118]), .lock 0, .send 0, .drop 0] = some s ∧
      (s.connection 0).err = true ∧
      ∃ u, run (observe
        (step (fun t : Fin 3 => if t = 2 then (1 : Fin 2) else 0) fun _ => ⟨true⟩) marks) (s, [])
        [.fail 0, .ret 0, .call 1 (.look [107]), .lock 1, .execute 0, .send 1, .ret 1] =
        some (u, [.ret (0, 0) none, .call (1, 0) (.look [107]),
          .effect (0, 0) (.put [107] [118]) [], .ret (1, 0) none]) ∧
      u.db [107] = some [118] := by
    refine ⟨_, rfl, rfl, _, rfl, rfl⟩
  obtain ⟨hnoEffect, hnoAnswer, -⟩ := broken_client_is_silent (reachable_of_run hbefore)
    (.inr hbroken) (reachable_of_run hrun) rfl
    (show Mark.call (1, 0) (.look [107]) ∈ _ by simp)
  exact ⟨u, _, hdb, by simp, hnoEffect, hnoAnswer⟩

end TinyMiddleware.Core.ParamServer
