import TinyMiddleware.Core.ParamClient
import TinyMiddleware.Lib.Linear
import TinyMiddleware.Lib.Runs

/-! Parameters are global: clients share one Redis server, and threads share a client. The
client's mutex is what keeps the replies on a connection apart. -/
namespace TinyMiddleware.Core.ParamServer

open Runs Linear CodedMap

abbrev Call := Op Bytes Bytes

/-- What `redisCommand` sends for `set(key, value)` and `get(key)`. -/
def command : Call → Command
  | .put key value => .set (cString key) (cString value)
  | .look key => .get (cString key)

/-- What the call makes of the reply. `set` returns nothing, whatever the reply is. -/
def result : Call → Reply → Bytes
  | .look _, .string str => cString str
  | .look _, .other => []
  | .put _ _, _ => []

/-- A command on its way. Which call of which thread it is for is not sent; it is only
there to be talked about. -/
structure Request (θ : Type) where
  caller : θ × Nat
  call : Call

/-- A `redisContext`. Once `err` is set nothing more is sent or read, though the server may
still get what was sent before. -/
structure Connection (θ : Type) where
  err : Bool
  requests : List (Request θ)
  replies : List Reply

/-- Where a thread is in `set` or `get`. -/
inductive Pc where
  | idle
  | calling (call : Call)
  | entered (call : Call)
  | waiting (call : Call)
  | leaving (replied : Bool) (result : Bytes)

structure State (ι θ : Type) where
  db : Redis
  connection : ι → Connection θ
  mutex : ι → Option θ
  thread : θ → Pc
  made : θ → Nat

inductive Event (ι θ : Type) where
  | call (t : θ) (call : Call)
  | lock (t : θ)
  | send (t : θ)
  | execute (i : ι)
  | receive (t : θ)
  | fail (t : θ)
  | ret (t : θ)
  | drop (i : ι)
  | forget (i : ι)

variable {ι θ : Type} [DecidableEq ι] [DecidableEq θ]

def State.setThread (s : State ι θ) (t : θ) (pc : Pc) : State ι θ :=
  { s with thread := Function.update s.thread t pc }

def State.setConnection (s : State ι θ) (i : ι) (connection : Connection θ) : State ι θ :=
  { s with connection := Function.update s.connection i connection }

def State.setMutex (s : State ι θ) (i : ι) (owner : Option θ) : State ι θ :=
  { s with mutex := Function.update s.mutex i owner }

/-- The end of a call: the lock is let go and the caller has its result. -/
def State.leave (s : State ι θ) (i : ι) (t : θ) : State ι θ :=
  { s.setMutex i none with made := Function.update s.made t (s.made t + 1) }.setThread t .idle

def init (db : Redis) : State ι θ where
  db := db
  connection := fun _ => ⟨false, [], []⟩
  mutex := fun _ => none
  thread := fun _ => .idle
  made := fun _ => 0

/-- `client` says whose parameters a thread uses, `params` which of the clients `connect`
has given a context. -/
def step (client : θ → ι) (params : ι → ParamClient) (s : State ι θ) :
    Event ι θ → Option (State ι θ)
  | .call t call =>
      match s.thread t with
      | .idle => some (s.setThread t (.calling call))
      | _ => none
  | .lock t =>
      match s.thread t with
      | .calling call =>
          if s.mutex (client t) = none then
            some ((s.setMutex (client t) (some t)).setThread t (.entered call))
          else none
      | _ => none
  | .send t =>
      match s.thread t with
      | .entered call =>
          let line := s.connection (client t)
          -- without a context nothing is tried, and on a broken one nothing is sent
          if (params (client t)).context && !line.err then
            some ((s.setConnection (client t)
              { line with requests := line.requests ++ [⟨(t, s.made t), call⟩] }).setThread t
                (.waiting call))
          else some (s.setThread t (.leaving false []))
      | _ => none
  | .execute i =>
      match (s.connection i).requests with
      | request :: rest =>
          let line := s.connection i
          let (db, reply) := s.db.execute (command request.call)
          some { s.setConnection i
            { line with
              requests := rest
              replies := if line.err then line.replies else line.replies ++ [reply] } with
            db := db }
      | [] => none
  | .receive t =>
      match s.thread t, (s.connection (client t)).replies with
      | .waiting call, reply :: rest =>
          some ((s.setConnection (client t)
            { s.connection (client t) with replies := rest }).setThread t
              (.leaving true (result call reply)))
      | _, _ => none
  | .fail t =>
      match s.thread t with
      | .waiting _ =>
          if (s.connection (client t)).err then some (s.setThread t (.leaving false []))
          else none
      | _ => none
  | .ret t =>
      match s.thread t with
      | .leaving _ _ => some (s.leave (client t) t)
      | _ => none
  | .drop i =>
      if (s.connection i).err then none
      else some (s.setConnection i { s.connection i with err := true, replies := [] })
  | .forget i =>
      if (s.connection i).err then
        some (s.setConnection i { s.connection i with requests := [] })
      else none

/-- When calls are made, when the server executes them and when they return. -/
def marks (s : State ι θ) : Event ι θ → List (Mark (θ × Nat) Call Bytes)
  | .call t call => [.call (t, s.made t) call]
  | .execute i =>
      match (s.connection i).requests with
      | request :: _ =>
          [.effect request.caller request.call
            (result request.call (s.db.execute (command request.call)).2)]
      | [] => []
  | .ret t =>
      match s.thread t with
      | .leaving replied result => [.ret (t, s.made t) (if replied then some result else none)]
      | _ => []
  | _ => []

/-- What a step can do, outcome by outcome. -/
inductive Moves (client : θ → ι) (params : ι → ParamClient) (s : State ι θ) :
    Event ι θ → State ι θ → Prop
  | called (t : θ) (call : Call) (here : s.thread t = .idle) :
      Moves client params s (.call t call) (s.setThread t (.calling call))
  | locked (t : θ) (call : Call) (here : s.thread t = .calling call)
      (free : s.mutex (client t) = none) :
      Moves client params s (.lock t)
        ((s.setMutex (client t) (some t)).setThread t (.entered call))
  | sent (t : θ) (call : Call) (here : s.thread t = .entered call)
      (connected : (params (client t)).context = true)
      (sound : (s.connection (client t)).err = false) :
      Moves client params s (.send t)
        ((s.setConnection (client t) { s.connection (client t) with
          requests := (s.connection (client t)).requests ++ [⟨(t, s.made t), call⟩] }).setThread t
            (.waiting call))
  | refused (t : θ) (call : Call) (here : s.thread t = .entered call) :
      Moves client params s (.send t) (s.setThread t (.leaving false []))
  | executed (i : ι) (request : Request θ) (rest : List (Request θ))
      (front : (s.connection i).requests = request :: rest) (replies : List Reply)
      (reply : replies = if (s.connection i).err then (s.connection i).replies
        else (s.connection i).replies ++ [(s.db.execute (command request.call)).2]) :
      Moves client params s (.execute i)
        { s.setConnection i ⟨(s.connection i).err, rest, replies⟩ with
          db := (s.db.execute (command request.call)).1 }
  | received (t : θ) (call : Call) (here : s.thread t = .waiting call) (reply : Reply)
      (rest : List Reply) (front : (s.connection (client t)).replies = reply :: rest) :
      Moves client params s (.receive t)
        ((s.setConnection (client t)
          { s.connection (client t) with replies := rest }).setThread t
            (.leaving true (result call reply)))
  | failed (t : θ) (call : Call) (here : s.thread t = .waiting call)
      (broken : (s.connection (client t)).err = true) :
      Moves client params s (.fail t) (s.setThread t (.leaving false []))
  | returned (t : θ) (replied : Bool) (result : Bytes)
      (here : s.thread t = .leaving replied result) :
      Moves client params s (.ret t) (s.leave (client t) t)
  | dropped (i : ι) (sound : (s.connection i).err = false) :
      Moves client params s (.drop i)
        (s.setConnection i { s.connection i with err := true, replies := [] })
  | forgotten (i : ι) (broken : (s.connection i).err = true) :
      Moves client params s (.forget i)
        (s.setConnection i { s.connection i with requests := [] })

theorem moves {client : θ → ι} {params : ι → ParamClient} {s u : State ι θ} {e : Event ι θ}
    (h : step client params s e = some u) : Moves client params s e u := by
  cases e with
  | call t call =>
      simp only [step] at h
      split at h
      · next hat => exact Option.some.inj h ▸ .called t call hat
      · cases h
  | lock t =>
      simp only [step] at h
      split at h
      · next call hat =>
          obtain ⟨hfree, h⟩ := Option.ite_none_right_eq_some.mp h
          exact Option.some.inj h ▸ .locked t call hat hfree
      · cases h
  | send t =>
      simp only [step] at h
      split at h
      · next call hat =>
          split at h
          · next hgood =>
              simp only [Bool.and_eq_true, Bool.not_eq_true'] at hgood
              exact Option.some.inj h ▸ .sent t call hat hgood.1 hgood.2
          · exact Option.some.inj h ▸ .refused t call hat
      · cases h
  | execute i =>
      simp only [step] at h
      split at h
      · next request rest hfront =>
          exact Option.some.inj h ▸ .executed i request rest hfront _ rfl
      · cases h
  | receive t =>
      simp only [step] at h
      split at h
      · next call reply rest hat hfront =>
          exact Option.some.inj h ▸ .received t call hat reply rest hfront
      · cases h
  | fail t =>
      simp only [step] at h
      split at h
      · next call hat =>
          obtain ⟨hbroken, h⟩ := Option.ite_none_right_eq_some.mp h
          exact Option.some.inj h ▸ .failed t call hat hbroken
      · cases h
  | ret t =>
      simp only [step] at h
      split at h
      · next replied result hat => exact Option.some.inj h ▸ .returned t replied result hat
      · cases h
  | drop i =>
      obtain ⟨hsound, h⟩ := Option.ite_none_left_eq_some.mp h
      exact Option.some.inj h ▸ .dropped i (Bool.eq_false_iff.mpr hsound)
  | forget i =>
      obtain ⟨hbroken, h⟩ := Option.ite_none_right_eq_some.mp h
      exact Option.some.inj h ▸ .forgotten i hbroken

end TinyMiddleware.Core.ParamServer
