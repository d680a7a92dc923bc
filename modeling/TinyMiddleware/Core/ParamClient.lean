import TinyMiddleware.Lib.CodedMap
import Mathlib.Data.List.TakeWhile

/-! `ParamClient` and the Redis server behind it. Keys and values are strings with
a length on one side and NUL-terminated on the other. -/
namespace TinyMiddleware.Core

open CodedMap

/-- A `std::string`: any bytes, NUL included. -/
abbrev Bytes := List UInt8

/-- The bytes a function sees that is given `c_str()`, or any pointer to these bytes
followed by NUL: those up to the first NUL. -/
def cString (s : Bytes) : Bytes :=
  s.takeWhile (· ≠ 0)

theorem cString_eq_self_iff (s : Bytes) : cString s = s ↔ (0 : UInt8) ∉ s := by
  unfold cString
  rw [List.takeWhile_eq_self_iff]
  constructor
  · intro h hzero
    simpa using h 0 hzero
  · intro h b hb
    simpa using fun hzero : b = 0 => h (hzero ▸ hb)

theorem zero_notMem_cString (s : Bytes) : (0 : UInt8) ∉ cString s := by
  intro hzero
  simpa using List.mem_takeWhile_imp hzero

@[simp] theorem cString_cString (s : Bytes) : cString (cString s) = cString s :=
  (cString_eq_self_iff _).mpr (zero_notMem_cString s)

abbrev Redis := Bytes → Option Bytes

/-- The arguments that `redisCommand` makes of `"SET %s %s"` and `"GET %s"`. -/
inductive Command where
  | set (key value : Bytes)
  | get (key : Bytes)

/-- The replies the client looks at: `REDIS_REPLY_STRING`, or any other type. -/
inductive Reply where
  | string (str : Bytes)
  | other

def Redis.execute (db : Redis) : Command → Redis × Reply
  | .set key value => (Function.update db key (some value), .other)
  | .get key =>
      match db key with
      | some value => (db, .string value)
      | none => (db, .other)

/-- What becomes of a command: it is answered, or the connection fails before or
after the server has executed it and `redisCommand` returns null. -/
inductive Link where
  | answered
  | lost (executed : Bool)

def redisCommand (db : Redis) (command : Command) : Link → Redis × Option Reply
  | .answered => ((db.execute command).1, some (db.execute command).2)
  | .lost executed => (if executed then (db.execute command).1 else db, none)

structure ParamClient where
  context : Bool

/-- What `redisConnect` gives: nothing, a context with `err` set, or a good one. -/
inductive Connected where
  | null
  | error
  | good

namespace ParamClient

def connect : Connected → ParamClient × Bool
  | .null => (⟨false⟩, false)
  | .error => (⟨false⟩, false)
  | .good => (⟨true⟩, true)

def set (client : ParamClient) (db : Redis) (link : Link) (key value : Bytes) : Redis :=
  if client.context then (redisCommand db (.set (cString key) (cString value)) link).1 else db

def get (client : ParamClient) (db : Redis) (link : Link) (key : Bytes) : Bytes :=
  if client.context then
    match (redisCommand db (.get (cString key)) link).2 with
    | some (.string str) => cString str
    | _ => []
  else []

/-- The results of the `get` calls in a sequence of calls on an empty server, in the
order in which the client's mutex admits them, every command being answered. -/
def answers (client : ParamClient) (calls : List (Op Bytes Bytes)) : List Bytes :=
  CodedMap.answers (fun db key value => client.set db .answered key value)
    (fun db key => client.get db .answered key) (fun _ => none) calls

def reference (calls : List (Op Bytes Bytes)) : List Bytes :=
  direct [] calls

/-- The client is a coded map: keys and values are cut at the first NUL on the way
in, and values once more on the way out. -/
def coding : Coding Bytes Bytes Bytes Bytes where
  key := cString
  store := cString
  load := cString

theorem set_eq_put {client : ParamClient} (connected : client.context = true) (db : Redis)
    (key value : Bytes) : client.set db .answered key value = coding.put db key value := by
  simp only [set, connected, if_true]
  rfl

theorem get_eq_look {client : ParamClient} (connected : client.context = true) (db : Redis)
    (key : Bytes) : client.get db .answered key = coding.look [] db key := by
  cases hvalue : db (cString key) <;>
    simp [get, connected, redisCommand, Redis.execute, Coding.look, coding, hvalue]

theorem answers_eq_coded {client : ParamClient} (connected : client.context = true)
    (calls : List (Op Bytes Bytes)) : client.answers calls = coding.coded [] calls := by
  have hset : (fun db key value => client.set db .answered key value) = coding.put := by
    funext db key value
    exact set_eq_put connected db key value
  have hget : (fun db key => client.get db .answered key) = coding.look [] := by
    funext db key
    exact get_eq_look connected db key
  unfold answers Coding.coded
  rw [hset, hget]

/-- `get(key)` after these calls gives what it should: the latest `set` of a key that is
equal to it up to the first NUL was of this very key, with a value that has no NUL, or
its value cut at the first NUL is what `key` should have anyway. -/
def Faithful (earlier : List (Op Bytes Bytes)) (key : Bytes) : Prop :=
  ∀ other value,
    lastPut (fun other => decide (cString other = cString key)) earlier = some (other, value) →
      if other = key then (0 : UInt8) ∉ value
      else cString value =
        (lastPut (fun other => decide (other = key)) earlier).elim [] Prod.snd

/-- No two of these keys agree up to their first NUL (unless nothing but the empty string
is ever set), and none of these values has a NUL. -/
def Ordinary (keys values : Set Bytes) : Prop :=
  (keys.Nonempty → ∀ value ∈ values, (0 : UInt8) ∉ value) ∧
    (Set.InjOn cString keys ∨ ∀ value ∈ values, value = [])

theorem survives_iff (value : Bytes) :
    coding.load (coding.store value) = value ↔ (0 : UInt8) ∉ value := by
  rw [← cString_eq_self_iff]
  change cString (cString value) = value ↔ _
  rw [cString_cString]

theorem faithful_iff (earlier : List (Op Bytes Bytes)) (key : Bytes) :
    coding.Faithful [] earlier key ↔ Faithful earlier key := by
  unfold Coding.Faithful Faithful
  simp only [survives_iff]
  simp only [coding, cString_cString]
  rfl

theorem ordinary_iff (keys values : Set Bytes) :
    (∀ calls, Within keys values calls → coding.coded [] calls = reference calls) ↔
      Ordinary keys values := by
  have hiff := coding.coded_eq_direct_on_iff [] keys values
  simp only [survives_iff] at hiff
  exact hiff

/-- Strings without NUL are ordinary, whatever else is in them. -/
theorem ordinary_of_no_nul : Ordinary {key | (0 : UInt8) ∉ key} {value | (0 : UInt8) ∉ value} := by
  refine ⟨fun _ _ hvalue => hvalue, Or.inl ?_⟩
  intro key hkey key' hkey' hsame
  rwa [(cString_eq_self_iff key).mpr hkey, (cString_eq_self_iff key').mpr hkey'] at hsame

/-- The client refines the map on one sequence of calls exactly when each `get` in it is
faithful, and on all sequences over given keys and values exactly when these are
ordinary. -/
theorem refines_map_iff {client : ParamClient} (connected : client.context = true) :
    (∀ calls, client.answers calls = reference calls ↔
        ∀ earlier key later, calls = earlier ++ .look key :: later → Faithful earlier key) ∧
      ∀ keys values,
        (∀ calls, Within keys values calls → client.answers calls = reference calls) ↔
          Ordinary keys values := by
  simp only [answers_eq_coded connected]
  constructor
  · intro calls
    simp only [← faithful_iff]
    exact coding.coded_eq_direct_iff [] calls
  · exact ordinary_iff

/-- Ordinary parameters, `max rate` and `rate`, set to `100 %s` and to nothing. -/
theorem refines_map_ordinary :
    (⟨true⟩ : ParamClient).answers
        [.put [109, 97, 120, 32, 114, 97, 116, 101] [49, 48, 48, 32, 37, 115],
          .put [114, 97, 116, 101] [], .look [109, 97, 120, 32, 114, 97, 116, 101]] =
      reference
        [.put [109, 97, 120, 32, 114, 97, 116, 101] [49, 48, 48, 32, 37, 115],
          .put [114, 97, 116, 101] [], .look [109, 97, 120, 32, 114, 97, 116, 101]] :=
  ((refines_map_iff rfl).2 _ _).mpr ordinary_of_no_nul _ (by simp [Within])

/-- A value with a NUL comes back cut off. -/
theorem not_refines_map :
    ¬ ∀ (client : ParamClient) (calls : List (Op Bytes Bytes)), client.context = true →
      client.answers calls = reference calls := by
  intro h
  have hcut := h ⟨true⟩ [.put [107] [97, 0, 98], .look [107]] rfl
  revert hcut
  decide

end ParamClient

end TinyMiddleware.Core
