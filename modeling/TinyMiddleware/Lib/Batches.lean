import Mathlib.Tactic.TypeStar

/-! A server that takes items in batches. An item may halt it, but that is honoured only
between batches: the batch in which it happens is served to its end. -/
namespace TinyMiddleware

structure BatchServer (σ α : Type*) where
  serve : σ → α → σ
  halts : σ → α → Bool

namespace BatchServer

variable {σ α : Type*} (server : BatchServer σ α)

def serveAll (s : σ) (items : List α) : σ :=
  items.foldl server.serve s

def haltsIn (s : σ) : List α → Bool
  | [] => false
  | item :: rest => server.halts s item || haltsIn (server.serve s item) rest

/-- The batches up to and including the first one in which an item halts the server. -/
def taken (s : σ) : List (List α) → List (List α)
  | [] => []
  | batch :: rest =>
      if server.haltsIn s batch then [batch] else batch :: taken (server.serveAll s batch) rest

def halted (s : σ) : List (List α) → Bool
  | [] => false
  | batch :: rest => server.haltsIn s batch || halted (server.serveAll s batch) rest

/-- The reference: the batches taken are served as one list of items. -/
def outcome (s : σ) (batches : List (List α)) : σ :=
  server.serveAll s (server.taken s batches).flatten

variable {server} {s : σ}

theorem outcome_of_halting {batch : List α} (h : server.haltsIn s batch = true)
    (rest : List (List α)) : server.outcome s (batch :: rest) = server.serveAll s batch := by
  simp [outcome, taken, h]

theorem outcome_cons {batch : List α} (h : server.haltsIn s batch = false)
    (rest : List (List α)) :
    server.outcome s (batch :: rest) = server.outcome (server.serveAll s batch) rest := by
  simp [outcome, taken, h, serveAll, List.foldl_append]

/-- What holds at the start and is kept by every item holds at the end. -/
theorem serveAll_keeps {I : σ → Prop} (hs : I s) (keep : ∀ s item, I s → I (server.serve s item))
    (items : List α) : I (server.serveAll s items) := by
  unfold serveAll
  induction items generalizing s with
  | nil => exact hs
  | cons item rest ih => exact ih (keep s item hs)

end BatchServer

end TinyMiddleware
