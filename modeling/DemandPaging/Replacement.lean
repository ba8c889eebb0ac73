/-! # Page replacement

A policy is told when a frame becomes resident and when it is freed, and offers the frames to
evict, best victim first. It never evicts on its own.
-/
namespace DemandPaging

class ReplacementPolicy (π : Type) where
  /-- The frame just became resident. -/
  insert : π → Nat → π
  /-- The frame was evicted or freed. -/
  remove : π → Nat → π
  /-- The frames to try, best victim first. -/
  candidates : π → List Nat

/-- Offers first what became resident longest ago. -/
structure Fifo where
  queue : List Nat := []
deriving DecidableEq, Repr

instance : ReplacementPolicy Fifo where
  insert p n := ⟨p.queue ++ [n]⟩
  remove p n := ⟨p.queue.filter (· ≠ n)⟩
  candidates p := p.queue

/-- How a ranked policy orders the frames it holds. -/
inductive Ranking where
  | newestFirst
  /-- The frames of a fixed list, in its order. -/
  | listed (order : List Nat)
deriving DecidableEq, Repr

/-- Holds the resident frames in order of arrival and offers them by a ranking. -/
structure Ranked where
  ranking : Ranking
  held : List Nat := []
deriving DecidableEq, Repr

instance : ReplacementPolicy Ranked where
  insert p n := { p with held := p.held ++ [n] }
  remove p n := { p with held := p.held.filter (· ≠ n) }
  candidates p := match p.ranking with
    | .newestFirst => p.held.reverse
    | .listed order => order.filter (· ∈ p.held)

end DemandPaging
