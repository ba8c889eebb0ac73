/-! # Locks

A value that one holder at a time may read and change.
-/
namespace DemandPaging

structure Lock (α : Type) where
  value : α
  held : Bool := false
deriving DecidableEq, Repr

namespace Lock

variable {α : Type}

/-- Takes the lock unless it is held. -/
def tryAcquire (l : Lock α) : Bool × Lock α := (!l.held, { l with held := true })

def release (l : Lock α) : Lock α := { l with held := false }

/-- The value as its holder sees it. -/
def get? (l : Lock α) : Option α := if l.held then some l.value else none

/-- Replaces the value, which only its holder can do. -/
def set? (l : Lock α) (v : α) : Option (Lock α) :=
  if l.held then some { l with value := v } else none

/-- The text of a lock shows its value only while nobody holds it. -/
def describe (render : α → String) (l : Lock α) : String :=
  if l.held then "Mutex \x7b <locked> \x7d" else "Mutex \x7b data: " ++ render l.value ++ "\x7d"

end Lock

end DemandPaging
