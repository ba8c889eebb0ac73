/-! # Ways to fail

A memory operation that cannot be done answers with a `MemoryError`, which a process sees as an
error number. An `Abort` is different: no answer exists, and whatever was running is over.
-/
namespace DemandPaging

/-- Error numbers reported to user space. -/
abbrev noEntry : Nat := 2
abbrev ioError : Nat := 5
abbrev badDescriptor : Nat := 9
abbrev noMemory : Nat := 12
abbrev accessDenied : Nat := 13
abbrev badAddress : Nat := 14
abbrev alreadyExists : Nat := 17
abbrev noDevice : Nat := 19
abbrev invalidArgument : Nat := 22
abbrev noSystemCall : Nat := 38

inductive MemoryError where
  /-- No frame is free or can be made free, or swap is full. -/
  | allocationExhausted
  /-- A transfer to or from backing storage was short or failed. -/
  | ioFailure
  /-- The address or range names no valid mapping. -/
  | invalidMapping
  /-- The page does not permit the access. -/
  | protectionViolation
deriving DecidableEq, Repr

namespace MemoryError

def all : List MemoryError :=
  [allocationExhausted, ioFailure, invalidMapping, protectionViolation]

def name : MemoryError → String
  | allocationExhausted => "AllocationExhausted"
  | ioFailure => "IoFailure"
  | invalidMapping => "InvalidMapping"
  | protectionViolation => "ProtectionViolation"

def message : MemoryError → String
  | allocationExhausted => "out of frames or swap slots"
  | ioFailure => "backing store I/O failed"
  | invalidMapping => "invalid mapping"
  | protectionViolation => "protection violation"

def errno : MemoryError → Nat
  | allocationExhausted => noMemory
  | ioFailure => ioError
  | invalidMapping => invalidArgument
  | protectionViolation => badAddress

theorem mem_all (e : MemoryError) : e ∈ all := by
  cases e <;> decide

end MemoryError

inductive Abort where
  /-- A machine word cannot hold a result. -/
  | overflow
  /-- A condition that callers promise does not hold. -/
  | violated
  /-- Waiting for something that can no longer happen. -/
  | stalled
deriving DecidableEq, Repr

end DemandPaging
