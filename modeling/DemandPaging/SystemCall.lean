import DemandPaging.Process

/-! # System calls

A system call takes five words and answers a signed number; an error comes back as a negative error
number.
-/
namespace DemandPaging

abbrev exitCall : Nat := 0x1
abbrev forkCall : Nat := 0x2
abbrev mapCall : Nat := 0x5a
abbrev unmapCall : Nat := 0x5b

/-- What user space takes for a mapping that could not be made. -/
abbrev mapFailed : Nat := wordLimit - 1

abbrev protRead : Nat := 0x1
abbrev protWrite : Nat := 0x2

/-- The low 32 bits of a word as a signed number. -/
def signed32 (word : Nat) : Int := (BitVec.ofNat 32 word).toInt

/-- The descriptor that a word names, if its low 32 bits fit 16 bits signed. -/
def descriptorOf? (word : Nat) : Option Int :=
  let fd := signed32 word
  if -32768 ≤ fd ∧ fd ≤ lastDescriptor then some fd else none

def MemoryError.answer (e : MemoryError) : Int := -(e.errno : Int)

variable {π : Type}

/-- Maps an open file. -/
def mapSystemCall (s addr length prot fdWord offset : Nat) : Run π Int := do
  match descriptorOf? fdWord with
  | none => return -(badDescriptor : Int)
  | some fd =>
    if signedLimit ≤ addr then return -(invalidArgument : Int)
    match openHandle? (← get) s fd with
    | none => return -(badDescriptor : Int)
    | some h =>
      match ← (mapFile s addr length (prot.testBit 1) h.file offset).run with
      | .ok _ => return addr
      | .error e => return e.answer

variable [ReplacementPolicy π]

def unmapSystemCall (s addr : Nat) : Run π Int := do
  match ← (unmapFile s addr).run with
  | .ok _ => return 0
  | .error e => return e.answer

/-- Answers a system call of a process. -/
def systemCall (s number a b c d e : Nat) : Run π Int := do
  modify fun m => m.report (.systemCall (m.process s).pid number [a, b, c, d, e])
  if number = mapCall then mapSystemCall s a b c d e
  else if number = unmapCall then unmapSystemCall s a
  else return -(noSystemCall : Int)

end DemandPaging
