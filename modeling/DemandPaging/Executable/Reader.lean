/-! # Reading binary headers

A reader takes bytes off the front of its input. A failure says what was wrong and how many bytes
were left where it was found.
-/
namespace DemandPaging

inductive ReadProblem where
  /-- A fixed byte sequence is missing or cut off. -/
  | tag
  /-- A field has a value outside its list. -/
  | value
  /-- Too few bytes are left. -/
  | endOfInput
deriving DecidableEq, Repr

structure ReadFailure where
  problem : ReadProblem
  /-- Number of bytes from the place of the failure to the end of the input. -/
  rest : Nat
deriving DecidableEq, Repr

abbrev Reader := StateT (List UInt8) (Except ReadFailure)

inductive ByteOrder where
  | little
  | big
deriving DecidableEq, Repr

/-- The unsigned number that a row of bytes spells. -/
def ByteOrder.value : ByteOrder → List UInt8 → Nat
  | little, bytes => bytes.foldr (fun b n => b.toNat + 256 * n) 0
  | big, bytes => bytes.foldl (fun n b => 256 * n + b.toNat) 0

/-- The list without its first `count` elements, if it has so many. -/
def dropExactly? {α : Type} : Nat → List α → Option (List α)
  | 0, rest => some rest
  | _ + 1, [] => none
  | count + 1, _ :: rest => dropExactly? count rest

theorem dropExactly?_eq {α : Type} (count : Nat) (l : List α) :
    dropExactly? count l = if count ≤ l.length then some (l.drop count) else none := by
  induction count generalizing l with
  | zero => simp [dropExactly?]
  | succ count ih => cases l with
    | nil => simp [dropExactly?]
    | cons a l => simp [dropExactly?, ih]

namespace Reader

/-- Reads exactly the given bytes. -/
def tag (expected : List UInt8) : Reader Unit := fun input =>
  if expected.isPrefixOf input then .ok ((), input.drop expected.length)
  else .error ⟨.tag, input.length⟩

def take (count : Nat) : Reader (List UInt8) := fun input =>
  match dropExactly? count input with
  | some rest => .ok (input.take count, rest)
  | none => .error ⟨.endOfInput, input.length⟩

def skip (count : Nat) : Reader Unit := fun input =>
  match dropExactly? count input with
  | some rest => .ok ((), rest)
  | none => .error ⟨.endOfInput, input.length⟩

def byte : Reader UInt8 := do return UInt8.ofNat (ByteOrder.little.value (← take 1))

def half (order : ByteOrder) : Reader UInt16 := do return UInt16.ofNat (order.value (← take 2))

def word (order : ByteOrder) : Reader UInt32 := do return UInt32.ofNat (order.value (← take 4))

/-- Reads a field that must have one of the values that `f` knows. A wrong value is reported at the
start of the field. -/
def oneOf {α β : Type} (field : Reader α) (f : α → Option β) : Reader β := fun input =>
  match field input with
  | .error e => .error e
  | .ok (a, rest) =>
    match f a with
    | some b => .ok (b, rest)
    | none => .error ⟨.value, input.length⟩

end Reader

end DemandPaging
