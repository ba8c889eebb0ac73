import DemandPaging.Machine.Fault

/-! # Access to user memory

Copies between the kernel and user memory go page by page. Each page is faulted in the way an
access by the process would, and is marked accessed, and dirty for a write.
-/
namespace DemandPaging

variable {π : Type} [ReplacementPolicy π]

/-- How often a page without a frame is looked at again. A round that finds the page mapped and
still without a frame changes nothing, so that every later round does the same. -/
abbrev accessRounds : Nat := 2

/-- Whether the page at `va` must be faulted in before the access. -/
def needsFault (m : Machine π) (s va : Nat) (write : Bool) : Bool :=
  let directory := (m.space s).directory
  (directory.frame? va).isNone || (write && !directory.isWritable va)

omit [ReplacementPolicy π] in
/-- Marks the page at `va` as used. -/
def Machine.touch (m : Machine π) (s va : Nat) (write : Bool) : Machine π :=
  m.modifySpace s fun space =>
    let space := space.recordAccess va
    if write then space.setDirty va true else space

/-- Makes the page containing `addr` resident for an access and answers its frame. -/
def pageFor (s esp addr : Nat) (write : Bool) : Nat → Attempt π Nat
  | 0 => abort .stalled
  | rounds + 1 => do
    let va := pageDown addr
    let m ← get
    if needsFault m s va write then
      let notPresent := ((m.space s).directory.frame? va).isNone
      handleFault s { addr, user := false, write, notPresent } esp
    match (← get).page? s va with
    | none => throw .invalidMapping
    | some page =>
      match page.frame with
      | none => pageFor s esp addr write rounds
      | some n =>
        modify (·.touch s va write)
        return n

/-- Whether `count` bytes from `start` on are user memory. -/
def inUserMemory (start count : Nat) : Bool := decide (start + count ≤ kernelBase)

/-- Number of bytes to move at `addr` when `count` are left: up to the end of the page. -/
def chunkSize (addr count : Nat) : Nat := min (pageSize - pageOffset addr) count

theorem chunkSize_pos (addr : Nat) {count : Nat} (h : 0 < count) : 0 < chunkSize addr count := by
  have := pageOffset_lt addr
  simp only [chunkSize]
  omega

/-- The bytes of a chunk of user memory. -/
def readChunk (s esp addr count : Nat) : Attempt π (List UInt8) := do
  let n ← pageFor s esp addr false accessRounds
  return slice ((← get).contents n).toList (pageOffset addr) count

/-- Replaces a chunk of user memory. -/
def writeChunk (s esp addr : Nat) (bytes : List UInt8) : Attempt π Unit := do
  let n ← pageFor s esp addr true accessRounds
  modify fun m => m.setContents n (overwrite (m.contents n) (pageOffset addr) bytes)

/-- Reads user memory chunk by chunk: the bytes read before an error, and the error. -/
def readChunks (s esp addr count : Nat) : Run π (List UInt8 × Option MemoryError) := do
  if h : 0 < count then
    let size := chunkSize addr count
    have := chunkSize_pos addr h
    match ← (readChunk s esp addr size).run with
    | .error e => return ([], some e)
    | .ok bytes =>
      let (rest, failure) ← readChunks s esp (addr + size) (count - size)
      return (bytes ++ rest, failure)
  else return ([], none)
termination_by count

/-- Reads `count` bytes of user memory: the bytes read before an error, and the error. -/
def copyFromUser (s esp addr count : Nat) : Run π (List UInt8 × Option MemoryError) :=
  if inUserMemory addr count then readChunks s esp addr count
  else return ([], some .protectionViolation)

/-- Writes user memory chunk by chunk. -/
def writeChunks (s esp addr : Nat) (bytes : List UInt8) : Attempt π Unit := do
  if h : 0 < bytes.length then
    let size := chunkSize addr bytes.length
    have := chunkSize_pos addr h
    writeChunk s esp addr (bytes.take size)
    writeChunks s esp (addr + size) (bytes.drop size)
termination_by bytes.length
decreasing_by
  simp only [List.length_drop]
  omega

/-- Writes `bytes` to user memory. What was written before an error stays. -/
def copyToUser (s esp addr : Nat) (bytes : List UInt8) : Attempt π Unit :=
  if inUserMemory addr bytes.length then writeChunks s esp addr bytes
  else throw .protectionViolation

/-- No buffer has more bytes than this. -/
abbrev bufferLimit : Nat := signedLimit - 1

/-- A kernel copy of `count` bytes of user memory. -/
def fetchFromUser (s esp addr count : Nat) : Attempt π (List UInt8) := do
  if bufferLimit < count then abort .overflow
  match ← (copyFromUser s esp addr count : Run π _) with
  | (bytes, none) => return bytes
  | (_, some e) => throw e

end DemandPaging
