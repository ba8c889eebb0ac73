import DemandPaging.Executable.Image
import DemandPaging.Machine.Fault

/-! # Loading executables

Loading records page by page where the bytes of each segment are in the file. Nothing but the
headers is read before the process touches a page.
-/
namespace DemandPaging

/-- What is wrong with a segment. -/
inductive SegmentError where
  | differentPageOffset
  | offsetOutOfRange
  | memorySmallerThanFile
  | emptyMemory
  | regionOutOfRange
  | regionWrapsAround
  | pageZero
deriving DecidableEq, Repr

namespace SegmentError

def all : List SegmentError :=
  [differentPageOffset, offsetOutOfRange, memorySmallerThanFile, emptyMemory, regionOutOfRange,
    regionWrapsAround, pageZero]

def name : SegmentError → String
  | differentPageOffset => "DifferentPageOffset"
  | offsetOutOfRange => "OffsetOutOfRange"
  | memorySmallerThanFile => "MemSizeLesserThanFileSize"
  | emptyMemory => "EmptyMemSize"
  | regionOutOfRange => "VMRegionOutOfRange"
  | regionWrapsAround => "VMRegionWrapAround"
  | pageZero => "PageZeroMapping"

theorem mem_all (e : SegmentError) : e ∈ all := by
  cases e <;> decide

end SegmentError

/-- Why an executable cannot be loaded. -/
inductive LoadError where
  /-- The file is no well-formed 32-bit ELF file. -/
  | malformed
  | unsupportedByteOrder
  | unsupportedKind
  | unsupportedMachine
  | segment (error : SegmentError)
  | memory (error : MemoryError)
deriving DecidableEq, Repr

namespace LoadError

def all : List LoadError :=
  [malformed, unsupportedByteOrder, unsupportedKind, unsupportedMachine] ++
    SegmentError.all.map segment ++ MemoryError.all.map memory

def name : LoadError → String
  | malformed => "Malformed"
  | unsupportedByteOrder => "UnsupportedEndianess"
  | unsupportedKind => "UnsupportedType"
  | unsupportedMachine => "UnsupportedMachine"
  | segment e => "SegmentError(" ++ e.name ++ ")"
  | memory e => "Vm(" ++ e.name ++ ")"

def message : LoadError → String
  | malformed => "malformed ELF file"
  | unsupportedByteOrder => "unsupported endianness"
  | unsupportedKind => "not an executable"
  | unsupportedMachine => "not an x86 executable"
  | segment e => "invalid segment: " ++ e.name
  | memory e => e.message

theorem mem_all (e : LoadError) : e ∈ all := by
  cases e with
  | segment e => simp [all, SegmentError.mem_all]
  | memory e => simp [all, MemoryError.mem_all]
  | _ => simp [all]

end LoadError

/-- Why a file header cannot be the one of a program for this machine. -/
def FileHeader.objection? (h : FileHeader) : Option LoadError :=
  if h.byteOrder ≠ .little then some .unsupportedByteOrder
  else if h.kind ≠ .executable then some .unsupportedKind
  else if h.architecture ≠ .x86 then some .unsupportedMachine
  else none

/-- Why a segment of a file of `fileLength` bytes cannot be loaded. -/
def ProgramHeader.objection? (p : ProgramHeader) (fileLength : Nat) : Option SegmentError :=
  let start := p.virtualAddress.toNat
  let stop := start + p.memorySize.toNat
  if pageOffset p.fileOffset.toNat ≠ pageOffset start then some .differentPageOffset
  else if fileLength < p.fileOffset.toNat + p.fileSize.toNat then some .offsetOutOfRange
  else if p.memorySize < p.fileSize then some .memorySmallerThanFile
  else if p.memorySize = 0 then some .emptyMemory
  else if !isUser start then some .regionOutOfRange
  else if halfWordLimit ≤ stop then some .regionWrapsAround
  else if !isUser (stop - 1) then some .regionOutOfRange
  else if start < pageSize then some .pageZero
  else none

/-- Where the bytes of a segment are in its file, and where they go. -/
structure SegmentPlan where
  fileOffset : Nat
  va : Nat
  readBytes : Nat
  zeroBytes : Nat
deriving DecidableEq, Repr

/-- The whole pages that a segment takes: file bytes from the start of its first page on, then
zeroes up to the end of its last page. -/
def ProgramHeader.plan (p : ProgramHeader) : SegmentPlan :=
  let start := p.virtualAddress.toNat
  let size := pageDown (pageOffset start + p.memorySize.toNat + (pageSize - 1))
  let readBytes := if 0 < p.fileSize.toNat then pageOffset start + p.fileSize.toNat else 0
  { fileOffset := pageDown p.fileOffset.toNat, va := pageDown start, readBytes
    zeroBytes := size - readBytes }

structure LoadedProgram where
  entry : Nat
  esp : Nat
deriving DecidableEq, Repr

/-- The source of a segment page that takes its first bytes from a file. -/
def segmentSource (file offset available : Nat) : Source :=
  if available = 0 then .zeroed
  else { file := some file, offset, readBytes := min available pageSize
         readBytes_le := Nat.min_le_right .. }

variable {π : Type}

/-- Adds `count` pages from `va` on, the first `available` bytes of which are in a file. -/
def addSegmentPages (s file : Nat) (writable : Bool) (offset va available : Nat) :
    Nat → Attempt π Unit
  | 0 => return
  | count + 1 => do
    let source := segmentSource file offset available
    modify (·.retainSource source)
    unless ← (insertPage s va writable (.uninit .anonymous source) : Run π Bool) do
      modify (·.report (.segmentOverlap va))
      throw .invalidMapping
    unless va + pageSize < wordLimit ∧ offset + source.readBytes < wordLimit do abort .overflow
    addSegmentPages s file writable (offset + source.readBytes) (va + pageSize)
      (available - source.readBytes) count

/-- Adds the pages of a segment. Its bytes must come to whole pages, and start on one. -/
def addSegment (s file : Nat) (plan : SegmentPlan) (writable : Bool) : Attempt π Unit := do
  let size := plan.readBytes + plan.zeroBytes
  unless size < wordLimit do abort .overflow
  unless size % pageSize = 0 ∧ pageOffset plan.va = 0 do abort .violated
  addSegmentPages s file writable plan.fileOffset plan.va plan.readBytes (size / pageSize)

variable [ReplacementPolicy π]

/-- Adds and claims the first stack page. Answers the initial stack pointer. -/
def addStack (s : Nat) : Attempt π Nat := do
  let va := stackTop - pageSize
  unless ← (insertAnonymous s va true : Run π Bool) do throw .invalidMapping
  claim s va
  return stackTop

/-- Adds the segments of an image that are to be loaded, in order, until one is refused. -/
def addSegments (s file fileLength : Nat) : List ProgramHeader → ExceptT LoadError (Run π) Unit
  | [] => return
  | p :: rest => do
    if p.kind = .load then
      match p.objection? fileLength with
      | some e => throw (.segment e)
      | none =>
        let plan := p.plan
        ExceptT.adapt LoadError.memory (addSegment s file plan p.writable)
        modify (·.report (.segmentLoaded plan.va plan.readBytes plan.zeroBytes))
    addSegments s file fileLength rest

/-- Loads the program whose file holds `bytes` into space `s`. After a failure the space may hold
some of its pages. -/
def loadImage (s file : Nat) (bytes : List UInt8) : ExceptT LoadError (Run π) LoadedProgram := do
  let fileLength := (← get).files.length file
  if bytes.length ≠ fileLength then throw (.memory .ioFailure)
  match Image.read bytes with
  | .error _ => throw .malformed
  | .ok (image, _) =>
    match image.header.objection? with
    | some e => throw e
    | none =>
      addSegments s file fileLength image.programHeaders
      let esp ← ExceptT.adapt LoadError.memory (addStack s)
      return { entry := image.header.entry.toNat, esp }

/-- Reads a program through a handle and loads it into space `s`. Also answers the handle as the
read leaves it. -/
def loadExecutable (s : Nat) (h : Handle) : Run π (Handle × Except LoadError LoadedProgram) := do
  let files := (← get).files
  let (bytes, after) := files.readAt h 0 (files.length h.file)
  let answer ← (loadImage s h.file bytes).run
  return (after, answer)

end DemandPaging
