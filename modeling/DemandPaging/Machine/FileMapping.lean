import DemandPaging.Machine.Frames

/-! # Memory-mapped files

A mapping is a run of file-backed pages, each with a handle of its own. Every page but the last is
chained to the next, which is how the end of the mapping is found again.
-/
namespace DemandPaging

variable {π : Type}

/-- The source of the page of a mapping that starts at `offset` in a file of `length` bytes. -/
def mappingSource (file offset length : Nat) (chained : Bool) : Source :=
  { file := some file, offset, readBytes := min (length - offset) pageSize, chained
    readBytes_le := Nat.min_le_right .. }

/-- Adds `count` consecutive pages of a file mapping. -/
def mapPages (s : Nat) (writable : Bool) (file length va offset : Nat) : Nat → Run π Unit
  | 0 => return
  | count + 1 => do
    let source := mappingSource file offset length (decide (0 < count))
    modify (·.retainSource source)
    unless ← insertPage s va writable (.uninit .file source) do abort .violated
    mapPages s writable file length (va + pageSize) (offset + pageSize) count

/-- The end of a mapping of `length` bytes at `addr`, if it lies in user space. -/
def mappingEnd? (addr length : Nat) : Option Nat := do
  let last ← wordAdd? length (pageSize - 1)
  let stop ← wordAdd? addr (pageDown last)
  if stop ≤ kernelBase then some stop else none

/-- Why a mapping is refused, as far as the table of pages has a say: the event to report. -/
def mappingObjection? (space : Space) (addr length fileLength offset : Nat) : Option Event :=
  if addr = 0 ∨ pageOffset addr ≠ 0 ∨ offset % pageSize ≠ 0 ∨ length = 0 then
    some (.badMapping addr length offset)
  else if fileLength = 0 then some .emptyMapping
  else match mappingEnd? addr length with
    | none => some (.mappingAboveUser addr length)
    | some stop =>
      if !space.isFree addr stop then some (.mappingOverlap addr stop)
      else if wordLimit ≤ offset + (stop - addr) then some (.mappingOffsetOverflow offset length)
      else none

/-- Maps `length` bytes of a file from `offset` on at `addr`. Bytes of the last page past the end of
the file are zero and are never written back. Nothing is mapped unless the whole request is
valid. -/
def mapFile (s addr length : Nat) (writable : Bool) (file offset : Nat) : Attempt π Nat := do
  let m ← get
  let fileLength := m.files.length file
  match mappingObjection? (m.space s) addr length fileLength offset, mappingEnd? addr length with
  | none, some stop =>
    let count := (stop - addr) / pageSize
    (mapPages s writable file fileLength addr offset count : Run π Unit)
    modify (·.report (.mapped count addr))
    return addr
  | objection, _ =>
    modify fun m => objection.elim m m.report
    throw .invalidMapping

variable [ReplacementPolicy π]

/-- Removes the chained file-backed pages from `va` on, at most `limit` of them, and adds their
number to `count`. -/
def unmapChain (s va count : Nat) : Nat → Run π Nat
  | 0 => return count
  | limit + 1 => do
    match (← get).page? s va with
    | none => return count
    | some page =>
      unless page.isFile do return count
      let _ ← removePage s va
      unless page.source.chained do return count + 1
      unless va + pageSize < wordLimit do abort .overflow
      unmapChain s (va + pageSize) (count + 1) limit

/-- Removes a mapping from the page containing `addr` to its end, writing dirty pages back. No chain
is longer than the table has pages. -/
def unmapFile (s addr : Nat) : Attempt π Unit := do
  let count ← (unmapChain s addr 0 ((← get).space s).pages.size : Run π Nat)
  if count = 0 then
    modify (·.report (.nothingToUnmap addr))
    throw .invalidMapping
  modify (·.report (.unmapped count addr))

end DemandPaging
