import DemandPaging.Machine.Basic

/-! # Between a page and its backing store

Filling a frame with a page's contents, saving a frame to the page's backing store, giving up all
a page holds, and making a copy of a page for another space.
-/
namespace DemandPaging

variable {π : Type}

/-- Fills frame `n` from a source. A short read keeps what was read and is an error. -/
def loadSource (source : Source) (n : Nat) : Attempt π Unit := do
  let m ← get
  let bytes := match source.file with
    | some file => (m.files.node file).readAt source.offset source.readBytes
    | none => []
  set (m.setContents n (overwrite (m.contents n) 0 bytes))
  if source.file.isSome && bytes.length != source.readBytes then
    modify (·.report (.shortRead source.offset bytes.length source.readBytes))
    throw .ioFailure
  modify fun m => m.setContents n (zeroFrom (m.contents n) bytes.length)

/-- Reads a swap slot into frame `n` and frees the slot. A failed read keeps the slot. -/
def fetchSlot (slot n : Nat) : Attempt π Unit := do
  let m ← get
  match m.swap.fetch slot with
  | .error a => abort a
  | .ok (bytes, failure, swap) =>
    set { m.setContents n (overwrite (m.contents n) 0 bytes) with swap }
    match failure with
    | some e => throw e
    | none => modify (·.report (.swappedIn slot))

/-- Takes the answer of a store into a fresh swap slot. -/
def storedIn (answer : Except MemoryError Nat) (swap : SwapSpace) : Attempt π Nat := do
  modify fun m => { m with swap }
  match answer with
  | .ok slot =>
    modify (·.report (.swappedOut slot))
    return slot
  | .error e =>
    if e = .allocationExhausted then modify (·.report (.swapFull swap.capacity))
    throw e

/-- Writes a page to a fresh swap slot. -/
def storePage (contents : PageBytes) : Attempt π Nat := do
  let (answer, swap) := (← get).swap.store contents
  storedIn answer swap

/-- Copies a swap slot into a fresh one. -/
def duplicateSlot (slot : Nat) : Attempt π Nat := do
  match (← get).swap.duplicate slot with
  | .error a => abort a
  | .ok (answer, swap) => storedIn answer swap

/-- Fills frame `n` with the contents of a page: from its source on the first claim, from its
backing store afterwards. Answers the page's backing from now on. -/
def materialize (backing : Backing) (n : Nat) : Attempt π Backing := do
  match backing with
  | .uninit target source =>
    loadSource source n
    match target with
    | .anonymous => return .anonymous source none
    | .file => return .fileBacked source false
  | .anonymous source none => return .anonymous source none
  | .anonymous source (some slot) =>
    fetchSlot slot n
    return .anonymous source none
  | .fileBacked source _ =>
    loadSource source n
    return .fileBacked source false

/-- Writes frame `n` back to the file of a page of space `s` if the page is mapped dirty. -/
def writeBack (source : Source) (n s va : Nat) : Attempt π Unit := do
  let m ← get
  unless (m.space s).directory.isDirty va do return
  match source.file with
  | none => throw .ioFailure
  | some file =>
    let (count, files) :=
      m.files.writeAt file source.offset ((m.contents n).toList.take source.readBytes)
    set { m with files }
    if count ≠ source.readBytes then
      modify (·.report (.shortWriteBack source.offset count source.readBytes))
      throw .ioFailure
    modify fun m => m.modifySpace s (·.setDirty va false)

/-- Saves frame `n` to the backing store of a page mapped in space `s`. Answers the page's backing
from now on. -/
def saveOut (page : Page) (n s : Nat) : Attempt π Backing := do
  match page.backing with
  | .anonymous source _ => return .anonymous source (some (← storePage ((← get).contents n)))
  | .fileBacked source _ =>
    writeBack source n s page.va
    return .fileBacked source true
  | .uninit .. => throw .invalidMapping

/-- A copy of a page's backing for another space: with a file handle of its own and, if the page is
in swap, a slot of its own. -/
def duplicateBacking (backing : Backing) : Attempt π Backing := do
  let copy ← match backing with
    | .anonymous source (some slot) => pure (.anonymous source (some (← duplicateSlot slot)))
    | other => pure other
  modify (·.retainSource copy.source)
  return copy

end DemandPaging
