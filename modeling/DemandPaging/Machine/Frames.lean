import DemandPaging.Machine.Backing

/-! # Taking, sharing and giving back frames

A frame is acquired pinned, so that it cannot be evicted before it is installed or abandoned. When
no frame is free, the first frame in policy order that may be evicted is saved and taken.
-/
namespace DemandPaging

variable {π : Type}

namespace Machine

/-- The page that an owner entry stands for, if it is still in its table. -/
def ownedPage? (m : Machine π) (o : Owner) : Option Page :=
  (m.page? o.space o.va).filter (·.serial == o.page)

/-- The owner and page to save before frame `n` can be taken, if the frame may be evicted now. A
page that is busy may not. -/
def victim? (m : Machine π) (busy : Option Nat) (n : Nat) : Option (Owner × Page) := do
  let o ← m.frames.soleOwner? n
  let page ← m.ownedPage? o
  if busy = some page.serial then none else some (o, page)

variable [ReplacementPolicy π]

def releaseFrame (m : Machine π) (n : Nat) : Machine π :=
  let (freed, frames) := m.frames.put n
  let m := { m with frames }
  if freed then m.report (.freed n) else m

/-- Drops the page mapped at `va` in space `s` from frame `n`. The last page frees the frame. -/
def release (m : Machine π) (n s va : Nat) : Machine π :=
  { m with frames := m.frames.dropOwner n s va }.releaseFrame n

/-- Gives back a frame that was acquired and never installed. -/
def abandon (m : Machine π) (n : Nat) : Machine π := m.releaseFrame n

omit [ReplacementPolicy π] in
/-- Records that a page is mapped to frame `n` at `va` in space `s`, and unpins the frame. -/
def install (m : Machine π) (n page s va : Nat) : Machine π :=
  { m with frames := (m.frames.addOwner n ⟨page, s, va⟩).unpin n }

end Machine

/-- Maps a frame read-only at `va` in two spaces, or in neither. -/
def mapShared (n parent child va : Nat) : Attempt π Unit := do
  unless ← modifyGet (·.map child va n false) do throw .allocationExhausted
  unless ← modifyGet (·.map parent va n false) do
    modify (·.unmap child va)
    throw .allocationExhausted

/-- Shares frame `n`, mapped at `va` in space `parent`, with a page of space `child`. -/
def share (n parent child page va : Nat) : Attempt π Unit := do
  mapShared n parent child va
  modify fun m =>
    let frames := m.frames.modify n fun f => { f with refcount := f.refcount + 1 }
    { m with frames := frames.addOwner n ⟨page, child, va⟩ }
  modify (·.report (.shared n ((← get).frames.frame n).refcount))

/-- Copies a mapping that no page stands for from one space to another. -/
def shareRaw (n parent child va : Nat) : Attempt π Unit := do
  mapShared n parent child va
  modify (·.report (.rawShared n va))

variable [ReplacementPolicy π]

/-- Saves the page of an owner, unmaps it and frees its frame. -/
def evictPage (n : Nat) (o : Owner) (page : Page) : Attempt π Unit := do
  let backing ← saveOut page n o.space
  modify fun m =>
    let m := (m.unmap o.space o.va).putPage o.space { page with backing, frame := none }
    let frames := m.frames.modify n fun f => { f with refcount := 0 }
    { m with frames := frames.vacate n }
  modify (·.report (.evicted n o.va))

/-- Evicts the first of the offered frames that may be evicted. -/
def evictFirst (busy : Option Nat) : List Nat → Attempt π Nat
  | [] => throw .allocationExhausted
  | n :: rest => do
    match (← get).victim? busy n with
    | none => evictFirst busy rest
    | some (o, page) =>
      evictPage n o page
      return n

/-- A zeroed frame with a reference count of one, pinned. If no frame is free a page is evicted,
but never the busy one. -/
def acquire (busy : Option Nat) : Attempt π Nat := do
  let m ← get
  let n ← match m.frames.place? with
    | some (n, frames) =>
      set { m with frames }
      pure n
    | none => evictFirst busy (ReplacementPolicy.candidates m.frames.policy)
  modify fun m => { m with frames := m.frames.occupy n }
  modify (·.report (.acquired n))
  return n

/-- Brings the file of a resident file-backed page up to date. Contents that cannot be written are
lost, which is reported. -/
def flushPage (s : Nat) (page : Page) : Run π Unit := do
  match page.backing, page.frame with
  | .fileBacked source _, some n =>
    match ← (writeBack source n s page.va).run with
    | .ok _ => return
    | .error e => modify (·.report (.writeBackLost page.va e))
  | _, _ => return

/-- Gives up all that a page outside its table holds: dirty contents go to the file, the swap slot,
the file handle and the frame are given back, and the page is unmapped. Answers the empty page. -/
def destroyPage (s : Nat) (page : Page) : Run π Page := do
  flushPage s page
  modify fun m =>
    let m := ((m.freeSlot page.backing.slot?).releaseSource page.source).unmap s page.va
    match page.frame with
    | some n => m.release n s page.va
    | none => m
  return { page with backing := page.backing.emptied, frame := none }

/-- Destroys the page of space `s` that contains `va`. Answers whether there was one. -/
def removePage (s va : Nat) : Run π Bool := do
  match (← get).page? s va with
  | none => return false
  | some page =>
    modify (·.modifySpace s (·.erase page.va))
    let _ ← destroyPage s page
    return true

end DemandPaging
