import DemandPaging.Device.Registry
import DemandPaging.Event
import DemandPaging.File
import DemandPaging.Frame.Table
import DemandPaging.Space
import DemandPaging.Swap

/-! # The machine

Everything that address spaces share (frames, swap, files) and the address spaces themselves.
`Run` is an operation that cannot be refused, `Attempt` one that may answer with a `MemoryError`;
what an attempt changed before its error stays changed.
-/
namespace DemandPaging

structure Machine (π : Type) where
  frames : FrameTable π
  swap : SwapSpace
  files : FileStore := {}
  spaces : Array Space := #[]
  /-- The serial of the next page. -/
  nextSerial : Nat := 0
  /-- What has been reported so far. -/
  events : Array Event := #[]

abbrev Run (π : Type) := EStateM Abort (Machine π)

abbrev Attempt (π : Type) := ExceptT MemoryError (Run π)

namespace Machine

variable {π : Type}

/-- A machine with `count` free frames that swaps to `device`. -/
def new (count : Nat) (device : Device) (policy : π) : Machine π :=
  let swap : SwapSpace := { device }
  { frames := .ofCount count policy, swap, events := #[.machineReady count swap.capacity] }

/-- A machine that swaps to the first swap device of a registry, if there is one. -/
def ofRegistry? (count : Nat) (registry : DeviceRegistry) : Option (Machine Fifo) :=
  (registry.byKind? .swap).map fun device => new count device {}

def report (m : Machine π) (e : Event) : Machine π := { m with events := m.events.push e }

def space (m : Machine π) (s : Nat) : Space := m.spaces.getD s default

def modifySpace (m : Machine π) (s : Nat) (f : Space → Space) : Machine π :=
  { m with spaces := m.spaces.modify s f }

/-- Adds a space, which gets the next number. -/
def addSpace (m : Machine π) (space : Space) : Machine π :=
  { m with spaces := m.spaces.push space }

def process (m : Machine π) (s : Nat) : Process := (m.space s).process

def modifyProcess (m : Machine π) (s : Nat) (f : Process → Process) : Machine π :=
  m.modifySpace s fun space => { space with process := f space.process }

/-- The page of space `s` that contains `va`. -/
def page? (m : Machine π) (s va : Nat) : Option Page := (m.space s).find? va

def putPage (m : Machine π) (s : Nat) (p : Page) : Machine π := m.modifySpace s (·.put p)

/-- Maps a page of space `s` to a frame, unless the space refuses. -/
def map (m : Machine π) (s va frame : Nat) (writable : Bool) : Bool × Machine π :=
  let (done, space) := (m.space s).map va frame writable
  (done, m.modifySpace s fun _ => space)

def unmap (m : Machine π) (s va : Nat) : Machine π := m.modifySpace s (·.unmap va)

def contents (m : Machine π) (n : Nat) : PageBytes := (m.frames.frame n).contents

def setContents (m : Machine π) (n : Nat) (contents : PageBytes) : Machine π :=
  { m with frames := m.frames.setContents n contents }

/-- Counts one more handle of the file that a source reads, if it reads one. -/
def retainSource (m : Machine π) (source : Source) : Machine π :=
  match source.file with
  | some file => { m with files := m.files.retain file }
  | none => m

/-- Gives back the handle that a source owns. -/
def releaseSource (m : Machine π) (source : Source) : Machine π :=
  match source.file with
  | some file => { m with files := m.files.release file }
  | none => m

/-- Gives back a swap slot, if there is one to give back. -/
def freeSlot (m : Machine π) : Option Nat → Machine π
  | some slot => { m with swap := m.swap.free slot }
  | none => m

end Machine

section Operations

variable {π : Type}

def abort {α : Type} (a : Abort) : Run π α := throw a

/-- Adds a fresh page to space `s` under its own address. Answers `false`, giving the page's file
handle back, if the address is taken. -/
def insertPage (s va : Nat) (writable : Bool) (backing : Backing) : Run π Bool := do
  let m ← get
  if (m.space s).pages.contains va then
    set (m.releaseSource backing.source)
    return false
  let page : Page := { serial := m.nextSerial, va, writable, backing }
  set { m.putPage s page with nextSerial := m.nextSerial + 1 }
  return true

/-- Adds a zero-filled anonymous page. -/
def insertAnonymous (s va : Nat) (writable : Bool) : Run π Bool :=
  insertPage s va writable (.anonymous .zeroed none)

end Operations

end DemandPaging
