import DemandPaging.Address
import DemandPaging.Bytes
import DemandPaging.Frame.CoreMap
import DemandPaging.Replacement

/-! # The frame table

All physical frames of the machine with their contents, reference counts and owners, the
replacement policy that ranks them, and the position where the search for a free frame starts.
-/
namespace DemandPaging

/-- A page that is mapped to a frame, and where it is mapped. -/
structure Owner where
  page : Nat
  space : Nat
  va : Nat
deriving DecidableEq, Repr

structure Frame where
  entry : CoreMapEntry := .free
  /-- Number of pages that use the frame; more than one only while it is shared. -/
  refcount : Nat := 0
  owners : List Owner := []
  contents : PageBytes := zeroPage

instance : Inhabited Frame := ⟨{}⟩

namespace Frame

def allocated (f : Frame) : Bool := f.entry.has .allocated

def pinned (f : Frame) : Bool := f.entry.has .pinned

end Frame

structure FrameTable (π : Type) where
  frames : Array Frame
  policy : π
  /-- Where the next search for a free frame starts. -/
  position : Nat := 0

namespace FrameTable

variable {π : Type}

/-- A table of `count` free frames. -/
def ofCount (count : Nat) (policy : π) : FrameTable π :=
  { frames := Array.replicate count {}, policy }

def size (t : FrameTable π) : Nat := t.frames.size

def frame (t : FrameTable π) (n : Nat) : Frame := t.frames.getD n default

def modify (t : FrameTable π) (n : Nat) (f : Frame → Frame) : FrameTable π :=
  { t with frames := t.frames.modify n f }

/-- Number of frames in use. -/
def resident (t : FrameTable π) : Nat := t.frames.toList.countP (·.allocated)

def free (t : FrameTable π) : Nat := t.size - t.resident

/-- The frames in the order of a search: from the position on, around the table once. -/
def searchOrder (t : FrameTable π) : List Nat :=
  (List.range t.size).map fun i => (t.position + i) % t.size

/-- Finds the next free frame and moves the position just past it. -/
def place? (t : FrameTable π) : Option (Nat × FrameTable π) :=
  (t.searchOrder.find? fun n => !(t.frame n).allocated).map fun n =>
    (n, { t with position := (n + 1) % t.size })

section Policy

variable [ReplacementPolicy π]

/-- Takes frame `n` for one page: zeroed, pinned, with a reference count of one. -/
def occupy (t : FrameTable π) (n : Nat) : FrameTable π :=
  { t.modify n fun f =>
      { f with
        entry := (CoreMapEntry.free.put .allocated true).put .pinned true
        refcount := 1
        contents := zeroPage } with
    policy := ReplacementPolicy.insert t.policy n }

/-- Makes frame `n` free, whoever owned it. -/
def vacate (t : FrameTable π) (n : Nat) : FrameTable π :=
  { t.modify n fun f => { f with entry := .free, owners := [] } with
    policy := ReplacementPolicy.remove t.policy n }

/-- Drops one reference to frame `n`, and says whether that freed the frame. A count of zero would
wrap around. -/
def put (t : FrameTable π) (n : Nat) : Bool × FrameTable π :=
  let dropped := t.modify n fun f => { f with refcount := wordPred f.refcount }
  if (t.frame n).refcount = 1 then (true, dropped.vacate n) else (false, dropped)

end Policy

def addOwner (t : FrameTable π) (n : Nat) (o : Owner) : FrameTable π :=
  t.modify n fun f => { f with owners := f.owners ++ [o] }

/-- Forgets whoever owns frame `n` at `va` in `space`. -/
def dropOwner (t : FrameTable π) (n space va : Nat) : FrameTable π :=
  t.modify n fun f =>
    { f with owners := f.owners.filter fun o => !(o.va == va && o.space == space) }

def unpin (t : FrameTable π) (n : Nat) : FrameTable π :=
  t.modify n fun f => { f with entry := f.entry.put .pinned false }

def setContents (t : FrameTable π) (n : Nat) (contents : PageBytes) : FrameTable π :=
  t.modify n fun f => { f with contents }

/-- The only owner of frame `n`, if the frame may be evicted: in use, not pinned, not shared. -/
def soleOwner? (t : FrameTable π) (n : Nat) : Option Owner :=
  let f := t.frame n
  if f.allocated && !f.pinned && f.refcount == 1 then
    match f.owners with
    | [o] => some o
    | _ => none
  else none

end FrameTable

end DemandPaging
