import Std.Data.ExtTreeMap
import DemandPaging.Page
import DemandPaging.PageTable.Directory
import DemandPaging.Descriptors

/-! # Address spaces

An address space is a table of pages together with the page directory that maps the resident ones,
and the process that lives in it.
-/
namespace DemandPaging

/-- Decides which mappings a space takes on: asked for its next mapping, it knows how many it was
asked for and how many of those it granted. -/
structure Admission where
  admits : Nat → Nat → Bool := fun _ _ => true
  asked : Nat := 0
  granted : Nat := 0

namespace Admission

/-- Grants every mapping. -/
def unlimited : Admission := {}

/-- Grants `count` mappings and refuses all others. -/
def atMost (count : Nat) : Admission := { admits := fun _ granted => decide (granted < count) }

end Admission

/-- What a process has besides its memory. -/
structure Process where
  pid : Nat := 0
  /-- User stack pointer saved on the last entry to the kernel. -/
  esp : Nat := 0
  descriptors : Descriptors := {}

structure Space where
  pages : Std.ExtTreeMap Nat Page := ∅
  /-- Whether the table has held a page since it was made or last emptied as a whole. -/
  hasHeld : Bool := false
  directory : PageDirectory := {}
  admission : Admission := .unlimited
  /-- Whether accesses are recorded in the page directory. -/
  recordsAccess : Bool := true
  process : Process := {}

instance : Inhabited Space := ⟨{}⟩

namespace Space

/-- The page containing `va`. -/
def find? (s : Space) (va : Nat) : Option Page := s.pages[pageDown va]?

def put (s : Space) (p : Page) : Space :=
  { s with pages := s.pages.insert p.va p, hasHeld := true }

/-- The space without the page at `va`. -/
def erase (s : Space) (va : Nat) : Space := { s with pages := s.pages.erase va }

/-- The space without any page. -/
def cleared (s : Space) : Space := { s with pages := ∅, hasHeld := false }

/-- Whether no page lies in `[start, stop)`. -/
def isFree (s : Space) (start stop : Nat) : Bool :=
  s.pages.keys.all fun va => !(decide (start ≤ va) && decide (va < stop))

/-- Whether no page lies in a range. Ends in the wrong order are refused, except by a table that has
held no page and so does not look at them. -/
def rangeIsFree? (s : Space) (start stop : Nat) : Option Bool :=
  if start ≤ stop then some (s.isFree start stop)
  else if s.hasHeld then none
  else some true

/-- Maps `va` to `frame`, unless the space refuses or the directory cannot. -/
def map (s : Space) (va frame : Nat) (writable : Bool) : Bool × Space :=
  let asked := { s.admission with asked := s.admission.asked + 1 }
  if s.admission.admits s.admission.asked s.admission.granted then
    match s.directory.map? va frame writable with
    | some directory =>
      (true, { s with directory, admission := { asked with granted := asked.granted + 1 } })
    | none => (false, { s with admission := asked })
  else (false, { s with admission := asked })

def unmap (s : Space) (va : Nat) : Space := { s with directory := s.directory.unmap va }

def setDirty (s : Space) (va : Nat) (on : Bool) : Space :=
  { s with directory := s.directory.setDirty va on }

def recordAccess (s : Space) (va : Nat) : Space :=
  if s.recordsAccess then { s with directory := s.directory.setAccessed va true } else s

end Space

end DemandPaging
