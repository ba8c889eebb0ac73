import Std.Data.ExtTreeMap
import DemandPaging.Address
import DemandPaging.PageTable.Entry

/-! # Page directories

The hardware mapping of one address space: at most one entry per user page. Every operation takes
any address inside the page.
-/
namespace DemandPaging

structure PageDirectory where
  entries : Std.ExtTreeMap Nat PageTableEntry := ∅

namespace PageDirectory

def entry? (d : PageDirectory) (va : Nat) : Option PageTableEntry := d.entries[pageDown va]?

/-- Number of installed mappings. -/
def size (d : PageDirectory) : Nat := d.entries.size

/-- The frame mapped at `va`. -/
def frame? (d : PageDirectory) (va : Nat) : Option Nat := d.entry? va |>.map (·.frame)

/-- Whether `va` is mapped with flag `f` on. -/
def has (d : PageDirectory) (f : PageTableEntry.Flag) (va : Nat) : Bool :=
  d.entry? va |>.any (·.has f)

def isWritable (d : PageDirectory) (va : Nat) : Bool := d.has .writable va

def isDirty (d : PageDirectory) (va : Nat) : Bool := d.has .dirty va

def isAccessed (d : PageDirectory) (va : Nat) : Bool := d.has .accessed va

/-- Maps `va` to `frame`, if the address is a user address and the frame number fits an entry. A
page mapped to that frame before keeps its dirty mark. -/
def map? (d : PageDirectory) (va frame : Nat) (writable : Bool) : Option PageDirectory :=
  if isUser va then
    (PageTableEntry.frameField? frame).map fun n =>
      let fresh := PageTableEntry.ofFrame n writable
      let kept := match d.entry? va with
        | some old => if old.frame = frame then fresh.put .dirty (old.has .dirty) else fresh
        | none => fresh
      { d with entries := d.entries.insert (pageDown va) kept }
  else none

def unmap (d : PageDirectory) (va : Nat) : PageDirectory :=
  { d with entries := d.entries.erase (pageDown va) }

/-- Sets one flag of the mapping at `va`, if there is one. -/
def mark (d : PageDirectory) (f : PageTableEntry.Flag) (va : Nat) (on : Bool) : PageDirectory :=
  match d.entry? va with
  | some e => { d with entries := d.entries.insert (pageDown va) (e.put f on) }
  | none => d

def setDirty (d : PageDirectory) (va : Nat) (on : Bool) : PageDirectory := d.mark .dirty va on

def setAccessed (d : PageDirectory) (va : Nat) (on : Bool) : PageDirectory :=
  d.mark .accessed va on

end PageDirectory

end DemandPaging
