import DemandPaging.Address
import DemandPaging.Failure

/-! # Pages

A page starts out uninitialised, with a source that says how to fill it. Its first claim turns it
into the anonymous or file-backed page it was meant to be. From then on it moves between memory
and its backing store: an anonymous page goes to swap, a file-backed page back to its file.
-/
namespace DemandPaging

/-- Where the first contents of a page come from: `readBytes` bytes of `file` at `offset`, then
zeroes. Without a file the whole page is zero. A source with a file owns one handle of it. -/
structure Source where
  file : Option Nat := none
  offset : Nat := 0
  readBytes : Nat := 0
  /-- Whether the mapping of this page goes on in the next page. -/
  chained : Bool := false
  readBytes_le : readBytes ≤ pageSize := by omega
deriving DecidableEq, Repr

namespace Source

def zeroed : Source := {}

/-- How many bytes of the page are zeroed rather than read. -/
def zeroBytes (s : Source) : Nat := pageSize - s.readBytes

/-- The same source without its file. -/
def detached (s : Source) : Source := { s with file := none }

end Source

/-- What an uninitialised page becomes. -/
inductive Target where
  | anonymous
  | file
deriving DecidableEq, Repr

inductive Backing where
  | uninit (target : Target) (source : Source)
  /-- `slot` is the swap slot that holds the page while it is not resident. -/
  | anonymous (source : Source) (slot : Option Nat)
  | fileBacked (source : Source) (evicted : Bool)
deriving DecidableEq, Repr

namespace Backing

def source : Backing → Source
  | uninit _ s => s
  | anonymous s _ => s
  | fileBacked s _ => s

/-- Whether this is, or becomes, a page of a mapped file. -/
def isFile : Backing → Bool
  | uninit .file _ => true
  | fileBacked .. => true
  | _ => false

/-- The swap slot that holds the page, if one does. -/
def slot? : Backing → Option Nat
  | anonymous _ slot => slot
  | _ => none

/-- The same backing without file handle and swap slot. -/
def emptied : Backing → Backing
  | uninit t s => uninit t s.detached
  | anonymous s _ => anonymous s.detached none
  | fileBacked s evicted => fileBacked s.detached evicted

end Backing

structure Page where
  /-- Tells this page from every other page there ever was. -/
  serial : Nat
  va : Nat
  writable : Bool
  /-- The frame that holds the page while it is resident. -/
  frame : Option Nat := none
  backing : Backing
deriving DecidableEq, Repr

namespace Page

def source (p : Page) : Source := p.backing.source

def isResident (p : Page) : Bool := p.frame.isSome

def isFile (p : Page) : Bool := p.backing.isFile

end Page

end DemandPaging
