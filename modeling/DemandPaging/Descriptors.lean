import Std.Data.ExtTreeMap
import DemandPaging.File
import DemandPaging.Failure

/-! # File descriptors

The open files of a process. A new descriptor is one above the highest open one, and never one of
the three that belong to the console.
-/
namespace DemandPaging

/-- The first descriptor handed out. -/
abbrev firstDescriptor : Int := 3

abbrev lastDescriptor : Int := 32767

structure Descriptors where
  handles : Std.ExtTreeMap Int Handle := ∅

namespace Descriptors

def get? (d : Descriptors) (fd : Int) : Option Handle := d.handles[fd]?

/-- The descriptor that the next file gets, if there is one. -/
def next? (d : Descriptors) : Option Int :=
  match d.handles.maxKey? with
  | none => some firstDescriptor
  | some fd => if fd < lastDescriptor then some (fd + 1) else none

def insert (d : Descriptors) (fd : Int) (h : Handle) : Descriptors :=
  { d with handles := d.handles.insert fd h }

def erase (d : Descriptors) (fd : Int) : Descriptors := { d with handles := d.handles.erase fd }

/-- Descriptors with their handles, lowest first. -/
def toList (d : Descriptors) : List (Int × Handle) := d.handles.toList

end Descriptors

end DemandPaging
