import DemandPaging.PageTable.Bits

/-! # The core map

One byte per frame says whether the frame is in use and whether it is pinned, that is, being
filled in and not yet mapped.
-/
namespace DemandPaging

/-- The allocation state of a frame. -/
structure CoreMapEntry where
  raw : BitVec 8
deriving DecidableEq, Repr

namespace CoreMapEntry

inductive Flag where
  | allocated
  | pinned
deriving DecidableEq, Repr

def Flag.position : Flag → Nat
  | allocated => 0
  | pinned => 1

def has (e : CoreMapEntry) (f : Flag) : Bool := e.raw.getLsbD f.position

def put (e : CoreMapEntry) (f : Flag) (on : Bool) : CoreMapEntry := ⟨putBit e.raw f.position on⟩

/-- Neither allocated nor pinned. -/
def free : CoreMapEntry := ⟨0#8⟩

theorem has_put (e : CoreMapEntry) (f g : Flag) (on : Bool) :
    (e.put f on).has g = if f = g then on else e.has g := by
  simp only [has, put, getLsbD_putBit]
  cases f <;> cases g <;> simp [Flag.position]

@[simp] theorem has_free (f : Flag) : free.has f = false := by cases f <;> decide

end CoreMapEntry

end DemandPaging
