import DemandPaging.Address
import DemandPaging.Device.Basic

/-! # Swap space

The swap device is cut into slots of eight consecutive sectors, each with room for one page.
Storing a page takes a slot; fetching it gives the slot back; a failed transfer leaves every slot
as it was.
-/
namespace DemandPaging

abbrev sectorsPerPage : Nat := 8

/-- Size of the swap device that a kernel is set up with. -/
abbrev swapSectors : Nat := 8192

abbrev swapSize : Nat := sectorSize * swapSectors

/-- The sector-sized pieces of a page. -/
def sectorsOf (page : PageBytes) : List (List UInt8) :=
  (List.range sectorsPerPage).map fun i => slice page.toList (sectorSize * i) sectorSize

structure SwapSpace where
  device : Device
  /-- Which of the slots handed out so far are in use. -/
  inUse : List Bool := []

namespace SwapSpace

/-- Number of pages the device has room for. -/
def capacity (s : SwapSpace) : Nat := s.device.size.toNat / sectorsPerPage

def slotsInUse (s : SwapSpace) : Nat := s.inUse.count true

/-- Takes the lowest free slot, and a new one if all slots so far are in use. -/
def reserve? (s : SwapSpace) : Option (Nat × SwapSpace) :=
  match s.inUse.findIdx? (! ·) with
  | some slot => some (slot, { s with inUse := s.inUse.set slot true })
  | none =>
    if s.inUse.length < s.capacity then
      some (s.inUse.length, { s with inUse := s.inUse ++ [true] })
    else none

/-- Gives a slot back. Freeing a free slot changes nothing. -/
def free (s : SwapSpace) (slot : Nat) : SwapSpace :=
  { s with inUse := s.inUse.set slot false }

/-- The first sector of a slot, cut to the 32 bits of a sector number. -/
def firstSector (slot : Nat) : Nat := slot * sectorsPerPage % halfWordLimit

/-- Writes a page to a fresh slot. -/
def store (s : SwapSpace) (page : PageBytes) : Except MemoryError Nat × SwapSpace :=
  match s.reserve? with
  | none => (.error .allocationExhausted, s)
  | some (slot, reserved) =>
    match reserved.device.writeRun (firstSector slot) (sectorsOf page) with
    | (device, some e) => (.error e.toMemoryError, { reserved with device }.free slot)
    | (device, none) => (.ok slot, { reserved with device })

/-- Reads the sectors of a slot: the bytes that could be read, and what went wrong. A slot number
whose sectors a word cannot count is nobody's slot. -/
def readSlot (s : SwapSpace) (slot : Nat) :
    Except Abort (List UInt8 × Option MemoryError × SwapSpace) :=
  if slot * sectorsPerPage < wordLimit then
    let (bytes, device, failure) := s.device.readRun (firstSector slot) sectorsPerPage
    .ok (bytes, failure.map (·.toMemoryError), { s with device })
  else .error .overflow

/-- Reads a slot and gives it back. After a failed read the slot stays in use. -/
def fetch (s : SwapSpace) (slot : Nat) :
    Except Abort (List UInt8 × Option MemoryError × SwapSpace) :=
  match s.readSlot slot with
  | .error a => .error a
  | .ok (bytes, some e, s) => .ok (bytes, some e, s)
  | .ok (bytes, none, s) => .ok (bytes, none, s.free slot)

/-- Copies a slot into a fresh one. -/
def duplicate (s : SwapSpace) (slot : Nat) : Except Abort (Except MemoryError Nat × SwapSpace) :=
  match s.readSlot slot with
  | .error a => .error a
  | .ok (_, some e, s) => .ok (.error e, s)
  | .ok (bytes, none, s) => .ok (s.store (overwrite zeroPage 0 bytes))

end SwapSpace

end DemandPaging
