import DemandPaging.Bytes
import DemandPaging.Failure

/-! # Disks

A disk is a row of sectors held in memory. A read-only disk refuses every write.
-/
namespace DemandPaging

abbrev sectorSize : Nat := 512

inductive DeviceError where
  /-- The sector number is at or beyond the size of the device. -/
  | sectorOutOfBounds
  /-- The buffer does not have the size of a sector. -/
  | bufferInvalid
  | readError
  | writeError
deriving DecidableEq, Repr

namespace DeviceError

def all : List DeviceError := [sectorOutOfBounds, bufferInvalid, readError, writeError]

def name : DeviceError → String
  | sectorOutOfBounds => "SectorOutOfBounds"
  | bufferInvalid => "BufferInvalid"
  | readError => "ReadError"
  | writeError => "WriteError"

def message : DeviceError → String
  | sectorOutOfBounds => "sector out of bounds (greater than the block size)"
  | bufferInvalid => "invalid buffer size (not `BLOCK_SECTOR_SIZE`)"
  | readError => "error reading from the block device"
  | writeError => "error writing to the block device"

/-- What a failed transfer means for the page it was made for. -/
def toMemoryError : DeviceError → MemoryError := fun _ => .ioFailure

theorem mem_all (e : DeviceError) : e ∈ all := by
  cases e <;> decide

end DeviceError

structure Disk where
  sectors : List Sector
  readOnly : Bool := false

namespace Disk

def zeroed (count : Nat) : Disk := { sectors := List.replicate count zeroSector }

/-- The first `count` sectors' worth of bytes, with zeroes where bytes are missing. -/
def cut : Nat → List UInt8 → List Sector
  | 0, _ => []
  | count + 1, bytes =>
    overwrite zeroSector 0 (bytes.take sectorSize) :: cut count (bytes.drop sectorSize)

/-- A disk holding `bytes`, with zeroes up to a whole number of sectors. -/
def ofBytes (bytes : List UInt8) : Disk :=
  { sectors := cut ((bytes.length + (sectorSize - 1)) / sectorSize) bytes }

def read (d : Disk) (sector : Nat) : Except DeviceError Sector :=
  match d.sectors[sector]? with
  | some s => .ok s
  | none => .error .sectorOutOfBounds

def write (d : Disk) (sector : Nat) (contents : Sector) : Except DeviceError Disk :=
  if d.readOnly then .error .writeError
  else if sector < d.sectors.length then
    .ok { d with sectors := d.sectors.set sector contents }
  else .error .sectorOutOfBounds

/-- Reads into a buffer of any size. Only a buffer of one sector can take the bytes. -/
def readBuffer (d : Disk) (sector size : Nat) : Except Abort (Except DeviceError Sector) :=
  match d.read sector with
  | .error e => .ok (.error e)
  | .ok s => if size = sectorSize then .ok (.ok s) else .error .violated

/-- Writes from a buffer of any size. Only a buffer of one sector can give the bytes. -/
def writeBuffer (d : Disk) (sector : Nat) (buffer : List UInt8) :
    Except Abort (Except DeviceError Disk) :=
  if h : buffer.length = sectorSize then .ok (d.write sector (Sector.ofList buffer h))
  else match d.write sector zeroSector with
    | .error e => .ok (.error e)
    | .ok _ => .error .violated

end Disk

end DemandPaging
