import DemandPaging.Device.Disk
import DemandPaging.Numeral

/-! # Block devices

A device gives a disk a name, a kind and a size of its own, checks every transfer before the disk
sees it, and counts the transfers that succeed.
-/
namespace DemandPaging

inductive DeviceKind where
  | kernel
  | fileSystem
  | scratch
  | swap
  /-- Unidentified contents. -/
  | raw
  /-- Owned by another operating system: never written. -/
  | foreign
deriving DecidableEq, Repr

namespace DeviceKind

def all : List DeviceKind := [kernel, fileSystem, scratch, swap, raw, foreign]

def name : DeviceKind → String
  | kernel => "Kernel"
  | fileSystem => "FileSystem"
  | scratch => "Scratch"
  | swap => "Swap"
  | raw => "Raw"
  | foreign => "Foreign"

def title : DeviceKind → String
  | fileSystem => "File System"
  | kind => kind.name

theorem mem_all (k : DeviceKind) : k ∈ all := by
  cases k <;> decide

end DeviceKind

structure Device where
  index : Nat := 0
  name : String
  kind : DeviceKind
  /-- Number of sectors the device admits to having. -/
  size : UInt32
  disk : Disk
  reads : Nat := 0
  writes : Nat := 0

namespace Device

def read (d : Device) (sector bufferSize : Nat) : Except DeviceError (Sector × Device) :=
  if d.size.toNat ≤ sector then .error .sectorOutOfBounds
  else if bufferSize ≠ sectorSize then .error .bufferInvalid
  else match d.disk.read sector with
    | .error e => .error e
    | .ok s => .ok (s, { d with reads := d.reads + 1 })

def write (d : Device) (sector : Nat) (buffer : List UInt8) : Except DeviceError Device :=
  if d.size.toNat ≤ sector then .error .sectorOutOfBounds
  else if h : buffer.length = sectorSize then
    if d.kind = .foreign then .error .writeError
    else match d.disk.write sector (Sector.ofList buffer h) with
      | .error e => .error e
      | .ok disk => .ok { d with disk, writes := d.writes + 1 }
  else .error .bufferInvalid

/-- Writes consecutive sectors until one is refused. -/
def writeRun (d : Device) (sector : Nat) : List (List UInt8) → Device × Option DeviceError
  | [] => (d, none)
  | buffer :: rest =>
    match d.write sector buffer with
    | .error e => (d, some e)
    | .ok d => d.writeRun (sector + 1) rest

/-- Reads up to `count` consecutive sectors until one is refused. -/
def readRun (d : Device) (sector : Nat) : Nat → List UInt8 × Device × Option DeviceError
  | 0 => ([], d, none)
  | count + 1 =>
    match d.read sector sectorSize with
    | .error e => ([], d, some e)
    | .ok (s, d) =>
      let (bytes, d, failure) := d.readRun (sector + 1) count
      (s.toList ++ bytes, d, failure)

def summary (d : Device) : String :=
  "    " ++ fourDigits d.index ++ " | \"" ++ d.name ++ "\" (" ++ d.kind.title ++ "): " ++
    fourDigits d.size.toNat ++ " sectors, " ++ fourDigits d.reads ++ " read, " ++
    fourDigits d.writes ++ " write"

end Device

end DemandPaging
