import DemandPaging.Executable.Reader

/-! # ELF images

The headers of a 32-bit ELF file in either byte order: one file header of 52 bytes, and a table of
program headers whose place, entry size and length the file header gives.
-/
namespace DemandPaging

inductive ObjectKind where
  | relocatable
  | executable
  | shared
  | core
deriving DecidableEq, Repr

def ObjectKind.ofCode? (code : UInt16) : Option ObjectKind :=
  match code.toNat with
  | 1 => some relocatable
  | 2 => some executable
  | 3 => some shared
  | 4 => some core
  | _ => none

inductive Architecture where
  | generic
  | sparc
  | mips
  | powerPC
  | riscV
  | ia64
  | x86
  | x86_64
  | arm
  | arm64
deriving DecidableEq, Repr

def Architecture.ofCode? (code : UInt16) : Option Architecture :=
  match code.toNat with
  | 0x00 => some generic
  | 0x02 => some sparc
  | 0x03 => some x86
  | 0x08 => some mips
  | 0x14 => some powerPC
  | 0x28 => some arm
  | 0x32 => some ia64
  | 0x3E => some x86_64
  | 0xB7 => some arm64
  | 0xF3 => some riscV
  | _ => none

def ByteOrder.ofCode? (code : UInt8) : Option ByteOrder :=
  match code.toNat with
  | 1 => some little
  | 2 => some big
  | _ => none

structure FileHeader where
  byteOrder : ByteOrder
  headerVersion : UInt8
  abi : UInt8
  kind : ObjectKind
  architecture : Architecture
  version : UInt32
  entry : UInt32
  programHeadersOffset : UInt32
  sectionHeadersOffset : UInt32
  flags : UInt32
  headerSize : UInt16
  programHeaderSize : UInt16
  programHeaderCount : UInt16
  sectionHeaderSize : UInt16
  sectionHeaderCount : UInt16
  sectionHeaderIndex : UInt16
deriving DecidableEq, Repr

/-- The bytes that every ELF file starts with. -/
def FileHeader.magic : List UInt8 := [0x7f, 0x45, 0x4c, 0x46]

/-- The class byte of 32-bit files. -/
def FileHeader.class32 : List UInt8 := [1]

open Reader in
def FileHeader.read : Reader FileHeader := do
  tag magic
  tag class32
  let byteOrder ← oneOf byte ByteOrder.ofCode?
  let headerVersion ← byte
  let abi ← byte
  skip 8
  let kind ← oneOf (half byteOrder) ObjectKind.ofCode?
  let architecture ← oneOf (half byteOrder) Architecture.ofCode?
  let version ← word byteOrder
  let entry ← word byteOrder
  let programHeadersOffset ← word byteOrder
  let sectionHeadersOffset ← word byteOrder
  let flags ← word byteOrder
  let headerSize ← half byteOrder
  let programHeaderSize ← half byteOrder
  let programHeaderCount ← half byteOrder
  let sectionHeaderSize ← half byteOrder
  let sectionHeaderCount ← half byteOrder
  let sectionHeaderIndex ← half byteOrder
  return { byteOrder, headerVersion, abi, kind, architecture, version, entry,
           programHeadersOffset, sectionHeadersOffset, flags, headerSize, programHeaderSize,
           programHeaderCount, sectionHeaderSize, sectionHeaderCount, sectionHeaderIndex }

inductive SegmentKind where
  | ignored
  | load
  | dynamic
  | interpreter
  | note
  /-- A kind that an operating system gives its own meaning. -/
  | osSpecific (code : UInt32)
deriving DecidableEq, Repr

def SegmentKind.ofCode? (code : UInt32) : Option SegmentKind :=
  match code.toNat with
  | 0 => some ignored
  | 1 => some load
  | 2 => some dynamic
  | 3 => some interpreter
  | 4 => some note
  | n => if 0x60000000 ≤ n then some (osSpecific code) else none

structure ProgramHeader where
  kind : SegmentKind
  fileOffset : UInt32
  virtualAddress : UInt32
  physicalAddress : UInt32
  fileSize : UInt32
  memorySize : UInt32
  executable : Bool
  writable : Bool
  readable : Bool
  alignment : UInt32
deriving DecidableEq, Repr

open Reader in
def ProgramHeader.read (order : ByteOrder) : Reader ProgramHeader := do
  let kind ← oneOf (word order) SegmentKind.ofCode?
  let fileOffset ← word order
  let virtualAddress ← word order
  let physicalAddress ← word order
  let fileSize ← word order
  let memorySize ← word order
  let flags ← word order
  let alignment ← word order
  return { kind, fileOffset, virtualAddress, physicalAddress, fileSize, memorySize
           executable := flags.toNat.testBit 0, writable := flags.toNat.testBit 1
           readable := flags.toNat.testBit 2, alignment }

/-- Reads `count` program headers that start `stride` bytes apart, after those already found, which
are given last first. The bytes of every entry must be there, those of the last one too. -/
def ProgramHeader.readTable (order : ByteOrder) (stride : Nat) (found : List ProgramHeader) :
    Nat → List UInt8 → Except ReadFailure (List ProgramHeader)
  | 0, _ => .ok found.reverse
  | count + 1, input =>
    match ProgramHeader.read order input with
    | .error e => .error e
    | .ok (header, _) =>
      match Reader.skip stride input with
      | .error e => .error e
      | .ok (_, rest) => readTable order stride (header :: found) count rest

structure Image where
  header : FileHeader
  programHeaders : List ProgramHeader
deriving DecidableEq, Repr

/-- Reads the headers of a file. What is left over is all that follows the file header. -/
def Image.read : Reader Image := fun input => do
  let (header, rest) ← FileHeader.read input
  let (_, table) ← Reader.skip header.programHeadersOffset.toNat input
  let programHeaders ← ProgramHeader.readTable header.byteOrder header.programHeaderSize.toNat []
    header.programHeaderCount.toNat table
  return ({ header, programHeaders }, rest)

end DemandPaging
