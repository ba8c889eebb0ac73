import DemandPaging.Address
import DemandPaging.PageTable.Bits

/-! # Page table entries

One 32-bit word per mapped page: named flags in the low bits, the frame number in bits 12 to 31.
Bits without a name are kept as they are.
-/
namespace DemandPaging

structure PageTableEntry where
  raw : BitVec 32
deriving DecidableEq, Repr

namespace PageTableEntry

inductive Flag where
  | present
  | writable
  | user
  | writeThrough
  | cacheDisable
  | accessed
  | dirty
  | attributeTable
  | global
deriving DecidableEq, Repr

def Flag.position : Flag → Nat
  | present => 0
  | writable => 1
  | user => 2
  | writeThrough => 3
  | cacheDisable => 4
  | accessed => 5
  | dirty => 6
  | attributeTable => 7
  | global => 8

/-- Frame numbers from here on do not fit the frame field. -/
abbrev frameLimit : Nat := 0x100000

def has (e : PageTableEntry) (f : Flag) : Bool := e.raw.getLsbD f.position

def put (e : PageTableEntry) (f : Flag) (on : Bool) : PageTableEntry :=
  ⟨putBit e.raw f.position on⟩

def frame (e : PageTableEntry) : Nat := (e.raw.extractLsb' 12 20).toNat

def putFrame (e : PageTableEntry) (n : BitVec 20) : PageTableEntry :=
  ⟨n ++ e.raw.extractLsb' 0 12⟩

def empty : PageTableEntry := ⟨0#32⟩

/-- A present user entry for frame `n`. -/
def ofFrame (n : BitVec 20) (writable : Bool) : PageTableEntry :=
  (((empty.put .present true).put .user true).put .writable writable).putFrame n

/-- A frame number that fits the frame field. -/
def frameField? (n : Nat) : Option (BitVec 20) :=
  if n < frameLimit then some (BitVec.ofNat 20 n) else none

/-- A present user entry for the frame that the low 32 bits of a word name, if it fits. -/
def ofWord? (word : Nat) (writable : Bool) : Option PageTableEntry :=
  (frameField? (word % halfWordLimit)).map (ofFrame · writable)

theorem has_put (e : PageTableEntry) (f g : Flag) (on : Bool) :
    (e.put f on).has g = if f = g then on else e.has g := by
  simp only [has, put, getLsbD_putBit]
  cases f <;> cases g <;> simp [Flag.position]

@[simp] theorem frame_put (e : PageTableEntry) (f : Flag) (on : Bool) :
    (e.put f on).frame = e.frame := by
  simp only [frame, put]
  congr 1
  ext i hi
  have : f.position ≠ 12 + i := by cases f <;> simp [Flag.position] <;> omega
  simp [getLsbD_putBit, this]

@[simp] theorem frame_putFrame (e : PageTableEntry) (n : BitVec 20) :
    (e.putFrame n).frame = n.toNat := by
  simp only [frame, putFrame]
  congr 1
  ext i hi
  rw [BitVec.getElem_extractLsb', BitVec.getLsbD_append, if_neg (by omega),
    show 12 + i - 12 = i by omega, BitVec.getLsbD_eq_getElem]

@[simp] theorem has_putFrame (e : PageTableEntry) (n : BitVec 20) (f : Flag) :
    (e.putFrame n).has f = e.has f := by
  simp only [has, putFrame, BitVec.getLsbD_append]
  cases f <;> simp [Flag.position]

end PageTableEntry

end DemandPaging
