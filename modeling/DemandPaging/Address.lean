/-! # Virtual addresses

An address is a 64-bit word, kept as a natural number below `wordLimit`. Pages are 4096 bytes
and start at multiples of that size; user space is everything below `kernelBase`.
-/
namespace DemandPaging

/-- One more than the largest machine word. -/
abbrev wordLimit : Nat := 0x10000000000000000

/-- One more than the largest 32-bit word. -/
abbrev halfWordLimit : Nat := 0x100000000

/-- Words from here on are negative as signed numbers. -/
abbrev signedLimit : Nat := 0x8000000000000000

abbrev kilobyte : Nat := 1024
abbrev megabyte : Nat := kilobyte * kilobyte

abbrev pageSize : Nat := 4096

/-- Addresses from here on belong to the kernel. -/
abbrev kernelBase : Nat := 0x80000000

/-- User stacks grow down from just below the kernel. -/
abbrev stackTop : Nat := kernelBase

/-- A user stack never grows beyond this size. -/
abbrev maxStackSize : Nat := megabyte

/-- How far below the stack pointer an access may land and still count as a stack access. -/
abbrev stackWindow : Nat := 2 * pageSize

def pageOffset (va : Nat) : Nat := va % pageSize

/-- The address of the page that contains `va`. -/
def pageDown (va : Nat) : Nat := va - va % pageSize

/-- The first page address at or above `va`. A whole page is added before the rounding, and this sum has to
be a word. -/
def pageUp? (va : Nat) : Option Nat :=
  if va + pageSize < wordLimit then some (pageDown (va + pageSize - 1)) else none

def isUser (va : Nat) : Bool := decide (va < kernelBase)

def isKernel (va : Nat) : Bool := decide (kernelBase ≤ va)

/-- The sum of two words, if it is a word. -/
def wordAdd? (a b : Nat) : Option Nat := if a + b < wordLimit then some (a + b) else none

/-- The difference of two words, unless it is negative. -/
def wordSub? (a b : Nat) : Option Nat := if b ≤ a then some (a - b) else none

/-- One less, as a machine word counts: below zero comes the largest word. -/
def wordPred (a : Nat) : Nat := if a = 0 then wordLimit - 1 else a - 1

theorem wordAdd?_of_lt {a b : Nat} (h : a + b < wordLimit) : wordAdd? a b = some (a + b) := if_pos h

theorem wordSub?_of_le {a b : Nat} (h : b ≤ a) : wordSub? a b = some (a - b) := if_pos h

theorem wordPred_of_pos {a : Nat} (h : 0 < a) : wordPred a = a - 1 :=
  if_neg (by omega)

theorem pageDown_add_pageOffset (va : Nat) : pageDown va + pageOffset va = va := by
  simp only [pageDown, pageOffset, pageSize]
  omega

theorem pageOffset_lt (va : Nat) : pageOffset va < pageSize :=
  Nat.mod_lt va (by decide)

theorem pageDown_le (va : Nat) : pageDown va ≤ va := Nat.sub_le ..

@[simp] theorem pageDown_pageDown (va : Nat) : pageDown (pageDown va) = pageDown va := by
  simp only [pageDown, pageSize]
  omega

end DemandPaging
