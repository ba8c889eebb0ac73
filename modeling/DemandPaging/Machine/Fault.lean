import DemandPaging.Machine.Frames

/-! # Page faults

A fault on a page that is not resident claims it. A fault just below the stack grows the stack. A
write to a write-protected mapping of a writable page takes a private copy of a shared frame.
-/
namespace DemandPaging

structure PageFault where
  addr : Nat
  /-- The access came from user mode. -/
  user : Bool
  write : Bool
  /-- No mapping was present. -/
  notPresent : Bool
deriving DecidableEq, Repr

/-- Reads the error code that comes with a fault. -/
def PageFault.ofCode (addr : Nat) (code : BitVec 32) : PageFault :=
  { addr, notPresent := !code.getLsbD 0, write := code.getLsbD 1, user := code.getLsbD 2 }

/-- Whether an access at `addr` with the stack pointer at `esp` may be one to the stack. -/
def isStackAccess (addr esp : Nat) : Bool :=
  decide (addr < stackTop) && decide (stackTop - pageDown addr ≤ maxStackSize) &&
    decide (esp - stackWindow ≤ addr)

variable {π : Type} [ReplacementPolicy π]

/-- Makes a page of space `s` resident and maps it. -/
def claimPage (s : Nat) (page : Page) : Attempt π Unit := do
  if page.isResident then return
  let n ← acquire (some page.serial)
  let backing ← tryCatch (materialize page.backing n) fun e => do
    modify (·.abandon n)
    throw e
  modify (·.putPage s { page with backing })
  unless ← modifyGet (·.map s page.va n page.writable) do
    modify (·.abandon n)
    throw .allocationExhausted
  modify fun m =>
    ((m.putPage s { page with backing, frame := some n }).install n page.serial s page.va).report
      (.claimed page.va n)

/-- Makes the page of space `s` that contains `va` resident and maps it. -/
def claim (s va : Nat) : Attempt π Unit := do
  match (← get).page? s va with
  | none => throw .invalidMapping
  | some page => claimPage s page

/-- Gives a page a frame of its own with the contents of the shared frame `old`. -/
def copyOnWrite (s : Nat) (page : Page) (old : Nat) : Attempt π Unit := do
  let new ← acquire (some page.serial)
  modify fun m => m.setContents new (m.contents old)
  unless ← modifyGet (·.map s page.va new true) do
    modify (·.abandon new)
    throw .allocationExhausted
  modify fun m =>
    (((m.release old s page.va).putPage s { page with frame := some new }).install new page.serial
      s page.va).report (.copiedOnWrite page.va old new)

/-- Resolves a write to a present, write-protected mapping of a writable page. -/
def unprotect (s : Nat) (page : Page) : Attempt π Unit := do
  match page.frame with
  | none => claimPage s page
  | some old =>
    if ((← get).frames.frame old).refcount = 1 then
      unless ← modifyGet (·.map s page.va old true) do throw .allocationExhausted
      modify (·.report (.unshared old page.va))
    else copyOnWrite s page old

/-- Adds the stack page at `va` and claims it. If that fails the page goes again. -/
def growStack (s va : Nat) : Attempt π Unit := do
  modify (·.report (.stackGrowth va))
  discard (insertAnonymous s va true : Run π Bool)
  tryCatch (claim s va) fun e => do
    discard (removePage s va : Run π Bool)
    throw e

/-- Resolves a fault in space `s`, with the user stack pointer at `esp`. An error means that the
access was invalid. -/
def handleFault (s : Nat) (fault : PageFault) (esp : Nat) : Attempt π Unit := do
  if isUser fault.addr then
    let va := pageDown fault.addr
    match (← get).page? s va with
    | none =>
      if isStackAccess fault.addr esp then growStack s va
      else
        modify (·.report (.unmappedFault fault.addr esp))
        throw .invalidMapping
    | some page =>
      if fault.write && !page.writable then
        modify (·.report (.readOnlyWrite va))
        throw .protectionViolation
      else if fault.write && !fault.notPresent then unprotect s page
      else claimPage s page
  else
    modify (·.report (.kernelFault fault.addr))
    throw .protectionViolation

end DemandPaging
