import DemandPaging.Executable.Loader
import DemandPaging.Machine.FileMapping
import DemandPaging.Machine.SpaceCopy
import DemandPaging.Machine.UserAccess

/-! # Processes

A process is an address space with a process number, a saved stack pointer and open files. It is
named by the number of its space.
-/
namespace DemandPaging

variable {π : Type}

/-- A process with an empty address space. Answers the number of the space. -/
def createProcess (pid : Nat) : Run π Nat := do
  let s := (← get).spaces.size
  modify (·.addSpace { process := { pid } })
  return s

/-- Records the user stack pointer on entry to the kernel. -/
def saveStackPointer (s esp : Nat) : Run π Unit :=
  modify (·.modifyProcess s fun p => { p with esp })

/-- Gives a process a descriptor for a handle it takes over. -/
def openFile (s : Nat) (h : Handle) : Run π Int := do
  match ((← get).process s).descriptors.next? with
  | none => abort .overflow
  | some fd =>
    modify (·.modifyProcess s fun p => { p with descriptors := p.descriptors.insert fd h })
    return fd

/-- Closes a descriptor. Answers whether it was open. -/
def closeFile (s : Nat) (fd : Int) : Run π Bool := do
  match ((← get).process s).descriptors.get? fd with
  | none => return false
  | some h =>
    modify fun m =>
      let m := { m with files := m.files.close h }
      m.modifyProcess s fun p => { p with descriptors := p.descriptors.erase fd }
    return true

/-- The handle that is open as `fd`. -/
def openHandle? (m : Machine π) (s : Nat) (fd : Int) : Option Handle :=
  (m.process s).descriptors.get? fd

/-- Puts back the handle that is open as `fd` after a transfer. -/
def updateHandle (s : Nat) (fd : Int) (h : Handle) : Run π Unit :=
  modify (·.modifyProcess s fun p => { p with descriptors := p.descriptors.insert fd h })

/-- Does something with the file that is open as `fd`, if one is. -/
def withFile {α : Type} (s : Nat) (fd : Int) (f : FileStore → Handle → α × Handle × FileStore) :
    Run π (Option α) := do
  let m ← get
  match openHandle? m s fd with
  | none => return none
  | some h =>
    let done := f m.files h
    modify fun m => { m with files := done.2.2 }
    updateHandle s fd done.2.1
    return some done.1

/-- Closes every descriptor of a process. -/
def closeAll (s : Nat) : Run π Unit :=
  modify fun m =>
    let files := (m.process s).descriptors.toList.foldl (fun files fd => files.close fd.2) m.files
    { m with files }.modifyProcess s fun p => { p with descriptors := {} }

/-- Gives one process a handle of its own for every descriptor of another, at the same position. -/
def inheritDescriptors (parent child : Nat) : Run π Unit :=
  modify fun m =>
    let descriptors := (m.process parent).descriptors
    let files := descriptors.toList.foldl (fun files fd => files.retain fd.2.file) m.files
    { m with files }.modifyProcess child fun p => { p with descriptors }

variable [ReplacementPolicy π]

/-- Loads an executable through a handle. Answers where to start it, and the handle. -/
def loadProgram (s : Nat) (h : Handle) : Run π (Handle × Except LoadError Nat) := do
  match ← loadExecutable s h with
  | (h, .error e) => return (h, .error e)
  | (h, .ok program) =>
    saveStackPointer s program.esp
    modify fun m => m.report (.programLoaded (m.process s).pid program.entry)
    return (h, .ok program.entry)

/-- Resolves a page fault of a process. A user-mode fault brings its stack pointer along; any other
uses the one saved on entry to the kernel. -/
def processFault (s : Nat) (fault : PageFault) (userEsp : Nat) : Attempt π Unit := do
  if fault.user then (saveStackPointer s userEsp : Run π Unit)
  tryCatch (handleFault s fault ((← get).process s).esp) fun e => do
    modify fun m => m.report (.processFault (m.process s).pid fault.addr e)
    throw e

/-- Reads memory of a process: the bytes read before an error, and the error. -/
def readUser (s addr count : Nat) : Run π (List UInt8 × Option MemoryError) := do
  copyFromUser s ((← get).process s).esp addr count

/-- Writes memory of a process. -/
def writeUser (s addr : Nat) (bytes : List UInt8) : Attempt π Unit := do
  copyToUser s ((← get).process s).esp addr bytes

/-- A second process like this one. It shares every resident frame until one of the two writes to
it, has its own copy of all that is in swap, and its own handle on every open file. -/
def fork (s childPid : Nat) : Attempt π Nat := do
  let m ← get
  let parent := m.process s
  let child := m.spaces.size
  modify (·.addSpace { process := { pid := childPid, esp := parent.esp } })
  tryCatch (copySpace s child) fun e => do
    modify (·.report (.forkFailed parent.pid e))
    (emptySpace child : Run π Unit)
    modify fun m => { m with spaces := m.spaces.pop }
    throw e
  (inheritDescriptors s child : Run π Unit)
  modify (·.report (.forked parent.pid childPid))
  return child

/-- Tears down the address space of a process and closes its files. -/
def exit (s : Nat) : Run π Unit := do
  emptySpace s
  closeAll s
  modify fun m => m.report (.exited (m.process s).pid)

end DemandPaging
