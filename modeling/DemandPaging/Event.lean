import DemandPaging.Device.Basic

/-! # Events

What a machine reports while it runs. `Event.line` is the one place where events become text.
-/
namespace DemandPaging

inductive Event where
  | deviceRegistered (name : String) (kind : DeviceKind) (size : Nat)
  | machineReady (frames slots : Nat)
  | swapFull (capacity : Nat)
  | swappedOut (slot : Nat)
  | swappedIn (slot : Nat)
  | shortRead (offset count wanted : Nat)
  | shortWriteBack (offset count wanted : Nat)
  | writeBackLost (va : Nat) (error : MemoryError)
  | acquired (frame : Nat)
  | evicted (frame va : Nat)
  | shared (frame refcount : Nat)
  | rawShared (frame va : Nat)
  | freed (frame : Nat)
  | kernelFault (addr : Nat)
  | unmappedFault (addr esp : Nat)
  | stackGrowth (va : Nat)
  | readOnlyWrite (va : Nat)
  | claimed (va frame : Nat)
  | unshared (frame va : Nat)
  | copiedOnWrite (va before after : Nat)
  | pageCopied (va : Nat)
  | tableCopied (pages : Nat)
  | badMapping (addr length offset : Nat)
  | emptyMapping
  | mappingAboveUser (addr length : Nat)
  | mappingOverlap (start stop : Nat)
  | mappingOffsetOverflow (offset length : Nat)
  | mapped (pages addr : Nat)
  | nothingToUnmap (addr : Nat)
  | unmapped (pages addr : Nat)
  | segmentOverlap (va : Nat)
  | segmentLoaded (va fromFile zeroed : Nat)
  | programLoaded (pid entry : Nat)
  | processFault (pid addr : Nat) (error : MemoryError)
  | forkFailed (pid : Nat) (error : MemoryError)
  | forked (pid child : Nat)
  | exited (pid : Nat)
  | systemCall (pid number : Nat) (arguments : List Nat)
deriving DecidableEq, Repr

inductive Level where
  | trace
  | debug
  | info
  | warn
deriving DecidableEq, Repr

def Level.name : Level → String
  | trace => "TRACE"
  | debug => "DEBUG"
  | info => "INFO"
  | warn => "WARN"

namespace Event

def level : Event → Level
  | swappedOut .. | swappedIn .. | acquired .. | shared .. | rawShared .. | freed ..
  | claimed .. | unshared .. | pageCopied .. | systemCall .. => .trace
  | evicted .. | kernelFault .. | unmappedFault .. | stackGrowth .. | readOnlyWrite ..
  | copiedOnWrite .. | tableCopied .. | mapped .. | unmapped .. | segmentLoaded ..
  | forked .. => .debug
  | deviceRegistered .. | machineReady .. | programLoaded .. | exited .. => .info
  | swapFull .. | shortRead .. | shortWriteBack .. | writeBackLost .. | badMapping ..
  | emptyMapping | mappingAboveUser .. | mappingOverlap .. | mappingOffsetOverflow ..
  | nothingToUnmap .. | segmentOverlap .. | processFault .. | forkFailed .. => .warn

def message : Event → String
  | deviceRegistered name kind size =>
    "Registered block device \"" ++ name ++ "\" (" ++ kind.title ++ " type) with " ++
      toString size ++ " sectors"
  | machineReady frames slots => s!"VM: {frames} frames, {slots} swap slots"
  | swapFull capacity => s!"swap is full ({capacity} slots)"
  | swappedOut slot => s!"swapped out to slot {slot}"
  | swappedIn slot => s!"swapped in from slot {slot}"
  | shortRead offset count wanted =>
    s!"short read at offset {offset}: {count} of {wanted} bytes"
  | shortWriteBack offset count wanted =>
    s!"short write back at offset {offset}: {count} of {wanted} bytes"
  | writeBackLost va e => "lost write back of page " ++ hex va ++ ": " ++ e.message
  | acquired frame => s!"acquired frame {frame}"
  | evicted frame va => s!"evicted frame {frame} mapped at " ++ hex va
  | shared frame refcount => s!"frame {frame} shared, refcount {refcount}"
  | rawShared frame va => s!"raw mapping of frame {frame} at " ++ hex va ++ " shared"
  | freed frame => s!"freed frame {frame}"
  | kernelFault addr => "fault on kernel address " ++ hex addr
  | unmappedFault addr esp =>
    "fault on unmapped address " ++ hex addr ++ " (esp " ++ hex esp ++ ")"
  | stackGrowth va => "growing stack to " ++ hex va
  | readOnlyWrite va => "write to read-only page " ++ hex va
  | claimed va frame => "claimed " ++ hex va ++ s!" in frame {frame}"
  | unshared frame va => s!"frame {frame} no longer shared, " ++ hex va ++ " made writable"
  | copiedOnWrite va before after =>
    "copy-on-write of " ++ hex va ++ s!": frame {before} -> {after}"
  | pageCopied va => "copied page " ++ hex va
  | tableCopied pages => s!"copied {pages} pages"
  | badMapping addr length offset =>
    "mmap rejected: addr " ++ hex addr ++ s!", length {length}, offset {offset}"
  | emptyMapping => "mmap rejected: empty file"
  | mappingAboveUser addr length =>
    "mmap rejected: " ++ hex addr ++ s!"+{length} reaches kernel space"
  | mappingOverlap start stop =>
    "mmap rejected: " ++ hex start ++ ".." ++ hex stop ++ " overlaps existing pages"
  | mappingOffsetOverflow offset length =>
    s!"mmap rejected: offset {offset} + {length} overflows"
  | mapped pages addr => s!"mapped {pages} pages at " ++ hex addr
  | nothingToUnmap addr => "munmap of " ++ hex addr ++ ": no mapping there"
  | unmapped pages addr => s!"unmapped {pages} pages at " ++ hex addr
  | segmentOverlap va => "segment page " ++ hex va ++ " overlaps another segment"
  | segmentLoaded va fromFile zeroed =>
    "segment at " ++ hex va ++ s!": {fromFile} bytes from file, {zeroed} zeroed"
  | programLoaded pid entry => s!"pid {pid}: loaded, entry " ++ hex entry
  | processFault pid addr e =>
    s!"pid {pid}: page fault at " ++ hex addr ++ " (" ++ e.message ++ "), killing process"
  | forkFailed pid e => s!"pid {pid}: fork failed: " ++ e.message
  | forked pid child => s!"pid {pid}: forked pid {child}"
  | exited pid => s!"pid {pid}: exited"
  | systemCall pid number arguments =>
    s!"pid {pid}: syscall " ++ hexUpper number ++ " with arguments: " ++
      " ".intercalate (arguments.map hexUpper)

def line (e : Event) : String := e.level.name ++ " " ++ e.message

end Event

/-- What is reported when a device is registered. -/
def Device.registered (d : Device) : Event := .deviceRegistered d.name d.kind d.size.toNat

end DemandPaging
