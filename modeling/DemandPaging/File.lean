import DemandPaging.Bytes

/-! # Files and handles

A file is a row of bytes of fixed length. Handles share the bytes; each has a cursor of its own.
The store counts the live handles of every file. A file may limit how many bytes one transfer
moves.
-/
namespace DemandPaging

structure FileNode where
  contents : List UInt8
  /-- Number of live handles. -/
  handles : Nat := 0
  /-- Most bytes that one read moves, if limited. -/
  readLimit : Option Nat := none
  /-- Most bytes that one write moves, if limited. -/
  writeLimit : Option Nat := none

instance : Inhabited FileNode := ⟨{ contents := [] }⟩

namespace FileNode

def length (f : FileNode) : Nat := f.contents.length

/-- How much of a buffer of `size` bytes one transfer may use. -/
def allowed (limit : Option Nat) (size : Nat) : Nat := limit.elim size (min size)

/-- What a read of `size` bytes at `position` gives: nothing past the end of the file. -/
def readAt (f : FileNode) (position size : Nat) : List UInt8 :=
  slice f.contents position (allowed f.readLimit size)

/-- Replaces bytes from `position` on, never past the end of the file, and says how many. -/
def writeAt (f : FileNode) (position : Nat) (bytes : List UInt8) : Nat × FileNode :=
  let count := min (allowed f.writeLimit bytes.length) (f.length - position)
  (count, { f with contents := splice f.contents position (bytes.take count) })

end FileNode

/-- A file that is open, and the position of its next read. -/
structure Handle where
  file : Nat
  cursor : Nat := 0
deriving DecidableEq, Repr

structure FileStore where
  nodes : Array FileNode := #[]

namespace FileStore

def node (s : FileStore) (file : Nat) : FileNode := s.nodes.getD file default

def modify (s : FileStore) (file : Nat) (f : FileNode → FileNode) : FileStore :=
  { s with nodes := s.nodes.modify file f }

/-- Adds a file and opens it. -/
def create (s : FileStore) (f : FileNode) : Handle × FileStore :=
  ({ file := s.nodes.size }, { s with nodes := s.nodes.push { f with handles := 1 } })

def length (s : FileStore) (file : Nat) : Nat := (s.node file).length

/-- Number of live handles of a file. -/
def handles (s : FileStore) (file : Nat) : Nat := (s.node file).handles

/-- Counts one more handle of a file. -/
def retain (s : FileStore) (file : Nat) : FileStore :=
  s.modify file fun f => { f with handles := f.handles + 1 }

/-- Counts one handle of a file less. -/
def release (s : FileStore) (file : Nat) : FileStore :=
  s.modify file fun f => { f with handles := f.handles - 1 }

/-- A new handle at the start of the file. -/
def reopen (s : FileStore) (h : Handle) : Handle × FileStore :=
  ({ h with cursor := 0 }, s.retain h.file)

/-- A new handle at the same position. -/
def clone (s : FileStore) (h : Handle) : Handle × FileStore := (h, s.retain h.file)

def close (s : FileStore) (h : Handle) : FileStore := s.release h.file

/-- Reads at the cursor and moves it past what was read. -/
def read (s : FileStore) (h : Handle) (size : Nat) : List UInt8 × Handle :=
  let bytes := (s.node h.file).readAt h.cursor size
  (bytes, { h with cursor := h.cursor + bytes.length })

/-- Moves the cursor, then reads. -/
def readAt (s : FileStore) (h : Handle) (position size : Nat) : List UInt8 × Handle :=
  s.read { h with cursor := position } size

/-- Writes at a position and leaves the cursor where it is. -/
def writeAt (s : FileStore) (file position : Nat) (bytes : List UInt8) : Nat × FileStore :=
  let (count, f) := (s.node file).writeAt position bytes
  (count, s.modify file fun _ => f)

def setLimits (s : FileStore) (file : Nat) (readLimit writeLimit : Option Nat) : FileStore :=
  s.modify file fun f => { f with readLimit, writeLimit }

end FileStore

end DemandPaging
