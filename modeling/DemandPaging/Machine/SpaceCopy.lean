import DemandPaging.Machine.Frames

/-! # Copying and emptying a space

A copy shares every resident frame read-only with the space it was made from, so that the first
write on either side takes a private copy. Emptying a space destroys its pages, lowest address
first.
-/
namespace DemandPaging

variable {π : Type}

/-- Shares with space `dst` the frame that a page of space `src` is in, or else a frame that is
mapped there without a page. -/
def shareWith (src dst va serial : Nat) (frame : Option Nat) : Attempt π Unit := do
  match frame with
  | some n => share n src dst serial va
  | none =>
    match ((← get).space src).directory.frame? va with
    | some n => shareRaw n src dst va
    | none => return

/-- Puts a copy of a page of space `src`, with backing `backing`, into space `dst`. If its frame
cannot be shared, the copy gives its file handle back. -/
def linkCopy (src dst va : Nat) (page : Page) (backing : Backing) : Attempt π Unit := do
  let serial := (← get).nextSerial
  modify fun m => { m with nextSerial := serial + 1 }
  tryCatch (shareWith src dst va serial page.frame) fun e => do
    modify (·.releaseSource backing.source)
    throw e
  modify (·.report (.pageCopied va))
  if ((← get).space dst).pages.contains va then abort .violated
  modify (·.putPage dst { page with serial, backing })

/-- Copies pages, with the addresses they are kept at, from one space to another. -/
def copyPages (src dst : Nat) : List (Nat × Page) → Attempt π Unit
  | [] => return
  | (va, page) :: rest => do
    let backing ← duplicateBacking page.backing
    linkCopy src dst va page backing
    copyPages src dst rest

/-- Copies every page of space `src` into space `dst`. After a failure the caller empties `dst`. -/
def copySpace (src dst : Nat) : Attempt π Unit := do
  let pages := ((← get).space src).pages
  copyPages src dst pages.toList
  modify (·.report (.tableCopied pages.size))

variable [ReplacementPolicy π]

/-- Destroys pages that are no longer in the table of space `s`. -/
def destroyPages (s : Nat) : List Page → Run π Unit
  | [] => return
  | page :: rest => do
    let _ ← destroyPage s page
    destroyPages s rest

/-- Destroys every page of space `s`. -/
def emptySpace (s : Nat) : Run π Unit := do
  let pages := ((← get).space s).pages
  modify (·.modifySpace s (·.cleared))
  destroyPages s pages.values

end DemandPaging
