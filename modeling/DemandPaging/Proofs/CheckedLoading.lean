import DemandPaging.Proofs.Segments

/-! # Checked loading

The headers of an executable are words that anybody may have chosen. Here a loader computes with them in
machine words: every sum, difference and rounding is checked, so is every assertion, and the pages of a
segment are added until none of its bytes is left. It is the same loader, so that no check ever fails.
-/
namespace DemandPaging

/-! ## Checked headers -/

namespace ProgramHeader
variable {p : ProgramHeader} {fileLength : Nat}

/-- Why a segment cannot be loaded, provided that no sum or difference on the way overflows. -/
def verdict? (p : ProgramHeader) (fileLength : Nat) : Option (Option SegmentError) :=
  let start := p.virtualAddress.toNat
  let stop := start + p.memorySize.toNat
  if pageOffset p.fileOffset.toNat ≠ pageOffset start then some (some .differentPageOffset)
  else do
    let stored ← wordAdd? p.fileOffset.toNat p.fileSize.toNat
    if fileLength < stored then some (some .offsetOutOfRange)
    else if p.memorySize < p.fileSize then some (some .memorySmallerThanFile)
    else if p.memorySize = 0 then some (some .emptyMemory)
    else if !isUser start then some (some .regionOutOfRange)
    -- The end is a half word, and an overflow of it an answer.
    else if halfWordLimit ≤ stop then some (some .regionWrapsAround)
    else do
      let last ← wordSub? stop 1
      if !isUser last then some (some .regionOutOfRange)
      else if start < pageSize then some (some .pageZero)
      else some none

theorem verdict?_eq (p : ProgramHeader) (fileLength : Nat) :
    p.verdict? fileLength = some (p.objection? fileLength) := by
  have hoffset := p.fileOffset.toNat_lt
  have hsize := p.fileSize.toNat_lt
  have hstored : wordAdd? p.fileOffset.toNat p.fileSize.toNat = some _ :=
    wordAdd?_of_lt (by simp only [wordLimit]; omega)
  simp only [verdict?, objection?, hstored, Option.bind_eq_bind, Option.bind_some, apply_ite some]
  by_cases hempty : p.memorySize = 0
  · simp only [hempty, if_true]
  · have hpos : p.memorySize.toNat ≠ 0 := fun hzero => hempty (UInt32.toNat_inj.mp hzero)
    have hlast : wordSub? (p.virtualAddress.toNat + p.memorySize.toNat) 1 = some _ :=
      wordSub?_of_le (by omega)
    simp only [hlast, Option.bind_some]

/-- The file bytes end beyond any half word, and the region does so too. Only the latter is refused. -/
example : verdict? { kind := .load, fileOffset := 0xffffffff, virtualAddress := 0xfff, physicalAddress := 0
                     fileSize := 0xffffffff, memorySize := 0xffffffff, executable := false, writable := false
                     readable := true, alignment := 0 } 0x1fffffffe =
    some (some .regionWrapsAround) := by decide

/-- The plan of a segment, provided that no sum, difference or rounding overflows. -/
def layout? (p : ProgramHeader) : Option SegmentPlan := do
  let start := p.virtualAddress.toNat
  let size ← wordAdd? (pageOffset start) p.memorySize.toNat
  let stop ← pageUp? size
  let (readBytes, zeroBytes) ←
    if 0 < p.fileSize.toNat then do
      let readBytes ← wordAdd? (pageOffset start) p.fileSize.toNat
      let zeroBytes ← wordSub? stop readBytes
      some (readBytes, zeroBytes)
    else some (0, stop)
  some { fileOffset := pageDown p.fileOffset.toNat, va := pageDown start, readBytes, zeroBytes }

theorem Accepted.layout?_eq (h : p.Accepted fileLength) : p.layout? = some p.plan := by
  have hmemory := p.memorySize.toNat_lt
  have hoff := pageOffset_lt p.virtualAddress.toNat
  have hfits := h.fits
  have hsize : wordAdd? (pageOffset p.virtualAddress.toNat) p.memorySize.toNat = some _ :=
    wordAdd?_of_lt (by simp only [wordLimit, pageSize] at hoff ⊢; omega)
  have hread : wordAdd? (pageOffset p.virtualAddress.toNat) p.fileSize.toNat = some _ :=
    wordAdd?_of_lt (by simp only [wordLimit, pageSize] at hoff ⊢; omega)
  have hstop : pageUp? (pageOffset p.virtualAddress.toNat + p.memorySize.toNat) =
      some (pageDown (pageOffset p.virtualAddress.toNat + p.memorySize.toNat + (pageSize - 1))) := by
    rw [pageUp?, if_pos (by simp only [wordLimit, pageSize] at hoff ⊢; omega), Nat.add_sub_assoc (by decide)]
  have hzero : wordSub? (pageDown (pageOffset p.virtualAddress.toNat + p.memorySize.toNat + (pageSize - 1)))
      (pageOffset p.virtualAddress.toNat + p.fileSize.toNat) = some _ :=
    wordSub?_of_le (by simp only [pageDown, pageSize]; omega)
  simp only [layout?, plan, hsize, hread, hstop, Option.bind_eq_bind, Option.bind_some]
  by_cases hpos : 0 < p.fileSize.toNat
  · simp only [if_pos hpos, hzero, Option.bind_some]
  · simp only [if_neg hpos, Nat.sub_zero]

end ProgramHeader

/-! ## Checked pages -/

namespace SegmentPlan
variable {plan rest : SegmentPlan} {file count : Nat}

/-- The source of the first page, provided that it reads no more than a page. -/
def source? (plan : SegmentPlan) (file : Nat) : Option Source :=
  let size := min plan.readBytes pageSize
  if size = 0 then some .zeroed
  else if h : size ≤ pageSize then
    some { file := some file, offset := plan.fileOffset, readBytes := size, readBytes_le := h }
  else none

theorem source?_eq (plan : SegmentPlan) (file : Nat) :
    plan.source? file = some (segmentSource file plan.fileOffset plan.readBytes) := by
  have hle : min plan.readBytes pageSize ≤ pageSize := Nat.min_le_right ..
  have hzero : min plan.readBytes pageSize = 0 ↔ plan.readBytes = 0 := by
    simp only [pageSize]
    omega
  simp only [source?, segmentSource, hle, dif_pos, hzero]
  split <;> rfl

/-- What is left of a segment behind its first page, provided that no sum or difference overflows. -/
def rest? (plan : SegmentPlan) : Option SegmentPlan := do
  let size := min plan.readBytes pageSize
  let zeroSize ← wordSub? pageSize size
  let readBytes ← wordSub? plan.readBytes size
  let zeroBytes ← wordSub? plan.zeroBytes zeroSize
  let va ← wordAdd? plan.va pageSize
  let fileOffset ← wordAdd? plan.fileOffset size
  some { fileOffset, va, readBytes, zeroBytes }

/-- There is always less left, by a page. -/
theorem lt_of_rest? (h : plan.rest? = some rest) :
    rest.readBytes + rest.zeroBytes < plan.readBytes + plan.zeroBytes := by
  simp only [rest?, wordAdd?, wordSub?, Option.bind_eq_bind, Option.bind_eq_some_iff,
    Option.ite_none_right_eq_some, Option.some.injEq] at h
  obtain ⟨zeroSize, ⟨hsize, rfl⟩, readBytes, ⟨hread, rfl⟩, zeroBytes, ⟨hzero, rfl⟩, -, -, -, -, rfl⟩ := h
  simp only [pageSize] at hzero ⊢
  omega

theorem rest?_eq (hsize : pageSize ≤ plan.readBytes + plan.zeroBytes) (hva : plan.va + pageSize < wordLimit)
    (hoffset : plan.fileOffset + plan.readBytes < wordLimit) :
    plan.rest? = some
      { fileOffset := plan.fileOffset + min plan.readBytes pageSize, va := plan.va + pageSize
        readBytes := plan.readBytes - min plan.readBytes pageSize
        zeroBytes := plan.zeroBytes - (pageSize - min plan.readBytes pageSize) } := by
  have hle : min plan.readBytes pageSize ≤ pageSize := Nat.min_le_right ..
  have hread : min plan.readBytes pageSize ≤ plan.readBytes := Nat.min_le_left ..
  have hzero : pageSize - min plan.readBytes pageSize ≤ plan.zeroBytes := by omega
  have hnext : plan.fileOffset + min plan.readBytes pageSize < wordLimit := by omega
  simp only [rest?, wordSub?_of_le hle, wordSub?_of_le hread, wordSub?_of_le hzero, wordAdd?_of_lt hva,
    wordAdd?_of_lt hnext, Option.bind_eq_bind, Option.bind_some]

end SegmentPlan

namespace Checked
variable {π : Type} {s file : Nat} {writable : Bool} {plan : SegmentPlan}

/-- Adds the pages of a segment one by one, until no byte of it is left. -/
def addPages (s file : Nat) (writable : Bool) (plan : SegmentPlan) : Attempt π Unit :=
  if 0 < plan.readBytes ∨ 0 < plan.zeroBytes then
    match plan.source? file with
    | none => do abort .violated
    | some source =>
      match hrest : plan.rest? with
      | none => do abort .overflow
      | some rest => do
        modify (·.retainSource source)
        unless ← (insertPage s plan.va writable (.uninit .anonymous source) : Run π Bool) do
          modify (·.report (.segmentOverlap plan.va))
          throw .invalidMapping
        have := SegmentPlan.lt_of_rest? hrest
        addPages s file writable rest
  else return
termination_by plan.readBytes + plan.zeroBytes

/-- The loop adds as many pages as the segment takes. -/
theorem addPages_eq {count : Nat} (hsize : plan.readBytes + plan.zeroBytes = count * pageSize)
    (hva : plan.va + count * pageSize < wordLimit) (hoffset : plan.fileOffset + plan.readBytes < wordLimit) :
    (addPages s file writable plan : Attempt π Unit) =
      addSegmentPages s file writable plan.fileOffset plan.va plan.readBytes count := by
  induction count generalizing plan with
  | zero =>
    rw [addPages, if_neg (by omega)]
    rfl
  | succ count ih =>
    rw [Nat.succ_mul] at hsize hva
    have hnext : plan.va + pageSize < wordLimit :=
      Nat.lt_of_le_of_lt (Nat.add_le_add_left (Nat.le_add_left ..) _) hva
    have hrest := SegmentPlan.rest?_eq (hsize ▸ Nat.le_add_left ..) hnext hoffset
    have hmore : 0 < plan.readBytes ∨ 0 < plan.zeroBytes := by
      simp only [pageSize] at hsize
      omega
    rw [addPages, if_pos hmore, SegmentPlan.source?_eq, addSegmentPages]
    dsimp only
    split
    · rename_i hnone
      cases hnone.symm.trans hrest
    · rename_i rest hrest'
      obtain rfl := Option.some.inj (hrest'.symm.trans hrest)
      have hread : min plan.readBytes pageSize ≤ plan.readBytes := Nat.min_le_left ..
      have hwords : plan.va + pageSize < wordLimit ∧
          plan.fileOffset + min plan.readBytes pageSize < wordLimit := ⟨hnext, by omega⟩
      rw [segmentSource_readBytes, ih]
      · simp only [if_pos hwords]
      · simp only [pageSize] at hsize ⊢
        omega
      · simp only [pageSize] at hva ⊢
        omega
      · dsimp only
        omega

/-- Adds the pages of a segment. Both of its assertions are checked. -/
def addSegment (s file : Nat) (plan : SegmentPlan) (writable : Bool) : Attempt π Unit := do
  match wordAdd? plan.readBytes plan.zeroBytes with
  | none => abort .overflow
  | some size =>
    unless size % pageSize = 0 do abort .violated
    unless pageOffset plan.va = 0 do abort .violated
    addPages s file writable plan

theorem addSegment_eq {p : ProgramHeader} {fileLength : Nat} (h : p.objection? fileLength = none) :
    (addSegment s file p.plan writable : Attempt π Unit) = DemandPaging.addSegment s file p.plan writable := by
  obtain ⟨hpages, hva, huser, hoffset⟩ := p.plan_of_accepted h
  have hlimit : kernelBase < wordLimit := by decide
  have hsize : p.plan.readBytes + p.plan.zeroBytes < wordLimit := by omega
  have hcount := Nat.div_mul_cancel (Nat.dvd_of_mod_eq_zero hpages)
  have hassert : (p.plan.readBytes + p.plan.zeroBytes) % pageSize = 0 ∧ pageOffset p.plan.va = 0 := ⟨hpages, hva⟩
  rw [addSegment, DemandPaging.addSegment, wordAdd?_of_lt hsize]
  simp only [if_pos hsize, if_pos hassert, if_pos hassert.1, if_pos hassert.2]
  exact addPages_eq hcount.symm (by omega) hoffset

/-- Adds the segments that are to be loaded, with everything checked. -/
def addSegments (s file fileLength : Nat) : List ProgramHeader → ExceptT LoadError (Run π) Unit
  | [] => return
  | p :: rest => do
    if p.kind = .load then
      match p.verdict? fileLength with
      | none => abort .overflow
      | some (some e) => throw (.segment e)
      | some none =>
        match p.layout? with
        | none => abort .overflow
        | some plan =>
          ExceptT.adapt LoadError.memory (addSegment s file plan p.writable)
          modify (·.report (.segmentLoaded plan.va plan.readBytes plan.zeroBytes))
    addSegments s file fileLength rest

/-- Whatever the headers say, no check fails. -/
theorem addSegments_eq (s file fileLength : Nat) (headers : List ProgramHeader) :
    (addSegments s file fileLength headers : ExceptT LoadError (Run π) Unit) =
      DemandPaging.addSegments s file fileLength headers := by
  induction headers with
  | nil => rfl
  | cons p rest ih =>
    rw [addSegments, DemandPaging.addSegments, p.verdict?_eq, ih]
    cases hobjection : p.objection? fileLength with
    | some e => rfl
    | none =>
      simp only [(ProgramHeader.accepted_of_objection hobjection).layout?_eq, addSegment_eq hobjection]

end Checked

end DemandPaging
