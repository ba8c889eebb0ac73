import DemandPaging.Proofs.FlatChanges

/-! # Segments of an executable

What the header of an accepted segment says: which pages the segment takes, and which byte belongs at
each of their addresses. Segments whose pages are all different lie apart.
-/
namespace DemandPaging

namespace ProgramHeader
variable {p q : ProgramHeader} {fileLength file va a : Nat} {bytes : List UInt8}

/-- What the header of a segment satisfies that can be loaded from a file of this length. -/
structure Accepted (p : ProgramHeader) (fileLength : Nat) : Prop where
  aligned : pageOffset p.fileOffset.toNat = pageOffset p.virtualAddress.toNat
  stored : p.fileOffset.toNat + p.fileSize.toNat ≤ fileLength
  fits : p.fileSize.toNat ≤ p.memorySize.toNat
  nonempty : 0 < p.memorySize.toNat
  user : p.virtualAddress.toNat + p.memorySize.toNat ≤ kernelBase
  mapped : pageSize ≤ p.virtualAddress.toNat

theorem accepted_of_objection (h : p.objection? fileLength = none) : p.Accepted fileLength := by
  simp only [objection?, isUser, Bool.not_eq_true', decide_eq_false_iff_not] at h
  repeat' split at h
  all_goals cases h
  rename_i halign hstored hfits hempty _ _ huser hmapped
  rw [UInt32.lt_iff_toNat_lt, Nat.not_lt] at hfits
  have hpos : 0 < p.memorySize.toNat := by
    apply Nat.pos_of_ne_zero
    intro hzero
    exact hempty (UInt32.toNat_inj.mp hzero)
  simp only [kernelBase] at huser
  refine ⟨not_not.mp halign, Nat.le_of_not_lt hstored, hfits, hpos, ?_, Nat.le_of_not_lt hmapped⟩
  simp only [kernelBase]
  omega

/-- There is nothing else that a header is refused for. -/
theorem Accepted.objection?_eq_none (h : p.Accepted fileLength) : p.objection? fileLength = none := by
  obtain ⟨haligned, hstored, hfits, hpos, huser, hmapped⟩ := h
  have hempty : p.memorySize ≠ 0 := by
    rintro hzero
    rw [hzero] at hpos
    exact Nat.lt_irrefl 0 hpos
  have hsmall : ¬p.memorySize < p.fileSize := by
    rw [UInt32.lt_iff_toNat_lt]
    omega
  have hin : isUser p.virtualAddress.toNat = true := decide_eq_true (by omega)
  have hlast : isUser (p.virtualAddress.toNat + p.memorySize.toNat - 1) = true :=
    decide_eq_true (by omega)
  have hstop : p.virtualAddress.toNat + p.memorySize.toNat < halfWordLimit :=
    Nat.lt_of_le_of_lt huser (by decide)
  simp only [objection?, haligned, hin, hlast, hsmall, hempty, Nat.not_lt_of_le hstored,
    Nat.not_le_of_lt hstop, Nat.not_lt_of_le hmapped, ne_eq, not_true_eq_false, Bool.not_true,
    Bool.false_eq_true, if_false]

/-- Where the first page of a segment starts. -/
def start (p : ProgramHeader) : Nat := pageDown p.virtualAddress.toNat

/-- Where the last page of a segment ends. -/
def stop (p : ProgramHeader) : Nat :=
  pageDown (p.virtualAddress.toNat + p.memorySize.toNat + (pageSize - 1))

/-- The address is on a page of the segment. -/
def Covers (p : ProgramHeader) (a : Nat) : Prop := p.start ≤ a ∧ a < p.stop

/-- The byte that belongs at an address of the segment: one of its bytes in the file, a zero behind
them, and before them, on the first page, what is before them in the file, unless it has none there. -/
def byte? (p : ProgramHeader) (bytes : List UInt8) (a : Nat) : Option UInt8 :=
  if a < p.virtualAddress.toNat then
    if 0 < p.fileSize.toNat then bytes[p.fileOffset.toNat - (p.virtualAddress.toNat - a)]? else some 0
  else if a - p.virtualAddress.toNat < p.fileSize.toNat then
    bytes[p.fileOffset.toNat + (a - p.virtualAddress.toNat)]?
  else some 0

/-- How many pages a segment takes. -/
def pageCount (p : ProgramHeader) : Nat := (p.plan.readBytes + p.plan.zeroBytes) / pageSize

/-- The pages of a segment, before they have their serials. -/
def pages (p : ProgramHeader) (file : Nat) : List Page :=
  (List.range p.pageCount).map fun k =>
    { serial := 0, va := p.plan.va + k * pageSize, writable := p.writable
      backing := .uninit .anonymous (p.plan.source file k) }

namespace Accepted

theorem size_eq (h : p.Accepted fileLength) :
    p.plan.readBytes + p.plan.zeroBytes = p.stop - p.start ∧ p.start < p.stop ∧
      (p.stop - p.start) % pageSize = 0 := by
  obtain ⟨-, -, hfits, hpos, -, -⟩ := h
  simp only [plan, start, stop, pageOffset, pageDown, pageSize]
  generalize p.virtualAddress.toNat = address
  generalize p.memorySize.toNat = memory at hfits hpos ⊢
  generalize p.fileSize.toNat = size at hfits ⊢
  split <;> omega

theorem start_mod (p : ProgramHeader) : p.start % pageSize = 0 := by
  simp only [start, pageDown, pageSize]
  omega

/-- All pages of a segment are in user memory, and none is the first of all. -/
theorem within (h : p.Accepted fileLength) : pageSize ≤ p.start ∧ p.stop ≤ kernelBase := by
  obtain ⟨-, -, -, -, huser, hmapped⟩ := h
  simp only [start, stop, pageDown, pageSize, kernelBase] at hmapped huser ⊢
  omega

theorem mem_pages (h : p.Accepted fileLength) :
    va ∈ (p.pages file).map Page.va ↔ va % pageSize = 0 ∧ p.Covers va := by
  obtain ⟨hsize, hlt, hmod⟩ := h.size_eq
  have hstart := start_mod p
  have hplan : p.plan.va = p.start := rfl
  simp only [pages, List.map_map, List.mem_map, List.mem_range, Function.comp_apply, pageCount, hsize,
    hplan, Covers]
  simp only [pageSize] at hstart hmod ⊢
  constructor
  · rintro ⟨k, hk, rfl⟩
    omega
  · rintro ⟨hva, hle, hstop⟩
    exact ⟨(va - p.start) / 4096, by omega, by omega⟩

/-- Two segments that have no page in common lie one after the other. -/
theorem apart (hp : p.Accepted fileLength) (hq : q.Accepted fileLength)
    (h : List.Disjoint ((p.pages file).map Page.va) ((q.pages file).map Page.va)) :
    p.stop ≤ q.start ∨ q.stop ≤ p.start := by
  by_contra hnot
  have hp₁ := hp.size_eq.2.1
  have hq₁ := hq.size_eq.2.1
  have hmod : max p.start q.start % pageSize = 0 := by
    rcases Nat.le_total p.start q.start with hle | hle
    · rw [Nat.max_eq_right hle, start_mod]
    · rw [Nat.max_eq_left hle, start_mod]
  -- The later of the two starts is in both.
  refine h (hp.mem_pages.mpr ⟨hmod, ?_⟩) (hq.mem_pages.mpr ⟨hmod, ?_⟩)
  all_goals
    unfold Covers
    omega

/-- Every byte of a segment is there in a file of this length, and is what its plan says. -/
theorem byte?_eq (h : p.Accepted bytes.length) (ha : p.start ≤ a) :
    p.byte? bytes a = some (p.plan.byteAt bytes a) := by
  obtain ⟨halign, hstored, hfits, hpos, -, -⟩ := h
  have hat {i j : Nat} (hij : i = j) (hi : i < bytes.length) : bytes[i]? = some (bytes.getD j 0) := by
    subst hij
    rw [List.getD_eq_getElem?_getD, List.getElem?_eq_getElem hi, Option.getD_some]
  have hva : p.plan.va = p.virtualAddress.toNat - p.virtualAddress.toNat % 4096 := rfl
  have hoffset : p.plan.fileOffset = p.fileOffset.toNat - p.fileOffset.toNat % 4096 := rfl
  have hread : p.plan.readBytes =
    if 0 < p.fileSize.toNat then p.virtualAddress.toNat % 4096 + p.fileSize.toNat else 0 := rfl
  simp only [start, pageOffset, pageDown, pageSize] at halign ha
  unfold byte? SegmentPlan.byteAt
  split at hread
  · split
    · rw [if_pos (by omega)]
      exact hat (by omega) (by omega)
    · split
      · rw [if_pos (by omega)]
        exact hat (by omega) (by omega)
      · rw [if_neg (by omega)]
  · rw [hread, if_neg (Nat.not_lt_zero _)]
    split
    · rfl
    · rw [if_neg (by omega)]

/-- The page that is `k` pages into a segment is filled from bytes that are there. -/
theorem source_within (h : p.Accepted fileLength) {k : Nat} {f : Nat}
    (hf : (p.plan.source file k).file = some f) :
    f = file ∧ (p.plan.source file k).offset + (p.plan.source file k).readBytes ≤ fileLength := by
  obtain ⟨halign, hstored, -, -, -, -⟩ := h
  unfold SegmentPlan.source segmentSource at hf ⊢
  split at hf
  · cases hf
  · rename_i hsome
    rw [if_neg hsome]
    refine ⟨(Option.some.inj hf).symm, ?_⟩
    have hoffset : p.plan.fileOffset = p.fileOffset.toNat - p.fileOffset.toNat % 4096 := rfl
    have hread : p.plan.readBytes =
      if 0 < p.fileSize.toNat then p.virtualAddress.toNat % 4096 + p.fileSize.toNat else 0 := rfl
    simp only [pageOffset, pageSize] at halign hsome ⊢
    split at hread <;> omega

end Accepted

end ProgramHeader

/-- The segments of an executable that are to be loaded. -/
def Image.segments (image : Image) : List ProgramHeader :=
  image.programHeaders.filter (·.kind = .load)

end DemandPaging
