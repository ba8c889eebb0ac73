import Mathlib.Data.Finset.Card
import Mathlib.Tactic.IntervalCases
import DemandPaging.Proofs.Entries

/-! # Page directories as partial maps

A page directory says what `Mappings` say: which pages are mapped, each to a frame, with the right to
write and two marks. Requests change the one as they change the other, the word that is stored for a page
has exactly the bits that its mapping spells, and every question gets the answer of the partial map.
-/
namespace DemandPaging

/-- What a page is mapped to, and how it was used. -/
structure Mapping where
  frame : Nat
  writable : Bool
  dirty : Bool
  accessed : Bool
deriving DecidableEq, Repr

/-- What each page is mapped to, by the address of the page. -/
abbrev Mappings := Nat → Option Mapping

namespace Mapping

/-- The bits of the word that stands for a mapping: present, writable, user, accessed and dirty, and the
frame from bit 12 on. -/
def bit (p : Mapping) : Nat → Bool
  | 0 => true
  | 1 => p.writable
  | 2 => true
  | 5 => p.accessed
  | 6 => p.dirty
  | i => decide (12 ≤ i) && p.frame.testBit (i - 12)

def entry (p : Mapping) : PageTableEntry :=
  ((PageTableEntry.ofFrame (BitVec.ofNat 20 p.frame) p.writable).put .accessed p.accessed).put .dirty
    p.dirty

/-- The mapping that a word stands for. -/
def ofEntry (e : PageTableEntry) : Mapping :=
  { frame := e.frame, writable := e.has .writable, dirty := e.has .dirty, accessed := e.has .accessed }

theorem getLsbD_entry (p : Mapping) {i : Nat} (hi : i < 32) : p.entry.raw.getLsbD i = p.bit i := by
  have hframe {i : Nat} (hle : 12 ≤ i) : p.bit i = p.frame.testBit (i - 12) := by
    unfold bit
    split <;> first | omega | simp [hle]
  simp only [entry, PageTableEntry.put, PageTableEntry.ofFrame, PageTableEntry.putFrame,
    PageTableEntry.empty, getLsbD_putBit, PageTableEntry.Flag.position, BitVec.getLsbD_append,
    BitVec.getLsbD_extractLsb', Nat.zero_add]
  by_cases hlow : i < 12
  · -- The low bits are the flags, one by one.
    interval_cases i <;> simp [bit]
  · rw [hframe (Nat.le_of_not_lt hlow)]
    simp [hlow, show ¬5 = i by omega, show ¬6 = i by omega, BitVec.getLsbD_ofNat,
      show i - 12 < 20 by omega, -BitVec.getLsbD_eq_getElem]

/-- Nothing of a mapping is lost in its word. -/
theorem ofEntry_entry {p : Mapping} (hfit : p.frame < PageTableEntry.frameLimit) :
    ofEntry p.entry = p := by
  have hframe : (BitVec.ofNat 20 p.frame).toNat = p.frame :=
    Nat.mod_eq_of_lt hfit
  simp [ofEntry, entry, PageTableEntry.has_put, hframe]

theorem entry_put_dirty (p : Mapping) (on : Bool) :
    p.entry.put .dirty on = { p with dirty := on }.entry :=
  PageTableEntry.put_put

theorem entry_put_accessed (p : Mapping) (on : Bool) :
    p.entry.put .accessed on = { p with accessed := on }.entry := by
  unfold entry
  rw [PageTableEntry.put_comm (by decide), PageTableEntry.put_put]

end Mapping

namespace PageDirectory

inductive Request where
  | map (va frame : Nat) (writable : Bool)
  | unmap (va : Nat)
  | setDirty (va : Nat) (on : Bool)
  | setAccessed (va : Nat) (on : Bool)

namespace Request

/-- Whether a directory grants a request, and the directory afterwards. -/
def serve (d : PageDirectory) : Request → Bool × PageDirectory
  | map va frame writable =>
    match d.map? va frame writable with
    | some after => (true, after)
    | none => (false, d)
  | unmap va => (true, d.unmap va)
  | setDirty va on => (true, d.setDirty va on)
  | setAccessed va on => (true, d.setAccessed va on)

/-- The same of partial maps. A page that is mapped to the frame it was mapped to before stays as dirty
as it was. -/
def apply (v : Mappings) : Request → Bool × Mappings
  | map va frame writable =>
    if va < kernelBase ∧ frame < PageTableEntry.frameLimit then
      let dirty := (v (pageDown va)).any fun p => p.frame == frame && p.dirty
      (true, Function.update v (pageDown va) (some { frame, writable, dirty, accessed := false }))
    else (false, v)
  | unmap va => (true, Function.update v (pageDown va) none)
  | setDirty va on =>
    (true, Function.update v (pageDown va) ((v (pageDown va)).map ({ · with dirty := on })))
  | setAccessed va on =>
    (true, Function.update v (pageDown va) ((v (pageDown va)).map ({ · with accessed := on })))

/-- The answers to any number of requests, one after the other, and the directory afterwards. -/
def serveAll (d : PageDirectory) : List Request → List Bool × PageDirectory
  | [] => ([], d)
  | r :: rest =>
    let (granted, after) := r.serve d
    let (answers, last) := serveAll after rest
    (granted :: answers, last)

def applyAll (v : Mappings) : List Request → List Bool × Mappings
  | [] => ([], v)
  | r :: rest =>
    let (granted, after) := r.apply v
    let (answers, last) := applyAll after rest
    (granted :: answers, last)

end Request

/-- The words of a directory are those of the mappings, and every frame fits its word. -/
structure Encodes (d : PageDirectory) (v : Mappings) : Prop where
  entries : ∀ a, d.entries[a]? = (v a).map Mapping.entry
  fits : ∀ a p, v a = some p → p.frame < PageTableEntry.frameLimit

/-- What can be asked of a directory, and what it holds, is what the partial map says. -/
structure Represents (d : PageDirectory) (v : Mappings) : Prop where
  frame : ∀ va, d.frame? va = (v (pageDown va)).map Mapping.frame
  writable : ∀ va, d.isWritable va = (v (pageDown va)).any Mapping.writable
  dirty : ∀ va, d.isDirty va = (v (pageDown va)).any Mapping.dirty
  accessed : ∀ va, d.isAccessed va = (v (pageDown va)).any Mapping.accessed
  word : ∀ va, (d.entry? va).map Mapping.ofEntry = v (pageDown va)
  bits : ∀ va e, d.entry? va = some e → ∀ i < 32, e.raw.getLsbD i = (Mapping.ofEntry e).bit i
  size : ∃ pages : Finset Nat, (∀ a, a ∈ pages ↔ (v a).isSome) ∧ d.size = pages.card

namespace Encodes
variable {d : PageDirectory} {v : Mappings}

theorem empty : Encodes {} fun _ => none where
  entries _ := Std.ExtTreeMap.getElem?_empty
  fits _ _ h := by cases h

theorem frame_entry (h : d.Encodes v) {a : Nat} {p : Mapping} (hp : v a = some p) :
    p.entry.frame = p.frame :=
  congrArg Mapping.frame (Mapping.ofEntry_entry (h.fits a p hp))

/-- A new word at one page. -/
theorem update {d' : PageDirectory} {x : Option Mapping} {va : Nat} (h : d.Encodes v)
    (he : ∀ a, d'.entries[a]? = if a = va then x.map Mapping.entry else d.entries[a]?)
    (hx : ∀ p, x = some p → p.frame < PageTableEntry.frameLimit) :
    d'.Encodes (Function.update v va x) := by
  constructor
  · intro a
    rw [he, Function.update_apply]
    split
    · rfl
    · exact h.entries a
  · intro a p hp
    rw [Function.update_apply] at hp
    split at hp
    · exact hx p hp
    · exact h.fits a p hp

theorem unmap (h : d.Encodes v) (va : Nat) :
    (d.unmap va).Encodes (Function.update v (pageDown va) none) := by
  apply h.update
  · intro a
    simp only [PageDirectory.unmap, Std.ExtTreeMap.getElem?_erase, Std.LawfulEqCmp.compare_eq_iff_eq,
      eq_comm (a := pageDown va), Option.map_none]
  · intro p hp
    cases hp

/-- One flag is put where there is a mapping, and nothing is done where there is none. -/
theorem mark (h : d.Encodes v) (f : PageTableEntry.Flag) (va : Nat) (on : Bool) {g : Mapping → Mapping}
    (hg : ∀ p, (Mapping.entry p).put f on = (g p).entry) (hframe : ∀ p, (g p).frame = p.frame) :
    (d.mark f va on).Encodes (Function.update v (pageDown va) ((v (pageDown va)).map g)) := by
  have hentry : d.entry? va = (v (pageDown va)).map Mapping.entry := h.entries (pageDown va)
  apply h.update
  · intro a
    rw [getElem?_mark_eq, hentry, Option.map_map, Option.map_map]
    simp only [Function.comp_def, hg]
  · intro q hq
    obtain ⟨p, hp, rfl⟩ := Option.map_eq_some_iff.mp hq
    rw [hframe]
    exact h.fits _ p hp

theorem map {va frame : Nat} (h : d.Encodes v) (hva : va < kernelBase)
    (hfit : frame < PageTableEntry.frameLimit) (writable : Bool) :
    ∃ after, d.map? va frame writable = some after ∧
      after.Encodes (Function.update v (pageDown va) (some
        { frame, writable, accessed := false
          dirty := (v (pageDown va)).any fun p => p.frame == frame && p.dirty })) := by
  have hentry : d.entry? va = (v (pageDown va)).map Mapping.entry := h.entries (pageDown va)
  have hfresh (dirty : Bool) : Mapping.entry { frame, writable, dirty, accessed := false } =
      (PageTableEntry.ofFrame (BitVec.ofNat 20 frame) writable).put .dirty dirty := by
    rw [Mapping.entry, PageTableEntry.put_eq_self PageTableEntry.accessed_ofFrame]
  have hclean : Mapping.entry { frame, writable, dirty := false, accessed := false } =
      PageTableEntry.ofFrame (BitVec.ofNat 20 frame) writable := by
    rw [hfresh, PageTableEntry.put_eq_self (PageTableEntry.dirty_ofFrame ..)]
  simp only [map?, isUser, hva, decide_true, if_true, PageTableEntry.frameField?, hfit, Option.map_some,
    Option.some.injEq, exists_eq_left']
  apply h.update
  · intro a
    simp only [Std.ExtTreeMap.getElem?_insert, Std.LawfulEqCmp.compare_eq_iff_eq,
      eq_comm (a := pageDown va), Option.map_some, hentry]
    congr 2
    cases hp : v (pageDown va) with
    | none => exact hclean.symm
    | some p =>
      simp only [Option.map_some, h.frame_entry hp, Option.any_some]
      by_cases heq : p.frame = frame
      · rw [hfresh, heq, beq_self_eq_true, Bool.true_and, if_pos rfl, Mapping.entry,
          PageTableEntry.has_put, if_pos rfl]
      · rw [beq_eq_false_iff_ne.mpr heq, Bool.false_and, if_neg heq, hclean]
  · intro p hp
    obtain rfl := Option.some.inj hp
    exact hfit

theorem serve (h : d.Encodes v) (r : Request) :
    (r.serve d).1 = (r.apply v).1 ∧ (r.serve d).2.Encodes (r.apply v).2 := by
  cases r with
  | map va frame writable =>
    by_cases hfit : va < kernelBase ∧ frame < PageTableEntry.frameLimit
    · obtain ⟨after, hmap, hafter⟩ := h.map hfit.1 hfit.2 writable
      simp only [Request.serve, Request.apply, hmap, if_pos hfit]
      exact ⟨trivial, hafter⟩
    · have hnone : d.map? va frame writable = none := by
        by_cases hva : va < kernelBase
        · have hframe : ¬frame < PageTableEntry.frameLimit := fun hlt => hfit ⟨hva, hlt⟩
          simp [map?, PageTableEntry.frameField?, hframe]
        · simp [map?, isUser, hva]
      simp only [Request.serve, Request.apply, hnone, if_neg hfit]
      exact ⟨trivial, h⟩
  | unmap va => exact ⟨rfl, h.unmap va⟩
  | setDirty va on =>
    exact ⟨rfl, h.mark .dirty va on (fun p => p.entry_put_dirty on) fun _ => rfl⟩
  | setAccessed va on =>
    exact ⟨rfl, h.mark .accessed va on (fun p => p.entry_put_accessed on) fun _ => rfl⟩

theorem serveAll (h : d.Encodes v) (requests : List Request) :
    (Request.serveAll d requests).1 = (Request.applyAll v requests).1 ∧
      (Request.serveAll d requests).2.Encodes (Request.applyAll v requests).2 := by
  induction requests generalizing d v with
  | nil => exact ⟨rfl, h⟩
  | cons r rest ih =>
    obtain ⟨hgranted, hafter⟩ := h.serve r
    obtain ⟨hanswers, hlast⟩ := ih hafter
    refine ⟨?_, hlast⟩
    simp only [Request.serveAll, Request.applyAll, hgranted, hanswers]

theorem has (h : d.Encodes v) (f : PageTableEntry.Flag) (va : Nat) :
    d.has f va = (v (pageDown va)).any fun p => p.entry.has f := by
  have hentry : d.entry? va = (v (pageDown va)).map Mapping.entry := h.entries (pageDown va)
  rw [PageDirectory.has, hentry, Option.any_map]

theorem size (h : d.Encodes v) :
    ∃ pages : Finset Nat, (∀ a, a ∈ pages ↔ (v a).isSome) ∧ d.size = pages.card := by
  have hnodup : d.entries.keys.Nodup := Std.ExtTreeMap.nodup_keys
  refine ⟨d.entries.keys.toFinset, fun a => ?_, ?_⟩
  · rw [List.mem_toFinset, Std.ExtTreeMap.mem_keys, Std.ExtTreeMap.mem_iff_isSome_getElem?, h.entries,
      Option.isSome_map]
  · rw [List.toFinset_card_of_nodup hnodup, Std.ExtTreeMap.length_keys, PageDirectory.size]

theorem represents (h : d.Encodes v) : d.Represents v := by
  have hentry (va : Nat) : d.entry? va = (v (pageDown va)).map Mapping.entry := h.entries (pageDown va)
  refine ⟨?_, ?_, ?_, ?_, ?_, ?_, h.size⟩
  · intro va
    rw [frame?, hentry]
    cases hp : v (pageDown va) with
    | none => rfl
    | some p => exact congrArg some (h.frame_entry hp)
  · intro va
    rw [isWritable, h.has]
    simp [Mapping.entry, PageTableEntry.has_put]
  · intro va
    rw [isDirty, h.has]
    simp [Mapping.entry, PageTableEntry.has_put]
  · intro va
    rw [isAccessed, h.has]
    simp [Mapping.entry, PageTableEntry.has_put]
  · intro va
    rw [hentry]
    cases hp : v (pageDown va) with
    | none => rfl
    | some p => exact congrArg some (Mapping.ofEntry_entry (h.fits _ p hp))
  · intro va e he i hi
    rw [hentry] at he
    obtain ⟨p, hp, rfl⟩ := Option.map_eq_some_iff.mp he
    rw [Mapping.ofEntry_entry (h.fits _ p hp)]
    exact p.getLsbD_entry hi

end Encodes

end PageDirectory

open PageDirectory in
/-- Whatever is requested of an empty directory, it grants what a partial map that is empty at first
grants, and then it says and holds what that map says. -/
theorem directory_refines_mappings (requests : List Request) :
    (Request.serveAll {} requests).1 = (Request.applyAll (fun _ => none) requests).1 ∧
      (Request.serveAll {} requests).2.Represents (Request.applyAll (fun _ => none) requests).2 := by
  obtain ⟨hanswers, hencodes⟩ := Encodes.empty.serveAll requests
  exact ⟨hanswers, hencodes.represents⟩

end DemandPaging
