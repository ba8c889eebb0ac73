import Mathlib.Logic.Function.Basic
import DemandPaging.Machine.Fault
import DemandPaging.Machine.UserAccess

/-! # The memory of a machine

`Machine.memory` is the part of a machine that the theory of paging is about, with tables and
directories as functions of space and address. What a machine reports, where its search for frames
stands, and what its processes have besides memory are left out. Each operation on machines has one
equation that says what it does to the memory.
-/
namespace DemandPaging

variable {π : Type}

/-- `f` with `x` in the place of its value at `s` and `va`. -/
def setAt {α : Type} (f : Nat → Nat → α) (s va : Nat) (x : α) : Nat → Nat → α :=
  fun t a => if t = s ∧ a = va then x else f t a

section SetAt
variable {α : Type} {f : Nat → Nat → α} {s va : Nat} {x y : α}

theorem setAt_apply (t a : Nat) : setAt f s va x t a = if t = s ∧ a = va then x else f t a := rfl

@[simp] theorem setAt_self : setAt f s va x s va = x := if_pos ⟨rfl, rfl⟩

theorem setAt_of_ne {t a : Nat} (h : ¬(t = s ∧ a = va)) : setAt f s va x t a = f t a := if_neg h

@[simp] theorem setAt_setAt : setAt (setAt f s va x) s va y = setAt f s va y := by
  funext t a
  simp only [setAt]
  split <;> rfl

theorem setAt_eq_self (h : f s va = x) : setAt f s va x = f := by
  funext t a
  simp only [setAt]
  split
  · rename_i heq
    rw [heq.1, heq.2, h]
  · rfl

theorem setAt_comm {t a : Nat} (h : ¬(s = t ∧ va = a)) :
    setAt (setAt f s va x) t a y = setAt (setAt f t a y) s va x := by
  funext k b
  simp only [setAt]
  grind

end SetAt

@[ext] structure Memory (π : Type) where
  /-- Number of address spaces. -/
  spaces : Nat
  /-- Number of frames. -/
  size : Nat
  nextSerial : Nat
  /-- The spaces that grant every mapping. -/
  willing : Nat → Prop
  /-- The page of a space that is kept at an address. -/
  pages : Nat → Nat → Option Page
  entries : Nat → Nat → Option PageTableEntry
  frames : Nat → Frame
  policy : π
  swap : SwapSpace
  files : FileStore

namespace Memory

def setPage (v : Memory π) (s va : Nat) (p : Option Page) : Memory π :=
  { v with pages := setAt v.pages s va p }

def setEntry (v : Memory π) (s va : Nat) (e : Option PageTableEntry) : Memory π :=
  { v with entries := setAt v.entries s va e }

def setFrame (v : Memory π) (n : Nat) (f : Frame) : Memory π :=
  { v with frames := Function.update v.frames n f }

end Memory

/-- The entry that maps a page to frame `n`, when its entry so far was `old`. A page mapped to that
frame before keeps its dirty mark. -/
def PageTableEntry.remap (old : Option PageTableEntry) (n : Nat) (writable : Bool) :
    PageTableEntry :=
  let fresh := ofFrame (BitVec.ofNat 20 n) writable
  match old with
  | some e => if e.frame = n then fresh.put .dirty (e.has .dirty) else fresh
  | none => fresh

/-- The entry of a page after an access. -/
def PageTableEntry.touch (e : PageTableEntry) (record write : Bool) : PageTableEntry :=
  let e := if record then e.put .accessed true else e
  if write then e.put .dirty true else e

theorem PageDirectory.getElem?_mark {d : PageDirectory} {va : Nat} {e : PageTableEntry}
    (he : d.entry? va = some e) (f : PageTableEntry.Flag) (on : Bool) (a : Nat) :
    (d.mark f va on).entries[a]? = if a = pageDown va then some (e.put f on) else d.entries[a]? := by
  simp only [mark, he, Std.ExtTreeMap.getElem?_insert, Std.LawfulEqCmp.compare_eq_iff_eq,
    eq_comm (a := pageDown va)]

/-- Whether a space grants every mapping it is asked for. -/
def Space.Willing (s : Space) : Prop := ∀ asked granted, s.admission.admits asked granted = true

def Machine.memory (m : Machine π) : Memory π where
  spaces := m.spaces.size
  size := m.frames.size
  nextSerial := m.nextSerial
  willing s := (m.space s).Willing
  pages s va := (m.space s).pages[va]?
  entries s va := (m.space s).directory.entries[va]?
  frames := m.frames.frame
  policy := m.frames.policy
  swap := m.swap
  files := m.files

namespace Machine
variable {m : Machine π} {s va n : Nat}

theorem lt_frames {v : Memory π} (hm : m.memory = v) (h : n < v.size) : n < m.frames.size := by
  rw [← hm] at h
  exact h

theorem lt_spaces {v : Memory π} (hm : m.memory = v) (h : s < v.spaces) : s < m.spaces.size := by
  rw [← hm] at h
  exact h

theorem page?_eq : m.page? s va = m.memory.pages s (pageDown va) := rfl

theorem entry?_eq : PageDirectory.entry? (m.space s).directory va = m.memory.entries s (pageDown va) := rfl

theorem space_modifySpace (f : Space → Space) (t : Nat) :
    (m.modifySpace s f).space t = if t = s ∧ s < m.spaces.size then f (m.space s) else m.space t := by
  simp only [space, modifySpace, Array.getD_eq_getD_getElem?, Array.getElem?_modify]
  by_cases hts : t = s
  · subst hts
    by_cases hs : t < m.spaces.size <;> simp [hs]
  · rw [if_neg (by omega : ¬s = t), if_neg (by omega)]

theorem spaces_modifySpace (f : Space → Space) :
    (m.modifySpace s f).spaces.size = m.spaces.size := by
  simp [modifySpace]

@[simp] theorem spaces_putPage (p : Page) : (m.putPage s p).spaces.size = m.spaces.size :=
  spaces_modifySpace _

@[simp] theorem spaces_map (writable : Bool) : (m.map s va n writable).2.spaces.size = m.spaces.size :=
  spaces_modifySpace _

theorem frames_map (writable : Bool) : (m.map s va n writable).2.frames = m.frames := rfl

theorem space_eq_default (h : m.spaces.size ≤ s) : m.space s = default := by
  simp only [space, Array.getD_eq_getD_getElem?]
  rw [Array.getElem?_eq_none h]
  rfl

theorem memory_spaceless (h : m.spaces.size ≤ s) :
    m.memory.pages s va = none ∧ m.memory.entries s va = none := by
  simp only [memory, space_eq_default h]
  exact ⟨Std.ExtTreeMap.getElem?_empty, Std.ExtTreeMap.getElem?_empty⟩

theorem memory_modifySpace {f : Space → Space} (hw : (f (m.space s)).Willing ↔ (m.space s).Willing) :
    (m.modifySpace s f).memory =
      { m.memory with
        pages := fun t a => if t = s ∧ s < m.spaces.size then (f (m.space s)).pages[a]?
          else m.memory.pages t a
        entries := fun t a => if t = s ∧ s < m.spaces.size
          then (f (m.space s)).directory.entries[a]? else m.memory.entries t a } := by
  refine Memory.ext (spaces_modifySpace f) rfl rfl ?_ ?_ ?_ rfl rfl rfl rfl
  · funext t
    simp only [memory, space_modifySpace]
    split
    · rename_i h
      rw [h.1]
      exact propext hw
    · rfl
  · funext t a
    simp only [memory, space_modifySpace]
    split <;> rfl
  · funext t a
    simp only [memory, space_modifySpace]
    split <;> rfl

/-- A change of one space, from what it does to the tables. -/
theorem memory_modifySpace_eq {f : Space → Space} {pages : Nat → Nat → Option Page}
    {entries : Nat → Nat → Option PageTableEntry}
    (hw : (f (m.space s)).Willing ↔ (m.space s).Willing)
    (hp : ∀ t a, (if t = s ∧ s < m.spaces.size then (f (m.space s)).pages[a]?
      else m.memory.pages t a) = pages t a)
    (he : ∀ t a, (if t = s ∧ s < m.spaces.size then (f (m.space s)).directory.entries[a]?
      else m.memory.entries t a) = entries t a) :
    (m.modifySpace s f).memory = { m.memory with pages, entries } := by
  rw [memory_modifySpace hw]
  exact Memory.ext rfl rfl rfl rfl (funext fun t => funext (hp t)) (funext fun t => funext (he t))
    rfl rfl rfl rfl

/-- A space that differs from what it was in nothing that the memory shows. -/
theorem memory_modifySpace_self {f : Space → Space}
    (hw : (f (m.space s)).Willing ↔ (m.space s).Willing) (hp : (f (m.space s)).pages = (m.space s).pages)
    (hd : (f (m.space s)).directory = (m.space s).directory) : (m.modifySpace s f).memory = m.memory := by
  refine memory_modifySpace_eq hw ?_ ?_ <;> intro t a <;> split
  · rename_i h
    rw [h.1, hp]
  · rfl
  · rename_i h
    rw [h.1, hd]
  · rfl

@[simp] theorem memory_report (e : Event) : (m.report e).memory = m.memory := rfl

/-- What a process has besides its memory is not part of the memory. -/
@[simp] theorem memory_modifyProcess (f : Process → Process) :
    (m.modifyProcess s f).memory = m.memory :=
  memory_modifySpace_self Iff.rfl rfl rfl

theorem memory_putPage (hs : s < m.spaces.size) (p : Page) :
    (m.putPage s p).memory = m.memory.setPage s p.va (some p) := by
  refine memory_modifySpace_eq Iff.rfl ?_ ?_ <;> intro t a
  · simp only [Space.put, Std.ExtTreeMap.getElem?_insert, setAt, hs, and_true,
      Std.LawfulEqCmp.compare_eq_iff_eq, eq_comm (a := p.va)]
    by_cases ht : t = s
    · by_cases ha : a = p.va <;> simp [ht, ha, memory]
    · simp [ht]
  · simp only [memory, Space.put]
    split
    · rename_i h
      rw [h.1]
    · rfl

theorem memory_erase (s va : Nat) :
    (m.modifySpace s (·.erase va)).memory = m.memory.setPage s va none := by
  refine memory_modifySpace_eq Iff.rfl ?_ ?_ <;> intro t a
  · simp only [Space.erase, Std.ExtTreeMap.getElem?_erase, setAt,
      Std.LawfulEqCmp.compare_eq_iff_eq, eq_comm (a := va)]
    by_cases ht : t = s
    · subst ht
      by_cases hs : t < m.spaces.size
      · by_cases ha : a = va <;> simp [hs, ha, memory]
      · simp [hs, memory_spaceless (Nat.le_of_not_lt hs)]
    · simp [ht]
  · simp only [memory, Space.erase]
    split
    · rename_i h
      rw [h.1]
    · rfl

/-- A space whose directory alone changes, at the page of `va`. -/
theorem memory_directory {f : Space → Space} {va : Nat} {e : Option PageTableEntry}
    (hw : (f (m.space s)).Willing ↔ (m.space s).Willing) (hp : (f (m.space s)).pages = (m.space s).pages)
    (he : ∀ a, (f (m.space s)).directory.entries[a]? =
      if a = va then e else (m.space s).directory.entries[a]?)
    (hs : s < m.spaces.size ∨ e = none) :
    (m.modifySpace s f).memory = m.memory.setEntry s va e := by
  refine memory_modifySpace_eq hw ?_ ?_ <;> intro t a
  · simp only [hp, memory]
    split
    · rename_i h
      rw [h.1]
    · rfl
  · simp only [he, setAt]
    by_cases ht : t = s
    · subst ht
      by_cases hlt : t < m.spaces.size
      · by_cases ha : a = va <;> simp [hlt, ha, memory]
      · simp [hlt, memory_spaceless (Nat.le_of_not_lt hlt), hs.resolve_left hlt]
    · simp [ht]

theorem memory_unmap (s va : Nat) :
    (m.unmap s va).memory = m.memory.setEntry s (pageDown va) none := by
  refine memory_directory Iff.rfl rfl ?_ (.inr rfl)
  intro a
  simp only [Space.unmap, PageDirectory.unmap, Std.ExtTreeMap.getElem?_erase,
    Std.LawfulEqCmp.compare_eq_iff_eq, eq_comm (a := pageDown va)]

/-- Only a space of the machine has mappings. -/
theorem lt_of_entry {e : PageTableEntry} (he : m.memory.entries s va = some e) : s < m.spaces.size := by
  by_contra h
  rw [(memory_spaceless (Nat.le_of_not_lt h)).2] at he
  cases he

theorem memory_setDirty {e : PageTableEntry} (on : Bool)
    (he : m.memory.entries s (pageDown va) = some e) :
    (m.modifySpace s (·.setDirty va on)).memory =
      m.memory.setEntry s (pageDown va) (some (e.put .dirty on)) :=
  memory_directory Iff.rfl rfl (PageDirectory.getElem?_mark he .dirty on) (.inl (lt_of_entry he))

/-- Space `s` takes on a mapping, or refuses it, in which case it changes nothing. -/
theorem map_cases (hs : s < m.spaces.size) (va n : Nat) (writable : Bool) :
    ((m.map s va n writable).1 = true ∧ va < kernelBase ∧ n < PageTableEntry.frameLimit ∧
      (m.map s va n writable).2.memory = m.memory.setEntry s (pageDown va)
        (some (.remap (m.memory.entries s (pageDown va)) n writable))) ∨
    ((m.map s va n writable).1 = false ∧ (m.map s va n writable).2.memory = m.memory ∧
      ¬(m.memory.willing s ∧ va < kernelBase ∧ n < PageTableEntry.frameLimit)) := by
  simp only [map, Space.map]
  by_cases ha : (m.space s).admission.admits (m.space s).admission.asked
      (m.space s).admission.granted = true
  · rw [if_pos ha]
    cases hd : (m.space s).directory.map? va n writable with
    | none =>
      refine .inr ⟨rfl, memory_modifySpace_self Iff.rfl rfl rfl, ?_⟩
      rintro ⟨_, hva, hn⟩
      simp [PageDirectory.map?, PageTableEntry.frameField?, isUser, hva, hn] at hd
    | some directory =>
      have hva : va < kernelBase := by
        by_contra h
        simp [PageDirectory.map?, isUser, h] at hd
      have hn : n < PageTableEntry.frameLimit := by
        by_contra h
        simp [PageDirectory.map?, isUser, hva, PageTableEntry.frameField?, h] at hd
      refine .inl ⟨rfl, hva, hn, memory_directory Iff.rfl rfl ?_ (.inl hs)⟩
      intro a
      simp only [PageDirectory.map?, isUser, hva, decide_true, if_true, PageTableEntry.frameField?, hn,
        Option.map_some, Option.some.injEq] at hd
      subst hd
      simp only [Std.ExtTreeMap.getElem?_insert, Std.LawfulEqCmp.compare_eq_iff_eq,
        eq_comm (a := pageDown va)]
      rfl
  · rw [if_neg ha]
    exact .inr ⟨rfl, memory_modifySpace_self Iff.rfl rfl rfl, fun h => ha (h.1 _ _)⟩

/-- A mapped page that is used is marked so, as far as its space keeps marks. -/
theorem memory_touch {e : PageTableEntry} (write : Bool)
    (he : m.memory.entries s (pageDown va) = some e) :
    (m.touch s va write).memory = m.memory.setEntry s (pageDown va)
      (some (e.touch (m.space s).recordsAccess write)) := by
  refine memory_directory ?_ ?_ ?_ (.inl (lt_of_entry he))
  · cases hr : (m.space s).recordsAccess <;> cases write <;> simp [Space.recordAccess, hr] <;> rfl
  · cases hr : (m.space s).recordsAccess <;> cases write <;> simp [Space.recordAccess, hr] <;> rfl
  · intro a
    have he' : PageDirectory.entry? (m.space s).directory va = some e := he
    have hmark : PageDirectory.entry? ((m.space s).directory.mark .accessed va true) va = some (e.put .accessed true) := by
      simp only [PageDirectory.entry?, PageDirectory.getElem?_mark he', if_pos]
    cases hr : (m.space s).recordsAccess <;> cases write
    · simp only [Space.recordAccess, hr, PageTableEntry.touch, Bool.false_eq_true, if_false]
      split
      · rename_i h
        rw [h]
        exact he'
      · rfl
    · simp only [Space.recordAccess, hr, PageTableEntry.touch, Bool.false_eq_true, if_false, if_true]
      exact PageDirectory.getElem?_mark he' ..
    · simp only [Space.recordAccess, hr, PageTableEntry.touch, Bool.false_eq_true, if_false, if_true]
      exact PageDirectory.getElem?_mark he' ..
    · simp only [Space.recordAccess, hr, PageTableEntry.touch, if_true]
      refine (PageDirectory.getElem?_mark hmark ..).trans ?_
      split
      · rfl
      · rename_i h
        exact (PageDirectory.getElem?_mark he' ..).trans (if_neg h)

section Spaces

theorem memory_addSpace (space : Space) (hp : space.pages = ∅) (hd : space.directory = {}) :
    (m.addSpace space).memory =
      { m.memory with
        spaces := m.memory.spaces + 1
        willing := Function.update m.memory.willing m.memory.spaces space.Willing } := by
  have hspace : ∀ t, (m.addSpace space).space t =
      if t = m.spaces.size then space else m.space t := by
    intro t
    simp only [Machine.space, addSpace, Array.getD_eq_getD_getElem?, Array.getElem?_push]
    split <;> rfl
  refine Memory.ext (by simp [memory, addSpace]) rfl rfl ?_ ?_ ?_ rfl rfl rfl rfl
  · funext t
    simp only [memory, hspace, Function.update_apply]
    split <;> rfl
  · funext t a
    simp only [memory, hspace]
    split
    · rename_i h
      rw [h, hp, space_eq_default (Nat.le_refl _)]
      rfl
    · rfl
  · funext t a
    simp only [memory, hspace]
    split
    · rename_i h
      rw [h, hd, space_eq_default (Nat.le_refl _)]
      rfl
    · rfl

/-- Without its last space, which has neither pages nor mappings, a machine has the same memory. -/
theorem memory_dropSpace (hpos : 0 < m.spaces.size)
    (hp : ∀ a, m.memory.pages (m.spaces.size - 1) a = none)
    (he : ∀ a, m.memory.entries (m.spaces.size - 1) a = none) :
    ({ m with spaces := m.spaces.pop } : Machine π).memory =
      { m.memory with
        spaces := m.memory.spaces - 1
        willing := Function.update m.memory.willing (m.memory.spaces - 1) True } := by
  have hspace : ∀ t, ({ m with spaces := m.spaces.pop } : Machine π).space t =
      if t = m.spaces.size - 1 then default else m.space t := by
    intro t
    simp only [Machine.space, Array.getD_eq_getD_getElem?, Array.getElem?_pop]
    by_cases ht : t = m.spaces.size - 1
    · simp [ht]
    · by_cases hlt : t < m.spaces.size - 1
      · simp [ht, hlt]
      · simp [ht, hlt, Array.getElem?_eq_none (show m.spaces.size ≤ t by omega)]
  refine Memory.ext (by simp [memory]) rfl rfl ?_ ?_ ?_ rfl rfl rfl rfl
  · funext t
    simp only [memory, hspace, Function.update_apply]
    split
    · exact eq_true fun _ _ => rfl
    · rfl
  · funext t a
    simp only [memory, hspace]
    split
    · rename_i h
      rw [h]
      exact Std.ExtTreeMap.getElem?_empty.trans (hp a).symm
    · rfl
  · funext t a
    simp only [memory, hspace]
    split
    · rename_i h
      rw [h]
      exact Std.ExtTreeMap.getElem?_empty.trans (he a).symm
    · rfl

end Spaces

section Frames

theorem memory_modifyFrame (f : Frame → Frame) (hn : n < m.frames.size) :
    ({ m with frames := m.frames.modify n f } : Machine π).memory =
      m.memory.setFrame n (f (m.memory.frames n)) := by
  refine Memory.ext rfl (by simp [memory, Memory.setFrame, FrameTable.size, FrameTable.modify]) rfl rfl
    rfl rfl ?_ rfl rfl rfl
  funext k
  have hn' : n < m.frames.frames.size := hn
  simp only [memory, Memory.setFrame, FrameTable.frame, FrameTable.modify,
    Array.getD_eq_getD_getElem?, Array.getElem?_modify, Function.update_apply]
  by_cases h : k = n
  · simp [h, hn']
  · simp [h, Ne.symm h]

theorem memory_setContents (hn : n < m.frames.size) (c : PageBytes) :
    (m.setContents n c).memory = m.memory.setFrame n { m.memory.frames n with contents := c } :=
  memory_modifyFrame _ hn

theorem contents_eq : m.contents n = (m.memory.frames n).contents := rfl

theorem memory_install (hn : n < m.frames.size) (page s va : Nat) :
    (m.install n page s va).memory = m.memory.setFrame n
      { m.memory.frames n with
        owners := (m.memory.frames n).owners ++ [⟨page, s, va⟩]
        entry := (m.memory.frames n).entry.put .pinned false } := by
  have hsize : (m.frames.addOwner n ⟨page, s, va⟩).size = m.frames.size := by
    simp [FrameTable.size, FrameTable.addOwner, FrameTable.modify]
  have h1 := memory_modifyFrame (m := m) (fun f => { f with owners := f.owners ++ [⟨page, s, va⟩] }) hn
  have h2 := memory_modifyFrame (m := { m with frames := m.frames.addOwner n ⟨page, s, va⟩ })
    (fun f => { f with entry := f.entry.put .pinned false }) (hsize ▸ hn)
  refine h2.trans ?_
  rw [show ({ m with frames := m.frames.addOwner n ⟨page, s, va⟩ } : Machine π).memory = _ from h1]
  simp [Memory.setFrame]

variable [ReplacementPolicy π]

theorem memory_occupy (hn : n < m.frames.size) :
    ({ m with frames := m.frames.occupy n } : Machine π).memory =
      { m.memory.setFrame n
          { m.memory.frames n with
            entry := (CoreMapEntry.free.put .allocated true).put .pinned true
            refcount := 1
            contents := zeroPage } with
        policy := ReplacementPolicy.insert m.memory.policy n } := by
  have h := memory_modifyFrame (m := m) (fun f =>
    { f with
      entry := (CoreMapEntry.free.put .allocated true).put .pinned true
      refcount := 1
      contents := zeroPage }) hn
  exact congrArg (fun v => { v with policy := ReplacementPolicy.insert m.memory.policy n }) h

theorem memory_vacate (hn : n < m.frames.size) :
    ({ m with frames := m.frames.vacate n } : Machine π).memory =
      { m.memory.setFrame n { m.memory.frames n with entry := .free, owners := [] } with
        policy := ReplacementPolicy.remove m.memory.policy n } := by
  have h := memory_modifyFrame (m := m) (fun f => { f with entry := .free, owners := [] }) hn
  exact congrArg (fun v => { v with policy := ReplacementPolicy.remove m.memory.policy n }) h

end Frames

end Machine

namespace Memory
variable [ReplacementPolicy π]

/-- One reference to frame `n` less. The last one frees the frame. -/
def put (v : Memory π) (n : Nat) : Memory π :=
  let f := v.frames n
  { v.setFrame n (if f.refcount = 1 then { f with entry := .free, refcount := 0, owners := [] }
      else { f with refcount := wordPred f.refcount }) with
    policy := if f.refcount = 1 then ReplacementPolicy.remove v.policy n else v.policy }

/-- Frame `n` without its owner at `va` in space `s`, and with one reference less. -/
def release (v : Memory π) (n s va : Nat) : Memory π :=
  (v.setFrame n { v.frames n with
    owners := (v.frames n).owners.filter fun o => !(o.va == va && o.space == s) }).put n

end Memory

namespace Machine
variable [ReplacementPolicy π] {m : Machine π} {n : Nat}

theorem memory_abandon (hn : n < m.frames.size) : (m.abandon n).memory = m.memory.put n := by
  simp only [abandon, releaseFrame, FrameTable.put, Memory.put]
  have hf : m.memory.frames n = m.frames.frame n := rfl
  by_cases h : (m.frames.frame n).refcount = 1
  · simp only [hf, h, if_true, memory_report]
    have hsize : (m.frames.modify n fun f => { f with refcount := wordPred f.refcount }).size =
        m.frames.size := by
      simp [FrameTable.size, FrameTable.modify]
    have h1 := memory_modifyFrame (m := m) (fun f => { f with refcount := wordPred f.refcount }) hn
    have h2 := memory_vacate
      (m := { m with frames := m.frames.modify n fun f => { f with refcount := wordPred f.refcount } })
      (hsize ▸ hn)
    refine h2.trans ?_
    rw [show ({ m with frames := m.frames.modify n fun f => { f with refcount := wordPred f.refcount } } :
      Machine π).memory = _ from h1]
    simp [Memory.setFrame, hf, h, wordPred]
  · simp only [hf, h, if_false]
    exact memory_modifyFrame _ hn

theorem memory_release (hn : n < m.frames.size) (s va : Nat) :
    (m.release n s va).memory = m.memory.release n s va := by
  have hsize : (m.frames.dropOwner n s va).size = m.frames.size := by
    simp [FrameTable.size, FrameTable.dropOwner, FrameTable.modify]
  have h := memory_abandon (m := { m with frames := m.frames.dropOwner n s va }) (hsize ▸ hn)
  refine h.trans ?_
  rw [show ({ m with frames := m.frames.dropOwner n s va } : Machine π).memory = _ from
    memory_modifyFrame (m := m) _ hn]
  rfl

end Machine

end DemandPaging
