import DemandPaging.Proofs.Contents
import DemandPaging.Proofs.FlatMemory

/-! # How changes show in flat memory

Cell by cell, what the pages of a view show, and what each kind of change does to it. A page that is
added fills cells where there were none, one that is taken away leaves none, a copy brings the cells
of another row, and a write reaches the cells that it is meant for.
-/
namespace DemandPaging
open Memory (Change)

/-- What a page shows at an address on it. -/
def cellOf : Option (Option PageBytes) → Nat → Cell
  | none, _ => .absent
  | some none, _ => .file
  | some (some c), a => .byte (c.toList.getD (pageOffset a) 0)

def View.flat (f : View) : Flat := fun s a => cellOf (f s (pageDown a)) a

def Machine.flat {π : Type} (m : Machine π) : Flat := m.memory.view.flat

theorem pageDown_add {addr i : Nat} (h : i < pageSize - pageOffset addr) :
    pageDown (addr + i) = pageDown addr := by
  simp only [pageDown, pageOffset, pageSize] at h ⊢
  omega

theorem pageOffset_add {addr i : Nat} (h : i < pageSize - pageOffset addr) :
    pageOffset (addr + i) = pageOffset addr + i := by
  simp only [pageOffset, pageSize] at h ⊢
  omega

section Bytes
variable {files : FileStore} {file a : Nat}

theorem getD_overwrite (c : PageBytes) {start : Nat} {bytes : List UInt8}
    (h : start + bytes.length ≤ 4096) (i : Nat) :
    (overwrite c start bytes).toList.getD i 0 =
      if start ≤ i ∧ i < start + bytes.length then bytes.getD (i - start) 0 else c.toList.getD i 0 := by
  have hfit : bytes.length ≤ c.toList.length - start := by
    rw [Vector.length_toList]
    omega
  rw [toList_overwrite, List.take_of_length_le (by omega), List.getD_eq_getElem?_getD,
    getElem?_splice _ _ _ hfit]
  split <;> rw [List.getD_eq_getElem?_getD]

theorem getD_zeroPage (i : Nat) : zeroPage.toList.getD i 0 = 0 := by
  rw [zeroPage, Vector.toList_replicate, List.getD_eq_getElem?_getD, List.getElem?_replicate]
  split <;> rfl

theorem getD_slice (l : List UInt8) (start count i : Nat) :
    (slice l start count).getD i 0 = if i < count then l.getD (start + i) 0 else 0 := by
  rw [slice, List.getD_eq_getElem?_getD, List.getElem?_take, List.getD_eq_getElem?_getD]
  split
  · rw [List.getElem?_drop]
  · rfl

theorem Source.getD_image (source : Source) (files : FileStore) (i : Nat) :
    (source.image files).toList.getD i 0 = source.byteAt files i := by
  unfold image byteAt
  cases source.file with
  | none => rw [getD_overwrite _ (by simp), if_neg (by simp), getD_zeroPage]
  | some file =>
    have hlength : (slice (files.node file).contents source.offset source.readBytes).length ≤ 4096 :=
      Nat.le_trans (List.length_take_le ..) source.readBytes_le
    rw [getD_overwrite _ (by rwa [Nat.zero_add])]
    dsimp only
    rw [← getD_slice]
    split
    · rfl
    · rename_i hout
      rw [getD_zeroPage, List.getD_eq_getElem?_getD, List.getElem?_eq_none (by omega)]
      rfl

theorem cellOf_initial (backing : Backing) (files : FileStore) (a : Nat) :
    cellOf (some (backing.initial files)) a = backing.cellAt files a := by
  cases backing with
  | uninit target source =>
    cases target with
    | anonymous => exact congrArg Cell.byte (source.getD_image files _)
    | file => rfl
  | anonymous => exact congrArg Cell.byte (getD_zeroPage _)
  | fileBacked => rfl

/-- The pages of a segment hold what the segment has at their addresses. -/
theorem SegmentPlan.byteAt_source {plan : SegmentPlan} {k : Nat}
    (ha : pageDown a = plan.va + k * pageSize) :
    (plan.source file k).byteAt files (pageOffset a) = plan.byteAt (files.node file).contents a := by
  have hlt := pageOffset_lt a
  have hdown := pageDown_add_pageOffset a
  simp only [pageSize] at ha hlt
  have hoffset : a - plan.va = k * 4096 + pageOffset a := by omega
  unfold SegmentPlan.source segmentSource byteAt
  rw [hoffset]
  split
  · rename_i hnone
    simp only [pageSize] at hnone
    rw [if_neg (by omega)]
    rfl
  · rename_i hsome
    simp only [pageSize] at hsome
    simp only [Source.byteAt, pageSize]
    refine if_congr (by omega) ?_ rfl
    congr 1
    omega

/-- What an address on a page of a program shows before anybody uses the page. -/
theorem Page.OfProgram.cellAt {file : Nat} {bytes : List UInt8} {files : FileStore} {page : Page}
    (h : page.OfProgram file (SegmentPlan.OfImage bytes)) (hbytes : (files.node file).contents = bytes)
    {a : Nat} (ha : pageDown a = page.va) :
    OnFirstStackPage a ∧ page.backing.cellAt files a = .byte 0 ∨
      ∃ plan : SegmentPlan, plan.OfImage bytes ∧ plan.Covers a ∧
        page.backing.cellAt files a = .byte (plan.byteAt bytes a) := by
  have hlt := pageOffset_lt a
  have hdown := pageDown_add_pageOffset a
  cases h with
  | stack hva hb =>
    rw [hb]
    refine .inl ⟨?_, rfl⟩
    simp only [OnFirstStackPage, stackTop, kernelBase, pageSize] at hva hlt ⊢
    omega
  | @segment plan k hp hk hva hb =>
    refine .inr ⟨plan, hp, ?_, ?_⟩
    · obtain ⟨image, rest, -, p, -, -, hok, rfl⟩ := hp
      obtain ⟨hsize, -, -, -⟩ := p.plan_of_accepted hok
      simp only [SegmentPlan.Covers, pageSize] at hsize hk hva hlt ⊢
      omega
    · rw [hb, ← hbytes]
      exact congrArg Cell.byte (SegmentPlan.byteAt_source (ha.trans hva))

end Bytes

namespace View
variable {f g : View} {files : FileStore} {cs : List Change} {s t a va : Nat}
  {x : Option (Option PageBytes)}

theorem flat_setAt : (View.flat (setAt f s va x)) t a =
    if t = s ∧ pageDown a = va then cellOf x a else f.flat t a := by
  rw [flat, setAt_apply]
  split <;> rfl

theorem flat_of_none (h : f s (pageDown a) = none) : f.flat s a = .absent := by
  rw [flat, h]
  rfl

theorem flat_of_file (h : f s (pageDown a) = some none) : f.flat s a = .file := by
  rw [flat, h]
  rfl

theorem flat_eq_absent_iff : f.flat s a = .absent ↔ f s (pageDown a) = none := by
  refine ⟨fun h => ?_, flat_of_none⟩
  rw [flat] at h
  cases hpage : f s (pageDown a) with
  | none => rfl
  | some contents =>
    rw [hpage] at h
    cases contents <;> cases h

theorem flat_eq_file_iff : f.flat s a = .file ↔ f s (pageDown a) = some none := by
  refine ⟨fun h => ?_, flat_of_file⟩
  rw [flat] at h
  cases hpage : f s (pageDown a) with
  | none =>
    rw [hpage] at h
    cases h
  | some contents =>
    rw [hpage] at h
    cases contents with
    | none => rfl
    | some c => cases h

theorem paged_flat (f : View) : f.flat.Paged := by
  intro s a b hab
  rw [flat_eq_absent_iff, flat_eq_absent_iff, hab]

theorem adds_setAt {new : Nat → Cell → Prop} (hnone : f s va = none)
    (hnew : ∀ a, pageDown a = va → new a (cellOf x a)) :
    Flat.Adds s new f.flat (View.flat (setAt f s va x)) := by
  intro t a
  rw [flat_setAt]
  split
  · rename_i hat
    rw [hat.1]
    exact .inr ⟨rfl, flat_of_none (by rw [hat.2, hnone]), hnew a hat.2⟩
  · exact .inl rfl

/-- Pages that are added fill cells where there were none. -/
theorem Follows.adds {new : Nat → Cell → Prop} (h : Follows files cs f g)
    (hcs : ∀ c ∈ cs, ∃ page, c = .insert s page ∧
      ∀ a, pageDown a = page.va → new a (page.backing.cellAt files a)) :
    Flat.Adds s new f.flat g.flat := by
  induction cs generalizing f with
  | nil =>
    rw [show g = f from h]
    exact Flat.Adds.refl s new _
  | cons c cs ih =>
    obtain ⟨hpossible, hrest⟩ := h
    obtain ⟨⟨page, rfl, hnew⟩, hlater⟩ := List.forall_mem_cons.mp hcs
    refine Flat.Adds.trans (adds_setAt hpossible fun a ha => ?_) (ih hrest hlater)
    rw [cellOf_initial]
    exact hnew a ha

/-- Pages that are added are there where nothing was, and nothing else has changed. -/
theorem Follows.inserted {pages : List Page} (h : Follows files (pages.map (.insert s)) f g) :
    (∀ p ∈ pages, f s p.va = none ∧ g s p.va = some (p.backing.initial files)) ∧
      ∀ t va, (t = s → ∀ p ∈ pages, p.va ≠ va) → g t va = f t va := by
  induction pages generalizing f with
  | nil =>
    rw [show g = f from h]
    exact ⟨List.forall_mem_nil _, fun _ _ _ => rfl⟩
  | cons p pages ih =>
    obtain ⟨hnone, hrest⟩ := h
    obtain ⟨hin, hout⟩ := ih hrest
    have hat : (f.after files (.insert s p)) s p.va = some (p.backing.initial files) := setAt_self
    have hne {t va : Nat} (h : ¬(t = s ∧ va = p.va)) : (f.after files (.insert s p)) t va = f t va :=
      setAt_of_ne h
    -- What comes later finds the first page there, so it is elsewhere.
    have hother : ∀ q ∈ pages, q.va ≠ p.va := by
      intro q hq heq
      cases hat.symm.trans (heq ▸ (hin q hq).1)
    refine ⟨List.forall_mem_cons.mpr ⟨⟨hnone, ?_⟩, fun q hq => ?_⟩, fun t va hva => ?_⟩
    · rw [hout s p.va fun _ => hother, hat]
    · obtain ⟨habsent, hthere⟩ := hin q hq
      exact ⟨hne (fun h => hother q hq h.2) ▸ habsent, hthere⟩
    · rw [hout t va fun ht q hq => hva ht q (List.mem_cons_of_mem _ hq)]
      exact hne fun h => hva h.1 p (List.mem_cons_self ..) h.2.symm

/-- Pages that are taken away leave no cells. -/
theorem Follows.drops {pages : List Page} (h : Follows files (pages.map (.remove s)) f g) (t va : Nat) :
    g t va = f t va ∨ g t va = none := by
  induction pages generalizing f with
  | nil => exact .inl (congrFun (congrFun (show g = f from h) t) va)
  | cons p pages ih =>
    obtain ⟨-, hrest⟩ := h
    rcases ih hrest with heq | hnone
    · rw [heq, View.after, setAt_apply]
      split
      · exact .inr rfl
      · exact .inl rfl
    · exact .inr hnone

/-- Copied pages show what their originals do. -/
theorem Follows.copies {src dst : Nat} {pages : List Page}
    (h : Follows files (pages.map (.copy src dst)) f g) (t va : Nat) :
    (t = dst ∧ (∃ p ∈ pages, p.va = va) → f dst va = none ∧ g t va = f src va) ∧
      (¬(t = dst ∧ ∃ p ∈ pages, p.va = va) → g t va = f t va) := by
  induction pages generalizing f with
  | nil =>
    rw [show g = f from h]
    simp
  | cons p pages ih =>
    obtain ⟨⟨hnone, hsome⟩, hrest⟩ := h
    obtain ⟨hin, hout⟩ := ih hrest
    -- Nothing is copied onto itself.
    have hne : src ≠ dst := by
      rintro rfl
      rw [hnone] at hsome
      cases hsome
    have hsrc : f.after files (.copy src dst p) src va = f src va := setAt_of_ne (by simp [hne])
    rw [hsrc] at hin
    simp only [View.after, setAt_apply, true_and] at hin hout
    simp only [List.mem_cons, exists_eq_or_imp]
    by_cases hva : va = p.va
    · subst hva
      refine ⟨fun hat => ⟨hnone, ?_⟩, fun hat => ?_⟩
      · by_cases hlater : ∃ q ∈ pages, q.va = p.va
        · exact (hin ⟨hat.1, hlater⟩).2
        · rw [hout fun hboth => hlater hboth.2, if_pos ⟨hat.1, rfl⟩]
      · rw [hout fun hboth => hat ⟨hboth.1, .inr hboth.2⟩, if_neg fun hboth => hat ⟨hboth.1, .inl rfl⟩]
    · simp only [hva, Ne.symm hva, and_false, if_false, false_or] at hin hout ⊢
      exact ⟨hin, hout⟩

theorem Follows.adds_copied {src dst : Nat} {pages : List Page}
    (h : Follows files (pages.map (.copy src dst)) f g) :
    Flat.Adds dst (fun a c => c = f.flat src a) f.flat g.flat := by
  intro t a
  obtain ⟨hin, hout⟩ := h.copies t (pageDown a)
  by_cases hat : t = dst ∧ ∃ p ∈ pages, p.va = pageDown a
  · obtain ⟨hnone, hsame⟩ := hin hat
    obtain ⟨rfl, -⟩ := hat
    exact .inr ⟨rfl, flat_of_none hnone, congrArg (cellOf · a) hsame⟩
  · exact .inl (congrArg (cellOf · a) (hout hat))

/-- The change is one of space `s`. -/
def Within (s : Nat) : Change → Prop
  | .insert t _ | .remove t _ | .copy _ t _ | .write t _ _ _ => t = s
  | .spawn _ | .drop => True

/-- Changes of one space do not show in others. -/
theorem Follows.elsewhere (h : Follows files cs f g) (hcs : ∀ c ∈ cs, Within s c) (ht : t ≠ s) :
    g t = f t := by
  induction cs generalizing f with
  | nil => exact congrFun h t
  | cons c cs ih =>
    obtain ⟨-, hrest⟩ := h
    obtain ⟨hc, hcs⟩ := List.forall_mem_cons.mp hcs
    rw [ih hrest hcs]
    have hne : ∀ va a : Nat, ¬(t = s ∧ a = va) := fun va a hat => ht hat.1
    funext a
    cases c with
    | insert | remove | copy | write =>
      obtain rfl := hc
      exact setAt_of_ne (hne _ a)
    | spawn | drop => rfl

end View

/-- What grows is a zeroed page of the stack. -/
theorem Grown.adds {s va : Nat} {cs : List Change} {f g : View} {files : FileStore}
    (h : Grown s va cs) (hf : View.Follows files cs f g) :
    Flat.Adds s (fun a c => pageDown a = va ∧ StackPage (pageDown a) ∧ c = .byte 0) f.flat g.flat := by
  apply hf.adds
  cases h with
  | same => exact List.forall_mem_nil _
  | added serial hva =>
    refine List.forall_mem_singleton.mpr ⟨_, rfl, fun a ha => ?_⟩
    have ha : pageDown a = va := ha
    exact ⟨ha, ha ▸ hva, rfl⟩

/-- A mapping that is laid out shows from its first byte to its last, where nothing was before. -/
theorem LaidOut.shows {s file length va offset count : Nat} {writable : Bool} {cs : List Change}
    {f g : View} {files : FileStore} (h : LaidOut s file length writable va offset count cs)
    (hva : va % pageSize = 0) (hf : View.Follows files cs f g) :
    (∀ a, va ≤ a → a < va + count * pageSize → f.flat s a = .absent) ∧
      g.flat = f.flat.setRange s va (va + count * pageSize) .file := by
  induction h generalizing f with
  | nil =>
    rw [show g = f from hf]
    refine ⟨fun a hle hlt => by omega, ?_⟩
    funext t a
    exact (if_neg fun hat => by omega).symm
  | @cons va offset count cs serial _ _ ih =>
    obtain ⟨hnone, hrest⟩ := hf
    have hnext : (va + pageSize) % pageSize = 0 := by rw [Nat.add_mod_right, hva]
    obtain ⟨habsent, hshows⟩ := ih hnext hrest
    have hstep (t a : Nat) : (View.flat (f.after files (.insert s (.ofFile serial va writable
        (mappingSource file offset length (decide (0 < count))))))) t a =
        if t = s ∧ pageDown a = va then .file else f.flat t a := View.flat_setAt
    have hpage (a : Nat) : pageDown a = va ↔ va ≤ a ∧ a < va + pageSize := by
      simp only [pageDown, pageSize] at hva ⊢
      omega
    have hstop : va + pageSize + count * pageSize = va + (count + 1) * pageSize := by
      rw [Nat.succ_mul]
      omega
    constructor
    · intro a hle hlt
      by_cases ha : pageDown a = va
      · exact View.flat_of_none (ha ▸ hnone)
      · have hbeyond := habsent a (by rw [hpage] at ha; omega) (by omega)
        rwa [hstep, if_neg fun hat => ha hat.2] at hbeyond
    · rw [hshows, hstop]
      funext t a
      simp only [Flat.setRange, hstep, hpage, Nat.succ_mul]
      grind

theorem Undone.follows_eq {s va : Nat} {cs : List Change} {f g : View} {files : FileStore}
    (h : Undone s va cs) (hf : View.Follows files cs f g) : g = f := by
  cases h with
  | same => exact hf
  | removed serial page _ hva =>
    obtain ⟨hnone, -, rfl⟩ := hf
    simp only [View.after, hva]
    have hnone : f s va = none := hnone
    rw [show (Page.blank serial va true).va = va from rfl, setAt_setAt]
    exact setAt_eq_self hnone

section Chunks
variable {s addr : Nat} {chunk : List UInt8} {f g : View} {files : FileStore}

/-- A write to one page, which may have grown for it. -/
theorem writes_chunk {f₁ : View} (hpos : 0 < chunk.length)
    (hlen : chunk.length ≤ pageSize - pageOffset addr)
    (hgrown : Flat.Adds s
      (fun a c => pageDown a = pageDown addr ∧ StackPage (pageDown a) ∧ c = .byte 0) f.flat f₁.flat)
    (hpossible : (f₁ s (pageDown addr)).isSome) :
    Flat.Writes s addr chunk f.flat
      (View.flat (f₁.after files (.write s (pageDown addr) (pageOffset addr) chunk))) := by
  have hoff := pageOffset_lt addr
  have hfit : pageOffset addr + chunk.length ≤ 4096 := by
    simp only [pageSize] at hlen hoff
    omega
  constructor
  · intro i b hb
    have hi : i < chunk.length := (List.getElem?_eq_some_iff.mp hb).1
    have hin : i < pageSize - pageOffset addr := Nat.lt_of_lt_of_le hi hlen
    simp only [View.after, View.flat_setAt, pageDown_add hin, and_self, if_true]
    cases hpage : f₁ s (pageDown addr) with
    | none =>
      rw [hpage] at hpossible
      cases hpossible
    | some contents =>
      cases contents with
      | none =>
        refine .inr ⟨?_, rfl⟩
        have hfile : f₁.flat s (addr + i) = .file := View.flat_of_file (by rw [pageDown_add hin, hpage])
        rcases hgrown s (addr + i) with heq | ⟨-, -, -, -, hzero⟩
        · exact heq ▸ hfile
        · rw [hzero] at hfile
          cases hfile
      | some c =>
        refine .inl (congrArg Cell.byte ?_)
        rw [getD_overwrite c hfit, pageOffset_add hin, if_pos ⟨Nat.le_add_right .., by omega⟩,
          Nat.add_sub_cancel_left, List.getD_eq_getElem?_getD, hb]
        rfl
  · intro t a hout
    have hsame : View.flat (f₁.after files (.write s (pageDown addr) (pageOffset addr) chunk)) t a =
        f₁.flat t a := by
      simp only [View.after, View.flat_setAt]
      split
      · rename_i hat
        obtain ⟨rfl, ha⟩ := hat
        rw [View.flat, ha]
        cases f₁ t (pageDown addr) with
        | none => rfl
        | some contents =>
          cases contents with
          | none => rfl
          | some c =>
            refine congrArg Cell.byte ?_
            rw [getD_overwrite c hfit, if_neg]
            -- An address that is written to is one of the chunk.
            rintro ⟨hle, hlt⟩
            have hdown := pageDown_add_pageOffset a
            have hdown' := pageDown_add_pageOffset addr
            exact hout rfl (pageOffset a - pageOffset addr) (by omega) (by omega)
      · rfl
    rw [hsame]
    rcases hgrown t a with heq | ⟨ht, habsent, ha, hnew⟩
    · exact .inl heq
    · exact .inr ⟨ht, habsent, ⟨0, hpos, ha⟩, hnew⟩

theorem Written.writes {bytes : List UInt8} {cs : List Change} (h : Written s addr bytes cs)
    (hf : View.Follows files cs f g) : Flat.Writes s addr bytes f.flat g.flat := by
  induction h generalizing f with
  | nil =>
    rw [show g = f from hf]
    exact ⟨(by simp), fun _ _ _ => .inl rfl⟩
  | chunk hcs hpos hlen hw ih =>
    obtain ⟨f₁, hgrown, hpossible, hrest⟩ := View.follows_append.mp hf
    exact (writes_chunk hpos hlen (hcs.adds hgrown) hpossible).append (ih hrest)

end Chunks

end DemandPaging
