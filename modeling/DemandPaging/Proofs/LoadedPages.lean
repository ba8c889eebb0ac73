import DemandPaging.Proofs.Segments

/-! # What loading adds

Where it succeeds, loading adds the pages of all segments, and one page for the stack. Once they have
their serials these are the pages of the image, each of them in user memory.
-/
namespace DemandPaging
open Memory (Change)

/-- The page before it has its serial. -/
def Page.unnumbered (page : Page) : Page := { page with serial := 0 }

/-- The pages of a program, before they have their serials: those of its segments one after the other,
and one of the stack. -/
def Image.pages (image : Image) (file : Nat) : List Page :=
  image.segments.flatMap (·.pages file) ++ [.blank 0 (stackTop - pageSize) true]

variable {π : Type} [ReplacementPolicy π]

section Loading
variable {m : Machine π} {s file : Nat}

/-- These pages are added to a table, but for their serials. -/
def Memory.Adds (s : Nat) (pages : List Page) (v w : Memory π) : Prop :=
  ∃ added : List Page, added.map Page.unnumbered = pages ∧ Memory.Quiet (added.map (.insert s)) v w

namespace Memory.Adds
variable {u v w : Memory π} {pages pages' : List Page} {page : Page}

theorem of_rests (h : Memory.Rests v w) : Memory.Adds s [] v w := ⟨[], rfl, h⟩

theorem insert (h : Memory.Quiet [.insert s page] v w) : Memory.Adds s [page.unnumbered] v w :=
  ⟨[page], rfl, h⟩

theorem trans (h : Memory.Adds s pages u v) (h' : Memory.Adds s pages' v w) :
    Memory.Adds s (pages ++ pages') u w := by
  obtain ⟨added, rfl, hquiet⟩ := h
  obtain ⟨added', rfl, hquiet'⟩ := h'
  refine ⟨added ++ added', List.map_append .., ?_⟩
  rw [List.map_append]
  exact hquiet.trans hquiet'

theorem rests (h : Memory.Adds s pages u v) (h' : Memory.Rests v w) : Memory.Adds s pages u w := by
  have := h.trans (of_rests h')
  rwa [List.append_nil] at this

theorem spaces_eq (h : Memory.Adds s pages v w) : w.spaces = v.spaces := by
  obtain ⟨added, -, hquiet⟩ := h
  exact hquiet.spaces_eq (List.forall_mem_map.mpr fun _ _ => trivial)

theorem valid (h : Memory.Adds s pages v w) (hv : v.Valid) : w.Valid := by
  obtain ⟨added, -, hquiet⟩ := h
  exact hv.course hquiet

end Memory.Adds

/-- Where it succeeds, a segment is added whole. -/
theorem addSegmentPages_adds {plan : SegmentPlan} {writable : Bool} {offset va available k count : Nat}
    (hs : s < m.spaces.size) (hva : plan.va % pageSize = 0)
    (ho : offset = plan.fileOffset + min (k * pageSize) plan.readBytes)
    (hv : va = plan.va + k * pageSize) (ha : available = plan.readBytes - k * pageSize) :
    Attempt.Ends True (addSegmentPages s file writable offset va available count) m
      (fun _ after => m.memory.Adds s ((List.range' k count).map fun i =>
        { serial := 0, va := plan.va + i * pageSize, writable
          backing := .uninit .anonymous (plan.source file i) }) after.memory)
      fun _ _ => True := by
  induction count generalizing m k offset va available with
  | zero => exact .of_rests (.refl _)
  | succ count ih =>
    have hread : (segmentSource file offset available).readBytes = min available pageSize :=
      segmentSource_readBytes ..
    simp only [pageSize] at hva ho hv ha hread
    simp only [addSegmentPages, Attempt.ends_bind, Attempt.ends_modify, Attempt.ends_lift,
      Attempt.ends_ite, Attempt.ends_throw]
    refine ((insertPage_ends (v := m.memory) (.uninit .anonymous _)
      (Machine.lt_spaces (Machine.memory_retainSource _) hs) (by simp only [pageSize]; omega)
      (Machine.memory_retainSource _)).weaken False.elim).imp ?_
    rintro answer m₁ (⟨rfl, -, -⟩ | ⟨rfl, hinserted⟩)
    · exact ⟨(by simp), fun _ => trivial⟩
    refine ⟨fun _ => ⟨fun _ => ?_, fun _ => trivial⟩, fun hnot => absurd rfl hnot⟩
    have hinsert := Memory.Adds.insert (.of_change hinserted trivial)
    have hs₁ : s < m₁.spaces.size := Nat.lt_of_lt_of_eq hs hinsert.spaces_eq.symm
    rw [hread, List.range'_succ, List.map_cons]
    refine (ih (k := k + 1) hs₁ ?_ ?_ ?_).imp (fun _ _ hrest => ?_) fun _ _ _ => trivial
    · simp only [pageSize]
      omega
    · simp only [pageSize]
      omega
    · simp only [pageSize]
      omega
    · subst ho hv ha
      exact hinsert.trans hrest

theorem addSegment_adds {p : ProgramHeader} (hs : s < m.spaces.size) :
    Attempt.Ends True (addSegment s file p.plan p.writable) m
      (fun _ after => m.memory.Adds s (p.pages file) after.memory) fun _ _ => True := by
  simp only [addSegment, Attempt.ends_bind, Attempt.ends_ite]
  refine ⟨fun _ => ⟨fun _ => ?_, fun _ => trivial⟩, fun _ => trivial⟩
  rw [ProgramHeader.pages, List.range_eq_range']
  exact addSegmentPages_adds (k := 0) hs (ProgramHeader.Accepted.start_mod p) (by simp) (by simp) (by simp)

/-- Where it succeeds, every segment that is to be loaded is accepted and added. -/
theorem addSegments_adds {fileLength : Nat} {headers : List ProgramHeader} (hs : s < m.spaces.size) :
    Attempt.Ends True (addSegments s file fileLength headers) m
      (fun _ after => (∀ p ∈ headers.filter (·.kind = .load), p.Accepted fileLength) ∧
        m.memory.Adds s ((headers.filter (·.kind = .load)).flatMap (·.pages file)) after.memory)
      fun _ _ => True := by
  induction headers generalizing m with
  | nil => exact ⟨List.forall_mem_nil _, .of_rests (.refl _)⟩
  | cons p rest ih =>
    simp only [addSegments, Attempt.ends_ite]
    refine ⟨fun hkind => ?_, fun hkind => ?_⟩
    · split
      · trivial
      · rename_i hp
        simp only [Attempt.ends_bind, Attempt.ends_adapt, Attempt.ends_modify]
        refine (addSegment_adds hs).imp ?_ fun _ _ _ => trivial
        intro _ m₁ hadds
        have hs₁ : s < m₁.spaces.size := Nat.lt_of_lt_of_eq hs hadds.spaces_eq.symm
        refine (ih (m := m₁.report _) hs₁).imp ?_ fun _ _ _ => trivial
        rintro _ after ⟨haccepted, hrest⟩
        rw [List.filter_cons_of_pos (by simpa using hkind), List.flatMap_cons]
        exact ⟨List.forall_mem_cons.mpr ⟨ProgramHeader.accepted_of_objection hp, haccepted⟩,
          hadds.trans hrest⟩
    · rw [List.filter_cons_of_neg (by simpa using hkind)]
      exact ih hs

theorem addStack_adds (h : m.memory.Valid) (hs : s < m.spaces.size) :
    Attempt.Ends True (addStack s) m
      (fun esp after => esp = stackTop ∧
        m.memory.Adds s [.blank 0 (stackTop - pageSize) true] after.memory) fun _ _ => True := by
  simp only [addStack, Attempt.ends_bind, Attempt.ends_lift, Attempt.ends_ite, Attempt.ends_throw,
    Attempt.ends_pure]
  refine ((insertAnonymous_ends hs (by decide)).weaken False.elim).imp ?_
  rintro answer m₁ (⟨rfl, -, -⟩ | ⟨rfl, ha⟩)
  · exact ⟨(by simp), fun _ => trivial⟩
  refine ⟨fun _ => ?_, fun hnot => absurd rfl hnot⟩
  have hinsert := Memory.Adds.insert (.of_change ha trivial)
  refine ((claim_ends (hinsert.valid h) _).weaken False.elim).imp ?_ fun _ _ _ => trivial
  rintro _ after ⟨_, -, hrests, -⟩
  exact ⟨trivial, hinsert.rests hrests⟩

/-- What loading an image from a file comes to. -/
structure Image.Loads (image : Image) (s file : Nat) (v w : Memory π) : Prop where
  accepted : ∀ p ∈ image.segments, p.Accepted (v.files.length file)
  adds : v.Adds s (image.pages file) w

theorem loadImage_adds (h : m.memory.Valid) (hs : s < m.spaces.size) {bytes : List UInt8} :
    Attempt.Ends True (loadImage s file bytes) m
      (fun program after => bytes.length = m.files.length file ∧ ∃ image rest,
        Image.read bytes = .ok (image, rest) ∧
        program = { entry := image.header.entry.toNat, esp := stackTop } ∧
        image.Loads s file m.memory after.memory)
      fun _ _ => True := by
  simp only [loadImage, Attempt.ends_bind, Attempt.ends_get, Attempt.ends_ite, Attempt.ends_throw]
  refine ⟨fun _ => trivial, fun hlength => ?_⟩
  rw [not_not] at hlength
  split
  · trivial
  · rename_i image rest hread
    split
    · trivial
    · simp only [Attempt.ends_bind, Attempt.ends_adapt, Attempt.ends_pure]
      refine (addSegments_adds hs).imp ?_ fun _ _ _ => trivial
      rintro _ m₁ ⟨haccepted, hadds⟩
      have hs₁ : s < m₁.spaces.size := Nat.lt_of_lt_of_eq hs hadds.spaces_eq.symm
      refine (addStack_adds (hadds.valid h) hs₁).imp ?_ fun _ _ _ => trivial
      rintro _ after ⟨rfl, hstack⟩
      exact ⟨hlength, image, rest, hread, rfl, haccepted, hadds.trans hstack⟩

/-- One read gives all bytes of the file. -/
def FileStore.ReadsWhole (files : FileStore) (file : Nat) : Prop :=
  FileNode.allowed (files.node file).readLimit (files.length file) = files.length file

/-- A program is loaded only from a file that is read as a whole. -/
theorem loadExecutable_adds (h : m.memory.Valid) (hs : s < m.spaces.size) (handle : Handle) :
    Run.Ends True (loadExecutable s handle) m fun answer after => ∀ program, answer.2 = .ok program →
      m.files.ReadsWhole handle.file ∧ ∃ image rest,
        Image.read (m.files.node handle.file).contents = .ok (image, rest) ∧
        program = { entry := image.header.entry.toNat, esp := stackTop } ∧
        image.Loads s handle.file m.memory after.memory := by
  simp only [loadExecutable, Run.ends_bind, Run.ends_get, Run.ends_run, Run.ends_pure]
  refine (loadImage_adds h hs).imp ?_ fun _ _ _ _ hne => by cases hne
  rintro program after ⟨hlength, image, rest, hread, rfl, hloads⟩ _ ⟨⟩
  simp only [FileStore.readAt, FileStore.read, FileNode.readAt, slice, List.drop_zero,
    List.length_take] at hlength hread
  have hle := FileNode.allowed_le (m.files.node handle.file).readLimit (m.files.length handle.file)
  have hwhole : m.files.ReadsWhole handle.file := by
    unfold FileStore.ReadsWhole
    omega
  have hall : (m.files.node handle.file).contents.take (m.files.length handle.file) =
      (m.files.node handle.file).contents := List.take_length
  rw [hwhole, hall] at hread
  exact ⟨hwhole, image, rest, hread, rfl, hloads⟩

/-- A program that starts was loaded as a whole. -/
theorem loadProgram_adds (h : m.memory.Valid) (hs : s < m.spaces.size) (handle : Handle) :
    Run.Ends True (loadProgram s handle) m fun answer after => ∀ entry, answer.2 = .ok entry →
      ∃ image rest, Image.read (m.files.node handle.file).contents = .ok (image, rest) ∧
        image.Loads s handle.file m.memory after.memory := by
  simp only [loadProgram, Run.ends_bind]
  refine (loadExecutable_adds h hs handle).imp ?_
  rintro ⟨_, answer⟩ m₁ hloads
  cases answer with
  | error e => exact fun entry hne => by cases hne
  | ok program =>
    obtain ⟨-, image, rest, hread, -, hloads⟩ := hloads program rfl
    simp only [Run.ends_bind, Run.ends_modify, Run.ends_pure, saveStackPointer]
    rw [Machine.memory_report, Machine.memory_modifyProcess]
    exact fun _ _ => ⟨image, rest, hread, hloads⟩

end Loading

/-! ## The rows of bytes -/

section Rows
variable {image : Image} {s file : Nat} {bytes rest : List UInt8} {page : Page} {plan : SegmentPlan}

omit [ReplacementPolicy π] in
theorem Page.OfProgram.of_unnumbered {plans : SegmentPlan → Prop} (h : page.unnumbered.OfProgram file plans) :
    page.OfProgram file plans := by
  cases h with
  | stack hva hb => exact .stack hva hb
  | segment hp hk hva hb => exact .segment hp hk hva hb

omit [ReplacementPolicy π] in
theorem Page.OfProgram.atUser (h : page.OfProgram file (SegmentPlan.OfImage bytes)) :
    page.va < kernelBase := by
  cases h with
  | stack hva hb =>
    rw [hva]
    decide
  | segment hp hk hva hb =>
    obtain ⟨image, rest, -, p, -, -, hok, rfl⟩ := hp
    obtain ⟨-, -, huser, -⟩ := p.plan_of_accepted hok
    omega

namespace Image
variable (hread : Image.read bytes = .ok (image, rest))
  (haccepted : ∀ p ∈ image.segments, p.Accepted bytes.length)
include hread haccepted

/-- The segments of an accepted image are those that its file describes. -/
theorem ofImage_iff : plan.OfImage bytes ↔ ∃ p ∈ image.segments, plan = p.plan := by
  constructor
  · rintro ⟨image', rest', hread', p, hp, hkind, -, rfl⟩
    obtain ⟨rfl, -⟩ := Prod.mk.inj (Except.ok.inj (hread.symm.trans hread'))
    exact ⟨p, List.mem_filter.mpr ⟨hp, by simpa using hkind⟩, rfl⟩
  · rintro ⟨p, hp, rfl⟩
    obtain ⟨hmem, hkind⟩ := List.mem_filter.mp hp
    exact ⟨image, rest, hread, p, hmem, by simpa using hkind, (haccepted p hp).objection?_eq_none, rfl⟩

theorem ofProgram (hpage : page ∈ image.pages file) :
    page.OfProgram file (SegmentPlan.OfImage bytes) := by
  rcases List.mem_append.mp hpage with hpage | hpage
  · obtain ⟨p, hp, hpage⟩ := List.mem_flatMap.mp hpage
    obtain ⟨k, hk, rfl⟩ := List.mem_map.mp hpage
    refine .segment ((ofImage_iff hread haccepted).mpr ⟨p, hp, rfl⟩) ?_ rfl rfl
    have hk := List.mem_range.mp hk
    simp only [ProgramHeader.pageCount, pageSize] at hk ⊢
    omega
  · obtain rfl := List.mem_singleton.mp hpage
    exact .stack rfl rfl

/-- Each address of a segment is on a page of the image that is filled from the segment. -/
theorem exists_page (file : Nat) (hplan : plan.OfImage bytes) {a : Nat} (ha : plan.Covers a) :
    ∃ k, ∃ page ∈ image.pages file, page.va = pageDown a ∧ pageDown a = plan.va + k * pageSize ∧
      page.backing = .uninit .anonymous (plan.source file k) := by
  obtain ⟨p, hp, rfl⟩ := (ofImage_iff hread haccepted).mp hplan
  obtain ⟨hsize, hlt, hmod⟩ := (haccepted p hp).size_eq
  have hstart := ProgramHeader.Accepted.start_mod p
  have hva : p.plan.va = p.start := rfl
  simp only [SegmentPlan.Covers, hsize, hva] at ha
  have hdown : pageDown a = p.plan.va + (a - p.plan.va) / pageSize * pageSize := by
    simp only [hva, pageDown, pageSize] at hstart ⊢
    omega
  refine ⟨(a - p.plan.va) / pageSize, _, List.mem_append_left _ (List.mem_flatMap.mpr ⟨p, hp,
    List.mem_map.mpr ⟨(a - p.plan.va) / pageSize, List.mem_range.mpr ?_, rfl⟩⟩), hdown.symm, hdown, rfl⟩
  simp only [ProgramHeader.pageCount, hsize, hva, pageSize] at hmod ⊢
  omega

/-- In the rows of bytes a loaded image is the program that its file describes. -/
theorem flat_loads {files : FileStore} {f g : View} {added : List Page}
    (hbytes : (files.node file).contents = bytes) (hadded : added.map Page.unnumbered = image.pages file)
    (h : View.Follows files (added.map (.insert s)) f g) : Flat.Loads s bytes f.flat g.flat := by
  obtain ⟨hin, hout⟩ := h.inserted
  -- A page of the image was added with a serial of its own.
  have hthere (page : Page) (hpage : page ∈ image.pages file) {a : Nat} (ha : page.va = pageDown a) :
      f.flat s a = .absent ∧ g.flat s a = page.backing.cellAt files a := by
    rw [← hadded] at hpage
    obtain ⟨p, hp, rfl⟩ := List.mem_map.mp hpage
    have hva : p.va = pageDown a := ha
    obtain ⟨hnone, hsome⟩ := hin p hp
    rw [hva] at hnone hsome
    exact ⟨View.flat_of_none hnone, by rw [View.flat, hsome, cellOf_initial]; rfl⟩
  refine ⟨⟨image, rest, hread, fun p hp hkind => ?_⟩, fun a ha => ?_, fun plan hplan a ha => ?_,
    fun t a hne => ?_⟩
  · exact (haccepted p (List.mem_filter.mpr ⟨hp, by simpa using hkind⟩)).objection?_eq_none
  · refine hthere (.blank 0 (stackTop - pageSize) true)
      (List.mem_append_right _ (List.mem_singleton_self _)) ?_
    simp only [OnFirstStackPage, Page.blank, stackTop, kernelBase, pageSize, pageDown] at ha ⊢
    omega
  · obtain ⟨k, page, hpage, hva, hdown, hback⟩ := exists_page hread haccepted file hplan ha
    obtain ⟨habsent, hshows⟩ := hthere page hpage hva
    refine ⟨habsent, ?_⟩
    rw [hshows, hback, ← hbytes]
    exact congrArg Cell.byte (SegmentPlan.byteAt_source hdown)
  · refine congrArg (cellOf · a) (hout t (pageDown a) fun ht p hp hva => ?_)
    obtain ⟨hstack, hplans⟩ := hne ht
    have hpage : p.unnumbered ∈ image.pages file := hadded ▸ List.mem_map_of_mem hp
    rcases (ofProgram hread haccepted hpage).of_unnumbered.cellAt hbytes hva.symm with
      ⟨hon, -⟩ | ⟨plan, hplan, hcovers, -⟩
    · exact hstack hon
    · exact hplans plan hplan hcovers

end Image

end Rows

end DemandPaging
