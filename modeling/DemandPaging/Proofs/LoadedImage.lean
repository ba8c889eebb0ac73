import DemandPaging.Proofs.FileWrites
import DemandPaging.Proofs.LoadedPages

/-! # Loaded images

Loading an executable into an empty table puts there the pages of its segments and the first page of
the stack, and nothing else. Each page of a segment knows where its bytes are in the file, so that it
can be filled at any later time, and then holds them.
-/
namespace DemandPaging
open Memory (Change)

variable {π : Type} [ReplacementPolicy π]

namespace Memory
variable {v w : Memory π} {moves : Nat → Nat → Prop} {s : Nat}

/-- What is in a table after pages were added to it one after the other. -/
structure Received (s : Nat) (pages : List Page) (v w : Memory π) : Prop where
  nodup : (pages.map Page.va).Nodup
  absent : ∀ p ∈ pages, v.pages s p.va = none
  found : ∀ p ∈ pages, ∃ q, w.pages s p.va = some q ∧ q.outline = p.outline
  kept : ∀ a p, v.pages s a = some p → ∃ q, w.pages s a = some q ∧ q.outline = p.outline
  only : ∀ a q, w.pages s a = some q →
    (v.pages s a).isSome ∨ ∃ p ∈ pages, p.va = a ∧ q.outline = p.outline

theorem Received.nil (h : Pages v w) : Received s [] v w where
  nodup := List.nodup_nil
  absent := List.forall_mem_nil _
  found := List.forall_mem_nil _
  kept _ _ hp := h.exists_page hp
  only a q hq := by
    have hsome := congrArg Option.isSome (h.outline_eq s a)
    rw [Option.isSome_map, Option.isSome_map, hq] at hsome
    exact .inl hsome.symm

theorem Received.cons {page : Page} {pages : List Page} (ha : v.Alters (.insert s page) u)
    (h : Received s pages u w) : Received s (page :: pages) v w := by
  obtain ⟨rfl, hnone⟩ := ha.of_insert
  have hat : (v.add s page).pages s page.va = some page := setAt_self
  have hne {a : Nat} (ha : a ≠ page.va) : (v.add s page).pages s a = v.pages s a :=
    setAt_of_ne fun h => ha h.2
  have hother : ∀ p ∈ pages, p.va ≠ page.va := by
    intro p hp heq
    cases hat.symm.trans (heq ▸ h.absent p hp)
  refine ⟨?_, ?_, ?_, ?_, ?_⟩
  · rw [List.map_cons, List.nodup_cons, List.mem_map]
    exact ⟨fun ⟨p, hp, heq⟩ => hother p hp heq, h.nodup⟩
  · refine List.forall_mem_cons.mpr ⟨hnone, fun p hp => ?_⟩
    rw [← hne (hother p hp)]
    exact h.absent p hp
  · exact List.forall_mem_cons.mpr ⟨h.kept _ _ hat, h.found⟩
  · intro a p hp
    refine h.kept a p ((hne ?_).trans hp)
    rintro rfl
    cases hnone.symm.trans hp
  · intro a q hq
    by_cases heq : a = page.va
    · subst heq
      obtain ⟨r, hr, houtline⟩ := h.kept _ _ hat
      obtain rfl := Option.some.inj (hq.symm.trans hr)
      exact .inr ⟨page, List.mem_cons_self .., rfl, houtline⟩
    · rcases h.only a q hq with hsome | ⟨p, hp, hva, houtline⟩
      · exact .inl (hne heq ▸ hsome)
      · exact .inr ⟨p, List.mem_cons_of_mem _ hp, hva, houtline⟩

theorem Received.of_rests {u : Memory π} {pages : List Page} (hp : Pages v u)
    (h : Received s pages u w) : Received s pages v w where
  nodup := h.nodup
  absent p hmem := by
    have hsame := hp.outline_eq s p.va
    rw [h.absent p hmem, Option.map_none, eq_comm, Option.map_eq_none_iff] at hsame
    exact hsame
  found := h.found
  kept a p hpage := by
    obtain ⟨q, hq, houtline⟩ := hp.exists_page hpage
    obtain ⟨r, hr, hrq⟩ := h.kept a q hq
    exact ⟨r, hr, hrq.trans houtline⟩
  only a q hq := by
    have hsome := congrArg Option.isSome (hp.outline_eq s a)
    rw [Option.isSome_map, Option.isSome_map] at hsome
    exact (h.only a q hq).imp_left fun hu => hsome ▸ hu

theorem Course.received {pages : List Page} (h : Course moves (pages.map (.insert s)) v w) :
    Received s pages v w := by
  induction pages generalizing v with
  | nil => exact .nil h.evolves
  | cons page rest ih =>
    obtain ⟨u, u', hu, ha, -, hrest⟩ := h.uncons
    exact .of_rests hu.evolves (.cons ha (ih hrest))

end Memory

/-! ## What is found where -/

namespace FileStore.ReadsWhole
variable {files files' : FileStore} {file position size : Nat}

theorem congr (h : files.ReadsWhole file) (hlength : files'.length file = files.length file)
    (hlimits : files'.transferLimits file = files.transferLimits file) : files'.ReadsWhole file := by
  have hlimit : (files'.node file).readLimit = (files.node file).readLimit := congrArg Prod.fst hlimits
  rw [ReadsWhole, hlength, hlimit]
  exact h

/-- A read of bytes that are all there is not cut short. -/
theorem length_readAt (h : files.ReadsWhole file) (hle : position + size ≤ files.length file) :
    ((files.node file).readAt position size).length = size := by
  have hallowed : FileNode.allowed (files.node file).readLimit size = size := by
    unfold ReadsWhole at h
    cases hlimit : (files.node file).readLimit with
    | none => rfl
    | some limit =>
      simp only [hlimit, FileNode.allowed, Option.elim_some] at h ⊢
      omega
  rw [FileNode.readAt, hallowed, slice, List.length_take, List.length_drop]
  exact Nat.min_eq_left (Nat.le_sub_of_add_le (Nat.add_comm .. ▸ hle))

end FileStore.ReadsWhole

namespace Image.Loads
variable {image : Image} {s file va : Nat} {v w : Memory π} {p : ProgramHeader}

theorem received (h : image.Loads s file v w) :
    ∃ added : List Page, added.map Page.unnumbered = image.pages file ∧ Memory.Received s added v w := by
  obtain ⟨added, hadded, hquiet⟩ := h.adds
  exact ⟨added, hadded, hquiet.received⟩

omit [ReplacementPolicy π] in
theorem map_pages (image : Image) (file : Nat) : (image.pages file).map Page.va =
    (image.segments.flatMap fun p => (p.pages file).map Page.va) ++ [stackTop - pageSize] := by
  rw [Image.pages, List.map_append, List.map_flatMap]
  rfl

/-- No two pages of the image have one address. -/
theorem nodup (h : image.Loads s file v w) : ((image.pages file).map Page.va).Nodup := by
  obtain ⟨added, hadded, hreceived⟩ := h.received
  rw [← hadded, List.map_map]
  exact hreceived.nodup

/-- Every page of the image is in the table, with what it is filled from. -/
theorem exists_page (h : image.Loads s file v w) {page : Page} (hp : page ∈ image.pages file) :
    ∃ q, w.pages s page.va = some q ∧ q.writable = page.writable ∧ q.source = page.source := by
  obtain ⟨added, hadded, hreceived⟩ := h.received
  rw [← hadded] at hp
  obtain ⟨p, hmem, rfl⟩ := List.mem_map.mp hp
  obtain ⟨q, hq, houtline⟩ := hreceived.found p hmem
  simp only [Page.outline, Prod.mk.injEq] at houtline
  exact ⟨q, hq, houtline.2.2.1, houtline.2.2.2.1⟩

/-- Only pages of the image are in a table that was empty. -/
theorem mem_of_page (h : image.Loads s file v w) (hempty : ∀ a, v.pages s a = none) {q : Page}
    (hq : w.pages s va = some q) : va ∈ (image.pages file).map Page.va := by
  obtain ⟨added, hadded, hreceived⟩ := h.received
  rcases hreceived.only va q hq with hsome | ⟨p, hp, rfl, -⟩
  · rw [hempty] at hsome
    cases hsome
  · rw [← hadded, List.map_map]
    exact List.mem_map_of_mem hp

theorem mem_pages (h : image.Loads s file v w) : va ∈ (image.pages file).map Page.va ↔
    va % pageSize = 0 ∧ (va = stackTop - pageSize ∨ ∃ p ∈ image.segments, p.Covers va) := by
  rw [map_pages, List.mem_append, List.mem_singleton, List.mem_flatMap]
  constructor
  · rintro (⟨p, hp, hva⟩ | rfl)
    · obtain ⟨hmod, hcovers⟩ := (h.accepted p hp).mem_pages.mp hva
      exact ⟨hmod, .inr ⟨p, hp, hcovers⟩⟩
    · exact ⟨by decide, .inl rfl⟩
  · rintro ⟨hmod, rfl | ⟨p, hp, hcovers⟩⟩
    · exact .inr rfl
    · exact .inl ⟨p, hp, (h.accepted p hp).mem_pages.mpr ⟨hmod, hcovers⟩⟩

theorem segments_apart (h : image.Loads s file v w) :
    image.segments.Pairwise fun p q => p.stop ≤ q.start ∨ q.stop ≤ p.start := by
  have hnodup := h.nodup
  rw [map_pages, List.nodup_append, List.nodup_flatMap] at hnodup
  obtain ⟨⟨-, hdisjoint⟩, -, -⟩ := hnodup
  apply hdisjoint.imp_of_mem
  intro p q hp hq hpq
  exact (h.accepted p hp).apart (h.accepted q hq) hpq

/-- Segments are above the first page of memory and below the stack page. -/
theorem segment_inside (h : image.Loads s file v w) (hp : p ∈ image.segments) :
    pageSize ≤ p.start ∧ p.stop ≤ stackTop - pageSize := by
  have haccepted := h.accepted p hp
  obtain ⟨hfirst, hlast⟩ := haccepted.within
  refine ⟨hfirst, ?_⟩
  by_contra hover
  have hnodup := h.nodup
  rw [map_pages, List.nodup_append] at hnodup
  obtain ⟨-, -, hdisjoint⟩ := hnodup
  have hlt := haccepted.size_eq.2.1
  have hmod := ProgramHeader.Accepted.start_mod p
  have hcovers : p.Covers (stackTop - pageSize) := by
    unfold ProgramHeader.Covers
    simp only [pageSize, stackTop, kernelBase] at hmod hlast hover ⊢
    omega
  apply hdisjoint (stackTop - pageSize) _ (stackTop - pageSize) (List.mem_singleton_self _) rfl
  exact List.mem_flatMap.mpr ⟨p, hp, haccepted.mem_pages.mpr ⟨by decide, hcovers⟩⟩

/-- A page of a segment that covers it, and where that page has its bytes from. -/
theorem page_of_segment (h : image.Loads s file v w) (hp : p ∈ image.segments) (hcovers : p.Covers va)
    (hmod : va % pageSize = 0) : ∃ k q, va = p.plan.va + k * pageSize ∧ w.pages s va = some q ∧
      q.writable = p.writable ∧ q.source = p.plan.source file k := by
  have hva : va ∈ (p.pages file).map Page.va := (h.accepted p hp).mem_pages.mpr ⟨hmod, hcovers⟩
  obtain ⟨page, hpage, rfl⟩ := List.mem_map.mp hva
  have hmem : page ∈ image.pages file :=
    List.mem_append_left _ (List.mem_flatMap.mpr ⟨p, hp, hpage⟩)
  obtain ⟨q, hq, hwritable, hsource⟩ := h.exists_page hmem
  obtain ⟨k, -, rfl⟩ := List.mem_map.mp hpage
  exact ⟨k, q, rfl, hq, hwritable, hsource⟩

end Image.Loads

/-! ## First claims -/

section Claims
variable {m : Machine π} {s va file k n : Nat} {page : Page} {p : ProgramHeader}

omit [ReplacementPolicy π] in
/-- A page of a segment is filled in full wherever its file is as long as it was, and read as a
whole. -/
theorem fill_of_accepted {fileLength : Nat} {target : Target}
    (hp : p.Accepted fileLength) (hwhole : m.files.ReadsWhole file)
    (hlength : m.files.length file = fileLength) :
    Attempt.Ends False (materialize (.uninit target (p.plan.source file k)) n) m (fun _ _ => True)
      fun _ _ => False := by
  simp only [materialize, Attempt.ends_bind]
  refine (loadSource_fails _).imp ?_ ?_
  · intro _ _ _
    cases target <;> trivial
  · rintro _ _ ⟨f, hf, hshort⟩
    obtain ⟨rfl, hwithin⟩ := hp.source_within hf
    exact hshort (hwhole.length_readAt (hlength ▸ hwithin))

/-- The bytes of a page of a segment are those that the segment has at its addresses. -/
theorem image_of_accepted {files : FileStore} (hp : p.Accepted (files.length file))
    (hva : va = p.plan.va + k * pageSize) (hmod : va % pageSize = 0) {i : Nat} (hi : i < pageSize) :
    p.byte? (files.node file).contents (va + i) =
      ((p.plan.source file k).image files).toList[i]? := by
  have hle : p.start ≤ va + i := by
    have hplan : p.plan.va = p.start := rfl
    omega
  have hoffset : pageOffset va = 0 := hmod
  have hi' : i < pageSize - pageOffset va := by rwa [hoffset]
  have hdown : pageDown (va + i) = p.plan.va + k * pageSize := by
    rw [pageDown_add hi', pageDown_eq_self hmod, hva]
  have hat : pageOffset (va + i) = i := by rw [pageOffset_add hi', hoffset, Nat.zero_add]
  have hbyte : (p.plan.source file k).byteAt files (pageOffset (va + i)) =
      p.plan.byteAt (files.node file).contents (va + i) := SegmentPlan.byteAt_source hdown
  rw [hat, ← Source.getD_image] at hbyte
  have hlt : i < ((p.plan.source file k).image files).toList.length := by
    rwa [Vector.length_toList]
  rw [hp.byte?_eq hle, ← hbyte, List.getD_eq_getElem?_getD, List.getElem?_eq_getElem hlt,
    Option.getD_some]

/-- A page that is filled by its first claim has the bytes that its source says. -/
theorem claimPage_fills {target : Target} {source : Source} (h : m.memory.Valid)
    (hp : m.memory.pages s page.va = some page) (hb : page.backing = .uninit target source) :
    Attempt.Ends False (claimPage s page) m
      (fun _ after => ∃ q n, after.memory.pages s page.va = some q ∧ q.frame = some n ∧
        Memory.Rests m.memory after.memory ∧ after.contents n = source.image after.files)
      fun _ _ => True := by
  have hout : page.frame = none := by
    cases hf : page.frame with
    | none => rfl
    | some n => exact absurd hb (h.stowed.filled hp (by rw [hf]; rfl) target source)
  refine (claimPage_supplies h hp hout).imp ?_ fun _ _ _ => trivial
  rintro _ after ⟨n, hpage, hrests, hcontents⟩
  rw [hb] at hcontents
  exact ⟨_, n, hpage, rfl, hrests, hcontents⟩

end Claims

/-- Space `s` holds the image of an executable: its segments lie apart from one another and from the
stack page, the pages of the table are theirs, and whenever a page of a segment is first used, it can be
filled in full, and then has the bytes that the header says. -/
structure Image.LoadedIn (image : Image) (file s : Nat) (after : Machine π) : Prop where
  apart : image.segments.Pairwise fun p q => p.stop ≤ q.start ∨ q.stop ≤ p.start
  inside : ∀ p ∈ image.segments, pageSize ≤ p.start ∧ p.stop ≤ stackTop - pageSize
  pages : ∀ va, (after.memory.pages s va).isSome ↔
    va % pageSize = 0 ∧ (va = stackTop - pageSize ∨ ∃ p ∈ image.segments, p.Covers va)
  writable : ∀ p ∈ image.segments, ∀ va page, p.Covers va → after.memory.pages s va = some page →
    page.writable = p.writable
  /-- The page itself, or a copy of it, may be claimed at any later time. -/
  claims : ∀ p ∈ image.segments, ∀ va page, p.Covers va → after.memory.pages s va = some page →
    ∀ calls m t q, Runs Operation.Allowed after calls m → m.memory.pages t va = some q →
      (t = s ∧ q.serial = page.serial ∨ q.source = page.source) →
      (∃ target source, q.backing = .uninit target source) →
      (∀ m' n, Memory.Rests m.memory m'.memory →
        Attempt.Ends False (materialize q.backing n) m' (fun _ _ => True) fun _ _ => False) ∧
      Attempt.Ends False (claimPage t q) m
        (fun _ m' => ∃ r n, m'.memory.pages t va = some r ∧ r.frame = some n ∧
          ∀ i < pageSize, p.byte? (m'.files.node file).contents (va + i) = (m'.contents n).toList[i]?)
        fun _ _ => True

theorem Image.Loads.loadedIn {image : Image} {s file : Nat} {v : Memory π} {after : Machine π}
    (h : image.Loads s file v after.memory) (hv : v.Valid) (hempty : ∀ va, v.pages s va = none)
    (hwhole : v.files.ReadsWhole file) : image.LoadedIn file s after := by
  have hvalid : after.memory.Valid := h.adds.valid hv
  obtain ⟨added, -, hquiet⟩ := h.adds
  have hlength := hquiet.length_eq file
  have hlimits := hquiet.transferLimits_eq file
  refine ⟨h.segments_apart, fun p hp => h.segment_inside hp, fun va => ?_, ?_, ?_⟩
  · rw [← h.mem_pages]
    constructor
    · intro hsome
      obtain ⟨q, hq⟩ := Option.isSome_iff_exists.mp hsome
      exact h.mem_of_page hempty hq
    · intro hmem
      obtain ⟨page, hpage, rfl⟩ := List.mem_map.mp hmem
      obtain ⟨q, hq, -⟩ := h.exists_page hpage
      rw [hq]
      rfl
  · intro p hp va page hcovers hpage
    obtain ⟨k, q, -, hq, hwritable, -⟩ := h.page_of_segment hp hcovers (hvalid.sound.kept hpage).2.1
    obtain rfl := Option.some.inj (hpage.symm.trans hq)
    exact hwritable
  · rintro p hp va page hcovers hpage calls m t q hruns hq hsame ⟨target, source, hback⟩
    have hmod := (hvalid.sound.kept hpage).2.1
    obtain ⟨k, r, hva, hr, -, hsource⟩ := h.page_of_segment hp hcovers hmod
    obtain rfl := Option.some.inj (hpage.symm.trans hr)
    have hm := hruns.valid hvalid fun _ _ hop => hop
    -- The page has kept its source, or the copy has it.
    have hkept : q.source = page.source := by
      rcases hsame with ⟨rfl, hserial⟩ | hsource
      · obtain ⟨cs, hevolves⟩ := hruns.evolves hvalid fun _ _ hop => hop
        rcases hevolves.outline_or_gone hvalid.sound hpage with ⟨r, hr', houtline⟩ | hgone
        · obtain rfl := Option.some.inj (hq.symm.trans hr')
          simp only [Page.outline, Prod.mk.injEq] at houtline
          exact houtline.2.2.2.1
        · exact absurd ⟨q, hq, hserial⟩ hgone.absent
      · exact hsource
    obtain rfl : source = p.plan.source file k := by
      rw [← hsource, ← hkept, Page.source, hback]
      rfl
    obtain ⟨hlength', hlimits'⟩ := hruns.file_shape (f := file) hvalid
    have haccepted := h.accepted p hp
    constructor
    · intro m' n hrests
      rw [hback]
      have hlen := (hrests.length_eq file).trans (hlength'.trans hlength)
      have hlim := (hrests.transferLimits_eq file).trans (hlimits'.trans hlimits)
      exact fill_of_accepted haccepted (hwhole.congr hlen hlim) hlen
    · have hqva : q.va = va := (hm.sound.kept hq).1
      refine (claimPage_fills hm (hqva.symm ▸ hq) hback).imp ?_ fun _ _ _ => trivial
      rintro _ m' ⟨r, n, hr', hn, hrests, hcontents⟩
      have hlen := (hrests.length_eq file).trans (hlength'.trans hlength)
      refine ⟨r, n, hqva ▸ hr', hn, fun i hi => ?_⟩
      rw [hcontents]
      exact image_of_accepted (hlen ▸ haccepted) hva hmod hi

section Runs
variable {m after : Machine π} {calls : List Call} {s : Nat}

/-- The image that is loaded is the one that the file describes. Whenever an executable is loaded into
an empty table, on any machine that operations lead to, the space then holds the image that the headers
of the file describe, and the answer is where the file header says to start, and the top of the stack. -/
theorem loaded_image_of_runs {count : Nat} {device : Device} {policy : π} {files : FileStore}
    (h : Runs Operation.Allowed (Machine.start count device policy files) calls m)
    (hs : s < m.spaces.size) (hempty : ∀ va, m.memory.pages s va = none) {handle handle' : Handle}
    {program : LoadedProgram} (hload : loadExecutable s handle m = .ok (handle', .ok program) after) :
    ∃ image rest, Image.read (m.files.node handle.file).contents = .ok (image, rest) ∧
      program = { entry := image.header.entry.toNat, esp := stackTop } ∧
      image.LoadedIn handle.file s after := by
  have hvalid := h.valid (Machine.valid_start ..) fun _ _ hop => hop
  obtain ⟨hwhole, image, rest, hread, hprogram, hloads⟩ :=
    (loadExecutable_adds hvalid hs handle).of_ok hload program rfl
  exact ⟨image, rest, hread, hprogram, hloads.loadedIn hvalid hempty hwhole⟩

/-- An executable of one segment, which has three of its five bytes in the file. -/
def smallExecutable : List UInt8 :=
  [127, 69, 76, 70, 1, 1, 1, 0, 0, 0, 0, 0, 0, 0, 0, 0, 2, 0, 3, 0, 1, 0, 0, 0, 84, 16, 0, 0, 52,
   0, 0, 0, 0, 0, 0, 0, 0, 0, 0, 0, 52, 0, 32, 0, 1, 0, 0, 0, 0, 0, 0, 0, 1, 0, 0, 0, 84, 0, 0, 0,
   84, 16, 0, 0, 84, 16, 0, 0, 3, 0, 0, 0, 5, 0, 0, 0, 5, 0, 0, 0, 0, 16, 0, 0, 7, 8, 9]

/-- The small executable is loaded into a new process. -/
theorem image_loaded_from_file : ∃ calls, ∃ m after : Machine Fifo, ∃ handle program,
    Runs Operation.Allowed (.start 2 { name := "swap", kind := .swap, size := 0, disk := .zeroed 0 } {}
      { nodes := #[{ contents := smallExecutable }] }) calls m ∧ 0 < m.spaces.size ∧
    (∀ va, m.memory.pages 0 va = none) ∧
    loadExecutable 0 { file := 0 } m = .ok (handle, .ok program) after ∧
    program = { entry := 4180, esp := stackTop } ∧ ∃ image : Image, image.LoadedIn 0 0 after := by
  obtain ⟨calls, m, hrun, hcheck⟩ := Runs.of_afterAll Operation.Allowed
    (m := .start 2 { name := "swap", kind := .swap, size := 0, disk := .zeroed 0 } ({} : Fifo)
      { nodes := #[{ contents := smallExecutable }] })
    [.createProcess 1]
    (fun m => decide (0 < m.spaces.size) && (m.space 0).pages.isEmpty &&
      match loadExecutable 0 { file := 0 } m with
      | .ok (_, .ok program) _ => decide (program = { entry := 4180, esp := stackTop })
      | _ => false) (by decide +kernel)
  simp only [Bool.and_eq_true, decide_eq_true_eq] at hcheck
  obtain ⟨⟨hs, hempty⟩, hload⟩ := hcheck
  have hnone : ∀ va, m.memory.pages 0 va = none := by
    intro va
    show (m.space 0).pages[va]? = none
    rw [Std.ExtTreeMap.isEmpty_iff.mp hempty]
    exact Std.ExtTreeMap.getElem?_empty
  split at hload
  · rename_i handle program after hp
    obtain ⟨image, -, -, -, hloaded⟩ := loaded_image_of_runs hrun hs hnone hp
    exact ⟨calls, m, after, handle, program, hrun, hs, hnone, hp, of_decide_eq_true hload, image,
      hloaded⟩
  · cases hload

end Runs

end DemandPaging
