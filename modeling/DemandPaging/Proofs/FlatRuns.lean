import DemandPaging.Proofs.LoadedPages
import DemandPaging.Proofs.Tables

/-! # Memory as processes see it

Whatever is paged, shared, refused or lost on the way, the bytes that processes see are those of
private flat memory to which the same calls were made.
-/
namespace DemandPaging
open Memory (Change Calm)

variable {π : Type}

namespace Machine
variable {m : Machine π} {file : Nat}

/-- Some page has yet to be filled from the file. -/
def awaits (m : Machine π) (file : Nat) : Bool :=
  m.allPages.any fun e => match e.2.backing with
    | .uninit .anonymous source => decide (source.file = some file)
    | _ => false

/-- Bytes that were written to a mapping of the file have yet to be written back. -/
def unsaved (m : Machine π) (file : Nat) : Bool :=
  m.allPages.any fun e => e.2.isFile && decide (e.2.source.file = some file) &&
    (m.space e.1).directory.isDirty e.2.va

theorem awaits_of (h : m.memory.Sound) (ha : m.memory.Awaits file) : m.awaits file = true := by
  obtain ⟨s, va, p, source, hp, hb, hsource⟩ := ha
  obtain ⟨rfl, -⟩ := h.kept hp
  refine List.any_eq_true.mpr ⟨(s, p), (mem_allPages h).mpr hp, ?_⟩
  rw [hb]
  exact decide_eq_true hsource

theorem unsaved_of (h : m.memory.Sound) (hu : m.memory.Unsaved file) : m.unsaved file = true := by
  obtain ⟨s, va, p, hp, hfile, hsource, hd⟩ := hu
  obtain ⟨rfl, hpage, -⟩ := h.kept hp
  refine List.any_eq_true.mpr ⟨(s, p), (mem_allPages h).mpr hp, ?_⟩
  have hdirty : (m.space s).directory.isDirty p.va = true := by
    rw [isDirty_iff, pageDown_eq_self hpage]
    exact hd
  rw [hfile, hdirty, decide_eq_true hsource]
  rfl

end Machine

namespace Operation

/-- The file that an operation leaves pages to be filled from. -/
def awaited? : Operation → Option Nat
  | load _ h => some h.file
  | insert _ _ _ (.uninit .anonymous source) => source.file
  | _ => none

/-- Nobody writes to a file while pages are to be filled from it: nothing is left to be written back
when they are added, and from then on no byte goes to a mapping of the file. -/
def Undisturbed (m : Machine π) (op : Operation) : Prop :=
  (∀ file ∈ op.awaited?, m.unsaved file = false) ∧
    match op with
    | writeUser s addr bytes | copyTo s _ addr bytes => ∀ i < bytes.length,
      ∀ p ∈ m.page? s (addr + i), p.isFile = true → ∀ file ∈ p.source.file, m.awaits file = false
    | _ => True

instance (m : Machine π) (op : Operation) : Decidable (op.Undisturbed m) :=
  @instDecidableAnd _ _ _ (by split <;> infer_instance)

/-- What processes may ask for. -/
def Orderly (m : Machine π) (op : Operation) : Prop := op.Allowed m ∧ op.AtUser ∧ op.Undisturbed m

instance (m : Machine π) (op : Operation) : Decidable (op.Orderly m) :=
  inferInstanceAs (Decidable (op.Allowed m ∧ op.AtUser ∧ op.Undisturbed m))

/-- The files that pages are to be filled from, during an operation. -/
def Waits (v : Memory π) (op : Operation) (file : Nat) : Prop := v.Awaits file ∨ file ∈ op.awaited?

end Operation

/-- Between operations nothing is left to be written back to a file that pages wait for. -/
def Memory.Settled (v : Memory π) : Prop := ∀ file, v.Awaits file → ¬v.Unsaved file

theorem Memory.Calm.settled {v : Memory π} {W : Nat → Prop} {T : Nat → Nat → Prop} (h : Calm W T v) :
    v.Settled := fun _ ha => h.saved (h.awaited ha)

theorem Operation.Undisturbed.calm {m : Machine π} {op : Operation} (h : op.Undisturbed m)
    (hvalid : m.memory.Valid) (hroomy : m.memory.Roomy) (hsettled : m.memory.Settled) :
    Calm (op.Waits m.memory) op.Target m.memory where
  valid := hvalid
  roomy := hroomy
  awaited := .inl
  saved := by
    rintro file (ha | ha) hu
    · exact hsettled file ha hu
    · have hnone := h.1 file ha
      rw [Machine.unsaved_of hvalid.sound hu] at hnone
      cases hnone
  apart := by
    intro s va p file hT hp hfile hsource hW
    obtain ⟨-, h⟩ := h
    cases op with
    | writeUser _ addr bytes | copyTo _ _ addr bytes =>
      obtain ⟨rfl, i, hi, rfl⟩ := hT
      have hpage : m.page? s (addr + i) = some p := by rw [Machine.page?_eq, hp]
      have hnone := h i hi p hpage hfile file hsource
      rcases hW with ha | ha
      · rw [Machine.awaits_of hvalid.sound ha] at hnone
        cases hnone
      · cases ha
    | _ => exact hT.elim

section Clean
variable {W : Nat → Prop} {T : Nat → Nat → Prop} {s va addr : Nat} {cs : List Change}

theorem Grown.clean (h : Grown s va cs) : ∀ c ∈ cs, c.Clean W T := by
  cases h with
  | same => exact List.forall_mem_nil _
  | added serial hva =>
    exact List.forall_mem_singleton.mpr ⟨hva.user, fun _ => rfl, by simp [Page.blank]⟩

theorem Undone.clean (h : Undone s va cs) : ∀ c ∈ cs, c.Clean W T := by
  cases h with
  | same => exact List.forall_mem_nil _
  | removed serial page hva =>
    exact List.forall_mem_cons.mpr ⟨⟨hva.user, fun _ => rfl, by simp [Page.blank]⟩,
      List.forall_mem_singleton.mpr trivial⟩

theorem removes_clean (pages : List Page) : ∀ c ∈ pages.map (Change.remove s), c.Clean W T := by
  intro c hc
  obtain ⟨page, -, rfl⟩ := List.mem_map.mp hc
  trivial

theorem copies_clean {src dst : Nat} (hT : ∀ a, ¬T dst a) (pages : List Page) :
    ∀ c ∈ pages.map (Change.copy src dst), c.Clean W T := by
  intro c hc
  obtain ⟨page, -, rfl⟩ := List.mem_map.mp hc
  exact hT

theorem MapsIn.clean {file : Nat} (h : MapsIn s file cs) (hT : ∀ a, ¬T s a) :
    ∀ c ∈ cs, c.Clean W T := by
  intro c hc
  obtain ⟨page, source, rfl, hva, hb, -⟩ := h c hc
  refine ⟨hva, fun hin => absurd hin (hT _), fun source' file' hb' => ?_⟩
  rw [hb] at hb'
  cases hb'

theorem loads_clean {file : Nat} {plans : SegmentPlan → Prop} (hW : W file) (hT : ∀ a, ¬T s a)
    (h : ∀ c ∈ cs, ∃ page, c = .insert s page ∧ page.va < kernelBase ∧ page.OfProgram file plans) :
    ∀ c ∈ cs, c.Clean W T := by
  intro c hc
  obtain ⟨page, rfl, hva, hpage⟩ := h c hc
  refine ⟨hva, fun hin => absurd hin (hT _), fun source file' hb hsource => ?_⟩
  cases hpage with
  | stack _ hb' =>
    rw [hb'] at hb
    cases hb
  | @segment plan k _ _ _ hb' =>
    rw [hb'] at hb
    cases hb
    rcases segmentSource_file file (plan.fileOffset + min (k * pageSize) plan.readBytes)
      (plan.readBytes - k * pageSize) with hnone | hsome
    · cases hnone.symm.trans hsource
    · cases hsome.symm.trans hsource
      exact hW

theorem Written.clean {bytes : List UInt8} (h : Written s addr bytes cs)
    (hT : ∀ i < bytes.length, T s (pageDown (addr + i))) : ∀ c ∈ cs, c.Clean W T := by
  induction h with
  | nil => exact List.forall_mem_nil _
  | chunk hcs hpos hlen hw ih =>
    simp only [List.length_append] at hT
    refine List.forall_mem_append.mpr ⟨hcs.clean, List.forall_mem_cons.mpr ⟨?_, ih fun i hi => ?_⟩⟩
    · exact hT 0 (by omega)
    · rw [Nat.add_assoc]
      exact hT _ (by omega)

end Clean

section Does
variable [ReplacementPolicy π] {v w : Memory π} {W : Nat → Prop} {T : Nat → Nat → Prop}
  {s va addr : Nat} {cs : List Change}

theorem Memory.Calm.follows (h : Calm W T v) (he : Memory.Evolves cs v w) (hcs : ∀ c ∈ cs, c.Clean W T) :
    View.Follows v.files cs v.view w.view ∧ Calm W T w :=
  ⟨(h.view_evolves hcs he).1, (h.view_evolves hcs he).2.1⟩

omit [ReplacementPolicy π] in
/-- What is read from the frame that a page is in is what the page shows. -/
theorem Memory.Calm.slice_found {count n : Nat} {q : Page} (h : Calm W T v)
    (hq : v.pages s (pageDown addr) = some q) (hn : q.frame = some n)
    (hcount : count ≤ pageSize - pageOffset addr) {i : Nat} {b : UInt8}
    (hb : (slice (v.frames n).contents.toList (pageOffset addr) count)[i]? = some b) :
    v.view.flat s (addr + i) = .byte b ∨ v.view.flat s (addr + i) = .file := by
  rw [slice, List.getElem?_take] at hb
  split at hb
  · rename_i hi
    have hin : i < pageSize - pageOffset addr := Nat.lt_of_lt_of_le hi hcount
    rw [List.getElem?_drop] at hb
    rw [View.flat, pageDown_add hin, Memory.Calm.view_eq_some hq,
      Memory.bytes?_frame hn (h.valid.stowed.filled hq (by rw [hn]; rfl))]
    split
    · exact .inr rfl
    · refine .inl (congrArg Cell.byte ?_)
      rw [pageOffset_add hin, List.getD_eq_getElem?_getD, hb]
      rfl
  · cases hb

theorem Reads.shows {bytes : List UInt8} (h : Reads s addr v bytes w) (hcalm : Calm W T v) :
    Flat.Reads s addr bytes v.view.flat w.view.flat ∧ Calm W T w := by
  induction h with
  | nil addr v => exact ⟨⟨.refl _ _ _, (by simp)⟩, hcalm⟩
  | @chunk addr count n cs v u w q bytes hcs he hq hn hpos hcount hr ih =>
    obtain ⟨hfollows, hcalm⟩ := hcalm.follows he.evolves hcs.clean
    obtain ⟨hrest, hcalm'⟩ := ih hcalm
    have hlen := length_chunk (u.frames n).contents hcount
    refine ⟨Flat.Reads.append ⟨?_, fun i b hb => hcalm.slice_found hq hn hcount hb⟩ ?_, hcalm'⟩
    · rw [hlen]
      exact (hcs.adds hfollows).mono fun a c hnew => ⟨⟨0, hpos, hnew.1⟩, hnew.2⟩
    · rwa [hlen]

omit [ReplacementPolicy π] in
theorem Memory.Calm.row_spaces (h : Calm W T v) (a : Nat) : v.view v.spaces a = none := by
  apply Memory.Calm.view_eq_none
  cases hp : v.pages v.spaces a with
  | none => rfl
  | some p => exact absurd (h.valid.sound.kept hp).2.2.1 (Nat.lt_irrefl _)

omit [ReplacementPolicy π] in
theorem Memory.Calm.mem_of_view (h : Calm W T v) {pages : List Page}
    (hall : ∀ p, p ∈ pages ↔ v.pages s p.va = some p) (hview : v.view s va ≠ none) :
    ∃ p ∈ pages, p.va = va := by
  cases hp : v.pages s va with
  | none => exact absurd (Memory.Calm.view_eq_none hp) hview
  | some p =>
    obtain ⟨rfl, -⟩ := h.valid.sound.kept hp
    exact ⟨p, (hall p).mpr hp, rfl⟩

/-- Once all pages have been copied to an empty space, the two rows are the same. -/
theorem View.Follows.row_copied {f g : View} {files : FileStore} {src dst : Nat} {pages : List Page}
    (h : View.Follows files (pages.map (.copy src dst)) f g) (hempty : ∀ a, f dst a = none)
    (hall : ∀ a, f src a ≠ none → ∃ p ∈ pages, p.va = a) :
    g.flat = Function.update f.flat dst (f.flat src) := by
  funext t a
  obtain ⟨hin, hout⟩ := h.copies t (pageDown a)
  by_cases ht : t = dst
  · subst ht
    rw [Function.update_self, View.flat, View.flat]
    by_cases hp : ∃ p ∈ pages, p.va = pageDown a
    · rw [(hin ⟨rfl, hp⟩).2]
    · rw [hout fun hat => hp hat.2, hempty]
      by_cases hsrc : f src (pageDown a) = none
      · rw [hsrc]
      · exact absurd (hall _ hsrc) hp
  · rw [Function.update_of_ne ht, View.flat, View.flat, hout fun hat => ht hat.1]

omit [ReplacementPolicy π] in
/-- What a new process finds at any address. -/
theorem Memory.Calm.flat_spaces (h : Calm W T v) (a : Nat) : v.view.flat v.spaces a = .absent :=
  View.flat_of_none (h.row_spaces _)

theorem does_insert {backing : Backing} {serial : Nat} {writable : Bool} (huser : va < kernelBase)
    (hcalm : Calm ((Operation.insert s va writable backing).Waits v) (fun _ _ => False) v)
    (hevolves : Memory.Evolves [.insert s { serial, va, writable, backing }] v w) :
    (∀ a, pageDown a = va → v.view.flat s a = .absent) ∧
      w.view.flat = v.view.flat.setPage s va (backing.cellAt v.files) ∧
      Calm ((Operation.insert s va writable backing).Waits v) (fun _ _ => False) w := by
  have hclean : ∀ c ∈ [Change.insert s { serial, va, writable, backing }],
      c.Clean ((Operation.insert s va writable backing).Waits v) fun _ _ => False := by
    refine List.forall_mem_singleton.mpr ⟨huser, False.elim, ?_⟩
    rintro source file rfl hsource
    exact .inr hsource
  obtain ⟨⟨hnone, hfollows⟩, hcalm'⟩ := hcalm.follows hevolves hclean
  refine ⟨fun a ha => View.flat_of_none (ha ▸ hnone), ?_, hcalm'⟩
  rw [show w.view = _ from hfollows]
  funext t a
  rw [View.after, View.flat_setAt, cellOf_initial]
  rfl

theorem view_forkFailed {copied removed : List Page} (hcalm : Calm W T v) (hT : ∀ t a, ¬T t a)
    (hspaces : w.spaces = v.spaces)
    (hevolves : Memory.Evolves (.spawn True :: copied.map (.copy s v.spaces) ++
      removed.map (.remove v.spaces) ++ [.drop]) v w) : w.view = v.view ∧ Calm W T w := by
  have hclean : ∀ c ∈ Change.spawn True :: copied.map (.copy s v.spaces) ++
      removed.map (.remove v.spaces) ++ [.drop], c.Clean W T := by
    refine List.forall_mem_append.mpr ⟨List.forall_mem_append.mpr ⟨List.forall_mem_cons.mpr ?_,
      removes_clean removed⟩, List.forall_mem_singleton.mpr trivial⟩
    exact ⟨trivial, copies_clean (hT _) copied⟩
  obtain ⟨hfollows, hcalm'⟩ := hcalm.follows hevolves hclean
  refine ⟨?_, hcalm'⟩
  funext t
  by_cases ht : t = v.spaces
  · subst ht
    funext a
    rw [hcalm.row_spaces, ← hspaces, hcalm'.row_spaces]
  · refine hfollows.elsewhere ?_ ht
    simp [View.Within, or_imp, forall_and]

theorem does_removed {pages : List Page} (hcalm : Calm W T v)
    (hevolves : Memory.Evolves (pages.map (.remove s)) v w) (hgone : ∀ a, w.pages s a = none) :
    w.view.flat = Function.update v.view.flat s (fun _ => .absent) ∧ Calm W T w := by
  obtain ⟨hfollows, hcalm'⟩ := hcalm.follows hevolves (removes_clean pages)
  refine ⟨?_, hcalm'⟩
  funext t a
  by_cases ht : t = s
  · subst ht
    rw [Function.update_self]
    exact View.flat_of_none (Memory.Calm.view_eq_none (hgone _))
  · have hsame : w.view t = v.view t := hfollows.elsewhere (by simp [View.Within]) ht
    rw [Function.update_of_ne ht, View.flat, View.flat, hsame]

/-- A program that was loaded is in the row as a whole. -/
theorem does_load {file : Nat} {image : Image} {bytes rest : List UInt8} (hcalm : Calm W T v)
    (hW : W file) (hT : ∀ a, ¬T s a) (hbytes : (v.files.node file).contents = bytes)
    (hread : Image.read bytes = .ok (image, rest)) (hloads : image.Loads s file v w) :
    Flat.Loads s bytes v.view.flat w.view.flat := by
  obtain ⟨haccepted, added, hadded, hquiet⟩ := hloads
  subst hbytes
  have hprogram : ∀ c ∈ added.map (Change.insert s), ∃ page, c = .insert s page ∧
      page.va < kernelBase ∧ page.OfProgram file (SegmentPlan.OfImage (v.files.node file).contents) := by
    refine List.forall_mem_map.mpr fun page hpage => ⟨page, rfl, ?_⟩
    have hmem : page.unnumbered ∈ image.pages file := hadded ▸ List.mem_map_of_mem hpage
    have hof := (Image.ofProgram hread haccepted hmem).of_unnumbered
    exact ⟨hof.atUser, hof⟩
  obtain ⟨hfollows, -⟩ := hcalm.follows hquiet.evolves (loads_clean hW hT hprogram)
  exact Image.flat_loads hread haccepted rfl hadded hfollows

omit [ReplacementPolicy π] in
/-- What goes from a row is what the pages say that are left. -/
theorem View.Follows.view_removed {pages : List Page} {files : FileStore}
    (h : View.Follows files (pages.map (.remove s)) v.view w.view) {t a : Nat}
    (hsame : w.pages t a = v.pages t a) : w.view t a = v.view t a := by
  rcases h.drops t a with heq | hnone
  · exact heq
  · rw [hnone, eq_comm, Memory.view, Option.map_eq_none_iff, ← hsame]
    rwa [Memory.view, Option.map_eq_none_iff] at hnone

/-- What an unmapping takes away are whole pages of files from the address on, one after the other, and
where it fails there was none. -/
theorem does_unmap {reply : Reply} (hcalm : Calm W T v) (h : (Operation.unmap s addr).Comes v w reply) :
    (Call.mk v.files (.unmap s addr) reply).Does v.view.flat w.view.flat ∧ Calm W T w := by
  obtain ⟨hunmaps, hreply⟩ := h
  obtain ⟨pages, -, hquiet, -⟩ := id hunmaps
  obtain ⟨hfollows, hcalm'⟩ := hcalm.follows hquiet.evolves (removes_clean pages)
  refine ⟨?_, hcalm'⟩
  rcases hreply with ⟨rfl, limit, k, hpos, hunchains⟩ | ⟨hfailed, hsame⟩
  · have hin (a : Nat) : (∃ j < k, pageDown a = pageDown addr + j * pageSize) ↔
        pageDown addr ≤ a ∧ a < pageDown addr + k * pageSize := by
      rw [exists_lt_pages (pageDown_mod addr) (pageDown_mod a)]
      simp only [pageDown, pageSize]
      omega
    refine .inl ⟨rfl, k, hpos, fun a hle hlt => ?_, ?_⟩
    · obtain ⟨j, hj, ha⟩ := (hin a).mpr ⟨hle, hlt⟩
      obtain ⟨p, hp, hfile, -⟩ := hunchains.chain j hj
      refine View.flat_of_file ?_
      rw [ha, Memory.Calm.view_eq_some hp, Memory.bytes?_eq_none_iff.mpr hfile]
    · funext t a
      have hpages := hunchains.pages t (pageDown a)
      rw [Flat.setRange]
      split
      · rename_i hat
        rw [if_pos ⟨hat.1, (hin a).mpr hat.2⟩] at hpages
        exact View.flat_of_none (Memory.Calm.view_eq_none hpages)
      · rename_i hat
        rw [if_neg fun h => hat ⟨h.1, (hin a).mp h.2⟩] at hpages
        exact congrArg (cellOf · a) (hfollows.view_removed hpages)
  · refine .inr ⟨hfailed, fun hfile => ?_, ?_⟩
    · have hview := View.flat_eq_file_iff.mp hfile
      rw [Memory.view, Option.map_eq_some_iff] at hview
      obtain ⟨p, hp, hbytes⟩ := hview
      have hnot := hunmaps.not_file hsame hp
      rw [Memory.bytes?_eq_none_iff.mp hbytes] at hnot
      cases hnot
    · funext t a
      exact congrArg (cellOf · a) (hfollows.view_removed (by rw [hsame]))

theorem does_remove (hcalm : Calm W T v)
    (h : Memory.Pages v w ∧ v.pages s (pageDown va) = none ∨
      ∃ page, v.pages s (pageDown va) = some page ∧ Memory.Evolves [.remove s page] v w) :
    w.view.flat = v.view.flat.setPage s (pageDown va) (fun _ => .absent) ∧ Calm W T w := by
  rcases h with ⟨hpages, hnone⟩ | ⟨page, hp, hevolves⟩
  · obtain ⟨hfollows, hcalm'⟩ := hcalm.follows hpages (List.forall_mem_nil _)
    refine ⟨?_, hcalm'⟩
    rw [show w.view = _ from hfollows]
    funext t a
    rw [Flat.setPage]
    split
    · rename_i hat
      rw [hat.1]
      exact View.flat_of_none (Memory.Calm.view_eq_none (hat.2 ▸ hnone))
    · rfl
  · obtain ⟨⟨-, hfollows⟩, hcalm'⟩ := hcalm.follows hevolves (List.forall_mem_singleton.mpr trivial)
    refine ⟨?_, hcalm'⟩
    rw [show w.view = _ from hfollows, ← (hcalm.valid.sound.kept hp).1]
    funext t a
    rw [View.after, View.flat_setAt]
    rfl

/-- Whatever an operation comes to in memory is what the call does to the rows of bytes. Of a program
that was loaded one has to know that it was loaded as a whole. -/
theorem Operation.Comes.does {op : Operation} {reply : Reply} (h : op.Comes v w reply)
    (hcalm : Calm (op.Waits v) op.Target v) (huser : op.AtUser)
    (hloaded : ∀ s handle, op = .load s handle → ∃ answer, reply = .loaded answer ∧
      ∀ entry, answer = .ok entry → ∃ image rest,
        Image.read (v.files.node handle.file).contents = .ok (image, rest) ∧ image.Loads s handle.file v w) :
    (Call.mk v.files op reply).Does v.view.flat w.view.flat ∧ Calm (op.Waits v) op.Target w := by
  cases op with
  | createProcess pid =>
    obtain ⟨rfl, hevolves⟩ := h
    obtain ⟨hfollows, hcalm'⟩ := hcalm.follows hevolves.evolves (List.forall_mem_singleton.mpr trivial)
    exact ⟨⟨_, rfl, hcalm.flat_spaces, congrArg View.flat hfollows.2⟩, hcalm'⟩
  | createTable admission recordsAccess => exact huser.elim
  | setStackPointer | openFile | closeFile | claim | evict =>
    obtain ⟨hfollows, hcalm'⟩ := hcalm.follows (Memory.Course.evolves h) (List.forall_mem_nil _)
    exact ⟨congrArg View.flat hfollows, hcalm'⟩
  | insert s va writable backing =>
    rcases h with ⟨rfl, hrests⟩ | ⟨serial, rfl, hquiet⟩
    · obtain ⟨hfollows, hcalm'⟩ := hcalm.follows hrests.evolves (List.forall_mem_nil _)
      exact ⟨.inl ⟨rfl, congrArg View.flat hfollows⟩, hcalm'⟩
    · obtain ⟨hnone, hset, hcalm'⟩ := does_insert huser hcalm hquiet.evolves
      exact ⟨.inr ⟨rfl, hnone, hset⟩, hcalm'⟩
  | load s handle =>
    obtain ⟨answer, rfl, hwhole⟩ := hloaded s handle rfl
    obtain ⟨cs, hcs, hquiet⟩ := h
    obtain ⟨hfollows, hcalm'⟩ := hcalm.follows hquiet.evolves (loads_clean (.inr rfl) (fun _ => False.elim) hcs)
    refine ⟨?_, hcalm'⟩
    cases answer with
    | ok entry =>
      obtain ⟨image, rest, hread, hloads⟩ := hwhole entry rfl
      exact .inl ⟨⟨entry, rfl⟩, does_load hcalm (.inr rfl) (fun _ => False.elim) rfl hread hloads⟩
    | error e =>
      refine .inr ⟨⟨e, rfl⟩, hfollows.adds fun c hc => ?_⟩
      obtain ⟨page, rfl, -, hpage⟩ := hcs c hc
      exact ⟨page, rfl, fun a ha => hpage.cellAt rfl ha⟩
  | map s addr length writable file offset =>
    obtain ⟨cs, hquiet, ⟨rfl, hva, -, hlaid⟩ | ⟨hfailed, rfl⟩⟩ := h
    · obtain ⟨hfollows, hcalm'⟩ := hcalm.follows hquiet.evolves (hlaid.mapsIn.clean fun _ => False.elim)
      obtain ⟨habsent, hshows⟩ := hlaid.shows hva hfollows
      exact ⟨.inl ⟨rfl, habsent, hshows⟩, hcalm'⟩
    · obtain ⟨hfollows, hcalm'⟩ := hcalm.follows hquiet.evolves (List.forall_mem_nil _)
      exact ⟨.inr ⟨hfailed, congrArg View.flat hfollows⟩, hcalm'⟩
  | unmap s addr => exact does_unmap hcalm h
  | pageFault s fault esp | resolveFault s fault esp =>
    obtain ⟨rfl, cs, hcs, hcourse, hthere⟩ | ⟨hfailed, cs, hcs, hquiet⟩ := h
    · obtain ⟨hfollows, hcalm'⟩ := hcalm.follows hcourse.evolves hcs.clean
      refine ⟨.inl ⟨rfl, (hcs.adds hfollows).mono fun a c hnew => ?_, fun habsent => ?_⟩, hcalm'⟩
      · exact ⟨⟨0, Nat.one_pos, hnew.1⟩, hnew.2⟩
      · have hnone := View.flat_eq_absent_iff.mp habsent
        rw [Memory.view, Option.map_eq_none_iff] at hnone
        rw [hnone] at hthere
        cases hthere
    · obtain ⟨hfollows, hcalm'⟩ := hcalm.follows hquiet.evolves hcs.clean
      exact ⟨.inr ⟨hfailed, congrArg View.flat (hcs.follows_eq hfollows)⟩, hcalm'⟩
  | readUser s addr count | copyFrom s esp addr count =>
    obtain ⟨bytes, failure, u, cs, va, rfl, hreads, hcs, hquiet, hle, hall⟩ := h
    obtain ⟨hshows, hcalm'⟩ := hreads.shows hcalm
    obtain ⟨hfollows, hcalm''⟩ := hcalm'.follows hquiet.evolves hcs.clean
    rw [hcs.follows_eq hfollows]
    exact ⟨⟨bytes, failure, rfl, hshows, hle, fun hok => (hall hok).1⟩, hcalm''⟩
  | writeUser s addr bytes | copyTo s esp addr bytes =>
    obtain ⟨k, cs, us, va, u, hwrote, hus, hquiet, hreply⟩ := h
    have hle := List.length_take_le' k bytes
    obtain ⟨hwritten, hcalm'⟩ := hcalm.follows hwrote.course.evolves
      (hwrote.written.clean fun i hi => ⟨rfl, i, Nat.lt_of_lt_of_le hi hle, rfl⟩)
    obtain ⟨hundone, hcalm''⟩ := hcalm'.follows hquiet.evolves hus.clean
    rw [hus.follows_eq hundone]
    exact ⟨⟨k, hwrote.written.writes hwritten, hreply⟩, hcalm''⟩
  | fork s pid =>
    rcases h with ⟨rfl, pages, hall, hquiet⟩ | ⟨hfailed, hspaces, copied, removed, hquiet⟩
    · obtain ⟨⟨-, hfollows⟩, hcalm'⟩ := hcalm.follows hquiet.evolves
        (List.forall_mem_cons.mpr ⟨trivial, copies_clean (fun _ => False.elim) pages⟩)
      refine ⟨.inl ⟨_, rfl, hcalm.flat_spaces, ?_⟩, hcalm'⟩
      exact View.Follows.row_copied hfollows hcalm.row_spaces fun a => hcalm.mem_of_view hall
    · obtain ⟨hview, hcalm'⟩ := view_forkFailed hcalm (fun _ _ => False.elim) hspaces hquiet.evolves
      exact ⟨.inr ⟨hfailed, congrArg View.flat hview⟩, hcalm'⟩
  | copyTable src dst =>
    obtain ⟨pages, hquiet, hempty, hreply⟩ := h
    obtain ⟨hfollows, hcalm'⟩ := hcalm.follows hquiet.evolves (copies_clean (fun _ => False.elim) pages)
    refine ⟨⟨fun a => View.flat_of_none (Memory.Calm.view_eq_none (hempty _)), ?_⟩, hcalm'⟩
    rcases hreply with ⟨rfl, hall⟩ | hfailed
    · exact .inl ⟨rfl, hfollows.row_copied (fun a => Memory.Calm.view_eq_none (hempty a)) fun a =>
        hcalm.mem_of_view hall⟩
    · exact .inr ⟨hfailed, hfollows.adds_copied⟩
  | exit s | kill s =>
    obtain ⟨pages, hquiet, hgone⟩ := h
    exact does_removed hcalm hquiet.evolves hgone
  | remove s va =>
    refine does_remove hcalm (h.imp (And.imp_left Memory.Course.evolves) ?_)
    rintro ⟨page, hp, hquiet⟩
    exact ⟨page, hp, hquiet.evolves⟩

end Does

section Runs
variable [ReplacementPolicy π] {count : Nat} {device : Device} {policy : π} {files : FileStore}
  {m : Machine π} {calls : List Call}

/-- What an operation meets, and leaves, on a machine that only processes have used. -/
structure Machine.Ready (m : Machine π) : Prop where
  valid : m.memory.Valid
  roomy : m.memory.Roomy
  settled : m.memory.Settled

omit [ReplacementPolicy π] in
theorem Machine.ready_start (hcount : count ≤ PageTableEntry.frameLimit) :
    (start count device policy files).Ready where
  valid := valid_start ..
  roomy := roomy_start _ _ _ _ hcount
  settled := by
    rintro file ⟨s, va, p, source, hp, -⟩
    simp [start_spaceless] at hp

/-- What a loading answers tells whether the program was loaded as a whole. -/
theorem load_ends {s : Nat} (h : m.memory.Valid) (hs : s < m.spaces.size) (handle : Handle) :
    Run.Ends True (Operation.load s handle).perform m fun reply after =>
      ∃ answer, reply = .loaded answer ∧ ∀ entry, answer = .ok entry → ∃ image rest,
        Image.read (m.files.node handle.file).contents = .ok (image, rest) ∧
          image.Loads s handle.file m.memory after.memory := by
  refine Run.ends_map.mpr ((loadProgram_adds h hs handle).imp ?_)
  rintro ⟨_, answer⟩ after hwhole
  exact ⟨answer, rfl, hwhole⟩

/-- One operation does to memory what the call does to the rows of bytes. -/
theorem Machine.Ready.perform {op : Operation} {reply : Reply} {after : Machine π} (h : m.Ready)
    (hop : op.Orderly m) (hp : op.perform m = .ok reply after) :
    (Call.mk m.files op reply).Does m.flat after.flat ∧ after.Ready := by
  obtain ⟨hallowed, huser, hundisturbed⟩ := hop
  have hcomes := (Operation.perform_ends h.valid hallowed).of_ok hp
  have hloaded : ∀ s handle, op = .load s handle → ∃ answer, reply = .loaded answer ∧
      ∀ entry, answer = .ok entry → ∃ image rest,
        Image.read (m.files.node handle.file).contents = .ok (image, rest) ∧
          image.Loads s handle.file m.memory after.memory := by
    rintro s handle rfl
    exact (load_ends h.valid (hallowed.1 s rfl) handle).of_ok hp
  obtain ⟨hdoes, hcalm⟩ := hcomes.does (hundisturbed.calm h.valid h.roomy h.settled) huser hloaded
  exact ⟨hdoes, hcalm.valid, hcalm.roomy, hcalm.settled⟩

/-- Nothing that processes may ask for aborts, but an opening when descriptors have run out. -/
theorem Machine.Ready.answers {op : Operation} (h : m.Ready) (hop : op.Orderly m)
    (hopen : ∀ s handle, op = .openFile s handle → (m.process s).descriptors.next? ≠ none) :
    ∃ reply after, op.perform m = .ok reply after := by
  apply (Operation.perform_ends h.valid hop.1).answers
  intro hstuck
  cases op with
  | openFile s handle => exact hopen s handle rfl hstuck
  | unmap s addr =>
    obtain ⟨va, hsome, hlast⟩ := hstuck
    obtain ⟨p, hp⟩ := Option.isSome_iff_exists.mp hsome
    have huser : va < kernelBase := h.roomy.user hp
    simp only [kernelBase, wordLimit, pageSize] at huser hlast
    omega
  | _ => exact hstuck

theorem Runs.flat {m₀ : Machine π} (h : Runs Operation.Orderly m₀ calls m) (hready : m₀.Ready) :
    Flat.Runs calls m₀.flat m.flat ∧ m.Ready := by
  induction h with
  | refl => exact ⟨.refl _, hready⟩
  | step _ hop hp ih =>
    obtain ⟨hruns, hmid⟩ := ih
    obtain ⟨hdoes, hafter⟩ := hmid.perform hop hp
    exact ⟨.step hruns hdoes (View.paged_flat _), hafter⟩

/-- Anonymous memory is private flat memory. Whatever processes have asked for on a machine with
at most 2^20 frames, with whatever device and policy, and whatever has failed: the bytes that they
see, and have been given, are those of a row of bytes for each process, to which the same calls were
made and in which no frame or slot plays a part. What they may ask for next gets an answer, and does
to the rows that they see what the call says. -/
theorem flat_of_runs (hcount : count ≤ PageTableEntry.frameLimit)
    (h : Runs Operation.Orderly (Machine.start count device policy files) calls m) :
    Flat.Runs calls Flat.empty m.flat ∧ ∀ op : Operation, op.Orderly m →
      (∀ s handle, op = .openFile s handle → (m.process s).descriptors.next? ≠ none) →
      ∃ reply after, op.perform m = .ok reply after ∧
        (Call.mk m.files op reply).Does m.flat after.flat := by
  have hempty : (Machine.start count device policy files).flat = Flat.empty := by
    funext s a
    exact View.flat_of_none (Memory.Calm.view_eq_none (Machine.start_spaceless ..).1)
  obtain ⟨hruns, hready⟩ := h.flat (Machine.ready_start hcount)
  refine ⟨hempty ▸ hruns, fun op hop hopen => ?_⟩
  obtain ⟨reply, after, hp⟩ := hready.answers hop hopen
  exact ⟨reply, after, hp, (hready.perform hop hp).1⟩

/-- Two frames for three pages, one of which was shared by a fork before both processes wrote. -/
theorem flat_after_fork : ∃ calls, ∃ m : Machine Fifo,
    Runs Operation.Orderly
      (.start 2 { name := "swap", kind := .swap, size := 32, disk := .zeroed 32 } {} {}) calls m ∧
    m.recordedSlots = [1] ∧ Flat.Runs calls Flat.empty m.flat := by
  obtain ⟨calls, m, hrun, hcheck⟩ := Runs.of_afterAll Operation.Orderly
    (m := .start 2 { name := "swap", kind := .swap, size := 32, disk := .zeroed 32 } ({} : Fifo) {})
    [.createProcess 1, .insert 0 4096 true (.anonymous .zeroed none), .writeUser 0 4096 [7],
      .fork 0 2, .insert 0 8192 true (.anonymous .zeroed none), .writeUser 0 8192 [8],
      .writeUser 1 4096 [9], .readUser 0 4096 1, .readUser 0 8192 1, .readUser 1 4096 1]
    (fun m => decide (m.recordedSlots = [1])) (by decide +kernel)
  exact ⟨calls, m, hrun, of_decide_eq_true hcheck, (flat_of_runs (by decide) hrun).1⟩

end Runs

end DemandPaging
