import DemandPaging.Executable.Loader
import DemandPaging.Proofs.Faults

/-! # Loading programs

Loading adds pages to a space, whether it succeeds or not: pages of the segments that the headers of
the file describe, each to be filled from its part of the file, and the first page of the stack. No
header, however malformed, makes it abort.
-/
namespace DemandPaging
open Memory (Change)

namespace SegmentPlan

/-- A segment that is loaded from a file that holds `bytes`. -/
def OfImage (bytes : List UInt8) (plan : SegmentPlan) : Prop :=
  ∃ image rest, Image.read bytes = .ok (image, rest) ∧ ∃ p ∈ image.programHeaders,
    p.kind = .load ∧ p.objection? bytes.length = none ∧ plan = p.plan

/-- Where the page that is `k` pages into a segment gets its bytes. -/
def source (plan : SegmentPlan) (file k : Nat) : Source :=
  segmentSource file (plan.fileOffset + min (k * pageSize) plan.readBytes)
    (plan.readBytes - k * pageSize)

end SegmentPlan

/-- A page of a program before anybody has used it. -/
inductive Page.OfProgram (file : Nat) (plans : SegmentPlan → Prop) (page : Page) : Prop
  | stack (hva : page.va = stackTop - pageSize) (hb : page.backing = .anonymous .zeroed none)
  | segment {plan : SegmentPlan} {k : Nat} (hp : plans plan)
    (hk : k * pageSize < plan.readBytes + plan.zeroBytes) (hva : page.va = plan.va + k * pageSize)
    (hb : page.backing = .uninit .anonymous (plan.source file k))

/-- No byte of a page of a program is ever written to its file. -/
theorem Page.OfProgram.isFile_eq {file : Nat} {plans : SegmentPlan → Prop} {page : Page}
    (h : page.OfProgram file plans) : page.isFile = false := by
  cases h with
  | stack hva hb | segment hp hk hva hb =>
    rw [Page.isFile, hb]
    rfl

theorem segmentSource_file (file offset available : Nat) :
    (segmentSource file offset available).file = none ∨
      (segmentSource file offset available).file = some file := by
  unfold segmentSource
  split
  · exact .inl rfl
  · exact .inr rfl

theorem segmentSource_readBytes (file offset available : Nat) :
    (segmentSource file offset available).readBytes = min available pageSize := by
  unfold segmentSource
  split
  · rename_i h
    rw [h]
    rfl
  · rfl

/-- What the plan of an acceptable segment satisfies: whole pages, all of them in user memory. -/
theorem ProgramHeader.plan_of_accepted {p : ProgramHeader} {fileLength : Nat}
    (h : p.objection? fileLength = none) :
    (p.plan.readBytes + p.plan.zeroBytes) % pageSize = 0 ∧ p.plan.va % pageSize = 0 ∧
      p.plan.va + (p.plan.readBytes + p.plan.zeroBytes) ≤ kernelBase ∧
      p.plan.fileOffset + p.plan.readBytes < wordLimit := by
  have hfile := p.fileOffset.toNat_lt
  have hsize := p.fileSize.toNat_lt
  simp only [objection?, isUser, Bool.not_eq_true', decide_eq_false_iff_not] at h
  repeat' split at h
  all_goals cases h
  rename_i _ _ hmemory _ _ _ hend _
  rw [UInt32.lt_iff_toNat_lt, Nat.not_lt] at hmemory
  simp only [plan, pageOffset, pageDown, pageSize, kernelBase, wordLimit] at hend ⊢
  generalize p.virtualAddress.toNat = start at hend ⊢
  generalize p.memorySize.toNat = memory at hmemory hend ⊢
  generalize p.fileSize.toNat = size at hmemory hsize ⊢
  generalize p.fileOffset.toNat = offset at hfile ⊢
  split <;> omega

variable {π : Type} [ReplacementPolicy π] {m : Machine π} {u v w : Memory π} {s file : Nat}
  {plans : SegmentPlan → Prop}

/-- Pages of a program are added to space `s`. -/
def Memory.Loads (s file : Nat) (plans : SegmentPlan → Prop) (v w : Memory π) : Prop :=
  ∃ cs, (∀ c ∈ cs, ∃ page, c = .insert s page ∧ page.va < kernelBase ∧ page.OfProgram file plans) ∧
    Memory.Quiet cs v w

namespace Memory.Loads

theorem of_rests (h : Memory.Rests v w) : Memory.Loads s file plans v w :=
  ⟨[], List.forall_mem_nil _, h⟩

theorem insert {page : Page} (hva : page.va < kernelBase) (hpage : page.OfProgram file plans)
    (h : Memory.Quiet [.insert s page] v w) : Memory.Loads s file plans v w :=
  ⟨_, List.forall_mem_singleton.mpr ⟨page, rfl, hva, hpage⟩, h⟩

theorem trans (h : Memory.Loads s file plans u v) (h' : Memory.Loads s file plans v w) :
    Memory.Loads s file plans u w := by
  obtain ⟨cs, hcs, hevolves⟩ := h
  obtain ⟨cs', hcs', hevolves'⟩ := h'
  exact ⟨cs ++ cs', List.forall_mem_append.mpr ⟨hcs, hcs'⟩, hevolves.trans hevolves'⟩

theorem spaces_eq (h : Memory.Loads s file plans v w) : w.spaces = v.spaces := by
  obtain ⟨cs, hcs, hevolves⟩ := h
  refine hevolves.spaces_eq fun c hc => ?_
  obtain ⟨page, rfl, -⟩ := hcs c hc
  trivial

theorem valid (h : Memory.Loads s file plans v w) (hv : v.Valid) : w.Valid := by
  obtain ⟨cs, -, hevolves⟩ := h
  exact hv.course hevolves

end Memory.Loads

/-- The pages of a segment are added one after the other, up to one that is taken. -/
theorem addSegmentPages_ends {writable : Bool} {plan : SegmentPlan} {offset va available k count : Nat}
    (hplan : plans plan) (hs : s < m.spaces.size) (hva : plan.va % pageSize = 0)
    (ho : offset = plan.fileOffset + min (k * pageSize) plan.readBytes)
    (hv : va = plan.va + k * pageSize) (ha : available = plan.readBytes - k * pageSize)
    (hsize : k * pageSize + count * pageSize ≤ plan.readBytes + plan.zeroBytes)
    (huser : plan.va + (plan.readBytes + plan.zeroBytes) ≤ kernelBase)
    (hoffset : plan.fileOffset + plan.readBytes < wordLimit) :
    Attempt.Ends False (addSegmentPages s file writable offset va available count) m
      (fun _ after => m.memory.Loads s file plans after.memory)
      fun _ after => m.memory.Loads s file plans after.memory := by
  induction count generalizing m k offset va available with
  | zero => exact .of_rests (.refl _)
  | succ count ih =>
    simp only [pageSize, kernelBase] at hva hsize huser
    have hread : (segmentSource file offset available).readBytes = min available pageSize :=
      segmentSource_readBytes ..
    simp only [pageSize] at ho hv ha hread
    simp only [addSegmentPages, Attempt.ends_bind, Attempt.ends_modify, Attempt.ends_lift,
      Attempt.ends_ite, Attempt.ends_throw]
    refine (insertPage_ends (v := m.memory) (.uninit .anonymous _)
      (Machine.lt_spaces (Machine.memory_retainSource _) hs) (by simp only [pageSize]; omega)
      (Machine.memory_retainSource _)).imp ?_
    rintro answer m₁ (⟨rfl, -, hpages⟩ | ⟨rfl, hinserted⟩)
    · exact ⟨(by simp), fun _ => .of_rests hpages⟩
    refine ⟨fun _ => ⟨fun _ => ?_, fun hnot => ?_⟩, fun hnot => absurd rfl hnot⟩
    · have hinsert : m.memory.Loads s file plans m₁.memory := by
        refine .insert ?_ ?_ (.of_change hinserted trivial)
        · simp only [kernelBase]
          omega
        · subst ho ha
          refine .segment hplan ?_ hv rfl
          simp only [pageSize]
          omega
      have hs₁ : s < m₁.spaces.size := Nat.lt_of_lt_of_eq hs hinsert.spaces_eq.symm
      rw [hread]
      refine (ih (k := k + 1) hs₁ ?_ ?_ ?_ ?_).imp (fun _ _ hrest => hinsert.trans hrest)
        fun _ _ hrest => hinsert.trans hrest
      · simp only [pageSize]
        omega
      · simp only [pageSize]
        omega
      · simp only [pageSize]
        omega
      · rwa [Nat.succ_mul, Nat.add_assoc, Nat.add_comm pageSize, ← Nat.succ_mul]
    · refine hnot ⟨?_, ?_⟩
      · simp only [pageSize, wordLimit]
        omega
      · rw [hread]
        omega

theorem addSegment_ends {p : ProgramHeader} {fileLength : Nat} (hs : s < m.spaces.size)
    (hp : p.objection? fileLength = none) (hplan : plans p.plan) (writable : Bool) :
    Attempt.Ends False (addSegment s file p.plan writable) m
      (fun _ after => m.memory.Loads s file plans after.memory)
      fun _ after => m.memory.Loads s file plans after.memory := by
  obtain ⟨hsize, hva, huser, hoffset⟩ := p.plan_of_accepted hp
  simp only [addSegment, Attempt.ends_bind, Attempt.ends_ite]
  refine ⟨fun _ => ⟨fun _ => ?_, fun hnot => hnot ⟨hsize, hva⟩⟩, fun hnot => hnot ?_⟩
  · refine addSegmentPages_ends (k := 0) hplan hs hva (by simp) (by simp) (by simp) ?_ huser hoffset
    rw [Nat.zero_mul, Nat.zero_add]
    exact Nat.div_mul_le_self ..
  · exact Nat.lt_of_le_of_lt (Nat.le_trans (Nat.le_add_left ..) huser) (by decide)

theorem addStack_ends (h : m.memory.Valid) (hs : s < m.spaces.size) :
    Attempt.Ends False (addStack s) m
      (fun _ after => m.memory.Loads s file plans after.memory)
      fun _ after => m.memory.Loads s file plans after.memory := by
  simp only [addStack, Attempt.ends_bind, Attempt.ends_lift, Attempt.ends_ite, Attempt.ends_throw,
    Attempt.ends_pure]
  refine (insertAnonymous_ends hs (by decide)).imp ?_
  rintro answer m₁ (⟨rfl, -, hpages⟩ | ⟨rfl, ha⟩)
  · exact ⟨(by simp), fun _ => .of_rests hpages⟩
  refine ⟨fun _ => ?_, fun hnot => absurd rfl hnot⟩
  have hinsert : m.memory.Loads s file plans m₁.memory :=
    .insert (show stackTop - pageSize < kernelBase by decide) (.stack rfl rfl) (.of_change ha trivial)
  refine (claim_ends (hinsert.valid h) _).imp ?_ ?_
  · rintro _ after ⟨_, -, hpages, -⟩
    exact hinsert.trans (.of_rests hpages)
  · rintro _ after ⟨hpages, -⟩
    exact hinsert.trans (.of_rests hpages)

/-- Segments are added one after the other, up to one that is refused. -/
theorem addSegments_ends {fileLength : Nat} {headers : List ProgramHeader} (hs : s < m.spaces.size)
    (hplans : ∀ p ∈ headers, p.kind = .load → p.objection? fileLength = none → plans p.plan) :
    Attempt.Ends False (addSegments s file fileLength headers) m
      (fun _ after => m.memory.Loads s file plans after.memory)
      fun _ after => m.memory.Loads s file plans after.memory := by
  induction headers generalizing m with
  | nil => exact .of_rests (.refl _)
  | cons p rest ih =>
    obtain ⟨hplan, hplans⟩ := List.forall_mem_cons.mp hplans
    simp only [addSegments, Attempt.ends_ite]
    refine ⟨fun hkind => ?_, fun _ => ih hs hplans⟩
    split
    · exact .of_rests (.refl _)
    · rename_i hp
      simp only [Attempt.ends_bind, Attempt.ends_adapt, Attempt.ends_modify]
      refine (addSegment_ends hs hp (hplan hkind hp) p.writable).imp ?_ fun _ _ he => he
      intro _ m₁ hload
      have hs₁ : s < m₁.spaces.size := Nat.lt_of_lt_of_eq hs hload.spaces_eq.symm
      exact (ih (m := m₁.report _) hs₁ hplans).imp (fun _ _ hrest => hload.trans hrest)
        fun _ _ hrest => hload.trans hrest

/-- Nothing is loaded unless all bytes of the file were read. -/
theorem loadImage_ends (h : m.memory.Valid) (hs : s < m.spaces.size) {bytes : List UInt8}
    (hbytes : bytes.length = m.files.length file → bytes = (m.files.node file).contents) :
    Attempt.Ends False (loadImage s file bytes) m
      (fun _ after => m.memory.Loads s file (SegmentPlan.OfImage (m.files.node file).contents) after.memory)
      fun _ after => m.memory.Loads s file (SegmentPlan.OfImage (m.files.node file).contents) after.memory := by
  simp only [loadImage, Attempt.ends_bind, Attempt.ends_get, Attempt.ends_ite, Attempt.ends_throw]
  refine ⟨fun _ => .of_rests (.refl _), fun hlength => ?_⟩
  rw [not_not] at hlength
  obtain rfl := hbytes hlength
  split
  · exact .of_rests (.refl _)
  · rename_i image rest hread
    split
    · exact .of_rests (.refl _)
    · simp only [Attempt.ends_bind, Attempt.ends_adapt, Attempt.ends_pure]
      refine (addSegments_ends hs fun p hp hkind hok =>
        ⟨image, rest, hread, p, hp, hkind, hok, rfl⟩).imp ?_ fun _ _ he => he
      intro _ m₁ hload
      have hs₁ : s < m₁.spaces.size := Nat.lt_of_lt_of_eq hs hload.spaces_eq.symm
      exact (addStack_ends (hload.valid h) hs₁).imp (fun _ _ hrest => hload.trans hrest)
        fun _ _ hrest => hload.trans hrest

/-- Whatever the file holds, reading and loading it adds pages of it. -/
theorem loadExecutable_ends (h : m.memory.Valid) (hs : s < m.spaces.size) (handle : Handle) :
    Run.Ends False (loadExecutable s handle) m fun _ after =>
      m.memory.Loads s handle.file (SegmentPlan.OfImage (m.files.node handle.file).contents) after.memory := by
  simp only [loadExecutable, Run.ends_bind, Run.ends_get, Run.ends_run, Run.ends_pure]
  refine loadImage_ends h hs fun hlength => ?_
  simp only [FileStore.readAt, FileStore.read, FileNode.readAt, slice, List.drop_zero] at hlength ⊢
  rw [List.length_take] at hlength
  exact List.take_of_length_le (by simp only [FileStore.length, FileNode.length] at hlength ⊢; omega)

end DemandPaging
