import DemandPaging.Process
import DemandPaging.Proofs.Access
import DemandPaging.Proofs.Loading
import DemandPaging.Proofs.Mapping

/-! # Operations of processes

What each operation of a process does to memory. Descriptors, saved stack pointers and numbers of
live handles are no part of what these statements are about.
-/
namespace DemandPaging
open Memory (Change)

theorem Space.willing_process (p : Process) : ({ process := p } : Space).Willing := fun _ _ => rfl

theorem FileStore.contents_foldl {α : Type} (step : FileStore → α → FileStore)
    (hstep : ∀ files a f, ((step files a).node f).contents = (files.node f).contents) (l : List α)
    (files : FileStore) (f : Nat) : ((l.foldl step files).node f).contents = (files.node f).contents := by
  induction l generalizing files with
  | nil => rfl
  | cons a rest ih => exact (ih (step files a)).trans (hstep files a f)

theorem FileStore.transferLimits_foldl {α : Type} (step : FileStore → α → FileStore)
    (hstep : ∀ files a f, (step files a).transferLimits f = files.transferLimits f) (l : List α)
    (files : FileStore) (f : Nat) : (l.foldl step files).transferLimits f = files.transferLimits f := by
  induction l generalizing files with
  | nil => rfl
  | cons a rest ih => exact (ih (step files a)).trans (hstep files a f)

variable {π : Type} [ReplacementPolicy π] {m : Machine π} {s : Nat}

/-- A new space has nothing in it. -/
theorem Machine.alters_addSpace (space : Space) (hp : space.pages = ∅) (hd : space.directory = {}) :
    m.memory.Alters (.spawn space.Willing) (m.addSpace space).memory := by
  rw [memory_addSpace space hp hd]
  exact .spawn _

theorem createProcess_ends (pid : Nat) :
    Run.Ends False (createProcess pid) m fun answer after =>
      answer = m.memory.spaces ∧ Memory.Quiet [.spawn True] m.memory after.memory := by
  simp only [createProcess, Run.ends_bind, Run.ends_get, Run.ends_modify, Run.ends_pure]
  refine ⟨rfl, .of_change ?_ trivial⟩
  rw [← eq_true (Space.willing_process { pid })]
  exact Machine.alters_addSpace _ rfl rfl

omit [ReplacementPolicy π] in
/-- A descriptor is given out unless there is none left. -/
theorem openFile_ends (h : Handle) :
    Run.Ends ((m.process s).descriptors.next? = none) (openFile s h) m fun _ after =>
      after.memory = m.memory := by
  simp only [openFile, Run.ends_bind, Run.ends_get]
  cases hnext : (m.process s).descriptors.next? with
  | none => exact Run.ends_abort.mpr rfl
  | some fd =>
    simp only [Run.ends_bind, Run.ends_modify, Run.ends_pure]
    exact Machine.memory_modifyProcess _

theorem closeFile_ends (fd : Int) :
    Run.Ends False (closeFile s fd) m fun _ after => Memory.Rests m.memory after.memory := by
  simp only [closeFile, Run.ends_bind, Run.ends_get]
  cases (m.process s).descriptors.get? fd with
  | none => exact .refl _
  | some h =>
    simp only [Run.ends_bind, Run.ends_modify, Run.ends_pure]
    rw [Machine.memory_modifyProcess]
    exact .of_step (.handles fun f => FileStore.contents_release ..)
      (.of_pages rfl fun f => FileStore.transferLimits_release)

theorem closeAll_ends :
    Run.Ends False (closeAll s) m fun _ after => Memory.Rests m.memory after.memory := by
  simp only [closeAll, Run.ends_modify]
  rw [Machine.memory_modifyProcess]
  exact .of_step (.handles fun f =>
    FileStore.contents_foldl _ (fun _ _ _ => FileStore.contents_release ..) _ _ f) (.of_pages rfl
      fun f => FileStore.transferLimits_foldl _ (fun _ _ _ => FileStore.transferLimits_release) _ _ f)

theorem inheritDescriptors_ends (child : Nat) :
    Run.Ends False (inheritDescriptors s child) m fun _ after =>
      Memory.Rests m.memory after.memory := by
  simp only [inheritDescriptors, Run.ends_modify]
  rw [Machine.memory_modifyProcess]
  exact .of_step (.handles fun f =>
    FileStore.contents_foldl _ (fun _ _ _ => FileStore.contents_retain ..) _ _ f) (.of_pages rfl
      fun f => FileStore.transferLimits_foldl _ (fun _ _ _ => FileStore.transferLimits_retain) _ _ f)

theorem loadProgram_ends (h : m.memory.Valid) (hs : s < m.spaces.size) (handle : Handle) :
    Run.Ends False (loadProgram s handle) m fun _ after =>
      m.memory.Loads s handle.file (SegmentPlan.OfImage (m.files.node handle.file).contents) after.memory := by
  simp only [loadProgram, Run.ends_bind]
  refine (loadExecutable_ends h hs handle).imp ?_
  rintro ⟨_, answer⟩ m₁ hload
  cases answer with
  | error e => exact hload
  | ok program =>
    simp only [Run.ends_bind, Run.ends_modify, Run.ends_pure, saveStackPointer]
    rw [Machine.memory_report, Machine.memory_modifyProcess]
    exact hload

/-- A fault of a process is resolved as one of its space. -/
theorem processFault_ends (h : m.memory.Valid) (hs : s < m.spaces.size) (fault : PageFault)
    (userEsp : Nat) :
    Attempt.Ends False (processFault s fault userEsp) m
      (fun _ after => ∃ cs, Grown s (pageDown fault.addr) cs ∧
        Memory.Course (fault.Moves m.memory s) cs m.memory after.memory ∧
        (after.memory.pages s (pageDown fault.addr)).isSome)
      fun _ after => ∃ cs, Undone s (pageDown fault.addr) cs ∧
        Memory.Quiet cs m.memory after.memory := by
  -- The saved stack pointer is no part of memory.
  have hfault : ∀ m₁ : Machine π, m₁.memory = m.memory →
      Attempt.Ends False (tryCatch (handleFault s fault (m₁.process s).esp) fun e => do
        modify fun m => m.report (.processFault (m.process s).pid fault.addr e)
        throw e) m₁
        (fun _ after => ∃ cs, Grown s (pageDown fault.addr) cs ∧
          Memory.Course (fault.Moves m.memory s) cs m.memory after.memory ∧
          (after.memory.pages s (pageDown fault.addr)).isSome)
        fun _ after => ∃ cs, Undone s (pageDown fault.addr) cs ∧
          Memory.Quiet cs m.memory after.memory := by
    intro m₁ hm₁
    simp only [Attempt.ends_tryCatch, Attempt.ends_bind, Attempt.ends_modify, Attempt.ends_throw]
    rw [← hm₁] at h ⊢
    refine (handleFault_ends h (Machine.lt_spaces hm₁ hs) fault _).imp ?_ ?_
    · rintro _ after ⟨cs, hcs, hevolves, hthere, -⟩
      exact ⟨cs, hcs, hevolves, hthere⟩
    · rintro e after ⟨cs, hcs, hevolves, -⟩
      exact ⟨cs, hcs, hevolves⟩
  simp only [processFault, Attempt.ends_bind, Attempt.ends_get, Attempt.ends_ite, Attempt.ends_lift,
    saveStackPointer, Run.ends_modify]
  exact ⟨fun _ => hfault _ (Machine.memory_modifyProcess _), fun _ => hfault m rfl⟩

theorem readUser_ends (h : m.memory.Valid) (hs : s < m.spaces.size) (addr count : Nat) :
    Run.Ends False (readUser s addr count) m fun answer after => ∃ v cs va,
      Reads s addr m.memory answer.1 v ∧ Undone s va cs ∧ Memory.Quiet cs v after.memory ∧
      answer.1.length ≤ count ∧ (answer.2 = none → answer.1.length = count ∧ cs = []) := by
  simp only [readUser, Run.ends_bind, Run.ends_get]
  exact copyFromUser_ends h hs _ addr count

theorem writeUser_ends (h : m.memory.Valid) (hs : s < m.spaces.size) (addr : Nat)
    (bytes : List UInt8) :
    Attempt.Ends False (writeUser s addr bytes) m
      (fun _ after => ∃ cs, Wrote s addr m.memory bytes cs after.memory)
      fun _ after => ∃ k cs us va v, Wrote s addr m.memory (bytes.take k) cs v ∧ Undone s va us ∧
        Memory.Quiet us v after.memory := by
  simp only [writeUser, Attempt.ends_bind, Attempt.ends_get]
  exact copyToUser_ends h hs _ addr bytes

/-! ## Forks -/

/-- The machine with a new space for a child of process `s`. -/
def Machine.withChild (m : Machine π) (s childPid : Nat) : Machine π :=
  m.addSpace { process := { pid := childPid, esp := (m.process s).esp } }

/-- Space `s` has been emptied. Where none of its pages was dirty, no more was done. -/
structure Machine.Emptied (s : Nat) (m after : Machine π) : Prop where
  removes : ∃ pages : List Page, Memory.Quiet (pages.map (.remove s)) m.memory after.memory ∧
    ((∀ a, ¬m.memory.Dirty s a) → m.memory.Discards s pages after.memory)
  pages : ∀ t a, after.memory.pages t a = if t = s then none else m.memory.pages t a
  standing : after.standing = m.standing.releaseAll (m.space s).pages.values

theorem emptySpace_empties (h : m.memory.Valid) (s : Nat) :
    Run.Ends False (emptySpace s) m fun _ after => m.Emptied s after := by
  refine ((emptySpace_discards h s).and emptySpace_stands).imp ?_
  rintro _ after ⟨⟨pages, hquiet, hpages, hdiscards⟩, hst⟩
  exact ⟨⟨pages, hquiet, hdiscards⟩, hpages, hst⟩

namespace Machine.Emptied
variable {after : Machine π}

theorem valid (he : m.Emptied s after) (h : m.memory.Valid) : after.memory.Valid := by
  obtain ⟨pages, hquiet, -⟩ := he.removes
  exact h.course hquiet

theorem spaces_eq (he : m.Emptied s after) : after.spaces.size = m.spaces.size := by
  obtain ⟨pages, hquiet, -⟩ := he.removes
  exact hquiet.spaces_eq (by simp [Change.Inside])

theorem pages_eq_none (he : m.Emptied s after) (a : Nat) : after.memory.pages s a = none := by
  rw [he.pages, if_pos rfl]

/-- If it is the last space it can go. -/
theorem alters_pop (he : m.Emptied s after) (h : m.memory.Valid) (hlast : m.spaces.size = s + 1) :
    after.memory.Alters .drop ({ after with spaces := after.spaces.pop } : Machine π).memory := by
  have hsize : after.spaces.size = s + 1 := he.spaces_eq.trans hlast
  have hpos : 0 < after.spaces.size := Nat.lt_of_lt_of_eq (Nat.succ_pos s) hsize.symm
  have hnone (a : Nat) : after.memory.pages (after.spaces.size - 1) a = none := by
    rw [hsize, Nat.add_sub_cancel, he.pages_eq_none]
  rw [Machine.memory_dropSpace hpos hnone fun a => (he.valid h).sound.unmapped (hnone a)]
  exact .drop hpos hnone

end Machine.Emptied

namespace Machine
variable (m : Machine π) (s childPid : Nat)

theorem alters_withChild : m.memory.Alters (.spawn True) (m.withChild s childPid).memory := by
  rw [← eq_true (Space.willing_process { pid := childPid, esp := (m.process s).esp })]
  exact alters_addSpace _ rfl rfl

theorem spaces_withChild : (m.withChild s childPid).spaces.size = m.spaces.size + 1 :=
  (alters_withChild m s childPid).of_spawn.1

/-- The space of the child is empty. -/
theorem pages_withChild (a : Nat) : (m.withChild s childPid).memory.pages m.spaces.size a = none := by
  rw [(alters_withChild m s childPid).of_spawn.2]
  exact (memory_spaceless (Nat.le_refl _)).1

end Machine

/-- A fork copies the pages of its process into a new space. When that fails the space is emptied
again, and taken away. -/
theorem fork_steps (h : m.memory.Valid) (childPid : Nat) :
    Attempt.Ends False (fork s childPid) m
      (fun answer after => answer = m.spaces.size ∧ ∃ (pages : List Page) (copied inherited : Machine π),
        (∀ p, p ∈ pages ↔ m.memory.pages s p.va = some p) ∧
        Machine.Copies s m.spaces.size pages (m.withChild s childPid) copied ∧
        inheritDescriptors s m.spaces.size copied = .ok ⟨⟩ inherited ∧
        ∃ event, after = inherited.report event)
      fun _ after => ∃ (pages : List Page) (copied emptied : Machine π),
        Machine.Copies s m.spaces.size pages (m.withChild s childPid) copied ∧
        copied.Emptied m.spaces.size emptied ∧ after = { emptied with spaces := emptied.spaces.pop } := by
  simp only [fork, Attempt.ends_bind, Attempt.ends_get, Attempt.ends_modify, Attempt.ends_tryCatch,
    Attempt.ends_lift, Attempt.ends_throw, Attempt.ends_pure]
  have halters := Machine.alters_withChild m s childPid
  have hvalid := h.evolves (.of_change halters)
  have hlt : m.spaces.size < (m.withChild s childPid).spaces.size := by
    rw [Machine.spaces_withChild]
    exact Nat.lt_succ_self _
  refine (copySpace_ends hvalid hlt (Machine.pages_withChild m s childPid)).imp ?_ ?_
  · rintro _ copied ⟨pages, hall, hcopies⟩
    rw [halters.of_spawn.2] at hall
    exact ⟨trivial, pages, copied, _, hall, hcopies, rfl, _, rfl⟩
  · rintro e copied ⟨pages, hcopies⟩
    have hcopied := hvalid.course hcopies.quiet
    refine (emptySpace_empties (m := copied.report _) hcopied _).imp ?_
    exact fun _ emptied hemptied => ⟨pages, _, emptied, hcopies.report _, hemptied, rfl⟩

/-- The child has a copy of each page of its parent. Of a fork that fails nothing stays. -/
theorem fork_ends (h : m.memory.Valid) (childPid : Nat) :
    Attempt.Ends False (fork s childPid) m
      (fun answer after => answer = m.memory.spaces ∧ ∃ pages : List Page,
        (∀ p, p ∈ pages ↔ m.memory.pages s p.va = some p) ∧
        Memory.Quiet (.spawn True :: pages.map (.copy s m.memory.spaces)) m.memory after.memory)
      fun _ after => after.memory.spaces = m.memory.spaces ∧ ∃ copied removed : List Page,
        Memory.Quiet (.spawn True :: copied.map (.copy s m.memory.spaces) ++
          removed.map (.remove m.memory.spaces) ++ [.drop]) m.memory after.memory := by
  have hspawn : Memory.Quiet _ m.memory (m.withChild s childPid).memory :=
    .of_change (Machine.alters_withChild m s childPid) trivial
  refine (fork_steps h childPid).imp ?_ ?_
  · rintro answer after ⟨rfl, pages, copied, inherited, hall, hcopies, hinherited, event, rfl⟩
    have hrests := (inheritDescriptors_ends _).of_ok hinherited
    exact ⟨rfl, pages, hall, (hspawn.trans hcopies.quiet).rests hrests⟩
  · rintro e after ⟨pages, copied, emptied, hcopies, hemptied, rfl⟩
    have hboth := hspawn.trans hcopies.quiet
    obtain ⟨removed, hremoves, -⟩ := hemptied.removes
    have hlast : copied.spaces.size = m.spaces.size + 1 :=
      (hcopies.quiet.spaces_eq (by simp [Change.Inside])).trans
        (Machine.spaces_withChild m s childPid)
    have hdrop := hemptied.alters_pop (h.course hboth) hlast
    refine ⟨?_, pages, removed, (hboth.trans hremoves).change hdrop trivial⟩
    rw [hdrop.of_drop, show emptied.memory.spaces = m.memory.spaces + 1 from hemptied.spaces_eq.trans hlast,
      Nat.add_sub_cancel]

theorem exit_ends (h : m.memory.Valid) :
    Run.Ends False (exit s) m fun _ after => ∃ pages : List Page,
      Memory.Quiet (pages.map (.remove s)) m.memory after.memory ∧
        ∀ a, after.memory.pages s a = none := by
  simp only [exit, Run.ends_bind, Run.ends_modify]
  refine (emptySpace_ends h s).imp ?_
  rintro _ m₁ ⟨pages, hremoves, hgone⟩
  refine closeAll_ends.imp ?_
  intro _ after hpages
  refine ⟨pages, hremoves.rests hpages, fun a => ?_⟩
  have hsame := Memory.Pages.outline_eq hpages.evolves s a
  rw [hgone, if_pos rfl, Option.map_none, Option.map_eq_none_iff] at hsame
  exact hsame

end DemandPaging
