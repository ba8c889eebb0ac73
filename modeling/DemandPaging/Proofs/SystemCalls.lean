import Mathlib.Logic.Function.Iterate
import DemandPaging.Proofs.OpenFiles
import DemandPaging.SystemCall

/-! # System calls

A system call answers whatever it is given. It maps a file as a whole or not at all, and takes away
pages of files or nothing; and the answer tells which.
-/
namespace DemandPaging
open Memory (Change)

namespace Memory
variable {π : Type} {v w : Memory π} {s file length va offset count : Nat} {writable : Bool}

/-- To space `s` are added `count` pages from `va` on, each with a handle of its own on the next part
of a file of `length` bytes from `offset` on, and chained to the next page. Nothing else changes. -/
structure Maps (v w : Memory π) (s file length : Nat) (writable : Bool) (va offset count : Nat) :
    Prop where
  added : ∀ i < count, w.pages s (va + i * pageSize) = some (.ofFile (v.nextSerial + i)
    (va + i * pageSize) writable
    (mappingSource file (offset + i * pageSize) length (decide (i + 1 < count))))
  kept : ∀ t a, (t = s → ∀ i < count, a ≠ va + i * pageSize) → w.pages t a = v.pages t a
  rest : w = { v with
    pages := w.pages
    nextSerial := v.nextSerial + count
    files := (FileStore.retain · file)^[count] v.files }

theorem Maps.none (v : Memory π) : v.Maps v s file length writable va offset 0 where
  added i hi := absurd hi (Nat.not_lt_zero i)
  kept _ _ _ := rfl
  rest := rfl

/-- One page, and then the others. -/
theorem Maps.cons (h : (v.add s (.ofFile v.nextSerial va writable
      (mappingSource file offset length (decide (0 < count))))).Maps w s file length writable
      (va + pageSize) (offset + pageSize) count) :
    v.Maps w s file length writable va offset (count + 1) := by
  have hnext (start i : Nat) : start + pageSize + i * pageSize = start + (i + 1) * pageSize := by
    rw [Nat.succ_mul]
    omega
  refine ⟨?_, fun t a hne => ?_, ?_⟩
  · rintro (_ | i) hi
    · rw [h.kept s _ fun _ i _ => by simp only [pageSize]; omega]
      simp [add, setPage, setAt, Page.ofFile]
    · have hadded := h.added i (by omega)
      simp only [hnext, add, Nat.add_assoc, Nat.add_comm 1 i] at hadded
      simpa only [Nat.add_lt_add_iff_right] using hadded
  · rw [h.kept t a fun ht i hi => hnext va i ▸ hne ht (i + 1) (by omega)]
    refine setAt_of_ne fun hat => ?_
    exact hne hat.1 0 (Nat.succ_pos _) (by simpa [Page.ofFile] using hat.2)
  · refine h.rest.trans ?_
    simp only [add, setPage, Function.iterate_succ_apply, Nat.add_assoc, Nat.add_comm 1]
    rfl

end Memory

/-- Nothing has happened but that something was reported. -/
def Machine.Untouched {π : Type} (m after : Machine π) : Prop := after = { m with events := after.events }

/-- At `a` in space `s` there is a page of a file. -/
def Machine.FileAt {π : Type} (m : Machine π) (s a : Nat) : Prop :=
  ∃ p, m.memory.pages s a = some p ∧ p.isFile = true

/-- There is nothing to be said against mapping what is open as `h` under the descriptor in `fdWord`. -/
structure Machine.Accepts {π : Type} (m : Machine π) (s addr length fdWord offset : Nat) (h : Handle) :
    Prop where
  descriptor : descriptorOf? fdWord = some (signed32 fdWord)
  opened : openHandle? m s (signed32 fdWord) = some h
  signed : addr < signedLimit
  mappable : mappingObjection? (m.space s) addr length (m.files.length h.file) offset = none

/-- Reports have no say in it. -/
theorem Machine.accepts_report {π : Type} {m : Machine π} {s addr length fdWord offset : Nat} {h : Handle}
    {e : Event} : (m.report e).Accepts s addr length fdWord offset h ↔
      m.Accepts s addr length fdWord offset h :=
  ⟨fun ⟨hfd, hopen, hsigned, hmap⟩ => ⟨hfd, hopen, hsigned, hmap⟩,
    fun ⟨hfd, hopen, hsigned, hmap⟩ => ⟨hfd, hopen, hsigned, hmap⟩⟩

variable {π : Type} [ReplacementPolicy π] {m : Machine π} {s : Nat}

/-- What a loop over pages adds, exactly. -/
theorem mapPages_maps {file length va offset count : Nat} {writable : Bool}
    (hs : s < m.spaces.size) (hva : va % pageSize = 0)
    (hfree : ∀ a, va ≤ a → a < va + count * pageSize → m.memory.pages s a = none) :
    Run.Ends False (mapPages s writable file length va offset count) m fun _ after =>
      m.memory.Maps after.memory s file length writable va offset count := by
  induction count generalizing m va offset with
  | zero => exact .none _
  | succ count ih =>
    refine ends_mapPages_succ hs hva hfree fun m₁ ha hs₁ hva₁ hfree₁ => ?_
    refine (ih hs₁ hva₁ hfree₁).imp fun _ after hmaps => ?_
    rw [ha.of_insert.1] at hmaps
    exact hmaps.cons

omit [ReplacementPolicy π] in
/-- Nothing is mapped at address 0, and no empty range. -/
theorem mappingObjection?_pos {space : Space} {addr length fileLength offset : Nat}
    (h : mappingObjection? space addr length fileLength offset = none) : 0 < addr ∧ 0 < length := by
  rw [mappingObjection?] at h
  split at h
  · cases h
  · omega

omit [ReplacementPolicy π] in
/-- It is objected to a mapping that has no end in user memory. -/
theorem exists_mappingEnd? {space : Space} {addr length fileLength offset : Nat}
    (h : mappingObjection? space addr length fileLength offset = none) :
    ∃ stop, mappingEnd? addr length = some stop := by
  cases hend : mappingEnd? addr length with
  | some stop => exact ⟨stop, rfl⟩
  | none =>
    simp only [mappingObjection?, hend] at h
    repeat' split at h
    all_goals cases h

/-- A request is accepted, and its pages are mapped, or all that it does is to be reported. -/
theorem mapFile_maps {file : Nat} (hs : s < m.spaces.size) (addr length : Nat) (writable : Bool)
    (offset : Nat) : Attempt.Ends False (mapFile s addr length writable file offset) m
      (fun answer after => answer = addr ∧ 0 < addr ∧ 0 < mappedPages length ∧
        (∀ i < mappedPages length, m.memory.pages s (addr + i * pageSize) = none) ∧
        m.memory.Maps after.memory s file (m.files.length file) writable addr offset
          (mappedPages length))
      fun e after => e = .invalidMapping ∧ m.Untouched after := by
  simp only [mapFile, Attempt.ends_bind, Attempt.ends_get]
  split
  · rename_i stop hobjection hend
    obtain ⟨hstop, -, hcount⟩ := mappingEnd?_eq_some hend
    obtain ⟨hva, -, hfree⟩ := mappingObjection?_eq_none hobjection hend
    obtain ⟨hpos, hlength⟩ := mappingObjection?_pos hobjection
    rw [hcount] at hstop
    simp only [Attempt.ends_bind, Attempt.ends_lift, Attempt.ends_modify, Attempt.ends_pure, hcount]
    refine (mapPages_maps hs hva (hstop ▸ hfree)).imp fun _ after hmaps => ?_
    refine ⟨trivial, hpos, ?_, fun i hi => hfree _ (by omega) ?_, hmaps⟩
    · simp only [mappedPages, pageSize]
      omega
    · rw [hstop]
      simp only [pageSize]
      omega
  · simp only [Attempt.ends_bind, Attempt.ends_modify, Attempt.ends_throw, true_and]
    cases mappingObjection? (m.space s) addr length (m.files.length file) offset <;> rfl

omit [ReplacementPolicy π] in
/-- A request is accepted exactly if there is nothing to be said against it. -/
theorem mapFile_decides {file : Nat} (addr length : Nat) (writable : Bool) (offset : Nat) :
    Attempt.Ends True (mapFile s addr length writable file offset) m
      (fun _ _ => mappingObjection? (m.space s) addr length (m.files.length file) offset = none)
      fun _ _ => mappingObjection? (m.space s) addr length (m.files.length file) offset ≠ none := by
  simp only [mapFile, Attempt.ends_bind, Attempt.ends_get]
  split
  · rename_i hobjection _
    simp only [Attempt.ends_bind, Attempt.ends_lift, Attempt.ends_modify, Attempt.ends_pure]
    exact Run.ends_true.imp fun _ _ _ => hobjection
  · rename_i hrefused
    simp only [Attempt.ends_bind, Attempt.ends_modify, Attempt.ends_throw]
    intro hnone
    obtain ⟨stop, hstop⟩ := exists_mappingEnd? hnone
    exact hrefused stop hnone hstop

/-- Either the page of `va` is one of a file, and it is removed, or nothing is. -/
theorem unmapChain_counts {va count limit : Nat} :
    Run.Ends True (unmapChain s va count limit) m fun total after =>
      (total = count ∧ after = m) ∨
      count < total ∧ ∃ p, m.memory.pages s (pageDown va) = some p ∧ p.isFile = true := by
  induction limit generalizing m va count with
  | zero => exact .inl ⟨rfl, rfl⟩
  | succ limit ih =>
    simp only [unmapChain, Run.ends_bind, Run.ends_get]
    cases hp : m.page? s va with
    | none => exact .inl ⟨rfl, rfl⟩
    | some page =>
      rw [Machine.page?_eq] at hp
      simp only [Run.ends_bind, Run.ends_ite, Run.ends_pure, Run.ends_abort]
      refine ⟨fun hfile => ?_, fun _ => .inl ⟨trivial, trivial⟩⟩
      refine Run.ends_true.imp fun _ m₁ _ => ⟨fun _ => ⟨fun _ => ?_, fun _ => trivial⟩, fun _ => ?_⟩
      · refine ih.imp fun total after hend => .inr ⟨?_, page, hp, hfile⟩
        rcases hend with ⟨rfl, -⟩ | ⟨hlt, -⟩ <;> omega
      · exact .inr ⟨Nat.lt_succ_self _, page, hp, hfile⟩

theorem unmapFile_removes {addr : Nat} : Attempt.Ends True (unmapFile s addr) m
    (fun _ _ => ∃ p, m.memory.pages s (pageDown addr) = some p ∧ p.isFile = true)
    fun e after => e = .invalidMapping ∧ m.Untouched after := by
  simp only [unmapFile, Attempt.ends_bind, Attempt.ends_get, Attempt.ends_lift, Attempt.ends_ite,
    Attempt.ends_modify, Attempt.ends_throw, true_and]
  refine unmapChain_counts.imp ?_
  rintro total after (⟨rfl, rfl⟩ | ⟨hlt, hp⟩)
  · exact ⟨fun _ => rfl, fun hne => absurd rfl hne⟩
  · exact ⟨fun heq => absurd heq (by omega), fun _ => hp⟩

/-- Where there is a page of a file it is removed, with others. Otherwise all that an unmapping does is
to be reported. No page of user memory is the last of all addresses. -/
theorem unmapFile_unmaps (h : m.memory.Valid) (hu : m.memory.InUser) (addr : Nat) :
    Attempt.Ends False (unmapFile s addr) m
      (fun _ after => m.memory.Unmaps s (pageDown addr) after.memory ∧ m.FileAt s (pageDown addr) ∧
        after.memory.pages s (pageDown addr) = none)
      fun e after => e = .invalidMapping ∧ m.Untouched after ∧ ¬m.FileAt s (pageDown addr) := by
  have hlast : ∀ a p, m.memory.pages s a = some p → p.isFile = true → wordLimit ≤ a + pageSize →
      False := by
    intro a p hp _ hle
    have := hu s a p hp
    simp only [kernelBase, wordLimit, pageSize] at this hle
    omega
  refine ((unmapFile_ends h hlast addr).and unmapFile_removes).imp ?_ ?_
  · rintro _ after ⟨⟨hunmaps, -⟩, p, hp, hfile⟩
    obtain ⟨pages, -, -, hgone⟩ := id hunmaps
    refine ⟨hunmaps, ⟨p, hp, hfile⟩, ?_⟩
    simpa using hgone 1 (.single hp hfile) 0 Nat.one_pos
  · rintro e after ⟨⟨hunmaps, hsame⟩, rfl, huntouched⟩
    refine ⟨rfl, huntouched, ?_⟩
    rintro ⟨p, hp, hfile⟩
    cases hfile.symm.trans (hunmaps.not_file hsame hp)

/-- A file is mapped under a descriptor that is open, at an address that no error could be taken for;
or the request is rejected. -/
theorem mapSystemCall_ends (hs : s < m.spaces.size) (addr length prot fdWord offset : Nat) :
    Run.Ends False (mapSystemCall s addr length prot fdWord offset) m fun r after =>
      (r = addr ∧ 0 < addr ∧ 0 < mappedPages length ∧ ∃ h, m.Accepts s addr length fdWord offset h ∧
        (∀ i < mappedPages length, m.memory.pages s (addr + i * pageSize) = none) ∧
        m.memory.Maps after.memory s h.file (m.files.length h.file) (prot.testBit 1) addr offset
          (mappedPages length)) ∨
      ((r = -badDescriptor ∨ r = -invalidArgument) ∧ m.Untouched after ∧
        ∀ h, ¬m.Accepts s addr length fdWord offset h) := by
  rw [mapSystemCall]
  cases hfd : descriptorOf? fdWord with
  | none => exact .inr ⟨.inl rfl, rfl, fun h haccepts => by cases hfd.symm.trans haccepts.descriptor⟩
  | some fd =>
    have hsigned : signed32 fdWord = fd := by
      simp only [descriptorOf?] at hfd
      split at hfd
      · exact Option.some.inj hfd
      · cases hfd
    simp only [Run.ends_bind, Run.ends_ite, Run.ends_pure, Run.ends_get]
    refine ⟨fun hle => .inr ⟨.inr trivial, rfl, fun h haccepts => ?_⟩, fun hlt => ?_⟩
    · exact absurd haccepts.signed (Nat.not_lt_of_le hle)
    cases hopen : openHandle? m s fd with
    | none =>
      refine .inr ⟨.inl rfl, rfl, fun h haccepts => ?_⟩
      cases hopen.symm.trans (hsigned ▸ haccepts.opened)
    | some h =>
      simp only [Run.ends_bind, Run.ends_run]
      refine ((mapFile_maps hs addr length _ offset).and
        (mapFile_decides addr length _ offset)).imp ?_ ?_
      · rintro _ after ⟨⟨rfl, hpos, hcount, hfree, hmaps⟩, hmappable⟩
        exact .inl ⟨rfl, hpos, hcount, h, ⟨hsigned ▸ hfd, hsigned ▸ hopen, Nat.lt_of_not_le hlt, hmappable⟩,
          hfree, hmaps⟩
      · rintro _ after ⟨⟨rfl, huntouched⟩, hobjection⟩
        refine .inr ⟨.inr rfl, huntouched, fun h' haccepts => ?_⟩
        obtain rfl := Option.some.inj (hopen.symm.trans (hsigned ▸ haccepts.opened))
        exact hobjection haccepts.mappable

theorem unmapSystemCall_ends (h : m.memory.Valid) (hu : m.memory.InUser) (addr : Nat) :
    Run.Ends False (unmapSystemCall s addr) m fun r after =>
      (r = 0 ∧ m.memory.Unmaps s (pageDown addr) after.memory ∧ m.FileAt s (pageDown addr) ∧
        after.memory.pages s (pageDown addr) = none) ∨
      (r = -invalidArgument ∧ m.Untouched after ∧ ¬m.FileAt s (pageDown addr)) := by
  simp only [unmapSystemCall, Run.ends_bind, Run.ends_run]
  refine (unmapFile_unmaps h hu addr).imp ?_ ?_
  · rintro _ after hunmaps
    exact .inl ⟨rfl, hunmaps⟩
  · rintro _ after ⟨rfl, huntouched⟩
    exact .inr ⟨rfl, huntouched⟩

/-- What a process does to memory by its system calls: changes in user memory, and paging. -/
def Memory.Serves (v w : Memory π) : Prop := ∃ cs, Memory.Evolves cs v w ∧ ∀ c ∈ cs, c.AtUser

theorem Memory.Serves.refl (v : Memory π) : v.Serves v := ⟨[], .refl v, List.forall_mem_nil _⟩

theorem mapSystemCall_serves (hs : s < m.spaces.size) (addr length prot fdWord offset : Nat) :
    Run.Ends True (mapSystemCall s addr length prot fdWord offset) m fun _ after =>
      m.memory.Serves after.memory := by
  rw [mapSystemCall]
  cases descriptorOf? fdWord with
  | none => exact .refl _
  | some fd =>
    simp only [Run.ends_bind, Run.ends_ite, Run.ends_pure, Run.ends_get]
    refine ⟨fun _ => .refl _, fun _ => ?_⟩
    cases openHandle? m s fd with
    | none => exact .refl _
    | some h =>
      simp only [Run.ends_bind, Run.ends_run]
      refine ((mapFile_ends hs addr length _ offset).weaken fun _ => trivial).imp ?_ ?_
      · rintro _ after ⟨-, -, -, cs, hlaid, hquiet⟩
        refine ⟨cs, hquiet.evolves, fun c hc => ?_⟩
        obtain ⟨page, source, rfl, hva, -⟩ := hlaid.mapsIn c hc
        exact hva
      · intro _ after hsame
        show m.memory.Serves after.memory
        rw [hsame]
        exact .refl _

theorem unmapSystemCall_serves (h : m.memory.Valid) (addr : Nat) :
    Run.Ends True (unmapSystemCall s addr) m fun _ after => m.memory.Serves after.memory := by
  have hserves {w : Memory π} (hunmaps : m.memory.Unmaps s (pageDown addr) w) :
      m.memory.Serves w := by
    obtain ⟨pages, -, hquiet, -⟩ := hunmaps
    exact ⟨_, hquiet.evolves, List.forall_mem_map.mpr fun _ _ => trivial⟩
  simp only [unmapSystemCall, Run.ends_bind, Run.ends_run]
  exact (unmapFile_ends h (fun _ _ _ _ _ => trivial) addr).imp (fun _ _ hend => hserves hend.1)
    fun _ _ hend => hserves hend.1

theorem systemCall_serves (h : m.memory.Valid) (hs : s < m.spaces.size) (number a b c d e : Nat) :
    Run.Ends True (systemCall s number a b c d e) m fun _ after =>
      m.memory.Serves after.memory := by
  simp only [systemCall, Run.ends_bind, Run.ends_modify, Run.ends_ite, Run.ends_pure]
  exact ⟨fun _ => mapSystemCall_serves (m := m.report _) hs a b c d e,
    fun _ => ⟨fun _ => unmapSystemCall_serves (m := m.report _) h a, fun _ => .refl _⟩⟩

/-- The machines that processes reach. They perform operations on user memory and call the system with
anything; transfers move the cursors of their descriptors; and in between files and the disk may come
to hold anything, and files to be opened and closed by others. -/
inductive UserRuns (first : Machine π) : Machine π → Prop
  | start : UserRuns first first
  | perform {m after : Machine π} {op : Operation} {reply : Reply} (h : UserRuns first m)
    (hop : op.Allowed m) (huser : op.AtUser) (hp : op.perform m = .ok reply after) :
    UserRuns first after
  | call {m after : Machine π} {s number a b c d e : Nat} {r : Int} (h : UserRuns first m)
    (hs : s < m.spaces.size) (hp : systemCall s number a b c d e m = .ok r after) :
    UserRuns first after
  | moved {m after : Machine π} {s : Nat} {fd : Int} {before handle : Handle} (h : UserRuns first m)
    (hopen : openHandle? m s fd = some before) (hfile : handle.file = before.file)
    (hp : updateHandle s fd handle m = .ok ⟨⟩ after) : UserRuns first after
  | elsewhere {m : Machine π} (h : UserRuns first m) (device : Device) (files : FileStore)
    (hsize : device.size = m.swap.device.size) :
    UserRuns first { m with swap := { m.swap with device }, files }

/-- Memory stays valid, and its pages in user memory. -/
theorem UserRuns.valid {first : Machine π} (h : UserRuns first m) (hvalid : first.memory.Valid)
    (huser : first.memory.InUser) : m.memory.Valid ∧ m.memory.InUser := by
  have hserves {v w : Memory π} (hv : v.Valid ∧ v.InUser) (h : v.Serves w) :
      w.Valid ∧ w.InUser := by
    obtain ⟨cs, hevolves, hcs⟩ := h
    exact ⟨hv.1.evolves hevolves, hv.2.evolves hcs hevolves⟩
  induction h with
  | start => exact ⟨hvalid, huser⟩
  | perform _ hop huser hp ih =>
    obtain ⟨cs, hevolves, hcs⟩ := ((Operation.perform_ends ih.1 hop).of_ok hp).evolves
    exact hserves ih ⟨cs, hevolves, hcs huser⟩
  | call _ hs hp ih => exact hserves ih ((systemCall_serves ih.1 hs ..).of_ok hp)
  | @moved m after _ _ _ _ _ _ _ hp ih =>
    have hsame : after.memory = m.memory := by
      obtain ⟨-, rfl⟩ := EStateM.Result.ok.inj hp
      exact Machine.memory_modifyProcess _
    exact hsame ▸ ih
  | elsewhere _ device files hsize ih => exact ⟨ih.1.elsewhere hsize files, ih.2⟩

/-- Page `a` of space `s` is there after and was not before. -/
def Machine.AddsAt (m after : Machine π) (s a : Nat) : Prop :=
  m.memory.pages s a = none ∧ after.memory.pages s a ≠ none

/-- A page of a file, at `a` in space `s`, is not there any more. -/
def Machine.RemovesFileAt (m after : Machine π) (s a : Nat) : Prop :=
  ∃ p, m.memory.pages s a = some p ∧ p.isFile = true ∧ after.memory.pages s a = none

/-- What the answer to a system call tells. -/
structure Machine.Answers (m after : Machine π) (s number a b c d e : Nat) (r : Int) : Prop where
  /-- A mapping is answered with its address, which is positive, or with an error. -/
  map : number = mapCall →
    (0 < r ↔ ∃ x, m.AddsAt after s x) ∧
    (0 < r ↔ ∃ h, m.Accepts s a b d e h) ∧
    (0 < r → r = a ∧ ∃ h, openHandle? m s (signed32 d) = some h ∧
      m.memory.Maps after.memory s h.file (m.files.length h.file) (c.testBit 1) a e (mappedPages b)) ∧
    (¬0 < r → (r = -badDescriptor ∨ r = -invalidArgument) ∧ m.Untouched after)
  /-- An unmapping is answered with zero where there is a page of a file, or with an error. -/
  unmap : number = unmapCall →
    (r = 0 ↔ ∃ x, m.RemovesFileAt after s x) ∧
    (r = 0 ↔ m.FileAt s (pageDown a)) ∧
    (r = 0 → m.memory.Unmaps s (pageDown a) after.memory) ∧
    (r ≠ 0 → r = -invalidArgument ∧ m.Untouched after)
  other : number ≠ mapCall → number ≠ unmapCall → r = -noSystemCall ∧ m.Untouched after

omit [ReplacementPolicy π] in
/-- Where nothing has happened no page has come. -/
theorem Machine.Untouched.not_addsAt {after : Machine π} (h : m.Untouched after) (a : Nat) :
    ¬m.AddsAt after s a := by
  rintro ⟨hnone, hsome⟩
  rw [h] at hsome
  exact hsome hnone

omit [ReplacementPolicy π] in
/-- Nor has one gone. -/
theorem Machine.Untouched.not_removesFileAt {after : Machine π} (h : m.Untouched after) (a : Nat) :
    ¬m.RemovesFileAt after s a := by
  rintro ⟨p, hp, -, hgone⟩
  rw [h] at hgone
  cases hp.symm.trans hgone

/-- A call that is answered by what it did to memory: none of the answers could be another. -/
theorem systemCall_ends (h : m.memory.Valid) (hu : m.memory.InUser) (hs : s < m.spaces.size)
    (number a b c d e : Nat) : Run.Ends False (systemCall s number a b c d e) m fun r after =>
      m.Answers after s number a b c d e r := by
  simp only [systemCall, Run.ends_bind, Run.ends_modify, Run.ends_ite, Run.ends_pure]
  refine ⟨fun hmap => ?_, fun hmap => ⟨fun hunmap => ?_, fun hunmap => ?_⟩⟩
  · refine (mapSystemCall_ends (m := m.report _) hs a b c d e).imp fun r after hend => ?_
    simp only [Machine.accepts_report] at hend
    refine ⟨fun _ => ?_, fun hunmap => ?_, fun hne => absurd hmap hne⟩
    · rcases hend with ⟨rfl, hpos, hcount, handle, haccepts, hfree, hmaps⟩ | ⟨hr, huntouched, hnot⟩
      · have hadds : m.AddsAt after s a := by
          have hfirst := hmaps.added 0 hcount
          have hnone := hfree 0 hcount
          rw [Nat.zero_mul, Nat.add_zero] at hfirst hnone
          exact ⟨hnone, by rw [hfirst]; simp⟩
        have hanswer : (0 : Int) < a := by omega
        exact ⟨⟨fun _ => ⟨a, hadds⟩, fun _ => hanswer⟩, ⟨fun _ => ⟨handle, haccepts⟩, fun _ => hanswer⟩,
          fun _ => ⟨rfl, handle, haccepts.opened, hmaps⟩, fun hneg => absurd hanswer hneg⟩
      · have hneg : ¬0 < r := by rcases hr with rfl | rfl <;> decide
        have hnone : ¬∃ x, m.AddsAt after s x := not_exists.mpr huntouched.not_addsAt
        exact ⟨⟨fun hpos => absurd hpos hneg, fun hadds => absurd hadds hnone⟩,
          ⟨fun hpos => absurd hpos hneg, fun haccepts => absurd haccepts (not_exists.mpr hnot)⟩,
          fun hpos => absurd hpos hneg, fun _ => ⟨hr, huntouched⟩⟩
    · rw [hmap] at hunmap
      cases hunmap
  · refine (unmapSystemCall_ends (m := m.report _) h hu a).imp fun r after hend => ?_
    refine ⟨fun hmap' => absurd hmap' hmap, fun _ => ?_, fun _ hne => absurd hunmap hne⟩
    rcases hend with ⟨rfl, hunmaps, hfile, hgone⟩ | ⟨rfl, huntouched, hnot⟩
    · obtain ⟨p, hp, hisFile⟩ := id hfile
      exact ⟨⟨fun _ => ⟨_, p, hp, hisFile, hgone⟩, fun _ => rfl⟩, ⟨fun _ => hfile, fun _ => rfl⟩,
        fun _ => hunmaps, fun hne => absurd rfl hne⟩
    · have hne : -(invalidArgument : Int) ≠ 0 := by decide
      have hnone : ¬∃ x, m.RemovesFileAt after s x := not_exists.mpr huntouched.not_removesFileAt
      exact ⟨⟨fun hzero => absurd hzero hne, fun hgone => absurd hgone hnone⟩,
        ⟨fun hzero => absurd hzero hne, fun hfile => absurd hfile hnot⟩,
        fun hzero => absurd hzero hne, fun _ => ⟨rfl, huntouched⟩⟩
  · exact ⟨fun h => absurd h hmap, fun h => absurd h hunmap, fun _ _ => ⟨rfl, rfl⟩⟩

/-- Whatever processes have done, every call of one of them is answered, and the answer tells what the
call has done. -/
theorem every_systemCall_answers {count : Nat} {device : Device} {policy : π} {files : FileStore}
    (h : UserRuns (Machine.start count device policy files) m) (hs : s < m.spaces.size)
    (number a b c d e : Nat) : ∃ r after, systemCall s number a b c d e m = .ok r after ∧
      m.Answers after s number a b c d e r := by
  have hnone : (Machine.start count device policy files).memory.InUser := by
    intro t x p hp
    rw [(Machine.start_spaceless count device policy files t x).1] at hp
    cases hp
  obtain ⟨hvalid, huser⟩ := h.valid (Machine.valid_start ..) hnone
  have hends := systemCall_ends hvalid huser hs number a b c d e
  obtain ⟨r, after, hx⟩ := hends.answers id
  exact ⟨r, after, hx, hends.of_ok hx⟩

/-- A process that maps three bytes of a file under a descriptor whose word has high bits set, and takes
the mapping away again. -/
theorem every_systemCall_answers_map : ∃ m : Machine Fifo,
    UserRuns (.start 2 { name := "swap", kind := .swap, size := 0, disk := .zeroed 0 } {}
      { nodes := #[{ contents := [1, 2, 3], handles := 1 }] }) m ∧
    ∃ mapped, systemCall 0 mapCall 4096 3 3 (2 ^ 40 + 3) 0 m = .ok 4096 mapped ∧
      (∃ a, m.AddsAt mapped 0 a) ∧
      ∃ after, systemCall 0 unmapCall 4096 0 0 0 0 mapped = .ok 0 after ∧
        ∃ a, mapped.RemovesFileAt after 0 a := by
  let first : Machine Fifo := .start 2 { name := "swap", kind := .swap, size := 0, disk := .zeroed 0 } {}
    { nodes := #[{ contents := [1, 2, 3], handles := 1 }] }
  let alone : Machine Fifo := first.addSpace { process := { pid := 1 } }
  have hcreate : (Operation.createProcess 1).perform first = .ok (.space 0) alone := rfl
  let m : Machine Fifo := alone.modifyProcess 0 fun p =>
    { p with descriptors := p.descriptors.insert 3 { file := 0 } }
  have hopen : (Operation.openFile 0 { file := 0 }).perform alone = .ok (.descriptor 3) m :=
    Operation.perform_openFile Descriptors.next?_empty
  have hrun : UserRuns first m :=
    (UserRuns.start.perform (by decide +kernel) (by decide +kernel) hcreate).perform
      (by decide +kernel) (by decide +kernel) hopen
  have hs : 0 < m.spaces.size := by decide +kernel
  obtain ⟨r, mapped, hx, hanswers⟩ :=
    every_systemCall_answers hrun hs mapCall 4096 3 3 (2 ^ 40 + 3) 0
  have hanswer : (match systemCall 0 mapCall 4096 3 3 (2 ^ 40 + 3) 0 m with
      | .ok r _ => decide (0 < r)
      | .error _ _ => false) = true := by decide +kernel
  rw [hx] at hanswer
  obtain ⟨hadds, -, hmaps, -⟩ := hanswers.map rfl
  have hpos : 0 < r := of_decide_eq_true hanswer
  obtain ⟨rfl, handle, -, hmaps⟩ := hmaps hpos
  have hspaces : mapped.memory.spaces = m.memory.spaces := by rw [hmaps.rest]
  obtain ⟨r', after, hx', hanswers'⟩ := every_systemCall_answers (hrun.call hs hx)
    (Nat.lt_of_lt_of_eq hs hspaces.symm) unmapCall 4096 0 0 0 0
  obtain ⟨hremoves, hfile, -⟩ := hanswers'.unmap rfl
  have hthere : mapped.FileAt 0 (pageDown 4096) := ⟨_, hmaps.added 0 (by decide), rfl⟩
  obtain rfl := hfile.mpr hthere
  exact ⟨m, hrun, mapped, hx, hadds.mp hpos, after, hx', hremoves.mp rfl⟩

end DemandPaging
