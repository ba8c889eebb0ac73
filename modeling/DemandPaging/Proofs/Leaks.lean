import DemandPaging.Proofs.OpenFiles

/-! # Nothing leaks

Machines on which processes run, while others open and close the same files, write to them and to the
disk. Every handle stays accounted for on the way, and a space is empty from the exit of its process
on. When all processes have exited nothing is in use any more.
-/
namespace DemandPaging
open Memory (Change Step Alters Evolves)

/-- A change that brings a page to space `s`. -/
def Memory.Change.Fills (s : Nat) : Change → Prop
  | insert t _ => t = s
  | copy _ dst _ => dst = s
  | _ => False

variable {π : Type} [ReplacementPolicy π]

namespace Memory
variable {v w : Memory π} {s : Nat} {c : Change} {cs : List Change}

theorem Alters.pages_eq_none (ha : v.Alters c w) (hc : ¬c.Fills s) (hnone : ∀ a, v.pages s a = none)
    (a : Nat) : w.pages s a = none := by
  cases ha with
  | @insert t page =>
    have hpages : (v.add t page).pages = setAt v.pages t page.va (some page) := rfl
    rw [hpages, setAt_of_ne fun hat => hc hat.1.symm, hnone]
  | @remove t page =>
    rw [pages_discard, setAt_apply, hnone]
    split <;> rfl
  | @copy src dst page backing swap =>
    rw [pages_adopt, setAt_of_ne fun hat => hc hat.1.symm, hnone]
  | write | spawn | drop => exact hnone a

/-- A space that nothing is brought to stays empty. -/
theorem Evolves.pages_eq_none (h : Evolves cs v w) (hcs : ∀ c ∈ cs, ¬c.Fills s)
    (hnone : ∀ a, v.pages s a = none) : ∀ a, w.pages s a = none := by
  refine h.keeps (I := fun w => ∀ a, w.pages s a = none) hnone ?_ ?_
  · intro v w hstep hv a
    have hsame := hstep.outline_eq s a
    rwa [hv, Option.map_none, Option.map_eq_none_iff] at hsame
  · exact fun hmem ha hv => ha.pages_eq_none (hcs _ hmem) hv

end Memory

namespace Operation
variable {v : Memory π} {op : Operation} {c : Change} {s : Nat}

omit [ReplacementPolicy π] in
/-- An operation brings pages only to the space it works on, or to one that it makes. -/
theorem Brings.not_fills (h : op.Brings v c) (hs : s < v.spaces) (hop : op.space? ≠ some s) :
    ¬c.Fills s := by
  have hstack {t : Nat} (ht : t ≠ s) (hc : c.OfStack t) : ¬c.Fills s := by
    rcases hc with ⟨serial, va, -, rfl⟩ | ⟨page, rfl⟩
    · exact ht
    · exact id
  have hne {t : Nat} (ht : some t ≠ some s) : t ≠ s := fun heq => ht (congrArg some heq)
  cases op with
  | createProcess | createTable =>
    obtain rfl := h
    exact id
  | setStackPointer | openFile | closeFile | claim | evict => exact h.elim
  | insert =>
    obtain ⟨serial, rfl⟩ := h
    exact hne hop
  | load =>
    obtain ⟨page, rfl, -⟩ := h
    exact hne hop
  | map =>
    obtain ⟨page, source, rfl, -⟩ := h
    exact hne hop
  | unmap | exit | kill | remove =>
    obtain ⟨page, rfl⟩ := h
    exact id
  | copyTable =>
    obtain ⟨page, rfl⟩ := h
    exact hne hop
  | pageFault | resolveFault | readUser | copyFrom => exact hstack (hne hop) h
  | writeUser | copyTo =>
    rcases h with hc | ⟨i, -, start, chunk, rfl⟩
    · exact hstack (hne hop) hc
    · exact id
  | fork =>
    rcases h with rfl | ⟨page, rfl⟩ | ⟨page, rfl⟩ | rfl
    · exact id
    · exact Nat.ne_of_gt hs
    · exact id
    · exact id

end Operation

/-- Nothing is in space `s` any more, neither pages nor open files. -/
structure Machine.Vacated (m : Machine π) (s : Nat) : Prop where
  lt : s < m.spaces.size
  pages : ∀ a, m.memory.pages s a = none
  descriptors : ∀ p, m.standing.processes[s]? = some p → p.descriptors = {}

section Vacated
variable {m : Machine π} {s : Nat}

omit [ReplacementPolicy π] in
theorem closeAll_closes : Run.Ends True (closeAll s) m fun _ after =>
    ∀ p, after.standing.processes[s]? = some p → p.descriptors = {} := by
  simp only [closeAll, Run.ends_modify]
  rw [Machine.standing_modifyProcess]
  intro p hp
  simp only [List.getElem?_modify_eq, Option.map_eq_map, Option.map_eq_some_iff] at hp
  obtain ⟨_, -, rfl⟩ := hp
  rfl

theorem exit_vacates (h : m.memory.Valid) (hs : s < m.spaces.size) :
    Run.Ends True (exit s) m fun _ after => after.Vacated s := by
  have hcloses : Run.Ends True (exit s) m fun _ after =>
      ∀ p, after.standing.processes[s]? = some p → p.descriptors = {} := by
    simp only [exit, Run.ends_bind, Run.ends_modify]
    exact emptySpace_stands.imp fun _ _ _ => closeAll_closes
  refine (((exit_ends h).weaken False.elim).and hcloses).imp ?_
  rintro _ after ⟨⟨pages, hquiet, hnone⟩, hdescriptors⟩
  have hsize : after.memory.spaces = m.memory.spaces := hquiet.spaces_eq (by simp [Change.Inside])
  exact ⟨Nat.lt_of_lt_of_eq hs hsize.symm, hnone, hdescriptors⟩

end Vacated

/-! ## Runs with handles -/

/-- The last that was asked of space `s` was to exit. -/
def Exited (ops : List Operation) (s : Nat) : Prop :=
  (ops.filter fun op => op.space? = some s).getLast? = some (.exit s)

theorem exited_concat {ops : List Operation} {op : Operation} {s : Nat} (h : Exited (ops ++ [op]) s) :
    op = .exit s ∨ op.space? ≠ some s ∧ Exited ops s := by
  unfold Exited at h
  rw [List.filter_append, List.filter_singleton] at h
  by_cases hop : op.space? = some s
  · rw [decide_eq_true hop, cond_true, List.getLast?_concat] at h
    exact .inl (Option.some.inj h)
  · rw [decide_eq_false hop, cond_false, List.append_nil] at h
    exact .inr ⟨hop, h⟩

/-- The machines that are reached from one by operations, with the operations on the way and with the
handles that are held outside of the machine. In between others may open and close files, transfers
through descriptors may move their cursors, and files and the disk may come to hold anything, may
fail otherwise than before, and may move more or less in one transfer. -/
inductive HandleRuns (first : Machine π) : List Operation → (Nat → Nat) → Machine π → Prop
  | start : HandleRuns first [] first.files.handles first
  | perform {ops : List Operation} {outside : Nat → Nat} {m after : Machine π} {op : Operation}
    {reply : Reply} (h : HandleRuns first ops outside m) (hop : op.Allowed m)
    (hbacked : op.Backed outside) (hp : op.perform m = .ok reply after) :
    HandleRuns first (ops ++ [op]) (fun f => outside f - op.takes f) after
  | opened {ops : List Operation} {outside : Nat → Nat} {m : Machine π}
    (h : HandleRuns first ops outside m) (file : Nat) :
    HandleRuns first ops (fun f => outside f + if file = f then 1 else 0)
      { m with files := m.files.retain file }
  | closed {ops : List Operation} {outside : Nat → Nat} {m : Machine π}
    (h : HandleRuns first ops outside m) {file : Nat} (hheld : 0 < outside file) :
    HandleRuns first ops (fun f => outside f - if file = f then 1 else 0)
      { m with files := m.files.release file }
  | moved {ops : List Operation} {outside : Nat → Nat} {m after : Machine π} {s : Nat} {fd : Int}
    {before handle : Handle} (h : HandleRuns first ops outside m)
    (hopen : openHandle? m s fd = some before) (hfile : handle.file = before.file)
    (hp : updateHandle s fd handle m = .ok ⟨⟩ after) : HandleRuns first ops outside after
  | elsewhere {ops : List Operation} {outside : Nat → Nat} {m : Machine π}
    (h : HandleRuns first ops outside m) (device : Device) (files : FileStore)
    (hsize : device.size = m.swap.device.size) (hfiles : files.handles? = m.files.handles?) :
    HandleRuns first ops outside { m with swap := { m.swap with device }, files }

namespace Machine
variable {m after : Machine π} {s : Nat} {ps : List Process} {outside held held' : Nat → Nat}

omit [ReplacementPolicy π] in
/-- Where files and the disk hold something else, memory is as valid as before, and so is the count. -/
theorem Balanced.elsewhere (h : m.Balanced ps held) {device : Device}
    (hsize : device.size = m.swap.device.size) (files : FileStore)
    (hhandles : ∀ f, files.handles? f = (m.files.handles? f).map fun n => n + held' f - held f) :
    ({ m with swap := { m.swap with device }, files } : Machine π).Balanced ps held' :=
  h.recount (h.valid.elsewhere hsize files) h.processes (fun _ _ => rfl) hhandles

omit [ReplacementPolicy π] in
/-- An empty space that is not touched stays empty. -/
theorem Vacated.keep (h : m.Vacated s) (hm : m.Balanced ps held) {touched : Option Nat}
    (hafter : after.Accounted outside ps touched) (hne : touched ≠ some s)
    (hpages : ∀ a, after.memory.pages s a = none) : after.Vacated s := by
  have hlt : s < ps.length := hm.length_processes ▸ h.lt
  refine ⟨?_, hpages, fun p hp => ?_⟩
  · rw [← hafter.balanced.length_processes]
    exact Nat.lt_of_lt_of_le hlt hafter.length
  · rw [hafter.others s hlt hne, ← hm.processes] at hp
    exact h.descriptors p hp

end Machine

/-- Performs one operation after the other, as long as each may be asked. Answers the handles that are
then held outside, and the machine. -/
def Machine.handled (m : Machine π) (outside : Nat → Nat) :
    List Operation → Option ((Nat → Nat) × Machine π)
  | [] => some (outside, m)
  | op :: rest =>
    if op.Allowed m ∧ op.Backed outside then
      match op.perform m with
      | .ok _ after => handled after (fun f => outside f - op.takes f) rest
      | .error _ _ => none
    else none

namespace HandleRuns
variable {count : Nat} {device : Device} {policy : π} {files : FileStore} {m : Machine π}
  {ops : List Operation} {outside : Nat → Nat}

/-- Every live handle stays accounted for. -/
theorem balanced (h : HandleRuns (Machine.start count device policy files) ops outside m) :
    ∃ ps, m.Balanced ps fun f => outside f + openDescriptors ps f := by
  induction h with
  | start =>
    refine ⟨[], Machine.valid_start .., rfl, fun {f n} hn => ?_⟩
    obtain ⟨node, hnode, rfl⟩ := Option.map_eq_some_iff.mp hn
    show node.handles = ((Machine.start count device policy files).files.node f).handles
    rw [FileStore.node, Array.getD_eq_getD_getElem?, hnode, Option.getD_some]
  | perform _ hop hbacked hp ih =>
    obtain ⟨ps, hps⟩ := ih
    exact ⟨_, ((Operation.perform_accounted hps hop hbacked).of_ok hp).balanced⟩
  | @opened _ outside m _ file ih =>
    obtain ⟨ps, hps⟩ := ih
    refine ⟨ps, hps.elsewhere rfl (m.files.retain file) fun f => ?_⟩
    rw [FileStore.handles?_retain]
    cases m.files.handles? f with
    | none => simp
    | some n =>
      simp only [Option.map_some]
      split
      · simp only [Option.some.injEq]
        omega
      · simp
  | @closed _ outside m _ file hheld ih =>
    obtain ⟨ps, hps⟩ := ih
    refine ⟨ps, hps.elsewhere rfl (m.files.release file) fun f => ?_⟩
    rw [FileStore.handles?_release]
    cases m.files.handles? f with
    | none => simp
    | some n =>
      simp only [Option.map_some]
      split
      · rename_i hfile
        rw [hfile] at hheld
        simp only [Option.some.injEq]
        omega
      · simp
  | moved h hopen hfile hp ih =>
    obtain ⟨ps, hps⟩ := ih
    have hends := updateHandle_accounted (.of_balanced hps _) hopen hfile
    exact ⟨_, (hends.of_ok hp).1.balanced⟩
  | @elsewhere _ outside m _ device files hsize hfiles ih =>
    obtain ⟨ps, hps⟩ := ih
    refine ⟨ps, hps.elsewhere hsize files fun f => ?_⟩
    rw [hfiles]
    cases m.files.handles? f <;> simp

/-- From the exit of its process on a space is empty. -/
theorem vacated (h : HandleRuns (Machine.start count device policy files) ops outside m) {s : Nat}
    (hs : Exited ops s) : m.Vacated s := by
  induction h with
  | start => cases hs
  | perform h hop hbacked hp ih =>
    obtain ⟨ps, hps⟩ := h.balanced
    rcases exited_concat hs with rfl | ⟨hne, hbefore⟩
    · have hexit := exit_vacates hps.valid (hop.1 s rfl)
      have hends : Run.Ends True (Operation.exit s).perform _ fun _ after => after.Vacated s :=
        Run.ends_map.mpr hexit
      exact hends.of_ok hp
    · have hvacated := ih hbefore
      refine hvacated.keep hps ((Operation.perform_accounted hps hop hbacked).of_ok hp) hne ?_
      obtain ⟨cs, hcourse, hcs⟩ := ((Operation.perform_ends hps.valid hop).of_ok hp).passes
      refine hcourse.evolves.pages_eq_none (fun c hc => ?_) hvacated.pages
      exact (hcs c hc).not_fills hvacated.lt hne
  | @moved _ outside m after t fd before handle h hopen hfile hp ih =>
    obtain ⟨ps, hps⟩ := h.balanced
    have hvacated := ih hs
    have hends := updateHandle_accounted (.of_balanced hps (some t)) hopen hfile
    obtain ⟨hafter, hmemory⟩ := hends.of_ok hp
    refine hvacated.keep hps hafter (fun heq => ?_) (hmemory ▸ hvacated.pages)
    -- A process that has exited has no descriptor whose cursor could move.
    obtain rfl := Option.some.inj heq
    have hlt : t < m.standing.processes.length := by
      rw [hps.processes, hps.length_processes]
      exact hvacated.lt
    have hp := List.getElem?_eq_getElem hlt
    rw [openHandle?, Machine.process_eq hp, hvacated.descriptors _ hp] at hopen
    cases (Descriptors.get?_empty fd).symm.trans hopen
  | opened | closed | elsewhere =>
    rename_i ih
    exact ⟨(ih hs).lt, (ih hs).pages, (ih hs).descriptors⟩

/-- What performing operations gives is reached by a run. -/
theorem of_handled {first : Machine π} (h : HandleRuns first ops outside m) (more : List Operation)
    (check : (Nat → Nat) → Machine π → Bool)
    (hcheck : (m.handled outside more).any (fun e => check e.1 e.2) = true) :
    ∃ outside' after, HandleRuns first (ops ++ more) outside' after ∧ check outside' after = true := by
  induction more generalizing ops outside m with
  | nil => exact ⟨outside, m, (List.append_nil ops).symm ▸ h, hcheck⟩
  | cons op rest ih =>
    simp only [Machine.handled] at hcheck
    split at hcheck
    · rename_i hop
      split at hcheck
      · rename_i reply after hp
        rw [List.append_cons]
        exact ih (h.perform hop.1 hop.2 hp) hcheck
      · cases hcheck
    · cases hcheck

end HandleRuns

/-! ## All that is in use -/

namespace Machine
variable {m : Machine π}

/-- How many handles of file `f` the pages of all tables hold. -/
def pagesOn (m : Machine π) (f : Nat) : Nat :=
  m.allPages.countP fun e => decide (e.2.source.file = some f)

/-- How many descriptors of all processes are open on file `f`. -/
def descriptorsOn (m : Machine π) (f : Nat) : Nat :=
  openDescriptors (m.spaces.toList.map (·.process)) f

/-- Nothing is in use: no frame, no slot, and no space has a page or a mapping. -/
structure Idle (m : Machine π) : Prop where
  frames : ∀ n, (m.frames.frame n).allocated = false ∧ (m.frames.frame n).refcount = 0
  slots : m.swap.slotsInUse = 0
  tables : ∀ s, (m.space s).pages.isEmpty ∧ (m.space s).directory.size = 0

omit [ReplacementPolicy π] in
theorem allPages_eq_nil (h : m.memory.Sound) (hnone : ∀ s a, m.memory.pages s a = none) :
    m.allPages = [] := by
  refine List.eq_nil_iff_forall_not_mem.mpr fun e he => ?_
  have hp := (mem_allPages (s := e.1) (p := e.2) h).mp he
  rw [hnone] at hp
  cases hp

omit [ReplacementPolicy π] in
/-- What pages have is all that is in use. -/
theorem idle_of_pages (h : m.memory.Valid) (hnone : ∀ s a, m.memory.pages s a = none) : m.Idle where
  frames n := by
    have howners : (m.memory.frames n).owners = [] := by
      refine List.eq_nil_iff_forall_not_mem.mpr fun o ho => ?_
      obtain ⟨p, hp, -⟩ := h.sound.owner ho
      rw [hnone] at hp
      cases hp
    have hcount : (m.memory.frames n).refcount = 0 := by rw [h.sound.counted, howners, List.length_nil]
    exact ⟨(h.sound.free_iff n).mpr hcount, hcount⟩
  slots := by
    rw [slotsInUse_eq h.sound h.stowed, recordedSlots, allPages_eq_nil h.sound hnone,
      List.filterMap_nil, List.length_nil]
  tables s := by
    have hpages : (m.space s).pages = ∅ := Std.ExtTreeMap.ext_getElem? fun a => by
      rw [Std.ExtTreeMap.getElem?_empty]
      exact hnone s a
    have hentries : (m.space s).directory.entries = ∅ := Std.ExtTreeMap.ext_getElem? fun a => by
      rw [Std.ExtTreeMap.getElem?_empty]
      exact h.sound.unmapped (hnone s a)
    rw [hpages, PageDirectory.size, hentries]
    exact ⟨Std.ExtTreeMap.isEmpty_empty, Std.ExtTreeMap.size_empty⟩

end Machine

variable {count : Nat} {device : Device} {policy : π} {files : FileStore} {m : Machine π}
  {ops : List Operation} {outside : Nat → Nat}

/-- Whatever processes do, and whatever fails on the way, the live handles of a file are those held
outside of the machine, one for each descriptor that is open on it, and one for each page that reads
from it. When every process has exited nothing is in use, and only the handles held outside are left. -/
theorem nothing_leaks (h : HandleRuns (Machine.start count device policy files) ops outside m) :
    (∀ f < m.files.nodes.size,
      m.files.handles f = outside f + m.descriptorsOn f + m.pagesOn f) ∧
    ((∀ s < m.spaces.size, Exited ops s) →
      m.Idle ∧ ∀ f < m.files.nodes.size, m.files.handles f = outside f) := by
  obtain ⟨ps, hps⟩ := h.balanced
  have hcount : ∀ f < m.files.nodes.size,
      m.files.handles f = outside f + m.descriptorsOn f + m.pagesOn f := by
    intro f hf
    have hn : m.standing.handles f = some (m.files.handles f) := by
      simp [Machine.standing, FileStore.handles?, FileStore.handles, FileStore.node, hf]
    have hcounted := hps.counted hn
    rw [Machine.holders, List.length_map, ← List.countP_eq_length_filter, ← hps.processes] at hcounted
    exact hcounted
  refine ⟨hcount, fun hexited => ?_⟩
  have hnone (s a : Nat) : m.memory.pages s a = none := by
    by_cases hs : s < m.spaces.size
    · exact (h.vacated (hexited s hs)).pages a
    · exact (Machine.memory_spaceless (Nat.le_of_not_lt hs)).1
  refine ⟨Machine.idle_of_pages hps.valid hnone, fun f hf => ?_⟩
  have hdescriptors : m.descriptorsOn f = 0 := by
    refine openDescriptors_eq_zero (fun p hp => ?_) f
    obtain ⟨s, hs, hget⟩ := List.getElem_of_mem hp
    rw [List.length_map, Array.length_toList] at hs
    exact (h.vacated (hexited s hs)).descriptors p (List.getElem?_eq_some_iff.mpr ⟨_, hget⟩)
  have hpages : m.pagesOn f = 0 := by
    rw [Machine.pagesOn, Machine.allPages_eq_nil hps.valid.sound hnone, List.countP_nil]
  rw [hcount f hf, hdescriptors, hpages, Nat.add_zero]

/-- Two processes, one the fork of the other, with a file open and mapped. When both have exited its
only live handle is the one that was kept outside. -/
theorem nothing_leaks_after_fork : ∃ ops outside, ∃ m : Machine Fifo,
    HandleRuns (.start 2 { name := "swap", kind := .swap, size := 0, disk := .zeroed 0 } {}
      { nodes := #[{ contents := [1, 2, 3], handles := 2 }] }) ops outside m ∧
    m.spaces.size = 2 ∧ (∀ s < m.spaces.size, Exited ops s) ∧ m.Idle ∧
    m.files.handles 0 = outside 0 ∧ outside 0 = 1 := by
  let first : Machine Fifo := .start 2 { name := "swap", kind := .swap, size := 0, disk := .zeroed 0 } {}
    { nodes := #[{ contents := [1, 2, 3], handles := 2 }] }
  let alone : Machine Fifo := first.addSpace { process := { pid := 1 } }
  have hcreate : (Operation.createProcess 1).perform first = .ok (.space 0) alone := rfl
  have hopen : (Operation.openFile 0 { file := 0 }).perform alone = .ok (.descriptor 3) _ :=
    Operation.perform_openFile Descriptors.next?_empty
  have hstart : HandleRuns first [] first.files.handles first := .start
  have hbefore := (hstart.perform (by decide +kernel) (by decide +kernel) hcreate).perform
    (by decide +kernel) (by decide +kernel) hopen
  obtain ⟨outside, m, hrun, hcheck⟩ := hbefore.of_handled
    [.map 0 4096 3 true 0 0, .writeUser 0 4096 [9], .fork 0 2, .exit 0, .exit 1]
    (fun outside m => decide (m.spaces.size = 2 ∧ m.files.nodes.size = 1 ∧ outside 0 = 1)) (by decide +kernel)
  obtain ⟨hsize, hfiles, houtside⟩ := of_decide_eq_true hcheck
  have hexited (s : Nat) (hs : s < m.spaces.size) : Exited [.createProcess 1, .openFile 0 { file := 0 },
      .map 0 4096 3 true 0 0, .writeUser 0 4096 [9], .fork 0 2, .exit 0, .exit 1] s := by
    rw [hsize] at hs
    match s, hs with
    | 0, _ => rfl
    | 1, _ => rfl
  obtain ⟨hidle, hhandles⟩ := (nothing_leaks hrun).2 hexited
  exact ⟨_, outside, m, hrun, hsize, hexited, hidle, hhandles 0 (by omega), houtside⟩

end DemandPaging
