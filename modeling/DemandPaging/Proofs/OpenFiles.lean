import Mathlib.Algebra.GroupWithZero.Nat
import DemandPaging.Proofs.Handles

/-! # Descriptors and the handles they own

Of each file, the live handles are those held outside of the machine, one for every descriptor that is
open on it, and one for every page. A machine is `Accounted` for while that is so. Every operation of
a process keeps it accounted for, and touches no other process.
-/
namespace DemandPaging

namespace Descriptors
variable {d : Descriptors} {fd : Int} {h : Handle} {f : Nat}

/-- Number of descriptors that are open on file `f`. -/
def openOn (d : Descriptors) (f : Nat) : Nat := d.toList.countP fun e => decide (e.2.file = f)

theorem openOn_empty : ({} : Descriptors).openOn f = 0 := rfl

theorem mem_toList : (fd, h) ∈ d.toList ↔ d.get? fd = some h :=
  Std.ExtTreeMap.mem_toList_iff_getElem?_eq_some

theorem nodup_toList : d.toList.Nodup := by
  have hkeys : (d.handles.toList.map Prod.fst).Nodup := by
    rw [Std.ExtTreeMap.map_fst_toList_eq_keys]
    exact Std.ExtTreeMap.nodup_keys
  exact .of_map _ hkeys

theorem get?_empty (key : Int) : ({} : Descriptors).get? key = none := Std.ExtTreeMap.getElem?_empty

theorem get?_insert (key : Int) : (d.insert fd h).get? key = if fd = key then some h else d.get? key := by
  simp only [get?, insert, Std.ExtTreeMap.getElem?_insert, Std.LawfulEqCmp.compare_eq_iff_eq]

theorem get?_erase (key : Int) : (d.erase fd).get? key = if fd = key then none else d.get? key := by
  simp only [get?, erase, Std.ExtTreeMap.getElem?_erase, Std.LawfulEqCmp.compare_eq_iff_eq]

theorem ext_get? {d' : Descriptors} (h : ∀ key, d.get? key = d'.get? key) : d = d' := by
  cases d
  cases d'
  exact congrArg Descriptors.mk (Std.ExtTreeMap.ext_getElem? h)

theorem insert_erase : (d.erase fd).insert fd h = d.insert fd h := by
  refine ext_get? fun key => ?_
  rw [get?_insert, get?_insert, get?_erase]
  split <;> rfl

theorem insert_self (hopen : d.get? fd = some h) : d.insert fd h = d := by
  refine ext_get? fun key => ?_
  rw [get?_insert]
  split
  · rename_i heq
    rw [← heq, hopen]
  · rfl

theorem openOn_insert (hclosed : d.get? fd = none) :
    (d.insert fd h).openOn f = d.openOn f + if h.file = f then 1 else 0 := by
  have hnot : (fd, h) ∉ d.toList := by
    rw [mem_toList, hclosed]
    simp
  have hperm : (d.insert fd h).toList.Perm ((fd, h) :: d.toList) := by
    refine (List.perm_ext_iff_of_nodup nodup_toList (List.nodup_cons.mpr ⟨hnot, nodup_toList⟩)).mpr ?_
    rintro ⟨key, other⟩
    rw [mem_toList, get?_insert, List.mem_cons, mem_toList, Prod.mk.injEq]
    split
    · rename_i heq
      rw [← heq, hclosed]
      simp [eq_comm]
    · rename_i hne
      simp [Ne.symm hne]
  rw [openOn, hperm.countP_eq, List.countP_cons, openOn]
  simp

/-- A descriptor that was open, and is open on the same file again. -/
theorem openOn_replace {h' : Handle} (hopen : d.get? fd = some h) (hfile : h'.file = h.file) :
    (d.insert fd h').openOn f = d.openOn f := by
  have hclosed : (d.erase fd).get? fd = none := by rw [get?_erase, if_pos rfl]
  calc (d.insert fd h').openOn f
    _ = (d.erase fd).openOn f + if h'.file = f then 1 else 0 := by
      rw [← insert_erase, openOn_insert hclosed]
    _ = (d.insert fd h).openOn f := by rw [hfile, ← openOn_insert hclosed, insert_erase]
    _ = d.openOn f := by rw [insert_self hopen]

theorem openOn_erase (hopen : d.get? fd = some h) :
    d.openOn f = (d.erase fd).openOn f + if h.file = f then 1 else 0 := by
  have hclosed : (d.erase fd).get? fd = none := by rw [get?_erase, if_pos rfl]
  rw [← openOn_insert hclosed, insert_erase, insert_self hopen]

theorem mem_iff : fd ∈ d.handles ↔ (d.get? fd).isSome := Std.ExtTreeMap.isSome_getElem?_iff_mem.symm

theorem le_maxKey {top : Int} (htop : d.handles.maxKey? = some top) (hopen : (d.get? fd).isSome) : fd ≤ top := by
  have hle := (Std.ExtTreeMap.maxKey?_eq_some_iff_mem_and_forall.mp htop).2 _ (mem_iff.mpr hopen)
  rwa [Int.isLE_compare] at hle

/-- A descriptor that is given out was not open. -/
theorem get?_next (hnext : d.next? = some fd) : d.get? fd = none := by
  unfold next? at hnext
  split at hnext
  · rename_i hmax
    simp [get?, Std.ExtTreeMap.maxKey?_eq_none_iff.mp hmax]
  · rename_i top hmax
    split at hnext
    · obtain rfl := Option.some.inj hnext
      refine Option.not_isSome_iff_eq_none.mp fun hopen => ?_
      have hle := le_maxKey hmax hopen
      omega
    · cases hnext

theorem next?_empty : ({} : Descriptors).next? = some firstDescriptor := by simp [next?]

end Descriptors

/-- Number of descriptors of these processes that are open on file `f`. -/
def openDescriptors (ps : List Process) (f : Nat) : Nat :=
  (ps.map fun p => p.descriptors.openOn f).sum

theorem openDescriptors_concat (ps : List Process) (p : Process) (f : Nat) :
    openDescriptors (ps ++ [p]) f = openDescriptors ps f + p.descriptors.openOn f := by
  simp [openDescriptors]

theorem openDescriptors_eq_zero {ps : List Process} (h : ∀ p ∈ ps, p.descriptors = {}) (f : Nat) :
    openDescriptors ps f = 0 := by
  induction ps with
  | nil => rfl
  | cons p rest ih =>
    obtain ⟨hp, hrest⟩ := List.forall_mem_cons.mp h
    have := ih hrest
    simp only [openDescriptors, List.map_cons, List.sum_cons] at this ⊢
    rw [hp, Descriptors.openOn_empty, this]

theorem openDescriptors_modify {ps : List Process} {s : Nat} {p : Process} (hp : ps[s]? = some p)
    (g : Process → Process) (f : Nat) : openDescriptors (ps.modify s g) f + p.descriptors.openOn f =
      openDescriptors ps f + (g p).descriptors.openOn f := by
  induction ps generalizing s with
  | nil => cases hp
  | cons first rest ih =>
    cases s with
    | zero =>
      obtain rfl := Option.some.inj hp
      simp only [openDescriptors, List.modify_zero_cons, List.map_cons, List.sum_cons]
      omega
    | succ s =>
      have := ih hp
      simp only [openDescriptors, List.modify_succ_cons, List.map_cons, List.sum_cons] at this ⊢
      omega

namespace FileStore

theorem handles?_foldl_retain (l : List (Int × Handle)) (files : FileStore) (f : Nat) :
    (l.foldl (fun files fd => files.retain fd.2.file) files).handles? f =
      (files.handles? f).map (· + l.countP fun e => decide (e.2.file = f)) := by
  induction l generalizing files with
  | nil => simp
  | cons e rest ih =>
    rw [List.foldl_cons, ih, handles?_retain, List.countP_cons]
    cases files.handles? f with
    | none => simp
    | some n =>
      by_cases hfile : e.2.file = f
      · simp [hfile, Nat.add_assoc, Nat.add_comm 1]
      · simp [hfile]

theorem handles?_foldl_close (l : List (Int × Handle)) (files : FileStore) (f : Nat) :
    (l.foldl (fun files fd => files.close fd.2) files).handles? f =
      (files.handles? f).map (· - l.countP fun e => decide (e.2.file = f)) := by
  induction l generalizing files with
  | nil => simp
  | cons e rest ih =>
    rw [List.foldl_cons, ih, close, handles?_release, List.countP_cons]
    cases files.handles? f with
    | none => simp
    | some n =>
      by_cases hfile : e.2.file = f
      · simp [hfile, Nat.sub_sub, Nat.add_comm]
      · simp [hfile]

end FileStore

namespace Machine
variable {π : Type} {m after : Machine π} {s : Nat} {p : Process} {ps : List Process}
  {outside outside' held : Nat → Nat} {touched : Option Nat}

theorem standing_modifyProcess (g : Process → Process) : (m.modifyProcess s g).standing =
    { m.standing with processes := m.standing.processes.modify s g } := by
  refine Standing.ext (List.ext_getElem? fun t => ?_) rfl
  simp only [standing, modifyProcess, modifySpace, List.getElem?_map, Array.getElem?_toList,
    Array.getElem?_modify, List.getElem?_modify]
  split <;> simp [Function.comp_def]

theorem standing_addSpace (space : Space) : (m.addSpace space).standing =
    { m.standing with processes := m.standing.processes ++ [space.process] } := by
  simp [standing, addSpace]

theorem process_eq (hp : m.standing.processes[s]? = some p) : m.process s = p := by
  simp only [standing, List.getElem?_map, Array.getElem?_toList, Option.map_eq_some_iff] at hp
  obtain ⟨found, hfound, rfl⟩ := hp
  simp [process, space, Array.getD_eq_getD_getElem?, hfound]

theorem length_processes (m : Machine π) : m.standing.processes.length = m.spaces.size := by
  simp [standing]

/-- Every live handle is held outside of the machine, by a descriptor or by a page. Of the processes
that were there at first only one may have changed. -/
structure Accounted (outside : Nat → Nat) (ps : List Process) (touched : Option Nat)
    (m : Machine π) : Prop where
  length : ps.length ≤ m.standing.processes.length
  others : ∀ t < ps.length, touched ≠ some t → m.standing.processes[t]? = ps[t]?
  balanced : m.Balanced m.standing.processes fun f =>
    outside f + openDescriptors m.standing.processes f

namespace Accounted

theorem exists_process (h : m.Accounted outside ps touched) (hs : s < ps.length) :
    ∃ p, m.standing.processes[s]? = some p :=
  ⟨_, List.getElem?_eq_getElem (Nat.lt_of_lt_of_le hs h.length)⟩

/-- To start with no process has changed. -/
theorem of_balanced (h : m.Balanced ps fun f => outside f + openDescriptors ps f)
    (touched : Option Nat) : m.Accounted outside ps touched := by
  obtain rfl := h.processes
  exact ⟨Nat.le_refl _, fun _ _ _ => rfl, h⟩

/-- What becomes of the last process does not matter to the others. -/
theorem dropLast (h : m.Accounted outside (ps ++ [p]) (some ps.length)) (touched : Option Nat) :
    m.Accounted outside ps touched where
  length := by
    have := h.length
    rw [List.length_append] at this
    omega
  others t ht _ := by
    rw [h.others t (by simp; omega) (by simp; omega), List.getElem?_append_left ht]
  balanced := h.balanced

/-- What leaves the processes alone and the handles balanced. -/
theorem keep (h : m.Accounted outside ps touched)
    (hafter : after.Balanced m.standing.processes fun f =>
      outside f + openDescriptors m.standing.processes f) : after.Accounted outside ps touched := by
  have hsame := hafter.processes
  refine ⟨?_, ?_, ?_⟩
  · rw [hsame]
    exact h.length
  · rw [hsame]
    exact h.others
  · rwa [hsame]

/-- A process changes, and its descriptors take along as many handles as come or go. -/
theorem update [ReplacementPolicy π] (h : m.Accounted outside ps (some s))
    (hp : m.standing.processes[s]? = some p) (g : Process → Process)
    (hpages : m.memory.Pages after.memory)
    (hps : after.standing.processes = m.standing.processes.modify s g)
    (hhandles : ∀ f, after.standing.handles f = (m.standing.handles f).map fun n =>
      n + (outside' f + (g p).descriptors.openOn f) - (outside f + p.descriptors.openOn f)) :
    after.Accounted outside' ps (some s) where
  length := by
    rw [hps, List.length_modify]
    exact h.length
  others t ht hne := by
    rw [hps, List.getElem?_modify_ne _ _ fun heq => hne (congrArg some heq)]
    exact h.others t ht hne
  balanced := by
    refine h.balanced.recount (h.balanced.valid.evolves hpages) rfl hpages.fileAt_eq fun f => ?_
    have hopen := openDescriptors_modify hp g f
    rw [hhandles, hps]
    congr 1
    funext n
    omega

/-- A process changes, and no handle comes or goes. -/
theorem revise [ReplacementPolicy π] (h : m.Accounted outside ps (some s))
    (g : Process → Process) (hg : ∀ p, (g p).descriptors = p.descriptors) (hs : s < ps.length) :
    (m.modifyProcess s g).Accounted outside ps (some s) := by
  obtain ⟨p, hp⟩ := h.exists_process hs
  refine h.update hp g ?_ ?_ ?_
  · rw [memory_modifyProcess]
    exact .refl _
  · rw [standing_modifyProcess]
  · intro f
    rw [standing_modifyProcess, hg]
    cases m.standing.handles f <;> simp

end Accounted

namespace Balanced
variable [ReplacementPolicy π]

theorem addSpace (h : m.Balanced ps held) (space : Space) (hp : space.pages = ∅)
    (hd : space.directory = {}) : (m.addSpace space).Balanced (ps ++ [space.process]) held := by
  have ha := alters_addSpace (m := m) space hp hd
  have hvalid := h.valid.evolves (.of_change ha)
  refine ⟨hvalid, ?_, ?_⟩
  · rw [standing_addSpace, h.processes]
  · intro f n hn
    have hpages := ha.of_spawn.2
    rw [holders_congr h.valid.sound hvalid.sound fun t a => by rw [Memory.fileAt, hpages, Memory.fileAt]]
    rw [standing_addSpace] at hn
    exact h.counted hn

/-- The last space goes, which has no page. -/
theorem dropSpace (h : m.Balanced (ps ++ [p]) held)
    (hnone : ∀ a, m.memory.pages ps.length a = none) :
    ({ m with spaces := m.spaces.pop } : Machine π).Balanced ps held := by
  have hsize := h.length_processes
  rw [List.length_append, List.length_singleton] at hsize
  have hpos : 0 < m.spaces.size := by omega
  have hlast : ∀ a, m.memory.pages (m.spaces.size - 1) a = none := by
    rw [← hsize]
    exact hnone
  have hmemory := memory_dropSpace hpos hlast fun a => h.valid.sound.unmapped (hlast a)
  have hvalid : ({ m with spaces := m.spaces.pop } : Machine π).memory.Valid := by
    rw [hmemory]
    exact h.valid.evolves (.of_change (.drop hpos hlast))
  refine ⟨hvalid, ?_, ?_⟩
  · have hprocesses := h.processes
    simp only [standing, Array.toList_pop, List.map_dropLast] at hprocesses ⊢
    rw [hprocesses, List.dropLast_concat]
  · intro f n hn
    rw [holders_congr h.valid.sound hvalid.sound fun t a => by rw [hmemory]; rfl]
    exact h.counted hn

end Balanced

theorem Accounted.addSpace [ReplacementPolicy π]
    (h : m.Balanced ps fun f => outside f + openDescriptors ps f) (space : Space)
    (hp : space.pages = ∅) (hd : space.directory = {}) (hopen : space.process.descriptors = {})
    (touched : Option Nat) : (m.addSpace space).Accounted outside ps touched := by
  have hadd := h.addSpace space hp hd
  have hprocesses := hadd.processes
  refine ⟨?_, ?_, ?_⟩
  · rw [hprocesses, List.length_append]
    exact Nat.le_add_right ..
  · intro t ht _
    rw [hprocesses, List.getElem?_append_left ht]
  · rw [hprocesses]
    simpa only [openDescriptors_concat, hopen, Descriptors.openOn_empty, Nat.add_zero] using hadd

end Machine

open Machine (Balanced Accounted)

section Preserves
variable {π α : Type} {ps : List Process} {outside : Nat → Nat} {touched : Option Nat}

theorem Run.Preserves.accounted {x : Run π α}
    (h : ∀ {ps' held}, ps.length ≤ ps'.length → Run.Preserves (Balanced ps' held) x) :
    Run.Preserves (Accounted outside ps touched) x := by
  constructor
  intro m hm
  exact ((h hm.length).ends m hm.balanced).imp fun _ after hafter => hm.keep hafter

theorem Attempt.Preserves.accounted {x : Attempt π α}
    (h : ∀ {ps' held}, ps.length ≤ ps'.length → Attempt.Preserves (Balanced ps' held) x) :
    Attempt.Preserves (Accounted outside ps touched) x := by
  constructor
  intro m hm
  refine ((h hm.length).ends m hm.balanced).imp ?_ ?_
  · exact fun _ after hafter => hm.keep hafter
  · exact fun _ after hafter => hm.keep hafter

end Preserves

variable {π : Type} [ReplacementPolicy π] {m : Machine π} {s : Nat} {ps : List Process}
  {outside : Nat → Nat} {touched : Option Nat}

theorem accounted_event (event : Machine π → Event) :
    Run.Preserves (Accounted outside ps touched) (modify fun m => m.report (event m) : Run π PUnit) :=
  Run.preserves_modify fun m h => h.keep (h.balanced.report (event m))

theorem saveStackPointer_accounted (hs : s < ps.length) (esp : Nat) :
    Run.Preserves (Accounted outside ps (some s)) (saveStackPointer s esp : Run π Unit) :=
  Run.preserves_modify fun _ h => h.revise _ (fun _ => rfl) hs

/-- The handle that a descriptor takes over was held outside before. -/
theorem openFile_accounted (h : m.Accounted outside ps (some s)) (hs : s < ps.length)
    (handle : Handle) (htaken : 0 < outside handle.file) :
    Run.Leaves (Accounted (fun f => outside f - if handle.file = f then 1 else 0) ps (some s))
      (openFile s handle) m := by
  obtain ⟨p, hp⟩ := h.exists_process hs
  simp only [openFile, Run.ends_bind, Run.ends_get, Machine.process_eq hp]
  cases hnext : p.descriptors.next? with
  | none => trivial
  | some fd =>
    simp only [Run.ends_bind, Run.ends_modify, Run.ends_pure]
    refine h.update hp (fun p => { p with descriptors := p.descriptors.insert fd handle }) ?_ ?_ ?_
    · rw [Machine.memory_modifyProcess]
      exact .refl _
    · rw [Machine.standing_modifyProcess]
    · intro f
      rw [Machine.standing_modifyProcess, Descriptors.openOn_insert (Descriptors.get?_next hnext)]
      cases m.standing.handles f with
      | none => rfl
      | some n =>
        by_cases hfile : handle.file = f
        · rw [hfile] at htaken
          simp only [hfile, if_true, Option.map_some, Option.some.injEq]
          omega
        · simp [hfile]

omit [ReplacementPolicy π] in
/-- Only a process that there is has a descriptor open. -/
theorem lt_spaces_of_open {fd : Int} {handle : Handle} (hopen : openHandle? m s fd = some handle) :
    s < m.spaces.size := by
  by_contra hge
  rw [openHandle?, Machine.process, Machine.space_eq_default (Nat.le_of_not_lt hge)] at hopen
  cases (Descriptors.get?_empty fd).symm.trans hopen

/-- A transfer moves the cursor of a descriptor. -/
theorem updateHandle_accounted (h : m.Accounted outside ps (some s)) {fd : Int} {before handle : Handle}
    (hopen : openHandle? m s fd = some before) (hfile : handle.file = before.file) :
    Run.Ends True (updateHandle s fd handle) m fun _ after =>
      after.Accounted outside ps (some s) ∧ after.memory = m.memory := by
  have hlt := lt_spaces_of_open hopen
  rw [← h.balanced.length_processes] at hlt
  have hp := List.getElem?_eq_getElem hlt
  rw [openHandle?, Machine.process_eq hp] at hopen
  simp only [updateHandle, Run.ends_modify]
  refine ⟨?_, Machine.memory_modifyProcess _⟩
  refine h.update hp (fun p => { p with descriptors := p.descriptors.insert fd handle }) ?_ ?_ ?_
  · rw [Machine.memory_modifyProcess]
    exact .refl _
  · rw [Machine.standing_modifyProcess]
  · intro f
    rw [Machine.standing_modifyProcess, Descriptors.openOn_replace hopen hfile]
    cases m.standing.handles f <;> simp

theorem closeFile_accounted (hs : s < ps.length) (fd : Int) :
    Run.Preserves (Accounted outside ps (some s)) (closeFile s fd : Run π Bool) := by
  constructor
  intro m h
  obtain ⟨p, hp⟩ := h.exists_process hs
  simp only [closeFile, Run.ends_bind, Run.ends_get, Machine.process_eq hp]
  cases hopen : p.descriptors.get? fd with
  | none => exact h
  | some handle =>
    simp only [Run.ends_bind, Run.ends_modify, Run.ends_pure]
    refine h.update hp (fun p => { p with descriptors := p.descriptors.erase fd }) ?_ ?_ ?_
    · rw [Machine.memory_modifyProcess]
      exact .of_step (.handles fun f => FileStore.contents_release ..)
    · rw [Machine.standing_modifyProcess]
      rfl
    · intro f
      rw [Machine.standing_modifyProcess, Descriptors.openOn_erase hopen]
      show (m.files.release handle.file).handles? f = _
      rw [FileStore.handles?_release]
      show _ = (m.files.handles? f).map _
      cases m.files.handles? f with
      | none => simp
      | some n =>
        simp only [Option.map_some]
        split
        · simp only [Option.some.injEq]
          omega
        · simp

theorem closeAll_accounted (hs : s < ps.length) :
    Run.Preserves (Accounted outside ps (some s)) (closeAll s : Run π Unit) := by
  constructor
  intro m h
  obtain ⟨p, hp⟩ := h.exists_process hs
  simp only [closeAll, Run.ends_modify, Machine.process_eq hp]
  refine h.update hp (fun p => { p with descriptors := {} }) ?_ ?_ ?_
  · rw [Machine.memory_modifyProcess]
    exact .of_step (.handles fun f =>
      FileStore.contents_foldl _ (fun _ _ _ => FileStore.contents_release ..) _ _ f)
  · rw [Machine.standing_modifyProcess]
    rfl
  · intro f
    rw [Machine.standing_modifyProcess, Descriptors.openOn_empty]
    refine (FileStore.handles?_foldl_close ..).trans ?_
    show (m.files.handles? f).map _ = (m.files.handles? f).map _
    congr 1
    funext n
    rw [← Descriptors.openOn]
    omega

/-- The child has descriptors of its own, each with a handle of its own. -/
theorem inheritDescriptors_accounted {child : Nat} (h : m.Accounted outside ps (some child))
    {p : Process} (hp : m.standing.processes[child]? = some p) (hopen : p.descriptors = {}) :
    Run.Leaves (Accounted outside ps (some child)) (inheritDescriptors s child) m := by
  simp only [inheritDescriptors, Run.ends_modify]
  refine h.update hp (fun p => { p with descriptors := (m.process s).descriptors }) ?_ ?_ ?_
  · rw [Machine.memory_modifyProcess]
    exact .of_step (.handles fun f =>
      FileStore.contents_foldl _ (fun _ _ _ => FileStore.contents_retain ..) _ _ f)
  · rw [Machine.standing_modifyProcess]
    rfl
  · intro f
    rw [Machine.standing_modifyProcess, hopen, Descriptors.openOn_empty]
    refine (FileStore.handles?_foldl_retain ..).trans ?_
    show (m.files.handles? f).map _ = (m.files.handles? f).map _
    congr 1
    funext n
    show n + (m.process s).descriptors.openOn f =
      n + (outside f + (m.process s).descriptors.openOn f) - (outside f + 0)
    omega

theorem loadProgram_accounted (hs : s < ps.length) (handle : Handle) :
    Run.Preserves (Accounted outside ps (some s)) (loadProgram s handle : Run π _) := by
  unfold loadProgram
  refine Run.Preserves.bind (.accounted fun hle => ?_) fun a => ?_
  · exact loadExecutable_balanced (Nat.lt_of_lt_of_le hs hle) handle
  · split
    · exact Run.preserves_pure _
    · apply (saveStackPointer_accounted hs _).bind
      exact fun _ => (accounted_event _).bind fun _ => Run.preserves_pure _

theorem processFault_accounted (hs : s < ps.length) (fault : PageFault) (userEsp : Nat) :
    Attempt.Preserves (Accounted outside ps (some s)) (processFault s fault userEsp : Attempt π Unit) := by
  have hfault (esp : Nat) : Attempt.Preserves (Accounted outside ps (some s))
      (tryCatch (handleFault s fault esp) fun e => do
        modify fun m => m.report (.processFault (m.process s).pid fault.addr e)
        throw e : Attempt π Unit) := by
    refine Attempt.Preserves.tryCatch (.accounted fun hle => ?_) fun e => ?_
    · exact handleFault_balanced (Nat.lt_of_lt_of_le hs hle) fault esp
    · apply (Attempt.preserves_lift (accounted_event _)).bind
      exact fun _ => Attempt.preserves_throw e
  unfold processFault
  split
  · apply (Attempt.preserves_lift (saveStackPointer_accounted hs userEsp)).bind
    exact fun _ => Attempt.preserves_get.bind fun m => hfault _
  · exact Attempt.preserves_get.bind fun m => hfault _

theorem exit_accounted (hs : s < ps.length) :
    Run.Preserves (Accounted outside ps (some s)) (exit s : Run π Unit) := by
  apply Run.Preserves.bind
  · exact .accounted fun _ => emptySpace_balanced s
  · exact fun _ => (closeAll_accounted hs).bind fun _ => accounted_event _

/-- Of a fork that fails the child leaves nothing behind. -/
theorem fork_accounted (h : m.Balanced ps fun f => outside f + openDescriptors ps f) (s childPid : Nat) :
    Attempt.Leaves (Accounted outside ps touched) (fork s childPid) m := by
  have hsize := h.length_processes
  have hadd := h.addSpace { process := { pid := childPid, esp := (m.process s).esp } } rfl rfl
  rw [← Machine.withChild] at hadd
  generalize hnew : ({ pid := childPid, esp := (m.process s).esp } : Process) = child at hadd
  have hopen : child.descriptors = {} := by rw [← hnew]
  refine ((fork_steps h.valid childPid).weaken False.elim).imp ?_ ?_
  · rintro answer after ⟨-, pages, copied, inherited, -, hcopies, hinherited, event, rfl⟩
    have hcopied := hadd.copies hcopies
    have hboth : copied.Accounted outside (ps ++ [child]) (some m.spaces.size) := by
      apply Accounted.of_balanced
      simpa only [openDescriptors_concat, hopen, Descriptors.openOn_empty, Nat.add_zero] using hcopied
    have hlast : copied.standing.processes[m.spaces.size]? = some child := by
      rw [hcopied.processes, ← hsize, List.getElem?_concat_length]
    have hafter := (inheritDescriptors_accounted hboth hlast hopen).of_ok hinherited
    rw [← hsize] at hafter
    exact (hafter.keep (hafter.balanced.report _)).dropLast touched
  · rintro e after ⟨pages, copied, emptied, hcopies, hemptied, rfl⟩
    have hcopied := hadd.copies hcopies
    have hbalanced := hcopied.emptied (hemptied.valid hcopied.valid) hemptied.standing hemptied.pages
    refine .of_balanced (hbalanced.dropSpace fun a => ?_) _
    rw [hsize, hemptied.pages_eq_none]

/-! ## Operations -/

namespace Operation

/-- How many handles of a file an operation takes over from outside. -/
def takes : Operation → Nat → Nat
  | openFile _ h, f => if h.file = f then 1 else 0
  | _, _ => 0

/-- Whoever asks for it has the handle that the operation takes over. -/
def Backed (outside : Nat → Nat) : Operation → Prop
  | openFile _ h => 0 < outside h.file
  | _ => True

instance (outside : Nat → Nat) : (op : Operation) → Decidable (op.Backed outside)
  | openFile _ h => Nat.decLt 0 (outside h.file)
  | createProcess _ | createTable _ _ | setStackPointer _ _ | insert _ _ _ _ | load _ _
  | closeFile _ _ | map _ _ _ _ _ _ | unmap _ _ | pageFault _ _ _ | readUser _ _ _
  | writeUser _ _ _ | fork _ _ | exit _ | claim _ _ | resolveFault _ _ _ | copyFrom _ _ _ _
  | copyTo _ _ _ _ | remove _ _ | copyTable _ _ | kill _ | evict _ => .isTrue trivial

theorem perform_openFile {h : Handle} {fd : Int} (hnext : (m.process s).descriptors.next? = some fd) :
    (openFile s h).perform m = .ok (.descriptor fd)
      (m.modifyProcess s fun p => { p with descriptors := p.descriptors.insert fd h }) := by
  have hends : Run.Ends False (DemandPaging.openFile s h) m fun answer after => answer = fd ∧
      after = m.modifyProcess s fun p => { p with descriptors := p.descriptors.insert fd h } := by
    simp only [DemandPaging.openFile, Run.ends_bind, Run.ends_get, hnext, Run.ends_modify, Run.ends_pure,
      true_and]
  obtain ⟨answer, after, hopen⟩ := hends.answers id
  obtain ⟨rfl, rfl⟩ := hends.of_ok hopen
  simp only [perform, Functor.map, EStateM.map, hopen]

/-- Whatever is asked of a machine, and whatever comes of it, every handle stays accounted for. -/
theorem perform_accounted {op : Operation} (h : m.Balanced ps fun f => outside f + openDescriptors ps f)
    (ha : op.Allowed m) (hbacked : op.Backed outside) :
    Run.Leaves (Accounted (fun f => outside f - op.takes f) ps op.space?) op.perform m := by
  obtain ⟨hspace, hop⟩ := ha
  have hlt {s : Nat} (hs : op.space? = some s) : s < ps.length := by
    rw [h.length_processes]
    exact hspace s hs
  have hanswer {α : Type} {reply : α → Reply} {x : Attempt π α}
      (hx : Attempt.Leaves (Accounted outside ps op.space?) x m) :
      Run.Leaves (Accounted outside ps op.space?) (answer reply x) m :=
    answer_ends hx (fun _ _ hafter => hafter) fun _ _ hafter => hafter
  have hrun {α : Type} {reply : α → Reply} {x : Run π α}
      (hx : Run.Leaves (Accounted outside ps op.space?) x m) :
      Run.Leaves (Accounted outside ps op.space?) (reply <$> x) m := Run.ends_map.mpr hx
  have hstart (touched : Option Nat) : m.Accounted outside ps touched := .of_balanced h touched
  cases op with
  | createProcess pid =>
    exact hrun (.addSpace h { process := { pid } } rfl rfl rfl none)
  | createTable admission recordsAccess =>
    exact hrun (.addSpace h { admission, recordsAccess } rfl rfl rfl none)
  | setStackPointer s esp => exact hrun ((saveStackPointer_accounted (hlt rfl) esp).ends m (hstart _))
  | insert s va writable backing =>
    refine hrun ((insertPage_balanced h hop.2 (hlt rfl) hop.1).imp ?_)
    exact fun _ after hafter => .of_balanced hafter _
  | load s handle => exact hrun ((loadProgram_accounted (hlt rfl) handle).ends m (hstart _))
  | openFile s handle =>
    exact Run.ends_map.mpr (openFile_accounted (hstart _) (hlt rfl) handle hbacked)
  | closeFile s fd => exact hrun ((closeFile_accounted (hlt rfl) fd).ends m (hstart _))
  | map s addr length writable file offset =>
    refine hanswer ((Attempt.Preserves.accounted fun hle => ?_).ends m (hstart _))
    exact mapFile_balanced (Nat.lt_of_lt_of_le (hlt rfl) hle) ..
  | unmap s addr =>
    exact hanswer ((Attempt.Preserves.accounted fun _ => unmapFile_balanced s addr).ends m (hstart _))
  | pageFault s fault userEsp =>
    exact hanswer ((processFault_accounted (hlt rfl) fault userEsp).ends m (hstart _))
  | readUser s addr count =>
    refine hrun ((Run.Preserves.accounted fun hle => ?_).ends m (hstart _))
    apply Run.preserves_get.bind
    exact fun m => (survives_balanced (Nat.lt_of_lt_of_le (hlt rfl) hle)).copyFromUser ..
  | writeUser s addr bytes =>
    refine hanswer ((Attempt.Preserves.accounted fun hle => ?_).ends m (hstart _))
    apply Attempt.preserves_get.bind
    exact fun m => (survives_balanced (Nat.lt_of_lt_of_le (hlt rfl) hle)).copyToUser ..
  | fork s childPid => exact hanswer (fork_accounted h s childPid)
  | exit s => exact hrun ((exit_accounted (hlt rfl)).ends m (hstart _))
  | claim s va =>
    exact hanswer ((Attempt.Preserves.accounted fun _ => claim_balanced s va).ends m (hstart _))
  | resolveFault s fault esp =>
    refine hanswer ((Attempt.Preserves.accounted fun hle => ?_).ends m (hstart _))
    exact handleFault_balanced (Nat.lt_of_lt_of_le (hlt rfl) hle) fault esp
  | copyFrom s esp addr count =>
    refine hrun ((Run.Preserves.accounted fun hle => ?_).ends m (hstart _))
    exact (survives_balanced (Nat.lt_of_lt_of_le (hlt rfl) hle)).copyFromUser ..
  | copyTo s esp addr bytes =>
    refine hanswer ((Attempt.Preserves.accounted fun hle => ?_).ends m (hstart _))
    exact (survives_balanced (Nat.lt_of_lt_of_le (hlt rfl) hle)).copyToUser ..
  | remove s va =>
    exact hrun ((Run.Preserves.accounted fun _ => removePage_balanced s va).ends m (hstart _))
  | copyTable src dst =>
    refine hanswer ((copySpace_balanced h (hlt rfl) (Machine.pages_eq_none hop)).imp ?_ ?_)
    · exact fun _ after hafter => .of_balanced hafter _
    · exact fun _ after hafter => .of_balanced hafter _
  | kill s => exact hrun ((Run.Preserves.accounted fun _ => emptySpace_balanced s).ends m (hstart _))
  | evict n =>
    exact hanswer ((Attempt.Preserves.accounted fun _ => evictFirst_balanced none [n]).ends m (hstart _))

end Operation

end DemandPaging
