import DemandPaging.Process
import DemandPaging.Proofs.Storage

/-! # What paging leaves standing

A process has more than its memory: a saved stack pointer and descriptors. Beside the processes, each
file counts its live handles. Nothing that moves pages between frames, swap and files touches either.
Only pages that come or go take a handle along or give it back.
-/
namespace DemandPaging

variable {π ε α β : Type}

namespace FileStore

/-- Number of live handles of a file, if there is such a file. -/
def handles? (files : FileStore) (file : Nat) : Option Nat := files.nodes[file]?.map (·.handles)

variable {files files' : FileStore} {file position count : Nat} {bytes : List UInt8}

theorem handles?_retain (f : Nat) : (files.retain file).handles? f =
    if file = f then (files.handles? f).map (· + 1) else files.handles? f := by
  simp only [handles?, retain, modify, Array.getElem?_modify]
  split
  · cases files.nodes[f]? <;> rfl
  · rfl

theorem handles?_release (f : Nat) : (files.release file).handles? f =
    if file = f then (files.handles? f).map (· - 1) else files.handles? f := by
  simp only [handles?, release, modify, Array.getElem?_modify]
  split
  · cases files.nodes[f]? <;> rfl
  · rfl

theorem handles?_writeAt (h : files.writeAt file position bytes = (count, files')) :
    files'.handles? = files.handles? := by
  simp only [writeAt, Prod.mk.injEq] at h
  funext f
  rw [← h.2]
  simp only [handles?, modify, Array.getElem?_modify]
  split
  · rename_i heq
    subst heq
    cases hnode : files.nodes[file]? with
    | none => rfl
    | some node =>
      have : files.node file = node := by
        simp only [FileStore.node, Array.getD_eq_getD_getElem?, hnode, Option.getD_some]
      simp only [Option.map_some, FileNode.writeAt, this]
  · rfl

end FileStore

/-- The processes of a machine, and how many handles of each of its files are live. -/
@[ext] structure Standing where
  processes : List Process
  handles : Nat → Option Nat

namespace Standing

/-- With one more handle of the file of a source. -/
def retain (st : Standing) (source : Source) : Standing :=
  { st with handles := fun f =>
      if source.file = some f then (st.handles f).map (· + 1) else st.handles f }

def release (st : Standing) (source : Source) : Standing :=
  { st with handles := fun f =>
      if source.file = some f then (st.handles f).map (· - 1) else st.handles f }

/-- Without the handles of a row of pages. -/
def releaseAll (st : Standing) (pages : List Page) : Standing :=
  pages.foldl (fun st page => st.release page.source) st

theorem processes_releaseAll (st : Standing) (pages : List Page) :
    (st.releaseAll pages).processes = st.processes := by
  induction pages generalizing st with
  | nil => rfl
  | cons page rest ih => exact ih (st.release page.source)

theorem handles_releaseAll (st : Standing) (pages : List Page) (f : Nat) :
    (st.releaseAll pages).handles f =
      (st.handles f).map (· - pages.countP fun page => decide (page.source.file = some f)) := by
  induction pages generalizing st with
  | nil => simp [releaseAll]
  | cons page rest ih =>
    have hstep := ih (st.release page.source)
    simp only [releaseAll, List.foldl_cons, List.countP_cons] at hstep ⊢
    rw [hstep]
    cases hn : st.handles f with
    | none => simp [release, hn]
    | some n =>
      by_cases hfile : page.source.file = some f
      · simp [release, hn, hfile]
        omega
      · simp [release, hn, hfile]

theorem release_retain (st : Standing) (source : Source) : (st.retain source).release source = st := by
  ext f n
  · rfl
  · simp only [release, retain]
    cases st.handles f <;> split <;> simp

end Standing

theorem Space.process_map (s : Space) (va n : Nat) (writable : Bool) :
    (s.map va n writable).2.process = s.process := by
  unfold map
  split
  · split <;> rfl
  · rfl

namespace Machine
variable {m : Machine π} {s n va : Nat}

def standing (m : Machine π) : Standing :=
  { processes := m.spaces.toList.map (·.process), handles := m.files.handles? }

@[simp] theorem standing_report (e : Event) : (m.report e).standing = m.standing := rfl

theorem standing_modifySpace {f : Space → Space}
    (hf : (f (m.space s)).process = (m.space s).process) : (m.modifySpace s f).standing = m.standing := by
  refine Standing.ext (List.ext_getElem? fun t => ?_) rfl
  simp only [standing, modifySpace, List.getElem?_map, Array.getElem?_toList, Array.getElem?_modify]
  split
  · rename_i heq
    subst heq
    cases hspace : m.spaces[s]? with
    | none => rfl
    | some space =>
      have : m.space s = space := by
        simp only [Machine.space, Array.getD_eq_getD_getElem?, hspace, Option.getD_some]
      exact congrArg some (this ▸ hf)
  · rfl

@[simp] theorem standing_putPage (p : Page) : (m.putPage s p).standing = m.standing :=
  standing_modifySpace rfl

@[simp] theorem standing_unmap : (m.unmap s va).standing = m.standing :=
  standing_modifySpace rfl

@[simp] theorem standing_map (writable : Bool) : (m.map s va n writable).2.standing = m.standing :=
  standing_modifySpace (Space.process_map ..)

@[simp] theorem standing_install (page : Nat) : (m.install n page s va).standing = m.standing := rfl

@[simp] theorem standing_retainSource (source : Source) :
    (m.retainSource source).standing = m.standing.retain source := by
  unfold retainSource Standing.retain
  cases source.file with
  | none => simp
  | some file =>
    refine Standing.ext rfl (funext fun f => ?_)
    simp only [Option.some.injEq]
    exact FileStore.handles?_retain f

@[simp] theorem standing_releaseSource (source : Source) :
    (m.releaseSource source).standing = m.standing.release source := by
  unfold releaseSource Standing.release
  cases source.file with
  | none => simp
  | some file =>
    refine Standing.ext rfl (funext fun f => ?_)
    simp only [Option.some.injEq]
    exact FileStore.handles?_release f

@[simp] theorem standing_freeSlot (slot : Option Nat) : (m.freeSlot slot).standing = m.standing := by
  cases slot <;> rfl

/-- The machine stands like this. -/
abbrev Stands (st : Standing) (m : Machine π) : Prop := m.standing = st

/-- What frames, swap, the bytes of files, tables of pages and mappings that go have no part in. -/
structure Aloof (I : Machine π → Prop) : Prop where
  report : ∀ m e, I m → I (m.report e)
  frames : ∀ m frames, I m → I { m with frames }
  swap : ∀ m swap, I m → I { m with swap }
  written : ∀ {m file position bytes count files},
    m.files.writeAt file position bytes = (count, files) → I m → I { m with files }
  space : ∀ m s {f : Space → Space},
    (∀ space, (f space).process = space.process ∧ (f space).admission = space.admission) →
    I m → I (m.modifySpace s f)

theorem aloof_stands (st : Standing) : Aloof (Stands (π := π) st) where
  report _ _ hm := hm
  frames _ _ hm := hm
  swap _ _ hm := hm
  written hw hm := by
    rw [← hm]
    exact Standing.ext rfl (FileStore.handles?_writeAt hw)
  space m s f hf hm := (standing_modifySpace (hf _).1).trans hm

end Machine

/-! ## Paging -/

open Attempt
variable {I : Machine π → Prop} {st : Standing} {s n va : Nat}

/-- Storage is among what they have no part in. -/
theorem Machine.Aloof.heedless (hI : Machine.Aloof I) : Machine.Heedless I where
  report _ hm := hI.report _ _ hm
  contents _ _ hm := hI.frames _ _ hm
  swap _ hm := hI.swap _ _ hm
  written := hI.written
  cleaned _ _ hm := hI.space _ _ (fun _ => ⟨rfl, rfl⟩) hm

theorem Machine.Aloof.preserves_report (hI : Machine.Aloof I) (e : Event) :
    Attempt.Preserves I (modify (·.report e) : ExceptT ε (Run π) PUnit) :=
  preserves_modify fun m hm => hI.report m e hm

theorem mapShared_stands (parent child : Nat) :
    Attempt.Preserves (Machine.Stands st) (mapShared n parent child va : Attempt π Unit) := by
  constructor
  intro m hm
  simp only [mapShared, Attempt.ends_bind, Attempt.ends_ite, Attempt.ends_modifyGet,
    Attempt.ends_modify, Attempt.ends_throw, Attempt.ends_pure, Machine.Stands, Machine.standing_map,
    Machine.standing_unmap]
  exact ⟨fun _ => ⟨fun _ => hm, fun _ => hm⟩, fun _ => hm⟩

theorem shareWith_stands (src dst serial : Nat) (frame : Option Nat) :
    Attempt.Preserves (Machine.Stands st) (shareWith src dst va serial frame : Attempt π Unit) := by
  unfold shareWith
  split
  · refine (mapShared_stands ..).bind fun _ => ?_
    apply Preserves.bind
    · exact preserves_modify fun _ hm => hm
    · exact fun _ => preserves_get.bind fun _ => (Machine.aloof_stands st).preserves_report _
  · refine preserves_get.bind fun _ => ?_
    split
    · exact (mapShared_stands ..).bind fun _ => (Machine.aloof_stands st).preserves_report _
    · exact preserves_pure _

variable [ReplacementPolicy π]

theorem Machine.standing_abandon (m : Machine π) : (m.abandon n).standing = m.standing := by
  unfold abandon releaseFrame
  dsimp only
  split <;> rfl

theorem Machine.standing_release (m : Machine π) : (m.release n s va).standing = m.standing :=
  standing_abandon _

theorem evictPage_aloof (hI : Machine.Aloof I) (o : Owner) (page : Page) :
    Attempt.Preserves I (evictPage n o page : Attempt π Unit) := by
  refine (hI.heedless.saveOut page).bind fun backing => Preserves.bind ?_ fun _ => hI.preserves_report _
  refine preserves_modify fun m hm => hI.frames _ _ ?_
  exact hI.space _ _ (fun _ => ⟨rfl, rfl⟩) (hI.space _ _ (fun _ => ⟨rfl, rfl⟩) hm)

theorem evictFirst_aloof (hI : Machine.Aloof I) (busy : Option Nat) (candidates : List Nat) :
    Attempt.Preserves I (evictFirst busy candidates : Attempt π Nat) := by
  induction candidates with
  | nil => exact preserves_throw _
  | cons n rest ih =>
    refine preserves_get.bind fun m => ?_
    split
    · exact ih
    · exact (evictPage_aloof hI ..).bind fun _ => preserves_pure _

theorem acquire_aloof (hI : Machine.Aloof I) (busy : Option Nat) :
    Attempt.Preserves I (acquire busy : Attempt π Nat) := by
  have htake (n : Nat) : Attempt.Preserves I (do
      modify fun m => { m with frames := m.frames.occupy n }
      modify (·.report (.acquired n))
      return n : Attempt π Nat) := by
    apply Preserves.bind
    · exact preserves_modify fun m hm => hI.frames m _ hm
    · exact fun _ => (hI.preserves_report _).bind fun _ => preserves_pure _
  constructor
  intro m hm
  simp only [acquire, Attempt.ends_bind, Attempt.ends_get]
  split
  · simp only [Attempt.ends_bind, Attempt.ends_set, Attempt.ends_pure]
    exact (htake _).ends _ (hI.frames m _ hm)
  · exact ((evictFirst_aloof hI busy _).bind htake).ends m hm

theorem abandon_stands (e : MemoryError) :
    Attempt.Preserves (Machine.Stands st) (do
      modify (·.abandon n)
      throw e : Attempt π α) := by
  apply Preserves.bind
  · exact preserves_modify fun m hm => m.standing_abandon.trans hm
  · exact fun _ => preserves_throw e

theorem claimPage_stands (page : Page) :
    Attempt.Preserves (Machine.Stands st) (claimPage s page : Attempt π Unit) := by
  unfold claimPage
  split
  · exact preserves_pure _
  · refine (acquire_aloof (Machine.aloof_stands st) _).bind fun n => ?_
    have hload := (Machine.aloof_stands (π := π) st).heedless.materialize (n := n) page.backing
    refine (hload.tryCatch fun e => abandon_stands e).bind fun backing => ?_
    apply Preserves.bind
    · exact preserves_modify fun m hm => (Machine.standing_putPage _).trans hm
    intro _
    refine Preserves.bind (preserves_modifyGet fun m hm => (Machine.standing_map _).trans hm) fun mapped => ?_
    split
    · apply preserves_modify
      intro m hm
      rw [Machine.Stands, Machine.standing_report, Machine.standing_install, Machine.standing_putPage, hm]
    · exact abandon_stands _

theorem copyOnWrite_stands (page : Page) (old : Nat) :
    Attempt.Preserves (Machine.Stands st) (copyOnWrite s page old : Attempt π Unit) := by
  refine (acquire_aloof (Machine.aloof_stands st) _).bind fun n => ?_
  apply Preserves.bind
  · exact preserves_modify fun _ hm => hm
  intro _
  refine Preserves.bind (preserves_modifyGet fun m hm => (Machine.standing_map _).trans hm) fun mapped => ?_
  split
  · apply preserves_modify
    intro m hm
    rw [Machine.Stands, Machine.standing_report, Machine.standing_install, Machine.standing_putPage,
      Machine.standing_release, hm]
  · exact abandon_stands _

theorem unprotect_stands (page : Page) :
    Attempt.Preserves (Machine.Stands st) (unprotect s page : Attempt π Unit) := by
  unfold unprotect
  split
  · exact claimPage_stands page
  · refine preserves_get.bind fun m => ?_
    split
    · refine Preserves.bind (preserves_modifyGet fun m hm => (Machine.standing_map _).trans hm)
        fun mapped => ?_
      split
      · exact (Machine.aloof_stands st).preserves_report _
      · exact preserves_throw _
    · exact copyOnWrite_stands page _

omit [ReplacementPolicy π] in
theorem flushPage_stands (page : Page) :
    Run.Preserves (Machine.Stands st) (flushPage s page : Run π Unit) := by
  unfold flushPage
  split
  · refine ((Machine.aloof_stands st).heedless.writeBack _).run.bind fun answer => ?_
    split
    · exact Run.preserves_pure _
    · exact Run.preserves_modify fun _ hm => hm
  · exact Run.preserves_pure _

/-! ## Handles that come and go -/

variable {m : Machine π} {page : Page}

omit [ReplacementPolicy π] in
/-- A page that finds its address taken gives its handle back. -/
theorem insertPage_stands (writable : Bool) (backing : Backing) :
    Run.Ends True (insertPage s va writable backing) m fun answer after =>
      after.standing = if answer then m.standing else m.standing.release backing.source := by
  simp only [insertPage, Run.ends_bind, Run.ends_get, Run.ends_ite, Run.ends_set, Run.ends_pure]
  constructor
  · exact fun _ => Machine.standing_releaseSource _
  · exact fun _ => Machine.standing_putPage _

theorem destroyPage_stands : Run.Ends True (destroyPage s page) m fun _ after =>
    after.standing = m.standing.release page.source := by
  simp only [destroyPage, Run.ends_bind, Run.ends_modify, Run.ends_pure]
  refine ((flushPage_stands page).ends m rfl).imp fun _ m₁ hm₁ => ?_
  have hgone : (((m₁.freeSlot page.backing.slot?).releaseSource page.source).unmap s page.va).standing =
      m.standing.release page.source := by
    rw [Machine.standing_unmap, Machine.standing_releaseSource, Machine.standing_freeSlot, hm₁]
  split
  · exact (Machine.standing_release _).trans hgone
  · exact hgone

theorem removePage_stands : Run.Ends True (removePage s va) m fun _ after =>
    after.standing = match m.page? s va with
      | some page => m.standing.release page.source
      | none => m.standing := by
  simp only [removePage, Run.ends_bind, Run.ends_get]
  cases m.page? s va with
  | none => rfl
  | some page =>
    simp only [Run.ends_bind, Run.ends_modify, Run.ends_pure]
    refine destroyPage_stands.imp fun _ after hafter => ?_
    rw [hafter, Machine.standing_modifySpace rfl]

theorem destroyPages_stands (pages : List Page) :
    Run.Ends True (destroyPages s pages) m fun _ after =>
      after.standing = m.standing.releaseAll pages := by
  induction pages generalizing m with
  | nil => exact rfl
  | cons page rest ih =>
    simp only [destroyPages, Run.ends_bind]
    refine destroyPage_stands.imp fun _ m₁ hm₁ => ih.imp fun _ after hafter => ?_
    rw [hafter, hm₁]
    rfl

theorem emptySpace_stands : Run.Ends True (emptySpace s) m fun _ after =>
    after.standing = m.standing.releaseAll (m.space s).pages.values := by
  simp only [emptySpace, Run.ends_bind, Run.ends_get, Run.ends_modify]
  refine (destroyPages_stands _).imp fun _ after hafter => ?_
  rw [hafter, Machine.standing_modifySpace rfl]

omit [ReplacementPolicy π] in
theorem duplicateBacking_stands (backing : Backing) :
    Attempt.Ends True (duplicateBacking backing) m
      (fun copy after => copy.source = backing.source ∧ after.standing = m.standing.retain backing.source)
      fun _ after => after.standing = m.standing := by
  have hretain (copy : Backing) (hcopy : copy.source = backing.source) (m₁ : Machine π)
      (hm₁ : m₁.standing = m.standing) :
      copy.source = backing.source ∧
        (m₁.retainSource copy.source).standing = m.standing.retain backing.source := by
    rw [Machine.standing_retainSource, hm₁, hcopy]
    exact ⟨rfl, rfl⟩
  unfold duplicateBacking
  split
  · simp only [Attempt.ends_bind, Attempt.ends_modify, Attempt.ends_pure]
    refine (((Machine.aloof_stands m.standing).heedless.duplicateSlot _).ends m rfl).imp ?_ fun _ _ he => he
    exact fun slot m₁ hm₁ => hretain _ rfl m₁ hm₁
  · simp only [Attempt.ends_bind, Attempt.ends_modify, Attempt.ends_pure]
    exact ⟨trivial, (hretain _ rfl m rfl).2⟩

omit [ReplacementPolicy π] in
theorem linkCopy_stands (src dst : Nat) (backing : Backing) :
    Attempt.Ends True (linkCopy src dst va page backing) m (fun _ after => after.standing = m.standing)
      fun _ after => after.standing = m.standing.release backing.source := by
  simp only [linkCopy, Attempt.ends_bind, Attempt.ends_get, Attempt.ends_modify, Attempt.ends_tryCatch,
    Attempt.ends_throw, Attempt.ends_ite]
  refine ((shareWith_stands src dst m.nextSerial page.frame).ends _ rfl).imp ?_ ?_
  · intro _ m₁ hm₁
    constructor
    · exact fun _ => trivial
    · exact fun _ => (Machine.standing_putPage _).trans hm₁
  · intro e m₁ hm₁
    rw [Machine.standing_releaseSource, hm₁]
    rfl

end DemandPaging
