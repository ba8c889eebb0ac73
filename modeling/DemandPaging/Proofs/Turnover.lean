import DemandPaging.Proofs.Operations

/-! # The turnover of frames

A machine reports each frame that it takes and each page that it puts out of one. Few operations take
frames, clear them or give them back. What these keep, and what is nobody else's concern, is kept by
whatever is asked of a machine.
-/
namespace DemandPaging

/-- Whether a report is of a frame that was taken, or of a page that was put out of one. -/
def Event.isTurnover : Event → Bool
  | .acquired .. | .evicted .. => true
  | _ => false

theorem Event.isTurnover_of_isStorage {e : Event} (h : e.isStorage = true) : e.isTurnover = false := by
  cases e <;> first | rfl | cases h

namespace FrameTable
variable {π : Type} (t : FrameTable π) {n : Nat} {f : Frame → Frame}

theorem frame_modify (k : Nat) : (t.modify n f).frame k =
    if n = k ∧ k < t.size then f (t.frame k) else t.frame k := by
  simp only [frame, modify, size, Array.getD_eq_getD_getElem?, Array.getElem?_modify]
  by_cases hk : k < t.frames.size
  · split <;> simp_all
  · rw [Array.getElem?_eq_none (Nat.le_of_not_lt hk)]
    simp [hk]

@[simp] theorem size_modify : (t.modify n f).size = t.size := by simp [size, modify]

theorem allocated_modify (hf : ∀ fr, (f fr).allocated = fr.allocated) (k : Nat) :
    ((t.modify n f).frame k).allocated = (t.frame k).allocated := by
  rw [frame_modify]
  split
  · exact hf _
  · rfl

/-- There is nothing beyond the last frame. -/
theorem lt_of_allocated (h : (t.frame n).allocated = true) : n < t.size := by
  by_contra hge
  rw [frame, Array.getD_eq_getD_getElem?, Array.getElem?_eq_none (Nat.le_of_not_lt hge)] at h
  cases h

end FrameTable

variable {π ε α : Type}

namespace Machine
variable {m m' : Machine π}

/-- The reports of frames taken and of pages put out, oldest first. -/
def turnover (m : Machine π) : List Event := m.events.toList.filter Event.isTurnover

theorem turnover_report {e : Event} (he : e.isTurnover = false) : (m.report e).turnover = m.turnover := by
  simp [turnover, report, he]

/-- No frame was taken, cleared or given back, and none was searched for. -/
structure Undisturbed (m m' : Machine π) : Prop where
  turnover : m'.turnover = m.turnover
  policy : m'.frames.policy = m.frames.policy
  position : m'.frames.position = m.frames.position
  size : m'.frames.size = m.frames.size
  allocated : ∀ n, (m'.frames.frame n).allocated = (m.frames.frame n).allocated

namespace Undisturbed

theorem refl (m : Machine π) : m.Undisturbed m := ⟨rfl, rfl, rfl, rfl, fun _ => rfl⟩

theorem trans {m'' : Machine π} (h : m.Undisturbed m') (h' : m'.Undisturbed m'') : m.Undisturbed m'' where
  turnover := h'.turnover.trans h.turnover
  policy := h'.policy.trans h.policy
  position := h'.position.trans h.position
  size := h'.size.trans h.size
  allocated n := (h'.allocated n).trans (h.allocated n)

theorem of_eq (hframes : m'.frames = m.frames) (hevents : m'.events = m.events) : m.Undisturbed m' := by
  refine ⟨?_, ?_, ?_, ?_, fun _ => ?_⟩
  · rw [Machine.turnover, Machine.turnover, hevents]
  all_goals rw [hframes]

theorem report {e : Event} (he : e.isTurnover = false) : m.Undisturbed (m.report e) :=
  ⟨turnover_report he, rfl, rfl, rfl, fun _ => rfl⟩

theorem modify {n : Nat} {f : Frame → Frame} (hf : ∀ fr, (f fr).allocated = fr.allocated) :
    m.Undisturbed { m with frames := m.frames.modify n f } :=
  ⟨rfl, rfl, rfl, m.frames.size_modify, m.frames.allocated_modify hf⟩

theorem setContents (n : Nat) (c : PageBytes) : m.Undisturbed (m.setContents n c) := modify fun _ => rfl

theorem map (s va n : Nat) (writable : Bool) : m.Undisturbed (m.map s va n writable).2 := .of_eq rfl rfl

theorem retainSource (source : Source) : m.Undisturbed (m.retainSource source) := by
  unfold Machine.retainSource
  split <;> exact .of_eq rfl rfl

theorem releaseSource (source : Source) : m.Undisturbed (m.releaseSource source) := by
  unfold Machine.releaseSource
  split <;> exact .of_eq rfl rfl

theorem freeSlot (slot : Option Nat) : m.Undisturbed (m.freeSlot slot) := by
  unfold Machine.freeSlot
  split <;> exact .of_eq rfl rfl

theorem share (n : Nat) (o : Owner) : m.Undisturbed
    { m with frames := (m.frames.modify n fun fr => { fr with refcount := fr.refcount + 1 }).addOwner n o } := by
  have hcounted : m.Undisturbed { m with
      frames := m.frames.modify n fun fr => { fr with refcount := fr.refcount + 1 } } := modify fun _ => rfl
  exact hcounted.trans (modify fun _ => rfl)

theorem install (n page s va : Nat) : m.Undisturbed (m.install n page s va) := by
  have hunpinned (fr : Frame) :
      ({ fr with entry := fr.entry.put .pinned false } : Frame).allocated = fr.allocated := by
    simp [Frame.allocated, CoreMapEntry.has_put]
  have howned : m.Undisturbed { m with frames := m.frames.addOwner n ⟨page, s, va⟩ } := modify fun _ => rfl
  exact howned.trans (modify hunpinned)

theorem installed (p : Page) (n page s va : Nat) {e : Event} (he : e.isTurnover = false) :
    m.Undisturbed (((m.putPage s p).install n page s va).report e) := by
  have hput : m.Undisturbed (m.putPage s p) := .of_eq rfl rfl
  exact (hput.trans (.install ..)).trans (.report he)

end Undisturbed

/-- All that `I` says of a machine is about which frames were taken, cleared and given back, and where the next
is searched for. -/
structure Indifferent (I : Machine π → Prop) : Prop where
  keep : ∀ {m m' : Machine π}, I m → m.Undisturbed m' → I m'

end Machine

open Machine (Undisturbed Indifferent Heedless)

/-! ## What disturbs no frame -/

section Indifferent
variable {I : Machine π → Prop} {s n va : Nat}

theorem Machine.Indifferent.attempt (hI : Indifferent I) {f : Machine π → Machine π}
    (hf : ∀ m, Undisturbed m (f m)) : Attempt.Preserves I (modify f : ExceptT ε (Run π) PUnit) :=
  Attempt.preserves_modify fun m hm => hI.keep hm (hf m)

theorem Machine.Indifferent.run (hI : Indifferent I) {f : Machine π → Machine π}
    (hf : ∀ m, Undisturbed m (f m)) : Run.Preserves I (modify f : Run π PUnit) :=
  Run.preserves_modify fun m hm => hI.keep hm (hf m)

theorem Machine.Indifferent.heedless (hI : Indifferent I) : Heedless I where
  report he hm := hI.keep hm (.report (Event.isTurnover_of_isStorage he))
  contents n c hm := hI.keep hm (.setContents n c)
  swap _ hm := hI.keep hm (.of_eq rfl rfl)
  written _ hm := hI.keep hm (.of_eq rfl rfl)
  cleaned _ _ hm := hI.keep hm (.of_eq rfl rfl)

theorem flushPage_indifferent (hI : Indifferent I) (page : Page) :
    Run.Preserves I (flushPage s page : Run π Unit) := by
  unfold flushPage
  split
  · refine (hI.heedless.writeBack _).run.bind fun answer => ?_
    split
    · exact Run.preserves_pure _
    · exact hI.run fun _ => .report rfl
  · exact Run.preserves_pure _

theorem insertPage_indifferent (hI : Indifferent I) (writable : Bool) (backing : Backing) :
    Run.Preserves I (insertPage s va writable backing : Run π Bool) := by
  constructor
  intro m hm
  simp only [insertPage, Run.ends_bind, Run.ends_get, Run.ends_ite, Run.ends_set, Run.ends_pure]
  exact ⟨fun _ => hI.keep hm (.releaseSource _), fun _ => hI.keep hm (.of_eq rfl rfl)⟩

theorem mapPages_indifferent (hI : Indifferent I) {writable : Bool} {file length offset count : Nat} :
    Run.Preserves I (mapPages s writable file length va offset count : Run π Unit) := by
  induction count generalizing va offset with
  | zero => exact Run.preserves_pure _
  | succ count ih =>
    refine Run.Preserves.bind (hI.run fun _ => .retainSource _) fun _ => ?_
    refine (insertPage_indifferent hI writable _).bind fun inserted => ?_
    split
    · exact ih
    · exact Run.preserves_abort _

theorem mapFile_indifferent (hI : Indifferent I) (addr length : Nat) (writable : Bool) (file offset : Nat) :
    Attempt.Preserves I (mapFile s addr length writable file offset : Attempt π Nat) := by
  refine Attempt.preserves_get.bind fun m => ?_
  dsimp only
  split
  · refine (Attempt.preserves_lift (mapPages_indifferent hI)).bind fun _ => ?_
    exact (hI.attempt fun _ => .report rfl).bind fun _ => Attempt.preserves_pure _
  · refine Attempt.Preserves.bind (hI.attempt fun m₁ => ?_) fun _ => Attempt.preserves_throw _
    -- An objection is reported, and none of them is about a frame.
    unfold mappingObjection?
    split
    · exact .report rfl
    · split
      · exact .report rfl
      · split
        · exact .report rfl
        · split
          · exact .report rfl
          · split
            · exact .report rfl
            · exact .refl _

/-! ## Copies of a space -/

theorem duplicateBacking_indifferent (hI : Indifferent I) (backing : Backing) :
    Attempt.Preserves I (duplicateBacking backing : Attempt π Backing) := by
  unfold duplicateBacking
  split
  · refine (hI.heedless.duplicateSlot _).bind fun _ => ?_
    exact (hI.attempt fun _ => .retainSource _).bind fun _ => Attempt.preserves_pure _
  · exact (hI.attempt fun _ => .retainSource _).bind fun _ => Attempt.preserves_pure _

theorem mapShared_indifferent (hI : Indifferent I) (parent child : Nat) :
    Attempt.Preserves I (mapShared n parent child va : Attempt π Unit) := by
  refine Attempt.Preserves.bind (Attempt.preserves_modifyGet fun m hm => hI.keep hm (.map ..)) fun _ => ?_
  split
  · refine Attempt.Preserves.bind (Attempt.preserves_modifyGet fun m hm => hI.keep hm (.map ..)) fun _ => ?_
    split
    · exact Attempt.preserves_pure _
    · exact Attempt.Preserves.bind (hI.attempt fun _ => .of_eq rfl rfl) fun _ => Attempt.preserves_throw _
  · exact Attempt.preserves_throw _

theorem shareWith_indifferent (hI : Indifferent I) (src dst serial : Nat) (frame : Option Nat) :
    Attempt.Preserves I (shareWith src dst va serial frame : Attempt π Unit) := by
  unfold shareWith
  split
  · refine (mapShared_indifferent hI ..).bind fun _ => ?_
    refine Attempt.Preserves.bind (hI.attempt fun _ => .share ..) fun _ => Attempt.preserves_get.bind fun _ => ?_
    exact hI.attempt fun _ => .report rfl
  · refine Attempt.preserves_get.bind fun _ => ?_
    split
    · exact (mapShared_indifferent hI ..).bind fun _ => hI.attempt fun _ => .report rfl
    · exact Attempt.preserves_pure _

theorem linkCopy_indifferent (hI : Indifferent I) (src dst : Nat) (page : Page) (backing : Backing) :
    Attempt.Preserves I (linkCopy src dst va page backing : Attempt π Unit) := by
  refine Attempt.preserves_get.bind fun m => ?_
  refine Attempt.Preserves.bind (hI.attempt fun _ => .of_eq rfl rfl) fun _ => ?_
  refine ((shareWith_indifferent hI ..).tryCatch fun e => ?_).bind fun _ => ?_
  · exact (hI.attempt fun _ => .releaseSource _).bind fun _ => Attempt.preserves_throw e
  · refine Attempt.Preserves.bind (hI.attempt fun _ => .report rfl) fun _ => ?_
    refine Attempt.preserves_get.bind fun _ => ?_
    split
    · exact Attempt.Preserves.bind (Attempt.preserves_abort _) fun _ => hI.attempt fun _ => .of_eq rfl rfl
    · exact hI.attempt fun _ => .of_eq rfl rfl

theorem copyPages_indifferent (hI : Indifferent I) (src dst : Nat) (pages : List (Nat × Page)) :
    Attempt.Preserves I (copyPages src dst pages : Attempt π Unit) := by
  induction pages with
  | nil => exact Attempt.preserves_pure _
  | cons e rest ih =>
    refine (duplicateBacking_indifferent hI _).bind fun _ => ?_
    exact (linkCopy_indifferent hI ..).bind fun _ => ih

theorem copySpace_indifferent (hI : Indifferent I) (src dst : Nat) :
    Attempt.Preserves I (copySpace src dst : Attempt π Unit) := by
  refine Attempt.preserves_get.bind fun m => (copyPages_indifferent hI ..).bind fun _ => ?_
  exact hI.attempt fun _ => .report rfl

end Indifferent

/-! ## What takes frames and gives them back -/

variable [ReplacementPolicy π]

/-- `I` outlasts the turnover of frames, and nothing else concerns it. -/
structure Machine.Endures (I : Machine π → Prop) : Prop extends Machine.Indifferent I where
  evictFirst : ∀ busy candidates, Attempt.Preserves I (evictFirst busy candidates : Attempt π Nat)
  acquire : ∀ busy, Attempt.Preserves I (acquire busy : Attempt π Nat)
  releaseFrame : ∀ m n, I m → I (m.releaseFrame n)

section Endures
variable {I : Machine π → Prop} {s n va : Nat}

theorem Machine.Endures.release (hI : Machine.Endures I) (m : Machine π) (n s va : Nat) (hm : I m) :
    I (m.release n s va) :=
  hI.releaseFrame _ n (hI.keep hm (.modify fun _ => rfl))

theorem Machine.Endures.abandon (hI : Machine.Endures I) (e : MemoryError) :
    Attempt.Preserves I (do
      modify (·.abandon n)
      throw e : Attempt π α) := by
  apply Attempt.Preserves.bind
  · exact Attempt.preserves_modify fun m hm => hI.releaseFrame m n hm
  · exact fun _ => Attempt.preserves_throw e

theorem claimPage_endures (hI : Machine.Endures I) (page : Page) :
    Attempt.Preserves I (claimPage s page : Attempt π Unit) := by
  unfold claimPage
  split
  · exact Attempt.preserves_pure _
  · refine (hI.acquire _).bind fun n => ?_
    have hload := hI.heedless.materialize (n := n) page.backing
    refine (hload.tryCatch fun e => hI.abandon e).bind fun backing => ?_
    refine Attempt.Preserves.bind (hI.attempt fun _ => .of_eq rfl rfl) fun _ => ?_
    refine Attempt.Preserves.bind (Attempt.preserves_modifyGet fun m hm => hI.keep hm (.map ..))
      fun mapped => ?_
    split
    · exact hI.attempt fun m => .installed _ _ _ _ _ rfl
    · exact hI.abandon _

theorem claim_endures (hI : Machine.Endures I) (s va : Nat) :
    Attempt.Preserves I (claim s va : Attempt π Unit) := by
  refine Attempt.preserves_get.bind fun m => ?_
  split
  · exact Attempt.preserves_throw _
  · exact claimPage_endures hI _

theorem copyOnWrite_endures (hI : Machine.Endures I) (page : Page) (old : Nat) :
    Attempt.Preserves I (copyOnWrite s page old : Attempt π Unit) := by
  refine (hI.acquire _).bind fun n => ?_
  refine Attempt.Preserves.bind (hI.attempt fun _ => .setContents ..) fun _ => ?_
  refine Attempt.Preserves.bind (Attempt.preserves_modifyGet fun m hm => hI.keep hm (.map ..))
    fun mapped => ?_
  split
  · refine Attempt.preserves_modify fun m hm => hI.keep (hI.release m old s page.va hm) ?_
    exact .installed _ _ _ _ _ rfl
  · exact hI.abandon _

theorem unprotect_endures (hI : Machine.Endures I) (page : Page) :
    Attempt.Preserves I (unprotect s page : Attempt π Unit) := by
  unfold unprotect
  split
  · exact claimPage_endures hI page
  · refine Attempt.preserves_get.bind fun m => ?_
    split
    · refine Attempt.Preserves.bind (Attempt.preserves_modifyGet fun m hm => hI.keep hm (.map ..))
        fun mapped => ?_
      split
      · exact hI.attempt fun _ => .report rfl
      · exact Attempt.preserves_throw _
    · exact copyOnWrite_endures hI page _

theorem destroyPage_endures (hI : Machine.Endures I) (page : Page) :
    Run.Preserves I (destroyPage s page : Run π Page) := by
  refine (flushPage_indifferent hI.toIndifferent page).bind fun _ => ?_
  refine Run.Preserves.bind (Run.preserves_modify fun m hm => ?_) fun _ => Run.preserves_pure _
  have hunmapped : Undisturbed ((m.freeSlot page.backing.slot?).releaseSource page.source)
      (((m.freeSlot page.backing.slot?).releaseSource page.source).unmap s page.va) := .of_eq rfl rfl
  have hgone := hI.keep hm
    (.trans (.trans (.freeSlot page.backing.slot?) (.releaseSource page.source)) hunmapped)
  dsimp only
  split
  · exact hI.release _ _ _ _ hgone
  · exact hgone

theorem removePage_endures (hI : Machine.Endures I) (s va : Nat) :
    Run.Preserves I (removePage s va : Run π Bool) := by
  refine Run.preserves_get.bind fun m => ?_
  split
  · exact Run.preserves_pure _
  · refine Run.Preserves.bind (hI.run fun _ => .of_eq rfl rfl) fun _ => ?_
    exact (destroyPage_endures hI _).bind fun _ => Run.preserves_pure _

theorem destroyPages_endures (hI : Machine.Endures I) (pages : List Page) :
    Run.Preserves I (destroyPages s pages : Run π Unit) := by
  induction pages with
  | nil => exact Run.preserves_pure _
  | cons page rest ih => exact (destroyPage_endures hI page).bind fun _ => ih

theorem emptySpace_endures (hI : Machine.Endures I) (s : Nat) :
    Run.Preserves I (emptySpace s : Run π Unit) := by
  refine Run.preserves_get.bind fun m => ?_
  exact Run.Preserves.bind (hI.run fun _ => .of_eq rfl rfl) fun _ => destroyPages_endures hI _

theorem growStack_endures (hI : Machine.Endures I) (s va : Nat) :
    Attempt.Preserves I (growStack s va : Attempt π Unit) := by
  refine Attempt.Preserves.bind (hI.attempt fun _ => .report rfl) fun _ => ?_
  have hinsert : Run.Preserves I (insertAnonymous s va true : Run π Bool) :=
    insertPage_indifferent hI.toIndifferent _ _
  refine (Attempt.preserves_lift hinsert).discard.bind fun _ => (claim_endures hI s va).tryCatch fun e => ?_
  exact (Attempt.preserves_lift (removePage_endures hI s va)).discard.bind fun _ => Attempt.preserves_throw e

theorem handleFault_endures (hI : Machine.Endures I) (fault : PageFault) (esp : Nat) :
    Attempt.Preserves I (handleFault s fault esp : Attempt π Unit) := by
  refine ⟨fun m hm => ends_handleFault (fun e report hrefused => ?_) fun x hresolved => ?_⟩
  · exact hI.keep hm (.report (by cases hrefused <;> rfl))
  cases hresolved with
  | growth => exact (growStack_endures hI s _).ends m hm
  | unprotection => exact (unprotect_endures hI _).ends m hm
  | claim => exact (claimPage_endures hI _).ends m hm

theorem Machine.Endures.survives (hI : Machine.Endures I) (s : Nat) : Machine.Survives s I where
  fault := handleFault_endures hI
  touch _ _ _ _ _ hm _ _ := hI.keep hm (.of_eq rfl rfl)
  contents _ n c hm := hI.keep hm (.setContents n c)

theorem unmapFile_endures (hI : Machine.Endures I) (s addr : Nat) :
    Attempt.Preserves I (unmapFile s addr : Attempt π Unit) := by
  have hchain (limit va count : Nat) : Run.Preserves I (unmapChain s va count limit : Run π Nat) := by
    induction limit generalizing va count with
    | zero => exact Run.preserves_pure _
    | succ limit ih =>
      refine Run.preserves_get.bind fun m => ?_
      split
      · exact Run.preserves_pure _
      · split
        · refine (removePage_endures hI s va).bind fun _ => ?_
          split
          · split
            · exact ih _ _
            · exact Run.preserves_abort _
          · exact Run.preserves_pure _
        · exact Run.preserves_pure _
  refine Attempt.preserves_get.bind fun m => (Attempt.preserves_lift (hchain ..)).bind fun count => ?_
  split
  · refine Attempt.Preserves.bind (hI.attempt fun _ => .report rfl) fun _ => ?_
    exact Attempt.preserves_throw _
  · exact hI.attempt fun _ => .report rfl

/-! ## Programs and processes -/

omit [ReplacementPolicy π] in
theorem addSegment_indifferent {I : Machine π → Prop} (hI : Indifferent I) (file : Nat) (plan : SegmentPlan)
    (writable : Bool) : Attempt.Preserves I (addSegment s file plan writable : Attempt π Unit) := by
  have hpages (count offset va available : Nat) : Attempt.Preserves I
      (addSegmentPages s file writable offset va available count : Attempt π Unit) := by
    induction count generalizing offset va available with
    | zero => exact Attempt.preserves_pure _
    | succ count ih =>
      constructor
      intro m hm
      simp only [addSegmentPages, Attempt.ends_bind, Attempt.ends_modify, Attempt.ends_lift,
        Attempt.ends_ite, Attempt.ends_throw]
      refine ((insertPage_indifferent hI ..).ends _ (hI.keep hm (.retainSource _))).imp fun _ m₁ h₁ => ?_
      refine ⟨fun _ => ⟨fun _ => ?_, fun _ => trivial⟩, fun _ => hI.keep h₁ (.report rfl)⟩
      exact (ih ..).ends m₁ h₁
  unfold addSegment
  dsimp only
  split
  · split
    · exact hpages ..
    · exact Attempt.preserves_abort _
  · exact Attempt.preserves_abort _

theorem loadExecutable_endures (hI : Machine.Endures I) (h : Handle) :
    Run.Preserves I (loadExecutable s h : Run π _) := by
  have hsegments (file fileLength : Nat) (headers : List ProgramHeader) : Attempt.Preserves I
      (addSegments s file fileLength headers : ExceptT LoadError (Run π) Unit) := by
    induction headers with
    | nil => exact Attempt.preserves_pure _
    | cons p rest ih =>
      unfold addSegments
      split
      · split
        · exact Attempt.preserves_throw _
        · refine (addSegment_indifferent hI.toIndifferent ..).adapt.bind fun _ => ?_
          exact Attempt.Preserves.bind (hI.attempt fun _ => .report rfl) fun _ => ih
      · exact ih
  have hstack : Attempt.Preserves I (addStack s : Attempt π Nat) := by
    refine (Attempt.preserves_lift (insertPage_indifferent hI.toIndifferent ..)).bind fun inserted => ?_
    split
    · exact (claim_endures hI s _).bind fun _ => Attempt.preserves_pure _
    · exact Attempt.preserves_throw _
  have himage (bytes : List UInt8) : Attempt.Preserves I
      (loadImage s h.file bytes : ExceptT LoadError (Run π) LoadedProgram) := by
    refine Attempt.preserves_get.bind fun m => ?_
    dsimp only
    split
    · exact Attempt.preserves_throw _
    · split
      · exact Attempt.preserves_throw _
      · split
        · exact Attempt.preserves_throw _
        · exact (hsegments ..).bind fun _ => hstack.adapt.bind fun _ => Attempt.preserves_pure _
  exact Run.preserves_get.bind fun m => (himage _).run.bind fun _ => Run.preserves_pure _

theorem loadProgram_endures (hI : Machine.Endures I) (h : Handle) :
    Run.Preserves I (loadProgram s h : Run π _) := by
  refine (loadExecutable_endures hI h).bind fun a => ?_
  split
  · exact Run.preserves_pure _
  · refine Run.Preserves.bind (hI.run fun _ => .of_eq rfl rfl) fun _ => ?_
    exact Run.Preserves.bind (hI.run fun _ => .report rfl) fun _ => Run.preserves_pure _

theorem processFault_endures (hI : Machine.Endures I) (fault : PageFault) (userEsp : Nat) :
    Attempt.Preserves I (processFault s fault userEsp : Attempt π Unit) := by
  have hfault (esp : Nat) : Attempt.Preserves I (tryCatch (handleFault s fault esp) fun e => do
      modify fun m => m.report (.processFault (m.process s).pid fault.addr e)
      throw e : Attempt π Unit) := by
    refine (handleFault_endures hI fault esp).tryCatch fun e => ?_
    exact Attempt.Preserves.bind (hI.attempt fun _ => .report rfl) fun _ => Attempt.preserves_throw e
  unfold processFault
  split
  · refine Attempt.Preserves.bind (Attempt.preserves_lift (hI.run fun _ => .of_eq rfl rfl)) fun _ => ?_
    exact Attempt.preserves_get.bind fun m => hfault _
  · exact Attempt.preserves_get.bind fun m => hfault _

theorem fork_endures (hI : Machine.Endures I) (s childPid : Nat) :
    Attempt.Preserves I (fork s childPid : Attempt π Nat) := by
  refine Attempt.preserves_get.bind fun m => ?_
  refine Attempt.Preserves.bind (hI.attempt fun _ => .of_eq rfl rfl) fun _ => ?_
  refine ((copySpace_indifferent hI.toIndifferent ..).tryCatch fun e => ?_).bind fun _ => ?_
  · refine Attempt.Preserves.bind (hI.attempt fun _ => .report rfl) fun _ => ?_
    refine (Attempt.preserves_lift (emptySpace_endures hI _)).bind fun _ => ?_
    exact Attempt.Preserves.bind (hI.attempt fun _ => .of_eq rfl rfl) fun _ => Attempt.preserves_throw e
  · refine Attempt.Preserves.bind (Attempt.preserves_lift (hI.run fun _ => .of_eq rfl rfl)) fun _ => ?_
    exact Attempt.Preserves.bind (hI.attempt fun _ => .report rfl) fun _ => Attempt.preserves_pure _

omit [ReplacementPolicy π] in
theorem closeFile_indifferent {I : Machine π → Prop} (hI : Indifferent I) (fd : Int) :
    Run.Preserves I (closeFile s fd : Run π Bool) := by
  refine Run.preserves_get.bind fun m => ?_
  split
  · exact Run.preserves_pure _
  · exact Run.Preserves.bind (hI.run fun _ => .of_eq rfl rfl) fun _ => Run.preserves_pure _

theorem exit_endures (hI : Machine.Endures I) (s : Nat) : Run.Preserves I (exit s : Run π Unit) := by
  refine (emptySpace_endures hI s).bind fun _ => ?_
  refine Run.Preserves.bind (hI.run fun _ => .of_eq rfl rfl) fun _ => ?_
  exact hI.run fun _ => .report rfl

/-- What outlasts the turnover of frames outlasts every operation. -/
theorem Operation.perform_endures (hI : Machine.Endures I) (op : Operation) :
    Run.Preserves I (op.perform : Run π Reply) := by
  have hanswer {α : Type} {reply : α → Reply} {x : Attempt π α} (hx : Attempt.Preserves I x) :
      Run.Preserves I (answer reply x) :=
    ⟨fun m hm => answer_ends (hx.ends m hm) (fun _ _ hafter => hafter) fun _ _ hafter => hafter⟩
  have hrun {α : Type} {reply : α → Reply} {x : Run π α} (hx : Run.Preserves I x) :
      Run.Preserves I (reply <$> x) := ⟨fun m hm => Run.ends_map.mpr (hx.ends m hm)⟩
  have hI' := hI.toIndifferent
  cases op with
  | createProcess | createTable =>
    refine hrun (Run.preserves_get.bind fun m => ?_)
    exact Run.Preserves.bind (hI'.run fun _ => .of_eq rfl rfl) fun _ => Run.preserves_pure _
  | setStackPointer s esp => exact hrun (hI'.run fun _ => .of_eq rfl rfl)
  | insert s va writable backing =>
    exact hrun (Run.Preserves.bind (hI'.run fun _ => .retainSource _) fun _ => insertPage_indifferent hI' ..)
  | load s h => exact hrun (loadProgram_endures hI h)
  | openFile s h =>
    refine hrun (Run.preserves_get.bind fun m => ?_)
    split
    · exact Run.preserves_abort _
    · exact Run.Preserves.bind (hI'.run fun _ => .of_eq rfl rfl) fun _ => Run.preserves_pure _
  | closeFile s fd => exact hrun (closeFile_indifferent hI' fd)
  | map s addr length writable file offset => exact hanswer (mapFile_indifferent hI' ..)
  | unmap s addr => exact hanswer (unmapFile_endures hI s addr)
  | pageFault s fault userEsp => exact hanswer (processFault_endures hI fault userEsp)
  | readUser s addr count => exact hrun (Run.preserves_get.bind fun m => (hI.survives s).copyFromUser ..)
  | writeUser s addr bytes => exact hanswer (Attempt.preserves_get.bind fun m => (hI.survives s).copyToUser ..)
  | fork s childPid => exact hanswer (fork_endures hI s childPid)
  | exit s => exact hrun (exit_endures hI s)
  | claim s va => exact hanswer (claim_endures hI s va)
  | resolveFault s fault esp => exact hanswer (handleFault_endures hI fault esp)
  | copyFrom s esp addr count => exact hrun ((hI.survives s).copyFromUser ..)
  | copyTo s esp addr bytes => exact hanswer ((hI.survives s).copyToUser ..)
  | remove s va => exact hrun (removePage_endures hI s va)
  | copyTable src dst => exact hanswer (copySpace_indifferent hI' src dst)
  | kill s => exact hrun (emptySpace_endures hI s)
  | evict n => exact hanswer (hI.evictFirst none [n])

end Endures

end DemandPaging
