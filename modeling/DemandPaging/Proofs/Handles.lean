import DemandPaging.Proofs.Operations
import DemandPaging.Proofs.Tables

/-! # Handles and the pages that hold them

A page whose source is a file owns one handle of it, from the moment it is in its table until it leaves
it. `Balanced` machines have, of every file, the handles of the pages and as many more as others hold.
Whatever is done to memory, and wherever it fails, keeps a machine balanced.
-/
namespace DemandPaging

variable {π α : Type}

/-- The file of which the page at `va` holds a handle. -/
def Memory.fileAt (v : Memory π) (s va : Nat) : Option Nat := (v.pages s va).bind (·.source.file)

theorem Memory.fileAt_eq {v : Memory π} {s va : Nat} {page : Page} (hp : v.pages s va = some page) :
    v.fileAt s va = page.source.file := by
  rw [fileAt, hp]
  rfl

theorem Memory.fileAt_of_setAt {v w : Memory π} {s va : Nat} {x : Option Page}
    (hp : w.pages = setAt v.pages s va x) (t a : Nat) :
    w.fileAt t a = if t = s ∧ a = va then x.bind (·.source.file) else v.fileAt t a := by
  simp only [fileAt, hp, setAt_apply]
  split <;> rfl

/-- Paging neither takes handles nor gives any back. -/
theorem Memory.Pages.fileAt_eq [ReplacementPolicy π] {v w : Memory π} (h : v.Pages w) (t a : Nat) :
    w.fileAt t a = v.fileAt t a := by
  have hsame := h.outline_eq t a
  unfold fileAt
  cases hv : v.pages t a with
  | none =>
    rw [hv, Option.map_none, Option.map_eq_none_iff] at hsame
    rw [hsame]
  | some p =>
    obtain ⟨q, hq, heq⟩ := h.exists_page hv
    simp only [Page.outline, Prod.mk.injEq] at heq
    rw [hq, Option.bind_some, Option.bind_some, heq.2.2.2.1]

/-- A copy of a page holds a handle of the same file. -/
theorem Memory.Alters.fileAt_copy [ReplacementPolicy π] {v w : Memory π} {src dst : Nat} {page : Page}
    (h : v.Alters (.copy src dst page) w) : v.fileAt dst page.va = none ∧
      ∀ t a, w.fileAt t a = if t = dst ∧ a = page.va then page.source.file else v.fileAt t a := by
  cases h with
  | @copy _ _ _ backing swap hp hdst hd hfit hb =>
    have hsource : backing.source = page.source := hb.outline_eq.1
    refine ⟨?_, fun t a => ?_⟩
    · rw [fileAt, hd]
      rfl
    · rw [fileAt_of_setAt (pages_adopt ..)]
      simp only [Option.bind_some, Page.source, hsource]

namespace Machine
variable {m after : Machine π} {f s va : Nat}

/-- Where the pages are that hold a handle of file `f`. -/
def holders (m : Machine π) (f : Nat) : List (Nat × Nat) :=
  (m.allPages.filter fun e => decide (e.2.source.file = some f)).map fun e => (e.1, e.2.va)

theorem mem_holders (h : m.memory.Sound) : (s, va) ∈ m.holders f ↔ m.memory.fileAt s va = some f := by
  simp only [holders, List.mem_map, List.mem_filter, decide_eq_true_eq, Prod.exists, mem_allPages h,
    Prod.mk.injEq, Memory.fileAt, Option.bind_eq_some_iff]
  constructor
  · rintro ⟨t, p, ⟨hp, hf⟩, rfl, rfl⟩
    exact ⟨p, hp, hf⟩
  · rintro ⟨p, hp, hf⟩
    exact ⟨s, p, ⟨(h.kept hp).1 ▸ hp, hf⟩, rfl, (h.kept hp).1⟩

theorem nodup_holders (h : m.memory.Sound) (f : Nat) : (m.holders f).Nodup := by
  refine ((nodup_allPages h).filter _).map_on ?_
  rintro ⟨s, p⟩ hp ⟨t, q⟩ hq heq
  have hp := (mem_allPages h).mp (List.mem_of_mem_filter hp)
  have hq := (mem_allPages h).mp (List.mem_of_mem_filter hq)
  simp only [Prod.mk.injEq] at heq
  obtain ⟨rfl, hva⟩ := heq
  rw [hva] at hp
  rw [Option.some.inj (hp.symm.trans hq)]

theorem holders_congr (h : m.memory.Sound) (h' : after.memory.Sound)
    (hfile : ∀ t a, after.memory.fileAt t a = m.memory.fileAt t a) :
    (after.holders f).length = (m.holders f).length := by
  apply List.Perm.length_eq
  refine (List.perm_ext_iff_of_nodup (nodup_holders h' f) (nodup_holders h f)).mpr ?_
  rintro ⟨t, a⟩
  rw [mem_holders h', mem_holders h, hfile]

/-- One page makes a difference of one to the file that it holds a handle of. -/
theorem holders_add {source : Source} (h : m.memory.Sound) (h' : after.memory.Sound)
    (hnone : m.memory.fileAt s va = none)
    (hfile : ∀ t a, after.memory.fileAt t a =
      if t = s ∧ a = va then source.file else m.memory.fileAt t a) :
    (after.holders f).length = (m.holders f).length + if source.file = some f then 1 else 0 := by
  split
  · rename_i hsource
    have hnot : (s, va) ∉ m.holders f := by
      rw [mem_holders h, hnone]
      simp
    rw [← List.length_cons (a := (s, va))]
    apply List.Perm.length_eq
    refine (List.perm_ext_iff_of_nodup (nodup_holders h' f)
      (List.nodup_cons.mpr ⟨hnot, nodup_holders h f⟩)).mpr ?_
    rintro ⟨t, a⟩
    rw [mem_holders h', hfile, List.mem_cons, mem_holders h, Prod.mk.injEq]
    split
    · rename_i hat
      exact iff_of_true hsource (.inl hat)
    · rename_i hat
      exact ⟨.inr, fun h => h.resolve_left hat⟩
  · rename_i hsource
    apply List.Perm.length_eq
    refine (List.perm_ext_iff_of_nodup (nodup_holders h' f) (nodup_holders h f)).mpr ?_
    rintro ⟨t, a⟩
    rw [mem_holders h', hfile, mem_holders h]
    split
    · rename_i hat
      rw [hat.1, hat.2, hnone]
      exact iff_of_false hsource (by simp)
    · rfl

/-- Those of them that are in one space. -/
def holdersIn (m : Machine π) (f s : Nat) : List (Nat × Nat) :=
  ((m.space s).pages.values.filter fun page => decide (page.source.file = some f)).map
    fun page => (s, page.va)

theorem mem_holdersIn {t : Nat} (h : m.memory.Sound) :
    (t, va) ∈ m.holdersIn f s ↔ t = s ∧ m.memory.fileAt t va = some f := by
  simp only [holdersIn, List.mem_map, List.mem_filter, mem_values h, decide_eq_true_eq, Prod.mk.injEq,
    Memory.fileAt, Option.bind_eq_some_iff]
  constructor
  · rintro ⟨p, ⟨hp, hf⟩, rfl, rfl⟩
    exact ⟨rfl, p, hp, hf⟩
  · rintro ⟨rfl, p, hp, hf⟩
    exact ⟨p, ⟨(h.kept hp).1 ▸ hp, hf⟩, rfl, (h.kept hp).1⟩

theorem nodup_holdersIn (h : m.memory.Sound) (f s : Nat) : (m.holdersIn f s).Nodup := by
  refine ((nodup_values s h).filter _).map_on fun p hp q hq heq => ?_
  have hp := (mem_values h).mp (List.mem_of_mem_filter hp)
  have hq := (mem_values h).mp (List.mem_of_mem_filter hq)
  simp only [Prod.mk.injEq, true_and] at heq
  rw [heq] at hp
  exact Option.some.inj (hp.symm.trans hq)

/-- When a space is emptied its pages hold no handles any more. -/
theorem holders_emptied (h : m.memory.Sound) (h' : after.memory.Sound)
    (hpages : ∀ t a, after.memory.pages t a = if t = s then none else m.memory.pages t a) :
    (m.holders f).length = (after.holders f).length +
      (m.space s).pages.values.countP fun page => decide (page.source.file = some f) := by
  have hfile (t a : Nat) : after.memory.fileAt t a = if t = s then none else m.memory.fileAt t a := by
    simp only [Memory.fileAt, hpages]
    split <;> rfl
  have hnodup : (after.holders f ++ m.holdersIn f s).Nodup := by
    refine List.nodup_append'.mpr ⟨nodup_holders h' f, nodup_holdersIn h f s, ?_⟩
    rintro ⟨t, a⟩ hafter hin
    rw [mem_holders h', hfile, if_pos ((mem_holdersIn h).mp hin).1] at hafter
    cases hafter
  have hperm : (m.holders f).Perm (after.holders f ++ m.holdersIn f s) := by
    refine (List.perm_ext_iff_of_nodup (nodup_holders h f) hnodup).mpr ?_
    rintro ⟨t, a⟩
    rw [List.mem_append, mem_holders h, mem_holders h', hfile, mem_holdersIn h]
    by_cases ht : t = s <;> simp [ht]
  rw [hperm.length_eq, List.length_append, holdersIn, List.length_map, List.countP_eq_length_filter]

variable {ps : List Process} {held : Nat → Nat}

/-- A machine with these processes, on which every file has as many live handles as `held` says and,
besides, one for each page that holds one. -/
structure Balanced (ps : List Process) (held : Nat → Nat) (m : Machine π) : Prop where
  valid : m.memory.Valid
  processes : m.standing.processes = ps
  counted : ∀ {f n}, m.standing.handles f = some n → n = held f + (m.holders f).length

namespace Balanced

theorem length_processes (h : Balanced ps held m) : ps.length = m.spaces.size := by
  rw [← h.processes]
  simp [standing]

theorem lt_spaces (h : Balanced ps held m) (hs : s < ps.length) : s < m.spaces.size :=
  Nat.lt_of_lt_of_eq hs h.length_processes

/-- The same pages hold handles of the same files, and as many handles come or go as others say. -/
theorem recount {ps' : List Process} {held' : Nat → Nat} (h : Balanced ps held m)
    (hvalid : after.memory.Valid) (hprocesses : after.standing.processes = ps')
    (hfile : ∀ t a, after.memory.fileAt t a = m.memory.fileAt t a)
    (hhandles : ∀ f, after.standing.handles f =
      (m.standing.handles f).map fun n => n + held' f - held f) : Balanced ps' held' after where
  valid := hvalid
  processes := hprocesses
  counted {f n} hn := by
    rw [hhandles, Option.map_eq_some_iff] at hn
    obtain ⟨k, hk, rfl⟩ := hn
    have := h.counted hk
    rw [holders_congr h.valid.sound hvalid.sound hfile]
    omega

theorem of_files (h : Balanced ps held m) (hvalid : after.memory.Valid)
    (hst : after.standing = m.standing)
    (hfile : ∀ t a, after.memory.fileAt t a = m.memory.fileAt t a) : Balanced ps held after := by
  refine h.recount hvalid (by rw [hst, h.processes]) hfile fun f => ?_
  rw [hst]
  cases m.standing.handles f <;> simp

/-- A page comes and brings its handle along. -/
theorem retained {source : Source} (h : Balanced ps held m) (s va : Nat) (hvalid : after.memory.Valid)
    (hst : after.standing = m.standing.retain source) (hnone : m.memory.fileAt s va = none)
    (hfile : ∀ t a, after.memory.fileAt t a =
      if t = s ∧ a = va then source.file else m.memory.fileAt t a) : Balanced ps held after where
  valid := hvalid
  processes := by rw [hst]; exact h.processes
  counted {f n} hn := by
    have hlength := holders_add (f := f) h.valid.sound hvalid.sound hnone hfile
    rw [hst] at hn
    simp only [Standing.retain] at hn
    split at hn
    · rename_i hsource
      obtain ⟨k, hk, rfl⟩ := Option.map_eq_some_iff.mp hn
      rw [if_pos hsource] at hlength
      have := h.counted hk
      omega
    · rename_i hsource
      rw [if_neg hsource] at hlength
      have := h.counted hn
      omega

/-- A page goes and gives its handle back. -/
theorem released {source : Source} (h : Balanced ps held m) (s va : Nat) (hvalid : after.memory.Valid)
    (hst : after.standing = m.standing.release source) (hnone : after.memory.fileAt s va = none)
    (hfile : ∀ t a, m.memory.fileAt t a =
      if t = s ∧ a = va then source.file else after.memory.fileAt t a) : Balanced ps held after where
  valid := hvalid
  processes := by rw [hst]; exact h.processes
  counted {f n} hn := by
    have hlength := holders_add (f := f) hvalid.sound h.valid.sound hnone hfile
    rw [hst] at hn
    simp only [Standing.release] at hn
    split at hn
    · rename_i hsource
      obtain ⟨k, hk, rfl⟩ := Option.map_eq_some_iff.mp hn
      rw [if_pos hsource] at hlength
      have := h.counted hk
      omega
    · rename_i hsource
      rw [if_neg hsource] at hlength
      have := h.counted hn
      omega

/-- All pages of a space go. -/
theorem emptied (h : Balanced ps held m) (hvalid : after.memory.Valid)
    (hst : after.standing = m.standing.releaseAll (m.space s).pages.values)
    (hpages : ∀ t a, after.memory.pages t a = if t = s then none else m.memory.pages t a) :
    Balanced ps held after where
  valid := hvalid
  processes := by rw [hst, Standing.processes_releaseAll]; exact h.processes
  counted {f n} hn := by
    have hlength := holders_emptied (f := f) h.valid.sound hvalid.sound hpages
    rw [hst, Standing.handles_releaseAll] at hn
    obtain ⟨k, hk, rfl⟩ := Option.map_eq_some_iff.mp hn
    have := h.counted hk
    omega

variable [ReplacementPolicy π]

theorem of_pages (h : Balanced ps held m) (hpages : m.memory.Pages after.memory)
    (hst : after.standing = m.standing) : Balanced ps held after :=
  h.of_files (h.valid.evolves hpages) hst hpages.fileAt_eq

theorem report (h : Balanced ps held m) (e : Event) : Balanced ps held (m.report e) :=
  h.of_pages (.refl _) rfl

theorem copies {src dst : Nat} {pages : List Page} (h : Balanced ps held m)
    (hcopies : Machine.Copies src dst pages m after) : Balanced ps held after := by
  induction hcopies with
  | done hspared hst => exact h.of_pages hspared.rests.evolves hst
  | @copy pages page m m₁ after ha huser hst _ ih =>
    obtain ⟨hnone, hfile⟩ := ha.fileAt_copy
    exact ih (h.retained dst page.va (h.valid.evolves (.of_change ha)) hst hnone hfile)

end Balanced

end Machine

/-! ## Operations on memory -/

open Machine (Balanced)
variable [ReplacementPolicy π] {m : Machine π} {s va : Nat} {ps : List Process} {held : Nat → Nat}

namespace Machine.Balanced

/-- An operation that is paging, whether it succeeds or fails. -/
theorem attempt {x : Attempt π α} (h : Balanced ps held m)
    (hpages : Attempt.Ends False x m (fun _ after => m.memory.Pages after.memory)
      fun _ after => m.memory.Pages after.memory)
    (hst : Attempt.Preserves (Machine.Stands m.standing) x) : Attempt.Leaves (Balanced ps held) x m := by
  refine ((hpages.weaken False.elim).and (hst.ends m rfl)).imp ?_ ?_
  · exact fun _ after hafter => h.of_pages hafter.1 hafter.2
  · exact fun _ after hafter => h.of_pages hafter.1 hafter.2

end Machine.Balanced

theorem claimPage_balanced {page : Page} (h : Balanced ps held m)
    (hp : m.memory.pages s page.va = some page) :
    Attempt.Leaves (Balanced ps held) (claimPage s page) m := by
  refine h.attempt ((claimPage_ends h.valid hp).imp ?_ ?_) (claimPage_stands page)
  · exact fun _ _ hafter => hafter.1.evolves
  · exact fun _ _ hafter => hafter.2.evolves

theorem unprotect_balanced {page : Page} (h : Balanced ps held m)
    (hp : m.memory.pages s page.va = some page) (hw : page.writable = true) :
    Attempt.Leaves (Balanced ps held) (unprotect s page) m := by
  refine h.attempt ((unprotect_ends h.valid hp hw).imp ?_ ?_) (unprotect_stands page)
  · exact fun _ _ hafter => hafter.1.evolves
  · exact fun _ _ hafter => hafter.2.evolves

theorem evictFirst_balanced (busy : Option Nat) (candidates : List Nat) :
    Attempt.Preserves (Balanced ps held) (evictFirst busy candidates : Attempt π Nat) := by
  constructor
  intro m h
  refine h.attempt ((evictFirst_ends h.valid busy candidates).imp ?_ ?_)
    (evictFirst_aloof (Machine.aloof_stands _) ..)
  · exact fun _ _ hafter => hafter.rests.evolves
  · exact fun _ _ hafter => hafter.2.rests.evolves

/-- A page that is inserted keeps the handle it comes with, or the handle goes back. -/
theorem insertPage_balanced {writable : Bool} {backing : Backing} (h : Balanced ps held m)
    (hfresh : backing.Fresh) (hs : s < ps.length) (hva : va % pageSize = 0) :
    Run.Leaves (Balanced ps held) (insertPage s va writable backing)
      (m.retainSource backing.source) := by
  have hm := Machine.memory_retainSource (m := m) backing.source
  have hends : Run.Ends False (insertPage s va writable backing) (m.retainSource backing.source) _ :=
    insertPage_ends hfresh (Machine.lt_spaces hm (h.lt_spaces hs)) hva hm
  refine ((hends.weaken False.elim).and (insertPage_stands writable backing)).imp ?_
  rintro answer after ⟨⟨rfl, -, hrests⟩ | ⟨rfl, ha⟩, hst⟩
  · apply h.of_pages hrests.evolves
    simpa [Standing.release_retain] using hst
  · obtain ⟨hafter, hnone⟩ := ha.of_insert
    refine h.retained s va (h.valid.evolves (.of_change ha)) (by simpa using hst) ?_ ?_
    · rw [Memory.fileAt, hnone]
      rfl
    · have hpages : after.memory.pages = setAt m.memory.pages s va
          (some { serial := m.memory.nextSerial, va, writable, backing }) := by rw [hafter]; rfl
      exact Memory.fileAt_of_setAt hpages

theorem insertAnonymous_balanced {writable : Bool} (hs : s < ps.length) (hva : va % pageSize = 0) :
    Run.Preserves (Balanced ps held) (insertAnonymous s va writable : Run π Bool) :=
  ⟨fun _ h => insertPage_balanced h .zeroed hs hva⟩

theorem removePage_balanced (s va : Nat) :
    Run.Preserves (Balanced ps held) (removePage s va : Run π Bool) := by
  constructor
  intro m h
  refine (((removePage_ends h.valid va).weaken False.elim).and removePage_stands).imp ?_
  rintro answer after ⟨⟨-, hnone, hsame⟩ | ⟨page, -, hp, hquiet, hpages⟩, hst⟩
  · rw [Machine.page?_eq, hnone] at hst
    exact h.of_files (hsame ▸ h.valid) hst fun t a => by rw [hsame]
  · rw [Machine.page?_eq, hp] at hst
    refine h.released s (pageDown va) (h.valid.course hquiet) hst ?_ ?_
    · rw [Memory.fileAt_of_setAt hpages, if_pos ⟨rfl, rfl⟩]
      rfl
    · intro t a
      rw [Memory.fileAt_of_setAt hpages]
      split
      · rename_i hat
        rw [hat.1, hat.2, Memory.fileAt_eq hp]
      · rfl

theorem emptySpace_balanced (s : Nat) :
    Run.Preserves (Balanced ps held) (emptySpace s : Run π Unit) := by
  constructor
  intro m h
  refine ((emptySpace_empties h.valid s).weaken False.elim).imp ?_
  exact fun _ after hafter => h.emptied (hafter.valid h.valid) hafter.standing hafter.pages

theorem copySpace_balanced {src dst : Nat} (h : Balanced ps held m) (hdst : dst < ps.length)
    (hempty : ∀ a, m.memory.pages dst a = none) :
    Attempt.Leaves (Balanced ps held) (copySpace src dst) m := by
  refine ((copySpace_ends h.valid (h.lt_spaces hdst) hempty).weaken False.elim).imp ?_ ?_
  · rintro _ after ⟨pages, -, hcopies⟩
    exact h.copies hcopies
  · rintro e after ⟨copied, hcopies⟩
    exact h.copies hcopies

theorem preserves_event {ε : Type} (e : Event) : Attempt.Preserves (Balanced ps held)
    (modify (·.report e) : ExceptT ε (Run π) PUnit) :=
  Attempt.preserves_modify fun _ h => h.report e

theorem claim_balanced (s va : Nat) :
    Attempt.Preserves (Balanced ps held) (claim s va : Attempt π Unit) := by
  constructor
  intro m h
  simp only [claim, Attempt.ends_bind, Attempt.ends_get]
  cases hp : m.page? s va with
  | none => exact h
  | some page =>
    rw [Machine.page?_eq] at hp
    exact claimPage_balanced h ((h.valid.sound.kept hp).1 ▸ hp)

theorem growStack_balanced (hs : s < ps.length) (hva : va % pageSize = 0) :
    Attempt.Preserves (Balanced ps held) (growStack s va : Attempt π Unit) := by
  apply (preserves_event _).bind
  intro _
  apply (Attempt.preserves_lift (insertAnonymous_balanced hs hva)).discard.bind
  intro _
  apply (claim_balanced s va).tryCatch
  intro e
  apply (Attempt.preserves_lift (removePage_balanced s va)).discard.bind
  exact fun _ => Attempt.preserves_throw e

theorem handleFault_balanced (hs : s < ps.length) (fault : PageFault) (esp : Nat) :
    Attempt.Preserves (Balanced ps held) (handleFault s fault esp : Attempt π Unit) := by
  refine ⟨fun m h => ends_handleFault (fun _ _ _ => h.report _) fun x hresolved => ?_⟩
  cases hresolved with
  | growth => exact (growStack_balanced hs (pageDown_mod _)).ends m h
  | unprotection _ hp _ _ hw => exact unprotect_balanced h ((h.valid.sound.kept hp).1 ▸ hp) hw
  | claim _ hp => exact claimPage_balanced h ((h.valid.sound.kept hp).1 ▸ hp)

theorem survives_balanced (hs : s < ps.length) : Machine.Survives s (Balanced (π := π) ps held) where
  fault := handleFault_balanced hs
  touch m addr write page n h hp hf := by
    refine h.of_files (Machine.valid_touch h.valid write hp hf) (Machine.standing_modifySpace ?_) fun t a => ?_
    · cases write
      · simp only [Space.recordAccess, Bool.false_eq_true, if_false]
        split <;> rfl
      · simp only [Space.recordAccess, if_true, Space.setDirty]
        split <;> rfl
    · rw [Memory.fileAt, Memory.fileAt, Machine.pages_touch]
  contents m n c h := h.of_files (Machine.valid_setContents h.valid n c) rfl fun _ _ => rfl

/-! ## Programs and mappings -/

theorem addSegmentPages_balanced {file offset available count : Nat} {writable : Bool}
    (hs : s < ps.length) (hva : va % pageSize = 0) :
    Attempt.Preserves (Balanced ps held)
      (addSegmentPages s file writable offset va available count : Attempt π Unit) := by
  induction count generalizing va offset available with
  | zero => exact Attempt.preserves_pure _
  | succ count ih =>
    constructor
    intro m h
    simp only [addSegmentPages, Attempt.ends_bind, Attempt.ends_modify, Attempt.ends_lift,
      Attempt.ends_ite, Attempt.ends_throw]
    refine (insertPage_balanced h (.uninit .anonymous _) hs hva).imp fun answer m₁ h₁ => ?_
    refine ⟨fun _ => ⟨fun _ => ?_, fun _ => trivial⟩, fun _ => h₁.report _⟩
    have hnext : (va + pageSize) % pageSize = 0 := by rw [Nat.add_mod_right, hva]
    exact (ih hnext).ends m₁ h₁

theorem addSegment_balanced {file : Nat} (hs : s < ps.length) (plan : SegmentPlan) (writable : Bool) :
    Attempt.Preserves (Balanced ps held) (addSegment s file plan writable : Attempt π Unit) := by
  unfold addSegment
  dsimp only
  split
  · split
    · rename_i hpages
      exact addSegmentPages_balanced hs hpages.2
    · exact Attempt.preserves_abort _
  · exact Attempt.preserves_abort _

theorem addStack_balanced (hs : s < ps.length) :
    Attempt.Preserves (Balanced ps held) (addStack s : Attempt π Nat) := by
  apply (Attempt.preserves_lift (insertAnonymous_balanced hs (by decide))).bind
  intro inserted
  split
  · exact (claim_balanced s _).bind fun _ => Attempt.preserves_pure _
  · exact Attempt.preserves_throw _

theorem addSegments_balanced {file fileLength : Nat} (hs : s < ps.length)
    (headers : List ProgramHeader) : Attempt.Preserves (Balanced ps held)
      (addSegments s file fileLength headers : ExceptT LoadError (Run π) Unit) := by
  induction headers with
  | nil => exact Attempt.preserves_pure _
  | cons p rest ih =>
    unfold addSegments
    split
    · split
      · exact Attempt.preserves_throw _
      · apply (addSegment_balanced hs p.plan p.writable).adapt.bind
        exact fun _ => (preserves_event _).bind fun _ => ih
    · exact ih

theorem loadImage_balanced {file : Nat} (hs : s < ps.length) (bytes : List UInt8) :
    Attempt.Preserves (Balanced ps held)
      (loadImage s file bytes : ExceptT LoadError (Run π) LoadedProgram) := by
  constructor
  intro m h
  simp only [loadImage, Attempt.ends_bind, Attempt.ends_get, Attempt.ends_ite, Attempt.ends_throw]
  refine ⟨fun _ => h, fun _ => ?_⟩
  split
  · exact h
  · split
    · exact h
    · simp only [Attempt.ends_bind, Attempt.ends_adapt, Attempt.ends_pure]
      refine ((addSegments_balanced hs _).ends m h).imp (fun _ m₁ h₁ => ?_) fun _ _ he => he
      exact (addStack_balanced hs).ends m₁ h₁

theorem loadExecutable_balanced (hs : s < ps.length) (h : Handle) :
    Run.Preserves (Balanced ps held) (loadExecutable s h : Run π _) := by
  apply Run.preserves_get.bind
  intro m
  exact (loadImage_balanced hs _).run.bind fun _ => Run.preserves_pure _

theorem mapPages_balanced {file length offset count : Nat} {writable : Bool} (hs : s < ps.length)
    (hva : va % pageSize = 0) :
    Run.Preserves (Balanced ps held)
      (mapPages s writable file length va offset count : Run π Unit) := by
  induction count generalizing va offset with
  | zero => exact Run.preserves_pure _
  | succ count ih =>
    constructor
    intro m h
    simp only [mapPages, Run.ends_bind, Run.ends_modify, Run.ends_ite]
    refine (insertPage_balanced h (.uninit .file _) hs hva).imp fun answer m₁ h₁ => ?_
    refine ⟨fun _ => ?_, fun _ => trivial⟩
    have hnext : (va + pageSize) % pageSize = 0 := by rw [Nat.add_mod_right, hva]
    exact (ih hnext).ends m₁ h₁

theorem mapFile_balanced {file : Nat} (hs : s < ps.length) (addr length : Nat) (writable : Bool)
    (offset : Nat) :
    Attempt.Preserves (Balanced ps held) (mapFile s addr length writable file offset : Attempt π Nat) := by
  apply Attempt.preserves_get.bind
  intro m
  dsimp only
  split
  · rename_i stop hobjection hend
    obtain ⟨hva, -⟩ := mappingObjection?_eq_none hobjection hend
    apply (Attempt.preserves_lift (mapPages_balanced hs hva)).bind
    exact fun _ => (preserves_event _).bind fun _ => Attempt.preserves_pure _
  · refine Attempt.Preserves.bind (Attempt.preserves_modify fun m₁ h => ?_)
      fun _ => Attempt.preserves_throw _
    cases mappingObjection? (m.space s) addr length (m.files.length file) offset with
    | none => exact h
    | some e => exact h.report e

theorem unmapChain_balanced (count limit : Nat) :
    Run.Preserves (Balanced ps held) (unmapChain s va count limit : Run π Nat) := by
  induction limit generalizing va count with
  | zero => exact Run.preserves_pure _
  | succ limit ih =>
    unfold unmapChain
    apply Run.preserves_get.bind
    intro m
    split
    · exact Run.preserves_pure _
    · split
      · apply (removePage_balanced s va).bind
        intro _
        split
        · split
          · exact ih _
          · exact Run.preserves_abort _
        · exact Run.preserves_pure _
      · exact Run.preserves_pure _

theorem unmapFile_balanced (s addr : Nat) :
    Attempt.Preserves (Balanced ps held) (unmapFile s addr : Attempt π Unit) := by
  apply Attempt.preserves_get.bind
  intro m
  apply (Attempt.preserves_lift (unmapChain_balanced 0 _)).bind
  intro count
  split
  · exact (preserves_event _).bind fun _ => Attempt.preserves_throw _
  · exact preserves_event _

end DemandPaging
