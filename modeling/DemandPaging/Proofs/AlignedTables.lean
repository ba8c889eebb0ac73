import DemandPaging.Proofs.CheckedLoading
import DemandPaging.Proofs.LoadedImage
import DemandPaging.Proofs.Reached
import DemandPaging.Proofs.StackGrowth

/-! # Loading into aligned tables

Loading never aborts, whatever the file holds and whatever state the machine is in, as long as the pages
of its tables are page-aligned. What is in a page, in a frame, in swap or in a page directory plays no
part in this. Every page that is added is in user memory and is filled from within the file.
-/
namespace DemandPaging

/-! ## Pages that are paged -/

variable {π : Type} {m m₁ after : Machine π} {s n va : Nat} {page : Page}

/-- All pages of all tables are page-aligned, and under their own addresses. -/
def Machine.Aligned (m : Machine π) : Prop :=
  ∀ t a p, (m.space t).pages[a]? = some p → p.va = a ∧ a % pageSize = 0

/-- The memory of reached machines is in order, so that their tables are. -/
theorem Reached.aligned [ReplacementPolicy π] {first : Machine π} (h : Reached first m)
    (hfirst : first.memory.Valid) : m.Aligned := by
  intro t a p hp
  obtain ⟨hva, hmod, -⟩ := (h.valid hfirst).sound.kept hp
  exact ⟨hva, hmod⟩

theorem Machine.pages_modifySpace {f : Space → Space} (hf : (f (m.space s)).pages = (m.space s).pages) :
    (m.modifySpace s f).memory.pages = m.memory.pages := by
  funext t a
  show ((m.modifySpace s f).space t).pages[a]? = (m.space t).pages[a]?
  rw [Machine.space_modifySpace]
  split
  · rename_i ht
    rw [hf, ht.1]
  · rfl

theorem Memory.outlines_congr {v w : Memory π} (h : w.pages = v.pages) : w.outlines = v.outlines := by
  funext t a
  rw [outlines, outlines, h]

/-- A page may get another backing for the same contents, and another frame. -/
theorem Machine.outlines_putPage {backing : Backing} (hp : m.memory.outlines s page.va = some page.outline)
    (hsource : backing.source = page.source) (hfile : backing.isFile = page.isFile) (frame : Option Nat) :
    (m.putPage s { page with backing, frame }).memory.outlines = m.memory.outlines := by
  have hs : s < m.spaces.size := by
    by_contra hnot
    rw [Memory.outlines, (Machine.memory_spaceless (Nat.le_of_not_lt hnot)).1] at hp
    cases hp
  have hsame : ({ page with backing, frame } : Page).outline = page.outline := by
    simp only [Page.outline, Page.source, Page.isFile] at hsource hfile ⊢
    rw [hsource, hfile]
  rw [Machine.memory_putPage hs]
  refine (Memory.outlines_setAt rfl).trans (setAt_eq_self ?_)
  rw [Option.map_some, hsame]
  exact hp

/-- A space maps an address or refuses to, and its table stays the same. -/
theorem Space.pages_map (space : Space) (va n : Nat) (writable : Bool) :
    (space.map va n writable).2.pages = space.pages := by
  unfold map
  split
  · split <;> rfl
  · rfl

theorem Machine.pages_map (writable : Bool) : (m.map s va n writable).2.memory.pages = m.memory.pages :=
  Machine.pages_modifySpace (Space.pages_map ..)

theorem storedIn_pages (answer : Except MemoryError Nat) (swap : SwapSpace) :
    Attempt.Ends False (storedIn answer swap) m (fun _ after => after.memory.pages = m.memory.pages)
      fun _ after => after.memory.pages = m.memory.pages := by
  simp only [storedIn, Attempt.ends_bind, Attempt.ends_modify]
  cases answer with
  | ok slot => exact rfl
  | error e =>
    simp only [Attempt.ends_bind, Attempt.ends_modify, Attempt.ends_ite, Attempt.ends_throw]
    exact ⟨fun _ => rfl, fun _ => rfl⟩

theorem writeBack_pages (source : Source) :
    Attempt.Ends False (writeBack source n s va) m (fun _ after => after.memory.pages = m.memory.pages)
      fun _ after => after.memory.pages = m.memory.pages := by
  exact ends_writeBack (fun _ => rfl) (fun _ _ => rfl) fun _ _ _ _ _ _ =>
    ⟨fun _ => Machine.pages_modifySpace rfl, fun _ => rfl⟩

theorem loadSource_pages (source : Source) :
    Attempt.Ends False (loadSource source n) m (fun _ after => after.memory.pages = m.memory.pages)
      fun _ after => after.memory.pages = m.memory.pages := by
  simp only [loadSource, Attempt.ends_bind, Attempt.ends_get, Attempt.ends_set, Attempt.ends_modify,
    Attempt.ends_ite, Attempt.ends_throw]
  exact ⟨fun _ => rfl, fun _ => rfl⟩

/-- The tables are the same, and a backing is one for the same page. -/
def Machine.Rebacks (m : Machine π) (old new : Backing) (after : Machine π) : Prop :=
  after.memory.pages = m.memory.pages ∧ new.source = old.source ∧ new.isFile = old.isFile

theorem saveOut_rebacks (page : Page) :
    Attempt.Ends False (saveOut page n s) m (fun backing after => m.Rebacks page.backing backing after)
      fun _ after => after.memory.pages = m.memory.pages := by
  unfold saveOut
  cases page.backing with
  | anonymous source slot =>
    simp only [Attempt.ends_bind, storePage, Attempt.ends_get, Attempt.ends_pure]
    exact (storedIn_pages ..).imp (fun _ _ hpages => ⟨hpages, rfl, rfl⟩) fun _ _ hpages => hpages
  | fileBacked source evicted =>
    simp only [Attempt.ends_bind, Attempt.ends_pure]
    exact (writeBack_pages source).imp (fun _ _ hpages => ⟨hpages, rfl, rfl⟩) fun _ _ hpages => hpages
  | uninit target source => exact rfl

/-- A page that is not in swap is filled without a slot. -/
theorem materialize_rebacks {backing : Backing} (hslot : backing.slot? = none) :
    Attempt.Ends False (materialize backing n) m (fun filled after => m.Rebacks backing filled after)
      fun _ after => after.memory.pages = m.memory.pages := by
  cases backing with
  | uninit target source =>
    simp only [materialize, Attempt.ends_bind]
    refine (loadSource_pages source).imp (fun _ _ hpages => ?_) fun _ _ hpages => hpages
    cases target <;> exact ⟨hpages, rfl, rfl⟩
  | anonymous source slot =>
    obtain rfl : slot = none := hslot
    exact ⟨rfl, rfl, rfl⟩
  | fileBacked source evicted =>
    simp only [materialize, Attempt.ends_bind, Attempt.ends_pure]
    exact (loadSource_pages source).imp (fun _ _ hpages => ⟨hpages, rfl, rfl⟩) fun _ _ hpages => hpages

variable [ReplacementPolicy π]

theorem evictPage_outlines {o : Owner} (hp : m.memory.pages o.space page.va = some page) :
    Attempt.Ends False (evictPage n o page) m (fun _ after => after.memory.outlines = m.memory.outlines)
      fun _ after => after.memory.outlines = m.memory.outlines := by
  simp only [evictPage, Attempt.ends_bind, Attempt.ends_modify]
  refine (saveOut_rebacks page).imp ?_ fun _ _ hpages => Memory.outlines_congr hpages
  rintro backing m₁ ⟨hpages, hsource, hfile⟩
  have hunmapped : (m₁.unmap o.space o.va).memory.outlines = m.memory.outlines :=
    Memory.outlines_congr ((Machine.pages_modifySpace rfl).trans hpages)
  have hat : (m₁.unmap o.space o.va).memory.outlines o.space page.va = some page.outline := by
    rw [hunmapped, Memory.outlines, hp, Option.map_some]
  exact (Machine.outlines_putPage hat hsource hfile none).trans hunmapped

/-- A frame is found or not, and nothing comes of it but that another page leaves its own. -/
theorem acquire_outlines (h : m.Aligned) (busy : Option Nat) :
    Attempt.Ends False (acquire busy) m (fun _ after => after.memory.outlines = m.memory.outlines)
      fun _ after => after.memory.outlines = m.memory.outlines := by
  refine acquire_of_room (fun _ _ _ => rfl) fun _ => evictFirst_of_victim _ rfl fun n o page hv => ?_
  obtain ⟨-, hp, -⟩ := Machine.victim?_eq_some.mp hv
  have hva : page.va = pageDown o.va := (h _ _ _ hp).1
  exact evictPage_outlines (hva ▸ hp)

theorem claimPage_outlines (h : m.Aligned) (hp : m.memory.pages s page.va = some page)
    (hslot : page.backing.slot? = none) :
    Attempt.Ends False (claimPage s page) m (fun _ after => after.memory.outlines = m.memory.outlines)
      fun _ after => after.memory.outlines = m.memory.outlines := by
  have hat : m.memory.outlines s page.va = some page.outline := by
    rw [Memory.outlines, hp, Option.map_some]
  unfold claimPage
  split
  · exact rfl
  simp only [Attempt.ends_bind, Attempt.ends_tryCatch, Attempt.ends_modify, Attempt.ends_modifyGet,
    Attempt.ends_ite, Attempt.ends_throw]
  refine (acquire_outlines h _).imp (fun n m₁ hm₁ => ?_) fun _ _ hm₁ => hm₁
  have habandon {m₂ : Machine π} (hm₂ : m₂.memory.outlines = m.memory.outlines) :
      (m₂.abandon n).memory.outlines = m.memory.outlines := by
    refine Eq.trans (Memory.outlines_congr ?_) hm₂
    funext t a
    exact congrArg (fun space : Space => space.pages[a]?) (Machine.space_abandon (m := m₂) n t)
  refine (materialize_rebacks hslot).imp ?_ fun e m₂ hm₂ => habandon ((Memory.outlines_congr hm₂).trans hm₁)
  rintro backing m₂ ⟨hpages, hsource, hfile⟩
  have hput {m₃ : Machine π} (hm₃ : m₃.memory.outlines = m.memory.outlines) (frame : Option Nat) :
      (m₃.putPage s { page with backing, frame }).memory.outlines = m.memory.outlines :=
    (Machine.outlines_putPage (hm₃ ▸ hat) hsource hfile frame).trans hm₃
  have hmap {m₃ : Machine π} (hm₃ : m₃.memory.outlines = m.memory.outlines) :
      (m₃.map s page.va n page.writable).2.memory.outlines = m.memory.outlines :=
    (Memory.outlines_congr (Machine.pages_map ..)).trans hm₃
  have hmapped := hmap (hput ((Memory.outlines_congr hpages).trans hm₁) page.frame)
  exact ⟨fun _ => hput hmapped (some n), fun _ => habandon hmapped⟩

/-! ## What loading adds -/

/-- A page that may be added for a program in a file of this length: in user memory but not at its very
start, and filled from bytes that are in the file. -/
structure Page.Loadable (page : Page) (file length : Nat) : Prop where
  aligned : page.va % pageSize = 0
  first : pageSize ≤ page.va
  last : page.va + pageSize ≤ kernelBase
  within : ∀ f, page.source.file = some f →
    f = file ∧ page.source.offset + page.source.readBytes ≤ length

variable {file length : Nat} {plans : SegmentPlan → Prop}

/-- The plans of segments that may be loaded from a file of this length. -/
def SegmentPlan.OfHeader (length : Nat) (plan : SegmentPlan) : Prop :=
  ∃ p : ProgramHeader, p.Accepted length ∧ plan = p.plan

theorem Page.OfProgram.loadable (h : page.OfProgram file (SegmentPlan.OfHeader length)) :
    page.Loadable file length := by
  cases h with
  | stack hva hb =>
    refine ⟨hva ▸ by decide, hva ▸ by decide, hva ▸ by decide, fun f hf => ?_⟩
    rw [Page.source, hb] at hf
    cases hf
  | @segment plan k hp hk hva hb =>
    obtain ⟨p, haccepted, rfl⟩ := hp
    obtain ⟨hsize, hlt, hmod⟩ := haccepted.size_eq
    obtain ⟨hfirst, hlast⟩ := haccepted.within
    have hstart := ProgramHeader.Accepted.start_mod p
    have hplan : page.va = p.start + k * pageSize := hva
    rw [hsize] at hk
    simp only [pageSize] at hk hmod hstart hplan hfirst
    refine ⟨?_, ?_, ?_, fun f hf => ?_⟩
    · simp only [pageSize]
      omega
    · simp only [pageSize]
      omega
    · simp only [pageSize]
      omega
    · rw [Page.source, hb] at hf ⊢
      exact haccepted.source_within hf

namespace Memory

/-- A page was there before, but for how it is paged, or has been added to space `s`. -/
def Gains (s file length : Nat) (v w : Memory π) : Prop :=
  ∀ t a p, w.pages t a = some p → (∃ q, v.pages t a = some q ∧ p.outline = q.outline) ∨
    t = s ∧ p.va = a ∧ p.Loadable file length

namespace Gains
variable {u v w : Memory π}

omit [ReplacementPolicy π] in
theorem of_outlines (h : w.outlines = v.outlines) : v.Gains s file length w := by
  intro t a p hp
  have hat := congrFun (congrFun h t) a
  rw [outlines, outlines, hp, Option.map_some, eq_comm, Option.map_eq_some_iff] at hat
  obtain ⟨q, hq, houtline⟩ := hat
  exact .inl ⟨q, hq, houtline.symm⟩

omit [ReplacementPolicy π] in
theorem trans (h : u.Gains s file length v) (h' : v.Gains s file length w) : u.Gains s file length w := by
  intro t a p hp
  rcases h' t a p hp with ⟨q, hq, hpq⟩ | hadded
  · rcases h t a q hq with ⟨r, hr, hqr⟩ | ⟨hs, hva, hloadable⟩
    · exact .inl ⟨r, hr, hpq.trans hqr⟩
    · simp only [Page.outline, Prod.mk.injEq] at hpq
      obtain ⟨-, hsame, -, hsource, -⟩ := hpq
      refine .inr ⟨hs, hsame.trans hva, ?_⟩
      obtain ⟨haligned, hfirst, hlast, hwithin⟩ := hloadable
      exact ⟨hsame ▸ haligned, hsame ▸ hfirst, hsame ▸ hlast, hsource ▸ hwithin⟩
  · exact .inr hadded

theorem of_insert (hp : page.Loadable file length) (ha : v.Alters (.insert s page) w) :
    v.Gains s file length w := by
  obtain ⟨rfl, hnone⟩ := ha.of_insert
  intro t a p hat
  have hset : (v.add s page).pages = setAt v.pages s page.va (some page) := rfl
  rw [hset, setAt_apply] at hat
  split at hat
  · rename_i heq
    obtain rfl := Option.some.inj hat
    exact .inr ⟨heq.1, heq.2.symm, hp⟩
  · exact .inl ⟨p, hat, rfl⟩

theorem of_loads (h : v.Loads s file (SegmentPlan.OfHeader length) w) : v.Gains s file length w := by
  obtain ⟨cs, hcs, hquiet⟩ := h
  refine hquiet.evolves.keeps (I := fun u => v.Gains s file length u) (.of_outlines rfl) ?_ ?_
  · intro u u' hstep hu
    exact hu.trans (.of_outlines (funext fun t => funext fun a => hstep.outline_eq t a))
  · intro u c u' hc ha hu
    obtain ⟨page, rfl, -, hpage⟩ := hcs c hc
    exact hu.trans (.of_insert hpage.loadable ha)

end Gains

end Memory

omit [ReplacementPolicy π] in
/-- Pages that are added are aligned. -/
theorem Machine.Aligned.of_gains (h : m.Aligned) (hg : m.memory.Gains s file length after.memory) :
    after.Aligned := by
  intro t a p hp
  rcases hg t a p hp with ⟨q, hq, houtline⟩ | ⟨-, rfl, hloadable⟩
  · obtain ⟨hva, hmod⟩ := h t a q hq
    simp only [Page.outline, Prod.mk.injEq] at houtline
    exact ⟨houtline.2.1.trans hva, hmod⟩
  · exact ⟨rfl, hloadable.aligned⟩

theorem addStack_gains (h : m.Aligned) (hs : s < m.spaces.size) :
    Attempt.Ends False (addStack s) m
      (fun _ after => m.memory.Gains s file length after.memory)
      fun _ after => m.memory.Gains s file length after.memory := by
  simp only [addStack, Attempt.ends_bind, Attempt.ends_lift, Attempt.ends_ite, Attempt.ends_throw,
    Attempt.ends_pure]
  refine (insertAnonymous_ends hs (by decide)).imp ?_
  rintro answer m₁ (⟨rfl, -, hrests⟩ | ⟨rfl, ha⟩)
  · exact ⟨(by simp), fun _ => .of_outlines (Memory.Pages.outlines_eq hrests.evolves)⟩
  refine ⟨fun _ => ?_, fun hnot => absurd rfl hnot⟩
  have hstack : (Page.blank m.memory.nextSerial (stackTop - pageSize) true).OfProgram file
      (SegmentPlan.OfHeader length) := .stack rfl rfl
  have hgains : m.memory.Gains s file length m₁.memory := .of_insert hstack.loadable ha
  have hpage : m₁.memory.pages s (stackTop - pageSize) =
      some (.blank m.memory.nextSerial (stackTop - pageSize) true) := by
    rw [ha.of_insert.1]
    exact setAt_self
  simp only [claim, Attempt.ends_bind, Attempt.ends_get]
  have hfound : m₁.page? s (stackTop - pageSize) =
      some (.blank m.memory.nextSerial (stackTop - pageSize) true) := hpage
  rw [hfound]
  exact (claimPage_outlines (h.of_gains hgains) hpage rfl).imp
    (fun _ _ hsame => hgains.trans (.of_outlines hsame)) fun _ _ hsame => hgains.trans (.of_outlines hsame)

theorem loadImage_gains (h : m.Aligned) (hs : s < m.spaces.size) (bytes : List UInt8) :
    Attempt.Ends False (loadImage s file bytes) m
      (fun _ after => m.memory.Gains s file (m.files.length file) after.memory)
      fun _ after => m.memory.Gains s file (m.files.length file) after.memory := by
  simp only [loadImage, Attempt.ends_bind, Attempt.ends_get, Attempt.ends_ite, Attempt.ends_throw]
  refine ⟨fun _ => .of_outlines rfl, fun _ => ?_⟩
  split
  · exact .of_outlines rfl
  · split
    · exact .of_outlines rfl
    · simp only [Attempt.ends_bind, Attempt.ends_adapt, Attempt.ends_pure]
      have hplan (p : ProgramHeader) (hobjection : p.objection? (m.files.length file) = none) :
          SegmentPlan.OfHeader (m.files.length file) p.plan :=
        ⟨p, ProgramHeader.accepted_of_objection hobjection, rfl⟩
      refine (addSegments_ends hs fun p _ _ hobjection => hplan p hobjection).imp ?_
        fun _ _ hload => .of_loads hload
      intro _ m₁ hload
      have hs₁ : s < m₁.spaces.size := Nat.lt_of_lt_of_eq hs hload.spaces_eq.symm
      have hgains := Memory.Gains.of_loads hload
      exact (addStack_gains (h.of_gains hgains) hs₁).imp (fun _ _ hrest => hgains.trans hrest)
        fun _ _ hrest => hgains.trans hrest

theorem loadExecutable_gains (h : m.Aligned) (hs : s < m.spaces.size) (handle : Handle) :
    Run.Ends False (loadExecutable s handle) m fun _ after =>
      m.memory.Gains s handle.file (m.files.length handle.file) after.memory := by
  simp only [loadExecutable, Run.ends_bind, Run.ends_get, Run.ends_run, Run.ends_pure]
  exact loadImage_gains h hs _

/-- Whatever a file holds, and on whatever machine whose tables have aligned pages, loading it is answered.
No check of the checked loader fails. Each page that is new is one that may be added. -/
theorem every_executable_answers (h : m.Aligned) (hs : s < m.spaces.size) (handle : Handle) :
    (∀ s file fileLength headers,
      (Checked.addSegments s file fileLength headers : ExceptT LoadError (Run π) Unit) =
        addSegments s file fileLength headers) ∧
    ∃ rest answer after, loadExecutable s handle m = .ok (rest, answer) after ∧ after.Aligned ∧
      ∀ t a (page : Page), (after.space t).pages[a]? = some page → (m.space t).pages[a]? = none →
        t = s ∧ page.va = a ∧ page.Loadable handle.file (m.files.length handle.file) := by
  refine ⟨Checked.addSegments_eq, ?_⟩
  have hends := loadExecutable_gains h hs handle
  obtain ⟨⟨rest, answer⟩, after, hload⟩ := hends.answers id
  have hgains := hends.of_ok hload
  refine ⟨rest, answer, after, hload, h.of_gains hgains, fun t a page hpage hnone => ?_⟩
  rcases hgains t a page hpage with ⟨q, hq, -⟩ | hadded
  · cases hnone.symm.trans hq
  · exact hadded

/-- A small executable is loaded into the table of a new process. Its page is read from the file. -/
theorem every_executable_answers_small : ∃ m : Machine Fifo,
    Reached (.start 2 { name := "swap", kind := .swap, size := 0, disk := .zeroed 0 } {}
      { nodes := #[{ contents := smallExecutable }] }) m ∧ m.Aligned ∧ 0 < m.spaces.size ∧
    ∃ rest program after, loadExecutable 0 { file := 0 } m = .ok (rest, .ok program) after ∧
      ∃ page, (after.space 0).pages[4096]? = some page ∧ page.source.file = some 0 ∧
        page.Loadable 0 (m.files.length 0) := by
  let loaded (m : Machine Fifo) : Bool := match loadExecutable 0 { file := 0 } m with
    | .ok (_, .ok _) after => decide (((after.space 0).pages[4096]?).bind (·.source.file) = some 0)
    | _ => false
  obtain ⟨calls, m, hruns, hcheck⟩ := Runs.of_afterAll (m := .start 2
      { name := "swap", kind := .swap, size := 0, disk := .zeroed 0 } {}
      { nodes := #[{ contents := smallExecutable }] }) Operation.Allowed [.createProcess 1]
    (fun m => decide (0 < m.spaces.size ∧ (m.space 0).pages[4096]? = none) && loaded m) (by decide +kernel)
  obtain ⟨hstart, hloaded⟩ := Bool.and_eq_true_iff.mp hcheck
  obtain ⟨hs, hnone⟩ := of_decide_eq_true hstart
  have hreached := Reached.of_runs hruns
  have haligned := hreached.aligned (Machine.valid_start ..)
  obtain ⟨-, rest, answer, after, hload, -, hadded⟩ := every_executable_answers haligned hs { file := 0 }
  simp only [loaded, hload] at hloaded
  cases answer with
  | error e => cases hloaded
  | ok program =>
    obtain ⟨page, hpage, hfile⟩ := Option.bind_eq_some_iff.mp (of_decide_eq_true hloaded)
    obtain ⟨-, -, hloadable⟩ := hadded 0 4096 page hpage hnone
    exact ⟨m, hreached, haligned, hs, rest, program, after, hload, page, hpage, hfile, hloadable⟩

end DemandPaging
