import DemandPaging.Proofs.Contents
import DemandPaging.Proofs.FaultOutcomes
import DemandPaging.Proofs.Leaks

/-! # Stack growth

A fault changes which pages there are only where it adds a page at the foot of the stack, zero-filled
and mapped. If it fails where there was no page, nothing is left for the address. So faults add pages to
the top of user memory alone, whatever stack pointers come with them.
-/
namespace DemandPaging
open Memory (Change)

namespace Memory
variable {π : Type} {u v w : Memory π} {s va : Nat}

/-- What stays with each page as long as it lives, and where there is none. -/
def outlines (v : Memory π) (t a : Nat) : Option (Nat × Nat × Bool × Source × Bool) :=
  (v.pages t a).map Page.outline

/-- Every frame in use was in use before, with all that belongs to it. -/
def TakesNone (v w : Memory π) : Prop := ∀ n, (w.frames n).allocated = true → w.frames n = v.frames n

/-- The pages are the same, and nothing is left where there was no page. -/
structure GrowsNone (v : Memory π) (s va : Nat) (w : Memory π) : Prop where
  outlines : w.outlines = v.outlines
  frames : v.pages s va = none → v.TakesNone w

/-- One page has been added: a writable zero-filled page at `va`, in a frame and mapped. -/
structure Grew (v : Memory π) (s va : Nat) (w : Memory π) : Prop where
  outlines : w.outlines = setAt v.outlines s va (some (Page.blank v.nextSerial va true).outline)
  page : ∃ n, w.pages s va = some { Page.blank v.nextSerial va true with frame := some n } ∧
    (w.frames n).contents = zeroPage
  mapped : w.Mapped s va true

theorem GrowsNone.refl (v : Memory π) : v.GrowsNone s va v := ⟨rfl, fun _ _ _ => rfl⟩

theorem outlines_setAt {p : Option Page} (hp : w.pages = setAt v.pages s va p) :
    w.outlines = setAt v.outlines s va (p.map Page.outline) := by
  funext t a
  simp only [outlines, hp, setAt_apply, apply_ite (Option.map Page.outline)]

variable [ReplacementPolicy π]

theorem Pages.outlines_eq (h : Pages v w) : w.outlines = v.outlines :=
  funext fun t => funext fun a => h.outline_eq t a

theorem frames_discard_of_out {page : Page} (hf : page.frame = none) :
    (v.discard s page).frames = v.frames := by
  simp only [discard, quit, hf, setPage]

/-- The page that was added is seated. -/
theorem Grew.of_seat {x : Memory π} {n : Nat} {swap : SwapSpace}
    (hadd : v.pages = setAt u.pages s va (some (.blank u.nextSerial va true))) (hrests : Rests v w)
    (hx : x = { w.seat s n (.blank u.nextSerial va true) true zeroPage with swap }) : u.Grew s va x := by
  have hpages : x.pages = setAt w.pages s va (some { Page.blank u.nextSerial va true with frame := some n }) := by
    rw [hx]
    exact pages_seat ..
  refine ⟨?_, ⟨n, by rw [hpages, setAt_self], ?_⟩, ?_⟩
  · have hw := (Pages.outlines_eq hrests.evolves).trans (outlines_setAt hadd)
    rw [outlines_setAt hpages, hw, setAt_setAt]
    rfl
  · rw [hx]
    exact (contents_seat ..).trans (if_pos rfl)
  · rw [hx]
    exact mapped_of_seat (p := .blank u.nextSerial va true) rfl rfl

/-- The page that was added is removed again. -/
theorem outlines_of_undone {x : Memory π} {page : Page} (hp : u.pages s va = none)
    (hadd : v.pages = setAt u.pages s va (some page)) (hrests : Rests v w)
    (hx : x.pages = setAt w.pages s va none) : x.outlines = u.outlines := by
  have hw := (Pages.outlines_eq hrests.evolves).trans (outlines_setAt hadd)
  rw [outlines_setAt hx, hw, setAt_setAt]
  exact setAt_eq_self (congrArg (Option.map Page.outline) hp)

/-- A page that could not be claimed is in no frame. -/
theorem Misses.out {page : Page} {asked : Bool} {e : MemoryError} (h : v.Misses s page asked e w)
    (hf : page.frame = none) : ∃ q, w.pages s page.va = some q ∧ q.va = page.va ∧ q.frame = none := by
  cases h with
  | unasked _ hp => exact ⟨_, hp, rfl, hf⟩
  | refused _ hp => exact ⟨_, hp, rfl, hf⟩

end Memory

variable {π : Type} [ReplacementPolicy π] {m : Machine π} {v : Memory π} {s va n : Nat} {page : Page}

/-- A frame that was taken and is given back is not in use. -/
theorem Machine.abandon_takes_none (hn : n < m.frames.size) (hone : (m.memory.frames n).refcount = 1)
    (hframes : ∀ k, k ≠ n → m.memory.frames k = v.frames k) : v.TakesNone (m.abandon n).memory := by
  rw [memory_abandon hn]
  intro k hk
  by_cases hkn : k = n
  · subst hkn
    simp [Memory.put, Memory.setFrame, hone, Frame.allocated] at hk
  · exact (Function.update_of_ne hkn ..).trans (hframes k hkn)

/-- A claim that fails takes no frame. -/
theorem claimPage_takes_none (h : m.memory.Valid) (hp : m.memory.pages s page.va = some page) :
    Attempt.Ends True (claimPage s page) m (fun _ _ => True) fun _ after =>
      m.memory.TakesNone after.memory := by
  simp only [claimPage, Attempt.ends_bind, Attempt.ends_ite, Attempt.ends_pure]
  refine ⟨fun _ => trivial, fun _ => ?_⟩
  refine (((acquire_ends h (some page.serial)).weaken False.elim).and (acquire_clears h _)).imp ?_
    fun _ _ he n _ => congrFun he.2.frames n
  rintro n m₁ ⟨⟨v, hy, hm₁⟩, hclears⟩
  have hn₁ : n < m₁.frames.size := Machine.lt_frames hm₁ hy.lt
  have hone : (m₁.memory.frames n).refcount = 1 := by
    rw [hm₁]
    simp [Memory.occupy, Memory.setFrame]
  have hzero : (m₁.memory.frames n).contents = zeroPage := by
    rw [hm₁]
    simp [Memory.occupy, Memory.setFrame]
  have hslot : ∀ slot, page.backing.slot? = some slot → slot < m₁.swap.capacity := by
    intro slot hslot
    have hcap : m₁.swap.capacity = v.swap.capacity := congrArg (·.swap.capacity) hm₁
    exact hcap ▸ (h.course hy.rests).slot_lt (hy.kept hp rfl).1 slot hslot
  have hback {m₂ : Machine π} {c : PageBytes} {swap : SwapSpace}
      (hm₂ : m₂.memory = { m₁.memory.setFrame n { m₁.memory.frames n with contents := c } with swap })
      {m₃ : Machine π} (hm₃ : m₃.frames = m₂.frames) : m.memory.TakesNone (m₃.abandon n).memory := by
    have hframes : m₃.memory.frames = m₂.memory.frames := congrArg FrameTable.frame hm₃
    rw [hm₂] at hframes
    refine Machine.abandon_takes_none (hm₃ ▸ Machine.lt_frames hm₂ hn₁) ?_ fun k hk => ?_
    · rw [hframes]
      simpa [Memory.setFrame] using hone
    · rw [hframes]
      exact (Function.update_of_ne hk ..).trans (hclears.frames k hk)
  simp only [Attempt.ends_tryCatch, Attempt.ends_bind, Attempt.ends_modify, Attempt.ends_throw,
    Attempt.ends_modifyGet]
  refine ((materialize_ends hn₁ hslot hzero).weaken False.elim).imp ?_ ?_
  · rintro backing m₂ ⟨c, swap, -, hm₂⟩
    exact ⟨fun _ => trivial, fun _ => hback hm₂ rfl⟩
  · rintro e m₂ ⟨-, c, swap, -, hm₂⟩
    exact hback hm₂ rfl

/-- A page that is in no frame is removed, and all frames are as they were. -/
theorem removePage_out (h : m.memory.Valid) (hp : m.memory.pages s page.va = some page)
    (hf : page.frame = none) :
    Run.Ends False (removePage s page.va) m fun _ after =>
      after.memory.pages = setAt m.memory.pages s page.va none ∧ after.memory.frames = m.memory.frames := by
  have hclean : ¬m.memory.Dirty s page.va := by
    rintro ⟨e, he, -⟩
    cases he.symm.trans (h.sound.entry_eq_none hp hf)
  refine (removePage_discards h page.va).imp ?_
  rw [pageDown_eq_self (h.sound.kept hp).2.1]
  rintro _ after (⟨-, hnone, -⟩ | ⟨q, -, hq, -, hpages, hdiscard⟩)
  · cases hp.symm.trans hnone
  · obtain rfl := Option.some.inj (hp.symm.trans hq)
    exact ⟨hpages, by rw [hdiscard hclean, Memory.frames_discard_of_out hf]⟩

/-- The stack grows by a zero-filled page, which is mapped, or not at all. -/
theorem growStack_adds (h : m.memory.Valid) (hs : s < m.spaces.size) (hva : va % pageSize = 0)
    (hp : m.memory.pages s va = none) :
    Attempt.Ends False (growStack s va) m (fun _ after => m.memory.Grew s va after.memory)
      fun _ after => m.memory.GrowsNone s va after.memory := by
  refine ends_growStack hs hva hp fun m₁ ha hp₁ => ?_
  have hvalid := h.evolves (.of_change ha)
  have hm₁ : m₁.memory = m.memory.add s (.blank m.memory.nextSerial va true) := ha.of_insert.1
  have hframes₁ : m₁.memory.frames = m.memory.frames := by rw [hm₁]; rfl
  have hadd : m₁.memory.pages =
      setAt m.memory.pages s va (some (.blank m.memory.nextSerial va true)) := by rw [hm₁]; rfl
  refine ((claimPage_seats hvalid hp₁ rfl).and (claimPage_takes_none hvalid hp₁)).imp ?_ ?_
  · rintro _ after ⟨⟨v, n, backing, c, swap, hrests, -, -, -, -, -, -, hfilled, hafter⟩, -⟩
    cases hfilled
    exact .of_seat hadd hrests hafter
  · rintro e m₂ ⟨⟨-, asked, hmisses, -⟩, htakes⟩
    obtain ⟨q, hq, rfl, hf⟩ : ∃ q, m₂.memory.pages s va = some q ∧ q.va = va ∧ q.frame = none :=
      hmisses.out rfl
    refine (removePage_out (hvalid.course hmisses.rests) hq hf).imp ?_
    rintro _ after ⟨hpages, hframes⟩
    refine ⟨Memory.outlines_of_undone hp hadd hmisses.rests hpages, fun _ n hn => ?_⟩
    rw [hframes] at hn ⊢
    exact (htakes n hn).trans (congrFun hframes₁ n)

/-- A fault adds a page exactly if it is resolved where there was none, and then on the stack. -/
theorem handleFault_adds (h : m.memory.Valid) (hs : s < m.spaces.size) (fault : PageFault) (esp : Nat) :
    Attempt.Ends False (handleFault s fault esp) m
      (fun _ after =>
        m.memory.pages s (pageDown fault.addr) ≠ none ∧ after.memory.outlines = m.memory.outlines ∨
        m.memory.pages s (pageDown fault.addr) = none ∧ isStackAccess fault.addr esp = true ∧
          m.memory.Grew s (pageDown fault.addr) after.memory)
      fun _ after => m.memory.GrowsNone s (pageDown fault.addr) after.memory := by
  have hva := pageDown_mod fault.addr
  -- Where there is a page, no page comes.
  have hkept {page : Page} {x : Attempt π Unit}
      (hp : m.memory.pages s (pageDown fault.addr) = some page)
      (hx : Attempt.Ends False x m (fun _ after => after.memory.outlines = m.memory.outlines)
        fun _ after => after.memory.outlines = m.memory.outlines) :
      Attempt.Ends False x m
        (fun _ after =>
          m.memory.pages s (pageDown fault.addr) ≠ none ∧ after.memory.outlines = m.memory.outlines ∨
          m.memory.pages s (pageDown fault.addr) = none ∧ isStackAccess fault.addr esp = true ∧
            m.memory.Grew s (pageDown fault.addr) after.memory)
        fun _ after => m.memory.GrowsNone s (pageDown fault.addr) after.memory := by
    have hsome : m.memory.pages s (pageDown fault.addr) ≠ none := by simp [hp]
    exact hx.imp (fun _ _ hsame => .inl ⟨hsome, hsame⟩)
      fun _ _ hsame => ⟨hsame, fun hnone => absurd hnone hsome⟩
  refine ends_handleFault (fun _ _ _ => .refl _) fun x hresolved => ?_
  cases hresolved with
  | growth _ hp hstack =>
    exact (growStack_adds h hs hva hp).imp (fun _ _ hgrew => .inr ⟨hp, hstack, hgrew⟩) fun _ _ he => he
  | unprotection _ hp _ _ hw =>
    exact hkept hp ((unprotect_ends h ((h.sound.kept hp).1 ▸ hp) hw).imp
      (fun _ _ hends => Memory.Pages.outlines_eq hends.1.evolves)
      fun _ _ hends => Memory.Pages.outlines_eq hends.2.evolves)
  | claim _ hp =>
    exact hkept hp ((claimPage_ends h ((h.sound.kept hp).1 ▸ hp)).imp
      (fun _ _ hends => Memory.Pages.outlines_eq hends.1.evolves)
      fun _ _ hends => Memory.Pages.outlines_eq hends.2.evolves)

/-! ## Runs of faults -/

/-- A page may be added for a fault at `addr`, with the stack pointer at `esp`: its address is a user's,
within 2^20 bytes of the kernel, and at most two pages below the stack pointer. -/
structure OnStack (addr esp : Nat) : Prop where
  bounded : kernelBase - 2 ^ 20 ≤ pageDown addr
  user : addr < kernelBase
  near : esp ≤ addr + 8192

theorem onStack_of_access {addr esp : Nat} (h : isStackAccess addr esp = true) : OnStack addr esp := by
  simp only [isStackAccess, Bool.and_eq_true, decide_eq_true_eq] at h
  obtain ⟨⟨huser, hsize⟩, hnear⟩ := h
  exact ⟨Nat.sub_le_iff_le_add'.mpr (Nat.sub_le_iff_le_add.mp hsize), huser, Nat.sub_le_iff_le_add.mp hnear⟩

/-- Every page of `v` is still there, and every other one is in the top 256 pages of user memory. -/
def Memory.GrowsOnTop (v w : Memory π) : Prop := ∀ t a, w.outlines t a = v.outlines t a ∨
  v.outlines t a = none ∧ kernelBase - 256 * pageSize ≤ a ∧ a < kernelBase

namespace Memory.GrowsOnTop
variable {u v w : Memory π}

omit [ReplacementPolicy π] in
theorem of_eq (h : w.outlines = v.outlines) : v.GrowsOnTop w := fun t a => .inl (by rw [h])

omit [ReplacementPolicy π] in
theorem of_grew {addr esp : Nat} (h : v.Grew s (pageDown addr) w) (hp : v.pages s (pageDown addr) = none)
    (hstack : OnStack addr esp) : v.GrowsOnTop w := by
  intro t a
  rw [h.outlines, setAt_apply]
  split
  · rename_i hat
    refine .inr ⟨?_, ?_, ?_⟩
    · rw [outlines, hat.1, hat.2, hp, Option.map_none]
    · have hbounded := hstack.bounded
      simp only [pageSize]
      omega
    · rw [hat.2]
      exact Nat.lt_of_le_of_lt (pageDown_le addr) hstack.user
  · exact .inl rfl

omit [ReplacementPolicy π] in
theorem trans (h : u.GrowsOnTop v) (h' : v.GrowsOnTop w) : u.GrowsOnTop w := by
  intro t a
  rcases h' t a with hsame | ⟨hnone, hrange⟩
  · rw [hsame]
    exact h t a
  · rcases h t a with hsame | ⟨hnone', -⟩
    · exact .inr ⟨hsame ▸ hnone, hrange⟩
    · exact .inr ⟨hnone', hrange⟩

end Memory.GrowsOnTop

/-- Memory is in order, with as many spaces as `v`, and has grown at the top only. -/
structure Machine.GrownFrom (v : Memory π) (m : Machine π) : Prop where
  valid : m.memory.Valid
  spaces : m.memory.spaces = v.spaces
  grows : v.GrowsOnTop m.memory

theorem handleFault_grows (hs : s < v.spaces) (fault : PageFault) (esp : Nat) :
    Attempt.Preserves (Machine.GrownFrom v) (handleFault s fault esp : Attempt π Unit) := by
  constructor
  intro m hm
  have hlt : s < m.spaces.size := Nat.lt_of_lt_of_eq hs hm.spaces.symm
  have hinside {cs : List Change} (hcs : ∀ c ∈ cs, c.OfStack s) : ∀ c ∈ cs, c.Inside := by
    intro c hc
    rcases hcs c hc with ⟨serial, va, -, rfl⟩ | ⟨page, rfl⟩ <;> trivial
  refine (((handleFault_ends hm.valid hlt fault esp).and
    ((handleFault_adds hm.valid hlt fault esp).weaken False.elim)).imp ?_ ?_).weaken False.elim
  · rintro _ after ⟨⟨cs, hcs, hcourse, -⟩, hadds⟩
    refine ⟨hm.valid.course hcourse, (hcourse.spaces_eq (hinside hcs.ofStack)).trans hm.spaces, ?_⟩
    refine hm.grows.trans ?_
    rcases hadds with ⟨-, hsame⟩ | ⟨hnone, hstack, hgrew⟩
    · exact .of_eq hsame
    · exact .of_grew hgrew hnone (onStack_of_access hstack)
  · rintro _ after ⟨⟨cs, hcs, hquiet, -⟩, hnone⟩
    exact ⟨hm.valid.course hquiet, (hquiet.spaces_eq (hinside hcs.ofStack)).trans hm.spaces,
      hm.grows.trans (.of_eq hnone.outlines)⟩

theorem survives_growth (hs : s < v.spaces) : Machine.Survives s (Machine.GrownFrom v) where
  fault := handleFault_grows hs
  touch m addr write page n hm hp hf := by
    have hpages : (m.touch s addr write).memory.pages = m.memory.pages :=
      funext fun t => funext fun a => Machine.pages_touch write t a
    refine ⟨Machine.valid_touch hm.valid write hp hf, ?_, hm.grows.trans (.of_eq ?_)⟩
    · exact (Machine.spaces_modifySpace _).trans hm.spaces
    · unfold Memory.outlines
      rw [hpages]
  contents m n c hm := ⟨Machine.valid_setContents hm.valid n c, hm.spaces, hm.grows.trans (.of_eq rfl)⟩

/-- A fault, however it comes about, or the stack pointer being set for those to come. -/
def Operation.MayFault : Operation → Prop
  | setStackPointer .. | pageFault .. | resolveFault .. | readUser .. | writeUser .. | copyFrom ..
  | copyTo .. => True
  | _ => False

omit [ReplacementPolicy π] in
theorem saveStackPointer_grows (esp : Nat) :
    Run.Preserves (Machine.GrownFrom v) (saveStackPointer s esp : Run π Unit) := by
  refine Run.preserves_modify fun m hm => ?_
  obtain ⟨hvalid, hspaces, hgrows⟩ := hm
  refine ⟨?_, ?_, ?_⟩ <;> rwa [Machine.memory_modifyProcess]

omit [ReplacementPolicy π] in
theorem Machine.GrownFrom.congr {m' : Machine π} (h : m.GrownFrom v) (hm : m'.memory = m.memory) :
    m'.GrownFrom v := ⟨hm ▸ h.valid, hm ▸ h.spaces, hm ▸ h.grows⟩

theorem processFault_grows (hs : s < v.spaces) (fault : PageFault) (userEsp : Nat) :
    Attempt.Preserves (Machine.GrownFrom v) (processFault s fault userEsp : Attempt π Unit) := by
  have hfault (m : Machine π) : Attempt.Preserves (Machine.GrownFrom v)
      (tryCatch (handleFault s fault (m.process s).esp) fun e => do
        modify fun m => m.report (.processFault (m.process s).pid fault.addr e)
        throw e : Attempt π Unit) := by
    refine (handleFault_grows hs fault _).tryCatch fun e => ?_
    exact (Attempt.preserves_modify fun m hm => hm.congr rfl).bind fun _ => Attempt.preserves_throw e
  unfold processFault
  split
  · apply (Attempt.preserves_lift (saveStackPointer_grows userEsp)).bind
    exact fun _ => Attempt.preserves_get.bind hfault
  · exact Attempt.preserves_get.bind hfault

theorem Operation.perform_grows {op : Operation} (hop : op.Allowed m) (hfault : op.MayFault)
    (hm : m.GrownFrom v) : Run.Leaves (Machine.GrownFrom v) op.perform m := by
  have hlt {s : Nat} (hs : op.space? = some s) : s < v.spaces := Nat.lt_of_lt_of_eq (hop.1 s hs) hm.spaces
  have hanswer {α : Type} {reply : α → Reply} {x : Attempt π α}
      (hx : Attempt.Preserves (Machine.GrownFrom v) x) :
      Run.Leaves (Machine.GrownFrom v) (answer reply x) m :=
    answer_ends (hx.ends m hm) (fun _ _ hafter => hafter) fun _ _ hafter => hafter
  have hrun {α : Type} {reply : α → Reply} {x : Run π α} (hx : Run.Preserves (Machine.GrownFrom v) x) :
      Run.Leaves (Machine.GrownFrom v) (reply <$> x) m := Run.ends_map.mpr (hx.ends m hm)
  cases op with
  | setStackPointer s esp => exact hrun (saveStackPointer_grows esp)
  | pageFault s fault userEsp => exact hanswer (processFault_grows (hlt rfl) fault userEsp)
  | resolveFault s fault esp => exact hanswer (handleFault_grows (hlt rfl) fault esp)
  | copyFrom s esp addr count => exact hrun ((survives_growth (hlt rfl)).copyFromUser esp addr count)
  | copyTo s esp addr bytes => exact hanswer ((survives_growth (hlt rfl)).copyToUser esp addr bytes)
  | readUser s addr count =>
    exact hrun (Run.preserves_get.bind fun m => (survives_growth (hlt rfl)).copyFromUser _ addr count)
  | writeUser s addr bytes =>
    exact hanswer (Attempt.preserves_get.bind fun m => (survives_growth (hlt rfl)).copyToUser _ addr bytes)
  | createProcess | createTable | insert | load | openFile | closeFile | map | unmap | fork | exit | claim
  | remove | copyTable | kill | evict => exact hfault.elim

namespace Machine

/-- What stays with the page at address `a` of table `t` as long as it lives, if there is one. -/
def outline? (m : Machine π) (t a : Nat) : Option (Nat × Nat × Bool × Source × Bool) :=
  ((m.space t).pages[a]?).map Page.outline

/-- One page has been added: an anonymous one at `va`, which is writable, mapped to a frame, and all zero. -/
structure GrewAt (m : Machine π) (s va : Nat) (after : Machine π) : Prop where
  outlines : after.outline? = setAt m.outline? s va (some (Page.blank m.nextSerial va true).outline)
  page : ∃ n, (after.space s).pages[va]? = some { Page.blank m.nextSerial va true with frame := some n } ∧
    (after.space s).directory.frame? va = some n ∧ (after.space s).directory.isWritable va = true ∧
    after.contents n = zeroPage

/-- Nothing is there for an address: no page, no mapping, and no frame that a page of it owns. -/
structure Bare (m : Machine π) (s addr : Nat) : Prop where
  page : m.page? s addr = none
  mapping : (m.space s).directory.entry? addr = none
  frames : ∀ n, ∀ o ∈ (m.frames.frame n).owners, ¬(o.space = s ∧ o.va = pageDown addr)

omit [ReplacementPolicy π] in
theorem grewAt_of_grew {after : Machine π} {addr : Nat} (h : after.memory.Sound)
    (hgrew : m.memory.Grew s (pageDown addr) after.memory) : m.GrewAt s (pageDown addr) after := by
  obtain ⟨houtlines, ⟨n, hp, hzero⟩, hmapped⟩ := hgrew
  refine ⟨houtlines, n, hp, ?_⟩
  have hmapped : after.memory.Mapped s (pageDown (pageDown addr)) true := by rwa [pageDown_pageDown]
  obtain ⟨q, k, hq, hk, hframe, hwritable⟩ := permits_of_mapped h hmapped
  rw [page?_eq, pageDown_pageDown, hp] at hq
  obtain rfl := Option.some.inj hq
  obtain rfl := Option.some.inj hk
  exact ⟨hframe, hwritable rfl, hzero⟩

omit [ReplacementPolicy π] in
theorem bare_of_absent {addr : Nat} (h : m.memory.Sound) (hp : m.page? s addr = none) : m.Bare s addr where
  page := hp
  mapping := (entry?_eq ..).trans (h.unmapped hp)
  frames n o ho := by
    rintro ⟨rfl, hva⟩
    obtain ⟨q, hq, -⟩ := h.owner ho
    rw [hva] at hq
    cases hq.symm.trans hp

end Machine

variable {count : Nat} {device : Device} {policy : π} {files : FileStore} {ops : List Operation}
  {outside : Nat → Nat}

/-- A fault that is resolved where there was no page adds the one page of its address, on the stack and
near the stack pointer; every other fault leaves the pages of all tables as they are. One that fails
where there was no page leaves nothing there, and no frame in use that was not. So whatever faults follow
each other, the pages that come are among the top 256 of user memory. -/
theorem stack_growth_bounded
    (h : HandleRuns (Machine.start count device policy files) ops outside m) :
    (∀ s < m.spaces.size, ∀ fault esp, ∃ answer after, handleFault s fault esp m = .ok answer after ∧
      (answer = .ok ⟨⟩ ∧ m.page? s fault.addr = none →
        m.GrewAt s (pageDown fault.addr) after ∧ OnStack fault.addr esp) ∧
      (¬(answer = .ok ⟨⟩ ∧ m.page? s fault.addr = none) → after.outline? = m.outline?) ∧
      ∀ e, answer = .error e → m.page? s fault.addr = none → after.Bare s fault.addr ∧
        ∀ n, (after.frames.frame n).allocated = true → after.frames.frame n = m.frames.frame n) ∧
    ∀ calls later, Runs (fun m op => op.Allowed m ∧ op.MayFault) m calls later →
      ∀ t a, later.outline? t a = m.outline? t a ∨
        m.outline? t a = none ∧ kernelBase - 256 * pageSize ≤ a ∧ a < kernelBase := by
  obtain ⟨ps, hps⟩ := h.balanced
  have hvalid := hps.valid
  refine ⟨fun s hs fault esp => ?_, fun calls later hrun => ?_⟩
  · have hends := (handleFault_ends hvalid hs fault esp).and
      ((handleFault_adds hvalid hs fault esp).weaken False.elim)
    unfold Attempt.Ends at hends
    split at hends
    · rename_i after hok
      obtain ⟨⟨cs, -, hcourse, -⟩, hadds⟩ := hends
      have hsound := (hvalid.course hcourse).sound
      refine ⟨_, after, hok, fun ⟨_, hnone⟩ => ?_, fun hnot => ?_, by simp⟩
      · rcases hadds with ⟨hsome, -⟩ | ⟨-, hstack, hgrew⟩
        · exact absurd hnone hsome
        · exact ⟨Machine.grewAt_of_grew hsound hgrew, onStack_of_access hstack⟩
      · rcases hadds with ⟨-, hsame⟩ | ⟨hnone, -⟩
        · exact hsame
        · exact absurd ⟨rfl, hnone⟩ hnot
    · rename_i e after herror
      obtain ⟨⟨cs, -, hquiet, -⟩, hnone⟩ := hends
      refine ⟨_, after, herror, by simp, fun _ => hnone.outlines, fun e' _ hp => ⟨?_, hnone.frames hp⟩⟩
      refine Machine.bare_of_absent (hvalid.course hquiet).sound ?_
      have hsame : after.memory.outlines s (pageDown fault.addr) = none := by
        rw [hnone.outlines]
        exact Option.map_eq_none_iff.mpr hp
      exact Option.map_eq_none_iff.mp hsame
    · exact hends.elim
  · have hgrown : later.GrownFrom m.memory := by
      refine hrun.keeps (I := Machine.GrownFrom m.memory) ⟨hvalid, rfl, .of_eq rfl⟩ ?_
      exact fun hm hop hp => (Operation.perform_grows hop.1 hop.2 hm).of_ok hp
    exact hgrown.grows

/-- The only frame is in use. A write just below the stack pointer evicts the page in it, and the stack
has one page more. -/
theorem stack_growth_after_eviction : ∃ ops outside, ∃ m after : Machine Fifo, ∃ fault calls,
    HandleRuns (.start 1 { name := "swap", kind := .swap, size := 8, disk := .zeroed 8 } {} {}) ops outside
      m ∧
    0 < m.spaces.size ∧ m.frames.resident = 1 ∧ m.page? 0 fault.addr = none ∧
    handleFault 0 fault kernelBase m = .ok (.ok ⟨⟩) after ∧
    m.GrewAt 0 (kernelBase - 4096) after ∧ OnStack fault.addr kernelBase ∧
    Runs (fun m op => op.Allowed m ∧ op.MayFault) m calls after ∧
    kernelBase - 256 * pageSize ≤ kernelBase - 4096 := by
  let first : Machine Fifo := .start 1 { name := "swap", kind := .swap, size := 8, disk := .zeroed 8 } {} {}
  let fault : PageFault := { addr := kernelBase - 4, user := true, write := true, notPresent := true }
  have hstart : HandleRuns first [] first.files.handles first := .start
  let ops : List Operation := [.createProcess 1, .insert 0 4096 true (.anonymous .zeroed none),
    .writeUser 0 4096 [7]]
  obtain ⟨outside, m, hrun, hcheck⟩ := hstart.of_handled ops
    (fun _ m => decide (m.spaces.size = 1 ∧ m.frames.resident = 1 ∧ m.page? 0 fault.addr = none) &&
      match handleFault 0 fault kernelBase m with
      | .ok (.ok _) _ => true
      | _ => false) (by decide +kernel)
  obtain ⟨hbefore, hresolved⟩ := Bool.and_eq_true_iff.mp hcheck
  obtain ⟨hsize, hresident, hnone⟩ := of_decide_eq_true hbefore
  have hs : 0 < m.spaces.size := by omega
  obtain ⟨hfault, hruns⟩ := stack_growth_bounded hrun
  obtain ⟨answer, after, hanswer, hgrew, -⟩ := hfault 0 hs fault kernelBase
  rw [hanswer] at hresolved
  cases answer with
  | error e => cases hresolved
  | ok _ =>
    obtain ⟨hgrew, hstack⟩ := hgrew ⟨rfl, hnone⟩
    have hdown : pageDown fault.addr = kernelBase - 4096 := by decide
    rw [hdown] at hgrew
    have hp : (Operation.resolveFault 0 fault kernelBase).perform m = .ok .done after := by
      simp only [Operation.perform, answer, bind, EStateM.bind, ExceptT.run, hanswer]
      rfl
    have hop : (Operation.resolveFault 0 fault kernelBase).Allowed m :=
      ⟨fun t ht => Option.some.inj ht ▸ hs, trivial⟩
    have hrefl : Runs (fun m op => op.Allowed m ∧ op.MayFault) m [] m := .refl m
    have hfaults := hrefl.step ⟨hop, trivial⟩ hp
    obtain hsame | ⟨-, hbound, -⟩ := hruns _ after hfaults 0 (kernelBase - 4096)
    · rw [hgrew.outlines, setAt_self, ← hdown] at hsame
      rw [show m.outline? 0 (pageDown fault.addr) = none from Option.map_eq_none_iff.mpr hnone] at hsame
      cases hsame
    · exact ⟨ops, outside, m, after, fault, _, hrun, hs, hresident, hnone, hanswer, hgrew, hstack, hfaults,
        hbound⟩

end DemandPaging
