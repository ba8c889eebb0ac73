import DemandPaging.Proofs.Removal

/-! # Resolving page faults

A fault is resolved by paging, or by one new page at the foot of the stack. A stack page that cannot
be claimed is gone again. An address that has a page is never reported as invalid.
-/
namespace DemandPaging
open Memory (Change)

/-- A zero-filled page that nobody has claimed yet. -/
def Page.blank (serial va : Nat) (writable : Bool) : Page :=
  { serial, va, writable, backing := .anonymous .zeroed none }

/-- A stack may have a page at `va`: no stack is longer than from there to the top. -/
structure StackPage (va : Nat) : Prop where
  user : va < kernelBase
  near : stackTop - va ≤ maxStackSize

/-- At most the stack page at `va` is added. -/
inductive Grown (s va : Nat) : List Change → Prop
  | same : Grown s va []
  | added (serial : Nat) (hva : StackPage va) : Grown s va [.insert s (.blank serial va true)]

/-- At most the stack page at `va` is added, and removed again. -/
inductive Undone (s va : Nat) : List Change → Prop
  | same : Undone s va []
  | removed (serial : Nat) (page : Page) (hva : StackPage va) (h : page.va = va) :
    Undone s va [.insert s (.blank serial va true), .remove s page]

/-- A page of the stack comes, or a page goes. -/
def Memory.Change.OfStack (s : Nat) (c : Change) : Prop :=
  (∃ serial va, StackPage va ∧ c = .insert s (.blank serial va true)) ∨ ∃ page, c = .remove s page

theorem Grown.inside {s va : Nat} {cs : List Change} (h : Grown s va cs) : ∀ c ∈ cs, c.Inside := by
  cases h <;> simp [Change.Inside]

section Files

variable (files : FileStore) (source : Source) (f : Nat)

theorem FileStore.contents_retain (file : Nat) :
    ((files.retain file).node f).contents = (files.node f).contents := by
  simp only [retain, modify, node, Array.getD_eq_getD_getElem?, Array.getElem?_modify]
  split
  · cases files.nodes[f]? <;> rfl
  · rfl

theorem FileStore.contents_release (file : Nat) :
    ((files.release file).node f).contents = (files.node f).contents := by
  simp only [release, modify, node, Array.getD_eq_getD_getElem?, Array.getElem?_modify]
  split
  · cases files.nodes[f]? <;> rfl
  · rfl

theorem FileStore.contents_retainSource :
    ((files.retainSource source).node f).contents = (files.node f).contents := by
  unfold retainSource
  split
  · exact contents_retain ..
  · rfl

theorem FileStore.contents_releaseSource :
    ((files.releaseSource source).node f).contents = (files.node f).contents := by
  unfold releaseSource
  split
  · exact contents_release ..
  · rfl

end Files

variable {π : Type} [ReplacementPolicy π] {m : Machine π} {v : Memory π} {s va : Nat} {page : Page}

/-- A page is added that brings along a handle of its file, or else the handle goes back. -/
theorem insertPage_ends {writable : Bool} {backing : Backing} (hfresh : backing.Fresh)
    (hs : s < m.spaces.size) (hva : va % pageSize = 0)
    (hm : m.memory = { v with files := v.files.retainSource backing.source }) :
    Run.Ends False (insertPage s va writable backing) m fun answer after =>
      (answer = false ∧ v.pages s va ≠ none ∧ Memory.Rests v after.memory) ∨
      (answer = true ∧
        v.Alters (.insert s { serial := v.nextSerial, va, writable, backing }) after.memory) := by
  simp only [insertPage, Run.ends_bind, Run.ends_get, Run.ends_ite, Run.ends_set, Run.ends_pure]
  have hpages : m.memory.pages = v.pages := by rw [hm]
  constructor
  · intro hin
    refine .inl ⟨trivial, ?_, ?_⟩
    · rw [← hpages]
      simpa [Machine.memory, ← Std.ExtTreeMap.contains_eq_isSome_getElem?, ← Option.isSome_iff_ne_none]
        using hin
    · rw [Machine.memory_releaseSource, hm]
      exact .of_step (.handles fun f => by
        rw [FileStore.contents_releaseSource, FileStore.contents_retainSource])
        (.of_pages rfl fun f => by
          rw [FileStore.transferLimits_releaseSource, FileStore.transferLimits_retainSource])
  · intro hnot
    have hnone : v.pages s va = none := by
      rw [← hpages]
      simpa [Machine.memory, ← Std.ExtTreeMap.contains_eq_isSome_getElem?] using hnot
    refine .inr ⟨trivial, ?_⟩
    have hserial : m.nextSerial = v.nextSerial := congrArg Memory.nextSerial hm
    rw [hserial]
    have hput := Machine.memory_putPage hs { serial := v.nextSerial, va, writable, backing }
    rw [hm] at hput
    have hadd : ({ m.putPage s { serial := v.nextSerial, va, writable, backing } with
        nextSerial := v.nextSerial + 1 } : Machine π).memory =
        v.add s { serial := v.nextSerial, va, writable, backing } :=
      congrArg (fun u : Memory π => { u with nextSerial := v.nextSerial + 1 }) hput
    rw [hadd]
    have hlt : s < v.spaces := Nat.lt_of_lt_of_eq hs (congrArg Memory.spaces hm)
    exact .insert hlt hva hnone rfl rfl hfresh

/-- A zero-filled page is added where there is none. -/
theorem insertAnonymous_ends {writable : Bool} (hs : s < m.spaces.size) (hva : va % pageSize = 0) :
    Run.Ends False (insertAnonymous s va writable) m fun answer after =>
      (answer = false ∧ m.memory.pages s va ≠ none ∧ Memory.Rests m.memory after.memory) ∨
      (answer = true ∧
        m.memory.Alters (.insert s (.blank m.memory.nextSerial va writable)) after.memory) :=
  insertPage_ends .zeroed hs hva rfl

theorem claim_ends (h : m.memory.Valid) (va : Nat) :
    Attempt.Ends False (claim s va) m
      (fun _ after => ∃ page, m.memory.pages s (pageDown va) = some page ∧
        Memory.Rests m.memory after.memory ∧
        after.memory.Mapped s (pageDown va) (page.writable && page.frame.isNone))
      fun e after => Memory.Rests m.memory after.memory ∧
        (e = .invalidMapping → m.memory.pages s (pageDown va) = none) := by
  simp only [claim, Attempt.ends_bind, Attempt.ends_get]
  cases hp : m.page? s va with
  | none =>
    rw [Machine.page?_eq] at hp
    exact ⟨.refl _, fun _ => hp⟩
  | some page =>
    rw [Machine.page?_eq] at hp
    have hva := (h.sound.kept hp).1
    refine (claimPage_ends h (hva ▸ hp)).imp ?_ ?_
    · rintro _ after ⟨hpages, hmapped⟩
      exact ⟨page, hp, hpages, hva ▸ hmapped⟩
    · rintro e after ⟨he, hpages⟩
      exact ⟨hpages, fun heq => absurd heq he⟩

section Rules
variable {stop : Prop} {Q : PUnit → Machine π → Prop} {E : MemoryError → Machine π → Prop}

/-- Where there is no page the stack grows by one that is claimed, and removed again if it cannot be. -/
theorem ends_growStack (hs : s < m.spaces.size) (hva : va % pageSize = 0)
    (hp : m.memory.pages s va = none)
    (hclaim : ∀ m₁ : Machine π,
      m.memory.Alters (.insert s (.blank m.memory.nextSerial va true)) m₁.memory →
      m₁.memory.pages s va = some (.blank m.memory.nextSerial va true) →
      Attempt.Ends stop (claimPage s (.blank m.memory.nextSerial va true)) m₁ Q fun e m₂ =>
        Run.Ends stop (removePage s va) m₂ fun _ after => E e after) :
    Attempt.Ends stop (growStack s va) m Q E := by
  simp only [growStack, Attempt.ends_bind, Attempt.ends_modify, Attempt.ends_discard, Attempt.ends_lift,
    Attempt.ends_tryCatch, Attempt.ends_throw]
  refine ((insertAnonymous_ends (m := m.report _) hs hva).weaken False.elim).imp ?_
  rintro answer m₁ (⟨-, hne, -⟩ | ⟨-, ha⟩)
  · exact absurd hp hne
  have hp₁ : m₁.memory.pages s va = some (.blank m.memory.nextSerial va true) := by
    rw [ha.of_insert.1]
    exact setAt_self
  have hpage : m₁.page? s va = some (.blank m.memory.nextSerial va true) := by
    rw [Machine.page?_eq, pageDown_eq_self hva, hp₁]
  simp only [claim, Attempt.ends_bind, Attempt.ends_get, hpage]
  exact hclaim m₁ ha hp₁

/-- A fault that is an error by itself, and what is reported. -/
inductive PageFault.RefusedAs (fault : PageFault) (m : Machine π) (s esp : Nat) :
    MemoryError → Event → Prop
  | kernel (haddr : kernelBase ≤ fault.addr) :
    RefusedAs fault m s esp .protectionViolation (.kernelFault fault.addr)
  | stray (haddr : fault.addr < kernelBase) (hp : m.memory.pages s (pageDown fault.addr) = none)
    (hstack : isStackAccess fault.addr esp = false) :
    RefusedAs fault m s esp .invalidMapping (.unmappedFault fault.addr esp)
  | readOnly {page : Page} (haddr : fault.addr < kernelBase)
    (hp : m.memory.pages s (pageDown fault.addr) = some page) (hwrite : fault.write = true)
    (hreadOnly : page.writable = false) :
    RefusedAs fault m s esp .protectionViolation (.readOnlyWrite (pageDown fault.addr))

/-- What is done about any other fault. -/
inductive PageFault.ResolvedBy (fault : PageFault) (m : Machine π) (s esp : Nat) :
    Attempt π Unit → Prop
  | growth (haddr : fault.addr < kernelBase) (hp : m.memory.pages s (pageDown fault.addr) = none)
    (hstack : isStackAccess fault.addr esp = true) :
    ResolvedBy fault m s esp (growStack s (pageDown fault.addr))
  | unprotection {page : Page} (haddr : fault.addr < kernelBase)
    (hp : m.memory.pages s (pageDown fault.addr) = some page) (hwrite : fault.write = true)
    (hpresent : fault.notPresent = false) (hw : page.writable = true) :
    ResolvedBy fault m s esp (unprotect s page)
  | claim {page : Page} (haddr : fault.addr < kernelBase)
    (hp : m.memory.pages s (pageDown fault.addr) = some page)
    (hwrite : fault.write = true → page.writable = true ∧ fault.notPresent = true) :
    ResolvedBy fault m s esp (claimPage s page)

/-- A fault ends with its error, or as what is done about it does. -/
theorem ends_handleFault {fault : PageFault} {esp : Nat}
    (hrefused : ∀ e report, fault.RefusedAs m s esp e report → E e (m.report report))
    (hresolved : ∀ x, fault.ResolvedBy m s esp x → Attempt.Ends stop x m Q E) :
    Attempt.Ends stop (handleFault s fault esp) m Q E := by
  have hrefuse {e : MemoryError} {report : Event} (h : fault.RefusedAs m s esp e report) :
      Attempt.Ends stop (do modify (·.report report); throw e) m Q E := by
    simp only [Attempt.ends_bind, Attempt.ends_modify, Attempt.ends_throw]
    exact hrefused e report h
  have hpage : m.page? s (pageDown fault.addr) = m.memory.pages s (pageDown fault.addr) := by
    rw [Machine.page?_eq, pageDown_pageDown]
  rw [handleFault, Attempt.ends_ite]
  refine ⟨fun huser => ?_, fun hnot => hrefuse (.kernel ?_)⟩
  swap
  · exact Nat.le_of_not_lt fun hlt => hnot (decide_eq_true hlt)
  have haddr : fault.addr < kernelBase := of_decide_eq_true huser
  simp only [Attempt.ends_bind, Attempt.ends_get]
  cases hp : m.page? s (pageDown fault.addr) with
  | none =>
    have hp := hpage.symm.trans hp
    rw [Attempt.ends_ite, Bool.not_eq_true]
    exact ⟨fun hstack => hresolved _ (.growth haddr hp hstack), fun hno => hrefuse (.stray haddr hp hno)⟩
  | some page =>
    have hp := hpage.symm.trans hp
    rw [Attempt.ends_ite, Attempt.ends_ite]
    refine ⟨fun hno => ?_, fun hyes => ⟨fun hprotected => ?_, fun hout => ?_⟩⟩
    · obtain ⟨hwrite, hreadOnly⟩ : fault.write = true ∧ page.writable = false := by simpa using hno
      exact hrefuse (.readOnly haddr hp hwrite hreadOnly)
    · obtain ⟨hwrite, hpresent⟩ : fault.write = true ∧ fault.notPresent = false := by simpa using hprotected
      exact hresolved _ (.unprotection haddr hp hwrite hpresent (by simpa [hwrite] using hyes))
    · exact hresolved _ (.claim haddr hp fun hwrite => by simpa [hwrite] using And.intro hyes hout)

/-- A write that found its page mapped, and is allowed to it, goes on to unprotect the page. -/
theorem ends_handleFault_of_present {fault : PageFault} {esp : Nat}
    (hp : m.memory.pages s (pageDown fault.addr) = some page) (hw : page.writable = true)
    (hwrite : fault.write = true) (hpresent : fault.notPresent = false)
    (hkernel : ∀ report, kernelBase ≤ fault.addr → E .protectionViolation (m.report report))
    (hx : Attempt.Ends stop (unprotect s page) m Q E) :
    Attempt.Ends stop (handleFault s fault esp) m Q E := by
  refine ends_handleFault (fun e report hrefused => ?_) fun x hresolved => ?_
  · cases hrefused with
    | kernel haddr => exact hkernel _ haddr
    | stray _ hnone => cases hp.symm.trans hnone
    | readOnly _ hq _ hreadOnly =>
      obtain rfl := Option.some.inj (hp.symm.trans hq)
      cases hw.symm.trans hreadOnly
  · cases hresolved with
    | growth _ hnone => cases hp.symm.trans hnone
    | unprotection _ hq =>
      obtain rfl := Option.some.inj (hp.symm.trans hq)
      exact hx
    | claim _ _ hallowed => cases hpresent.symm.trans (hallowed hwrite).2

end Rules

theorem stackPage_of_access {addr esp : Nat} (h : isStackAccess addr esp = true) :
    StackPage (pageDown addr) := by
  simp only [isStackAccess, Bool.and_eq_true, decide_eq_true_eq] at h
  obtain ⟨⟨huser, hnear⟩, -⟩ := h
  exact ⟨Nat.lt_of_le_of_lt (pageDown_le addr) huser, hnear⟩

/-- The stack grows by one page, or not at all. -/
theorem growStack_ends (h : m.memory.Valid) (hs : s < m.spaces.size) (hva : va % pageSize = 0)
    (hstack : StackPage va) (hp : m.memory.pages s va = none) :
    Attempt.Ends False (growStack s va) m
      (fun _ after => ∃ serial,
        Memory.Quiet [.insert s (.blank serial va true)] m.memory after.memory ∧
          after.memory.Mapped s va true)
      fun _ after => ∃ cs, Undone s va cs ∧ Memory.Quiet cs m.memory after.memory := by
  refine ends_growStack hs hva hp fun m₁ ha hp₁ => ?_
  have hinsert : Memory.Quiet _ m.memory m₁.memory := .of_change ha trivial
  have hvalid := h.course hinsert
  refine (claimPage_ends hvalid hp₁).imp ?_ ?_
  · rintro _ after ⟨hpages, hmapped⟩
    exact ⟨_, hinsert.rests hpages, hmapped⟩
  · rintro e m₂ ⟨-, hpages⟩
    have hvalid₂ := hvalid.course hpages
    refine (removePage_ends hvalid₂ va).imp ?_
    rw [pageDown_eq_self hva]
    rintro _ after (⟨-, hnone, hsame⟩ | ⟨page, -, hpage, hremove, -⟩)
    · obtain ⟨q, hq, -⟩ := Memory.Pages.exists_page hpages.evolves hp₁
      rw [hnone] at hq
      cases hq
    · exact ⟨_, .removed _ page hstack (hvalid₂.sound.kept hpage).1, (hinsert.rests hpages).trans hremove⟩

/-- The pages that resolving a fault may move from one frame to another: the one that is written to, if
it shares its frame. -/
def PageFault.Moves {π : Type} (fault : PageFault) (v : Memory π) (s t a : Nat) : Prop :=
  fault.write = true ∧ fault.notPresent = false ∧ t = s ∧ a = pageDown fault.addr ∧ v.Shared t a

/-- A fault that is resolved leaves the page mapped as the access needs it, if the fault says truly
whether a mapping was present. One that is not leaves memory to the process as it was. -/
theorem handleFault_ends (h : m.memory.Valid) (hs : s < m.spaces.size) (fault : PageFault) (esp : Nat) :
    Attempt.Ends False (handleFault s fault esp) m
      (fun _ after => ∃ cs, Grown s (pageDown fault.addr) cs ∧
        Memory.Course (fault.Moves m.memory s) cs m.memory after.memory ∧
        (after.memory.pages s (pageDown fault.addr)).isSome ∧
        ((fault.write = true →
          fault.notPresent = (m.memory.entries s (pageDown fault.addr)).isNone) →
          after.memory.Mapped s (pageDown fault.addr) fault.write))
      fun e after => ∃ cs, Undone s (pageDown fault.addr) cs ∧
        Memory.Quiet cs m.memory after.memory ∧
        (e = .invalidMapping → m.memory.pages s (pageDown fault.addr) = none) := by
  have hva := pageDown_mod fault.addr
  refine ends_handleFault (fun e report hrefused => ?_) fun x hresolved => ?_
  · refine ⟨[], .same, .refl _, fun he => ?_⟩
    cases hrefused with
    | stray _ hp => exact hp
    | kernel | readOnly => cases he
  cases hresolved with
  | growth _ hp hstack =>
    have hpage := stackPage_of_access hstack
    refine (growStack_ends h hs hva hpage hp).imp ?_ ?_
    · rintro _ after ⟨serial, hevolves, q, n, e, hq, hn, he, hw⟩
      exact ⟨_, .added serial hpage, .of_quiet hevolves, Option.isSome_iff_exists.mpr ⟨q, hq⟩,
        fun _ => ⟨q, n, e, hq, hn, he, fun _ => hw rfl⟩⟩
    · rintro e after ⟨cs, hcs, hevolves⟩
      exact ⟨cs, hcs, hevolves, fun _ => hp⟩
  | @unprotection page _ hp hwrite hpresent hw =>
    have hva' := (h.sound.kept hp).1
    refine (unprotect_ends h (hva' ▸ hp) hw).imp ?_ ?_
    · rintro _ after ⟨hpages, q, n, e, hq, hn, he, hw⟩
      rw [hva'] at hq he
      refine ⟨[], .same, hpages.mono ?_, Option.isSome_iff_exists.mpr ⟨q, hq⟩,
        fun _ => ⟨q, n, e, hq, hn, he, fun _ => hw rfl⟩⟩
      rintro t a ⟨rfl, rfl, hshared⟩
      exact ⟨hwrite, hpresent, rfl, hva', hshared⟩
    · rintro e after ⟨he, hpages⟩
      exact ⟨[], .same, hpages, fun heq => absurd heq he⟩
  | @claim page _ hp hallowed =>
    have hva' := (h.sound.kept hp).1
    refine (claimPage_ends h (hva' ▸ hp)).imp ?_ ?_
    · rintro _ after ⟨hpages, q, n, e, hq, hn, he, hw⟩
      rw [hva'] at hq he
      refine ⟨[], .same, .of_quiet hpages, Option.isSome_iff_exists.mpr ⟨q, hq⟩,
        fun htrue => ⟨q, n, e, hq, hn, he, fun hwrite => hw ?_⟩⟩
      -- A write that found no mapping found the page out of memory.
      obtain ⟨hpw, hnot⟩ := hallowed hwrite
      have hframe : page.frame = none := by
        cases hf : page.frame with
        | none => rfl
        | some k =>
          have hsome := h.sound.resident hp hf
          have := (htrue hwrite).symm.trans hnot
          rw [Option.isNone_iff_eq_none] at this
          rw [this] at hsome
          cases hsome
      rw [hpw, hframe]
      rfl
    · rintro e after ⟨he, hpages⟩
      exact ⟨[], .same, hpages, fun heq => absurd heq he⟩

end DemandPaging
