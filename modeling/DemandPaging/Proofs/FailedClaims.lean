import DemandPaging.Proofs.Contents
import DemandPaging.Proofs.Leaks

/-! # Claims that fail

A claim can fail because no frame is free or can be made free, because the page cannot be read, or
because its space refuses the mapping. Before a mapping is asked for nothing is lost: the page waits as it
did, and comes in with the same bytes at any later time. A page whose mapping is refused has come in
already, and what it came in with is gone with its frame.
-/
namespace DemandPaging
open Memory (Change Evolves Step Alters)

namespace Memory
variable {π : Type}

/-- The page of space `s` that waits in `v` waits in `w` too, with the same bytes in its slot. -/
structure Keeps (s : Nat) (page : Page) (v w : Memory π) : Prop where
  record : w.pages s page.va = some page
  held : ∀ k, page.backing.slot? = some k → w.swap.held k = v.swap.held k

/-- What becomes of a page that has waited since `v`: it comes in with the bytes that were kept for it,
its mapping is refused, or it goes. -/
inductive Meets (s : Nat) (page : Page) (v x : Memory π) : Memory π → Prop
  | claimed {y : Memory π} {n : Nat}
    (hp : y.pages s page.va = some { page with backing := page.backing.filled, frame := some n })
    (hbytes : (y.frames n).contents = page.backing.supply y.files v.swap.held) : Meets s page v x y
  | refused {y : Memory π}
    (hp : y.pages s page.va = some { page with backing := page.backing.filled })
    (hr : ¬(x.willing s ∧ page.va < kernelBase ∧ x.size ≤ PageTableEntry.frameLimit)) : Meets s page v x y
  | removed {y : Memory π} (hp : y.pages s page.va = none) : Meets s page v x y

/-- How memory goes on: by paging, by changes, and by whatever becomes of files and of the disk, apart
from the slots in use. -/
inductive Goes [ReplacementPolicy π] (u : Memory π) : Memory π → Prop
  | refl : Goes u u
  | step {v w : Memory π} (h : Goes u v) (hs : Step v w) : Goes u w
  | change {v w : Memory π} {c : Change} (h : Goes u v) (ha : Alters v c w) : Goes u w
  | elsewhere {v : Memory π} (h : Goes u v) (device : Device) (files : FileStore)
    (hsize : device.size = v.swap.device.size)
    (hheld : ∀ k, v.swap.Used k → SwapSpace.held { v.swap with device } k = v.swap.held k) :
    Goes u { v with swap := { v.swap with device }, files }

theorem Goes.evolves [ReplacementPolicy π] {u v w : Memory π} {cs : List Change} (h : Goes u v)
    (he : Evolves cs v w) : Goes u w := by
  induction he with
  | refl => exact h
  | step _ hs ih => exact (ih h).step hs
  | change _ ha ih => exact (ih h).change ha

theorem Goes.valid [ReplacementPolicy π] {u v : Memory π} (h : Goes u v) (hu : u.Valid) : v.Valid := by
  induction h with
  | refl => exact hu
  | step _ hs ih => exact ih.step hs
  | change _ ha ih => exact ih.evolves (.of_change ha)
  | elsewhere _ device files hsize _ ih => exact ih.elsewhere hsize files

namespace Keeps
variable {v w x : Memory π} {s : Nat} {page : Page}

theorem used (h : Keeps s page v w) (hw : w.Valid) {k : Nat} (hk : page.backing.slot? = some k) :
    w.swap.Used k :=
  hw.used_of_slot h.record hk

/-- A page goes on waiting while its record stays and slots in use hold what they held. -/
theorem on (h : Keeps s page v w) (hw : w.Valid) (hp : x.pages s page.va = w.pages s page.va)
    (hheld : ∀ k, w.swap.Used k → x.swap.held k = w.swap.held k) : Keeps s page v x where
  record := hp.trans h.record
  held k hk := (hheld k (h.used hw hk)).trans (h.held k hk)

/-- Another page is replaced. -/
theorem other (h : Keeps s page v w) (hw : w.Valid) {t a : Nat} {y : Option Page}
    (hp : x.pages = setAt w.pages t a y) (hne : ¬(s = t ∧ page.va = a))
    (hheld : ∀ k, w.swap.Used k → x.swap.held k = w.swap.held k) : Keeps s page v x :=
  h.on hw (by rw [hp, setAt_of_ne hne]) hheld

/-- What is resident is another page. -/
theorem ne_of_resident (h : Keeps s page v w) (hf : page.frame = none) {t a n : Nat} {q : Page}
    (hq : w.pages t a = some q) (hn : q.frame = some n) : ¬(s = t ∧ page.va = a) := by
  rintro ⟨rfl, rfl⟩
  obtain rfl := Option.some.inj (h.record.symm.trans hq)
  rw [hf] at hn
  cases hn

theorem ne_of_absent (h : Keeps s page v w) {t a : Nat} (hp : w.pages t a = none) :
    ¬(s = t ∧ page.va = a) := by
  rintro ⟨rfl, rfl⟩
  rw [h.record] at hp
  cases hp

variable [ReplacementPolicy π]

/-- Paging leaves a page that waits as it is, unless it claims it. -/
theorem step (h : Keeps s page v w) (hw : w.Valid) (hf : page.frame = none) (hs : Step w x) :
    Keeps s page v x ∨ Meets s page v w x := by
  cases hs with
  | serial | handles | passed | unshared | touched => exact .inl (h.on hw rfl fun _ _ => rfl)
  | swap hagrees => exact .inl (h.on hw rfl hagrees.held)
  | flushed _ _ _ hflush =>
    exact .inl (h.on hw (by rw [hflush.same.1]) fun k _ => by rw [hflush.swap_eq])
  | flushedShort _ _ _ hflush =>
    exact .inl (h.on hw (by rw [hflush.same]) fun k _ => by rw [hflush.swap_eq])
  | @evicted t n q backing swap hq hn hcount hb =>
    exact .inl (h.other hw (pages_leave w t n { q with backing }) (h.ne_of_resident hf hq hn)
      fun k hk => hb.held_eq hw.stowed.fits hk)
  | @claimed t n q backing c swap hq hout hfree hlt hfit hb =>
    have hpages := pages_seat w t n { q with backing } q.writable c
    by_cases hat : s = t ∧ page.va = q.va
    · obtain ⟨rfl, hva⟩ := hat
      obtain rfl := Option.some.inj ((hva ▸ h.record).symm.trans hq)
      refine .inr (.claimed (n := n) ?_ ?_)
      · rw [← hb.backing_eq]
        exact (congrFun₂ hpages s page.va).trans setAt_self
      · refine (contents_seat ..).trans ((if_pos rfl).trans ?_)
        rw [hb.bytes_eq (hw.slot_lt hq)]
        refine (Backing.supply_congr h.held).trans ?_
        rw [files_seat]
    · exact .inl (h.other hw hpages hat fun k _ => hb.held_eq (hw.slot_lt hq) k)
  | @refused t n q backing c swap hq hout hfree hlt hb hr =>
    by_cases hat : s = t ∧ page.va = q.va
    · obtain ⟨rfl, hva⟩ := hat
      obtain rfl := Option.some.inj ((hva ▸ h.record).symm.trans hq)
      refine .inr (.refused ?_ fun hgrants => hr ⟨hgrants.1, hgrants.2.1, ?_⟩)
      · rw [← hb.backing_eq]
        exact setAt_self
      · exact Nat.lt_of_lt_of_le hlt hgrants.2.2
    · exact .inl (h.other hw rfl hat fun k _ => hb.held_eq (hw.slot_lt hq) k)
  | @moved t old new q hq hn =>
    refine .inl (h.other hw (pages_move ..) (h.ne_of_resident hf hq hn) fun k _ => ?_)
    rw [swap_seat, swap_leave]

/-- So does every change but one that removes it. -/
theorem change (h : Keeps s page v w) (hw : w.Valid) {c : Change} (ha : Alters w c x) :
    Keeps s page v x ∨ Meets s page v w x := by
  cases ha with
  | insert hs hva hp => exact .inl (h.other hw rfl (h.ne_of_absent hp) fun _ _ => rfl)
  | @remove t q hq =>
    by_cases hat : s = t ∧ page.va = q.va
    · refine .inr (.removed ?_)
      rw [pages_discard, hat.1, hat.2]
      exact setAt_self
    · refine .inl (h.other hw (pages_discard ..) hat fun k _ => ?_)
      show (w.swap.freeSlot q.backing.slot?).held k = _
      cases q.backing.slot? <;> rfl
  | @copy src dst q backing swap hq hdst hd hfit hb =>
    refine .inl (h.other hw (pages_adopt ..) (h.ne_of_absent hd) fun k hk => ?_)
    rw [swap_adopt]
    exact hb.held_eq (hw.slot_lt hq) hw.stowed.fits hk
  | write | spawn | drop => exact .inl (h.on hw rfl fun _ _ => rfl)

end Keeps

/-- Between `u` and `w` the page that has waited since `v` was met. -/
def Met [ReplacementPolicy π] (s : Nat) (page : Page) (v u w : Memory π) : Prop :=
  ∃ x y : Memory π, Goes u x ∧ Keeps s page v x ∧ Meets s page v x y ∧ Goes y w

/-- A page waits until it is met. -/
theorem Goes.keeps_or_met [ReplacementPolicy π] {u v w : Memory π} {s : Nat} {page : Page} (h : Goes u w)
    (hu : u.Valid) (hf : page.frame = none) (hk : Keeps s page v u) :
    Keeps s page v w ∨ Met s page v u w := by
  -- Once the page has been met, all that comes later only adds to what came after.
  have hnext {w x : Memory π} (h : Goes u w) (hgo : ∀ {y}, Goes y w → Goes y x)
      (hmove : Keeps s page v w → Keeps s page v x ∨ Meets s page v w x) :
      Keeps s page v w ∨ Met s page v u w → Keeps s page v x ∨ Met s page v u x := by
    rintro (hkeeps | ⟨y, z, hy, hkeeps, hmeets, hz⟩)
    · exact (hmove hkeeps).imp_right fun hmeets => ⟨w, x, h, hkeeps, hmeets, .refl⟩
    · exact .inr ⟨y, z, hy, hkeeps, hmeets, hgo hz⟩
  induction h with
  | refl => exact .inl hk
  | step h hs ih => exact hnext h (·.step hs) (fun hkeeps => hkeeps.step (h.valid hu) hf hs) ih
  | change h ha ih => exact hnext h (·.change ha) (fun hkeeps => hkeeps.change (h.valid hu) ha) ih
  | elsewhere h device files hsize hheld ih =>
    exact hnext h (·.elsewhere device files hsize hheld)
      (fun hkeeps => .inl (hkeeps.on (h.valid hu) rfl hheld)) ih

end Memory

/-! ## How a claim fails -/

variable {π : Type} [ReplacementPolicy π] {m after : Machine π} {s addr : Nat} {page : Page}

/-- All that asks for the page that contains `addr` to be brought in. -/
inductive Claims (s addr : Nat) : Attempt π Unit → Prop
  | ofClaim : Claims s addr (claim s addr)
  | ofFault (fault : PageFault) (esp : Nat) (h : fault.addr = addr) :
    Claims s addr (handleFault s fault esp)
  | ofProcessFault (fault : PageFault) (userEsp : Nat) (h : fault.addr = addr) :
    Claims s addr (processFault s fault userEsp)

theorem claimPage_misses (h : m.memory.Valid) (hp : m.memory.pages s (pageDown addr) = some page)
    (hf : page.frame = none) :
    Attempt.Ends False (claimPage s page) m (fun _ _ => True) (m.Missed s page) := by
  rw [← (h.sound.kept hp).1] at hp
  exact (claimPage_seats h hp hf).imp (fun _ _ _ => trivial) fun _ _ hmisses => hmisses.2

theorem handleFault_misses {fault : PageFault} (h : m.memory.Valid)
    (hp : m.memory.pages s (pageDown fault.addr) = some page) (hf : page.frame = none) (esp : Nat) :
    Attempt.Ends False (handleFault s fault esp) m (fun _ _ => True) (m.Missed s page) := by
  have hclaim := claimPage_misses h hp hf
  have hva := (h.sound.kept hp).1
  refine ends_handleFault (fun e report _ => ?_) fun x hresolved => ?_
  · -- A fault that is an error by itself leaves everything as it is.
    exact ⟨false, .unasked (.refl _) (hva ▸ hp) fun _ _ => rfl, rfl⟩
  cases hresolved with
  | growth _ hnone => cases hp.symm.trans hnone
  | unprotection _ hq =>
    obtain rfl := Option.some.inj (hp.symm.trans hq)
    simp only [unprotect, hf]
    exact hclaim
  | claim _ hq =>
    obtain rfl := Option.some.inj (hp.symm.trans hq)
    exact hclaim

theorem Claims.misses {x : Attempt π Unit} (hx : Claims s addr x) (h : m.memory.Valid)
    (hp : m.memory.pages s (pageDown addr) = some page) (hf : page.frame = none) :
    Attempt.Ends False x m (fun _ _ => True) (m.Missed s page) := by
  cases hx with
  | ofClaim =>
    have hpage : m.page? s addr = some page := hp
    simp only [claim, Attempt.ends_bind, Attempt.ends_get, hpage]
    exact claimPage_misses h hp hf
  | ofFault fault esp heq =>
    subst heq
    exact handleFault_misses h hp hf esp
  | ofProcessFault fault userEsp heq =>
    subst heq
    -- The stack pointer that is saved has nothing to do with it.
    have hfault (m₁ : Machine π) (hm₁ : m₁.memory = m.memory)
        (hadmission : (m₁.space s).admission = (m.space s).admission) :
        Attempt.Ends False (tryCatch (handleFault s fault (m₁.process s).esp) fun e => do
          modify fun m => m.report (.processFault (m.process s).pid fault.addr e)
          throw e) m₁ (fun _ _ => True) (m.Missed s page) := by
      simp only [Attempt.ends_tryCatch, Attempt.ends_bind, Attempt.ends_modify, Attempt.ends_throw]
      rw [← hm₁] at h hp
      refine (handleFault_misses h hp hf _).imp (fun _ _ _ => trivial) ?_
      rintro e after ⟨asked, hmisses, hasked⟩
      rw [hm₁] at hmisses
      rw [hadmission] at hasked
      exact ⟨asked, hmisses, hasked⟩
    simp only [processFault, Attempt.ends_bind, Attempt.ends_get, Attempt.ends_ite, Attempt.ends_lift,
      saveStackPointer, Run.ends_modify]
    refine ⟨fun _ => hfault _ (Machine.memory_modifyProcess _) ?_, fun _ => hfault m rfl rfl⟩
    rw [Machine.modifyProcess, Machine.space_modifySpace]
    split <;> rfl

/-! ## What is left -/

namespace Machine

/-- No frame is pinned, and all frames in use are in use by pages that are in them, of which the page at
`va` of space `s` is none. -/
def Frameless (m : Machine π) (s va : Nat) : Prop :=
  ∀ n, (m.frames.frame n).pinned = false ∧ ((m.frames.frame n).allocated = true →
    (m.frames.frame n).owners ≠ [] ∧ ∀ o ∈ (m.frames.frame n).owners,
      ¬(o.space = s ∧ o.va = va) ∧ ∃ q, m.page? o.space o.va = some q ∧ q.frame = some n)

/-- The page of space `s` waits as it did on `m`: with the same record, the same bytes in its slot, and
neither a mapping nor a frame. -/
structure Waits (s : Nat) (page : Page) (m after : Machine π) : Prop where
  record : after.page? s page.va = some page
  slot : ∀ k, page.backing.slot? = some k →
    after.swap.Used k ∧ after.swap.held k = m.swap.held k
  entry : (after.space s).directory.entry? page.va = (m.space s).directory.entry? page.va
  frameless : after.Frameless s page.va

/-- Space `s` was asked to map the page, which had come in, and refused. -/
structure Refused (s : Nat) (page : Page) (m after : Machine π) : Prop where
  admission : (after.space s).admission =
    { (m.space s).admission with asked := (m.space s).admission.asked + 1 }
  record : after.page? s page.va = some { page with backing := page.backing.filled }
  slot : ∀ k, page.backing.slot? = some k → ¬after.swap.Used k
  entry : (after.space s).directory.entry? page.va = (m.space s).directory.entry? page.va
  frameless : after.Frameless s page.va

/-- The page is in a frame, with the bytes that its record and its slot on `m` say. -/
def Shows (s : Nat) (page : Page) (m final : Machine π) : Prop :=
  ∃ n, final.page? s page.va = some { page with backing := page.backing.filled, frame := some n } ∧
    final.contents n = page.backing.supply final.files m.swap.held

/-- The machines that come after one, by operations and by whatever becomes of files and of the disk,
apart from the slots in use. -/
inductive Later (m : Machine π) : Machine π → Prop
  | refl : Later m m
  | perform {m₁ after : Machine π} {op : Operation} {reply : Reply} (h : Later m m₁)
    (hop : op.Allowed m₁) (hp : op.perform m₁ = .ok reply after) : Later m after
  | elsewhere {m₁ : Machine π} (h : Later m m₁) (device : Device) (files : FileStore)
    (hsize : device.size = m₁.swap.device.size)
    (hheld : ∀ k, m₁.swap.Used k → SwapSpace.held { m₁.swap with device } k = m₁.swap.held k) :
    Later m { m₁ with swap := { m₁.swap with device }, files }

theorem Later.goes (h : m.Later after) (hm : m.memory.Valid) :
    m.memory.Goes after.memory := by
  induction h with
  | refl => exact .refl
  | perform _ hop hp ih =>
    obtain ⟨_, hevolves, -⟩ := ((Operation.perform_ends (ih.valid hm) hop).of_ok hp).evolves
    exact ih.evolves hevolves
  | elsewhere _ device files hsize hheld ih => exact ih.elsewhere device files hsize hheld

omit [ReplacementPolicy π] in
theorem frameless {q : Page} {va : Nat} (h : m.memory.Valid) (hq : m.memory.pages s va = some q)
    (hout : q.frame = none) : m.Frameless s va := by
  intro n
  refine ⟨h.sound.pinned_eq n, fun hn => ⟨?_, fun o ho => ?_⟩⟩
  · intro hnil
    have hcount : (m.memory.frames n).refcount = 0 := (h.sound.counted n).trans (congrArg List.length hnil)
    exact absurd hn (Bool.not_eq_true _ ▸ (h.sound.free_iff n).mpr hcount)
  · obtain ⟨p, hp, -, hpf⟩ := h.sound.owner ho
    refine ⟨?_, p, ?_, hpf⟩
    · rintro ⟨rfl, rfl⟩
      obtain rfl := Option.some.inj (hp.symm.trans hq)
      rw [hout] at hpf
      cases hpf
    · rw [page?_eq, pageDown_eq_self (h.sound.kept hp).2.1, hp]

omit [ReplacementPolicy π] in
/-- A page that is kept waits. -/
theorem waits_of_keeps (hm : m.memory.Valid) (hafter : after.memory.Valid)
    (hp : m.memory.pages s page.va = some page) (hf : page.frame = none)
    (h : m.memory.Keeps s page after.memory) : m.Waits s page after := by
  have hdown := pageDown_eq_self (hm.sound.kept hp).2.1
  refine ⟨?_, fun k hk => ⟨h.used hafter hk, h.held k hk⟩, ?_, frameless hafter h.record hf⟩
  · rw [page?_eq, hdown, h.record]
  · rw [entry?_eq, entry?_eq, hdown, hafter.sound.entry_eq_none h.record hf, hm.sound.entry_eq_none hp hf]

end Machine

variable {count : Nat} {device : Device} {policy : π} {files : FileStore} {ops : List Operation}
  {outside : Nat → Nat}

/-- A claim that fails loses nothing, unless the mapping was refused. Whatever the cause, the page waits
as before, whatever comes later, until it is claimed, refused or removed, and at any later time it comes
in with the bytes that were kept for it before the failure. If the mapping was refused, the page has no
frame and no mapping, but what its first claim made of it, and its slot is given back. -/
theorem failed_claim_keeps_page
    (h : HandleRuns (Machine.start count device policy files) ops outside m)
    (hp : m.page? s addr = some page) (hout : page.isResident = false) {x : Attempt π Unit}
    (hx : Claims s addr x) {e : MemoryError} (hfail : x m = .ok (.error e) after) :
    (e = .allocationExhausted ∧ m.Refused s page after ∨
      (after.space s).admission = (m.space s).admission ∧ m.Waits s page after ∧
        ∀ later, after.Later later → m.Waits s page later ∨
          Memory.Met s page m.memory after.memory later.memory) ∧
    ∀ later, m.Later later ∨ after.Later later → m.Waits s page later →
      ∀ final, claim s addr later = .ok (.ok ⟨⟩) final → m.Shows s page final := by
  obtain ⟨ps, hps⟩ := h.balanced
  have hvalid := hps.valid
  have hf : page.frame = none := by simpa [Page.isResident] using hout
  obtain ⟨hva, haligned, -, -⟩ := hvalid.sound.kept hp
  have hdown : pageDown page.va = page.va := by rw [hva, pageDown_pageDown]
  have hpage : m.memory.pages s page.va = some page := hva ▸ hp
  obtain ⟨asked, hmisses, hasked⟩ := (hx.misses hvalid hp hf).of_error hfail
  have hafter := hvalid.course hmisses.rests
  refine ⟨?_, fun later hlater hwaits final hclaim => ?_⟩
  · cases hmisses with
    | refused hrests hrecord hslot hr =>
      refine .inl ⟨rfl, hasked, ?_, hslot, ?_, Machine.frameless hafter hrecord hf⟩
      · rw [Machine.page?_eq, hdown, hrecord]
      · rw [Machine.entry?_eq, Machine.entry?_eq, hdown, hafter.sound.entry_eq_none hrecord hf,
          hvalid.sound.entry_eq_none hpage hf]
    | unasked hrests hrecord hheld =>
      refine .inr ⟨hasked, Machine.waits_of_keeps hvalid hafter hpage hf ⟨hrecord, hheld⟩, ?_⟩
      intro later hlater
      have hgoes := hlater.goes hafter
      exact (hgoes.keeps_or_met hafter hf ⟨hrecord, hheld⟩).imp
        (Machine.waits_of_keeps hvalid (hgoes.valid hafter) hpage hf) id
  · have hlast : later.memory.Valid := by
      rcases hlater with hlater | hlater
      · exact (hlater.goes hvalid).valid hvalid
      · exact (hlater.goes hafter).valid hafter
    have hrecord : later.memory.pages s page.va = some page := by
      rw [← hwaits.record, Machine.page?_eq, hdown]
    have hfound : later.page? s addr = some page := by
      rw [Machine.page?_eq, ← hva, hrecord]
    have hclaims : Attempt.Ends False (claim s addr) later (fun _ final => m.Shows s page final)
        fun _ _ => True := by
      simp only [claim, Attempt.ends_bind, Attempt.ends_get, hfound]
      refine (claimPage_supplies hlast hrecord hf).imp ?_ fun _ _ _ => trivial
      rintro _ final ⟨n, hpages, -, hcontents⟩
      refine ⟨n, ?_, hcontents.trans (Backing.supply_congr fun k hk => (hwaits.slot k hk).2)⟩
      rw [Machine.page?_eq, hdown, hpages]
    exact hclaims.of_ok hclaim

/-- No frame is free, and the page in the only one cannot be written back. Once its file takes what is
written, the page that waits comes in from its slot. -/
theorem failed_claim_keeps_page_in_slot : ∃ ops outside, ∃ m after later final : Machine Fifo, ∃ page n,
    HandleRuns (.start 1 { name := "swap", kind := .swap, size := 8, disk := .zeroed 8 } {}
      { nodes := #[{ contents := [1], writeLimit := some 0 }] }) ops outside m ∧
    m.page? 0 4096 = some page ∧ page.isResident = false ∧ page.backing.slot? = some 0 ∧
    claim 0 4096 m = .ok (.error .ioFailure) after ∧ m.Waits 0 page after ∧
    after.Later later ∧ claim 0 4096 later = .ok (.ok ⟨⟩) final ∧
    final.page? 0 4096 = some { page with backing := .anonymous .zeroed none, frame := some n } ∧
    final.contents n = m.swap.held 0 := by
  let first : Machine Fifo := .start 1 { name := "swap", kind := .swap, size := 8, disk := .zeroed 8 } {}
    { nodes := #[{ contents := [1], writeLimit := some 0 }] }
  let page : Page := { serial := 0, va := 4096, writable := true, backing := .anonymous .zeroed (some 0) }
  let repaired (after : Machine Fifo) : Machine Fifo :=
    { after with files := { nodes := #[{ contents := [1] }] } }
  let check (m : Machine Fifo) : Bool := decide (m.page? 0 4096 = some page) &&
    match claim 0 4096 m with
    | .ok (.error e) after => decide (e = .ioFailure ∧ after.page? 0 4096 = some page) &&
      match claim 0 4096 (repaired after) with
      | .ok (.ok _) _ => true
      | _ => false
    | _ => false
  have hstart : HandleRuns first [] first.files.handles first := .start
  let ops : List Operation := [.createProcess 1, .insert 0 4096 true (.anonymous .zeroed none),
    .writeUser 0 4096 [7], .map 0 8192 1 true 0 0, .writeUser 0 8192 [9]]
  obtain ⟨outside, m, hrun, hcheck⟩ := hstart.of_handled ops (fun _ => check) (by decide +kernel)
  obtain ⟨hp, hcheck⟩ := Bool.and_eq_true_iff.mp hcheck
  have hp := of_decide_eq_true hp
  split at hcheck
  swap
  · cases hcheck
  rename_i e after hfail
  obtain ⟨hafter, hnext⟩ := Bool.and_eq_true_iff.mp hcheck
  obtain ⟨rfl, hrecord⟩ := of_decide_eq_true hafter
  split at hnext
  swap
  · cases hnext
  rename_i final hclaim
  have hlater : after.Later (repaired after) :=
    .elsewhere .refl after.swap.device _ rfl fun _ _ => rfl
  obtain ⟨hlost | ⟨-, hwaits, -⟩, hshows⟩ := failed_claim_keeps_page hrun hp rfl .ofClaim hfail
  · exact absurd (hrecord.symm.trans hlost.2.record) (by decide)
  · obtain ⟨ps, hps⟩ := hrun.balanced
    have hvalid := hps.valid.course ((claim_ends hps.valid 4096).of_error hfail).1
    have hkept : m.Waits 0 page (repaired after) :=
      Machine.waits_of_keeps hps.valid ((hlater.goes hvalid).valid hvalid) hp rfl
        ⟨hrecord, fun k hk => (hwaits.slot k hk).2⟩
    obtain ⟨n, hpage, hbytes⟩ := hshows _ (.inr hlater) hkept final hclaim
    exact ⟨_, outside, m, after, _, final, page, n, hrun, hp, rfl, rfl, hfail, hwaits, hlater, hclaim,
      hpage, hbytes⟩

/-- A table grants two mappings, refuses the third and grants the next. The page that was refused had
come in from its slot, which it has given back: what it held is gone, and the next claim finds zeroes. -/
theorem refused_claim_loses_page : ∃ ops outside, ∃ m after final : Machine Fifo, ∃ page n,
    HandleRuns (.start 1 { name := "swap", kind := .swap, size := 8, disk := .zeroed 8 } {} {}) ops
      outside m ∧
    m.page? 0 4096 = some page ∧ page.backing.slot? = some 0 ∧
    (m.swap.held 0).toList.head? = some 7 ∧
    claim 0 4096 m = .ok (.error .allocationExhausted) after ∧
    after.page? 0 4096 = some { page with backing := .anonymous .zeroed none } ∧ ¬after.swap.Used 0 ∧
    claim 0 4096 after = .ok (.ok ⟨⟩) final ∧
    final.page? 0 4096 = some { page with backing := .anonymous .zeroed none, frame := some n } ∧
    (final.contents n).toList.head? = some 0 := by
  let first : Machine Fifo := .start 1 { name := "swap", kind := .swap, size := 8, disk := .zeroed 8 } {} {}
  let page : Page := { serial := 0, va := 4096, writable := true, backing := .anonymous .zeroed (some 0) }
  let check (m : Machine Fifo) : Bool :=
    decide (m.page? 0 4096 = some page ∧ (m.swap.held 0).toList.head? = some 7) &&
      match claim 0 4096 m with
      | .ok (.error e) after => decide (e = .allocationExhausted ∧
          after.page? 0 4096 = some { page with backing := .anonymous .zeroed none } ∧
          ¬after.swap.inUse[0]? = some true) &&
        match claim 0 4096 after with
        | .ok (.ok _) final =>
          decide (final.page? 0 4096 =
            some { page with backing := .anonymous .zeroed none, frame := some 0 } ∧
            (final.contents 0).toList.head? = some 0)
        | _ => false
      | _ => false
  have hstart : HandleRuns first [] first.files.handles first := .start
  let ops : List Operation := [.createTable { admits := fun asked _ => asked != 2 } true,
    .insert 0 4096 true (.anonymous .zeroed none), .insert 0 8192 true (.anonymous .zeroed none),
    .copyTo 0 0 4096 [7], .claim 0 8192, .remove 0 8192]
  obtain ⟨outside, m, hrun, hcheck⟩ := hstart.of_handled ops (fun _ => check) (by decide +kernel)
  obtain ⟨hbefore, hcheck⟩ := Bool.and_eq_true_iff.mp hcheck
  obtain ⟨hp, hbyte⟩ := of_decide_eq_true hbefore
  split at hcheck
  swap
  · cases hcheck
  rename_i e after hfail
  obtain ⟨hafter, hnext⟩ := Bool.and_eq_true_iff.mp hcheck
  obtain ⟨rfl, hrecord, hfree⟩ := of_decide_eq_true hafter
  split at hnext
  swap
  · cases hnext
  rename_i final hclaim
  obtain ⟨hfinal, hzero⟩ := of_decide_eq_true hnext
  exact ⟨_, outside, m, after, final, page, 0, hrun, hp, rfl, hbyte, hfail, hrecord, hfree, hclaim, hfinal,
    hzero⟩

end DemandPaging
