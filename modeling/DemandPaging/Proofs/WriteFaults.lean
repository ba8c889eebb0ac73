import DemandPaging.Proofs.Entries
import DemandPaging.Proofs.FaultOutcomes
import DemandPaging.Proofs.Tables

/-! # Write faults on shared frames

The first write to a page that shares its frame gives the page a copy of its own. One page leaves the
frame, the others keep it with all its bytes, and a page that has to make room was in a frame of its own.
A page that is alone in its frame stays there. If the fault cannot be resolved no page has moved, apart
from one that made room in vain.
-/
namespace DemandPaging

namespace Machine
variable {π : Type}

/-- The page at `a` in space `t` is as it was, and mapped as it was. -/
def Spares (m after : Machine π) (t a : Nat) : Prop :=
  after.memory.pages t a = m.memory.pages t a ∧ after.memory.entries t a = m.memory.entries t a

/-- The page at `a` in space `t`, which was alone in its frame, is in no frame any more and not mapped. -/
def PutOut (m after : Machine π) (t a : Nat) : Prop :=
  (∃ q k, m.memory.pages t a = some q ∧ q.frame = some k ∧ (m.residents k).length = 1) ∧
    (∃ q, after.memory.pages t a = some q ∧ q.frame = none) ∧ after.memory.entries t a = none

/-- The page at `va` in space `s` may be written in frame `n`, where it was. All that has changed is its
mapping, which keeps its dirty mark. -/
structure Opened (s va n : Nat) (m after : Machine π) : Prop where
  pages : after.memory.pages = m.memory.pages
  frames : after.frames.frame = m.frames.frame
  policy : after.frames.policy = m.frames.policy
  swap : after.swap = m.swap
  files : after.files = m.files
  mapping : ∃ e e', m.memory.entries s va = some e ∧ after.memory.entries s va = some e' ∧
    e'.frame = n ∧ e'.has .writable = true ∧ e'.has .dirty = e.has .dirty
  others : ∀ t a, ¬(t = s ∧ a = va) → after.memory.entries t a = m.memory.entries t a

/-- The page has moved from frame `old`, which it shared, to frame `new`, which it has to itself. -/
structure CopiedOut (s : Nat) (page : Page) (old new : Nat) (m after : Machine π) : Prop where
  ne : new ≠ old
  record : after.memory.pages s page.va = some { page with frame := some new }
  counted : (after.frames.frame new).refcount = 1
  alone : (after.frames.frame new).owners = [⟨page.serial, s, page.va⟩]
  bytes : after.contents new = m.contents old
  mapping : ∃ e, after.memory.entries s page.va = some e ∧ e.frame = new ∧ e.has .writable = true
  left : after.frames.frame old = { m.frames.frame old with
    refcount := (m.residents old).length - 1
    owners := (m.frames.frame old).owners.erase ⟨page.serial, s, page.va⟩ }
  sharers : ∀ {t a q}, m.memory.pages t a = some q → q.frame = some old → ¬(t = s ∧ a = page.va) →
    m.Spares after t a
  /-- At most one other page has made room. -/
  others : ∃ victim : Option (Nat × Nat), (∀ t a, victim = some (t, a) → m.PutOut after t a) ∧
    ∀ t a, ¬(t = s ∧ a = page.va) → victim ≠ some (t, a) → m.Spares after t a

/-- Frame `n` and the pages in it are as they were, and no frame is held that was free. -/
structure Withstood (n : Nat) (m after : Machine π) : Prop where
  frame : after.frames.frame n = m.frames.frame n
  pages : ∀ {t a q}, m.memory.pages t a = some q → q.frame = some n → m.Spares after t a
  settled : ∀ k, (after.frames.frame k).pinned = false ∧
    ((after.frames.frame k).allocated = true → (m.frames.frame k).allocated = true)

variable {m after : Machine π} {s n : Nat} {page : Page}

theorem length_residents (h : m.memory.Sound) (n : Nat) :
    (m.residents n).length = (m.frames.frame n).refcount :=
  (residents_perm h n).length_eq.trans (h.counted n).symm

/-- Where memory has only been idle a frame has withstood. -/
theorem withstood_of_idles (h : m.memory.Sound) (hidle : m.memory.Idles after.memory) (n : Nat) :
    m.Withstood n after where
  frame := congrFun hidle.frames n
  pages _ _ := ⟨congrFun (congrFun hidle.pages _) _, congrFun (congrFun hidle.entries _) _⟩
  settled k := by
    have hframe : after.frames.frame k = m.frames.frame k := congrFun hidle.frames k
    rw [hframe]
    exact ⟨h.pinned_eq k, id⟩

theorem opened_of_remap {va : Nat} {e : PageTableEntry} (he : m.memory.entries s va = some e)
    (hframe : e.frame = n) (hafter : after.memory =
      m.memory.setEntry s va (some (.remap (some e) n true))) : m.Opened s va n after where
  pages := (congrArg Memory.pages hafter :)
  frames := (congrArg Memory.frames hafter :)
  policy := (congrArg Memory.policy hafter :)
  swap := (congrArg Memory.swap hafter :)
  files := (congrArg Memory.files hafter :)
  mapping := ⟨e, .remap (some e) n true, he, by rw [hafter]; exact setAt_self,
    PageTableEntry.frame_remap _ _ (hframe ▸ e.frame_lt), PageTableEntry.writable_remap ..,
    PageTableEntry.dirty_remap_same hframe⟩
  others t a hat := by
    rw [hafter]
    exact setAt_of_ne hat

variable [ReplacementPolicy π]

/-- A frame that was taken and given back leaves the pages of every other frame where they are. -/
theorem withstood_of_pass {v : Memory π} {new : Nat} {c : PageBytes} (h : v.Sound)
    (hfree : (v.frames new).allocated = false) (hclears : m.memory.Clears v new)
    (hne : n ≠ new) (hafter : after.memory = v.pass new c) : m.Withstood n after := by
  have hother : ∀ k, k ≠ new → after.memory.frames k = m.memory.frames k := by
    intro k hk
    rw [hafter]
    exact (Function.update_of_ne hk ..).trans (hclears.frames k hk)
  have hsound : after.memory.Sound := by
    rw [hafter]
    exact h.pass hfree c
  refine ⟨hother n hne, fun {t a q} hq hf => ?_, fun k => ⟨hsound.pinned_eq k, fun hk => ?_⟩⟩
  · have hout := hclears.others t a fun q' hq' hf' => by
      obtain rfl := Option.some.inj (hq.symm.trans hq')
      exact hne (Option.some.inj (hf.symm.trans hf'))
    exact ⟨by rw [hafter]; exact hout.1, by rw [hafter]; exact hout.2⟩
  · by_cases hnew : k = new
    · have hvacant : after.memory.frames k = .vacant c := by
        rw [hafter, hnew]
        exact Function.update_self ..
      have hfreed : (after.memory.frames k).allocated = false := by
        rw [hvacant]
        exact CoreMapEntry.has_free _
      cases hk.symm.trans hfreed
    · have hsame : after.frames.frame k = m.frames.frame k := hother k hnew
      rwa [hsame] at hk

omit [ReplacementPolicy π] in
/-- What has become of the pages in the frame that was cleared, which is one page at most. -/
theorem putOut_of_clears {v : Memory π} {new : Nat} (h : m.memory.Sound)
    (hclears : m.memory.Clears v new)
    (hsame : ∀ t a, ¬(t = s ∧ a = page.va) →
      after.memory.pages t a = v.pages t a ∧ after.memory.entries t a = v.entries t a)
    (hout : ∀ q, m.memory.pages s page.va = some q → q.frame ≠ some new) :
    ∃ victim : Option (Nat × Nat), (∀ t a, victim = some (t, a) → m.PutOut after t a) ∧
      ∀ t a, ¬(t = s ∧ a = page.va) → victim ≠ some (t, a) → m.Spares after t a := by
  have hspares {t a : Nat} (hat : ¬(t = s ∧ a = page.va))
      (hq : ∀ q, m.memory.pages t a = some q → q.frame ≠ some new) : m.Spares after t a := by
    obtain ⟨hp, he⟩ := hclears.others t a hq
    obtain ⟨hp', he'⟩ := hsame t a hat
    exact ⟨hp'.trans hp, he'.trans he⟩
  by_cases hany : ∃ t a q, m.memory.pages t a = some q ∧ q.frame = some new
  · obtain ⟨t, a, q, hq, hf⟩ := hany
    obtain ⟨hone, hentry, q', hq', hf'⟩ := hclears.evicted hq hf
    have hat : ¬(t = s ∧ a = page.va) := by
      rintro ⟨rfl, rfl⟩
      exact hout q hq hf
    refine ⟨some (t, a), ?_, fun t' a' hat' hne => hspares hat' fun r hr hfr => ?_⟩
    · rintro _ _ ⟨⟩
      obtain ⟨hp, he⟩ := hsame t a hat
      refine ⟨⟨q, new, hq, hf, (length_residents h new).trans hone⟩, ⟨q', hp.trans hq', hf'⟩, ?_⟩
      exact he.trans hentry
    · obtain ⟨rfl, rfl⟩ := h.alone hone hq hf hr hfr
      exact hne rfl
  · refine ⟨none, nofun, fun t a hat _ => hspares hat fun q hq hf => hany ⟨t, a, q, hq, hf⟩⟩

/-- A page that has left a shared frame for one that was cleared for it. -/
theorem copiedOut_of_move {v : Memory π} {old new : Nat} (h : m.memory.Sound) (hv : v.Valid)
    (hy : m.memory.Yields v (some page.serial) new) (hclears : m.memory.Clears v new)
    (hp : m.memory.pages s page.va = some page) (hf : page.frame = some old)
    (hfit : new < PageTableEntry.frameLimit) (hold : (m.memory.frames old).refcount ≠ 1)
    (hafter : after.memory =
      (v.leave s old page).seat s new { page with frame := none } true (m.memory.frames old).contents) :
    m.CopiedOut s page old new after := by
  obtain ⟨hpv, -, hframes⟩ := hy.kept hp rfl
  have hframe := hframes old hf
  have hpos := (hv.sound.resident_frame hpv hf).1
  have hne : new ≠ old := by
    rintro rfl
    have := (hv.sound.free_iff _).mp hy.free
    omega
  rw [← hframe] at hafter hold
  have hleave := hv.sound.leave_eq hpv hf
  -- What the move comes to, field by field.
  have hnew : after.memory.frames new =
      .ownedBy ⟨page.serial, s, page.va⟩ (v.frames old).contents := by
    rw [hafter, Memory.seat]
    exact Function.update_self ..
  have hleft : after.memory.frames old = { v.frames old with
      refcount := (v.frames old).refcount - 1
      owners := (v.frames old).owners.erase ⟨page.serial, s, page.va⟩ } := by
    have hstate := hv.sound.state old
    rw [if_neg (by omega)] at hstate
    rw [hafter, Memory.seat, hleave, if_neg hold, ← hstate]
    exact (Function.update_of_ne hne.symm ..).trans (Function.update_self ..)
  have hpages : after.memory.pages = setAt v.pages s page.va (some { page with frame := some new }) := by
    rw [hafter, Memory.pages_move]
  have hentries : after.memory.entries = setAt v.entries s page.va (some (.remap none new true)) := by
    rw [hafter, Memory.entries_seat, Memory.entries_leave, setAt_setAt]
  have hsame (t a : Nat) (hat : ¬(t = s ∧ a = page.va)) :
      after.memory.pages t a = v.pages t a ∧ after.memory.entries t a = v.entries t a := by
    rw [hpages, hentries, setAt_of_ne hat, setAt_of_ne hat]
    exact ⟨rfl, rfl⟩
  refine
    { ne := hne
      record := by rw [hpages, setAt_self]
      counted := congrArg Frame.refcount hnew
      alone := congrArg Frame.owners hnew
      bytes := by
        rw [contents_eq, contents_eq, hnew, ← hframe]
        rfl
      mapping := ⟨.remap none new true, by rw [hentries, setAt_self],
        PageTableEntry.frame_remap _ _ hfit, PageTableEntry.writable_remap ..⟩
      left := ?_
      sharers := fun {t a q} hq hqf hat => ?_
      others := putOut_of_clears h hclears hsame ?_ }
  · rw [length_residents h]
    rw [hframe] at hleft
    exact hleft
  · obtain ⟨hp', he'⟩ := hsame t a hat
    obtain ⟨hpq, heq⟩ := hclears.others t a fun q' hq' hf' => by
      obtain rfl := Option.some.inj (hq.symm.trans hq')
      exact hne (Option.some.inj (hf'.symm.trans hqf))
    exact ⟨hp'.trans hpq, he'.trans heq⟩
  · intro q hq hqf
    obtain rfl := Option.some.inj (hp.symm.trans hq)
    exact hne (Option.some.inj (hqf.symm.trans hf))

end Machine

variable {π : Type} [ReplacementPolicy π] {m : Machine π} {s n : Nat} {page : Page}

/-- A write to a write-protected page that is in frame `n`. -/
theorem unprotect_moves (h : m.memory.Valid) (hp : m.memory.pages s page.va = some page)
    (hf : page.frame = some n) :
    Attempt.Ends False (unprotect s page) m
      (fun _ after => ((m.residents n).length = 1 → m.Opened s page.va n after) ∧
        ((m.residents n).length ≠ 1 → ∃ new, m.CopiedOut s page n new after))
      fun _ after => m.Withstood n after := by
  obtain ⟨-, hva, hs, -⟩ := h.sound.kept hp
  have hlength := Machine.length_residents h.sound n
  simp only [unprotect, hf, Attempt.ends_bind, Attempt.ends_get, Attempt.ends_ite]
  refine ⟨fun hone => ?_, fun hshared => ?_⟩
  · simp only [Attempt.ends_modifyGet, Attempt.ends_modify, Attempt.ends_throw]
    have hmapped := Machine.map_cases hs page.va n true
    rw [pageDown_eq_self hva] at hmapped
    obtain ⟨hdone, -, -, hmap⟩ | ⟨hdone, hmap, -⟩ := hmapped
    · refine ⟨fun _ => ⟨fun _ => ?_, fun hne => absurd (hlength.trans hone) hne⟩,
        fun hnot => absurd hdone hnot⟩
      obtain ⟨e, he⟩ := Option.isSome_iff_exists.mp (h.sound.resident hp hf)
      rw [he] at hmap
      exact Machine.opened_of_remap he (h.sound.frame_eq hp hf he) hmap
    · refine ⟨fun hyes => absurd (hdone.symm.trans hyes) (by simp), fun _ => ?_⟩
      refine Machine.withstood_of_idles h.sound ?_ n
      rw [hmap]
      exact ⟨rfl, rfl, rfl⟩
  · have hshared : (m.memory.frames n).refcount ≠ 1 := hshared
    refine (copyOnWrite_moves h hp hf hshared).imp ?_ ?_
    · rintro _ after ⟨v, new, hy, hclears, hfit, hafter⟩
      refine ⟨fun hone => absurd (hlength.symm.trans hone) hshared, fun _ => ⟨new, ?_⟩⟩
      exact Machine.copiedOut_of_move h.sound (h.course hy.rests) hy hclears hp hf hfit hshared hafter
    · rintro e after ⟨-, ⟨-, hidle⟩ | ⟨v, new, hy, hclears, hafter⟩⟩
      · exact Machine.withstood_of_idles h.sound hidle n
      · have hvalid := h.course hy.rests
        refine Machine.withstood_of_pass hvalid.sound hy.free hclears ?_ hafter
        rintro rfl
        have := (hvalid.sound.resident_frame (hy.kept hp rfl).1 hf).1
        have := (hvalid.sound.free_iff _).mp hy.free
        omega

variable {count : Nat} {device : Device} {policy : π} {files : FileStore} {calls : List Call}

/-- Whatever was asked of the machine so far, a write fault on a page that may be written, and that is
in frame `n` with however many others, has an answer. If it is resolved, a page that is alone stays in
its frame and is mapped writable there; one that is not has moved to a frame of its own with the same
bytes, and all that the others notice is that they are one less. If it is not, none of them notices
anything. -/
theorem write_fault_outcome
    (h : Runs Operation.Allowed (Machine.start count device policy files) calls m) {fault : PageFault}
    (hp : m.page? s fault.addr = some page) (hf : page.frame = some n) (hw : page.writable = true)
    (hwrite : fault.write = true) (hpresent : fault.notPresent = false) (esp : Nat) :
    ∃ answer after, handleFault s fault esp m = .ok answer after ∧
      (answer = .ok ⟨⟩ → (m.residents n).length = 1 → m.Opened s (pageDown fault.addr) n after) ∧
      (answer = .ok ⟨⟩ → 2 ≤ (m.residents n).length → ∃ new, m.CopiedOut s page n new after) ∧
      ∀ e, answer = .error e → m.Withstood n after := by
  have hvalid := h.valid (Machine.valid_start ..) fun _ _ hop => hop
  rw [Machine.page?_eq] at hp
  have hva := (hvalid.sound.kept hp).1
  have hends : Attempt.Ends False (handleFault s fault esp) m
      (fun _ after => ((m.residents n).length = 1 → m.Opened s (pageDown fault.addr) n after) ∧
        ((m.residents n).length ≠ 1 → ∃ new, m.CopiedOut s page n new after))
      fun _ after => m.Withstood n after := by
    refine ends_handleFault_of_present hp hw hwrite hpresent (fun report _ => ?_) ?_
    · have hidle : m.memory.Idles (m.report report).memory := ⟨rfl, rfl, rfl⟩
      exact Machine.withstood_of_idles hvalid.sound hidle n
    · rw [← hva]
      exact unprotect_moves hvalid (hva ▸ hp) hf
  unfold Attempt.Ends at hends
  split at hends
  · rename_i after hok
    exact ⟨_, after, hok, fun _ => hends.1, fun _ htwo => hends.2 (by omega), by simp⟩
  · rename_i e after herror
    exact ⟨_, after, herror, by simp, by simp, fun _ _ => hends⟩
  · exact hends.elim

/-- Three processes share a frame, and a page of one of them is in the only other frame. A write of the
second process puts that page out, and leaves the first frame to the other two. -/
theorem write_fault_outcome_after_forks : ∃ calls, ∃ m after : Machine Fifo, ∃ page n,
    ∃ fault : PageFault,
    Runs Operation.Allowed
      (.start 2 { name := "swap", kind := .swap, size := 8, disk := .zeroed 8 } {} {}) calls m ∧
    m.page? 1 fault.addr = some page ∧ page.frame = some n ∧ page.writable = true ∧
    fault.write = true ∧ fault.notPresent = false ∧ (m.residents n).length = 3 ∧
    handleFault 1 fault 0 m = .ok (.ok ⟨⟩) after ∧
    (∃ new, m.CopiedOut 1 page n new after) ∧ (after.frames.frame n).refcount = 2 := by
  let fault : PageFault := { addr := 4097, user := true, write := true, notPresent := false }
  let page : Page :=
    { serial := 1, va := 4096, writable := true, frame := some 0, backing := .anonymous .zeroed none }
  obtain ⟨calls, m, hrun, hcheck⟩ := Runs.of_afterAll Operation.Allowed
    (m := .start 2 { name := "swap", kind := .swap, size := 8, disk := .zeroed 8 } ({} : Fifo) {})
    [.createProcess 1, .insert 0 4096 true (.anonymous .zeroed none), .writeUser 0 4096 [7], .fork 0 2,
      .fork 0 3, .insert 0 8192 true (.anonymous .zeroed none), .writeUser 0 8192 [8]]
    (fun m => decide (m.page? 1 4097 = some page ∧ (m.residents 0).length = 3) &&
      match handleFault 1 fault 0 m with
      | .ok (.ok _) _ => true
      | _ => false) (by decide +kernel)
  obtain ⟨hbefore, hresolved⟩ := Bool.and_eq_true_iff.mp hcheck
  obtain ⟨hp, hshared⟩ := of_decide_eq_true hbefore
  obtain ⟨answer, after, hanswer, -, hcopied, -⟩ :=
    write_fault_outcome hrun (show m.page? 1 fault.addr = some page from hp) rfl rfl rfl rfl 0
  rw [hanswer] at hresolved
  cases answer with
  | error e => cases hresolved
  | ok _ =>
    obtain ⟨new, hnew⟩ := hcopied rfl (by omega)
    refine ⟨calls, m, after, page, 0, fault, hrun, hp, rfl, rfl, rfl, rfl, hshared, hanswer,
      ⟨new, hnew⟩, ?_⟩
    rw [hnew.left, hshared]

end DemandPaging
