import DemandPaging.Proofs.Clearing
import DemandPaging.Proofs.Standing

/-! # Bringing pages in

Claiming a page and taking a private copy of one are paging and nothing else, whether they succeed or
fail. A page that was claimed is mapped as it may be used. One that could not be claimed is as it was,
unless its space was asked for a mapping and refused.
-/
namespace DemandPaging

namespace Backing

/-- What a page is once it has come in. -/
def filled : Backing → Backing
  | uninit target source => target.first source
  | anonymous source _ => .anonymous source none
  | fileBacked source _ => .fileBacked source false

/-- The bytes that a page comes in with. -/
def supply (files : FileStore) (held : Nat → PageBytes) : Backing → PageBytes
  | uninit _ source | fileBacked source _ => source.image files
  | anonymous _ none => zeroPage
  | anonymous _ (some slot) => held slot

end Backing

namespace Memory
variable {π : Type} [ReplacementPolicy π] {v w : Memory π} {s va n : Nat} {p page : Page}

/-- The page at `va` is resident and mapped, writable if that is wanted. -/
def Mapped (v : Memory π) (s va : Nat) (writable : Bool) : Prop :=
  ∃ q n e, v.pages s va = some q ∧ q.frame = some n ∧ v.entries s va = some e ∧
    (writable = true → e.has .writable = true)

omit [ReplacementPolicy π] in
theorem Sound.mapped_of_resident (h : v.Sound) (hp : v.pages s va = some page)
    (hf : page.frame.isSome) : v.Mapped s va false := by
  obtain ⟨n, hn⟩ := Option.isSome_iff_exists.mp hf
  obtain ⟨e, he⟩ := Option.isSome_iff_exists.mp (h.resident hp hn)
  exact ⟨page, n, e, hp, hn, he, (by simp)⟩

theorem mapped_of_seat {writable : Bool} {c : PageBytes}
    (hp : w.pages = (v.seat s n p writable c).pages)
    (he : w.entries = (v.seat s n p writable c).entries) : w.Mapped s p.va writable := by
  rw [pages_seat] at hp
  rw [entries_seat] at he
  refine ⟨{ p with frame := some n }, n, .remap none n writable, ?_, rfl, ?_, ?_⟩
  · rw [hp, setAt_self]
  · rw [he, setAt_self]
  · exact fun hw => (PageTableEntry.writable_remap ..).trans hw

omit [ReplacementPolicy π] in
theorem Filled.congr {backing backing' : Backing} {c : PageBytes} {swap : SwapSpace}
    (h : v.Filled backing c backing' swap) (hs : w.swap = v.swap) (hf : w.files = v.files) :
    w.Filled backing c backing' swap := by
  cases h with
  | uninit target source =>
    rw [← hs, ← hf]
    exact .uninit target source
  | blank source =>
    rw [← hs]
    exact .blank source
  | fetched h => exact .fetched (hs ▸ h)
  | file source evicted =>
    rw [← hs, ← hf]
    exact .file source evicted

omit [ReplacementPolicy π] in
theorem Filled.backing_eq {backing backing' : Backing} {c : PageBytes} {swap : SwapSpace}
    (h : v.Filled backing c backing' swap) : backing' = backing.filled := by
  cases h <;> rfl

omit [ReplacementPolicy π] in
theorem Filled.bytes_eq {backing backing' : Backing} {c : PageBytes} {swap : SwapSpace}
    (h : v.Filled backing c backing' swap)
    (hlt : ∀ k, backing.slot? = some k → k < v.swap.capacity) :
    c = backing.supply v.files v.swap.held := by
  cases h with
  | fetched hfetch => exact (SwapSpace.fetch_eq_ok hfetch (hlt _ rfl)).2.1
  | uninit | blank | file => rfl

omit [ReplacementPolicy π] in
/-- The slot that a page came from is free. -/
theorem Filled.slot_free {backing backing' : Backing} {c : PageBytes} {swap : SwapSpace}
    (h : v.Filled backing c backing' swap)
    (hlt : ∀ k, backing.slot? = some k → k < v.swap.capacity) {k : Nat}
    (hk : backing.slot? = some k) : ¬swap.Used k := by
  cases h with
  | fetched hfetch =>
    obtain ⟨-, -, -, -, hused, -⟩ := SwapSpace.fetch_eq_ok hfetch (hlt _ rfl)
    rw [hused]
    exact fun hin => hin.1 (Option.some.inj hk.symm)
  | uninit | blank | file => cases hk

/-- How a claim of a page of space `s` fails: before the space is asked for a mapping, or because it
refuses it. -/
inductive Misses (v : Memory π) (s : Nat) (page : Page) : Bool → MemoryError → Memory π → Prop
  | unasked {e : MemoryError} {w : Memory π} (hrests : Rests v w) (hp : w.pages s page.va = some page)
    (hheld : ∀ k, page.backing.slot? = some k → w.swap.held k = v.swap.held k) :
    Misses v s page false e w
  | refused {w : Memory π} (hrests : Rests v w)
    (hp : w.pages s page.va = some { page with backing := page.backing.filled })
    (hslot : ∀ k, page.backing.slot? = some k → ¬w.swap.Used k)
    (hr : ¬(v.willing s ∧ page.va < kernelBase ∧ v.size ≤ PageTableEntry.frameLimit)) :
    Misses v s page true .allocationExhausted w

theorem Misses.rests {asked : Bool} {e : MemoryError} (h : v.Misses s page asked e w) :
    Rests v w := by
  cases h with
  | unasked hrests => exact hrests
  | refused hrests => exact hrests

/-- Frame `n` is taken and filled. -/
abbrev occupied (v : Memory π) (n : Nat) (c : PageBytes) : Memory π :=
  (v.occupy n).setFrame n { (v.occupy n).frames n with contents := c }

/-- A frame that was taken and filled, and is given back. -/
theorem put_occupied (v : Memory π) (n : Nat) (c : PageBytes) : (v.occupied n c).put n = v.pass n c := by
  simp only [put, occupy, setFrame, Function.update_self, Function.update_idem, pass, if_true]
  rfl

/-- A frame that was taken and filled, and in which a page is installed. -/
theorem install_occupied (hn : v.frames n = .vacant (v.frames n).contents) (writable : Bool)
    (c : PageBytes) :
    (((v.occupied n c).setEntry s p.va (some (.remap none n writable))).setPage s p.va
      (some { p with frame := some n })).setFrame n
        { entry := ((v.occupy n).frames n).entry.put .pinned false
          refcount := 1
          owners := ((v.occupy n).frames n).owners ++ [⟨p.serial, s, p.va⟩]
          contents := c } = v.seat s n p writable c := by
  have hentry : ((CoreMapEntry.free.put .allocated true).put .pinned true).put .pinned false =
      CoreMapEntry.used := by decide
  have howners : (v.frames n).owners = [] := by
    rw [hn]
    rfl
  unfold seat
  simp only [occupy, setFrame, setPage, setEntry, Function.update_self, Function.update_idem, hentry,
    howners]
  rfl

omit [ReplacementPolicy π] in
theorem remap_of_ne {e : PageTableEntry} (he : e.frame ≠ n) (writable : Bool) :
    PageTableEntry.remap (some e) n writable = .remap none n writable := by
  simp only [PageTableEntry.remap, if_neg he]

/-- A frame that was taken and filled, and to which a page moves from a frame that others use. -/
theorem move_occupied {old : Nat} (h : v.Sound) (hn : (v.frames n).allocated = false)
    (hp : v.pages s p.va = some p) (hf : p.frame = some old) (hold : (v.frames old).refcount ≠ 1)
    (c : PageBytes) :
    ((((v.occupied n c).setEntry s p.va (some (.remap none n true))).release old s p.va).setPage s p.va
        (some { p with frame := some n })).setFrame n
          { entry := ((v.occupy n).frames n).entry.put .pinned false
            refcount := 1
            owners := ((v.occupy n).frames n).owners ++ [⟨p.serial, s, p.va⟩]
            contents := c } = (v.leave s old p).seat s n { p with frame := none } true c := by
  have hne : old ≠ n := by
    rintro rfl
    have := (h.resident_frame hp hf).1
    rw [h.free_iff] at hn
    omega
  have hentry : ((CoreMapEntry.free.put .allocated true).put .pinned true).put .pinned false =
      CoreMapEntry.used := by decide
  have howners : (v.frames n).owners = [] := by
    rw [h.eq_vacant hn]
    rfl
  have hpos := (h.resident_frame hp hf).1
  have hstate := h.state old
  rw [if_neg (by omega)] at hstate
  rw [h.leave_eq hp hf]
  unfold seat
  simp only [occupy, release, put, setFrame, setPage, setEntry, Function.update_self,
    Function.update_idem, Function.update_of_ne hne, hentry, howners, h.filter_owners hp old, hold, if_false,
    setAt_setAt, wordPred_of_pos hpos, hstate]
  rw [Function.update_comm hne.symm, Function.update_idem]
  rfl

end Memory

/-- A space that refuses a mapping has been asked for one more. -/
theorem Space.admission_map {s : Space} {va n : Nat} {writable : Bool}
    (h : (s.map va n writable).1 = false) :
    (s.map va n writable).2.admission = { s.admission with asked := s.admission.asked + 1 } := by
  unfold map at h ⊢
  split
  · rename_i hadmits
    rw [if_pos hadmits] at h
    cases hd : s.directory.map? va n writable with
    | none => rfl
    | some directory =>
      rw [hd] at h
      cases h
  · rfl

namespace Machine
variable {π : Type} {m : Machine π}

/-- Every space has been asked for as many mappings, and has granted as many, as before. -/
def Unasked (m₀ m : Machine π) : Prop := ∀ s, (m.space s).admission = (m₀.space s).admission

theorem aloof_unasked (m₀ : Machine π) : Aloof (Unasked m₀) where
  report _ _ hm := hm
  frames _ _ hm := hm
  swap _ _ hm := hm
  written _ hm := hm
  space m s f hf hm t := by
    rw [space_modifySpace]
    split
    · rename_i hat
      rw [(hf _).2, hm s, hat.1]
    · exact hm t

/-- A claim of a page of space `s` has failed with error `e`. Only if the mapping was refused has the
space been asked for one more. -/
def Missed [ReplacementPolicy π] (m : Machine π) (s : Nat) (page : Page) (e : MemoryError)
    (after : Machine π) : Prop :=
  ∃ asked, m.memory.Misses s page asked e after.memory ∧ (after.space s).admission =
    { (m.space s).admission with asked := (m.space s).admission.asked + asked.toNat }

theorem admission_map {s va n : Nat} {writable : Bool} (hs : s < m.spaces.size)
    (h : (m.map s va n writable).1 = false) :
    ((m.map s va n writable).2.space s).admission =
      { (m.space s).admission with asked := (m.space s).admission.asked + 1 } := by
  show ((m.modifySpace s fun _ => ((m.space s).map va n writable).2).space s).admission = _
  rw [space_modifySpace, if_pos ⟨rfl, hs⟩]
  exact Space.admission_map h

theorem space_abandon [ReplacementPolicy π] (n t : Nat) : (m.abandon n).space t = m.space t := by
  unfold abandon releaseFrame
  dsimp only
  split <;> rfl

end Machine

variable {π : Type} [ReplacementPolicy π] {m : Machine π} {s va : Nat} {page : Page}

/-- A page whose frame was taken, filled and mapped is installed there. -/
theorem Machine.memory_seated {v : Memory π} {n : Nat} {c : PageBytes} {swap : SwapSpace} {writable : Bool}
    {p : Page} (hfree : v.frames n = .vacant (v.frames n).contents) (hs : s < m.spaces.size)
    (hn : n < m.frames.size)
    (hm : m.memory = (({ v.occupied n c with swap } : Memory π).setPage s p.va (some p)).setEntry s p.va
      (some (.remap none n writable))) :
    ((m.putPage s { p with frame := some n }).install n p.serial s p.va).memory =
      { v.seat s n p writable c with swap } := by
  have hput := Machine.memory_putPage hs { p with frame := some n }
  rw [hm] at hput
  have hinstall := Machine.memory_install (m := m.putPage s { p with frame := some n }) (n := n) hn
    p.serial s p.va
  rw [hput] at hinstall
  rw [hinstall, ← Memory.install_occupied (s := s) (p := p) hfree writable c]
  simp only [Memory.setFrame, Memory.setPage, Memory.setEntry, Memory.occupy, setAt_setAt,
    Function.update_idem, Function.update_self]

/-- A page that comes in moves nowhere. -/
theorem Memory.Rests.seat {u v : Memory π} {n : Nat} {c : PageBytes} {swap : SwapSpace} {backing : Backing}
    (h : Memory.Rests u v) (hp : v.pages s page.va = some page) (hf : page.frame = none)
    (hfree : (v.frames n).allocated = false) (hlt : n < v.size) (hfit : n < PageTableEntry.frameLimit)
    (hfilled : v.Filled page.backing c backing swap) :
    Memory.Rests u { v.seat s n { page with backing } page.writable c with swap } := by
  refine h.rests (.of_step (.claimed hp hf hfree hlt hfit hfilled) (.of_setAt
    (Memory.pages_seat v s n { page with backing } page.writable c)
    (fun f => congrArg (·.transferLimits f) (Memory.files_seat ..)) ?_))
  intro _ p r k k' hp' hk
  rw [hp, Option.some.injEq] at hp'
  rw [← hp', hf] at hk
  cases hk

/-- The page cannot be read. The frame that was taken for it goes back. -/
theorem Machine.missed_unread {v : Memory π} {n : Nat} {c : PageBytes} {swap : SwapSpace} {e : MemoryError}
    {m₂ : Machine π} (h : m.memory.Valid) (hp : m.memory.pages s page.va = some page)
    (hy : m.memory.Yields v (some page.serial) n) (hagrees : v.swap.Agrees swap)
    (hm₂ : m₂.memory = { v.occupied n c with swap }) (hunasked : m.Unasked m₂) :
    m.Missed s page e (m₂.abandon n) := by
  have hback : (m₂.abandon n).memory = { v.pass n c with swap } := by
    rw [memory_abandon (lt_frames hm₂ hy.lt), hm₂, ← Memory.put_occupied]
    rfl
  have hpv := (hy.kept hp rfl).1
  refine ⟨false, .unasked ?_ ?_ fun k hk => ?_, (congrArg _ (space_abandon ..)).trans (hunasked s)⟩
  · rw [hback]
    exact hy.rests.rests ((Memory.Course.of_step (.passed hy.free) (.of_pages rfl fun _ => rfl)).step
      (.swap hagrees) (.of_pages rfl fun _ => rfl))
  · rw [hback]
    exact hpv
  · rw [hback]
    exact (hagrees.held k ((h.course hy.rests).used_of_slot hpv hk)).trans
      (hy.held k (h.used_of_slot hp hk))

/-- The page has come in, and its space refuses to map it. The frame that was taken for it goes back. -/
theorem Machine.missed_refused {v : Memory π} {n : Nat} {c : PageBytes} {swap : SwapSpace}
    {backing : Backing} {m₃ : Machine π} (h : m.memory.Valid)
    (hp : m.memory.pages s page.va = some page) (hf : page.frame = none)
    (hy : m.memory.Yields v (some page.serial) n) (hfilled : v.Filled page.backing c backing swap)
    (hm₃ : m₃.memory =
      ({ v.occupied n c with swap } : Memory π).setPage s page.va (some { page with backing }))
    (hrefused : ¬(v.willing s ∧ page.va < kernelBase ∧ n < PageTableEntry.frameLimit))
    (hasked : (m₃.space s).admission =
      { (m.space s).admission with asked := (m.space s).admission.asked + 1 }) :
    m.Missed s page .allocationExhausted (m₃.abandon n) := by
  have hafter : (m₃.abandon n).memory =
      { (v.pass n c).setPage s page.va (some { page with backing }) with swap } := by
    rw [memory_abandon (lt_frames hm₃ hy.lt), hm₃, ← Memory.put_occupied]
    rfl
  have hpv := (hy.kept hp rfl).1
  obtain ⟨-, hsize, hwilling⟩ : v.spaces = m.memory.spaces ∧ v.size = m.memory.size ∧
      v.willing = m.memory.willing := by
    simpa only [Memory.limits, Prod.mk.injEq] using hy.rests.evolves.limits_eq
  refine ⟨true, .refused ?_ ?_ ?_ ?_, (congrArg _ (space_abandon ..)).trans hasked⟩
  · rw [hafter]
    refine hy.rests.rests (.of_step (.refused hpv hf hy.free hy.lt hfilled hrefused) ?_)
    refine .of_setAt (show _ = setAt v.pages s page.va _ from rfl) (fun _ => rfl) ?_
    rintro - p q k k' - - ⟨⟩ hk'
    cases hf.symm.trans hk'
  · rw [hafter, ← hfilled.backing_eq]
    exact setAt_self
  · rw [hafter]
    exact fun k hk => hfilled.slot_free ((h.course hy.rests).slot_lt hpv) hk
  · rintro ⟨hyes, huser, hfit⟩
    rw [← hwilling] at hyes
    rw [← hsize] at hfit
    exact hrefused ⟨hyes, huser, Nat.lt_of_lt_of_le hy.lt hfit⟩

/-- Once a frame is found, a page that is not resident is filled and put into it. -/
theorem claimPage_seats (h : m.memory.Valid) (hp : m.memory.pages s page.va = some page)
    (hf : page.frame = none) :
    Attempt.Ends False (claimPage s page) m
      (fun _ after => ∃ v n backing c swap, Memory.Rests m.memory v ∧ v.Valid ∧
        v.pages s page.va = some page ∧
        (∀ k, m.memory.swap.Used k → v.swap.held k = m.memory.swap.held k) ∧
        (v.frames n).allocated = false ∧ n < v.size ∧
        n < PageTableEntry.frameLimit ∧ v.Filled page.backing c backing swap ∧
        after.memory = { v.seat s n { page with backing } page.writable c with swap })
      fun e after => e ≠ .invalidMapping ∧ m.Missed s page e after := by
  have haloof := Machine.aloof_unasked m
  simp only [claimPage, Attempt.ends_bind, Attempt.ends_ite, Attempt.ends_pure]
  refine ⟨fun hres => absurd hres (by simp [Page.isResident, hf]), fun _ => ?_⟩
  refine ((acquire_ends h (some page.serial)).and
    ((acquire_aloof haloof _).ends m fun _ => rfl)).imp ?_ ?_
  swap
  · -- No frame was found.
    rintro e after ⟨⟨he, hunmoved⟩, hunasked⟩
    exact ⟨he, false, .unasked hunmoved.rests (hunmoved.pages ▸ hp)
      fun k hk => hunmoved.held k (h.used_of_slot hp hk), hunasked s⟩
  rintro n m₁ ⟨⟨v, hy, hm₁⟩, hunasked₁⟩
  have hvalid := h.course hy.rests
  have hpv := (hy.kept hp rfl).1
  have hn₁ : n < m₁.frames.size := Machine.lt_frames hm₁ hy.lt
  have hslot : ∀ slot, page.backing.slot? = some slot → slot < m₁.swap.capacity := by
    intro slot hslot
    have hcap : m₁.swap.capacity = v.swap.capacity := congrArg (·.swap.capacity) hm₁
    exact hcap ▸ hvalid.slot_lt hpv slot hslot
  have hzero : (m₁.memory.frames n).contents = zeroPage := by
    rw [hm₁]
    simp [Memory.occupy, Memory.setFrame]
  rw [Attempt.ends_tryCatch]
  refine ((materialize_ends hn₁ hslot hzero).and
    ((haloof.heedless.materialize _).ends m₁ hunasked₁)).imp ?_ ?_
  · -- The page is filled, and the space is asked to map it.
    rintro backing m₂ ⟨⟨c, swap, hfilled, hm₂⟩, hunasked₂⟩
    rw [hm₁] at hm₂ hfilled
    have hfilled : v.Filled page.backing c backing swap := hfilled.congr rfl rfl
    obtain ⟨_, hva, hs, _⟩ := hvalid.sound.kept hpv
    have hs₂ : s < m₂.spaces.size := Machine.lt_spaces hm₂ hs
    have hn₂ : n < m₂.frames.size := Machine.lt_frames hm₂ hy.lt
    have hput := Machine.memory_putPage hs₂ { page with backing }
    rw [hm₂] at hput
    simp only [Attempt.ends_modify, Attempt.ends_modifyGet]
    have hsput : s < (m₂.putPage s { page with backing }).spaces.size := by simpa using hs₂
    have hmapped := Machine.map_cases hsput page.va n page.writable
    rw [pageDown_eq_self hva] at hmapped
    obtain ⟨hdone, -, hfit, hmap⟩ | ⟨hdone, hmap, hrefused⟩ := hmapped
    · refine ⟨fun _ => ?_, fun hnot => absurd hdone hnot⟩
      have hnone : (m₂.putPage s { page with backing }).memory.entries s page.va = none := by
        rw [hput]
        exact hvalid.sound.entry_eq_none hpv hf
      rw [hnone, hput] at hmap
      generalize hm₃ : ((m₂.putPage s { page with backing }).map s page.va n page.writable).2 = m₃ at hmap
      have hs₃ : s < m₃.spaces.size := by
        rw [← hm₃]
        simpa using hs₂
      have hn₃ : n < m₃.frames.size := by
        rw [← hm₃, Machine.frames_map]
        exact hn₂
      rw [Machine.memory_report, Machine.memory_seated (p := { page with backing })
        (hvalid.sound.eq_vacant hy.free) hs₃ hn₃ hmap]
      exact ⟨v, n, backing, c, swap, hy.rests, hvalid, hpv, hy.held, hy.free, hy.lt, hfit, hfilled, rfl⟩
    · refine ⟨fun hyes => absurd (hdone.symm.trans hyes) (by simp), fun _ => ?_⟩
      have hasked := Machine.admission_map hsput hdone
      have hunasked : m.Unasked (m₂.putPage s { page with backing }) :=
        haloof.space m₂ s (fun _ => ⟨rfl, rfl⟩) hunasked₂
      rw [hunasked s] at hasked
      rw [hput] at hmap hrefused
      exact ⟨(by simp), Machine.missed_refused h hp hf hy hfilled hmap hrefused hasked⟩
  · rintro e m₂ ⟨⟨he, c, swap, hagrees, hm₂⟩, hunasked₂⟩
    rw [hm₁] at hagrees hm₂
    simp only [Attempt.ends_bind, Attempt.ends_modify, Attempt.ends_throw]
    exact ⟨he, Machine.missed_unread h hp hy hagrees hm₂ hunasked₂⟩

theorem claimPage_ends (h : m.memory.Valid) (hp : m.memory.pages s page.va = some page) :
    Attempt.Ends False (claimPage s page) m
      (fun _ after => Memory.Rests m.memory after.memory ∧
        after.memory.Mapped s page.va (page.writable && page.frame.isNone))
      fun e after => e ≠ .invalidMapping ∧ Memory.Rests m.memory after.memory := by
  cases hf : page.frame with
  | some n =>
    have hres : page.isResident = true := by simp [Page.isResident, hf]
    simp only [claimPage, if_pos hres, Attempt.ends_pure, Option.isNone_some, Bool.and_false]
    exact ⟨.refl _, h.sound.mapped_of_resident hp (by rw [hf]; rfl)⟩
  | none =>
    rw [Option.isNone_none, Bool.and_true]
    refine (claimPage_seats h hp hf).imp ?_ fun _ _ ⟨he, _, hmisses, _⟩ => ⟨he, hmisses.rests⟩
    rintro _ after ⟨v, n, backing, c, swap, hrests, -, hpv, -, hfree, hlt, hfit, hfilled, hafter⟩
    rw [hafter]
    exact ⟨hrests.seat hpv hf hfree hlt hfit hfilled,
      Memory.mapped_of_seat (p := { page with backing }) rfl rfl⟩

/-- A page whose own frame was taken, filled and mapped moves there from the frame that it shared. -/
theorem Machine.memory_moved {v : Memory π} {old n : Nat} {c : PageBytes} (h : v.Sound)
    (hp : v.pages s page.va = some page) (hf : page.frame = some old)
    (hold : (v.frames old).refcount ≠ 1) (hfree : (v.frames n).allocated = false) (hn : n < v.size)
    (hm : m.memory = (v.occupied n c).setEntry s page.va (some (.remap none n true))) :
    (((m.release old s page.va).putPage s { page with frame := some n }).install n page.serial s
      page.va).memory = (v.leave s old page).seat s n { page with frame := none } true c := by
  obtain ⟨hpos, hlt⟩ := h.resident_frame hp hf
  have hne : n ≠ old := by
    rintro rfl
    rw [h.free_iff] at hfree
    omega
  have hs : s < m.spaces.size := lt_spaces hm (h.kept hp).2.2.1
  have hn : n < m.frames.size := lt_frames hm hn
  have hrelease := memory_release (lt_frames hm hlt) s page.va
  generalize m.release old s page.va = m' at hrelease
  have hs : s < m'.spaces.size := Nat.lt_of_lt_of_eq hs (congrArg Memory.spaces hrelease).symm
  have hn : n < m'.frames.size := Nat.lt_of_lt_of_eq hn (congrArg Memory.size hrelease).symm
  have hput := memory_putPage hs { page with frame := some n }
  have hinstall := memory_install (m := m'.putPage s { page with frame := some n }) (n := n) hn
    page.serial s page.va
  rw [hinstall, hput, hrelease, hm, ← Memory.move_occupied h hfree hp hf hold]
  simp only [Memory.release, Memory.put, Memory.setFrame, Memory.setPage, Memory.setEntry,
    Memory.occupy, Function.update_self, Function.update_of_ne hne]

/-- Once a frame is found, a page is copied into it from the frame that it shared. If its space refuses to
map it there, the new frame goes back. -/
theorem copyOnWrite_moves {old : Nat} (h : m.memory.Valid)
    (hp : m.memory.pages s page.va = some page) (hf : page.frame = some old)
    (hold : (m.memory.frames old).refcount ≠ 1) :
    Attempt.Ends False (copyOnWrite s page old) m
      (fun _ after => ∃ v n, m.memory.Yields v (some page.serial) n ∧ m.memory.Clears v n ∧
        n < PageTableEntry.frameLimit ∧ after.memory =
          (v.leave s old page).seat s n { page with frame := none } true (m.memory.frames old).contents)
      fun e after => e ≠ .invalidMapping ∧
        (m.memory.Unmoved after.memory ∧ m.memory.Idles after.memory ∨
          ∃ v n, m.memory.Yields v (some page.serial) n ∧ m.memory.Clears v n ∧
            after.memory = v.pass n (m.memory.frames old).contents) := by
  simp only [copyOnWrite, Attempt.ends_bind]
  refine ((acquire_ends h (some page.serial)).and (acquire_clears h (some page.serial))).imp ?_
    fun _ _ he => ⟨he.1.1, .inl ⟨he.1.2, he.2⟩⟩
  rintro n m₁ ⟨⟨v, hy, hm₁⟩, hclears₁⟩
  have hclears : m.memory.Clears v n := by
    rw [hm₁] at hclears₁
    exact hclears₁.congr rfl rfl fun k hk => (Function.update_of_ne hk ..).symm
  have hvalid := h.course hy.rests
  obtain ⟨hpv, -, hframes⟩ := hy.kept hp rfl
  have hframe : v.frames old = m.memory.frames old := hframes old hf
  rw [← hframe] at hold ⊢
  obtain ⟨_, hva, hs, _⟩ := hvalid.sound.kept hpv
  have hne : old ≠ n := by
    rintro rfl
    have := (hvalid.sound.resident_frame hpv hf).1
    have := (hvalid.sound.free_iff _).mp hy.free
    omega
  have hn₁ : n < m₁.frames.size := Machine.lt_frames hm₁ hy.lt
  have hs₁ : s < m₁.spaces.size := Machine.lt_spaces hm₁ hs
  have hcontents : m₁.contents old = (v.frames old).contents := by
    rw [Machine.contents_eq, hm₁]
    simp [Memory.occupy, Memory.setFrame, hne]
  have hfill := Machine.memory_setContents hn₁ (m₁.contents old)
  rw [hm₁, hcontents] at hfill
  have hn₂ : n < (m₁.setContents n (v.frames old).contents).frames.size := Machine.lt_frames hfill hy.lt
  simp only [Attempt.ends_modify, Attempt.ends_modifyGet, Attempt.ends_ite, hcontents]
  have hmapped := Machine.map_cases (m := m₁.setContents n (v.frames old).contents) hs₁ page.va n true
  rw [pageDown_eq_self hva] at hmapped
  obtain ⟨hdone, -, hfit, hmap⟩ | ⟨hdone, hmap, hrefused⟩ := hmapped
  · refine ⟨fun _ => ⟨v, n, hy, hclears, hfit, ?_⟩, fun hnot => absurd hdone hnot⟩
    obtain ⟨e, he⟩ := Option.isSome_iff_exists.mp (hvalid.sound.resident hpv hf)
    have hremap : PageTableEntry.remap ((m₁.setContents n (v.frames old).contents).memory.entries s page.va)
        n true = .remap none n true := by
      have hentry : (m₁.setContents n (v.frames old).contents).memory.entries s page.va = some e := by
        rw [hfill]
        exact he
      rw [hentry, Memory.remap_of_ne (by rw [hvalid.sound.frame_eq hpv hf he]; exact hne)]
    rw [hremap, hfill] at hmap
    rw [Machine.memory_report, Machine.memory_moved hvalid.sound hpv hf hold hy.free hy.lt hmap]
  · refine ⟨fun hyes => absurd (hdone.symm.trans hyes) (by simp), fun _ => ?_⟩
    have hback := Machine.memory_abandon
      (m := ((m₁.setContents n (v.frames old).contents).map s page.va n true).2) (n := n) hn₂
    rw [hmap, hfill, Memory.put_occupied] at hback
    exact ⟨(by simp), .inr ⟨v, n, hy, hclears, hback⟩⟩

/-- A page moves from a shared frame to one of its own. -/
theorem copyOnWrite_ends {old : Nat} (h : m.memory.Valid) (hp : m.memory.pages s page.va = some page)
    (hf : page.frame = some old) (hw : page.writable = true)
    (hold : (m.memory.frames old).refcount ≠ 1) :
    Attempt.Ends False (copyOnWrite s page old) m
      (fun _ after => Memory.Course (fun t a => t = s ∧ a = page.va) [] m.memory after.memory ∧
        after.memory.Mapped s page.va true)
      fun e after => e ≠ .invalidMapping ∧ Memory.Rests m.memory after.memory := by
  refine (copyOnWrite_moves h hp hf hold).imp ?_ ?_
  · rintro _ after ⟨v, n, hy, -, hfit, hafter⟩
    obtain ⟨hpv, -, hframes⟩ := hy.kept hp rfl
    rw [← hframes old hf] at hold hafter
    have hsteady : Memory.Steady (fun t a => t = s ∧ a = page.va) v
        ((v.leave s old page).seat s n { page with frame := none } true (v.frames old).contents) := by
      refine .of_setAt (Memory.pages_move v s old page n (v.frames old).contents) (fun f => ?_)
        fun hout => absurd ⟨rfl, rfl⟩ hout
      rw [Memory.files_seat, Memory.files_leave]
    rw [hafter]
    exact ⟨(Memory.Course.of_quiet hy.rests).trans
      (.of_step (.moved hpv hf hw hold hy.free hy.lt hfit) hsteady),
      Memory.mapped_of_seat (p := { page with frame := none }) rfl rfl⟩
  · rintro e after ⟨he, ⟨hunmoved, -⟩ | ⟨v, n, hy, -, hafter⟩⟩
    · exact ⟨he, hunmoved.rests⟩
    · rw [hafter]
      exact ⟨he, hy.rests.rests (.of_step (.passed hy.free) (.of_pages rfl fun _ => rfl))⟩

/-- A write to a page that may be written finds it in a frame of its own, to which it has moved if it
shared one. -/
theorem unprotect_ends (h : m.memory.Valid) (hp : m.memory.pages s page.va = some page)
    (hw : page.writable = true) :
    Attempt.Ends False (unprotect s page) m
      (fun _ after => Memory.Course (fun t a => t = s ∧ a = page.va ∧ m.memory.Shared s page.va) []
        m.memory after.memory ∧ after.memory.Mapped s page.va true)
      fun e after => e ≠ .invalidMapping ∧ Memory.Rests m.memory after.memory := by
  cases hf : page.frame with
  | none =>
    simp only [unprotect, hf]
    refine (claimPage_ends h hp).imp ?_ fun _ _ he => he
    rintro _ after ⟨hrests, hmapped⟩
    rw [hw, hf] at hmapped
    exact ⟨.of_quiet hrests, hmapped⟩
  | some old =>
    simp only [unprotect, hf, Attempt.ends_bind, Attempt.ends_get, Attempt.ends_ite]
    refine ⟨fun hone => ?_, fun hold => ?_⟩
    · simp only [Attempt.ends_modifyGet, Attempt.ends_modify, Attempt.ends_throw]
      obtain ⟨_, hva, hs, _⟩ := h.sound.kept hp
      have hmapped := Machine.map_cases hs page.va old true
      rw [pageDown_eq_self hva] at hmapped
      obtain ⟨hdone, -, hfit, hmap⟩ | ⟨hdone, hmap, -⟩ := hmapped
      · refine ⟨fun _ => ?_, fun hnot => absurd hdone hnot⟩
        obtain ⟨e, he⟩ := Option.isSome_iff_exists.mp (h.sound.resident hp hf)
        rw [Machine.memory_report, hmap, he]
        refine ⟨.of_step (.unshared hp hf hw hone he) (.of_pages rfl fun _ => rfl),
          page, old, _, hp, hf, setAt_self, fun _ => ?_⟩
        exact PageTableEntry.writable_remap ..
      · refine ⟨fun hyes => absurd (hdone.symm.trans hyes) (by simp), fun _ => ⟨(by simp), ?_⟩⟩
        rw [hmap]
        exact .refl _
    · refine (copyOnWrite_ends h hp hf hw hold).imp ?_ fun _ _ he => he
      rintro _ after ⟨hcourse, hmapped⟩
      exact ⟨hcourse.mono fun t a hat => ⟨hat.1, hat.2, page, old, hp, hf, hold⟩, hmapped⟩

end DemandPaging
