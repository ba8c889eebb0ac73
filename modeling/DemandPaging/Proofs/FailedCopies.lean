import DemandPaging.Proofs.FailedForks
import DemandPaging.Proofs.RawMappings

/-! # Copies that fail

A copy of a space can fail at any page: a slot cannot be copied, or one of the two spaces refuses a
mapping. Once the space that it was made for has been emptied everything is as it was, with one
exception. A copy that is refused a raw mapping gives its file handle back, but not the slot that was
copied for it, and as it is in no table nobody else does.
-/
namespace DemandPaging
open Memory (Lent LentBeside Overlaid Remapped Restored)

variable {π : Type} {m now after : Machine π} {v₀ v : Memory π} {s c : Nat} {page : Page}

namespace Standing

theorem releaseAll_perm (st : Standing) {pages pages' : List Page} (h : pages.Perm pages') :
    st.releaseAll pages = st.releaseAll pages' := by
  refine Standing.ext ?_ (funext fun f => ?_)
  · rw [processes_releaseAll, processes_releaseAll]
  · rw [handles_releaseAll, handles_releaseAll, h.countP_eq]

theorem releaseAll_cons_retain (st : Standing) (page : Page) (pages : List Page) :
    (st.retain page.source).releaseAll (page :: pages) = st.releaseAll pages := by
  rw [releaseAll, List.foldl_cons, release_retain, releaseAll]

end Standing

/-- A page more in a table. -/
theorem Machine.values_perm (page : Page) (h : ∀ a p, now.memory.pages c a = some p → p.va = a)
    (hnone : now.memory.pages c page.va = none)
    (hpages : after.memory.pages = setAt now.memory.pages c page.va (some page)) :
    (after.space c).pages.values.Perm (page :: (now.space c).pages.values) := by
  have hafter (a : Nat) : after.memory.pages c a = if a = page.va then some page else now.memory.pages c a := by
    rw [hpages, setAt_apply]
    simp
  obtain ⟨hmem, hnodup⟩ := Machine.of_values h
  obtain ⟨hmem', hnodup'⟩ := Machine.of_values (m := after) (s := c) fun a p hp => by
    rw [hafter] at hp
    split at hp
    · rename_i ha
      rw [← Option.some.inj hp, ha]
    · exact h a p hp
  have hnot : page ∉ (now.space c).pages.values := fun hp => by
    rw [hmem, hnone] at hp
    cases hp
  refine (List.perm_ext_iff_of_nodup (.of_map _ hnodup') (List.nodup_cons.mpr ⟨hnot, .of_map _ hnodup⟩)).mpr ?_
  intro p
  rw [hmem', hafter, List.mem_cons, hmem]
  split
  · rename_i ha
    rw [ha, hnone]
    simp [eq_comm]
  · rename_i ha
    simp [show p ≠ page from fun heq => ha (heq ▸ rfl)]

/-- A backing and its copy, which differ in the slot alone. The slot of the copy was not in use before, and
holds what that of the original held. -/
inductive Backing.Copied (before after : SwapSpace) : Backing → Backing → Prop
  | same {backing : Backing} (h : backing.slot? = none) : Copied before after backing backing
  | slot {source : Source} {slot copy : Nat} (hfresh : ¬before.Used copy) (hused : after.Used copy)
    (hheld : after.held copy = before.held slot) :
    Copied before after (.anonymous source (some slot)) (.anonymous source (some copy))

theorem Backing.Copied.of_slot {before after : SwapSpace} {backing copy : Backing} {k : Nat}
    (h : backing.Copied before after copy) (hk : copy.slot? = some k) :
    ∃ slot, backing.slot? = some slot ∧ ¬before.Used k ∧ after.Used k ∧ after.held k = before.held slot := by
  cases h with
  | same hnone => cases hnone.symm.trans hk
  | slot hfresh hused hheld =>
    cases hk
    exact ⟨_, rfl, hfresh, hused, hheld⟩

/-- Slot `k` is a copy of the slot of a page of space `s`, where that space has a raw mapping. -/
def Machine.Stray (m : Machine π) (s k : Nat) (swap : SwapSpace) : Prop :=
  ∃ a p slot, m.memory.pages s a = some p ∧ p.backing.slot? = some slot ∧
    (m.memory.entries s a).isSome ∧ swap.held k = m.swap.held slot

/-- A machine with raw mappings, beside valid memory without them, and nothing in space `c`. -/
structure Machine.Unlent (c : Nat) (v₀ : Memory π) (m : Machine π) : Prop where
  valid : v₀.Valid
  plain : v₀.Plain
  empty : ∀ a, v₀.pages c a = none
  overlaid : v₀.Overlaid c m.memory
  pages : m.memory.pages = v₀.pages
  swap : m.swap = v₀.swap

/-- What has been lent on the way from one machine to another, beside the memory without raw mappings.
The machine stands as before but for the handles of the copies. -/
structure Machine.Lending (s c : Nat) (v₀ : Memory π) (m : Machine π) (v : Memory π) (now : Machine π) :
    Prop where
  beside : LentBeside s c v₀ m.memory v now.memory
  pages : now.memory.pages = v.pages
  standing : now.standing.releaseAll (now.space c).pages.values = m.standing

/-- A copy has failed on the way: pages are on loan, and a slot may be stray. -/
def Machine.Stopped (s c : Nat) (v₀ : Memory π) (m after : Machine π) : Prop :=
  ∃ u stray, m.Lending s c v₀ u after ∧ u.swap.Spills stray after.swap ∧
    ∀ k, stray = some k → m.Stray s k after.swap

namespace Memory
variable {w : Memory π} {backing copy : Backing} {swap : SwapSpace}

theorem Duplicated.of_swap (h : w.Duplicated backing copy swap) (hswap : w.swap = v.swap) :
    v.Duplicated backing copy swap := by
  cases h with
  | slot h => exact .slot (hswap ▸ h)
  | same h => exact hswap ▸ .same h

/-- What is copied besides the handle is a slot, if there is one, with all that it holds. -/
theorem Duplicated.spills (h : v.Duplicated backing copy swap) (hfits : v.swap.Fits)
    (hlt : ∀ slot, backing.slot? = some slot → slot < v.swap.capacity) :
    v.swap.Spills copy.slot? swap ∧ backing.Copied v.swap swap copy := by
  cases h with
  | @slot source slot k swap hdup =>
    obtain ⟨hfree, -, hused, hheld, hcopy⟩ := SwapSpace.duplicate_eq_ok hdup (hlt slot rfl) hfits
    refine ⟨⟨fun j => ?_, ?_, fun j hj => ?_⟩, .slot hfree ((hused k).mpr (.inl rfl)) hcopy⟩
    · rw [hused, Backing.slot?, Option.some.injEq, eq_comm, or_comm]
    · rintro j ⟨⟩
      exact hfree
    · exact hheld j (fun heq => hfree (heq ▸ hj)) hj
  | same hnone => exact ⟨by rw [hnone]; exact .refl _, .same hnone⟩

end Memory

variable [ReplacementPolicy π]

/-- Nothing more was lent, but for serials and slots that no page has. -/
theorem Machine.Lending.spared {u : Memory π} (hm : m.Unlent c v₀) (h : m.Lending s c v₀ v now)
    (hs : v.Spared u)
    (hafter : after.memory =
      { now.memory with nextSerial := u.nextSerial, swap := after.memory.swap, files := u.files })
    (hst : after.standing = now.standing) : m.Lending s c v₀ u after := by
  have hpages : after.memory.pages = now.memory.pages := by rw [hafter]
  have hover := h.beside.overlaid.spared u.nextSerial u.swap after.memory.swap u.files
  rw [← hs.same, ← hafter] at hover
  refine ⟨h.beside.spared hm.valid hm.empty hs hover (by rw [hafter]), ?_, ?_⟩
  · rw [hpages, h.pages, hs.same]
  · rw [hst, tables_eq hpages]
    exact h.standing

/-- One page more was lent. -/
theorem Machine.Lending.copied {backing : Backing} {swap : SwapSpace} (hm : m.Unlent c v₀)
    (h : m.Lending s c v₀ v now) (hne : s ≠ c) (hc : c < v.spaces)
    (hp : v.pages s page.va = some page) (hd : v.pages c page.va = none)
    (huser : ∀ n, page.frame = some n → page.va < kernelBase ∧ n < PageTableEntry.frameLimit)
    (hb : v.Duplicated page.backing backing swap)
    (hafter : after.memory = ({ now.memory with
      swap, files := now.memory.files.retainSource backing.source } : Memory π).linked s c page backing)
    (hst : after.standing = now.standing.retain page.source) :
    m.Lending s c v₀ (v.adopt s c page backing swap) after := by
  have hserial := h.beside.overlaid.nextSerial_eq
  have hpages : after.memory.pages =
      setAt now.memory.pages c page.va (some { page with serial := v.nextSerial, backing }) := by
    rw [hafter, Memory.pages_linked, hserial]
  refine ⟨?_, ?_, ?_⟩
  · rw [hafter]
    exact h.beside.copied hm.valid hm.plain hm.empty hne hc hp hd huser hb
  · rw [hpages, Memory.pages_adopt, h.pages]
  · have hkept (a : Nat) (p : Page) (hp : now.memory.pages c a = some p) : p.va = a :=
      (h.beside.valid.sound.kept (h.pages ▸ hp)).1
    have hperm := Machine.values_perm { page with serial := v.nextSerial, backing } hkept
      (by rw [h.pages]; exact hd) hpages
    have hsource : page.source = ({ page with serial := v.nextSerial, backing } : Page).source :=
      hb.outline_eq.1.symm
    rw [Standing.releaseAll_perm _ hperm, hst, hsource, Standing.releaseAll_cons_retain]
    exact h.standing

/-- A copy that is refused what its original is mapped to gives back its handle, but no slot. -/
theorem Machine.Lending.refused {backing : Backing} {swap : SwapSpace} (hm : m.Unlent c v₀)
    (h : m.Lending s c v₀ v now) (hne : s ≠ c) (hp : v.pages s page.va = some page)
    (hb : v.Duplicated page.backing backing swap)
    (hmapped : page.frame = none → (now.memory.entries s page.va).isSome)
    (hafter : after.memory = { now.memory with
      nextSerial := v.nextSerial + 1, swap,
      files := (v.files.retainSource backing.source).releaseSource backing.source })
    (hst : after.standing = now.standing) : m.Stopped s c v₀ after := by
  have hvalid := h.beside.valid
  have hswap : after.swap = swap := congrArg Memory.swap hafter
  obtain ⟨hspills, hcopy⟩ := hb.spills hvalid.stowed.fits fun slot => hvalid.slot_lt hp slot
  let u := { v with
    nextSerial := v.nextSerial + 1
    files := (v.files.retainSource backing.source).releaseSource backing.source }
  have hspared : v.Spared u := by
    refine ⟨rfl, Nat.le_succ _, .refl _, fun f => ?_, fun f => ?_⟩
    · exact (FileStore.contents_releaseSource ..).trans (FileStore.contents_retainSource ..)
    · exact (FileStore.transferLimits_releaseSource _).trans (FileStore.transferLimits_retainSource _)
  have hlending : m.Lending s c v₀ u after := by
    refine h.spared hm hspared ?_ hst
    rw [hafter]
  refine ⟨u, backing.slot?, hlending, hswap ▸ hspills, fun k hk => ?_⟩
  obtain ⟨slot, hslot, -, -, hheld⟩ := hcopy.of_slot hk
  have hp₀ : v₀.pages s page.va = some page := by rw [← h.beside.lent.pages s _ hne, hp]
  have hused : v₀.swap.Used slot := (hm.valid.stowed.used slot).mpr ⟨s, page.va, by
    rw [Memory.Stowed.slotAt_eq hp₀, hslot]⟩
  have hframe : page.frame = none := by
    cases hf : page.frame with
    | none => rfl
    | some n => cases (hvalid.stowed.apart hp (hf ▸ rfl)).symm.trans hslot
  refine ⟨page.va, page, slot, hm.pages ▸ hp₀, hslot, ?_, ?_⟩
  · have hsome := hmapped hframe
    rwa [← Option.isSome_map, h.beside.remapped.frames s page.va hne, Option.isSome_map] at hsome
  · rw [hswap, hheld, h.beside.lent.held slot hused, hm.swap]

theorem linkCopy_lending {backing : Backing} {swap : SwapSpace} {m₁ : Machine π} (hm : m.Unlent c v₀)
    (h : m.Lending s c v₀ v now) (hne : s ≠ c) (hc : c < now.spaces.size)
    (hp : v.pages s page.va = some page) (hd : v.pages c page.va = none)
    (hb : v.Duplicated page.backing backing swap)
    (hm₁ : m₁.memory = { now.memory with
      swap, files := now.memory.files.retainSource backing.source })
    (hst₁ : m₁.standing = now.standing.retain page.source) :
    Attempt.Ends False (linkCopy s c page.va page backing) m₁
      (fun _ after => m.Lending s c v₀ (v.adopt s c page backing swap) after ∧ after.memory.swap = swap)
      fun _ after => m.Stopped s c v₀ after := by
  have hvalid := h.beside.valid
  have hover := h.beside.overlaid
  obtain ⟨-, hva, hs, -⟩ := hvalid.sound.kept hp
  have hs₁ : s < m₁.spaces.size := Machine.lt_spaces hm₁ (Nat.lt_of_lt_of_eq hs hover.spaces_eq.symm)
  have hn₁ (n : Nat) (hn : page.frame = some n) : n < m₁.frames.size :=
    Machine.lt_frames hm₁ (Nat.lt_of_lt_of_eq (hvalid.sound.resident_frame hp hn).2 hover.size_eq.symm)
  have hentry : m₁.memory.entries c page.va = none := by
    rw [hm₁]
    exact hover.bare hd
  have hnone : m₁.memory.pages c page.va = none := by rw [hm₁, h.pages, hd]
  have hlink := linkCopy_links backing hs₁ (Machine.lt_spaces hm₁ hc) hne hva hn₁ hentry hnone
  refine (hlink.and (linkCopy_stands s c backing)).imp ?_ ?_
  · rintro _ after ⟨⟨huser, hafter⟩, hst⟩
    rw [hm₁] at hafter
    have hlt : c < v.spaces := Nat.lt_of_lt_of_eq hc hover.spaces_eq
    refine ⟨h.copied hm hne hlt hp hd huser hb hafter (hst.trans hst₁), ?_⟩
    rw [hafter, Memory.swap_linked]
  · rintro e after ⟨⟨hmapped, hafter⟩, hst⟩
    rw [hm₁, hover.nextSerial_eq, hover.files_eq] at hafter
    rw [hm₁] at hmapped
    refine h.refused hm hne hp hb hmapped hafter ?_
    rw [hst, hst₁, hb.outline_eq.1]
    exact Standing.release_retain ..

/-- Copying stops at the first page that cannot be copied. -/
theorem copyPages_lending {pages : List (Nat × Page)} (hm : m.Unlent c v₀) (h : m.Lending s c v₀ v now)
    (hswap : now.memory.swap = v.swap) (hc : c < now.spaces.size) (hne : s ≠ c)
    (hp : ∀ e ∈ pages, v.pages s e.1 = some e.2) (hd : ∀ e ∈ pages, v.pages c e.1 = none)
    (hnodup : (pages.map Prod.fst).Nodup) :
    Attempt.Ends False (copyPages s c pages) now (fun _ _ => True) fun _ after =>
      m.Stopped s c v₀ after := by
  induction pages generalizing v now with
  | nil => exact trivial
  | cons e rest ih =>
    obtain ⟨a, page⟩ := e
    have hpage : v.pages s a = some page := hp _ (List.mem_cons_self ..)
    have hvalid := h.beside.valid
    have hover := h.beside.overlaid
    obtain rfl := (hvalid.sound.kept hpage).1
    have hnone : v.pages c page.va = none := hd _ (List.mem_cons_self ..)
    simp only [List.map_cons, List.nodup_cons] at hnodup
    simp only [copyPages, Attempt.ends_bind]
    have hswap₀ : now.swap = v.swap := hswap
    have hfits : now.swap.Fits := hswap₀ ▸ hvalid.stowed.fits
    have hlt (slot : Nat) (hslot : page.backing.slot? = some slot) : slot < now.swap.capacity :=
      hswap₀ ▸ hvalid.slot_lt hpage slot hslot
    refine ((duplicateBacking_ends hfits hlt).and (duplicateBacking_stands page.backing)).imp ?_ ?_
    · rintro backing m₁ ⟨⟨swap, hb, hm₁⟩, -, hst₁⟩
      refine (linkCopy_lending hm h hne hc hpage hnone (hb.of_swap hswap) hm₁ hst₁).imp ?_ fun _ _ he => he
      rintro _ m₂ ⟨hlending, hswap₂⟩
      have hpages (t b : Nat) (hne : ¬(t = c ∧ b = page.va)) :
          (v.adopt s c page backing swap).pages t b = v.pages t b := by
        rw [Memory.pages_adopt, setAt_of_ne hne]
      refine ih hlending ?_ ?_ ?_ ?_ hnodup.2
      · rw [hswap₂, Memory.swap_adopt]
      · have hlimits := congrArg (·.1) (Memory.limits_adopt v s c page backing swap)
        have hspaces := hlending.beside.overlaid.spaces_eq.trans (hlimits.trans hover.spaces_eq.symm)
        exact Nat.lt_of_lt_of_eq hc hspaces.symm
      · intro e he
        rw [hpages _ _ fun hat => hne hat.1]
        exact hp e (List.mem_cons_of_mem _ he)
      · intro e he
        rw [hpages _ _ fun hat => hnodup.1 (hat.2 ▸ List.mem_map_of_mem he)]
        exact hd e (List.mem_cons_of_mem _ he)
    · rintro e after ⟨hspared, hst⟩
      let u := { v with nextSerial := after.memory.nextSerial, swap := after.swap, files := after.files }
      have hu : v.Spared u := by
        obtain ⟨-, hle, hagrees, hcontents, htransfers⟩ := hspared
        rw [hover.nextSerial_eq] at hle
        rw [hswap] at hagrees
        rw [hover.files_eq] at hcontents htransfers
        exact ⟨rfl, hle, hagrees, hcontents, htransfers⟩
      refine ⟨u, none, h.spared hm hu hspared.same hst, .refl _, fun k hk => ?_⟩
      exact absurd hk.symm (Option.some_ne_none k)

/-- A space is copied into one that has no pages. -/
theorem copySpace_lending (hm : m.Unlent c v₀) (hc : c < m.spaces.size) :
    Attempt.Ends False (copySpace s c) m (fun _ _ => True) fun _ after => s ≠ c ∧ m.Stopped s c v₀ after := by
  simp only [copySpace, Attempt.ends_bind, Attempt.ends_get, Attempt.ends_modify]
  have hmem (e : Nat × Page) : e ∈ (m.space s).pages.toList ↔ v₀.pages s e.1 = some e.2 :=
    hm.pages ▸ Std.ExtTreeMap.mem_toList_iff_getElem?_eq_some
  have hnodup : ((m.space s).pages.toList.map Prod.fst).Nodup := by
    rw [Std.ExtTreeMap.map_fst_toList_eq_keys]
    exact Std.ExtTreeMap.nodup_keys
  have hvalues : (m.space c).pages.values = [] := by
    have hmem := (Machine.of_values (m := m) (s := c) fun a p hp => by
      rw [hm.pages, hm.empty] at hp
      cases hp).1
    refine List.eq_nil_iff_forall_not_mem.mpr fun p hp => ?_
    rw [hmem, hm.pages, hm.empty] at hp
    cases hp
  have hstart : m.Lending s c v₀ v₀ m :=
    { beside := ⟨hm.valid, .refl hm.valid hm.empty, hm.overlaid, .of_eq rfl⟩
      pages := hm.pages
      standing := by rw [hvalues]; rfl }
  by_cases hsc : s = c
  · have hlist : (m.space s).pages.toList = [] := by
      refine List.eq_nil_iff_forall_not_mem.mpr fun e he => ?_
      rw [hmem, hsc, hm.empty] at he
      cases he
    rw [hlist]
    exact trivial
  · exact (copyPages_lending hm hstart hm.swap hc hsc (fun e he => (hmem e).mp he)
      (fun e _ => hm.empty e.1) hnodup).imp (fun _ _ _ => trivial) fun e after hlent => ⟨hsc, hlent⟩

section Emptied
variable {stray : Option Nat}

/-- The copies go one after the other. -/
theorem destroyPages_lending {pages : List Page} (hm : m.Unlent c v₀)
    (h : LentBeside s c v₀ m.memory v now.memory) (hne : s ≠ c) (hspills : v.swap.Spills stray now.swap)
    (hp : ∀ p ∈ pages, v.pages c p.va = some p) (hnodup : (pages.map (·.va)).Nodup) :
    Run.Ends False (destroyPages c pages) now fun _ after => ∃ u,
      LentBeside s c v₀ m.memory u after.memory ∧ u.swap.Spills stray after.swap ∧
      (∀ a, u.pages c a = if a ∈ pages.map (·.va) then none else v.pages c a) ∧
      after.memory.pages = now.memory.pages ∧ after.swap.held = now.swap.held := by
  induction pages generalizing now v with
  | nil => exact ⟨v, h, hspills, fun a => by simp, rfl, rfl⟩
  | cons page rest ih =>
    have hpage := hp page (List.mem_cons_self ..)
    simp only [List.map_cons, List.nodup_cons] at hnodup
    simp only [destroyPages, Run.ends_bind]
    refine (destroyPage_clean (h.valid.sound.kept hpage).2.1
      (fun n hn => Nat.lt_of_lt_of_eq (h.valid.sound.resident_frame hpage hn).2 h.overlaid.size_eq.symm)
      (h.clean hm.valid hm.empty hpage)).imp ?_
    intro _ m₁ hm₁
    have hgone := h.destroyed hne hpage
    rw [← hm₁] at hgone
    have hswap : m₁.swap = now.swap.freeSlot page.backing.slot? := by
      refine (congrArg Memory.swap hm₁).trans ?_
      exact Memory.swap_destroyed ..
    have hused (k : Nat) (hk : page.backing.slot? = some k) : v.swap.Used k :=
      (h.valid.stowed.used k).mpr ⟨c, page.va, (Memory.Stowed.slotAt_eq hpage).trans hk⟩
    have hheld : m₁.swap.held = now.swap.held := by
      rw [hswap]
      cases page.backing.slot? <;> rfl
    have hpages : m₁.memory.pages = now.memory.pages := by
      rw [hm₁]
      exact Memory.pages_destroyed ..
    refine (ih hgone (hswap ▸ hspills.freeSlot hused) (fun p hmem => ?_) hnodup.2).imp ?_
    · have hva : p.va ≠ page.va := fun heq => hnodup.1 (heq ▸ List.mem_map_of_mem hmem)
      rw [Memory.pages_discard, setAt_of_ne fun hat => hva hat.2]
      exact hp p (List.mem_cons_of_mem _ hmem)
    · rintro _ after ⟨u, hu, hspills', hnone, hpages', hheld'⟩
      refine ⟨u, hu, hspills', fun a => ?_, hpages'.trans hpages, hheld'.trans hheld⟩
      rw [hnone, Memory.pages_discard, setAt_apply]
      simp only [List.map_cons, List.mem_cons]
      grind

/-- With the last copy everything that was lent is back, but for a stray slot. -/
theorem emptySpace_lending (hm : m.Unlent c v₀) (h : m.Lending s c v₀ v now) (hne : s ≠ c)
    (hspills : v.swap.Spills stray now.swap) :
    Run.Ends False (emptySpace c) now fun _ after => ∃ u,
      Restored s v₀ u ∧ LentBeside s c v₀ m.memory u after.memory ∧ u.swap.Spills stray after.swap ∧
      after.memory.pages = v₀.pages ∧ after.standing = m.standing ∧ after.swap.held = now.swap.held := by
  have hkept (a : Nat) (p : Page) (hp : now.memory.pages c a = some p) : p.va = a :=
    (h.beside.valid.sound.kept (h.pages ▸ hp)).1
  obtain ⟨hmem, hnodup⟩ := Machine.of_values hkept
  have hcleared := Machine.memory_cleared (m := now) c
  have hbeside : LentBeside s c v₀ m.memory v (now.modifySpace c (·.cleared)).memory := by
    rw [hcleared]
    exact h.beside.hidden _
  have hp (p : Page) (hp : p ∈ (now.space c).pages.values) : v.pages c p.va = some p := by
    rw [hmem, h.pages] at hp
    exact hp
  simp only [emptySpace, Run.ends_bind, Run.ends_get, Run.ends_modify]
  refine ((destroyPages_lending hm hbeside hne hspills hp hnodup).and (destroyPages_stands _)).imp ?_
  rintro _ after ⟨⟨u, hu, hspills', hgone, hpages, hheld⟩, hst⟩
  have hnone (a : Nat) : u.pages c a = none := by
    rw [hgone]
    split
    · rfl
    · rename_i ha
      refine Option.eq_none_iff_forall_ne_some.mpr fun p hp => ha ?_
      have hva := (h.beside.valid.sound.kept hp).1
      exact List.mem_map.mpr ⟨p, (hmem p).mpr (by rw [h.pages, hva, hp]), hva⟩
  refine ⟨u, hu.lent.restored hm.valid hu.valid hm.empty hnone, hu, hspills', ?_, ?_, hheld⟩
  · funext t a
    rw [hpages, hcleared]
    simp only [Memory.hide, beq_iff_eq]
    split
    · rename_i ht
      rw [ht, hm.empty]
    · rename_i ht
      rw [h.pages, h.beside.lent.pages t a ht]
  · rw [hst, Machine.standing_modifySpace rfl, h.standing]

end Emptied

/-! ## What is left of a failed copy -/

/-- Between the machines raw mappings were made, in spaces other than `c`, at addresses where no page is
in a frame, and spaces may have come to refuse others. -/
structure Machine.RawMapped (c : Nat) (m₀ m : Machine π) : Prop where
  frames : m.frames = m₀.frames
  swap : m.swap = m₀.swap
  files : m.files = m₀.files
  nextSerial : m.nextSerial = m₀.nextSerial
  spaces : m.spaces.size = m₀.spaces.size
  tables : ∀ t, (m.space t).pages = (m₀.space t).pages
  resident : ∀ (t va : Nat) (p : Page), (m₀.space t).pages[va]? = some p → p.frame.isSome →
    (m.space t).directory.entries[va]? = (m₀.space t).directory.entries[va]?
  spared : (m.space c).directory = (m₀.space c).directory

/-- After a failed copy of space `s` into space `c` that one is empty again, and everything is as it was.
Only a stray slot may be in use besides. -/
structure Machine.Undone (s c : Nat) (stray : Option Nat) (m after : Machine π) : Prop where
  tables : ∀ t, (after.space t).pages = (m.space t).pages
  unmapped : (after.space c).directory.size = 0
  mapped : ∀ t va, t ≠ c → (after.space t).directory.frame? va = (m.space t).directory.frame? va
  others : ∀ t, t ≠ s → t ≠ c → (after.space t).directory = (m.space t).directory
  frames : after.frames.frames = m.frames.frames
  policy : after.frames.policy = m.frames.policy
  slots : ∀ k, after.swap.Used k ↔ m.swap.Used k ∨ stray = some k
  slotsInUse : after.swap.slotsInUse = m.swap.slotsInUse + if stray.isSome then 1 else 0
  held : ∀ k, m.swap.Used k → after.swap.held k = m.swap.held k
  files : after.files = m.files
  processes : after.spaces.toList.map (·.process) = m.spaces.toList.map (·.process)

variable {m₀ : Machine π}

omit [ReplacementPolicy π] in
/-- A raw mapping that a space is asked for is one. -/
theorem Machine.RawMapped.of_map {va : Nat} (hne : s ≠ c) (hfree : ∀ p, m.page? s va = some p → p.frame = none)
    (n : Nat) (writable : Bool) : m.RawMapped c (m.map s va n writable).2 := by
  have hspace (t : Nat) : (m.map s va n writable).2.space t =
      if t = s ∧ s < m.spaces.size then ((m.space s).map va n writable).2 else m.space t :=
    space_modifySpace _ t
  have hpages : ((m.space s).map va n writable).2.pages = (m.space s).pages := by
    unfold Space.map
    split
    · split <;> rfl
    · rfl
  have hentries (a : Nat) (ha : a ≠ pageDown va) : ((m.space s).map va n writable).2.directory.entries[a]? =
      (m.space s).directory.entries[a]? := by
    simp only [Space.map]
    split
    · split
      · rename_i d hd
        simp only [PageDirectory.map?] at hd
        split at hd
        · obtain ⟨k, -, rfl⟩ := Option.map_eq_some_iff.mp hd
          rw [Std.ExtTreeMap.getElem?_insert, if_neg]
          rw [Std.LawfulEqCmp.compare_eq_iff_eq]
          exact Ne.symm ha
        · cases hd
      · rfl
    · rfl
  refine ⟨rfl, rfl, rfl, rfl, spaces_map writable, fun t => ?_, fun t a p hp hsome => ?_, ?_⟩
  · rw [hspace]
    split
    · rename_i ht
      rw [ht.1, hpages]
    · rfl
  · rw [hspace]
    split
    · rename_i ht
      obtain ⟨rfl, -⟩ := ht
      refine hentries a ?_
      rintro rfl
      rw [hfree p hp] at hsome
      cases hsome
    · rfl
  · rw [hspace, if_neg fun ht => hne ht.1.symm]

omit [ReplacementPolicy π] in
theorem Machine.RawMapped.unlent (h : m₀.RawMapped c m) (hv : m₀.memory.Valid)
    (hplain : m₀.memory.Plain) (hempty : (m.space c).pages = ∅) : m.Unlent c m₀.memory := by
  have hpages : m.memory.pages = m₀.memory.pages := by
    funext t a
    exact congrArg (·[a]?) (h.tables t)
  refine ⟨hv, hplain, fun a => ?_, ⟨?_, ?_, ?_⟩, hpages, h.swap⟩
  · rw [← hpages]
    exact (congrArg (·[a]?) hempty).trans Std.ExtTreeMap.getElem?_empty
  · refine Memory.ext h.spaces ?_ h.nextSerial rfl rfl rfl ?_ ?_ rfl h.files
    · exact congrArg FrameTable.size h.frames
    · exact congrArg FrameTable.frame h.frames
    · exact congrArg FrameTable.policy h.frames
  · exact fun {t a p} hp hsome => h.resident t a p hp hsome
  · intro a hnone
    have hbefore : m₀.memory.entries c a = none := hv.sound.unmapped hnone
    exact (congrArg (fun d : PageDirectory => d.entries[a]?) h.spared).trans hbefore

omit [ReplacementPolicy π] in
theorem Machine.Unlent.undone {u : Memory π} {stray : Option Nat} (hm : m.Unlent c v₀)
    (hrestored : Memory.Restored s v₀ u) (h : LentBeside s c v₀ m.memory u after.memory)
    (hspills : u.swap.Spills stray after.swap) (hpages : after.memory.pages = v₀.pages)
    (hst : after.standing = m.standing) : m.Undone s c stray after ∧ ∀ k, stray = some k → ¬m.swap.Used k := by
  have hswap : m.swap.Spills stray after.swap := by
    rw [hm.swap]
    refine ⟨fun k => ?_, fun k hk => ?_, fun k hk => ?_⟩
    · rw [hspills.used, hrestored.used]
    · rw [← hrestored.used]
      exact hspills.fresh k hk
    · rw [hspills.held k ((hrestored.used k).mpr hk), hrestored.held k hk]
  refine ⟨?_, hswap.fresh⟩
  refine
    { tables := Machine.tables_eq (hpages.trans hm.pages.symm)
      unmapped := ?_
      mapped := fun t va ht => h.remapped.frames t (pageDown va) ht
      others := ?_
      frames := ?_
      policy := ?_
      slots := hswap.used
      slotsInUse := hswap.slotsInUse_eq
      held := hswap.held
      files := ?_
      processes := congrArg Standing.processes hst }
  · have hentries : (after.space c).directory.entries = ∅ := Std.ExtTreeMap.ext_getElem? fun a => by
      rw [Std.ExtTreeMap.getElem?_empty]
      exact h.overlaid.bare (hrestored.pages ▸ hm.empty a)
    rw [PageDirectory.size, hentries, Std.ExtTreeMap.size_empty]
  · intro t ht hc
    exact congrArg PageDirectory.mk (Std.ExtTreeMap.ext_getElem? fun a => h.remapped.others t a ht hc)
  · refine Machine.frames_eq ?_ ?_
    · rw [h.overlaid.size_eq, hm.overlaid.size_eq]
      exact (congrArg (·.2.1) hrestored.limits :)
    · rw [h.overlaid.frames_eq, hm.overlaid.frames_eq, hrestored.frames]
  · exact h.overlaid.policy_eq.trans (hrestored.policy.trans hm.overlaid.policy_eq.symm)
  · have hfiles : after.files = u.files := h.overlaid.files_eq
    have hfiles₀ : m.files = v₀.files := hm.overlaid.files_eq
    refine FileStore.eq_of_nodes (congrArg Standing.handles hst) (fun f => ?_) fun f => ?_
    · rw [hfiles, hfiles₀, hrestored.contents]
    · rw [hfiles, hfiles₀, hrestored.transfers]

variable {count : Nat} {device : Device} {policy : π} {files : FileStore} {ops : List Operation}
  {outside : Nat → Nat}

/-- Whatever error a copy ends with, and wherever it strikes, emptying the space that it was made for
succeeds and undoes it. A slot that is still in use then is a copy of that of a page which the space that
was copied has a raw mapping for. -/
theorem failed_copy_undone (h : HandleRuns (Machine.start count device policy files) ops outside m₀)
    (hraw : m₀.RawMapped c m) (hc : c < m.spaces.size) (hempty : (m.space c).pages = ∅) {e : MemoryError}
    (hcopy : copySpace s c m = .ok (.error e) now) :
    ∃ after stray, emptySpace c now = .ok ⟨⟩ after ∧ m.Undone s c stray after ∧
      ∀ k, stray = some k → ∃ va page slot, (m.space s).pages[va]? = some page ∧
        page.backing.slot? = some slot ∧ ((m.space s).directory.frame? va).isSome ∧
        ¬m.swap.Used k ∧ after.swap.held k = m.swap.held slot := by
  obtain ⟨ps, hps⟩ := h.balanced
  have hm := hraw.unlent hps.valid h.plain hempty
  obtain ⟨hne, v, stray, hlending, hspills, hstray⟩ := (copySpace_lending hm hc).of_error hcopy
  have hempties := emptySpace_lending hm hlending hne hspills
  obtain ⟨⟨⟩, after, hempty⟩ := hempties.answers id
  obtain ⟨u, hrestored, hbeside, hspills', hpages, hst, hheld⟩ := hempties.of_ok hempty
  obtain ⟨hundone, hfresh⟩ := hm.undone hrestored hbeside hspills' hpages hst
  refine ⟨after, stray, hempty, hundone, fun k hk => ?_⟩
  obtain ⟨va, page, slot, hp, hslot, hraw, hcopied⟩ := hstray k hk
  have hva := (hm.valid.sound.kept (hm.pages ▸ hp)).2.1
  refine ⟨va, page, slot, hp, hslot, ?_, hfresh k hk, ?_⟩
  · rwa [PageDirectory.frame?, Option.isSome_map, Machine.entry?_eq, pageDown_eq_self hva]
  · rw [hheld, hcopied]

/-- Two tables, the first with a page that is in swap and has a raw mapping, and with one that is in the
frame. The second grants no mapping, or one. A copy takes a slot and fails, and emptying the second table
gives the slot back if it got as far as the next page. -/
theorem refused_copy_runs (left : Fin 2) : ∃ ops outside, ∃ m₀ m now after : Machine Fifo, ∃ e,
    HandleRuns (.start 1 { name := "swap", kind := .swap, size := 16, disk := .zeroed 16 } {} {}) ops
      outside m₀ ∧
    m₀.RawMapped 1 m ∧ 1 < m.spaces.size ∧ (m.space 1).pages = ∅ ∧ copySpace 0 1 m = .ok (.error e) now ∧
    emptySpace 1 now = .ok ⟨⟩ after ∧ m.swap.slotsInUse = 1 ∧ now.swap.slotsInUse = 2 ∧
    after.swap.slotsInUse = 2 - left := by
  let first : Machine Fifo :=
    .start 1 { name := "swap", kind := .swap, size := 16, disk := .zeroed 16 } {} {}
  let check (m₀ : Machine Fifo) : Bool :=
    let m := (m₀.map 0 4096 0 true).2
    decide ((m₀.page? 0 4096).all (·.frame = none) ∧ 1 < m.spaces.size ∧ (m.space 1).pages.isEmpty ∧
      m.swap.slotsInUse = 1) &&
    match copySpace 0 1 m with
    | .ok (.error _) now => decide (now.swap.slotsInUse = 2) &&
      match emptySpace 1 now with
      | .ok _ after => decide (after.swap.slotsInUse = 2 - left)
      | _ => false
    | _ => false
  have hstart : HandleRuns first [] first.files.handles first := .start
  let ops : List Operation := [.createTable .unlimited false, .createTable (.atMost left) false,
    .insert 0 4096 true (.anonymous .zeroed none), .insert 0 8192 true (.anonymous .zeroed none),
    .copyTo 0 0 4096 [7], .claim 0 8192]
  have hcheck : (first.handled first.files.handles ops).any (fun e => check e.2) = true := by
    revert left
    decide +kernel
  obtain ⟨outside, m₀, hrun, hcheck⟩ := hstart.of_handled ops (fun _ => check) hcheck
  obtain ⟨hbefore, hcheck⟩ := Bool.and_eq_true_iff.mp hcheck
  obtain ⟨hfree, hspaces, hempty, hone⟩ := of_decide_eq_true hbefore
  have hout (p : Page) (hp : m₀.page? 0 4096 = some p) : p.frame = none := by
    rw [hp] at hfree
    exact of_decide_eq_true hfree
  split at hcheck
  swap
  · cases hcheck
  rename_i e now hcopy
  obtain ⟨htwo, hcheck⟩ := Bool.and_eq_true_iff.mp hcheck
  split at hcheck
  swap
  · cases hcheck
  rename_i after hempties
  exact ⟨_, outside, m₀, _, now, after, e, hrun, .of_map (by decide) hout 0 true, hspaces,
    Std.ExtTreeMap.isEmpty_iff.mp hempty, hcopy, hempties, hone, of_decide_eq_true htwo,
    of_decide_eq_true hcheck⟩

/-- The first page was copied with its slot and its mapping, and all of it is undone. -/
theorem failed_copy_undone_after_raw : ∃ ops outside, ∃ m₀ m now after : Machine Fifo, ∃ e,
    HandleRuns (.start 1 { name := "swap", kind := .swap, size := 16, disk := .zeroed 16 } {} {}) ops
      outside m₀ ∧
    m₀.RawMapped 1 m ∧ 1 < m.spaces.size ∧ (m.space 1).pages = ∅ ∧ copySpace 0 1 m = .ok (.error e) now ∧
    now.swap.slotsInUse = 2 ∧ emptySpace 1 now = .ok ⟨⟩ after ∧ m.Undone 0 1 none after := by
  obtain ⟨ops, outside, m₀, m, now, after, e, hrun, hraw, hspaces, hempty, hcopy, hempties, hone, htwo,
    hback⟩ := refused_copy_runs 1
  obtain ⟨final, stray, hfinal, hundone, -⟩ := failed_copy_undone hrun hraw hspaces hempty hcopy
  obtain rfl : after = final := by
    rw [hempties] at hfinal
    cases hfinal
    rfl
  have hslots := hundone.slotsInUse
  rw [hback, hone] at hslots
  cases stray with
  | none => exact ⟨ops, outside, m₀, m, now, after, e, hrun, hraw, hspaces, hempty, hcopy, htwo, hempties,
      hundone⟩
  | some k => cases hslots

/-- If the mapping of that page is refused the slot that was copied for it stays in use. -/
theorem failed_copy_keeps_slot : ∃ ops outside, ∃ m₀ m now after : Machine Fifo, ∃ e,
    HandleRuns (.start 1 { name := "swap", kind := .swap, size := 16, disk := .zeroed 16 } {} {}) ops
      outside m₀ ∧
    m₀.RawMapped 1 m ∧ 1 < m.spaces.size ∧ (m.space 1).pages = ∅ ∧ copySpace 0 1 m = .ok (.error e) now ∧
    emptySpace 1 now = .ok ⟨⟩ after ∧ after.swap.slotsInUse ≠ m.swap.slotsInUse := by
  obtain ⟨ops, outside, m₀, m, now, after, e, hrun, hraw, hspaces, hempty, hcopy, hempties, hone, -,
    hkept⟩ := refused_copy_runs 0
  refine ⟨ops, outside, m₀, m, now, after, e, hrun, hraw, hspaces, hempty, hcopy, hempties, ?_⟩
  rw [hkept, hone]
  decide

end DemandPaging
