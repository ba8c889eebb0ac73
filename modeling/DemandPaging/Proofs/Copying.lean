import DemandPaging.Proofs.Faults
import DemandPaging.Proofs.Standing

/-! # Copying a space

Each page of a space is copied with its frame shared or its slot duplicated, and nothing else
changes. When a copy fails, the pages copied so far are all that was added.
-/
namespace DemandPaging
open Memory (Change)

variable {π : Type} {m : Machine π} {v : Memory π} {src dst va n : Nat} {page : Page}

/-- A frame is mapped in two spaces or in neither. -/
theorem mapShared_ends (hsrc : src < m.spaces.size) (hdst : dst < m.spaces.size) (hne : src ≠ dst)
    (hva : va % pageSize = 0) (hnone : m.memory.entries dst va = none) :
    Attempt.Ends False (mapShared n src dst va) m
      (fun _ after => va < kernelBase ∧ n < PageTableEntry.frameLimit ∧
        after.memory = (m.memory.setEntry dst va (some (.remap none n false))).setEntry src va
          (some (.remap (m.memory.entries src va) n false)))
      fun _ after => after.memory = m.memory := by
  simp only [mapShared, Attempt.ends_bind, Attempt.ends_ite, Attempt.ends_modifyGet,
    Attempt.ends_modify, Attempt.ends_throw, Attempt.ends_pure]
  have hchild := Machine.map_cases hdst va n false
  rw [pageDown_eq_self hva, hnone] at hchild
  obtain ⟨hdone, huser, hfit, hmap⟩ | ⟨hdone, hmap, -⟩ := hchild
  · refine ⟨fun _ => ?_, fun hnot => absurd hdone hnot⟩
    have hsrc₁ : src < (m.map dst va n false).2.spaces.size := by rwa [Machine.spaces_map]
    generalize (m.map dst va n false).2 = m₁ at hmap hsrc₁
    have hentry : m₁.memory.entries src va = m.memory.entries src va := by
      rw [hmap]
      exact setAt_of_ne fun h => hne h.1
    have hparent := Machine.map_cases hsrc₁ va n false
    rw [pageDown_eq_self hva, hentry, hmap] at hparent
    obtain ⟨hdone', -, -, hmap'⟩ | ⟨hdone', hmap', -⟩ := hparent
    · exact ⟨fun _ => ⟨huser, hfit, hmap'⟩, fun hnot => absurd hdone' hnot⟩
    · refine ⟨fun hyes => absurd (hdone'.symm.trans hyes) (by simp), fun _ => ?_⟩
      rw [Machine.memory_unmap, pageDown_eq_self hva, hmap']
      simp only [Memory.setEntry, setAt_setAt, setAt_eq_self hnone]
  · exact ⟨fun hyes => absurd (hdone.symm.trans hyes) (by simp), fun _ => hmap⟩

theorem Machine.memory_share (hn : n < m.frames.size) (o : Owner) :
    ({ m with frames := (m.frames.modify n fun f => { f with refcount := f.refcount + 1 }).addOwner n o } :
      Machine π).memory = m.memory.setFrame n ((m.memory.frames n).sharedWith o) := by
  have hfirst := memory_modifyFrame (m := m) (n := n) (fun f => { f with refcount := f.refcount + 1 }) hn
  have hsecond := memory_modifyFrame
    (m := { m with frames := m.frames.modify n fun f => { f with refcount := f.refcount + 1 } }) (n := n)
    (fun f => { f with owners := f.owners ++ [o] }) (lt_frames hfirst hn)
  refine hsecond.trans ?_
  rw [hfirst]
  simp only [Memory.setFrame, Function.update_self, Function.update_idem]
  rfl

theorem share_ends {serial : Nat} (hsrc : src < m.spaces.size) (hdst : dst < m.spaces.size)
    (hne : src ≠ dst) (hva : va % pageSize = 0) (hn : n < m.frames.size)
    (hnone : m.memory.entries dst va = none) :
    Attempt.Ends False (share n src dst serial va) m
      (fun _ after => va < kernelBase ∧ n < PageTableEntry.frameLimit ∧
        after.memory = ((m.memory.setEntry dst va (some (.remap none n false))).setEntry src va
          (some (.remap (m.memory.entries src va) n false))).setFrame n
            ((m.memory.frames n).sharedWith ⟨serial, dst, va⟩))
      fun _ after => after.memory = m.memory := by
  simp only [share, Attempt.ends_bind, Attempt.ends_get, Attempt.ends_modify]
  refine (mapShared_ends hsrc hdst hne hva hnone).imp ?_ fun _ _ he => he
  rintro _ m₁ ⟨huser, hfit, hm₁⟩
  refine ⟨huser, hfit, ?_⟩
  have hn₁ : n < m₁.frames.size := Machine.lt_frames hm₁ hn
  rw [Machine.memory_report, Machine.memory_share hn₁, hm₁]
  rfl

/-- Memory once a copy of a page has been let into the frame of the page, if it is in one. -/
def Memory.shared (v : Memory π) (src dst va serial : Nat) : Option Nat → Memory π
  | some n => ((v.setEntry dst va (some (.remap none n false))).setEntry src va
      (some (.remap (v.entries src va) n false))).setFrame n ((v.frames n).sharedWith ⟨serial, dst, va⟩)
  | none => v

/-- Memory once a mapping at `va` that no page stands for is mapped in another space too. -/
def Memory.sharedRaw (v : Memory π) (src dst va : Nat) : Memory π :=
  match v.entries src va with
  | some e => (v.setEntry dst va (some (.remap none e.frame false))).setEntry src va
      (some (.remap (some e) e.frame false))
  | none => v

/-- Memory once a copy of a page has what the page is mapped to. -/
def Memory.lentTo (v : Memory π) (src dst va serial : Nat) (frame : Option Nat) : Memory π :=
  if frame.isSome then v.shared src dst va serial frame else v.sharedRaw src dst va

theorem Memory.of_lentTo (v : Memory π) (src dst va serial : Nat) (frame : Option Nat) :
    (v.lentTo src dst va serial frame).pages = v.pages ∧
      (v.lentTo src dst va serial frame).spaces = v.spaces := by
  unfold lentTo sharedRaw
  split
  · cases frame <;> exact ⟨rfl, rfl⟩
  · split <;> exact ⟨rfl, rfl⟩

/-- A copy is let into the frame that its original is mapped to, with or without being in it. -/
theorem shareWith_lends (serial : Nat) {frame : Option Nat} (hsrc : src < m.spaces.size)
    (hdst : dst < m.spaces.size) (hne : src ≠ dst) (hva : va % pageSize = 0)
    (hn : ∀ n, frame = some n → n < m.frames.size) (hnone : m.memory.entries dst va = none) :
    Attempt.Ends False (shareWith src dst va serial frame) m
      (fun _ after => (∀ n, frame = some n → va < kernelBase ∧ n < PageTableEntry.frameLimit) ∧
        after.memory = m.memory.lentTo src dst va serial frame)
      fun _ after => (frame = none → (m.memory.entries src va).isSome) ∧ after.memory = m.memory := by
  cases frame with
  | some n =>
    simp only [shareWith]
    refine (share_ends hsrc hdst hne hva (hn n rfl) hnone).imp ?_ fun _ _ he => ⟨nofun, he⟩
    rintro _ after ⟨huser, hfit, hafter⟩
    exact ⟨fun k hk => ⟨huser, Option.some.inj hk ▸ hfit⟩, hafter⟩
  | none =>
    simp only [shareWith, Attempt.ends_bind, Attempt.ends_get, PageDirectory.frame?, Machine.entry?_eq,
      pageDown_eq_self hva, Memory.lentTo, Memory.sharedRaw]
    cases he : m.memory.entries src va with
    | none => exact ⟨nofun, rfl⟩
    | some e =>
      simp only [Option.map_some, shareRaw, Attempt.ends_bind, Attempt.ends_modify]
      refine (mapShared_ends hsrc hdst hne hva hnone).imp ?_ fun _ _ hkept => ⟨fun _ => rfl, hkept⟩
      rintro _ after ⟨-, -, hafter⟩
      rw [he] at hafter
      exact ⟨nofun, hafter⟩

theorem Memory.lentTo_of_unmapped {serial : Nat} {frame : Option Nat}
    (hraw : frame = none → v.entries src va = none) :
    v.lentTo src dst va serial frame = v.shared src dst va serial frame := by
  cases frame with
  | some n => rfl
  | none =>
    simp only [lentTo, sharedRaw, hraw rfl]
    rfl

/-- Memory once a copy of a page, with backing `backing`, is in its table. -/
def Memory.linked (v : Memory π) (src dst : Nat) (page : Page) (backing : Backing) : Memory π :=
  (({ v with nextSerial := v.nextSerial + 1 }).lentTo src dst page.va v.nextSerial page.frame).setPage dst
    page.va (some { page with serial := v.nextSerial, backing })

/-- A copy is put into its table with what its original is mapped to, or nothing is mapped for it and
its handle is given back. -/
theorem linkCopy_links (backing : Backing) (hsrc : src < m.spaces.size) (hdst : dst < m.spaces.size)
    (hne : src ≠ dst) (hva : page.va % pageSize = 0) (hn : ∀ n, page.frame = some n → n < m.frames.size)
    (hentry : m.memory.entries dst page.va = none) (hd : m.memory.pages dst page.va = none) :
    Attempt.Ends False (linkCopy src dst page.va page backing) m
      (fun _ after =>
        (∀ n, page.frame = some n → page.va < kernelBase ∧ n < PageTableEntry.frameLimit) ∧
        after.memory = m.memory.linked src dst page backing)
      fun _ after => (page.frame = none → (m.memory.entries src page.va).isSome) ∧
        after.memory = { m.memory with
          nextSerial := m.memory.nextSerial + 1, files := m.memory.files.releaseSource backing.source } := by
  simp only [linkCopy, Attempt.ends_bind, Attempt.ends_get, Attempt.ends_modify, Attempt.ends_tryCatch,
    Attempt.ends_throw, Attempt.ends_ite]
  have hserial : ({ m with nextSerial := m.nextSerial + 1 } : Machine π).memory =
      { m.memory with nextSerial := m.memory.nextSerial + 1 } := rfl
  refine (shareWith_lends (m := { m with nextSerial := m.nextSerial + 1 }) m.nextSerial hsrc hdst hne hva hn
    hentry).imp ?_ ?_
  · rintro _ m₁ ⟨hfit, hm₁⟩
    rw [hserial] at hm₁
    obtain ⟨hpages, hspaces⟩ := Memory.of_lentTo { m.memory with nextSerial := m.memory.nextSerial + 1 } src
      dst page.va m.nextSerial page.frame
    have hlt : dst < m₁.spaces.size := Machine.lt_spaces hm₁ (hspaces ▸ hdst)
    constructor
    · intro hin
      have hin : (m₁.space dst).pages.contains page.va = true := hin
      rw [Std.ExtTreeMap.contains_eq_isSome_getElem?] at hin
      have hnone : m₁.memory.pages dst page.va = none := by rw [hm₁, hpages, hd]
      rw [show (m₁.space dst).pages[page.va]? = none from hnone] at hin
      cases hin
    · intro _
      refine ⟨hfit, ?_⟩
      have hafter := Machine.memory_putPage hlt { page with serial := m.nextSerial, backing }
      rw [hm₁] at hafter
      exact hafter
  · rintro e m₁ ⟨hraw, hm₁⟩
    refine ⟨hraw, ?_⟩
    rw [Machine.memory_releaseSource, hm₁]
    rfl

/-- Where only pages are mapped, a copy in its table is a copy adopted. -/
theorem Memory.linked_eq_adopt {backing : Backing} {swap : SwapSpace} (hne : src ≠ dst)
    (hraw : page.frame = none → v.entries src page.va = none) :
    ({ v with swap, files := v.files.retainSource backing.source } : Memory π).linked src dst page backing =
      v.adopt src dst page backing swap := by
  rw [linked, lentTo_of_unmapped (by exact hraw)]
  unfold adopt shared
  cases hf : page.frame with
  | none =>
    simp only [add, setPage]
    rfl
  | some n =>
    unfold join
    simp only [add, setPage, setEntry, setFrame, setAt_setAt]
    rw [setAt_comm (fun h => hne h.1.symm)]
    rfl

variable [ReplacementPolicy π]

/-- A page is copied as a whole, or its backing is given up again. -/
theorem linkCopy_ends {backing : Backing} {swap : SwapSpace} (h : v.Valid) (hne : src ≠ dst)
    (hdst : dst < v.spaces) (hp : v.pages src page.va = some page) (hd : v.pages dst page.va = none)
    (hb : v.Duplicated page.backing backing swap)
    (hm : m.memory = { v with swap, files := v.files.retainSource backing.source }) :
    Attempt.Ends False (linkCopy src dst page.va page backing) m
      (fun _ after => v.Alters (.copy src dst page) after.memory ∧
        (page.frame.isSome → page.va < kernelBase))
      fun _ after => Memory.Spared v after.memory := by
  obtain ⟨_, hva, hsrc, _⟩ := h.sound.kept hp
  have hentry : m.memory.entries dst page.va = none := by
    rw [hm]
    exact h.sound.unmapped hd
  have hraw : page.frame = none → v.entries src page.va = none := h.sound.entry_eq_none hp
  have hnone : m.memory.pages dst page.va = none := by rw [hm, hd]
  have hn (n : Nat) (hn : page.frame = some n) : n < m.frames.size :=
    Machine.lt_frames hm (h.sound.resident_frame hp hn).2
  have hlink := linkCopy_links backing (Machine.lt_spaces hm hsrc) (Machine.lt_spaces hm hdst) hne hva hn
    hentry hnone
  refine hlink.imp ?_ ?_
  · rintro _ after ⟨hfit, hafter⟩
    rw [hafter, hm, Memory.linked_eq_adopt hne hraw]
    refine ⟨.copy hp hdst hd (fun n hn => (hfit n hn).2) hb, fun hsome => ?_⟩
    obtain ⟨n, hn⟩ := Option.isSome_iff_exists.mp hsome
    exact (hfit n hn).1
  · rintro e after ⟨hmapped, hafter⟩
    have hsome : page.frame.isSome := by
      cases hf : page.frame with
      | some n => rfl
      | none =>
        have hmapped := hmapped hf
        rw [hm, hraw hf] at hmapped
        cases hmapped
    have hslot := h.stowed.apart hp hsome
    rw [hafter, hm]
    generalize page.backing = old at hb hslot
    cases hb with
    | slot => cases hslot
    | same =>
      refine ⟨rfl, Nat.le_succ v.nextSerial, .refl _, fun f => ?_, fun f => ?_⟩
      · exact (FileStore.contents_releaseSource ..).trans (FileStore.contents_retainSource ..)
      · exact (FileStore.transferLimits_releaseSource _).trans (FileStore.transferLimits_retainSource _)

/-- From the first machine to the second these pages of space `src` were copied into space `dst`, those
that are resident at user addresses, and nothing else was done, but for a copy that came to nothing. -/
inductive Machine.Copies (src dst : Nat) : List Page → Machine π → Machine π → Prop
  | done {m after : Machine π} (h : m.memory.Spared after.memory)
    (hst : after.standing = m.standing) : Copies src dst [] m after
  | copy {pages : List Page} {page : Page} {m m₁ after : Machine π}
    (ha : m.memory.Alters (.copy src dst page) m₁.memory)
    (huser : page.frame.isSome → page.va < kernelBase)
    (hst : m₁.standing = m.standing.retain page.source) (hrest : Copies src dst pages m₁ after) :
    Copies src dst (page :: pages) m after

theorem Machine.Copies.quiet {pages : List Page} {after : Machine π}
    (h : Machine.Copies src dst pages m after) :
    Memory.Quiet (pages.map (.copy src dst)) m.memory after.memory := by
  induction h with
  | done h => exact h.rests
  | copy ha _ _ _ ih => exact (Memory.Course.of_change ha trivial).trans ih

theorem Machine.Copies.report {pages : List Page} {after : Machine π} (e : Event)
    (h : Machine.Copies src dst pages m after) : Machine.Copies src dst pages m (after.report e) := by
  induction h with
  | done h hst => exact .done h hst
  | copy ha huser hst _ ih => exact .copy ha huser hst ih

/-- Pages are copied one after the other. What was copied before a failure stays. -/
theorem copyPages_ends {pages : List (Nat × Page)} (h : m.memory.Valid) (hdst : dst < m.spaces.size)
    (hne : pages ≠ [] → src ≠ dst) (hp : ∀ e ∈ pages, m.memory.pages src e.1 = some e.2)
    (hd : ∀ e ∈ pages, m.memory.pages dst e.1 = none) (hnodup : (pages.map Prod.fst).Nodup) :
    Attempt.Ends False (copyPages src dst pages) m
      (fun _ after => Machine.Copies src dst (pages.map Prod.snd) m after)
      fun _ after => ∃ copied : List Page, Machine.Copies src dst copied m after := by
  induction pages generalizing m with
  | nil => exact .done ⟨rfl, Nat.le_refl _, .refl _, fun _ => rfl, fun _ => rfl⟩ rfl
  | cons e rest ih =>
    obtain ⟨a, page⟩ := e
    have hpage : m.memory.pages src a = some page := hp _ (List.mem_cons_self ..)
    obtain rfl : page.va = a := (h.sound.kept hpage).1
    have hnone : m.memory.pages dst page.va = none := hd _ (List.mem_cons_self ..)
    simp only [List.map_cons, List.nodup_cons] at hnodup
    simp only [copyPages, Attempt.ends_bind]
    have hdup := duplicateBacking_ends h.stowed.fits (h.slot_lt hpage)
    refine (hdup.and (duplicateBacking_stands page.backing)).imp ?_ fun _ after hspared =>
      ⟨[], .done hspared.1 hspared.2⟩
    rintro backing m₁ ⟨⟨swap, hb, hm₁⟩, hsource, hst₁⟩
    have hlink := linkCopy_ends h (hne (by simp)) hdst hpage hnone hb hm₁
    refine (hlink.and (linkCopy_stands src dst backing)).imp ?_ ?_
    · rintro _ m₂ ⟨⟨ha, huser⟩, hst₂⟩
      obtain ⟨hpages, hspaces⟩ := ha.of_copy
      have hsrc := hne (by simp)
      have hst₂ : m₂.standing = m.standing.retain page.source := hst₂.trans hst₁
      have hp₂ : ∀ e ∈ rest, m₂.memory.pages src e.1 = some e.2 := by
        intro e he
        rw [hpages _ _ fun hat => hsrc hat.1]
        exact hp e (List.mem_cons_of_mem _ he)
      have hd₂ : ∀ e ∈ rest, m₂.memory.pages dst e.1 = none := by
        intro e he
        rw [hpages _ _ fun hat => hnodup.1 (hat.2 ▸ List.mem_map_of_mem he)]
        exact hd e (List.mem_cons_of_mem _ he)
      have hvalid : m₂.memory.Valid := h.evolves (.of_change ha)
      have hlt : dst < m₂.spaces.size := Nat.lt_of_lt_of_eq hdst hspaces.symm
      refine (ih hvalid hlt (fun _ => hsrc) hp₂ hd₂ hnodup.2).imp ?_ ?_
      · exact fun _ after hrest => .copy ha huser hst₂ hrest
      · rintro e after ⟨copied, hrest⟩
        exact ⟨page :: copied, .copy ha huser hst₂ hrest⟩
    · rintro e after ⟨hspared, hst⟩
      refine ⟨[], .done hspared ?_⟩
      rw [hst, hst₁, hsource, Standing.release_retain]

/-- A space is copied into one that has no pages. -/
theorem copySpace_ends (h : m.memory.Valid) (hdst : dst < m.spaces.size)
    (hempty : ∀ a, m.memory.pages dst a = none) :
    Attempt.Ends False (copySpace src dst) m
      (fun _ after => ∃ pages : List Page, (∀ p, p ∈ pages ↔ m.memory.pages src p.va = some p) ∧
        Machine.Copies src dst pages m after)
      fun _ after => ∃ copied : List Page, Machine.Copies src dst copied m after := by
  simp only [copySpace, Attempt.ends_bind, Attempt.ends_get, Attempt.ends_modify]
  have hmem : ∀ e : Nat × Page, e ∈ (m.space src).pages.toList ↔ m.memory.pages src e.1 = some e.2 :=
    fun e => Std.ExtTreeMap.mem_toList_iff_getElem?_eq_some
  have hne : (m.space src).pages.toList ≠ [] → src ≠ dst := by
    rintro hlist rfl
    obtain ⟨e, he⟩ := List.exists_mem_of_ne_nil _ hlist
    rw [hmem, hempty] at he
    cases he
  have hnodup : ((m.space src).pages.toList.map Prod.fst).Nodup := by
    rw [Std.ExtTreeMap.map_fst_toList_eq_keys]
    exact Std.ExtTreeMap.nodup_keys
  refine (copyPages_ends h hdst hne (fun e he => (hmem e).mp he) (fun e _ => hempty e.1) hnodup).imp ?_
    fun _ _ he => he
  intro _ after hcopies
  refine ⟨_, fun p => ⟨fun hp => ?_, fun hp => ?_⟩, hcopies.report _⟩
  · obtain ⟨e, he, rfl⟩ := List.mem_map.mp hp
    have he := (hmem e).mp he
    exact (h.sound.kept he).1 ▸ he
  · exact List.mem_map.mpr ⟨(p.va, p), (hmem (p.va, p)).mpr hp, rfl⟩

end DemandPaging
