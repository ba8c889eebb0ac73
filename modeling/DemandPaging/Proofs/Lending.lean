import DemandPaging.Proofs.Contents
import DemandPaging.Proofs.Processes

/-! # Pages on loan

While a space is copied the copies share frames with their originals, and have slots and handles of
their own. `Lent` memory is as it was apart from that, and stays so while pages are copied and while the
copies go. When the last of them is gone everything is `Restored`, except that the originals may be
mapped for reading alone.
-/
namespace DemandPaging

namespace Memory
variable {π : Type}

/-- Nothing has changed but serials, and that pages of space `s` may be mapped for reading alone and
without an accessed mark. -/
structure Restored (s : Nat) (v w : Memory π) : Prop where
  limits : w.limits = v.limits
  pages : w.pages = v.pages
  frames : w.frames = v.frames
  policy : w.policy = v.policy
  entries : ∀ t a, w.entries t a = v.entries t a ∨
    t = s ∧ a < kernelBase ∧ w.entries t a = (v.entries t a).map (·.guarded)
  used : ∀ k, w.swap.Used k ↔ v.swap.Used k
  held : ∀ k, v.swap.Used k → w.swap.held k = v.swap.held k
  contents : ∀ f, (w.files.node f).contents = (v.files.node f).contents
  transfers : ∀ f, w.files.transferLimits f = v.files.transferLimits f

/-- Nothing has changed but that space `c` has copies of pages of space `s`. -/
structure Lent (s c : Nat) (v w : Memory π) : Prop where
  limits : w.limits = v.limits
  pages : ∀ t a, t ≠ c → w.pages t a = v.pages t a
  /-- A copy that is resident is where its original is. -/
  shares : ∀ a p n, w.pages c a = some p → p.frame = some n → ∃ q, v.pages s a = some q ∧ q.frame = some n
  entries : ∀ t a, t ≠ c → w.entries t a = v.entries t a ∨
    t = s ∧ a < kernelBase ∧ w.entries t a = (v.entries t a).map (·.guarded)
  dirty : ∀ t a, w.Dirty t a → v.Dirty t a
  owners : ∀ n, ((w.frames n).owners.filter fun o => o.space != c) = (v.frames n).owners
  bytes : ∀ n, (w.frames n).contents = (v.frames n).contents
  policy : w.policy = v.policy
  held : ∀ k, v.swap.Used k → w.swap.held k = v.swap.held k
  contents : ∀ f, (w.files.node f).contents = (v.files.node f).contents
  transfers : ∀ f, w.files.transferLimits f = v.files.transferLimits f

theorem owners_adopt (v : Memory π) (page : Page) {src dst : Nat} {backing : Backing} {swap : SwapSpace} (k : Nat) :
    ((v.adopt src dst page backing swap).frames k).owners =
      if page.frame = some k then (v.frames k).owners ++ [⟨v.nextSerial, dst, page.va⟩]
      else (v.frames k).owners := by
  unfold adopt
  cases hf : page.frame with
  | none => rfl
  | some n =>
    dsimp only
    rw [join]
    simp only [setFrame, Function.update_apply, Option.some.injEq, eq_comm (a := n)]
    split
    · rename_i hk
      rw [hk]
      rfl
    · rfl

theorem policy_adopt (v : Memory π) (page : Page) {src dst : Nat} {backing : Backing} {swap : SwapSpace} :
    (v.adopt src dst page backing swap).policy = v.policy := by
  unfold adopt
  cases page.frame with
  | none => rfl
  | some n =>
    dsimp only
    rw [join]
    rfl

/-- How many spaces there are, and which are willing, is the same question before and after. -/
theorem Restored.respace {s : Nat} {v w : Memory π} (h : Restored s v w) (spaces : Nat)
    (willing : Nat → Prop) : Restored s { v with spaces, willing } { w with spaces, willing } where
  limits := Prod.ext rfl (Prod.ext (congrArg (·.2.1) h.limits :) rfl)
  pages := h.pages
  frames := h.frames
  policy := h.policy
  entries := h.entries
  used := h.used
  held := h.held
  contents := h.contents
  transfers := h.transfers

namespace Sound
variable {v w : Memory π} {s c n : Nat} {page : Page}

/-- No page of an empty space is in a frame. -/
theorem owner_space_ne (h : v.Sound) (hnone : ∀ a, v.pages c a = none) {o : Owner}
    (ho : o ∈ (v.frames n).owners) : o.space ≠ c := by
  rintro rfl
  obtain ⟨p, hp, -⟩ := h.owner ho
  rw [hnone] at hp
  cases hp

/-- A frame is all in its owners and its bytes. -/
theorem frame_ext (h : v.Sound) (h' : w.Sound) (howners : (w.frames n).owners = (v.frames n).owners)
    (hcontents : (w.frames n).contents = (v.frames n).contents) : w.frames n = v.frames n := by
  have hcount : (w.frames n).refcount = (v.frames n).refcount := by
    rw [h'.counted, h.counted, howners]
  have hstate : (w.frames n).entry = (v.frames n).entry := by
    rw [h'.state, h.state, hcount]
  generalize w.frames n = f at *
  generalize v.frames n = g at *
  obtain ⟨entry, refcount, owners, contents⟩ := f
  subst howners hcontents hcount hstate
  rfl

/-- A copy that shares a frame has it mapped for reading alone by the original too. -/
theorem entry_adopt {src dst t : Nat} (h : v.Sound) (hp : v.pages src page.va = some page)
    (backing : Backing) (swap : SwapSpace) (ht : t ≠ dst) (a : Nat) :
    (v.adopt src dst page backing swap).entries t a = v.entries t a ∨
      t = src ∧ a = page.va ∧ page.frame.isSome ∧ (v.adopt src dst page backing swap).entries t a =
        (v.entries t a).map fun e => .remap (some e) e.frame false := by
  have hentries := entries_adopt v src dst page backing swap
  cases hf : page.frame with
  | none =>
    rw [hf] at hentries
    exact .inl (congrFun (congrFun hentries t) a)
  | some n =>
    rw [hf] at hentries
    dsimp only at hentries
    rw [hentries, setAt_of_ne fun hat => ht hat.1, setAt_apply]
    split
    · rename_i hat
      obtain ⟨e, he⟩ := Option.isSome_iff_exists.mp (h.resident hp hf)
      refine .inr ⟨hat.1, hat.2, rfl, ?_⟩
      rw [hat.1, hat.2, he, Option.map_some, h.frame_eq hp hf he]
    · exact .inl rfl

variable [ReplacementPolicy π]

/-- A page that goes from a frame it shares takes nothing along but its own part in the frame. -/
theorem discard_shared (h : v.Sound) (hp : v.pages s page.va = some page)
    (hshared : ∀ n, page.frame = some n → (v.frames n).refcount ≠ 1) :
    (v.discard s page).policy = v.policy ∧ ∀ k, ((v.discard s page).frames k).owners =
      if page.frame = some k then (v.frames k).owners.erase ⟨page.serial, s, page.va⟩
      else (v.frames k).owners := by
  show (v.quit s page).policy = v.policy ∧ ∀ k, ((v.quit s page).frames k).owners = _
  unfold Memory.quit
  cases hf : page.frame with
  | none => exact ⟨rfl, fun k => rfl⟩
  | some n =>
    dsimp only
    rw [h.leave_eq hp hf, if_neg (hshared n hf), if_neg (hshared n hf)]
    refine ⟨rfl, fun k => ?_⟩
    simp only [setFrame, Function.update_apply, Option.some.injEq, eq_comm (a := n)]
    split
    · rename_i hk
      rw [hk]
    · rfl

end Sound

namespace Lent
variable {s c : Nat} {v w w' : Memory π} {page : Page}

theorem refl (hv : v.Valid) (hnone : ∀ a, v.pages c a = none) : Lent s c v v where
  limits := rfl
  pages _ _ _ := rfl
  shares a p n hp := by
    rw [hnone] at hp
    cases hp
  entries _ _ _ := .inl rfl
  dirty _ _ := id
  owners n := by
    refine List.filter_eq_self.mpr fun o ho => ?_
    simpa using hv.sound.owner_space_ne hnone ho
  bytes _ := rfl
  policy := rfl
  held _ _ := rfl
  contents _ := rfl
  transfers _ := rfl

/-- A slot that was in use is still in use. -/
theorem used (h : Lent s c v w) (hv : v.Valid) (hw : w.Valid) (hnone : ∀ a, v.pages c a = none) {k : Nat}
    (hk : v.swap.Used k) : w.swap.Used k := by
  obtain ⟨t, a, hslot⟩ := (hv.stowed.used k).mp hk
  refine (hw.stowed.used k).mpr ⟨t, a, ?_⟩
  have hne : t ≠ c := by
    rintro rfl
    rw [slotAt, hnone] at hslot
    cases hslot
  rw [slotAt, h.pages t a hne]
  exact hslot

theorem spared (h : Lent s c v w) (hused : ∀ k, v.swap.Used k → w.swap.Used k) (hs : w.Spared w') :
    Lent s c v w' := by
  obtain ⟨hsame, -, hswap, hcontents, htransfers⟩ := hs
  rw [hsame]
  exact
    { limits := h.limits
      pages := h.pages
      shares := h.shares
      entries := h.entries
      dirty := h.dirty
      owners := h.owners
      bytes := h.bytes
      policy := h.policy
      held := fun k hk => (hswap.held k (hused k hk)).trans (h.held k hk)
      contents := fun f => (hcontents f).trans (h.contents f)
      transfers := fun f => (htransfers f).trans (h.transfers f) }

/-- Once more write-protected, the entry of an original is as it was after the first time. -/
theorem guard (h : Lent s c v w) (hplain : v.Plain) {t a : Nat} (hne : t ≠ c) :
    (w.entries t a).map (fun e => .remap (some e) e.frame false) = (v.entries t a).map (·.guarded) := by
  rcases h.entries t a hne with hsame | ⟨-, -, hguarded⟩
  · rw [hsame]
    cases he : v.entries t a with
    | none => rfl
    | some e => exact congrArg some (hplain t a e he).remap_eq
  · rw [hguarded]
    cases he : v.entries t a with
    | none => rfl
    | some e =>
      refine congrArg some ((hplain t a e he).guarded.remap_eq.trans ?_)
      exact PageTableEntry.guarded_guarded e

variable [ReplacementPolicy π]

/-- One more page is copied. -/
theorem copied (h : Lent s c v w) (hw : w.Valid) (hused : ∀ k, v.swap.Used k → w.swap.Used k)
    (hplain : v.Plain) (hne : s ≠ c) (huser : page.frame.isSome → page.va < kernelBase)
    (ha : w.Alters (.copy s c page) w') : Lent s c v w' := by
  cases ha with
  | @copy _ _ _ backing swap hp hdst hd hfit hb =>
    refine
      { limits := (limits_adopt ..).trans h.limits
        pages := fun t a ht => ?_
        shares := fun a p n hpage hn => ?_
        entries := fun t a ht => ?_
        dirty := fun t a hdirty => h.dirty t a (dirty_of_adopt hdirty)
        owners := fun n => ?_
        bytes := fun n => (contents_adopt ..).trans (h.bytes n)
        policy := (policy_adopt ..).trans h.policy
        held := fun k hk => ?_
        contents := fun f => ?_
        transfers := fun f => ?_ }
    · rw [pages_adopt, setAt_of_ne fun hat => ht hat.1, h.pages t a ht]
    · rw [pages_adopt, setAt_apply] at hpage
      split at hpage
      · rename_i hat
        obtain rfl := Option.some.inj hpage
        exact ⟨page, by rw [← h.pages s a hne, hat.2, hp], hn⟩
      · exact h.shares a p n hpage hn
    · rcases hw.sound.entry_adopt hp backing swap ht a with hsame | ⟨hts, hat, hsome, hremap⟩
      · rw [hsame]
        exact h.entries t a ht
      · exact .inr ⟨hts, hat ▸ huser hsome, hremap.trans (h.guard hplain ht)⟩
    · rw [owners_adopt]
      split
      · rw [List.filter_append, h.owners]
        simp
      · exact h.owners n
    · rw [swap_adopt]
      exact (hb.held_eq (hw.slot_lt hp) hw.stowed.fits (hused k hk)).trans (h.held k hk)
    · rw [files_adopt]
      exact (FileStore.contents_retainSource ..).trans (h.contents f)
    · rw [files_adopt]
      exact (FileStore.transferLimits_retainSource _).trans (h.transfers f)

/-- A copy goes. -/
theorem discarded (h : Lent s c v w) (hw : w.Valid) (hne : s ≠ c) (hp : w.pages c page.va = some page) :
    Lent s c v (w.discard c page) := by
  have hshared (n : Nat) (hf : page.frame = some n) : (w.frames n).refcount ≠ 1 := by
    intro hone
    obtain ⟨q, hq, hqf⟩ := h.shares _ _ n hp hf
    rw [← h.pages s _ hne] at hq
    exact hne (hw.sound.alone hone hq hqf hp hf).1
  obtain ⟨hpolicy, howners⟩ := hw.sound.discard_shared hp hshared
  refine
    { limits := (limits_discard ..).trans h.limits
      pages := fun t a ht => ?_
      shares := fun a p n hpage hn => ?_
      entries := fun t a ht => ?_
      dirty := fun t a hdirty => h.dirty t a (dirty_of_discard hdirty)
      owners := fun n => ?_
      bytes := fun n => (contents_discard ..).trans (h.bytes n)
      policy := hpolicy.trans h.policy
      held := fun k hk => ?_
      contents := fun f => ?_
      transfers := fun f => ?_ }
  · rw [pages_discard, setAt_of_ne fun hat => ht hat.1, h.pages t a ht]
  · rw [pages_discard, setAt_apply] at hpage
    split at hpage
    · cases hpage
    · exact h.shares a p n hpage hn
  · have hsame : (w.discard c page).entries t a = w.entries t a := by
      rw [entries_discard]
      cases page.frame with
      | none => rfl
      | some n => exact setAt_of_ne fun hat => ht hat.1
    rw [hsame]
    exact h.entries t a ht
  · rw [howners]
    split
    · rw [← hw.sound.filter_owners hp, List.filter_filter, ← h.owners]
      refine List.filter_congr fun o ho => ?_
      cases hspace : o.space == c <;> simp [bne, hspace]
    · exact h.owners n
  · have hsame (slot : Option Nat) : (w.swap.freeSlot slot).held k = w.swap.held k := by
      cases slot <;> rfl
    exact (hsame _).trans (h.held k hk)
  · exact (FileStore.contents_releaseSource ..).trans (h.contents f)
  · exact (FileStore.transferLimits_releaseSource _).trans (h.transfers f)

/-- One copy after the other goes. -/
theorem discards {pages : List Page} (h : Lent s c v w) (hw : w.Valid) (hne : s ≠ c)
    (hd : w.Discards c pages w') : Lent s c v w' := by
  induction hd with
  | nil => exact h
  | cons hp _ ih => exact ih (h.discarded hw hne hp) (hw.evolves (.of_change (.remove hp)))

omit [ReplacementPolicy π] in
/-- When no copy is left everything is as it was. -/
theorem restored (h : Lent s c v w) (hv : v.Valid) (hw : w.Valid) (hbefore : ∀ a, v.pages c a = none)
    (hafter : ∀ a, w.pages c a = none) : Restored s v w := by
  have hpages : w.pages = v.pages := by
    funext t a
    by_cases ht : t = c
    · rw [ht, hbefore, hafter]
    · exact h.pages t a ht
  have howners (n : Nat) : (w.frames n).owners = (v.frames n).owners := by
    rw [← h.owners n, eq_comm]
    refine List.filter_eq_self.mpr fun o ho => ?_
    simpa using hw.sound.owner_space_ne hafter ho
  refine
    { limits := h.limits
      pages := hpages
      frames := funext fun n => hv.sound.frame_ext hw.sound (howners n) (h.bytes n)
      policy := h.policy
      entries := fun t a => ?_
      used := fun k => ?_
      held := h.held
      contents := h.contents
      transfers := h.transfers }
  · by_cases ht : t = c
    · rw [ht, hw.sound.unmapped (hafter a), hv.sound.unmapped (hbefore a)]
      exact .inl rfl
    · exact h.entries t a ht
  · rw [hw.stowed.used, hv.stowed.used]
    simp only [slotAt, hpages]

end Lent

end Memory

open Memory (Lent Restored)
variable {π : Type} [ReplacementPolicy π] {m : Machine π} {v : Memory π} {s c : Nat}

/-- Copied pages are on loan. -/
theorem Machine.Copies.lent {pages : List Page} {after : Machine π} (hcopies : m.Copies s c pages after)
    (h : Lent s c v m.memory) (hv : v.Valid) (hplain : v.Plain) (hnone : ∀ a, v.pages c a = none)
    (hne : s ≠ c) (hm : m.memory.Valid) : Lent s c v after.memory := by
  induction hcopies with
  | done hspared => exact h.spared (fun k => h.used hv hm hnone) hspared
  | copy ha huser _ _ ih =>
    exact ih (h.copied hm (fun k => h.used hv hm hnone) hplain hne huser ha) (hm.evolves (.of_change ha))

omit [ReplacementPolicy π] in
/-- A space that there is not refuses nothing. -/
theorem Machine.willing_spaceless (h : m.spaces.size ≤ s) : m.memory.willing s := fun _ _ => by
  rw [space_eq_default h]
  rfl

/-- A fork that fails gives back all that it took. -/
theorem fork_restores (h : m.memory.Valid) (hplain : m.memory.Plain) (hs : s < m.spaces.size)
    (childPid : Nat) :
    Attempt.Ends False (fork s childPid) m (fun _ _ => True) fun _ after =>
      Restored s m.memory after.memory := by
  refine (fork_steps h childPid).imp (fun _ _ _ => trivial) ?_
  rintro e after ⟨pages, copied, emptied, hcopies, hemptied, rfl⟩
  have halters := Machine.alters_withChild m s childPid
  have hnone := Machine.pages_withChild m s childPid
  have hspawned : (m.withChild s childPid).memory = { m.memory with
      spaces := m.memory.spaces + 1
      willing := Function.update m.memory.willing m.memory.spaces True } := halters.of_spawned
  have hvalid := h.evolves (.of_change halters)
  have hcopied := hvalid.course hcopies.quiet
  have hne : s ≠ m.spaces.size := Nat.ne_of_lt hs
  have hlent := hcopies.lent (.refl hvalid hnone) hvalid (hplain.change halters) hnone hne hvalid
  -- No copy is dirty, so that nothing is written back when they go.
  have hclean (a : Nat) : ¬copied.memory.Dirty m.spaces.size a := by
    intro hdirty
    obtain ⟨e, he, -⟩ := hlent.dirty _ a hdirty
    rw [hvalid.sound.unmapped (hnone a)] at he
    cases he
  obtain ⟨removed, -, hdiscards⟩ := hemptied.removes
  have hrestored := (hlent.discards hcopied hne (hdiscards hclean)).restored hvalid
    (hemptied.valid hcopied) hnone hemptied.pages_eq_none
  have hlimits := hrestored.limits
  simp only [hspawned, Memory.limits, Prod.mk.injEq] at hlimits
  obtain ⟨hspaces, -, hwilling⟩ := hlimits
  have hlast : copied.spaces.size = m.spaces.size + 1 := hemptied.spaces_eq.symm.trans hspaces
  have hback := hrestored.respace m.memory.spaces m.memory.willing
  rw [(hemptied.alters_pop hcopied hlast).of_drop, hspaces, hwilling, Nat.add_sub_cancel,
    Function.update_idem, Function.update_eq_self_iff.mpr]
  · rwa [hspawned] at hback
  · exact (eq_true (Machine.willing_spaceless (Nat.le_refl _))).symm

end DemandPaging
