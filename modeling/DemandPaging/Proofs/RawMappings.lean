import DemandPaging.Proofs.Lending
import DemandPaging.Proofs.Tables

/-! # Mappings that no page stands for

A space may map addresses at which no page of it is in a frame. `Overlaid` memory has such raw mappings,
and is otherwise like memory that has none, of which all is known that holds of memory at all. A copy
takes raw mappings along, and one relation between the two, with and without them, is kept while pages
are copied and while the copies go.
-/
namespace DemandPaging

/-- Slots may be in use besides, which no page has. -/
structure SwapSpace.Spills (stray : Option Nat) (swap swap' : SwapSpace) : Prop where
  used : ∀ k, swap'.Used k ↔ swap.Used k ∨ stray = some k
  fresh : ∀ k, stray = some k → ¬swap.Used k
  held : ∀ k, swap.Used k → swap'.held k = swap.held k

namespace SwapSpace.Spills
variable {swap swap' : SwapSpace} {stray : Option Nat}

theorem refl (swap : SwapSpace) : Spills none swap swap where
  used k := by simp
  fresh k hk := by cases hk
  held _ _ := rfl

theorem freeSlot (h : Spills stray swap swap') {slot : Option Nat}
    (hslot : ∀ k, slot = some k → swap.Used k) :
    Spills stray (swap.freeSlot slot) (swap'.freeSlot slot) := by
  cases slot with
  | none => exact h
  | some k =>
    refine ⟨fun j => ?_, fun j hj hu => h.fresh j hj (used_free.mp hu).2, fun j hu => ?_⟩
    · rw [SwapSpace.freeSlot, SwapSpace.freeSlot, used_free, used_free, h.used]
      have hne : stray = some j → j ≠ k := by
        rintro hj rfl
        exact h.fresh j hj (hslot j rfl)
      tauto
    · exact h.held j (used_free.mp hu).2

theorem slotsInUse_eq (h : Spills stray swap swap') :
    swap'.slotsInUse = swap.slotsInUse + if stray.isSome then 1 else 0 := by
  generalize hslots : ((List.range swap.inUse.length).filter fun k => swap.inUse[k]? == some true) = slots
  have hmem (k : Nat) : k ∈ slots ↔ swap.Used k := hslots ▸ mem_filter_used k
  have hnodup : slots.Nodup := hslots ▸ List.nodup_range.filter _
  rw [slotsInUse_eq_length hnodup hmem]
  cases stray with
  | none =>
    exact slotsInUse_eq_length hnodup fun k => by
      rw [hmem, h.used]
      simp
  | some j =>
    have hfresh : j ∉ slots := fun hj => h.fresh j rfl ((hmem j).mp hj)
    exact slotsInUse_eq_length (List.nodup_cons.mpr ⟨hfresh, hnodup⟩) fun k => by
      rw [h.used, List.mem_cons, hmem, or_comm, Option.some.injEq, eq_comm]

end SwapSpace.Spills

namespace Memory
variable {π : Type} {v v' w w' u : Memory π} {s c : Nat} {page : Page} {backing : Backing} {swap : SwapSpace}

/-- Memory `w` is like memory `v`, but spaces may map addresses at which no page is in a frame. Space `c`
does so only where it has a page. -/
structure Overlaid (c : Nat) (v w : Memory π) : Prop where
  same : w = { v with willing := w.willing, pages := w.pages, entries := w.entries, swap := w.swap }
  resident : ∀ {t a p}, v.pages t a = some p → p.frame.isSome → w.entries t a = v.entries t a
  bare : ∀ {a}, v.pages c a = none → w.entries c a = none

/-- Outside of space `c` everything is mapped to the same frames, and only space `s` maps it otherwise. -/
structure Remapped (s c : Nat) (w w' : Memory π) : Prop where
  frames : ∀ t a, t ≠ c → (w'.entries t a).map (·.frame) = (w.entries t a).map (·.frame)
  others : ∀ t a, t ≠ s → t ≠ c → w'.entries t a = w.entries t a

namespace Remapped

theorem of_eq (h : w'.entries = w.entries) : Remapped s c w w' :=
  ⟨fun _ _ _ => by rw [h], fun _ _ _ _ => by rw [h]⟩

theorem trans (h : Remapped s c u w) (h' : Remapped s c w w') : Remapped s c u w' :=
  ⟨fun t a ht => (h'.frames t a ht).trans (h.frames t a ht),
    fun t a hs hc => (h'.others t a hs hc).trans (h.others t a hs hc)⟩

end Remapped

section Linked

theorem pages_linked (w : Memory π) (s c : Nat) (page : Page) (backing : Backing) :
    (w.linked s c page backing).pages =
      setAt w.pages c page.va (some { page with serial := w.nextSerial, backing }) := by
  rw [linked, setPage, (of_lentTo ..).1]

theorem swap_linked (w : Memory π) (s c : Nat) (page : Page) (backing : Backing) :
    (w.linked s c page backing).swap = w.swap := by
  unfold linked lentTo sharedRaw
  split
  · cases page.frame <;> rfl
  · split <;> rfl

/-- Original and copy are mapped to one frame for reading, if the original was mapped. -/
theorem entries_linked (backing : Backing)
    (hframe : ∀ n, page.frame = some n → (w.entries s page.va).map (·.frame) = some n)
    (hnone : w.entries c page.va = none) (t a : Nat) : (w.linked s c page backing).entries t a =
      if t = s ∧ a = page.va then (w.entries s page.va).map fun e => .remap (some e) e.frame false
      else if t = c ∧ a = page.va then (w.entries s page.va).map fun e => .remap none e.frame false
      else w.entries t a := by
  unfold linked lentTo
  cases hf : page.frame with
  | some n =>
    obtain ⟨e, he, rfl⟩ := Option.map_eq_some_iff.mp (hframe n hf)
    simp only [Option.isSome_some, if_true, shared, setPage, setFrame, setEntry, setAt_apply, he,
      Option.map_some]
  | none =>
    simp only [Option.isSome_none, Bool.false_eq_true, if_false, sharedRaw]
    cases he : w.entries s page.va with
    | some e => simp only [setPage, setEntry, setAt_apply, Option.map_some]
    | none =>
      simp only [setPage, Option.map_none]
      split
      · rename_i hat
        rw [hat.1, hat.2, he]
      · split
        · rename_i hat
          rw [hat.1, hat.2, hnone]
        · rfl

theorem Remapped.linked (hframe : ∀ n, page.frame = some n → (w.entries s page.va).map (·.frame) = some n)
    (hnone : w.entries c page.va = none) : Remapped s c w (w.linked s c page backing) := by
  constructor
  · intro t a ht
    rw [entries_linked backing hframe hnone]
    split
    · rename_i hat
      rw [hat.1, hat.2, Option.map_map]
      exact Option.map_congr fun e _ => PageTableEntry.frame_remap _ _ e.frame_lt
    · rw [if_neg fun hat => ht hat.1]
  · intro t a hs hc
    rw [entries_linked backing hframe hnone, if_neg fun hat => hs hat.1, if_neg fun hat => hc hat.1]

/-- What is mapped besides makes no other difference to a copy. -/
theorem linked_same (h : w = { v with
    willing := w.willing, pages := w.pages, entries := w.entries, swap := w.swap }) :
    w.linked s c page backing = { v.linked s c page backing with
      willing := (w.linked s c page backing).willing
      pages := (w.linked s c page backing).pages
      entries := (w.linked s c page backing).entries
      swap := (w.linked s c page backing).swap } := by
  generalize w.willing = willing at h
  generalize w.pages = pages at h
  generalize w.entries = entries at h
  generalize w.swap = swap at h
  subst h
  unfold linked lentTo
  cases page.frame with
  | some n => rfl
  | none =>
    simp only [Option.isSome_none, Bool.false_eq_true, if_false, sharedRaw]
    cases entries s page.va <;> cases v.entries s page.va <;> rfl

end Linked

section Destroyed
variable [ReplacementPolicy π]

theorem entries_destroyed (w : Memory π) (s : Nat) (page : Page) :
    (w.destroyed s page).entries = setAt w.entries s page.va none := by
  unfold destroyed
  cases page.frame <;> rfl

theorem pages_destroyed (w : Memory π) (s : Nat) (page : Page) : (w.destroyed s page).pages = w.pages := by
  unfold destroyed
  cases page.frame <;> rfl

theorem swap_destroyed (w : Memory π) (s : Nat) (page : Page) :
    (w.destroyed s page).swap = w.swap.freeSlot page.backing.slot? := by
  unfold destroyed
  cases page.frame <;> rfl

theorem Remapped.destroyed (w : Memory π) (c : Nat) (page : Page) :
    Remapped s c w (w.destroyed c page) := by
  constructor
  · intro t a ht
    rw [entries_destroyed, setAt_of_ne fun hat => ht hat.1]
  · intro t a _ hc
    rw [entries_destroyed, setAt_of_ne fun hat => hc hat.1]

theorem destroyed_same {p : Option Page} (h : w = { v with
    willing := w.willing, pages := w.pages, entries := w.entries, swap := w.swap }) :
    w.destroyed c page = { (v.destroyed c page).setPage c page.va p with
      willing := (w.destroyed c page).willing
      pages := (w.destroyed c page).pages
      entries := (w.destroyed c page).entries
      swap := (w.destroyed c page).swap } := by
  generalize w.willing = willing at h
  generalize w.pages = pages at h
  generalize w.entries = entries at h
  generalize w.swap = swap at h
  subst h
  unfold destroyed
  cases page.frame <;> rfl

end Destroyed

namespace Overlaid

section Fields
variable (h : Overlaid c v w)
include h

theorem spaces_eq : w.spaces = v.spaces := (congrArg Memory.spaces h.same :)

theorem size_eq : w.size = v.size := (congrArg Memory.size h.same :)

theorem nextSerial_eq : w.nextSerial = v.nextSerial := (congrArg Memory.nextSerial h.same :)

theorem frames_eq : w.frames = v.frames := (congrArg Memory.frames h.same :)

theorem policy_eq : w.policy = v.policy := (congrArg Memory.policy h.same :)

theorem files_eq : w.files = v.files := (congrArg Memory.files h.same :)

end Fields

theorem refl (hv : v.Sound) : Overlaid c v v := ⟨rfl, fun _ _ => rfl, hv.unmapped⟩

/-- A page in a frame is mapped to that frame. -/
theorem mapped (h : Overlaid c v w) (hv : v.Sound) (hp : v.pages s page.va = some page) :
    ∀ n, page.frame = some n → (w.entries s page.va).map (·.frame) = some n := by
  intro n hf
  obtain ⟨e, he⟩ := Option.isSome_iff_exists.mp (hv.resident hp hf)
  rw [h.resident hp (hf ▸ rfl), he, Option.map_some, hv.frame_eq hp hf he]

/-- A page is copied on both sides. -/
theorem copied (h : Overlaid c v w) (hv : v.Sound) (hne : s ≠ c) (hp : v.pages s page.va = some page)
    (hd : v.pages c page.va = none) (swap' : SwapSpace) :
    Overlaid c (v.adopt s c page backing swap)
      (({ w with swap := swap', files := w.files.retainSource backing.source } : Memory π).linked s c page
        backing) := by
  have hraw : page.frame = none → v.entries s page.va = none := hv.entry_eq_none hp
  have hmapped := (Overlaid.refl (c := c) hv).mapped hv hp
  have hmapped' := h.mapped hv hp
  have hnone := hv.unmapped hd
  have hnone' := h.bare hd
  rw [← linked_eq_adopt hne hraw]
  refine ⟨linked_same ?_, fun {t a p} hpage hsome => ?_, fun {a} hgone => ?_⟩
  · rw [h.files_eq]
    exact congrArg (fun u : Memory π => { u with swap := swap', files := v.files.retainSource backing.source })
      h.same
  · rw [pages_linked, setAt_apply] at hpage
    rw [entries_linked backing (by exact hmapped') (by exact hnone'),
      entries_linked backing (by exact hmapped) (by exact hnone)]
    dsimp only
    -- Where the copy is, and where its original is, both sides have what the original is mapped to.
    have hsame (hf : page.frame.isSome) := h.resident hp hf
    have hother (hq : v.pages t a = some p) := h.resident hq hsome
    grind
  · rw [pages_linked, setAt_apply] at hgone
    rw [entries_linked backing (by exact hmapped') (by exact hnone')]
    have hbare := h.bare (a := a)
    grind

theorem spared (h : Overlaid c v w) (nextSerial : Nat) (swap swap' : SwapSpace) (files : FileStore) :
    Overlaid c { v with nextSerial, swap, files } { w with nextSerial, swap := swap', files } :=
  ⟨congrArg (fun u : Memory π => { u with nextSerial, swap := swap', files }) h.same, h.resident, h.bare⟩

variable [ReplacementPolicy π]

/-- A copy goes on both sides. -/
theorem destroyed (h : Overlaid c v w) (hv : v.Valid) (hp : v.pages c page.va = some page) :
    Overlaid c (v.discard c page) (w.destroyed c page) := by
  have hentries := entries_destroyed w c page
  have hentries' : (v.discard c page).entries = setAt v.entries c page.va none := by
    rw [discard_eq hv hp]
    exact entries_destroyed v c page
  refine ⟨?_, fun {t a p} hpage hsome => ?_, fun {a} hnone => ?_⟩
  · rw [discard_eq hv hp]
    exact destroyed_same h.same
  · rw [pages_discard, setAt_apply] at hpage
    rw [hentries, hentries', setAt_apply, setAt_apply]
    have hother (hq : v.pages t a = some p) := h.resident hq hsome
    grind
  · rw [pages_discard, setAt_apply] at hnone
    rw [hentries, setAt_apply]
    have hbare := h.bare (a := a)
    grind

end Overlaid

section Beside
variable {v₀ w₀ : Memory π}

/-- Pages of space `s` are on loan to space `c`. Memory `w` has raw mappings, and `v` is the same memory
without them. It all started from `v₀` and `w₀`. -/
structure LentBeside (s c : Nat) (v₀ w₀ v w : Memory π) : Prop where
  valid : v.Valid
  lent : Lent s c v₀ v
  overlaid : Overlaid c v w
  remapped : Remapped s c w₀ w

namespace LentBeside
variable [ReplacementPolicy π]

omit [ReplacementPolicy π] in
/-- A copy is not dirty. -/
theorem clean (h : LentBeside s c v₀ w₀ v w) (hv₀ : v₀.Valid) (hempty : ∀ a, v₀.pages c a = none)
    (hp : v.pages c page.va = some page) (hsome : page.frame.isSome) : ¬w.Dirty c page.va := by
  rintro ⟨e, he, hdirty⟩
  rw [h.overlaid.resident hp hsome] at he
  obtain ⟨e₀, he₀, -⟩ := h.lent.dirty c page.va ⟨e, he, hdirty⟩
  rw [hv₀.sound.unmapped (hempty _)] at he₀
  cases he₀

omit [ReplacementPolicy π] in
/-- What tables show makes no difference. -/
theorem hidden (h : LentBeside s c v₀ w₀ v w) (hidden : Nat → Nat → Bool) :
    LentBeside s c v₀ w₀ v (w.hide hidden) where
  valid := h.valid
  lent := h.lent
  overlaid := ⟨congrArg (·.hide hidden) h.overlaid.same, h.overlaid.resident, h.overlaid.bare⟩
  remapped := h.remapped.trans (.of_eq rfl)

theorem spared (h : LentBeside s c v₀ w₀ v w) (hv₀ : v₀.Valid) (hempty : ∀ a, v₀.pages c a = none)
    (hs : v.Spared v') (hw : v'.Overlaid c w') (he : w'.entries = w.entries) :
    LentBeside s c v₀ w₀ v' w' where
  valid := h.valid.course hs.rests
  lent := h.lent.spared (fun _ => h.lent.used hv₀ h.valid hempty) hs
  overlaid := hw
  remapped := h.remapped.trans (.of_eq he)

theorem copied (h : LentBeside s c v₀ w₀ v w) (hv₀ : v₀.Valid) (hplain : v₀.Plain)
    (hempty : ∀ a, v₀.pages c a = none) (hne : s ≠ c) (hc : c < v.spaces)
    (hp : v.pages s page.va = some page) (hd : v.pages c page.va = none)
    (huser : ∀ n, page.frame = some n → page.va < kernelBase ∧ n < PageTableEntry.frameLimit)
    (hb : v.Duplicated page.backing backing swap) :
    LentBeside s c v₀ w₀ (v.adopt s c page backing swap)
      (({ w with swap, files := w.files.retainSource backing.source } : Memory π).linked s c page
        backing) := by
  have ha : v.Alters (.copy s c page) (v.adopt s c page backing swap) :=
    .copy hp hc hd (fun n hn => (huser n hn).2) hb
  have hkernel (hsome : page.frame.isSome) : page.va < kernelBase := by
    obtain ⟨n, hn⟩ := Option.isSome_iff_exists.mp hsome
    exact (huser n hn).1
  have hswapped : Remapped s c w { w with swap, files := w.files.retainSource backing.source } := .of_eq rfl
  have hmapped := h.overlaid.mapped h.valid.sound hp
  exact
    { valid := h.valid.evolves (.of_change ha)
      lent := h.lent.copied h.valid (fun _ => h.lent.used hv₀ h.valid hempty) hplain hne hkernel ha
      overlaid := h.overlaid.copied h.valid.sound hne hp hd swap
      remapped := (h.remapped.trans hswapped).trans (.linked hmapped (h.overlaid.bare hd)) }

theorem destroyed (h : LentBeside s c v₀ w₀ v w) (hne : s ≠ c) (hp : v.pages c page.va = some page) :
    LentBeside s c v₀ w₀ (v.discard c page) (w.destroyed c page) where
  valid := h.valid.evolves (.of_change (.remove hp))
  lent := h.lent.discarded h.valid hne hp
  overlaid := h.overlaid.destroyed h.valid hp
  remapped := h.remapped.trans (.destroyed w c page)

end LentBeside
end Beside

end Memory
end DemandPaging
