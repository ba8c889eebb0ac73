import DemandPaging.Proofs.Entries
import DemandPaging.Proofs.Faults

/-! # Pages that wait for their file

A page of a program reads its bytes from the file of the program when it is first used, which may be
long after it was added. In `Calm` memory no file that such a page waits for has bytes that are still
to be written back, so that the file does not change under it.
-/
namespace DemandPaging

namespace Memory
variable {π : Type}

/-- A page of a program waits for bytes of the file. -/
def Awaits (v : Memory π) (file : Nat) : Prop :=
  ∃ s va p source, v.pages s va = some p ∧ p.backing = .uninit .anonymous source ∧
    source.file = some file

/-- Bytes that were written to a mapping of the file are still to be written back. -/
def Unsaved (v : Memory π) (file : Nat) : Prop :=
  ∃ s va p, v.pages s va = some p ∧ p.isFile = true ∧ p.source.file = some file ∧ v.Dirty s va

/-- Files in `W`, which are those that pages wait for and maybe more, have nothing unsaved, and pages
in `T`, which may be written, are not mapped from them. -/
structure Calm (W : Nat → Prop) (T : Nat → Nat → Prop) (v : Memory π) : Prop where
  valid : v.Valid
  roomy : v.Roomy
  awaited : ∀ {file}, v.Awaits file → W file
  saved : ∀ {file}, W file → ¬v.Unsaved file
  apart : ∀ {s va p file}, T s va → v.pages s va = some p → p.isFile = true →
    p.source.file = some file → ¬W file

/-- A change that leaves memory calm: what it makes pages wait for is in `W`, and it writes to pages
in `T` only. -/
def Change.Clean (W : Nat → Prop) (T : Nat → Nat → Prop) : Change → Prop
  | .insert s page => page.va < kernelBase ∧ (T s page.va → page.isFile = false) ∧
    ∀ source file, page.backing = .uninit .anonymous source → source.file = some file → W file
  | .copy _ dst _ => ∀ va, ¬T dst va
  | .write s va .. => T s va
  | .spawn willing => willing
  | .remove .. | .drop => True

theorem Change.Clean.atUser {W : Nat → Prop} {T : Nat → Nat → Prop} {c : Change}
    (h : c.Clean W T) : c.AtUser := by
  cases c with
  | insert => exact h.1
  | spawn => exact h
  | remove | copy | write | drop => trivial

section Awaits
variable {v w : Memory π} {s va file : Nat} {x : Option Page}

theorem Awaits.of_setAt (h : w.Awaits file) (hp : w.pages = setAt v.pages s va x)
    (hx : ∀ p source, x = some p → p.backing = .uninit .anonymous source →
      source.file = some file → v.Awaits file) : v.Awaits file := by
  obtain ⟨t, a, p, source, hpage, hb, hsource⟩ := h
  rw [hp, setAt_apply] at hpage
  split at hpage
  · exact hx p source hpage hb hsource
  · exact ⟨t, a, p, source, hpage, hb, hsource⟩

theorem Filled.not_uninit {backing backing' : Backing} {c : PageBytes} {swap : SwapSpace}
    (h : v.Filled backing c backing' swap) (target : Target) (source : Source) :
    backing' ≠ .uninit target source := by
  cases h with
  | uninit target => cases target <;> simp [Target.first]
  | blank | fetched | file => simp

theorem Saved.not_uninit {backing backing' : Backing} {c : PageBytes} {dirty : Prop} {swap : SwapSpace}
    (h : v.Saved c dirty backing backing' swap) (target : Target) (source : Source) :
    backing' ≠ .uninit target source := by
  cases h <;> simp

variable [ReplacementPolicy π]

/-- Paging makes no page wait for a file. -/
theorem Step.awaits_of (hs : Step v w) (h : w.Awaits file) : v.Awaits file := by
  cases hs with
  | serial | handles | swap | passed | unshared | touched => exact h
  | flushed hp hf hfile hw => cases hw <;> exact h
  | flushedShort hp hf hfile hw => cases hw <;> exact h
  | @evicted s n page backing swap hp hf hn hb =>
    refine h.of_setAt (pages_leave v s n { page with backing }) ?_
    rintro p source ⟨⟩ hback
    exact absurd hback (hb.not_uninit _ _)
  | @claimed s n page backing c swap hp hf hn hlt hfit hb =>
    refine h.of_setAt (pages_seat v s n { page with backing } page.writable c) ?_
    rintro p source ⟨⟩ hback
    exact absurd hback (hb.not_uninit _ _)
  | @refused s n page backing c swap hp hf hn hlt hb hr =>
    refine h.of_setAt (show _ = setAt v.pages s page.va _ from rfl) ?_
    rintro p source ⟨⟩ hback
    exact absurd hback (hb.not_uninit _ _)
  | @moved s old new page hp hf hw hold hnew hlt hfit =>
    refine h.of_setAt (pages_move v s old page new (v.frames old).contents) ?_
    rintro p source ⟨⟩ hback hsource
    exact ⟨_, _, page, source, hp, hback, hsource⟩

/-- Paging leaves nothing unsaved that was not before. -/
theorem Step.unsaved_of (hs : Step v w) (h : w.Unsaved file) : v.Unsaved file := by
  obtain ⟨s, va, p, hp, hfile, hsource, hdirty⟩ := h
  obtain ⟨q, hq, houtline⟩ := hs.exists_of_page hp
  simp only [Page.outline, Prod.mk.injEq] at houtline
  obtain ⟨-, -, -, hs', hf'⟩ := houtline
  exact ⟨s, va, q, hq, hf' ▸ hfile, hs' ▸ hsource, hs.dirty_of hdirty⟩

end Awaits

namespace Calm
variable {v w : Memory π} {W : Nat → Prop} {T : Nat → Nat → Prop} [ReplacementPolicy π]

theorem step (h : Calm W T v) (hs : Step v w) : Calm W T w where
  valid := h.valid.step hs
  roomy := h.roomy.step hs
  awaited hw := h.awaited (hs.awaits_of hw)
  saved hW hw := h.saved hW (hs.unsaved_of hw)
  apart := by
    intro s va p file hT hp hfile hsource
    obtain ⟨q, hq, houtline⟩ := hs.exists_of_page hp
    simp only [Page.outline, Prod.mk.injEq] at houtline
    obtain ⟨-, -, -, hs', hf'⟩ := houtline
    exact h.apart hT hq (hf' ▸ hfile) (hs' ▸ hsource)

omit [ReplacementPolicy π] in
/-- A page that is not there has no mapping. -/
theorem not_dirty (h : Calm W T v) {s va : Nat} (hp : v.pages s va = none) : ¬v.Dirty s va := by
  rintro ⟨e, he, -⟩
  obtain ⟨p, hp', -⟩ := h.valid.sound.mapped he
  rw [hp] at hp'
  cases hp'

theorem insert {s : Nat} {page : Page} (h : Calm W T v) (hc : (Change.insert s page).Clean W T)
    (ha : Alters v (.insert s page) w) : Calm W T w := by
  have hvalid := h.valid.evolves (.of_change ha)
  have hroomy := h.roomy.change hc.atUser ha
  obtain ⟨rfl, hnone⟩ := ha.of_insert
  obtain ⟨-, hT, hW⟩ := hc
  refine ⟨hvalid, hroomy, fun {file} hw => ?_, fun {file} hfile hw => ?_, ?_⟩
  · obtain ⟨t, a, p, source, hp, hb, hsource⟩ := hw
    simp only [add, setPage, setAt_apply] at hp
    split at hp
    · obtain rfl := Option.some.inj hp
      exact hW source file hb hsource
    · exact h.awaited ⟨t, a, p, source, hp, hb, hsource⟩
  · obtain ⟨t, a, p, hp, hf, hsource, hdirty⟩ := hw
    have hdirty : v.Dirty t a := hdirty
    simp only [add, setPage, setAt_apply] at hp
    split at hp
    · rename_i hat
      rw [hat.1, hat.2] at hdirty
      exact h.not_dirty hnone hdirty
    · exact h.saved hfile ⟨t, a, p, hp, hf, hsource, hdirty⟩
  · intro t a p file hTa hp hf
    simp only [add, setPage, setAt_apply] at hp
    split at hp
    · rename_i hat
      obtain rfl := Option.some.inj hp
      rw [hat.1, hat.2] at hTa
      rw [hT hTa] at hf
      cases hf
    · exact h.apart hTa hp hf

theorem remove {s : Nat} {page : Page} (h : Calm W T v) (ha : Alters v (.remove s page) w) :
    Calm W T w := by
  have hvalid := h.valid.evolves (.of_change ha)
  have hroomy := h.roomy.change (c := .remove s page) trivial ha
  cases ha with
  | remove hp' =>
  have hsub : ∀ {t a p}, (v.discard s page).pages t a = some p → v.pages t a = some p := by
    intro t a p hp
    rw [pages_discard, setAt_apply] at hp
    split at hp
    · cases hp
    · exact hp
  refine ⟨hvalid, hroomy, fun {file} hw => ?_, fun {file} hfile hw => ?_, ?_⟩
  · obtain ⟨t, a, p, source, hp, hb⟩ := hw
    exact h.awaited ⟨t, a, p, source, hsub hp, hb⟩
  · obtain ⟨t, a, p, hp, hf, hsource, hdirty⟩ := hw
    exact h.saved hfile ⟨t, a, p, hsub hp, hf, hsource, dirty_of_discard hdirty⟩
  · intro t a p file hTa hp
    exact h.apart hTa (hsub hp)

theorem copy {src dst : Nat} {page : Page} (h : Calm W T v) (hc : (Change.copy src dst page).Clean W T)
    (ha : Alters v (.copy src dst page) w) : Calm W T w := by
  have hvalid := h.valid.evolves (.of_change ha)
  have hroomy := h.roomy.change hc.atUser ha
  cases ha with
  | @copy _ _ _ backing swap hp' hdst hd hfit hb =>
  have hpages := pages_adopt v page src dst backing swap
  refine ⟨hvalid, hroomy, fun {file} hw => ?_, fun {file} hfile hw => ?_, ?_⟩
  · refine h.awaited (hw.of_setAt hpages ?_)
    rintro p source ⟨⟩ hback hsource
    refine ⟨src, page.va, page, source, hp', ?_, hsource⟩
    dsimp only at hback
    subst hback
    generalize page.backing = old at hb
    cases hb with
    | same => rfl
  · obtain ⟨t, a, p, hp, hf, hsource, hdirty⟩ := hw
    have hdirty := dirty_of_adopt hdirty
    rw [hpages, setAt_apply] at hp
    split at hp
    · rename_i hat
      rw [hat.1, hat.2] at hdirty
      exact h.not_dirty hd hdirty
    · exact h.saved hfile ⟨t, a, p, hp, hf, hsource, hdirty⟩
  · intro t a p file hTa hp
    rw [hpages, setAt_apply] at hp
    split at hp
    · rename_i hat
      rw [hat.1] at hTa
      exact absurd hTa (hc a)
    · exact h.apart hTa hp

theorem write {s va start : Nat} {bytes : List UInt8} (h : Calm W T v) (hT : T s va)
    (ha : Alters v (.write s va start bytes) w) : Calm W T w := by
  have hvalid := h.valid.evolves (.of_change ha)
  have hroomy := h.roomy.change (c := .write s va start bytes) trivial ha
  cases ha with
  | write record hp' hf' he hw =>
  refine ⟨hvalid, hroomy, h.awaited, fun {file} hfile hw => ?_, h.apart⟩
  obtain ⟨t, a, p, hp, hf, hsource, hdirty⟩ := hw
  by_cases hat : t = s ∧ a = va
  · rw [hat.1, hat.2] at hp
    exact h.apart hT hp hf hsource hfile
  · obtain ⟨e', hentry, hd⟩ := hdirty
    have hentry : v.entries t a = some e' := (setAt_of_ne hat).symm.trans hentry
    exact h.saved hfile ⟨t, a, p, hp, hf, hsource, e', hentry, hd⟩

theorem change {c : Change} (h : Calm W T v) (hc : c.Clean W T) (ha : Alters v c w) : Calm W T w := by
  cases c with
  | insert s page => exact h.insert hc ha
  | remove s page => exact h.remove ha
  | copy src dst page => exact h.copy hc ha
  | write s va start bytes => exact h.write hc ha
  | spawn | drop =>
    have hvalid := h.valid.evolves (.of_change ha)
    have hroomy := h.roomy.change hc.atUser ha
    cases ha
    exact ⟨hvalid, hroomy, h.awaited, h.saved, h.apart⟩

end Calm

end Memory

end DemandPaging
