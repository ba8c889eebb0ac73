import DemandPaging.Proofs.Entries
import DemandPaging.Proofs.Residence
import DemandPaging.Machine.SpaceCopy

/-! # Giving pages up

Pages leave their table before what they hold is given back, one after the other when a space is
emptied. In between memory is as if they were still there, except that their tables no longer show
them: `hide` takes such pages out of sight.
-/
namespace DemandPaging
open Memory (Change)

theorem values_eq {α : Type} (t : Std.ExtTreeMap Nat α) : t.values = t.toList.map Prod.snd := by
  obtain ⟨⟨t⟩⟩ := t
  induction t using Quotient.ind with
  | _ t =>
    show t.inner.values = (Std.DTreeMap.Internal.Impl.Const.toList t.inner).map Prod.snd
    rw [Std.DTreeMap.Internal.Impl.values_eq_map_snd,
      Std.DTreeMap.Internal.Impl.Const.toList_eq_toListModel_map, List.map_map]
    rfl

namespace Memory
variable {π : Type} {v w u : Memory π} {s va n : Nat} {page : Page} {hidden : Nat → Nat → Bool}

/-- Memory with some pages out of sight. -/
def hide (v : Memory π) (hidden : Nat → Nat → Bool) : Memory π :=
  { v with pages := fun t a => if hidden t a then none else v.pages t a }

theorem hide_eq_self (h : ∀ t a, hidden t a = true → v.pages t a = none) : v.hide hidden = v := by
  refine Memory.ext rfl rfl rfl rfl ?_ rfl rfl rfl rfl rfl
  funext t a
  simp only [hide]
  split
  · rename_i hta
    exact (h t a hta).symm
  · rfl

theorem Flushed.of_hide {source : Source} (h : (v.hide hidden).Flushed s va n source u) :
    ∃ w, v.Flushed s va n source w ∧ u = w.hide hidden := by
  cases h with
  | clean h => exact ⟨v, .clean h, rfl⟩
  | done hs he hd hw => exact ⟨_, .done hs he hd hw, rfl⟩

theorem FlushedShort.of_hide {source : Source} (h : (v.hide hidden).FlushedShort s va n source u) :
    ∃ w, v.FlushedShort s va n source w ∧ u = w.hide hidden := by
  cases h with
  | detached => exact ⟨v, .detached, rfl⟩
  | short hs he hd hw => exact ⟨_, .short hs he hd hw, rfl⟩

/-- Nothing is written back of a page that is not dirty. -/
theorem Flushed.eq_of_clean {source : Source} (h : v.Flushed s va n source w) (hclean : ¬v.Dirty s va) :
    w = v := by
  cases h with
  | clean => rfl
  | done hs he hd hw => exact absurd ⟨_, he, hd⟩ hclean

theorem FlushedShort.eq_of_clean {source : Source} (h : v.FlushedShort s va n source w)
    (hclean : ¬v.Dirty s va) : w = v := by
  cases h with
  | detached => rfl
  | short hs he hd hw => exact absurd ⟨_, he, hd⟩ hclean

/-- These pages of a space go, one after the other. -/
inductive Discards [ReplacementPolicy π] (s : Nat) : List Page → Memory π → Memory π → Prop
  | nil (v : Memory π) : Discards s [] v v
  | cons {pages : List Page} {page : Page} {v w : Memory π} (hp : v.pages s page.va = some page)
    (h : Discards s pages (v.discard s page) w) : Discards s (page :: pages) v w

/-- Files take as much as before a write that fell short. -/
theorem FlushedShort.takes_of {source : Source} (h : v.FlushedShort s va n source w)
    (ht : source.Takes w.files) : source.Takes v.files := by
  obtain ⟨file, hs, hlimit, hlength⟩ := ht
  refine ⟨file, hs, h.transfers file ▸ hlimit, ?_⟩
  cases h with
  | detached => exact hlength
  | short _ he hd hw => rwa [FileStore.length_writeAt hw] at hlength

end Memory

variable {π : Type} [ReplacementPolicy π] {m : Machine π} {v : Memory π} {s va : Nat} {page : Page}
  {hidden : Nat → Nat → Bool}

/-- A page that is about to go is written back, as far as its file takes its bytes. -/
theorem flushPage_ends (h : v.Valid) (hp : v.pages s page.va = some page)
    (hm : m.memory = v.hide hidden) :
    Run.Ends False (flushPage s page) m fun _ after =>
      ∃ w, Memory.Rests v w ∧ w.pages = v.pages ∧ (Change.remove s page).Settled w ∧
        (¬v.Dirty s page.va → w = v) ∧ after.memory = w.hide hidden := by
  have hva := (h.sound.kept hp).2.1
  have hsame (hclean : (Change.remove s page).Settled v) :
      Run.Ends False (pure ⟨⟩ : Run π Unit) m fun _ after =>
        ∃ w, Memory.Rests v w ∧ w.pages = v.pages ∧ (Change.remove s page).Settled w ∧
          (¬v.Dirty s page.va → w = v) ∧ after.memory = w.hide hidden :=
    ⟨v, .refl v, rfl, hclean, fun _ => rfl, hm⟩
  have hout (hf : page.frame = none) : (Change.remove s page).Settled v := by
    rintro - ⟨e, he, -⟩
    exact absurd (he.symm.trans (h.sound.entry_eq_none hp hf)) nofun
  cases hb : page.backing with
  | uninit target source =>
    simp only [flushPage, hb]
    refine hsame (hout ?_)
    by_contra hne
    exact h.stowed.filled hp (Option.isSome_iff_ne_none.mpr hne) target source hb
  | anonymous source slot =>
    simp only [flushPage, hb]
    refine hsame fun hfile => ?_
    rw [Page.isFile, hb] at hfile
    cases hfile
  | fileBacked source evicted =>
    cases hf : page.frame with
    | none =>
      simp only [flushPage, hb, hf]
      exact hsame (hout hf)
    | some n =>
      have hfile : page.isFile = true := by rw [Page.isFile, hb]; rfl
      have hsource : page.source = source := by rw [Page.source, hb]; rfl
      simp only [flushPage, hb, hf, Run.ends_bind, Run.ends_run]
      refine (writeBack_ends source hva).imp ?_ ?_
      · intro _ after hw
        rw [hm] at hw
        obtain ⟨w, hw, hafter⟩ := hw.of_hide
        exact ⟨w, .of_step (.flushed hp hf hfile (hsource ▸ hw)) (.of_pages hw.same.1 hw.transfers),
          hw.same.1, fun _ hdirty => absurd hdirty hw.not_dirty, hw.eq_of_clean, hafter⟩
      · rintro e after ⟨-, hw, htakes⟩
        rw [show m.files = v.files from congrArg Memory.files hm] at htakes
        rw [hm] at hw
        obtain ⟨w, hw, hafter⟩ := hw.of_hide
        refine ⟨w, .of_step (.flushedShort hp hf hfile (hsource ▸ hw)) (.of_pages hw.same hw.transfers),
          hw.same, fun _ _ hall => ?_, hw.eq_of_clean, hafter⟩
        rw [hsource] at hall
        exact htakes (hw.takes_of hall)

/-- Memory once all that a page holds has been taken back, whatever its table shows. -/
def Memory.destroyed (v : Memory π) (s : Nat) (page : Page) : Memory π :=
  let stripped := ({ v with
    swap := v.swap.freeSlot page.backing.slot?
    files := v.files.releaseSource page.source } : Memory π).setEntry s page.va none
  match page.frame with
  | some n => stripped.release n s page.va
  | none => stripped

theorem Machine.memory_destroyed (hva : page.va % pageSize = 0)
    (hn : ∀ n, page.frame = some n → n < m.frames.size) :
    (match page.frame with
      | some n => (((m.freeSlot page.backing.slot?).releaseSource page.source).unmap s page.va).release n
          s page.va
      | none => ((m.freeSlot page.backing.slot?).releaseSource page.source).unmap s page.va).memory =
      m.memory.destroyed s page := by
  have hunmap := memory_unmap (m := (m.freeSlot page.backing.slot?).releaseSource page.source) s page.va
  rw [memory_releaseSource, memory_freeSlot, pageDown_eq_self hva] at hunmap
  generalize ((m.freeSlot page.backing.slot?).releaseSource page.source).unmap s page.va = m₁ at hunmap
  unfold Memory.destroyed
  cases hf : page.frame with
  | none => exact hunmap
  | some n =>
    dsimp only
    rw [memory_release (Machine.lt_frames hunmap (hn n hf)), hunmap]

theorem Memory.discard_eq (h : v.Valid) (hp : v.pages s page.va = some page) :
    v.discard s page = (v.destroyed s page).setPage s page.va none := by
  unfold destroyed
  cases hf : page.frame with
  | none =>
    simp only [discard, quit, hf, setPage, setEntry, setAt_eq_self (h.sound.entry_eq_none hp hf)]
  | some n =>
    simp only [discard, quit, hf, leave, setPage, setEntry, release, put, setFrame, setAt_setAt,
      Function.update_self, Function.update_idem]

theorem Memory.destroyed_hide (v : Memory π) (s : Nat) (page : Page) :
    (v.hide hidden).destroyed s page = (v.destroyed s page).hide hidden := by
  unfold destroyed
  cases page.frame <;> rfl

omit [ReplacementPolicy π] in
/-- A table shows as much of hidden pages as when they are not there. -/
theorem Memory.hide_setPage (hh : hidden s va = true) : (v.setPage s va none).hide hidden = v.hide hidden := by
  refine Memory.ext rfl rfl rfl rfl (funext fun t => funext fun a => ?_) rfl rfl rfl rfl rfl
  simp only [hide, setPage, setAt_apply]
  split
  · rfl
  · rename_i hta
    refine if_neg ?_
    rintro ⟨rfl, rfl⟩
    exact hta hh

/-- What the machine does to take back all that a hidden page holds. -/
theorem Machine.memory_destroy (h : v.Valid) (hp : v.pages s page.va = some page)
    (hm : m.memory = v.hide hidden) (hh : hidden s page.va = true) :
    (match page.frame with
      | some n => (((m.freeSlot page.backing.slot?).releaseSource page.source).unmap s page.va).release n
          s page.va
      | none => ((m.freeSlot page.backing.slot?).releaseSource page.source).unmap s page.va).memory =
      (v.discard s page).hide hidden := by
  rw [memory_destroyed (h.sound.kept hp).2.1 fun n hf =>
    Machine.lt_frames hm (h.sound.resident_frame hp hf).2, hm, Memory.destroyed_hide, Memory.discard_eq h hp,
    Memory.hide_setPage hh]

/-- A page that its table no longer shows is taken from memory, after it was written back if it is
dirty. -/
theorem destroyPage_ends (h : v.Valid) (hp : v.pages s page.va = some page)
    (hm : m.memory = v.hide hidden) (hh : hidden s page.va = true) :
    Run.Ends False (destroyPage s page) m fun _ after =>
      ∃ w, Memory.Quiet [.remove s page] v w ∧ w.pages = setAt v.pages s page.va none ∧
        (¬v.Dirty s page.va → w = v.discard s page) ∧ after.memory = w.hide hidden := by
  simp only [destroyPage, Run.ends_bind, Run.ends_modify, Run.ends_pure]
  refine (flushPage_ends h hp hm).imp ?_
  rintro _ m₁ ⟨u, hrests, hsame, hsettled, hclean, hm₁⟩
  have hp' : u.pages s page.va = some page := by rw [hsame, hp]
  have hgone := Machine.memory_destroy (h.course hrests) hp' hm₁ hh
  refine ⟨_, hrests.trans (.of_change (.remove hp') hsettled), ?_, fun hd => by rw [hclean hd], hgone⟩
  rw [Memory.pages_discard, hsame]

omit [ReplacementPolicy π] in
/-- Of a page that is not dirty nothing is written back, whether memory is valid or not. -/
theorem flushPage_clean (hva : page.va % pageSize = 0)
    (hclean : page.frame.isSome → ¬m.memory.Dirty s page.va) :
    Run.Ends False (flushPage s page) m fun _ after => after.memory = m.memory := by
  unfold flushPage
  split
  · rename_i hf
    have hclean := hclean (hf ▸ rfl)
    simp only [Run.ends_bind, Run.ends_run]
    refine (writeBack_ends _ hva).imp ?_ ?_
    · exact fun _ after hflushed => hflushed.eq_of_clean hclean
    · rintro e after ⟨-, hshort, -⟩
      exact hshort.eq_of_clean hclean
  · exact rfl

theorem destroyPage_clean (hva : page.va % pageSize = 0) (hn : ∀ n, page.frame = some n → n < m.frames.size)
    (hclean : page.frame.isSome → ¬m.memory.Dirty s page.va) :
    Run.Ends False (destroyPage s page) m fun _ after => after.memory = m.memory.destroyed s page := by
  simp only [destroyPage, Run.ends_bind, Run.ends_modify, Run.ends_pure]
  refine (flushPage_clean hva hclean).imp fun _ m₁ hm₁ => ?_
  have hgone := Machine.memory_destroyed (m := m₁) (s := s) hva fun n hf => Machine.lt_frames hm₁ (hn n hf)
  rw [hm₁] at hgone
  exact hgone

/-- A page is removed with all that it holds, after it was written back if it is dirty. -/
theorem removePage_discards (h : m.memory.Valid) (va : Nat) :
    Run.Ends False (removePage s va) m fun answer after =>
      (answer = false ∧ m.memory.pages s (pageDown va) = none ∧ after.memory = m.memory) ∨
      ∃ page, answer = true ∧ m.memory.pages s (pageDown va) = some page ∧
        Memory.Quiet [.remove s page] m.memory after.memory ∧
        after.memory.pages = setAt m.memory.pages s (pageDown va) none ∧
        (¬m.memory.Dirty s (pageDown va) → after.memory = m.memory.discard s page) := by
  simp only [removePage, Run.ends_bind, Run.ends_get]
  cases hp : m.page? s va with
  | none => exact .inl ⟨rfl, hp, rfl⟩
  | some page =>
    simp only [Run.ends_bind, Run.ends_modify, Run.ends_pure]
    rw [Machine.page?_eq] at hp
    have hva := (h.sound.kept hp).1
    rw [← hva] at hp
    have hm : (m.modifySpace s (·.erase page.va)).memory =
        m.memory.hide fun t a => t == s && a == page.va := by
      rw [Machine.memory_erase]
      refine Memory.ext rfl rfl rfl rfl ?_ rfl rfl rfl rfl rfl
      funext t a
      simp [Memory.hide, Memory.setPage, setAt_apply]
    refine (destroyPage_ends h hp hm (by simp)).imp ?_
    rintro _ after ⟨w, hw, hpages, hdiscard, hafter⟩
    have hself : w.hide (fun t a => t == s && a == page.va) = w := by
      refine Memory.hide_eq_self fun t a hta => ?_
      simp only [Bool.and_eq_true, beq_iff_eq] at hta
      rw [hpages, hta.1, hta.2, setAt_self]
    rw [hself] at hafter
    rw [← hva]
    exact .inr ⟨page, trivial, hp, hafter ▸ hw, hafter ▸ hpages,
      fun hclean => hafter.trans (hdiscard hclean)⟩

theorem removePage_ends (h : m.memory.Valid) (va : Nat) :
    Run.Ends False (removePage s va) m fun answer after =>
      (answer = false ∧ m.memory.pages s (pageDown va) = none ∧ after.memory = m.memory) ∨
      ∃ page, answer = true ∧ m.memory.pages s (pageDown va) = some page ∧
        Memory.Quiet [.remove s page] m.memory after.memory ∧
        after.memory.pages = setAt m.memory.pages s (pageDown va) none :=
  (removePage_discards h va).imp fun _ _ hends => hends.imp_right
    fun ⟨page, hanswer, hp, hquiet, hpages, _⟩ => ⟨page, hanswer, hp, hquiet, hpages⟩

/-- Pages that their table no longer shows are taken from memory one after the other, and where none is
dirty nothing else is done. -/
theorem destroyPages_ends {pages : List Page} (h : v.Valid) (hm : m.memory = v.hide hidden)
    (hp : ∀ p ∈ pages, v.pages s p.va = some p ∧ hidden s p.va = true)
    (hnodup : (pages.map (·.va)).Nodup) :
    Run.Ends False (destroyPages s pages) m fun _ after =>
      ∃ w, Memory.Quiet (pages.map (.remove s)) v w ∧ after.memory = w.hide hidden ∧
        (∀ t a, w.pages t a = if t = s ∧ a ∈ pages.map (·.va) then none else v.pages t a) ∧
        ((∀ a, ¬v.Dirty s a) → v.Discards s pages w) := by
  induction pages generalizing m v with
  | nil => exact ⟨v, .refl v, hm, fun t a => by simp, fun _ => .nil v⟩
  | cons page rest ih =>
    obtain ⟨hpage, hh⟩ := hp page (List.mem_cons_self ..)
    simp only [List.map_cons, List.nodup_cons] at hnodup
    simp only [destroyPages, Run.ends_bind]
    refine (destroyPage_ends h hpage hm hh).imp ?_
    rintro _ m₁ ⟨u, hu, hpages, hdiscard, hm₁⟩
    have hrest : ∀ p ∈ rest, u.pages s p.va = some p ∧ hidden s p.va = true := by
      intro p hmem
      have hne : p.va ≠ page.va := fun heq => hnodup.1 (heq ▸ List.mem_map_of_mem hmem)
      obtain ⟨hpv, hhv⟩ := hp p (List.mem_cons_of_mem _ hmem)
      exact ⟨by rw [hpages, setAt_of_ne fun hat => hne hat.2, hpv], hhv⟩
    refine (ih (h.course hu) hm₁ hrest hnodup.2).imp ?_
    rintro _ after ⟨w, hw, hafter, hw', hdiscards⟩
    refine ⟨w, hu.trans hw, hafter, fun t a => ?_, fun hclean => ?_⟩
    · rw [hw', hpages, setAt_apply]
      simp only [List.map_cons, List.mem_cons]
      grind
    · obtain rfl := hdiscard (hclean _)
      exact .cons hpage (hdiscards fun a hdirty => hclean a (Memory.dirty_of_discard hdirty))

omit [ReplacementPolicy π] in
theorem Machine.memory_cleared (s : Nat) :
    (m.modifySpace s (·.cleared)).memory = m.memory.hide fun t _ => t == s := by
  refine memory_modifySpace_eq Iff.rfl ?_ ?_ <;> intro t a
  · simp only [Space.cleared, beq_iff_eq]
    by_cases ht : t = s
    · subst ht
      by_cases hs : t < m.spaces.size
      · simp [hs]
      · simp [hs, (memory_spaceless (Nat.le_of_not_lt hs)).1]
    · simp [ht]
  · simp only [Space.cleared, memory]
    split
    · rename_i h
      rw [h.1]
    · rfl

omit [ReplacementPolicy π] in
/-- The pages of a table in which each is kept under its own address. -/
theorem Machine.of_values (h : ∀ a p, m.memory.pages s a = some p → p.va = a) :
    (∀ p, p ∈ (m.space s).pages.values ↔ m.memory.pages s p.va = some p) ∧
      ((m.space s).pages.values.map (·.va)).Nodup := by
  have hmem : ∀ a p, (a, p) ∈ (m.space s).pages.toList ↔ m.memory.pages s a = some p := fun a p =>
    Std.ExtTreeMap.mem_toList_iff_getElem?_eq_some
  rw [values_eq]
  refine ⟨fun p => ⟨fun hp => ?_, fun hp => List.mem_map.mpr ⟨(p.va, p), (hmem p.va p).mpr hp, rfl⟩⟩, ?_⟩
  · obtain ⟨⟨a, q⟩, he, rfl⟩ := List.mem_map.mp hp
    have hq := (hmem a q).mp he
    exact (h a q hq).symm ▸ hq
  · have hkeys : ((m.space s).pages.toList.map Prod.snd).map (·.va) = (m.space s).pages.keys := by
      rw [List.map_map, ← Std.ExtTreeMap.map_fst_toList_eq_keys]
      exact List.map_congr_left fun e he => h e.1 e.2 ((hmem e.1 e.2).mp he)
    rw [hkeys]
    exact Std.ExtTreeMap.nodup_keys

/-- Emptying a space takes its pages from memory, and does nothing else where none is dirty. -/
theorem emptySpace_discards (h : m.memory.Valid) (s : Nat) :
    Run.Ends False (emptySpace s) m fun _ after =>
      ∃ pages : List Page, Memory.Quiet (pages.map (.remove s)) m.memory after.memory ∧
        (∀ t a, after.memory.pages t a = if t = s then none else m.memory.pages t a) ∧
        ((∀ a, ¬m.memory.Dirty s a) → m.memory.Discards s pages after.memory) := by
  simp only [emptySpace, Run.ends_bind, Run.ends_get, Run.ends_modify]
  have hkept (a : Nat) (p : Page) (hp : m.memory.pages s a = some p) : p.va = a := (h.sound.kept hp).1
  obtain ⟨hmem, hnodup⟩ := Machine.of_values hkept
  have hall : ∀ a, m.memory.pages s a ≠ none → a ∈ (m.space s).pages.values.map (·.va) := by
    intro a ha
    obtain ⟨p, hp⟩ := Option.ne_none_iff_exists'.mp ha
    obtain rfl := (h.sound.kept hp).1
    exact List.mem_map.mpr ⟨p, (hmem p).mpr hp, rfl⟩
  have hpages : ∀ p ∈ (m.space s).pages.values, m.memory.pages s p.va = some p ∧ (s == s) = true :=
    fun p hp => ⟨(hmem p).mp hp, beq_self_eq_true s⟩
  refine (destroyPages_ends h (Machine.memory_cleared s) hpages hnodup).imp ?_
  rintro _ after ⟨w, hw, hafter, hw', hdiscards⟩
  have hself : w.hide (fun t _ => t == s) = w := by
    refine Memory.hide_eq_self fun t a hta => ?_
    obtain rfl := eq_of_beq hta
    rw [hw']
    grind
  rw [hself] at hafter
  refine ⟨_, hafter ▸ hw, fun t a => ?_, fun hclean => hafter ▸ hdiscards hclean⟩
  rw [hafter, hw']
  grind

/-- Emptying a space removes its pages, and no others. -/
theorem emptySpace_ends (h : m.memory.Valid) (s : Nat) :
    Run.Ends False (emptySpace s) m fun _ after =>
      ∃ pages : List Page, Memory.Quiet (pages.map (.remove s)) m.memory after.memory ∧
        ∀ t a, after.memory.pages t a = if t = s then none else m.memory.pages t a := by
  refine (emptySpace_discards h s).imp ?_
  rintro _ after ⟨pages, hquiet, hpages, -⟩
  exact ⟨pages, hquiet, hpages⟩

end DemandPaging
