import DemandPaging.Proofs.Accounting

/-! # Marks of mappings

A mapping is made with a frame and the right to write, and is only marked from then on. So every entry
is `Plain`, and when its frame is mapped again for reading alone it loses nothing but its accessed mark
and that right. Dirty marks come from writes, never from paging.
-/
namespace DemandPaging

namespace PageTableEntry

@[simp] theorem dirty_remap_none (n : Nat) (writable : Bool) :
    (remap none n writable).has .dirty = false := by
  simp [remap]

theorem dirty_of_remap {old : Option PageTableEntry} {n : Nat} {writable : Bool}
    (h : (remap old n writable).has .dirty = true) : ∃ e, old = some e ∧ e.has .dirty = true := by
  cases old with
  | none => simp at h
  | some e =>
    refine ⟨e, rfl, ?_⟩
    simp only [remap] at h
    split at h
    · simpa [has_put] using h
    · simp at h

/-- A mapping to the same frame stays as dirty as it was. -/
theorem dirty_remap_same {e : PageTableEntry} {n : Nat} {writable : Bool} (h : e.frame = n) :
    (remap (some e) n writable).has .dirty = e.has .dirty := by
  simp only [remap, if_pos h, has_put, if_true]

@[simp] theorem dirty_touch (e : PageTableEntry) (record write : Bool) :
    (e.touch record write).has .dirty = (write || e.has .dirty) := by
  cases record <;> cases write <;> simp [touch, has_put]

section Put
variable {e e' : PageTableEntry} {f g : Flag} {a b : Bool} {n : BitVec 20}

theorem Flag.position_inj (h : f.position = g.position) : f = g := by
  cases f <;> cases g <;> first | rfl | cases h

theorem eq_of_bits (h : ∀ i, e.raw.getLsbD i = e'.raw.getLsbD i) : e = e' :=
  congrArg mk (BitVec.eq_of_getLsbD_eq fun i _ => h i)

theorem put_put : (e.put f a).put f b = e.put f b := by
  apply eq_of_bits
  intro i
  simp only [put, getLsbD_putBit]
  split <;> rfl

theorem put_comm (h : f ≠ g) : (e.put f a).put g b = (e.put g b).put f a := by
  apply eq_of_bits
  intro i
  simp only [put, getLsbD_putBit]
  split
  · rename_i hg
    rw [if_neg fun hf => h (Flag.position_inj (hf.1.trans hg.1.symm))]
  · rfl

/-- A mark that is put as it was changes nothing. -/
theorem put_eq_self (h : e.has f = a) : e.put f a = e := by
  apply eq_of_bits
  intro i
  simp only [put, getLsbD_putBit]
  split
  · rename_i hi
    rw [← h, has, hi.1]
  · rfl

theorem putFrame_put : (e.put f a).putFrame n = (e.putFrame n).put f a := by
  have hlt : f.position < 12 := by cases f <;> decide
  apply eq_of_bits
  intro i
  simp only [put, putFrame, getLsbD_putBit, BitVec.getLsbD_append, BitVec.getLsbD_extractLsb', Nat.zero_add]
  by_cases hi : i < 12
  · by_cases hf : f.position = i <;> simp [hi, hf]
  · simp [hi, show f.position ≠ i by omega]

theorem put_writable_ofFrame : (ofFrame n a).put .writable b = ofFrame n b := by
  rw [ofFrame, ← putFrame_put, put_put, ofFrame]

theorem accessed_ofFrame : (ofFrame n a).has .accessed = false := by
  simp only [ofFrame, has_putFrame]
  cases a <;> decide

/-- A mark that is there already changes nothing. -/
theorem touch_touch (e : PageTableEntry) (record write : Bool) :
    (e.touch record write).touch record write = e.touch record write := by
  cases record <;> cases write
  · rfl
  · exact put_put
  · exact put_put
  · show (((e.put .accessed true).put .dirty true).put .accessed true).put .dirty true = _
    rw [put_comm (f := .dirty) (g := .accessed) (by decide), put_put, put_put]
    rfl

end Put

/-- Nothing but a frame, a right and the marks that use leaves. -/
def Plain (e : PageTableEntry) : Prop :=
  ∃ n writable accessed dirty, e = ((ofFrame n writable).put .accessed accessed).put .dirty dirty

/-- The same mapping for reading alone, without its accessed mark. -/
def guarded (e : PageTableEntry) : PageTableEntry := (e.put .writable false).put .accessed false

@[simp] theorem guarded_guarded (e : PageTableEntry) : e.guarded.guarded = e.guarded := by
  simp only [guarded]
  rw [put_comm (e := e.put .writable false) (by decide), put_put, put_put]

theorem plain_ofFrame (n : BitVec 20) (writable dirty : Bool) :
    Plain ((ofFrame n writable).put .dirty dirty) :=
  ⟨n, writable, false, dirty, by rw [put_eq_self accessed_ofFrame]⟩

theorem plain_remap (old : Option PageTableEntry) (n : Nat) (writable : Bool) :
    Plain (remap old n writable) := by
  have hfresh : Plain (ofFrame (BitVec.ofNat 20 n) writable) := by
    have hplain := plain_ofFrame (BitVec.ofNat 20 n) writable false
    rwa [put_eq_self (dirty_ofFrame ..)] at hplain
  unfold remap
  split
  · split
    · exact plain_ofFrame ..
    · exact hfresh
  · exact hfresh

namespace Plain
variable {e : PageTableEntry} {on : Bool}

theorem put_dirty (h : e.Plain) : (e.put .dirty on).Plain := by
  obtain ⟨n, writable, accessed, dirty, rfl⟩ := h
  exact ⟨n, writable, accessed, on, put_put⟩

theorem put_accessed (h : e.Plain) : (e.put .accessed on).Plain := by
  obtain ⟨n, writable, accessed, dirty, rfl⟩ := h
  refine ⟨n, writable, on, dirty, ?_⟩
  rw [put_comm (by decide), put_put]

theorem touch (h : e.Plain) (record write : Bool) : (e.touch record write).Plain := by
  unfold PageTableEntry.touch
  cases record <;> cases write
  · exact h
  · exact h.put_dirty
  · exact h.put_accessed
  · exact h.put_accessed.put_dirty

theorem guarded_eq (h : e.Plain) : e.guarded = (ofFrame (BitVec.ofNat 20 e.frame) false).put .dirty
    (e.has .dirty) := by
  obtain ⟨n, writable, accessed, dirty, rfl⟩ := h
  simp only [guarded, frame_put, frame_ofFrame, BitVec.ofNat_toNat, BitVec.setWidth_eq, has_put, if_true]
  rw [put_comm (g := .writable) (by decide), put_comm (g := .writable) (by decide),
    put_writable_ofFrame, put_comm (g := .accessed) (by decide), put_put, put_eq_self accessed_ofFrame]

/-- What becomes of a mapping when its frame is mapped again for reading alone. -/
theorem remap_eq (h : e.Plain) : remap (some e) e.frame false = e.guarded := by
  rw [h.guarded_eq]
  simp only [remap, if_true]

theorem guarded (h : e.Plain) : e.guarded.Plain := by
  rw [h.guarded_eq]
  exact plain_ofFrame ..

end Plain

end PageTableEntry

theorem PageDirectory.getElem?_mark_eq (d : PageDirectory) (f : PageTableEntry.Flag) (va : Nat) (on : Bool)
    (a : Nat) : (d.mark f va on).entries[a]? =
      if a = pageDown va then (d.entry? va).map (·.put f on) else d.entries[a]? := by
  cases he : d.entry? va with
  | none =>
    have hnone : d.entries[pageDown va]? = none := he
    simp only [mark, he]
    split
    · rename_i ha
      rw [ha, hnone, Option.map_none]
    · rfl
  | some e => rw [getElem?_mark he, Option.map_some]

namespace Memory
variable {π : Type}

/-- Every mapping is one that was made and marked. -/
def Plain (v : Memory π) : Prop := ∀ s va e, v.entries s va = some e → e.Plain

section Entries
variable {v w : Memory π} {s va t a : Nat} {x : Option PageTableEntry}

theorem Dirty.of_setAt (h : w.Dirty t a) (he : w.entries = setAt v.entries s va x)
    (hx : ∀ f, x = some f → f.has .dirty = true → v.Dirty s va) : v.Dirty t a := by
  obtain ⟨e, hentry, hd⟩ := h
  rw [he, setAt_apply] at hentry
  split at hentry
  · rename_i hat
    rw [hat.1, hat.2]
    exact hx e hentry hd
  · exact ⟨e, hentry, hd⟩

theorem Plain.of_entries (h : v.Plain) (he : w.entries = v.entries) : w.Plain :=
  fun t a e hentry => h t a e (he ▸ hentry)

theorem Plain.of_setAt (h : v.Plain) (he : w.entries = setAt v.entries s va x)
    (hx : ∀ f, x = some f → f.Plain) : w.Plain := by
  intro t a e hentry
  rw [he, setAt_apply] at hentry
  split at hentry
  · exact hx e hentry
  · exact h t a e hentry

variable [ReplacementPolicy π]

theorem entries_discard (v : Memory π) (s : Nat) (page : Page) : (v.discard s page).entries =
    match page.frame with
    | some _ => setAt v.entries s page.va none
    | none => v.entries := by
  show (v.quit s page).entries = _
  unfold quit
  cases page.frame with
  | none => rfl
  | some n => exact entries_leave ..

omit [ReplacementPolicy π] in
theorem entries_join (v : Memory π) (s n : Nat) (page : Page) : (v.join s n page).entries =
    setAt v.entries s page.va (some (.remap none n false)) := by
  rw [join]
  rfl

omit [ReplacementPolicy π] in
theorem entries_adopt (v : Memory π) (src dst : Nat) (page : Page) (backing : Backing)
    (swap : SwapSpace) : (v.adopt src dst page backing swap).entries =
    match page.frame with
    | some n => setAt (setAt v.entries src page.va (some (.remap (v.entries src page.va) n false))) dst
        page.va (some (.remap none n false))
    | none => v.entries := by
  unfold adopt
  cases page.frame with
  | none => rfl
  | some n => exact entries_join ..

/-- Paging marks no mapping dirty. -/
theorem Step.dirty_of (hs : Step v w) (h : w.Dirty t a) : v.Dirty t a := by
  cases hs with
  | serial | handles | swap | passed | refused => exact h
  | flushed hp hf hfile hw =>
    cases hw with
    | clean => exact h
    | done hs he hd hw =>
      refine h.of_setAt rfl ?_
      rintro f ⟨⟩ hdirty
      simp [PageTableEntry.has_put] at hdirty
  | flushedShort hp hf hfile hw => cases hw <;> exact h
  | @evicted s n page backing swap hp hf hn hb =>
    exact h.of_setAt (entries_leave v s n { page with backing }) (by simp)
  | @claimed s n page backing c swap hp hf hn hlt hfit hb =>
    refine h.of_setAt (entries_seat v s n { page with backing } page.writable c) ?_
    rintro f ⟨⟩ hdirty
    simp at hdirty
  | unshared hp hf hw hn he =>
    refine h.of_setAt rfl ?_
    rintro f ⟨⟩ hdirty
    obtain ⟨e', he', hd⟩ := PageTableEntry.dirty_of_remap hdirty
    exact ⟨e', he.trans he', hd⟩
  | @moved s old new page hp hf hw hold hnew hlt hfit =>
    refine Dirty.of_setAt (w := v.leave s old page) ?_ (entries_leave v s old page) (by simp)
    refine h.of_setAt (entries_seat _ s new { page with frame := none } true (v.frames old).contents) ?_
    rintro f ⟨⟩ hdirty
    simp at hdirty
  | touched record he =>
    refine h.of_setAt rfl ?_
    rintro f ⟨⟩ hdirty
    rw [PageTableEntry.dirty_touch] at hdirty
    exact ⟨_, he, hdirty⟩

/-- A removal marks no mapping dirty. -/
theorem dirty_of_discard {page : Page} (h : (v.discard s page).Dirty t a) : v.Dirty t a := by
  have hentries := entries_discard v s page
  cases hf : page.frame with
  | none =>
    rw [hf] at hentries
    rwa [Dirty, hentries] at h
  | some n =>
    rw [hf] at hentries
    exact h.of_setAt hentries (by simp)

omit [ReplacementPolicy π] in
/-- A copy is not dirty, and its original no more than before. -/
theorem dirty_of_adopt {src dst : Nat} {page : Page} {backing : Backing} {swap : SwapSpace}
    (h : (v.adopt src dst page backing swap).Dirty t a) : v.Dirty t a := by
  have hentries := entries_adopt v src dst page backing swap
  cases hf : page.frame with
  | none =>
    rw [hf] at hentries
    rwa [Dirty, hentries] at h
  | some n =>
    rw [hf] at hentries
    refine Dirty.of_setAt (w := v.setEntry src page.va _) (h.of_setAt hentries ?_) rfl ?_
    · rintro f ⟨⟩ hdirty
      simp at hdirty
    · rintro f ⟨⟩ hdirty
      exact PageTableEntry.dirty_of_remap hdirty

/-- Paging makes and marks mappings as anybody does. -/
theorem Plain.step (h : v.Plain) (hs : Step v w) : w.Plain := by
  cases hs with
  | serial | handles | swap | passed | refused => exact h
  | flushed hp hf hfile hw =>
    cases hw with
    | clean => exact h
    | done hs he hd hw =>
      refine h.of_setAt rfl ?_
      rintro f ⟨⟩
      exact (h _ _ _ he).put_dirty
  | flushedShort hp hf hfile hw => cases hw <;> exact h
  | @evicted s n page backing swap hp hf hn hb =>
    exact h.of_setAt (entries_leave v s n { page with backing }) (by simp)
  | @claimed s n page backing c swap hp hf hn hlt hfit hb =>
    refine h.of_setAt (entries_seat v s n { page with backing } page.writable c) ?_
    rintro f ⟨⟩
    exact PageTableEntry.plain_remap ..
  | unshared hp hf hw hn he =>
    refine h.of_setAt rfl ?_
    rintro f ⟨⟩
    exact PageTableEntry.plain_remap ..
  | @moved s old new page hp hf hw hold hnew hlt hfit =>
    have hleft : (v.leave s old page).Plain := h.of_setAt (entries_leave v s old page) (by simp)
    refine hleft.of_setAt (entries_seat _ s new { page with frame := none } true
      (v.frames old).contents) ?_
    rintro f ⟨⟩
    exact PageTableEntry.plain_remap ..
  | touched record he =>
    refine h.of_setAt rfl ?_
    rintro f ⟨⟩
    exact (h _ _ _ he).touch ..

theorem Plain.change {c : Change} (h : v.Plain) (ha : Alters v c w) : w.Plain := by
  cases ha with
  | insert | spawn | drop => exact h
  | @remove s page hp =>
    have hentries := entries_discard v s page
    cases hf : page.frame with
    | none =>
      rw [hf] at hentries
      exact h.of_entries hentries
    | some n =>
      rw [hf] at hentries
      exact h.of_setAt hentries (by simp)
  | @copy src dst page backing swap hp hdst hd hfit hb =>
    have hentries := entries_adopt v src dst page backing swap
    cases hf : page.frame with
    | none =>
      rw [hf] at hentries
      exact h.of_entries hentries
    | some n =>
      rw [hf] at hentries
      have hmarked : (v.setEntry src page.va (some (.remap (v.entries src page.va) n false))).Plain := by
        refine h.of_setAt rfl ?_
        rintro f ⟨⟩
        exact PageTableEntry.plain_remap ..
      refine hmarked.of_setAt hentries ?_
      rintro f ⟨⟩
      exact PageTableEntry.plain_remap ..
  | write record hp hf he hw =>
    refine h.of_setAt rfl ?_
    rintro f ⟨⟩
    exact (h _ _ _ he).touch ..

theorem Plain.evolves {cs : List Change} (h : v.Plain) (he : Evolves cs v w) : w.Plain := by
  refine he.keeps (I := fun w => Plain w) h ?_ ?_
  · exact fun hs hv => Plain.step hv hs
  · exact fun _ ha hv => Plain.change hv ha

end Entries

end Memory

end DemandPaging
