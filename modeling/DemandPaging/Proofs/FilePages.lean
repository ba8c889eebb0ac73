import DemandPaging.Proofs.FlatChanges

/-! # Pages of files

The bytes of a page of a file are in its frame while it is resident, and in the file unless they have
yet to be written back. Only a write-back clears a dirty mark, as long as the page stays in its frame,
so that a page which `Holds` its bytes goes on holding them however it is paged.
-/
namespace DemandPaging
open Memory (Change)

section Bytes
variable {files files' : FileStore} {source : Source} {c : PageBytes}

theorem FileStore.count_le_of_writeAt {file position count : Nat} {bytes : List UInt8}
    (hw : files.writeAt file position bytes = (count, files')) : count ≤ bytes.length := by
  have hcount := count_writeAt hw
  have hallowed := FileNode.allowed_le (files.transferLimits file).2 bytes.length
  omega

/-- A write reaches the bytes that it moves, and no others. -/
theorem FileStore.getElem?_writeAt {file position count : Nat} {bytes : List UInt8}
    (hw : files.writeAt file position bytes = (count, files')) (i : Nat) :
    (files'.node file).contents[i]? =
      if position ≤ i ∧ i < position + count then bytes[i - position]? else (files.node file).contents[i]? := by
  have hcount := count_writeAt hw
  have hlen : (bytes.take count).length = count := List.length_take_of_le (count_le_of_writeAt hw)
  have hfit : (bytes.take count).length ≤ (files.node file).contents.length - position := by
    rw [hlen, hcount]
    exact Nat.min_le_right ..
  rw [contents_writeAt_self hw, getElem?_splice _ _ _ hfit, hlen]
  split
  · rw [List.getElem?_take, if_pos (by omega)]
  · rfl

/-- The bytes that a page has from its file, as they are in the file. -/
def Source.shown (source : Source) (files : FileStore) : List UInt8 :=
  (source.image files).toList.take source.readBytes

theorem Source.shown_congr (h : ∀ file, source.file = some file →
    (files'.node file).contents = (files.node file).contents) :
    source.shown files' = source.shown files := by
  unfold shown image
  cases hf : source.file with
  | none => rfl
  | some file =>
    dsimp only
    rw [h file hf]

theorem Source.length_shown : (source.shown files).length = source.readBytes := by
  have hle := source.readBytes_le
  rw [shown, List.length_take, Vector.length_toList]
  exact Nat.min_eq_left hle

theorem Source.shown_eq {bytes : List UInt8} (hlen : bytes.length = source.readBytes)
    (h : ∀ i < source.readBytes, source.byteAt files i = bytes.getD i 0) :
    source.shown files = bytes := by
  refine List.ext_getElem (length_shown.trans hlen.symm) fun i h₁ h₂ => ?_
  have hlt : i < (source.image files).toList.length := by
    rw [length_shown] at h₁
    rw [Vector.length_toList]
    exact Nat.lt_of_lt_of_le h₁ source.readBytes_le
  have hbyte := h i (length_shown ▸ h₁)
  rw [← getD_image, List.getD_eq_getElem?_getD, List.getD_eq_getElem?_getD,
    List.getElem?_eq_getElem hlt, List.getElem?_eq_getElem h₂] at hbyte
  exact List.getElem_take.trans hbyte

theorem Source.getD_shown {i : Nat} (hi : i < source.readBytes) :
    (source.shown files).getD i 0 = source.byteAt files i := by
  rw [shown, ← getD_image, List.getD_eq_getElem?_getD, List.getElem?_take, if_pos hi,
    List.getD_eq_getElem?_getD]

/-- Where the file has as many bytes, those that a page has from it are a part of it. -/
theorem Source.shown_eq_slice {file : Nat} (hs : source.file = some file)
    (hle : source.readBytes ≤ files.length file - source.offset) :
    source.shown files = slice (files.node file).contents source.offset source.readBytes := by
  have hlen : (slice (files.node file).contents source.offset source.readBytes).length =
      source.readBytes := by
    rw [slice, List.length_take, List.length_drop]
    exact Nat.min_eq_left hle
  refine shown_eq hlen fun i hi => ?_
  rw [byteAt, hs, getD_slice]

/-- What a page has from its file is there once it was written in full. -/
theorem Source.shown_writeAt {file : Nat} (hs : source.file = some file)
    (hw : files.writeAt file source.offset (c.toList.take source.readBytes) =
      (source.readBytes, files')) : source.shown files' = c.toList.take source.readBytes := by
  have hlen : (c.toList.take source.readBytes).length = source.readBytes := by
    rw [List.length_take, Vector.length_toList]
    exact Nat.min_eq_left source.readBytes_le
  refine shown_eq hlen fun i hi => ?_
  rw [byteAt, hs]
  dsimp only
  rw [if_pos hi, List.getD_eq_getElem?_getD, FileStore.getElem?_writeAt hw, if_pos (by omega),
    Nat.add_sub_cancel_left, List.getD_eq_getElem?_getD]

theorem Source.shown_writeAt_apart {file position count : Nat} {bytes : List UInt8}
    (hw : files.writeAt file position bytes = (count, files'))
    (hapart : source.file = some file → source.offset + source.readBytes ≤ position ∨
      position + bytes.length ≤ source.offset) : source.shown files' = source.shown files := by
  refine shown_eq length_shown fun i hi => ?_
  rw [getD_shown hi, byteAt, byteAt]
  cases hs : source.file with
  | none => rfl
  | some f =>
    dsimp only
    rw [if_pos hi, if_pos hi]
    by_cases hf : f = file
    · subst hf
      have hcount := FileStore.count_le_of_writeAt hw
      have := hapart hs
      rw [List.getD_eq_getElem?_getD, FileStore.getElem?_writeAt hw, if_neg (by omega),
        List.getD_eq_getElem?_getD]
    · rw [FileStore.contents_writeAt hw hf]

end Bytes

namespace Memory
variable {π : Type} {v w : Memory π} {s va t a n : Nat} {p q : Page}

/-- Between `v` and `w` the page at `va`, which was mapped dirty, was written to its file in full. -/
def WrittenBack (v w : Memory π) (s va : Nat) : Prop :=
  ∃ p n file files, v.pages s va = some p ∧ p.frame = some n ∧ p.isFile = true ∧
    p.source.file = some file ∧ v.Dirty s va ∧ v.files.writeAt file p.source.offset
      ((v.frames n).contents.toList.take p.source.readBytes) = (p.source.readBytes, files) ∧
    w.files = files

/-- The page at `va` does not go from one frame to another. -/
def Stays (v w : Memory π) (s va : Nat) : Prop :=
  ∀ {p q n k}, v.pages s va = some p → p.frame = some n → w.pages s va = some q → q.frame = some k →
    k = n

theorem Dirty.of_ne {x : Option PageTableEntry} (h : v.Dirty s va) (he : w.entries = setAt v.entries t a x)
    (hne : ¬(s = t ∧ va = a)) : w.Dirty s va := by
  obtain ⟨e, hentry, hd⟩ := h
  exact ⟨e, by rw [he, setAt_of_ne hne, hentry], hd⟩

theorem Dirty.of_entry {e f : PageTableEntry} (h : v.Dirty s va) (hv : v.entries s va = some e)
    (hw : w.entries = setAt v.entries s va (some f))
    (hf : e.has .dirty = true → f.has .dirty = true) : w.Dirty s va := by
  obtain ⟨e', hentry, hd⟩ := h
  rw [hv, Option.some.injEq] at hentry
  exact ⟨f, by rw [hw, setAt_self], hf (hentry ▸ hd)⟩

theorem Sound.frame_of_dirty (h : v.Sound) (hp : v.pages s va = some p) (hd : v.Dirty s va) :
    ∃ n, p.frame = some n := by
  obtain ⟨e, he, -⟩ := hd
  obtain ⟨q, hq, hf⟩ := h.mapped he
  rw [hp, Option.some.injEq] at hq
  exact ⟨_, hq ▸ hf⟩

variable [ReplacementPolicy π]

/-- A step clears the dirty mark of a page of a file only by writing the page back. -/
theorem Step.dirty_or (hs : Step v w) (hv : v.Sound) (hp : v.pages s va = some p)
    (hfile : p.isFile = true) (hstay : Stays v w s va) (hd : v.Dirty s va) :
    w.Dirty s va ∨ WrittenBack v w s va := by
  cases hs with
  | serial | handles | swap | passed | refused => exact .inl hd
  | @flushed _ t a n page hpage hf hpf hw =>
    cases hw with
    | clean => exact .inl hd
    | @done e file files hsource he hdirty hwrite =>
      by_cases hat : s = t ∧ va = a
      · obtain ⟨rfl, rfl⟩ := hat
        exact .inr ⟨page, n, file, files, hpage, hf, hpf, hsource, hd, hwrite, rfl⟩
      · exact .inl (hd.of_ne rfl hat)
  | flushedShort _ _ _ hw => cases hw <;> exact .inl hd
  | @evicted t n page backing swap hpage hf hn hb =>
    by_cases hat : s = t ∧ va = page.va
    · obtain ⟨rfl, rfl⟩ := hat
      obtain rfl := Option.some.inj (hp.symm.trans hpage)
      rw [Page.isFile] at hfile
      generalize p.backing = old at hb hfile
      cases hb with
      | stored => cases hfile
      | clean _ _ hclean => exact absurd hd hclean
    · exact .inl (hd.of_ne (entries_leave v t n { page with backing }) hat)
  | @claimed t n page backing c swap hpage hf hn hlt hfit hb =>
    by_cases hat : s = t ∧ va = page.va
    · obtain ⟨rfl, rfl⟩ := hat
      obtain ⟨k, hk⟩ := hv.frame_of_dirty hpage hd
      cases hf.symm.trans hk
    · exact .inl (hd.of_ne (entries_seat v t n { page with backing } page.writable c) hat)
  | @unshared t n page e hpage hf hw hn he =>
    by_cases hat : s = t ∧ va = page.va
    · obtain ⟨rfl, rfl⟩ := hat
      refine .inl (hd.of_entry he rfl fun hmark => ?_)
      exact (PageTableEntry.dirty_remap_same (hv.frame_eq hpage hf he)).trans hmark
    · exact .inl (hd.of_ne rfl hat)
  | @moved t old new page hpage hf hw hold hnew hlt hfit =>
    by_cases hat : s = t ∧ va = page.va
    · obtain ⟨rfl, rfl⟩ := hat
      have hsame : new = old := hstay hpage hf
        (by rw [pages_move, setAt_self]) rfl
      rw [hsame] at hnew
      have := (hv.resident_frame hpage hf).1
      rw [hv.free_iff] at hnew
      omega
    · have hleft := hd.of_ne (entries_leave v t old page) hat
      exact .inl (hleft.of_ne (entries_seat _ t new { page with frame := none } true _) hat)
  | @touched t a e record he =>
    by_cases hat : s = t ∧ va = a
    · obtain ⟨rfl, rfl⟩ := hat
      refine .inl (hd.of_entry he rfl fun hmark => ?_)
      rw [PageTableEntry.dirty_touch, hmark, Bool.or_true]
    · exact .inl (hd.of_ne rfl hat)

/-- A step changes a file only by writing back a dirty page of it. -/
theorem Step.contents_or (hs : Step v w) (f : Nat) :
    (w.files.node f).contents = (v.files.node f).contents ∨
      ∃ t a p n count, v.pages t a = some p ∧ p.frame = some n ∧ p.isFile = true ∧
        p.source.file = some f ∧ v.Dirty t a ∧ v.files.writeAt f p.source.offset
          ((v.frames n).contents.toList.take p.source.readBytes) = (count, w.files) := by
  cases hs with
  | serial | swap | passed | refused | unshared | touched => exact .inl rfl
  | handles h => exact .inl (h f)
  | @flushed _ t a n page hpage hf hpf hw =>
    cases hw with
    | clean => exact .inl rfl
    | @done e file files hsource he hdirty hwrite =>
      by_cases hfile : f = file
      · subst hfile
        exact .inr ⟨t, a, page, n, _, hpage, hf, hpf, hsource, ⟨e, he, hdirty⟩, hwrite⟩
      · exact .inl (FileStore.contents_writeAt hwrite hfile)
  | @flushedShort _ t a n page hpage hf hpf hw =>
    cases hw with
    | detached => exact .inl rfl
    | @short e file count files hsource he hdirty hwrite =>
      by_cases hfile : f = file
      · subst hfile
        exact .inr ⟨t, a, page, n, _, hpage, hf, hpf, hsource, ⟨e, he, hdirty⟩, hwrite⟩
      · exact .inl (FileStore.contents_writeAt hwrite hfile)
  | evicted | claimed | moved =>
    simp only [files_seat, files_leave]
    exact .inl trivial

theorem Step.contents_of_used (hs : Step v w) (hn : (v.frames n).allocated = true) :
    (w.frames n).contents = (v.frames n).contents := by
  have hne {k : Nat} (hk : (v.frames k).allocated = false) : n ≠ k := by
    rintro rfl
    exact absurd (hn.symm.trans hk) nofun
  cases hs with
  | serial | handles | swap | unshared | touched => rfl
  | passed hk => exact congrArg Frame.contents (Function.update_of_ne (hne hk) ..)
  | refused _ _ hk => exact congrArg Frame.contents (Function.update_of_ne (hne hk) ..)
  | flushed _ _ _ hw => rw [hw.same.2.1]
  | flushedShort _ _ _ hw => cases hw <;> rfl
  | evicted => exact contents_leave ..
  | claimed _ _ hk => exact (contents_seat ..).trans (if_neg (hne hk))
  | moved _ _ _ _ hk => exact (contents_seat ..).trans ((if_neg (hne hk)).trans (contents_leave ..))

/-- A resident page keeps its frame, takes its bytes along from one that others use, or leaves one that
it has to itself. -/
theorem Step.frame_cases (hs : Step v w) (hp : v.pages s va = some p) (hf : p.frame = some n)
    (hq : w.pages s va = some q) : q.frame = none ∧ (v.frames n).refcount = 1 ∨
      ∃ k, q.frame = some k ∧
        (k = n ∨ (v.frames n).refcount ≠ 1 ∧ (w.frames k).contents = (v.frames n).contents) := by
  by_cases hsame : w.pages s va = v.pages s va
  · rw [hsame, hp] at hq
    obtain rfl := Option.some.inj hq
    exact .inr ⟨n, hf, .inl rfl⟩
  · -- One page changes, and it is this one.
    have hat {t a : Nat} {x : Option Page} (hw : w.pages = setAt v.pages t a x) :
        (s = t ∧ va = a) ∧ x = some q := by
      rw [hw, setAt_apply] at hq
      split at hq
      · rename_i heq
        exact ⟨heq, hq⟩
      · rename_i hne
        rw [hw, setAt_of_ne hne] at hsame
        exact absurd rfl hsame
    cases hs with
    | serial | handles | swap | passed | unshared | touched => exact absurd rfl hsame
    | flushed _ _ _ hw => exact absurd (by rw [hw.same.1]) hsame
    | flushedShort _ _ _ hw => exact absurd (by rw [hw.same]) hsame
    | @evicted t k page backing swap hpage hn hr hb =>
      obtain ⟨⟨rfl, rfl⟩, ⟨⟩⟩ := hat (pages_leave v t k { page with backing })
      obtain rfl := Option.some.inj (hp.symm.trans hpage)
      obtain rfl := Option.some.inj (hf.symm.trans hn)
      exact .inl ⟨rfl, hr⟩
    | @claimed t k page backing c swap hpage hn hfree hlt hfit hb =>
      obtain ⟨⟨rfl, rfl⟩, -⟩ := hat (pages_seat v t k { page with backing } page.writable c)
      obtain rfl := Option.some.inj (hp.symm.trans hpage)
      cases hn.symm.trans hf
    | @refused t k page backing c swap hpage hn hfree hlt hb hr =>
      obtain ⟨⟨rfl, rfl⟩, -⟩ := hat (show _ = setAt v.pages t page.va _ from rfl)
      obtain rfl := Option.some.inj (hp.symm.trans hpage)
      cases hn.symm.trans hf
    | @moved t old new page hpage hn hw hold hnew hlt hfit =>
      obtain ⟨⟨rfl, rfl⟩, ⟨⟩⟩ := hat (pages_move v t old page new (v.frames old).contents)
      obtain rfl := Option.some.inj (hp.symm.trans hpage)
      obtain rfl := Option.some.inj (hf.symm.trans hn)
      exact .inr ⟨new, rfl, .inr ⟨hold, (contents_seat ..).trans (if_pos rfl)⟩⟩

/-- A page that stays resident keeps its frame, or takes its bytes along from one that others use. -/
theorem Step.resident_cases {k : Nat} (hs : Step v w) (hp : v.pages s va = some p)
    (hf : p.frame = some n) (hq : w.pages s va = some q) (hg : q.frame = some k) :
    k = n ∨ (v.frames n).refcount ≠ 1 ∧ (w.frames k).contents = (v.frames n).contents := by
  rcases hs.frame_cases hp hf hq with ⟨hout, -⟩ | ⟨k', hk, hcases⟩
  · cases hout.symm.trans hg
  · obtain rfl := Option.some.inj (hk.symm.trans hg)
    exact hcases

theorem Step.contents_kept {k : Nat} (hs : Step v w) (hv : v.Sound) (hp : v.pages s va = some p)
    (hf : p.frame = some n) (hq : w.pages s va = some q) (hg : q.frame = some k) :
    (w.frames k).contents = (v.frames n).contents := by
  rcases hs.resident_cases hp hf hq hg with rfl | ⟨-, hmoved⟩
  · have hused := (hv.resident_frame hp hf).1
    apply hs.contents_of_used
    rw [← Bool.not_eq_false, hv.free_iff]
    omega
  · exact hmoved

omit [ReplacementPolicy π] in
theorem Filled.image_of_file {backing backing' : Backing} {c : PageBytes} {swap : SwapSpace}
    (h : v.Filled backing c backing' swap) (hfile : backing.isFile = true) :
    c = backing.source.image v.files := by
  cases h with
  | uninit | file => rfl
  | blank | fetched => cases hfile

/-- A page of a file that a step brings in is filled from its file. -/
theorem Step.filled (hs : Step v w) (hp : v.pages s va = some p) (hfile : p.isFile = true)
    (hout : p.frame = none) (hq : w.pages s va = some q) (hin : q.frame = some n) :
    (w.frames n).contents = p.source.image v.files := by
  have hsame (h : w.pages = v.pages) : False := by
    rw [h, hp, Option.some.injEq] at hq
    rw [← hq, hout] at hin
    cases hin
  -- A page other than the one at `va` changes, or the one there does not come in.
  have hother {t a : Nat} {x : Option Page} (h : w.pages = setAt v.pages t a x)
      (hx : s = t ∧ va = a → x = some q → False) : False := by
    rw [h, setAt_apply] at hq
    split at hq
    · rename_i hat
      exact hx hat hq
    · rw [hp, Option.some.injEq] at hq
      rw [← hq, hout] at hin
      cases hin
  cases hs with
  | serial | handles | swap | passed | unshared | touched => exact (hsame rfl).elim
  | flushed _ _ _ hw => exact (hsame hw.same.1).elim
  | flushedShort _ _ _ hw => exact (hsame hw.same).elim
  | @evicted t k page backing swap hpage hf hn hb =>
    refine (hother (pages_leave v t k { page with backing }) ?_).elim
    rintro - ⟨⟩
    cases hin
  | @claimed t k page backing c swap hpage hf hn hlt hfit hb =>
    by_cases hat : s = t ∧ va = page.va
    · obtain ⟨rfl, rfl⟩ := hat
      obtain rfl := Option.some.inj (hp.symm.trans hpage)
      replace hq : (v.seat s k { p with backing } p.writable c).pages s p.va = some q := hq
      rw [pages_seat, setAt_self, Option.some.injEq] at hq
      obtain rfl : k = n := Option.some.inj ((congrArg Page.frame hq).trans hin)
      refine (contents_seat ..).trans ((if_pos rfl).trans ?_)
      exact hb.image_of_file hfile
    · exact (hother (pages_seat v t k { page with backing } page.writable c) fun h => absurd h hat).elim
  | @refused t k page backing c swap hpage hf hn hlt hb hr =>
    refine (hother (show _ = setAt v.pages t page.va _ from rfl) ?_).elim
    rintro - ⟨⟩
    cases hf.symm.trans hin
  | @moved t old new page hpage hf hw hold hnew hlt hfit =>
    refine (hother (pages_move v t old page new (v.frames old).contents) ?_).elim
    rintro ⟨rfl, rfl⟩ -
    obtain rfl := Option.some.inj (hp.symm.trans hpage)
    cases hout.symm.trans hf

/-- A change clears the dirty mark of a page only by removing the page. -/
theorem Alters.dirty_of {c : Change} (ha : v.Alters c w) (hv : v.Sound) (hd : v.Dirty s va)
    (hc : ∀ page, c = .remove s page → page.va ≠ va) : w.Dirty s va := by
  cases ha with
  | insert | spawn | drop => exact hd
  | @remove t page hp =>
    have hne : ¬(s = t ∧ va = page.va) := by
      rintro ⟨rfl, rfl⟩
      exact hc page rfl rfl
    show (v.quit t page).Dirty s va
    unfold quit
    split
    · exact hd.of_ne (entries_leave ..) hne
    · exact hd
  | @copy src dst page backing swap hp hdst hnone hfit hb =>
    unfold adopt
    cases hf : page.frame with
    | none => exact hd
    | some n =>
      dsimp only
      have hsrc : ((({ v.add dst { page with serial := v.nextSerial, backing, frame := none } with swap } :
          Memory π)).setEntry src page.va (some (.remap (v.entries src page.va) n false))).Dirty s va := by
        by_cases hat : s = src ∧ va = page.va
        · obtain ⟨rfl, rfl⟩ := hat
          obtain ⟨e, he⟩ := Option.isSome_iff_exists.mp (hv.resident hp hf)
          rw [he]
          refine Dirty.of_entry (w := setEntry _ s page.va _) hd he rfl fun hmark => ?_
          exact (PageTableEntry.dirty_remap_same (hv.frame_eq hp hf he)).trans hmark
        · exact Dirty.of_ne (w := setEntry _ src page.va _) hd rfl hat
      refine hsrc.of_ne (entries_join ..) ?_
      rintro ⟨rfl, rfl⟩
      obtain ⟨e, he, -⟩ := hd
      obtain ⟨q, hq, -⟩ := hv.mapped he
      cases hnone.symm.trans hq
  | @write t a n start bytes page e record hp hf he hw =>
    by_cases hat : s = t ∧ va = a
    · obtain ⟨rfl, rfl⟩ := hat
      exact hd.of_entry he rfl fun _ => PageTableEntry.dirty_touch ..
    · exact hd.of_ne rfl hat

/-- Only a write to a page marks it dirty. -/
theorem Alters.dirty_before {c : Change} (ha : v.Alters c w) (hd : w.Dirty s va)
    (hc : ∀ start new, c ≠ .write s va start new) : v.Dirty s va := by
  cases ha with
  | insert | spawn | drop => exact hd
  | remove => exact dirty_of_discard hd
  | copy => exact dirty_of_adopt hd
  | @write t a n start new page e record hp hf he hw =>
    have hne : ¬(s = t ∧ va = a) := by
      rintro ⟨rfl, rfl⟩
      exact hc start new rfl
    obtain ⟨f, hentry, hdirty⟩ := hd
    exact ⟨f, (setAt_of_ne hne).symm.trans hentry, hdirty⟩

/-- The page at `va`, if there is one, is of a file and has these bytes from it: in its frame while it is
resident, and in the file unless it is dirty. -/
structure Holds (v : Memory π) (s va : Nat) (source : Source) (bytes : List UInt8) : Prop where
  page : ∀ {p}, v.pages s va = some p → p.isFile = true ∧ p.source = source
  held : ∀ {p n}, v.pages s va = some p → p.frame = some n →
    (v.frames n).contents.toList.take source.readBytes = bytes
  saved : ¬v.Dirty s va → source.shown v.files = bytes

/-- What other pages have yet to write back to the file of the page at `va` are not the bytes of that
page. -/
def Apart (v : Memory π) (s va : Nat) (source : Source) : Prop :=
  ∀ {t a p}, ¬(t = s ∧ a = va) → v.pages t a = some p → p.isFile = true → p.source.file = source.file →
    v.Dirty t a → source.offset + source.readBytes ≤ p.source.offset ∨
      p.source.offset + p.source.readBytes ≤ source.offset

/-- The bytes that a clean page has from its file do not change if other pages have none of them. -/
theorem Step.shown_of_apart {source : Source} (hs : Step v w) (hapart : v.Apart s va source)
    (hd : ¬v.Dirty s va) : source.shown w.files = source.shown v.files := by
  cases hsource : source.file with
  | none => exact Source.shown_congr fun file hf => absurd (hsource.symm.trans hf) nofun
  | some f =>
    obtain hsame | ⟨t, a, p, n, count, hp, hf, hfile, hpf, hdirty, hwrite⟩ := hs.contents_or f
    · exact Source.shown_congr fun file hf => Option.some.inj (hsource.symm.trans hf) ▸ hsame
    · refine Source.shown_writeAt_apart hwrite fun _ => ?_
      have hne : ¬(t = s ∧ a = va) := by
        rintro ⟨rfl, rfl⟩
        exact hd hdirty
      have hlen := List.length_take_le p.source.readBytes (v.frames n).contents.toList
      have := hapart hne hp hfile (hpf.trans hsource.symm) hdirty
      omega

namespace Holds
variable {source : Source} {bytes : List UInt8}

omit [ReplacementPolicy π] in
theorem congr (h : v.Holds s va source bytes) (hp : w.pages s va = v.pages s va)
    (hframe : ∀ {p n}, v.pages s va = some p → p.frame = some n →
      (w.frames n).contents = (v.frames n).contents)
    (hd : v.Dirty s va → w.Dirty s va) (hfiles : source.shown w.files = source.shown v.files) :
    w.Holds s va source bytes where
  page hq := h.page (hp ▸ hq)
  held hq hn := by
    rw [hp] at hq
    rw [hframe hq hn]
    exact h.held hq hn
  saved hnot := hfiles.trans (h.saved fun hdirty => hnot (hd hdirty))

/-- However a page is paged, it goes on holding its bytes. -/
theorem step (h : v.Holds s va source bytes) (hv : v.Sound) (hs : Step v w)
    (hstay : v.Dirty s va → Stays v w s va)
    (hshown : ¬v.Dirty s va → source.shown w.files = source.shown v.files) : w.Holds s va source bytes where
  page hq := by
    obtain ⟨p, hp, houtline⟩ := hs.exists_of_page hq
    simp only [Page.outline, Prod.mk.injEq] at houtline
    obtain ⟨-, -, -, hsource, hfile⟩ := houtline
    rw [hsource, hfile]
    exact h.page hp
  held hq hk := by
    obtain ⟨p, hp, -⟩ := hs.exists_of_page hq
    obtain ⟨hfile, hsource⟩ := h.page hp
    -- It was brought in by this step, or it had a frame before.
    cases hf : p.frame with
    | none =>
      have hclean : ¬v.Dirty s va := fun hd => by
        obtain ⟨n, hn⟩ := hv.frame_of_dirty hp hd
        cases hf.symm.trans hn
      rw [hs.filled hp hfile hf hq hk, hsource]
      exact h.saved hclean
    | some n =>
      rw [hs.contents_kept hv hp hf hq hk]
      exact h.held hp hf
  saved hnot := by
    by_cases hd : v.Dirty s va
    · -- The mark was cleared in this step, and only a write-back does that.
      obtain ⟨e, he, -⟩ := id hd
      obtain ⟨p, hp, -⟩ := hv.mapped he
      obtain ⟨hfile, rfl⟩ := h.page hp
      obtain hdirty | ⟨p', n, file, files, hp', hf, -, hsource, -, hwrite, rfl⟩ :=
        hs.dirty_or hv hp hfile (hstay hd) hd
      · exact absurd hdirty hnot
      · obtain rfl := Option.some.inj (hp.symm.trans hp')
        exact (Source.shown_writeAt hsource hwrite).trans (h.held hp hf)
    · exact (hshown hd).trans (h.saved hd)

/-- What is done elsewhere does not reach it, and a removal saves it. -/
theorem change {c : Change} (h : v.Holds s va source bytes) (hv : v.Sound) (ha : v.Alters c w)
    (hset : c.Settled v) (hin : (v.pages s va).isSome ∨ ∃ t page, c = .remove t page)
    (hwrite : ∀ start bs, c ≠ .write s va start bs)
    (hdrop : ∀ page, c = .remove s page → page.va = va → source.Takes v.files) :
    w.Holds s va source bytes := by
  have hnew {t a : Nat} (hnone : v.pages t a = none) (hsome : (v.pages s va).isSome) :
      ¬(s = t ∧ va = a) := by
    rintro ⟨rfl, rfl⟩
    rw [hnone] at hsome
    cases hsome
  cases ha with
  | spawn | drop => exact h.congr rfl (fun _ _ => rfl) id rfl
  | @insert t page hs hva hnone hserial hf hb =>
    have hsome := hin.resolve_right nofun
    exact h.congr (setAt_of_ne (hnew hnone hsome)) (fun _ _ => rfl) id
      (Source.shown_congr fun _ _ => FileStore.contents_retainSource ..)
  | @remove t page hp =>
    have hfiles : source.shown (v.discard t page).files = source.shown v.files :=
      Source.shown_congr fun _ _ => FileStore.contents_releaseSource ..
    by_cases hat : s = t ∧ va = page.va
    · obtain ⟨rfl, rfl⟩ := hat
      have hgone : (v.discard s page).pages s page.va = none := by rw [pages_discard, setAt_self]
      obtain ⟨hfile, rfl⟩ := h.page hp
      refine ⟨fun hq => ?_, fun hq => ?_, fun _ => hfiles.trans (h.saved fun hd => ?_)⟩
      · cases hgone.symm.trans hq
      · cases hgone.symm.trans hq
      · exact hset hfile hd (hdrop page rfl rfl)
    · refine h.congr ?_ (fun _ _ => contents_discard ..) (fun hd => ?_) hfiles
      · rw [pages_discard, setAt_of_ne hat]
      · refine (Alters.remove hp).dirty_of hv hd ?_
        rintro _ ⟨⟩ rfl
        exact hat ⟨rfl, rfl⟩
  | @copy src dst page backing swap hp hdst hnone hfit hb =>
    have hsome := hin.resolve_right nofun
    refine h.congr ?_ (fun _ _ => contents_adopt ..) (fun hd => ?_) ?_
    · rw [pages_adopt, setAt_of_ne (hnew hnone hsome)]
    · exact (Alters.copy hp hdst hnone hfit hb).dirty_of hv hd nofun
    · rw [files_adopt]
      exact Source.shown_congr fun _ _ => FileStore.contents_retainSource ..
  | @write t a n start bs page e record hp hf he hw =>
    have hne : ¬(s = t ∧ va = a) := by
      rintro ⟨rfl, rfl⟩
      exact hwrite start bs rfl
    refine h.congr rfl (fun {p k} hpage hk => ?_) (fun hd => hd.of_ne rfl hne) rfl
    -- A frame that is mapped writable is nobody else's.
    have hone := (hv.exclusive he hw hp).2
    rw [hv.frame_eq hp hf he] at hone
    have hother : k ≠ n := by
      rintro rfl
      exact hne (hv.alone hone hpage hk hp hf)
    exact congrArg Frame.contents (Function.update_of_ne hother ..)

/-- What is written to the page itself stays with it, and is yet to be written back. -/
theorem write {bytes' new : List UInt8} {start : Nat} (h : v.Holds s va source bytes)
    (ha : v.Alters (.write s va start new) w) (hnew : ∀ c : PageBytes,
      c.toList.take source.readBytes = bytes → (overwrite c start new).toList.take source.readBytes = bytes') :
    w.Holds s va source bytes' := by
  cases ha with
  | @write t a n start new page e record hp hf he hw =>
    refine ⟨h.page, fun {q m} hq hm => ?_, fun hclean => absurd ?_ hclean⟩
    · obtain rfl := Option.some.inj (hp.symm.trans hq)
      obtain rfl := Option.some.inj (hf.symm.trans hm)
      show (Function.update v.frames n _ n).contents.toList.take _ = _
      rw [Function.update_self]
      exact hnew _ (h.held hp hf)
    · exact ⟨_, setAt_self, by rw [PageTableEntry.dirty_touch, Bool.true_or]⟩

end Holds

end Memory

end DemandPaging
