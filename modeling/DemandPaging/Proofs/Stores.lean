import DemandPaging.Proofs.Course
import DemandPaging.Proofs.Slots
import DemandPaging.Proofs.Storage

/-! # What pages and their backing stores exchange

One statement for each operation between a frame and a backing store: what it does to the memory if
it succeeds, and what little it changes if it fails.
-/
namespace DemandPaging

variable {π : Type} {m : Machine π} {n s : Nat}

section Bytes

theorem splice_zero (l bytes : List UInt8) : splice l 0 bytes = bytes ++ l.drop bytes.length := by
  simp [splice, dropLike_eq_drop]

/-- Bytes at the start of a page, and zeroes from there on: what was there before is gone. -/
theorem zeroFrom_overwrite (page : PageBytes) {bytes : List UInt8} (h : bytes.length ≤ pageSize) :
    zeroFrom (overwrite page 0 bytes) bytes.length = overwrite zeroPage 0 bytes := by
  have hlen : page.toList.length = 4096 := Vector.length_toList
  have htake : bytes.take (4096 - 0) = bytes := List.take_of_length_le h
  apply Vector.toList_inj.mp
  rw [zeroFrom, toList_overwrite, toList_overwrite, toList_overwrite, htake, splice_zero, splice_zero,
    splice, dropLike_eq_drop, List.take_left, List.drop_left, List.take_of_length_le (by simp),
    List.length_replicate, List.drop_drop, List.drop_eq_nil_of_le (by simp only [pageSize] at h; omega),
    List.append_nil, zeroPage, Vector.toList_replicate, List.drop_replicate]

/-- A page that is overwritten as a whole. -/
theorem overwrite_full (page page' : PageBytes) {bytes : List UInt8} (h : bytes.length = pageSize) :
    overwrite page 0 bytes = overwrite page' 0 bytes := by
  apply Vector.toList_inj.mp
  rw [toList_overwrite, toList_overwrite, List.take_of_length_le (by simp [h]), splice_zero, splice_zero,
    List.drop_eq_nil_of_le (by simp [h]), List.drop_eq_nil_of_le (by simp [h])]

/-- A read that came to as many bytes as it was asked for was not cut short by a limit. -/
theorem FileNode.readAt_eq {f : FileNode} {position size : Nat}
    (h : (f.readAt position size).length = size) :
    f.readAt position size = slice f.contents position size := by
  unfold readAt at h ⊢
  have hle := allowed_le f.readLimit size
  have : allowed f.readLimit size = size := by
    simp only [slice, List.length_take] at h
    omega
  rw [this]

end Bytes

/-- A frame is filled from its start, and zeroed behind. -/
theorem Machine.memory_fill (hn : n < m.frames.size) {bytes : List UInt8} (h : bytes.length ≤ pageSize) :
    let first := m.setContents n (overwrite (m.contents n) 0 bytes)
    (first.setContents n (zeroFrom (first.contents n) bytes.length)).memory =
      m.memory.setFrame n { m.memory.frames n with contents := overwrite zeroPage 0 bytes } := by
  intro first
  have hfirst := memory_setContents hn (overwrite (m.contents n) 0 bytes)
  have hsize : first.frames.size = m.frames.size := congrArg Memory.size hfirst
  have hcontents : first.contents n = overwrite (m.contents n) 0 bytes := by
    rw [contents_eq, hfirst]
    simp [Memory.setFrame]
  rw [memory_setContents (hsize ▸ hn), hcontents, zeroFrom_overwrite _ h, hfirst]
  simp [Memory.setFrame]

theorem loadSource_ends (source : Source) (hn : n < m.frames.size) :
    Attempt.Ends False (loadSource source n) m
      (fun _ after => after.memory =
        m.memory.setFrame n { m.memory.frames n with contents := source.image m.memory.files })
      fun e after => e = .ioFailure ∧
        ∃ c, after.memory = m.memory.setFrame n { m.memory.frames n with contents := c } := by
  simp only [loadSource, Attempt.ends_bind, Attempt.ends_get, Attempt.ends_set, Attempt.ends_modify,
    Attempt.ends_ite, Attempt.ends_throw]
  refine ⟨fun _ => ⟨trivial, _, Machine.memory_setContents hn _⟩, fun hfull => ?_⟩
  cases hfile : source.file with
  | none =>
    rw [Source.image, hfile]
    exact Machine.memory_fill hn (Nat.zero_le _)
  | some file =>
    simp only [hfile, Option.isSome_some, Bool.true_and, bne_iff_ne, ne_eq, not_not] at hfull
    have hle : ((m.files.node file).readAt source.offset source.readBytes).length ≤ pageSize := by
      rw [hfull]
      exact source.readBytes_le
    rw [Source.image, hfile]
    refine (Machine.memory_fill hn hle).trans ?_
    rw [FileNode.readAt_eq hfull]
    rfl

/-- That fails only if the file gives fewer bytes than the page is to have from it. -/
theorem loadSource_fails (source : Source) :
    Attempt.Ends False (loadSource source n) m (fun _ _ => True) fun _ _ =>
      ∃ file, source.file = some file ∧
        ((m.files.node file).readAt source.offset source.readBytes).length ≠ source.readBytes := by
  simp only [loadSource, Attempt.ends_bind, Attempt.ends_get, Attempt.ends_set, Attempt.ends_modify,
    Attempt.ends_ite, Attempt.ends_throw]
  refine ⟨fun hshort => ?_, fun _ => trivial⟩
  rw [Bool.and_eq_true, Option.isSome_iff_exists, bne_iff_ne] at hshort
  obtain ⟨⟨file, hfile⟩, hne⟩ := hshort
  rw [hfile] at hne
  exact ⟨file, hfile, hne⟩

theorem fetchSlot_ends {slot : Nat} (hn : n < m.frames.size) (hslot : slot < m.swap.capacity) :
    Attempt.Ends False (fetchSlot slot n) m
      (fun _ after => ∃ bytes swap, m.memory.swap.fetch slot = .ok (bytes, none, swap) ∧
        after.memory = { m.memory.setFrame n
          { m.memory.frames n with contents := overwrite zeroPage 0 bytes } with swap })
      fun e after => e ≠ .invalidMapping ∧ ∃ c swap, m.memory.swap.Agrees swap ∧
        after.memory = { m.memory.setFrame n { m.memory.frames n with contents := c } with swap } := by
  simp only [fetchSlot, Attempt.ends_bind, Attempt.ends_get]
  cases hf : m.swap.fetch slot with
  | error a => exact absurd hf (SwapSpace.fetch_ne_abort hslot a)
  | ok answer =>
    obtain ⟨bytes, failure, swap⟩ := answer
    have hset := fun c => congrArg (fun v : Memory π => { v with swap }) (Machine.memory_setContents hn c)
    cases failure with
    | some e =>
      simp only [Attempt.ends_bind, Attempt.ends_set, Attempt.ends_throw]
      exact ⟨SwapSpace.fetch_error_ne hf, _, swap, SwapSpace.fetch_eq_failure hf hslot, hset _⟩
    | none =>
      simp only [Attempt.ends_bind, Attempt.ends_set, Attempt.ends_modify]
      refine ⟨bytes, swap, hf, (hset _).trans ?_⟩
      rw [overwrite_full _ zeroPage (SwapSpace.fetch_eq_ok hf hslot).1]

/-- What an answer about a fresh slot becomes. -/
theorem storedIn_ends (answer : Except MemoryError Nat) (swap : SwapSpace) :
    Attempt.Ends False (storedIn answer swap) m
      (fun slot after => answer = .ok slot ∧ after.memory = { m.memory with swap })
      fun e after => answer = .error e ∧ after.memory = { m.memory with swap } := by
  cases answer with
  | ok slot =>
    simp only [storedIn, Attempt.ends_bind, Attempt.ends_modify, Attempt.ends_pure]
    exact ⟨trivial, rfl⟩
  | error e =>
    simp only [storedIn, Attempt.ends_bind, Attempt.ends_modify, Attempt.ends_ite, Attempt.ends_throw]
    exact ⟨fun _ => ⟨trivial, rfl⟩, fun _ => ⟨trivial, rfl⟩⟩

theorem storePage_ends (contents : PageBytes) (hfits : m.swap.Fits) :
    Attempt.Ends False (storePage contents) m
      (fun slot after => ∃ swap, m.memory.swap.store contents = (.ok slot, swap) ∧
        after.memory = { m.memory with swap })
      fun e after => e ≠ .invalidMapping ∧
        ∃ swap, m.memory.swap.Agrees swap ∧ after.memory = { m.memory with swap } := by
  simp only [storePage, Attempt.ends_bind, Attempt.ends_get]
  cases hs : m.swap.store contents with
  | mk answer swap =>
    refine (storedIn_ends answer swap).imp ?_ ?_
    · rintro slot after ⟨rfl, hafter⟩
      exact ⟨swap, hs, hafter⟩
    · rintro e after ⟨rfl, hafter⟩
      exact ⟨SwapSpace.store_error_ne hs, swap, SwapSpace.store_eq_error hs hfits, hafter⟩

theorem duplicateSlot_ends {slot : Nat} (hfits : m.swap.Fits) (hslot : slot < m.swap.capacity) :
    Attempt.Ends False (duplicateSlot slot) m
      (fun copy after => ∃ swap, m.memory.swap.duplicate slot = .ok (.ok copy, swap) ∧
        after.memory = { m.memory with swap })
      fun _ after => ∃ swap, m.memory.swap.Agrees swap ∧ after.memory = { m.memory with swap } := by
  simp only [duplicateSlot, Attempt.ends_bind, Attempt.ends_get]
  cases hd : m.swap.duplicate slot with
  | error a => exact absurd hd (SwapSpace.duplicate_ne_abort hslot a)
  | ok r =>
    obtain ⟨answer, swap⟩ := r
    refine (storedIn_ends answer swap).imp ?_ ?_
    · rintro copy after ⟨rfl, hafter⟩
      exact ⟨swap, hd, hafter⟩
    · rintro e after ⟨rfl, hafter⟩
      exact ⟨swap, SwapSpace.duplicate_eq_error hd hslot hfits, hafter⟩

/-- A zeroed frame is filled with a page. If that fails the frame holds some bytes, and every slot the
page it held before. -/
theorem materialize_ends {backing : Backing} (hn : n < m.frames.size)
    (hslot : ∀ slot, backing.slot? = some slot → slot < m.swap.capacity)
    (hzero : (m.memory.frames n).contents = zeroPage) :
    Attempt.Ends False (materialize backing n) m
      (fun backing' after => ∃ c swap, m.memory.Filled backing c backing' swap ∧
        after.memory = { m.memory.setFrame n { m.memory.frames n with contents := c } with swap })
      fun e after => e ≠ .invalidMapping ∧ ∃ c swap, m.memory.swap.Agrees swap ∧
        after.memory = { m.memory.setFrame n { m.memory.frames n with contents := c } with swap } := by
  cases backing with
  | uninit target source =>
    simp only [materialize, Attempt.ends_bind]
    refine (loadSource_ends source hn).imp ?_ ?_
    · intro _ after hafter
      cases target <;> exact ⟨_, _, .uninit .., hafter⟩
    · rintro e after ⟨rfl, c, hafter⟩
      exact ⟨(by simp), c, m.swap, .refl _, hafter⟩
  | anonymous source slot =>
    cases slot with
    | none =>
      simp only [materialize, Attempt.ends_pure]
      refine ⟨_, _, .blank source, ?_⟩
      rw [← hzero]
      simp [Memory.setFrame]
    | some slot =>
      simp only [materialize, Attempt.ends_bind]
      refine (fetchSlot_ends hn (hslot slot rfl)).imp ?_ ?_
      · rintro _ after ⟨bytes, swap, hf, hafter⟩
        exact ⟨_, swap, .fetched hf, hafter⟩
      · exact fun _ _ h => h
  | fileBacked source evicted =>
    simp only [materialize, Attempt.ends_bind]
    refine (loadSource_ends source hn).imp ?_ ?_
    · intro _ after hafter
      exact ⟨_, _, .file source evicted, hafter⟩
    · rintro e after ⟨rfl, c, hafter⟩
      exact ⟨(by simp), c, m.swap, .refl _, hafter⟩

/-- A file that takes all the bytes of a page is never written short. -/
theorem Source.count_of_takes {source : Source} {files files' : FileStore} {file count : Nat}
    {c : PageBytes} (h : source.Takes files) (hs : source.file = some file)
    (hw : files.writeAt file source.offset (c.toList.take source.readBytes) = (count, files')) :
    count = source.readBytes := by
  obtain ⟨file', hs', hlimit, hlength⟩ := h
  obtain rfl := Option.some.inj (hs.symm.trans hs')
  have hle := source.readBytes_le
  have hcount := FileStore.count_writeAt hw
  rw [hlimit, FileNode.allowed, Option.elim_none, List.length_take, Vector.length_toList] at hcount
  simp only [pageSize] at hle
  omega

/-- Dirty bytes go to their file, unless it does not take them all. -/
theorem writeBack_ends (source : Source) {va : Nat} (hva : va % pageSize = 0) :
    Attempt.Ends False (writeBack source n s va) m
      (fun _ after => m.memory.Flushed s va n source after.memory)
      fun e after => e = .ioFailure ∧ m.memory.FlushedShort s va n source after.memory ∧
        ¬source.Takes m.files := by
  have hdown : pageDown va = va := by simp [pageDown, hva]
  have hentry : m.memory.entries s va = PageDirectory.entry? (m.space s).directory va := by
    rw [Machine.entry?_eq, hdown]
  have hdirty : (m.space s).directory.isDirty va = true ↔ m.memory.Dirty s va := by
    simp only [PageDirectory.isDirty, PageDirectory.has, Option.any_eq_true, Memory.Dirty, hentry]
  refine ends_writeBack (fun hclean => ?_) (fun _ hfile => ?_) fun file count files hisDirty hfile hw => ?_
  · exact .clean (hdirty.not.mp (Bool.not_eq_true _ ▸ hclean))
  · refine ⟨rfl, .detached, ?_⟩
    rintro ⟨file, hsome, -⟩
    cases hfile.symm.trans hsome
  obtain ⟨e, he, hd⟩ := hdirty.mp hisDirty
  refine ⟨fun hcount => ?_, fun hcount => ⟨rfl, .short hfile he hd hw, fun htakes =>
    hcount (Source.count_of_takes htakes hfile hw)⟩⟩
  rw [hcount] at hw
  have hafter : ((({ m with files } : Machine π)).modifySpace s (·.setDirty va false)).memory =
      { m.memory.setEntry s va (some (e.put .dirty false)) with files } := by
    rw [Machine.memory_setDirty (m := { m with files }) (e := e) false (hdown.symm ▸ he), hdown]
    rfl
  rw [hafter]
  exact .done hfile he hd hw

namespace Memory

theorem Flushed.swap_eq {v w : Memory π} {va : Nat} {source : Source}
    (h : v.Flushed s va n source w) : w.swap = v.swap := by
  cases h <;> rfl

theorem Flushed.limits {v w : Memory π} {va : Nat} {source : Source} (h : v.Flushed s va n source w) :
    w.spaces = v.spaces ∧ w.size = v.size ∧ w.nextSerial = v.nextSerial := by
  cases h <;> exact ⟨rfl, rfl, rfl⟩

theorem FlushedShort.swap_eq {v w : Memory π} {va : Nat} {source : Source}
    (h : v.FlushedShort s va n source w) : w.swap = v.swap := by
  cases h <;> rfl

/-- Paging alone has led from `v` to `w`, all pages are as they were, and what is in swap is, too. -/
structure Unmoved [ReplacementPolicy π] (v w : Memory π) : Prop where
  rests : Rests v w
  pages : w.pages = v.pages
  held : ∀ k, v.swap.Used k → w.swap.held k = v.swap.held k

theorem Unmoved.refl [ReplacementPolicy π] (v : Memory π) : Unmoved v v := ⟨.refl v, rfl, fun _ _ => rfl⟩

end Memory

theorem Memory.Flushed.not_dirty {v w : Memory π} {va : Nat} {source : Source}
    (h : v.Flushed s va n source w) : ¬w.Dirty s va := by
  cases h with
  | clean h => exact h
  | done hs he hd hw =>
    rintro ⟨e, he', hd'⟩
    simp only [Memory.setEntry, setAt_self, Option.some.injEq] at he'
    rw [← he', PageTableEntry.has_put] at hd'
    cases hd'

theorem Machine.memory_retainSource (source : Source) :
    (m.retainSource source).memory = { m.memory with files := m.memory.files.retainSource source } := by
  unfold retainSource FileStore.retainSource
  cases source.file <;> rfl

theorem Machine.memory_releaseSource (source : Source) :
    (m.releaseSource source).memory = { m.memory with files := m.memory.files.releaseSource source } := by
  unfold releaseSource FileStore.releaseSource
  cases source.file <;> rfl

theorem Machine.memory_freeSlot (slot : Option Nat) :
    (m.freeSlot slot).memory = { m.memory with swap := m.memory.swap.freeSlot slot } := by
  cases slot <;> rfl

variable [ReplacementPolicy π]

/-- A resident page is saved, after its dirty bytes have gone to its file if it has one. -/
theorem saveOut_ends {page : Page} (hva : page.va % pageSize = 0) (hfits : m.swap.Fits)
    (hp : m.memory.pages s page.va = some page) (hf : page.frame = some n)
    (hfilled : ∀ target source, page.backing ≠ .uninit target source) :
    Attempt.Ends False (saveOut page n s) m
      (fun backing after => ∃ v swap,
        (v = m.memory ∨ page.isFile = true ∧ m.memory.Flushed s page.va n page.source v) ∧
          v.Saved (m.memory.frames n).contents (v.Dirty s page.va) page.backing backing swap ∧
          after.memory = { v with swap })
      fun e after => e ≠ .invalidMapping ∧ m.memory.Unmoved after.memory := by
  cases hb : page.backing with
  | uninit target source => exact absurd hb (hfilled target source)
  | anonymous source slot =>
    simp only [saveOut, hb, Attempt.ends_bind, Attempt.ends_get]
    refine (storePage_ends _ hfits).imp ?_ ?_
    · rintro slot after ⟨swap, hstore, hafter⟩
      exact ⟨m.memory, swap, .inl rfl, .stored hstore, hafter⟩
    · rintro e after ⟨he, swap, hagrees, hafter⟩
      rw [hafter]
      exact ⟨he, .of_step (.swap hagrees) (.of_pages rfl fun _ => rfl), rfl, hagrees.held⟩
  | fileBacked source evicted =>
    have hfile : page.isFile = true := by rw [Page.isFile, hb]; rfl
    have hsource : page.source = source := by rw [Page.source, hb]; rfl
    simp only [saveOut, hb, Attempt.ends_bind]
    refine (writeBack_ends source hva).imp ?_ ?_
    · intro _ after hw
      exact ⟨after.memory, after.memory.swap, .inr ⟨hfile, hsource ▸ hw⟩, .clean source evicted hw.not_dirty,
        rfl⟩
    · rintro e after ⟨rfl, hw, -⟩
      refine ⟨(by simp), .of_step (.flushedShort hp hf hfile (hsource ▸ hw))
        (.of_pages hw.same hw.transfers), hw.same, fun k _ => ?_⟩
      rw [hw.swap_eq]

omit [ReplacementPolicy π] in
theorem duplicateBacking_ends {backing : Backing} (hfits : m.swap.Fits)
    (hslot : ∀ slot, backing.slot? = some slot → slot < m.swap.capacity) :
    Attempt.Ends False (duplicateBacking backing) m
      (fun copy after => ∃ swap, m.memory.Duplicated backing copy swap ∧
        after.memory = { m.memory with swap, files := m.memory.files.retainSource copy.source })
      fun _ after => Memory.Spared m.memory after.memory := by
  have hsame (h : backing.slot? = none) : ∃ swap, m.memory.Duplicated backing backing swap ∧
      (m.retainSource backing.source).memory =
        { m.memory with swap, files := m.memory.files.retainSource backing.source } :=
    ⟨_, .same h, Machine.memory_retainSource _⟩
  cases backing with
  | uninit target source =>
    simp only [duplicateBacking, Attempt.ends_bind, Attempt.ends_pure, Attempt.ends_modify]
    exact hsame rfl
  | fileBacked source evicted =>
    simp only [duplicateBacking, Attempt.ends_bind, Attempt.ends_pure, Attempt.ends_modify]
    exact hsame rfl
  | anonymous source slot =>
    cases slot with
    | none =>
      simp only [duplicateBacking, Attempt.ends_bind, Attempt.ends_pure, Attempt.ends_modify]
      exact hsame rfl
    | some slot =>
      simp only [duplicateBacking, Attempt.ends_bind, Attempt.ends_pure, Attempt.ends_modify]
      refine (duplicateSlot_ends hfits (hslot slot rfl)).imp ?_ ?_
      · rintro copy after ⟨swap, hdup, hafter⟩
        refine ⟨swap, .slot hdup, ?_⟩
        rw [Machine.memory_retainSource, hafter]
      · rintro e after ⟨swap, hagrees, hafter⟩
        rw [hafter]
        exact ⟨rfl, Nat.le_refl _, hagrees, fun _ => rfl, fun _ => rfl⟩

end DemandPaging
