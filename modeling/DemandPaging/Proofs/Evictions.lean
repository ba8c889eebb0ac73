import DemandPaging.Proofs.Arrivals
import DemandPaging.Proofs.FilePages
import DemandPaging.Proofs.Reserves

/-! # Which page makes room

An acquisition takes a frame that is free. If there is none it puts out the page that is alone in the
first frame, in policy order, of which that can be said, and that page only. If there is no such frame, or
its page cannot be saved, nothing happens. So it is after any history of operations, of frames that were
acquired and given back besides, and of mappings that others have made.
-/
namespace DemandPaging

variable {π : Type}

namespace Machine
variable {m after : Machine π} {busy : Option Nat} {n k s : Nat} {page : Page} {held : List Nat}

/-- Frame `n` may be evicted: it is in use, not pinned and not shared, and its one owner is a page that is
still in its table, and that nobody is busy with. -/
structure Evictable (m : Machine π) (busy : Option Nat) (n s : Nat) (page : Page) : Prop where
  allocated : (m.frames.frame n).allocated = true
  unpinned : (m.frames.frame n).pinned = false
  unshared : (m.frames.frame n).refcount = 1
  owner : (m.frames.frame n).owners = [⟨page.serial, s, page.va⟩]
  live : (m.space s).pages[page.va]? = some page
  idle : busy ≠ some page.serial

/-- Of the frames offered, frame `n` is the first that may be evicted. -/
structure Elects (m : Machine π) (busy : Option Nat) (offered : List Nat) (n s : Nat) (page : Page) :
    Prop where
  evictable : m.Evictable busy n s page
  first : ∃ earlier later, offered = earlier ++ n :: later ∧
    ∀ k ∈ earlier, ∀ t q, ¬m.Evictable busy k t q

/-- The first `count` bytes of frame `n` are in the file at `offset`, and no other byte of a file has
changed. -/
structure Wrote (m : Machine π) (n file offset count : Nat) (files : FileStore) : Prop where
  bytes : ∀ i, (files.node file).contents[i]? =
    if offset ≤ i ∧ i < offset + count then (m.contents n).toList[i - offset]?
    else (m.files.node file).contents[i]?
  others : ∀ f, f ≠ file → (files.node f).contents = (m.files.node f).contents

/-- Where the bytes of frame `n` are when its page has been put out. No other slot and no other byte of a
file has changed. -/
inductive Saves (m : Machine π) (n s : Nat) (page : Page) (swap : SwapSpace) (files : FileStore) :
    Backing → Prop
  | stored {source : Source} {old : Option Nat} {slot : Nat} (hb : page.backing = .anonymous source old)
    (hfree : ¬m.swap.Used slot) (hused : ∀ j, swap.Used j ↔ j = slot ∨ m.swap.Used j)
    (hheld : swap.held slot = m.contents n) (hothers : ∀ j, m.swap.Used j → swap.held j = m.swap.held j)
    (hfiles : files = m.files) : Saves m n s page swap files (.anonymous source (some slot))
  | clean {source : Source} {old : Bool} (hb : page.backing = .fileBacked source old)
    (hclean : (m.space s).directory.isDirty page.va = false) (hswap : swap = m.swap)
    (hfiles : files = m.files) : Saves m n s page swap files (.fileBacked source true)
  | written {source : Source} {old : Bool} {file : Nat} (hb : page.backing = .fileBacked source old)
    (hdirty : (m.space s).directory.isDirty page.va = true) (hfile : source.file = some file)
    (hwrote : m.Wrote n file source.offset source.readBytes files) (hswap : swap = m.swap) :
    Saves m n s page swap files (.fileBacked source true)

/-- The page of space `s` that was in frame `n` has been saved, is in no frame and is mapped nowhere. No
other page and no other mapping has changed. -/
structure PutsOut (m : Machine π) (n s : Nat) (page : Page) (after : Machine π) : Prop where
  saved : ∃ backing, (after.space s).pages[page.va]? = some { page with backing, frame := none } ∧
    m.Saves n s page after.swap after.files backing
  unmapped : (after.space s).directory.entry? page.va = none
  pages : ∀ t (a : Nat), ¬(t = s ∧ a = page.va) → (after.space t).pages[a]? = (m.space t).pages[a]?
  mappings : ∀ t (a : Nat), ¬(t = s ∧ a = page.va) →
    (after.space t).directory.entries[a]? = (m.space t).directory.entries[a]?

/-- Frame `n` has been taken: it is zeroed, pinned and counted once, and no page is in it. All other frames
are as they were. -/
structure Takes (m : Machine π) (n : Nat) (after : Machine π) : Prop where
  lt : n < m.frames.size
  size : after.frames.size = m.frames.size
  frame : after.frames.frame n = .taken zeroPage
  unused : ∀ t (a : Nat) q, (after.space t).pages[a]? = some q → q.frame ≠ some n
  others : ∀ k, k ≠ n → after.frames.frame k = m.frames.frame k

/-- Frame `n` was free, and nothing else has changed. -/
structure TakesFree (m : Machine π) (n : Nat) (after : Machine π) : Prop where
  free : (m.frames.frame n).allocated = false
  spaces : after.spaces = m.spaces
  swap : after.swap = m.swap
  files : after.files = m.files

/-- No frame is free. -/
def Full (m : Machine π) : Prop := ∀ n, n < m.frames.size → (m.frames.frame n).allocated = true

/-- Nothing has changed, except that bytes of frame `n` may have gone to its page's file, and not all of
those that the page has for it. -/
structure Unsaved (m : Machine π) (n s : Nat) (page : Page) (after : Machine π) : Prop where
  frames : after.frames = m.frames
  spaces : after.spaces = m.spaces
  nextSerial : after.nextSerial = m.nextSerial
  /-- The same slots are in use, and hold what they held. -/
  swap : m.swap.Agrees after.swap
  files : after.files = m.files ∨ ∃ source old file count, page.backing = .fileBacked source old ∧
    (m.space s).directory.isDirty page.va = true ∧ source.file = some file ∧ count < source.readBytes ∧
    m.Wrote n file source.offset count after.files

/-- Why no frame of those offered could be had, and what has come of it. -/
inductive Refuses (m : Machine π) (busy : Option Nat) (offered : List Nat) : MemoryError → Machine π → Prop
  | none (h : ∀ k ∈ offered, ∀ t q, ¬m.Evictable busy k t q) : Refuses m busy offered .allocationExhausted m
  | unsaved {n s : Nat} {page : Page} {e : MemoryError} {after : Machine π}
    (helects : m.Elects busy offered n s page) (hsave : saveOut page n s m = .ok (.error e) after)
    (hafter : m.Unsaved n s page after) : Refuses m busy offered e after

theorem Elects.cons {offered : List Nat} (hk : ∀ t q, ¬m.Evictable busy k t q)
    (h : m.Elects busy offered n s page) : m.Elects busy (k :: offered) n s page := by
  obtain ⟨hevictable, earlier, later, rfl, hearlier⟩ := h
  exact ⟨hevictable, k :: earlier, later, rfl, List.forall_mem_cons.mpr ⟨hk, hearlier⟩⟩

theorem Refuses.cons {offered : List Nat} {e : MemoryError} (hk : ∀ t q, ¬m.Evictable busy k t q)
    (h : m.Refuses busy offered e after) : m.Refuses busy (k :: offered) e after := by
  cases h with
  | none h => exact .none (List.forall_mem_cons.mpr ⟨hk, h⟩)
  | unsaved helects hsave hafter => exact .unsaved (helects.cons hk) hsave hafter

/-- In the order of arrival the frame elected is the one that came first. -/
theorem Elects.acquiredBefore [ReplacementPolicy π] (hm : m.InOrder)
    (h : m.Elects busy (ReplacementPolicy.candidates m.frames.policy) n s page) {t : Nat} {q : Page}
    (hk : m.Evictable busy k t q) (hne : k ≠ n) : m.AcquiredBefore n k := by
  obtain ⟨-, earlier, later, hsplit, hearlier⟩ := h
  have hmem := (hm.candidates k).mpr hk.allocated
  have horder := hm.order
  rw [hsplit] at hmem horder
  rcases List.mem_append.mp hmem with hmem | hmem
  · exact absurd hk (hearlier k hmem t q)
  · have hlater := (List.mem_cons.mp hmem).resolve_left hne
    exact List.rel_of_pairwise_cons (List.pairwise_append.mp horder).2.1 hlater

/-- What `victim?` finds is what may be evicted. -/
theorem victim?_eq_some_iff (h : m.memory.Reserves held) {o : Owner} :
    m.victim? busy n = some (o, page) ↔
      o = ⟨page.serial, o.space, page.va⟩ ∧ m.Evictable busy n o.space page := by
  rw [victim?_eq_some, FrameTable.soleOwner?_eq_some]
  constructor
  · rintro ⟨⟨hallocated, hunpinned, hunshared, howners⟩, hp, hserial, hidle⟩
    have howner : o ∈ (m.memory.frames n).owners := howners ▸ List.mem_singleton_self o
    obtain ⟨q, hq, -, -⟩ := h.owner howner
    obtain ⟨hva, haligned, -⟩ := h.kept hq
    rw [page?_eq, pageDown_eq_self haligned, hq, Option.some.injEq] at hp
    subst hp
    have ho : o = ⟨q.serial, o.space, q.va⟩ := by rw [hserial, hva]
    exact ⟨ho, hallocated, hunpinned, hunshared, ho ▸ howners, hva ▸ hq, hidle⟩
  · rintro ⟨ho, hallocated, hunpinned, hunshared, howners, hlive, hidle⟩
    have haligned := (h.kept hlive).2.1
    have hva : o.va = page.va := congrArg Owner.va ho
    refine ⟨⟨hallocated, hunpinned, hunshared, howners.trans (congrArg (fun x => [x]) ho.symm)⟩, ?_, ?_, hidle⟩
    · rw [page?_eq, hva, pageDown_eq_self haligned]
      exact hlive
    · exact (congrArg Owner.page ho).symm

theorem Wrote.of_writeAt {source : Source} {file count : Nat} {files : FileStore}
    (hw : m.files.writeAt file source.offset ((m.contents n).toList.take source.readBytes) = (count, files)) :
    m.Wrote n file source.offset count files := by
  have hle : count ≤ source.readBytes :=
    Nat.le_trans (FileStore.count_le_of_writeAt hw) (List.length_take_le ..)
  refine ⟨fun i => ?_, fun f hne => FileStore.contents_writeAt hw hne⟩
  rw [FileStore.getElem?_writeAt hw]
  split
  · rw [List.getElem?_take, if_pos (by omega)]
  · rfl

/-- What was saved in memory is where it belongs. -/
theorem Saves.of_saved {v : Memory π} {backing : Backing} {swap : SwapSpace} (hfits : m.swap.Fits)
    (hva : page.va % pageSize = 0)
    (hv : v = m.memory ∨ page.isFile = true ∧ m.memory.Flushed s page.va n page.source v)
    (hsaved : v.Saved (v.frames n).contents (v.Dirty s page.va) page.backing backing swap) :
    m.Saves n s page swap v.files backing := by
  have hdirty : (m.space s).directory.isDirty page.va = true ↔ m.memory.Dirty s page.va := by
    rw [isDirty_iff, pageDown_eq_self hva]
  cases hb : page.backing with
  | uninit target source =>
    rw [hb] at hsaved
    cases hsaved
  | anonymous source old =>
    rw [Page.isFile, hb] at hv
    obtain rfl := hv.resolve_right fun hf => Bool.false_ne_true hf.1
    rw [hb] at hsaved
    cases hsaved with
    | stored hstore =>
      obtain ⟨hfree, -, -, -, hused, hothers, hheld⟩ := SwapSpace.store_eq_ok hstore hfits
      refine .stored hb hfree hused hheld (fun j hj => hothers j ?_) rfl
      rintro rfl
      exact hfree hj
  | fileBacked source old =>
    have hsource : page.source = source := congrArg Backing.source hb
    rw [hb] at hsaved
    cases hsaved with
    | clean _ _ hclean =>
      rcases hv with rfl | ⟨-, hflush⟩
      · exact .clean hb (Bool.eq_false_iff.mpr (hdirty.not.mpr hclean)) rfl rfl
      · rw [hsource] at hflush
        cases hflush with
        | clean hclean => exact .clean hb (Bool.eq_false_iff.mpr (hdirty.not.mpr hclean)) rfl rfl
        | done hfile he hd hw =>
          exact .written hb (hdirty.mpr ⟨_, he, hd⟩) hfile (.of_writeAt hw) rfl

end Machine

open Machine (Evictable Elects PutsOut Takes TakesFree Unsaved Refuses)

variable {m : Machine π} {busy : Option Nat} {n s : Nat} {page : Page} {held : List Nat}

/-- A page that cannot be saved stays where it is. -/
theorem saveOut_unsaved (hfits : m.swap.Fits)
    (hfilled : ∀ target source, page.backing ≠ .uninit target source) :
    Attempt.Ends True (saveOut page n s) m (fun _ _ => True) fun _ after => m.Unsaved n s page after := by
  cases hb : page.backing with
  | uninit target source => exact absurd hb (hfilled target source)
  | anonymous source old =>
    simp only [saveOut, hb, storePage, Attempt.ends_bind, Attempt.ends_get]
    cases hs : m.swap.store (m.contents n) with
    | mk answer swap =>
      cases answer with
      | ok slot =>
        simp only [storedIn, Attempt.ends_bind, Attempt.ends_modify, Attempt.ends_pure]
      | error e =>
        have hagrees := SwapSpace.store_eq_error hs hfits
        simp only [storedIn, Attempt.ends_bind, Attempt.ends_modify, Attempt.ends_ite, Attempt.ends_throw]
        exact ⟨fun _ => ⟨rfl, rfl, rfl, hagrees, .inl rfl⟩, fun _ => ⟨rfl, rfl, rfl, hagrees, .inl rfl⟩⟩
  | fileBacked source old =>
    have hsame : m.Unsaved n s page m := ⟨rfl, rfl, rfl, .refl _, .inl rfl⟩
    simp only [saveOut, hb, Attempt.ends_bind, Attempt.ends_pure]
    refine ends_writeBack (fun _ => trivial) (fun _ _ => hsame) fun file count files hdirty hfile hw => ?_
    refine ⟨fun _ => trivial, fun hcount => ⟨rfl, rfl, rfl, .refl _, .inr ?_⟩⟩
    have hle : count ≤ source.readBytes :=
      Nat.le_trans (FileStore.count_le_of_writeAt hw) (List.length_take_le ..)
    exact ⟨source, old, file, count, hb, hdirty, hfile, Nat.lt_of_le_of_ne hle hcount, .of_writeAt hw⟩

/-- A page that could not be saved is where it was, with all the frames that are on hand. -/
theorem Machine.Unsaved.reserves {after : Machine π} (hafter : m.Unsaved n s page after)
    (h : m.memory.Reserves held) : after.memory.Reserves held := by
  refine h.congr ?_ ?_ hafter.nextSerial ?_ ?_ hafter.swap
  · exact congrArg Array.size hafter.spaces
  · exact congrArg FrameTable.size hafter.frames
  · funext t a
    simp only [Machine.memory, Machine.space, hafter.spaces]
  · exact congrArg FrameTable.frame hafter.frames

variable [ReplacementPolicy π]

/-- A page that is saved and unmapped is put out. -/
theorem Machine.PutsOut.of_saved {after : Machine π} {v : Memory π} {backing : Backing} {swap : SwapSpace}
    (hfits : m.swap.Fits) (hva : page.va % pageSize = 0) (hp : m.memory.pages s page.va = some page)
    (hf : page.frame = some n)
    (hv : v = m.memory ∨ page.isFile = true ∧ m.memory.Flushed s page.va n page.source v)
    (hsaved : v.Saved (v.frames n).contents (v.Dirty s page.va) page.backing backing swap)
    (hafter : after.memory = { v.putOut s n page backing with swap }) : m.PutsOut n s page after := by
  obtain ⟨hpages, -, -, hentries, -⟩ := Memory.Rests.of_saving hp hf hv
  obtain rfl : after.swap = swap := congrArg Memory.swap hafter
  have hfiles : after.files = v.files := congrArg Memory.files hafter
  refine ⟨⟨backing, ?_, hfiles ▸ .of_saved hfits hva hv hsaved⟩, ?_, fun t a hne => ?_, fun t a hne => ?_⟩
  · show after.memory.pages s page.va = _
    rw [hafter]
    exact setAt_self
  · rw [Machine.entry?_eq, pageDown_eq_self hva, hafter]
    exact setAt_self
  · show after.memory.pages t a = m.memory.pages t a
    rw [hafter, ← hpages]
    exact setAt_of_ne hne
  · show after.memory.entries t a = m.memory.entries t a
    rw [hafter, ← hentries t a hne]
    exact setAt_of_ne hne

/-- A page that may be evicted is put out of its frame, unless it cannot be saved. -/
theorem evictPage_ends_putsOut (h : m.memory.Reserves held) (hn : m.Evictable busy n s page) :
    Attempt.Ends False (evictPage n ⟨page.serial, s, page.va⟩ page) m
      (fun _ after => m.PutsOut n s page after ∧ after.memory.Reserves held ∧
        after.memory.size = m.memory.size ∧
        ∃ c, after.memory.frames = Function.update m.memory.frames n (.vacant c))
      fun e after => saveOut page n s m = .ok (.error e) after ∧ m.Unsaved n s page after ∧
        after.memory.Reserves held := by
  have hp : m.memory.pages s page.va = some page := hn.live
  obtain ⟨-, hva, hs⟩ := h.kept hp
  obtain ⟨q, hq, -, hf⟩ := h.owner (n := n) (o := ⟨page.serial, s, page.va⟩)
    (hn.owner ▸ List.mem_singleton_self _)
  obtain rfl := Option.some.inj (hp.symm.trans hq)
  have hfilled := h.filled hp hf
  have herror : Attempt.Ends True (evictPage n ⟨page.serial, s, page.va⟩ page) m (fun _ _ => True)
      fun e after => saveOut page n s m = .ok (.error e) after ∧ m.Unsaved n s page after := by
    simp only [evictPage, Attempt.ends_bind, Attempt.ends_modify]
    exact (saveOut_unsaved h.fits hfilled).answered.imp (fun _ _ _ => trivial) fun _ _ he => he
  refine ((evictPage_putsOut hva hs (h.resident hp hf).2.1 h.fits hp hf rfl hfilled).and herror).imp ?_ ?_
  · rintro - after ⟨⟨v, backing, swap, hv, hsaved, hafter⟩, -⟩
    obtain ⟨hpages, hframes, hswap, -, -⟩ := Memory.Rests.of_saving hp hf hv
    obtain ⟨hspaces, hsize, hserial⟩ := Memory.limits_of_saving hv
    have hreserves : v.Reserves held := h.congr hspaces hsize hserial hpages hframes (hswap ▸ .refl _)
    refine ⟨.of_saved h.fits hva hp hf hv hsaved hafter, ?_, ?_, (v.frames n).contents, ?_⟩
    · rw [hafter]
      exact hreserves.putOut (hpages ▸ hp) hf (hframes ▸ hn.unshared) hsaved
    · rw [hafter]
      exact hsize
    · rw [hafter, ← hframes]
      rfl
  · rintro e after ⟨-, hsave, hunsaved⟩
    exact ⟨hsave, hunsaved, hunsaved.reserves h⟩

/-- Of the frames offered the first that may be evicted is cleared, if there is one. -/
theorem evictFirst_elects (h : m.memory.Reserves held) (busy : Option Nat) (offered : List Nat) :
    Attempt.Ends False (evictFirst busy offered) m
      (fun n after => ∃ s page, m.Elects busy offered n s page ∧ m.PutsOut n s page after ∧
        after.memory.Reserves held ∧ after.memory.size = m.memory.size ∧
        ∃ c, after.memory.frames = Function.update m.memory.frames n (.vacant c))
      fun e after => m.Refuses busy offered e after ∧ after.memory.Reserves held := by
  induction offered with
  | nil => exact ⟨.none (List.forall_mem_nil _), h⟩
  | cons k rest ih =>
    simp only [evictFirst, Attempt.ends_bind, Attempt.ends_get]
    cases hv : m.victim? busy k with
    | none =>
      have hnot (t : Nat) (q : Page) (hk : m.Evictable busy k t q) : False := by
        have hsome := (Machine.victim?_eq_some_iff h (o := ⟨q.serial, t, q.va⟩)).mpr ⟨rfl, hk⟩
        cases hv.symm.trans hsome
      refine ih.imp ?_ ?_
      · rintro n after ⟨s, page, helects, hput⟩
        exact ⟨s, page, helects.cons hnot, hput⟩
      · rintro e after ⟨hrefuses, hreserves⟩
        exact ⟨hrefuses.cons hnot, hreserves⟩
    | some victim =>
      obtain ⟨o, page⟩ := victim
      obtain ⟨ho, hk⟩ := (Machine.victim?_eq_some_iff h).mp hv
      have helects : m.Elects busy (k :: rest) k o.space page :=
        ⟨hk, [], rest, rfl, List.forall_mem_nil _⟩
      simp only [Attempt.ends_bind, Attempt.ends_pure]
      rw [ho]
      refine (evictPage_ends_putsOut h hk).imp (fun _ after hput => ?_) ?_
      · exact ⟨o.space, page, helects, hput⟩
      · rintro e after ⟨hsave, hunsaved, hreserves⟩
        exact ⟨.unsaved helects hsave hunsaved, hreserves⟩

/-- A frame that is free is taken, and is on hand then. -/
theorem Machine.Takes.of_occupy {m₁ : Machine π} (h : m₁.memory.Reserves held)
    (hfree : (m₁.memory.frames n).allocated = false) (hlt : n < m₁.memory.size)
    (hsize : m₁.memory.size = m.memory.size)
    (hothers : ∀ k, k ≠ n → m₁.memory.frames k = m.memory.frames k) :
    m.Takes n ({ m₁ with frames := m₁.frames.occupy n }.report (.acquired n)) ∧
      ({ m₁ with frames := m₁.frames.occupy n }.report (.acquired n) : Machine π).memory.Reserves
        (n :: held) := by
  have hafter : ({ m₁ with frames := m₁.frames.occupy n }.report (.acquired n) : Machine π).memory =
      m₁.memory.occupy n := Machine.memory_occupy hlt
  have hreserves := h.occupy hfree hlt
  generalize ({ m₁ with frames := m₁.frames.occupy n }.report (.acquired n) : Machine π) = after at hafter ⊢
  rw [← hafter] at hreserves
  refine ⟨⟨Nat.lt_of_lt_of_eq hlt hsize, (congrArg Memory.size hafter).trans hsize, ?_, fun t a q hq hf => ?_,
    fun k hk => ?_⟩, hreserves⟩
  · show after.memory.frames n = _
    rw [hafter]
    simp only [Memory.occupy, Memory.setFrame, Function.update_self]
    rw [(h.free hfree).2]
    rfl
  · exact (hreserves.resident hq hf).1 (List.mem_cons_self ..)
  · show after.memory.frames k = _
    rw [hafter]
    exact (Function.update_of_ne hk ..).trans (hothers k hk)

theorem acquire_takes (h : m.memory.Reserves held) (busy : Option Nat) :
    Attempt.Ends False (acquire busy) m
      (fun n after => m.Takes n after ∧ after.memory.Reserves (n :: held) ∧ (m.TakesFree n after ∨ m.Full ∧
        ∃ s page, m.Elects busy (ReplacementPolicy.candidates m.frames.policy) n s page ∧
          m.PutsOut n s page after))
      fun e after => m.Full ∧ m.Refuses busy (ReplacementPolicy.candidates m.frames.policy) e after ∧
        after.memory.Reserves held := by
  refine acquire_of_room (fun n frames hplace => ?_) fun hplace => ?_
  · obtain ⟨hfree, hlt, -, -⟩ := FrameTable.place?_eq_some hplace
    have hsame := Machine.memory_placed hplace
    rw [← hsame] at h
    obtain ⟨htakes, hreserves⟩ := Machine.Takes.of_occupy (m := m) h (by rw [hsame]; exact hfree)
      (by rw [hsame]; exact hlt) (congrArg Memory.size hsame) fun k _ => by rw [hsame]
    exact ⟨htakes, hreserves, .inl ⟨hfree, rfl, rfl, rfl⟩⟩
  · have hfull : m.Full := FrameTable.place?_eq_none.mp hplace
    refine (evictFirst_elects h busy _).imp ?_ fun _ _ he => ⟨hfull, he⟩
    rintro n m₁ ⟨s, page, helects, hput, hreserves, hsize, c, hframes⟩
    have hfree : (m₁.memory.frames n).allocated = false := by
      rw [hframes, Function.update_self]
      exact CoreMapEntry.has_free _
    have hlt : n < m₁.memory.size :=
      Nat.lt_of_lt_of_eq (m.frames.lt_of_allocated helects.evictable.allocated) hsize.symm
    obtain ⟨htakes, hreserves⟩ := Machine.Takes.of_occupy (m := m) hreserves hfree hlt hsize fun k hk => by
      rw [hframes, Function.update_of_ne hk]
    refine ⟨htakes, hreserves, .inr ⟨hfull, s, page, helects, ?_⟩⟩
    exact ⟨hput.saved, hput.unmapped, hput.pages, hput.mappings⟩

/-! ## Over any history -/

/-- The machines that come of the first one, and the frames that are on hand there. Operations are performed
while nothing is on hand and mappings are in step with pages. Besides, frames are acquired and given back,
any frame is filled, anything is mapped anywhere, and files and the disk come to hold something else. -/
inductive FrameRuns (first : Machine π) : List Nat → Machine π → Prop
  | start : FrameRuns first [] first
  | perform {m after : Machine π} {op : Operation} {reply : Reply} (h : FrameRuns first [] m)
    (hmapped : m.memory.InStep) (hop : op.Allowed m) (hp : op.perform m = .ok reply after) :
    FrameRuns first [] after
  | acquired {held : List Nat} {m after : Machine π} {busy : Option Nat} {n : Nat} (h : FrameRuns first held m)
    (ha : acquire busy m = .ok (.ok n) after) : FrameRuns first (n :: held) after
  | refused {held : List Nat} {m after : Machine π} {busy : Option Nat} {e : MemoryError}
    (h : FrameRuns first held m) (ha : acquire busy m = .ok (.error e) after) : FrameRuns first held after
  | abandoned {held : List Nat} {m : Machine π} {n : Nat} (h : FrameRuns first held m) (hn : n ∈ held) :
    FrameRuns first (held.erase n) (m.abandon n)
  | filled {held : List Nat} {m : Machine π} {n : Nat} (h : FrameRuns first held m) (hn : n < m.frames.size)
    (contents : PageBytes) : FrameRuns first held (m.setContents n contents)
  | mapped {held : List Nat} {m : Machine π} (h : FrameRuns first held m) (s : Nat)
    (directory : PageDirectory) : FrameRuns first held (m.modifySpace s fun space => { space with directory })
  | elsewhere {held : List Nat} {m : Machine π} (h : FrameRuns first held m) (device : Device)
    (files : FileStore) (hsize : device.size = m.swap.device.size) :
    FrameRuns first held { m with swap := { m.swap with device }, files }

namespace FrameRuns
variable {first : Machine π}

theorem reserves (h : FrameRuns first held m) (hfirst : first.memory.Valid) : m.memory.Reserves held := by
  induction h with
  | start => exact .of_valid hfirst
  | perform _ hmapped hop hp ih =>
    have hvalid := ih.valid_of_inStep hmapped
    obtain ⟨cs, hevolves, -⟩ := ((Operation.perform_ends hvalid hop).of_ok hp).evolves
    exact .of_valid (hvalid.evolves hevolves)
  | acquired _ ha ih => exact ((acquire_takes ih _).of_ok ha).2.1
  | refused _ ha ih => exact ((acquire_takes ih _).of_error ha).2.2
  | abandoned _ hn ih =>
    rw [Machine.memory_abandon (ih.taken _ hn).1]
    exact ih.put hn
  | filled _ hn contents ih =>
    rw [Machine.memory_setContents hn]
    exact ih.refill _ contents
  | @mapped held m _ s directory ih =>
    rw [Machine.memory_modifySpace (f := fun space => { space with directory }) Iff.rfl]
    refine ih.congr rfl rfl rfl (funext fun t => funext fun a => ?_) rfl (.refl _)
    dsimp only
    split
    · rename_i ht
      rw [ht.1]
      rfl
    · rfl
  | elsewhere _ device files hsize ih => exact ih.elsewhere hsize files

theorem inOrder (hπ : FirstInFirstOut π) (h : FrameRuns first held m) (hfirst : first.InOrder) :
    m.InOrder := by
  have hendures := Machine.InOrder.endures hπ
  induction h with
  | start => exact hfirst
  | perform _ _ _ hp ih => exact ((Operation.perform_endures hendures _).ends _ ih).of_ok hp
  | acquired _ ha ih => exact ((hendures.acquire _).ends _ ih).of_ok ha
  | refused _ ha ih => exact ((hendures.acquire _).ends _ ih).of_error ha
  | abandoned _ _ ih => exact hendures.releaseFrame _ _ ih
  | filled _ _ contents ih => exact hendures.keep ih (.setContents _ contents)
  | mapped _ _ _ ih => exact hendures.keep ih (.of_eq rfl rfl)
  | elsewhere _ _ _ _ ih => exact hendures.keep ih (.of_eq rfl rfl)

/-- Operations alone keep mappings in step with pages. -/
theorem of_runs {calls : List Call} (hfirst : first.memory.Valid) (h : Runs Operation.Allowed first calls m) :
    FrameRuns first [] m := by
  induction h with
  | refl => exact .start
  | step hruns hop hp ih =>
    have hsound := (hruns.valid hfirst fun _ _ hop => hop).sound
    exact ih.perform ⟨hsound.mapped, hsound.resident, hsound.exclusive⟩ hop hp

end FrameRuns

variable {count : Nat} {device : Device} {policy : π} {files : FileStore}

/-- An acquisition takes a free frame, or clears the first frame that may be evicted, or does nothing. If
candidates are queued as they come, the first of them is the frame that was acquired longest ago. -/
theorem acquisition_evicts_first_or_nothing (h : FrameRuns (Machine.start count device policy files) held m)
    (busy : Option Nat) :
    (∃ answer after, acquire busy m = .ok answer after ∧ match answer with
      | .ok n => m.Takes n after ∧ (m.TakesFree n after ∨ m.Full ∧
        ∃ s page, m.Elects busy (ReplacementPolicy.candidates m.frames.policy) n s page ∧
          m.PutsOut n s page after ∧
          (FirstInFirstOut π → ReplacementPolicy.candidates policy = [] →
            ∀ k t q, m.Evictable busy k t q → k ≠ n → m.AcquiredBefore n k))
      | .error e => m.Full ∧ m.Refuses busy (ReplacementPolicy.candidates m.frames.policy) e after) ∧
    (FirstInFirstOut π → ReplacementPolicy.candidates policy = [] → m.InOrder) := by
  have hqueued (hπ : FirstInFirstOut π) (hnone : ReplacementPolicy.candidates policy = []) : m.InOrder :=
    h.inOrder hπ (.start _ _ _ hnone)
  refine ⟨?_, hqueued⟩
  have htakes := acquire_takes (h.reserves (Machine.valid_start ..)) busy
  unfold Attempt.Ends at htakes
  split at htakes
  · rename_i n after ha
    obtain ⟨htaken, -, hroom⟩ := htakes
    refine ⟨_, after, ha, htaken, hroom.imp_right fun ⟨hfull, s, page, helects, hput⟩ => ?_⟩
    refine ⟨hfull, s, page, helects, hput, fun hπ hnone k t q hk hne => ?_⟩
    exact helects.acquiredBefore (hqueued hπ hnone) hk hne
  · rename_i e after ha
    exact ⟨_, after, ha, htakes.1, htakes.2.1⟩
  · exact htakes.elim

/-- Two frames, with a page of a file in one and an anonymous page in the other. While the frame of the first
is on hand the second is put out of the other. -/
theorem acquisition_evicts_beside_pinned : ∃ m after : Machine Fifo, ∃ s page,
    FrameRuns (.start 2 { name := "swap", kind := .swap, size := 8, disk := .zeroed 8 } {}
      { nodes := #[{ contents := [1, 2, 3], handles := 1 }] }) [0] m ∧
    (m.frames.frame 0).pinned = true ∧ acquire none m = .ok (.ok 1) after ∧ m.Takes 1 after ∧
    m.Elects none (ReplacementPolicy.candidates m.frames.policy) 1 s page ∧ m.PutsOut 1 s page after := by
  let first : Machine Fifo := .start 2 { name := "swap", kind := .swap, size := 8, disk := .zeroed 8 } {}
    { nodes := #[{ contents := [1, 2, 3], handles := 1 }] }
  let second (m : Machine Fifo) : Bool := match acquire none m with
    | .ok (.ok 1) _ => (m.frames.frame 0).pinned && (m.frames.frame 1).allocated
    | _ => false
  let check (m : Machine Fifo) : Bool := match acquire none m with
    | .ok (.ok 0) m₁ => second m₁
    | _ => false
  obtain ⟨calls, m, hruns, hcheck⟩ := Runs.of_afterAll (m := first) Operation.Allowed
    [.createProcess 1, .map 0 65536 3 true 0 0, .insert 0 8192 true (.anonymous .zeroed none),
      .writeUser 0 65536 [9], .writeUser 0 8192 [8]] check (by decide +kernel)
  have hstart := FrameRuns.of_runs (Machine.valid_start ..) hruns
  simp only [check] at hcheck
  split at hcheck
  · rename_i m₁ hfirst
    have hheld := hstart.acquired hfirst
    simp only [second] at hcheck
    split at hcheck
    · rename_i after hsecond
      obtain ⟨hpinned, hallocated⟩ := Bool.and_eq_true_iff.mp hcheck
      obtain ⟨⟨answer, after', hanswer, heffect⟩, -⟩ := acquisition_evicts_first_or_nothing hheld none
      obtain ⟨rfl, rfl⟩ : answer = .ok 1 ∧ after' = after := by
        simpa using hanswer.symm.trans hsecond
      obtain ⟨htakes, hfree | ⟨-, s, page, helects, hput, -⟩⟩ := heffect
      · cases hfree.free.symm.trans hallocated
      · exact ⟨m₁, _, s, page, hheld, hpinned, hsecond, htakes, helects, hput⟩
    · cases hcheck
  · cases hcheck

end DemandPaging
