import Mathlib.Data.List.Nodup
import Mathlib.Data.List.Perm.Subperm
import DemandPaging.Machine.FileMapping
import DemandPaging.Proofs.Faults

/-! # Mapping files

A mapping is accepted as a whole, and then all of its pages are new, or it changes nothing. What an
unmapping takes away are pages of files.
-/
namespace DemandPaging
open Memory (Change)

/-- From one page address to another it is a number of whole pages. -/
theorem exists_pages {va a : Nat} (hva : va % pageSize = 0) (ha : a % pageSize = 0) (hle : va ≤ a) :
    ∃ j, a = va + j * pageSize := by
  refine ⟨(a - va) / pageSize, ?_⟩
  simp only [pageSize] at *
  omega

/-- The page addresses of a run of pages are those between its first and what is behind its last. -/
theorem exists_lt_pages {va a count : Nat} (hva : va % pageSize = 0) (ha : a % pageSize = 0) :
    (∃ j < count, a = va + j * pageSize) ↔ va ≤ a ∧ a < va + count * pageSize := by
  constructor
  · rintro ⟨j, hj, rfl⟩
    simp only [pageSize]
    omega
  · rintro ⟨hle, hlt⟩
    obtain ⟨j, rfl⟩ := exists_pages hva ha hle
    refine ⟨j, ?_, rfl⟩
    simp only [pageSize] at hlt
    omega

/-- The changes that add pages of a file to a space, all in user memory. -/
def MapsIn (s file : Nat) (cs : List Change) : Prop :=
  ∀ c ∈ cs, ∃ page source, c = .insert s page ∧ page.va < kernelBase ∧
    page.backing = .uninit .file source ∧ source.file = some file

theorem MapsIn.nil {s file : Nat} : MapsIn s file [] := List.forall_mem_nil _

theorem MapsIn.cons {s file : Nat} {page : Page} {source : Source} {cs : List Change}
    (hva : page.va < kernelBase) (hb : page.backing = .uninit .file source)
    (hs : source.file = some file) (h : MapsIn s file cs) : MapsIn s file (.insert s page :: cs) := by
  rintro c (_ | ⟨_, hmem⟩)
  · exact ⟨page, source, rfl, hva, hb, hs⟩
  · exact h c hmem

/-- How many pages it takes to map `length` bytes. -/
def mappedPages (length : Nat) : Nat := (length + (pageSize - 1)) / pageSize

/-- A page of a mapped file that nobody has claimed yet. -/
def Page.ofFile (serial va : Nat) (writable : Bool) (source : Source) : Page :=
  { serial, va, writable, backing := .uninit .file source }

/-- The changes that add `count` pages of a file of `length` bytes from `va` on, each with the next part
of the file from `offset` on and chained to the next page. -/
inductive LaidOut (s file length : Nat) (writable : Bool) : Nat → Nat → Nat → List Change → Prop
  | nil (va offset : Nat) : LaidOut s file length writable va offset 0 []
  | cons {va offset count : Nat} {cs : List Change} (serial : Nat) (hva : va < kernelBase)
    (h : LaidOut s file length writable (va + pageSize) (offset + pageSize) count cs) :
    LaidOut s file length writable va offset (count + 1)
      (.insert s (.ofFile serial va writable
        (mappingSource file offset length (decide (0 < count)))) :: cs)

theorem LaidOut.mapsIn {s file length va offset count : Nat} {writable : Bool} {cs : List Change}
    (h : LaidOut s file length writable va offset count cs) : MapsIn s file cs := by
  induction h with
  | nil => exact .nil
  | cons serial hva _ ih => exact ih.cons hva rfl rfl

theorem LaidOut.atUser {s file length va offset count : Nat} {writable : Bool} {cs : List Change}
    (h : LaidOut s file length writable va offset count cs) {j : Nat} (hj : j < count) :
    va + j * pageSize < kernelBase := by
  induction h generalizing j with
  | nil => cases hj
  | @cons va offset count cs serial hva _ ih =>
    cases j with
    | zero => rwa [Nat.zero_mul, Nat.add_zero]
    | succ j =>
      have := ih (Nat.lt_of_succ_lt_succ hj)
      rwa [Nat.add_assoc, Nat.add_comm pageSize, ← Nat.succ_mul] at this

theorem isFree_iff {space : Space} {start stop : Nat} : space.isFree start stop = true ↔
    ∀ a, start ≤ a → a < stop → space.pages[a]? = none := by
  simp only [Space.isFree, List.all_eq_true, Std.ExtTreeMap.mem_keys, Bool.not_eq_true',
    Bool.and_eq_false_iff, decide_eq_false_iff_not, ← Std.ExtTreeMap.contains_iff_mem,
    Std.ExtTreeMap.contains_eq_isSome_getElem?]
  constructor
  · intro h a hstart hstop
    by_contra hne
    rcases h a (Option.isSome_iff_ne_none.mpr hne) with h | h
    · exact h hstart
    · exact h hstop
  · intro h a hsome
    by_contra hin
    rw [not_or, not_not, not_not] at hin
    rw [h a hin.1 hin.2] at hsome
    cases hsome

/-- Where an accepted mapping ends: a whole number of pages further on, in user memory. -/
theorem mappingEnd?_eq_some {addr length stop : Nat} (h : mappingEnd? addr length = some stop) :
    stop = addr + (stop - addr) / pageSize * pageSize ∧ stop ≤ kernelBase ∧
      (stop - addr) / pageSize = mappedPages length := by
  simp only [mappingEnd?, wordAdd?, Option.bind_eq_bind, Option.bind_eq_some_iff,
    Option.ite_none_right_eq_some, Option.some.injEq] at h
  obtain ⟨last, ⟨-, rfl⟩, last, ⟨-, rfl⟩, hle, rfl⟩ := h
  simp only [pageDown, pageSize, mappedPages] at hle ⊢
  omega

/-- What an accepted request satisfies. -/
theorem mappingObjection?_eq_none {space : Space} {addr length fileLength offset stop : Nat}
    (h : mappingObjection? space addr length fileLength offset = none)
    (hstop : mappingEnd? addr length = some stop) :
    addr % pageSize = 0 ∧ offset % pageSize = 0 ∧
      ∀ a, addr ≤ a → a < stop → space.pages[a]? = none := by
  simp only [mappingObjection?, hstop, pageOffset] at h
  split at h
  · cases h
  · rename_i hok
    split at h
    · cases h
    · split at h
      · cases h
      · rename_i hfree
        refine ⟨?_, ?_, isFree_iff.mp (by simpa using hfree)⟩
        · by_contra hne
          exact hok (.inr (.inl hne))
        · by_contra hne
          exact hok (.inr (.inr (.inl hne)))

namespace Memory
variable {π : Type} {v w : Memory π} {s va count : Nat}

/-- From `va` on there are `count` pages of files, each but the last chained to the next. -/
def Chain (v : Memory π) (s va count : Nat) : Prop :=
  ∀ j < count, ∃ p, v.pages s (va + j * pageSize) = some p ∧ p.isFile = true ∧
    (j + 1 < count → p.source.chained = true)

theorem Chain.head (h : v.Chain s va count) (hpos : 0 < count) :
    ∃ p, v.pages s va = some p ∧ p.isFile = true ∧ (1 < count → p.source.chained = true) := by
  have := h 0 hpos
  rwa [Nat.zero_mul, Nat.add_zero, Nat.zero_add] at this

theorem Chain.tail (h : v.Chain s va count) (hw : w.pages = setAt v.pages s va none) :
    w.Chain s (va + pageSize) (count - 1) := by
  intro j hj
  have hat : va + pageSize + j * pageSize = va + (j + 1) * pageSize := by
    simp only [pageSize]
    omega
  obtain ⟨p, hp, hfile, hchained⟩ := h (j + 1) (by omega)
  refine ⟨p, ?_, hfile, fun hlt => hchained (by omega)⟩
  rw [hw, setAt_of_ne (by simp only [pageSize]; omega), hat, hp]

/-- Every page of a file is a chain. -/
theorem Chain.single {p : Page} (hp : v.pages s va = some p) (hfile : p.isFile = true) :
    v.Chain s va 1 := by
  intro j hj
  obtain rfl : j = 0 := by omega
  exact ⟨p, by simpa using hp, hfile, fun hlt => absurd hlt (Nat.lt_irrefl 1)⟩

/-- A chain goes on from a chained page. -/
theorem Chain.cons {p : Page} (hp : v.pages s va = some p) (hfile : p.isFile = true)
    (hnext : p.source.chained = true) (hw : w.pages = setAt v.pages s va none)
    (h : w.Chain s (va + pageSize) count) : v.Chain s va (count + 1) := by
  rintro (_ | j) hj
  · exact ⟨p, by simpa using hp, hfile, fun _ => hnext⟩
  · obtain ⟨q, hq, hqfile, hchained⟩ := h j (by omega)
    refine ⟨q, ?_, hqfile, fun hlt => hchained (by omega)⟩
    rw [hw, setAt_of_ne (by simp only [pageSize]; omega)] at hq
    rw [show va + (j + 1) * pageSize = va + pageSize + j * pageSize by
      simp only [pageSize]
      omega]
    exact hq

/-- The first `k` pages of the chain from `va` on are gone from space `s`, and no others. They are the
whole chain, if it has at most `limit` pages. -/
structure Unchains (v : Memory π) (s va limit k : Nat) (w : Memory π) : Prop where
  chain : v.Chain s va k
  longest : ∀ j ≤ limit, v.Chain s va j → j ≤ k
  pages : ∀ t a, w.pages t a =
    if t = s ∧ ∃ j < k, a = va + j * pageSize then none else v.pages t a

namespace Unchains
variable {limit k : Nat} {u : Memory π} {p : Page}

theorem nil (h : ∀ j ≤ limit, v.Chain s va j → j ≤ 0) : v.Unchains s va limit 0 v where
  chain j hj := absurd hj (Nat.not_lt_zero j)
  longest := h
  pages _ _ := (if_neg fun ⟨_, _, hj, _⟩ => absurd hj (Nat.not_lt_zero _)).symm

/-- A page that is not chained is the last one. -/
theorem last (hp : v.pages s va = some p) (hfile : p.isFile = true) (hlast : p.source.chained = false)
    (hw : w.pages = setAt v.pages s va none) : v.Unchains s va (limit + 1) 1 w where
  chain := .single hp hfile
  longest j _ hchain := by
    by_contra hlt
    obtain ⟨q, hq, -, hchained⟩ := hchain.head (by omega)
    obtain rfl := Option.some.inj (hp.symm.trans hq)
    exact absurd (hlast.symm.trans (hchained (by omega))) Bool.false_ne_true
  pages t a := by
    rw [hw, setAt_apply]
    simp

theorem cons (hp : v.pages s va = some p) (hfile : p.isFile = true) (hnext : p.source.chained = true)
    (hu : u.pages = setAt v.pages s va none) (h : u.Unchains s (va + pageSize) limit k w) :
    v.Unchains s va (limit + 1) (k + 1) w where
  chain := h.chain.cons hp hfile hnext hu
  longest j hj hchain := by
    have := h.longest (j - 1) (by omega) (hchain.tail hu)
    omega
  pages t a := by
    have hat : (∃ j < k, a = va + pageSize + j * pageSize) ↔ ∃ j < k, a = va + (j + 1) * pageSize := by
      simp only [Nat.succ_mul, Nat.add_assoc, Nat.add_comm pageSize]
    simp only [h.pages, hu, setAt_apply, hat, Nat.exists_lt_succ_left, Nat.zero_mul, Nat.add_zero]
    by_cases ht : t = s <;> by_cases ha : a = va <;> simp [ht, ha]

end Unchains

variable [ReplacementPolicy π]

/-- Pages of files go from space `s`, among them all of any chain from `va` on. -/
def Unmaps (v : Memory π) (s va : Nat) (w : Memory π) : Prop :=
  ∃ pages : List Page, (∀ p ∈ pages, p.isFile = true) ∧ Quiet (pages.map (.remove s)) v w ∧
    ∀ count, v.Chain s va count → ∀ j < count, w.pages s (va + j * pageSize) = none

end Memory

variable {π : Type} [ReplacementPolicy π] {m : Machine π} {s file va : Nat}

/-- Where nothing went there was no page of a file to start with. -/
theorem Memory.Unmaps.not_file {v w : Memory π} {p : Page} (h : v.Unmaps s va w)
    (hsame : w.pages = v.pages) (hp : v.pages s va = some p) : p.isFile = false := by
  by_contra hfile
  obtain ⟨-, -, -, hgone⟩ := h
  have hnone := hgone 1 (.single hp (by simpa using hfile)) 0 Nat.one_pos
  rw [hsame, Nat.zero_mul, Nat.add_zero, hp] at hnone
  cases hnone

/-- The first page of a free range is mapped, and the others are still free when it has been. -/
theorem ends_mapPages_succ {writable : Bool} {length offset count : Nat} {Q : PUnit → Machine π → Prop}
    (hs : s < m.spaces.size) (hva : va % pageSize = 0)
    (hfree : ∀ a, va ≤ a → a < va + (count + 1) * pageSize → m.memory.pages s a = none)
    (hrest : ∀ m₁ : Machine π, m.memory.Alters (.insert s (.ofFile m.memory.nextSerial va writable
        (mappingSource file offset length (decide (0 < count))))) m₁.memory →
      s < m₁.spaces.size → (va + pageSize) % pageSize = 0 →
      (∀ a, va + pageSize ≤ a → a < va + pageSize + count * pageSize → m₁.memory.pages s a = none) →
      Run.Ends False (mapPages s writable file length (va + pageSize) (offset + pageSize) count) m₁ Q) :
    Run.Ends False (mapPages s writable file length va offset (count + 1)) m Q := by
  simp only [pageSize] at hva hfree
  simp only [mapPages, Run.ends_bind, Run.ends_modify, Run.ends_ite]
  refine (insertPage_ends (v := m.memory) (.uninit .file _)
    (Machine.lt_spaces (Machine.memory_retainSource _) hs) hva (Machine.memory_retainSource _)).imp ?_
  rintro answer m₁ (⟨-, hne, -⟩ | ⟨rfl, ha⟩)
  · exact absurd (hfree va (Nat.le_refl _) (by omega)) hne
  refine ⟨fun _ => ?_, fun hnot => absurd rfl hnot⟩
  obtain ⟨hm₁, -⟩ := ha.of_insert
  refine hrest m₁ ha (Machine.lt_spaces rfl (by rw [hm₁]; exact hs)) (by simp only [pageSize]; omega)
    fun a hle hlt => ?_
  simp only [pageSize] at hle hlt
  rw [hm₁]
  exact (setAt_of_ne (by simp only; omega)).trans (hfree a (by omega) (by omega))

theorem mapPages_ends {writable : Bool} {length offset count : Nat} (hs : s < m.spaces.size)
    (hva : va % pageSize = 0) (huser : va + count * pageSize ≤ kernelBase)
    (hfree : ∀ a, va ≤ a → a < va + count * pageSize → m.memory.pages s a = none) :
    Run.Ends False (mapPages s writable file length va offset count) m fun _ after =>
      ∃ cs, LaidOut s file length writable va offset count cs ∧
        Memory.Quiet cs m.memory after.memory := by
  induction count generalizing m va offset with
  | zero => exact ⟨[], .nil .., .refl _⟩
  | succ count ih =>
    refine ends_mapPages_succ hs hva hfree fun m₁ ha hs₁ hva₁ hfree₁ => ?_
    have hinsert : Memory.Quiet _ m.memory m₁.memory := .of_change ha trivial
    simp only [pageSize] at huser
    refine (ih hs₁ hva₁ (by simp only [pageSize]; omega) hfree₁).imp ?_
    rintro _ after ⟨cs, hcs, hquiet⟩
    exact ⟨_, .cons _ (Nat.lt_of_lt_of_le (by omega) huser) hcs, hinsert.trans hquiet⟩

/-- A request is accepted, or it changes nothing. -/
theorem mapFile_ends (hs : s < m.spaces.size) (addr length : Nat) (writable : Bool) (offset : Nat) :
    Attempt.Ends False (mapFile s addr length writable file offset) m
      (fun answer after => answer = addr ∧ addr % pageSize = 0 ∧ offset % pageSize = 0 ∧
        ∃ cs, LaidOut s file (m.files.length file) writable addr offset (mappedPages length) cs ∧
          Memory.Quiet cs m.memory after.memory)
      fun _ after => after.memory = m.memory := by
  simp only [mapFile, Attempt.ends_bind, Attempt.ends_get]
  split
  · rename_i stop hobjection hend
    obtain ⟨hstop, huser, hcount⟩ := mappingEnd?_eq_some hend
    obtain ⟨hva, hoffset, hfree⟩ := mappingObjection?_eq_none hobjection hend
    simp only [Attempt.ends_bind, Attempt.ends_lift, Attempt.ends_modify, Attempt.ends_pure]
    refine (mapPages_ends hs hva (hstop ▸ huser) (hstop ▸ hfree)).imp ?_
    intro _ after hmapped
    exact ⟨trivial, hva, hoffset, hcount ▸ hmapped⟩
  · simp only [Attempt.ends_bind, Attempt.ends_modify, Attempt.ends_throw]
    cases mappingObjection? (m.space s) addr length (m.files.length file) offset <;> rfl

omit [ReplacementPolicy π] in
/-- A table has as many pages as any chain in it. -/
theorem Memory.Chain.le_size {count : Nat} (h : m.memory.Chain s va count) :
    count ≤ (m.space s).pages.size := by
  have hnodup : ((List.range count).map fun j => va + j * pageSize).Nodup := by
    refine List.Nodup.map (fun j k heq => ?_) List.nodup_range
    simp only [pageSize] at heq
    omega
  have hsub : (List.range count).map (fun j => va + j * pageSize) ⊆ (m.space s).pages.keys := by
    intro a ha
    obtain ⟨j, hj, rfl⟩ := List.mem_map.mp ha
    obtain ⟨p, hp, -⟩ := h j (List.mem_range.mp hj)
    rw [Std.ExtTreeMap.mem_keys, ← Std.ExtTreeMap.contains_iff_mem,
      Std.ExtTreeMap.contains_eq_isSome_getElem?]
    exact Option.isSome_iff_exists.mpr ⟨p, hp⟩
  have hle := (List.subperm_of_subset hnodup hsub).length_le
  rwa [List.length_map, List.length_range, Std.ExtTreeMap.length_keys] at hle

/-- A chain is followed until it ends. Only in the last page of all addresses is there no going on. -/
theorem unmapChain_ends {stop : Prop} {count limit : Nat} (h : m.memory.Valid)
    (hstop : ∀ a p, m.memory.pages s a = some p → p.isFile = true → wordLimit ≤ a + pageSize → stop) :
    Run.Ends stop (unmapChain s va count limit) m fun total after =>
      ∃ pages : List Page, (∀ p ∈ pages, p.isFile = true) ∧
        Memory.Quiet (pages.map (.remove s)) m.memory after.memory ∧
        ∃ k, total = count + k ∧ m.memory.Unchains s (pageDown va) limit k after.memory := by
  induction limit generalizing m va count with
  | zero => exact ⟨[], List.forall_mem_nil _, .refl _, 0, rfl, .nil fun k hk _ => hk⟩
  | succ limit ih =>
    have hshort (hk : ∀ k, m.memory.Chain s (pageDown va) k → k ≤ 0) :
        ∃ pages : List Page, (∀ p ∈ pages, p.isFile = true) ∧
          Memory.Quiet (pages.map (.remove s)) m.memory m.memory ∧
          ∃ k, count = count + k ∧ m.memory.Unchains s (pageDown va) (limit + 1) k m.memory :=
      ⟨[], List.forall_mem_nil _, .refl _, 0, rfl, .nil fun k _ => hk k⟩
    simp only [unmapChain, Run.ends_bind, Run.ends_get]
    cases hp : m.page? s va with
    | none =>
      rw [Machine.page?_eq] at hp
      refine hshort fun k hchain => Nat.le_of_not_lt fun hpos => ?_
      obtain ⟨p, hp', -⟩ := hchain.head hpos
      rw [hp] at hp'
      cases hp'
    | some page =>
      rw [Machine.page?_eq] at hp
      simp only [Run.ends_bind, Run.ends_ite, Run.ends_pure, Run.ends_abort]
      have hother (hnot : ¬page.isFile = true) (k : Nat) (hchain : m.memory.Chain s (pageDown va) k) :
          k ≤ 0 := by
        refine Nat.le_of_not_lt fun hpos => ?_
        obtain ⟨p, hp', hfile, -⟩ := hchain.head hpos
        rw [hp, Option.some.injEq] at hp'
        exact hnot (hp' ▸ hfile)
      refine ⟨fun hfile => ?_, fun hnot => hshort (hother hnot)⟩
      refine ((removePage_ends h va).imp ?_).weaken False.elim
      rintro answer m₁ (⟨-, hnone, -⟩ | ⟨q, -, hq, hremove, hpages⟩)
      · rw [hnone] at hp
        cases hp
      obtain rfl := Option.some.inj (hp.symm.trans hq)
      have hone : ∀ p ∈ [page], p.isFile = true := by simpa using hfile
      refine ⟨fun hnext => ⟨fun _ => ?_, fun htop => ?_⟩, fun hlast => ⟨[page], hone, hremove, 1, rfl, ?_⟩⟩
      · refine (ih (h.course hremove) fun a p hpa => ?_).imp ?_
        · rw [hpages, setAt_apply] at hpa
          split at hpa
          · cases hpa
          · exact hstop a p hpa
        · rintro _ after ⟨pages, hfiles, hquiet, k, rfl, hrest⟩
          refine ⟨page :: pages, List.forall_mem_cons.mpr ⟨hfile, hfiles⟩, hremove.trans hquiet, k + 1,
            by omega, ?_⟩
          have hdown : pageDown (va + pageSize) = pageDown va + pageSize := by
            simp only [pageDown, pageSize]
            omega
          rw [hdown] at hrest
          exact hrest.cons hp hfile hnext hpages
      · refine hstop _ _ hp hfile ?_
        simp only [pageDown, pageSize, wordLimit] at htop ⊢
        omega
      · exact .last hp hfile (by simpa using hlast) hpages

/-- Only pages of files are unmapped, and a chain from `addr` on as a whole. -/
theorem unmapFile_ends {stop : Prop} (h : m.memory.Valid)
    (hstop : ∀ a p, m.memory.pages s a = some p → p.isFile = true → wordLimit ≤ a + pageSize → stop)
    (addr : Nat) :
    Attempt.Ends stop (unmapFile s addr) m
      (fun _ after => m.memory.Unmaps s (pageDown addr) after.memory ∧
        ∃ k, 0 < k ∧ m.memory.Unchains s (pageDown addr) (m.space s).pages.size k after.memory)
      fun _ after => m.memory.Unmaps s (pageDown addr) after.memory ∧
        after.memory.pages = m.memory.pages := by
  simp only [unmapFile, Attempt.ends_bind, Attempt.ends_get, Attempt.ends_lift, Attempt.ends_ite,
    Attempt.ends_modify, Attempt.ends_throw]
  refine (unmapChain_ends h hstop).imp ?_
  rintro count after ⟨pages, hfiles, hquiet, k, hk, hunchains⟩
  have hend : m.memory.Unmaps s (pageDown addr) after.memory := by
    refine ⟨pages, hfiles, hquiet, fun j hchain i hi => ?_⟩
    have hlt : i < k := Nat.lt_of_lt_of_le hi (hunchains.longest j hchain.le_size hchain)
    rw [hunchains.pages, if_pos ⟨rfl, i, hlt, rfl⟩]
  refine ⟨fun hzero => ⟨hend, ?_⟩, fun hne => ⟨hend, k, by omega, hunchains⟩⟩
  obtain rfl : k = 0 := by omega
  funext t a
  show after.memory.pages t a = _
  rw [hunchains.pages, if_neg]
  rintro ⟨-, j, hj, -⟩
  exact absurd hj (Nat.not_lt_zero j)

end DemandPaging
