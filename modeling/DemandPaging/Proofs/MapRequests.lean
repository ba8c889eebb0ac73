import DemandPaging.Proofs.SystemCalls

/-! # Requests to map a file

Which requests `mapFile` accepts is said without words that wrap around and sums that overflow, and for
a table of any page-aligned pages. An accepted request adds all of its pages, each with a handle of its
own, and a refused one nothing.
-/
namespace DemandPaging

/-- The bytes of the pages that `length` bytes take up. -/
def wholePages (length : Nat) : Nat := mappedPages length * pageSize

/-- What is asked when `length` bytes of a file of `fileLength` bytes, from `offset` on, are to be mapped
at `addr` in a space, if it makes sense: the sums here are those of numbers, not of words. -/
structure Mappable (space : Space) (addr length fileLength offset : Nat) : Prop where
  nonzero : addr ≠ 0
  aligned : pageSize ∣ addr
  offset_aligned : pageSize ∣ offset
  length_pos : 0 < length
  file_pos : 0 < fileLength
  below_kernel : addr + wholePages length ≤ kernelBase
  free : ∀ a p, space.pages[a]? = some p → a + pageSize ≤ addr ∨ addr + wholePages length ≤ a
  offset_fits : offset + wholePages length < 2 ^ 64

section Requests
variable {space : Space} {addr length fileLength offset stop : Nat}

/-- A mapping ends where it should, unless that is above user memory. No length is too long to say so. -/
theorem mappingEnd?_iff : mappingEnd? addr length = some stop ↔
    addr + wholePages length ≤ kernelBase ∧ stop = addr + wholePages length := by
  have hround : pageDown (length + (pageSize - 1)) = wholePages length := by
    simp only [pageDown, wholePages, mappedPages, pageSize]
    omega
  have hle : length ≤ wholePages length := by
    simp only [wholePages, mappedPages, pageSize]
    omega
  simp only [mappingEnd?, wordAdd?, Option.bind_eq_bind]
  by_cases hlength : length + (pageSize - 1) < wordLimit
  · rw [if_pos hlength, Option.bind_some, hround]
    by_cases hsum : addr + wholePages length < wordLimit
    · rw [if_pos hsum, Option.bind_some]
      split
      · rename_i hstop
        rw [Option.some.injEq, eq_comm (b := stop)]
        exact ⟨fun h => ⟨hstop, h⟩, fun h => h.2⟩
      · rename_i hstop
        exact ⟨(by simp), fun h => absurd h.1 hstop⟩
    · rw [if_neg hsum, Option.bind_none]
      refine ⟨(by simp), fun h => absurd h.1 ?_⟩
      simp only [wordLimit, kernelBase] at hsum ⊢
      omega
  · rw [if_neg hlength, Option.bind_none]
    refine ⟨(by simp), fun h => absurd h.1 ?_⟩
    simp only [wordLimit, kernelBase, pageSize] at hlength ⊢
    omega

/-- The table is never asked about a range whose ends are in the wrong order. -/
theorem rangeIsFree?_of_end (h : mappingEnd? addr length = some stop) :
    space.rangeIsFree? addr stop = some (space.isFree addr stop) := by
  obtain ⟨-, rfl⟩ := mappingEnd?_iff.mp h
  rw [Space.rangeIsFree?, if_pos (Nat.le_add_right ..)]

/-- A page-aligned page is out of a range of pages if it starts outside. -/
theorem isFree_iff_apart (length : Nat) (haligned : ∀ a p, space.pages[a]? = some p → a % pageSize = 0)
    (haddr : pageSize ∣ addr) : space.isFree addr (addr + wholePages length) = true ↔
      ∀ a p, space.pages[a]? = some p → a + pageSize ≤ addr ∨ addr + wholePages length ≤ a := by
  rw [isFree_iff]
  constructor
  · intro h a p hp
    have ha := haligned a p hp
    by_contra hin
    rw [not_or, Nat.not_le, Nat.not_le] at hin
    have hstart : addr ≤ a := by
      obtain ⟨k, rfl⟩ := haddr
      simp only [pageSize] at ha hin ⊢
      omega
    rw [h a hstart hin.2] at hp
    cases hp
  · intro h a hstart hend
    by_contra hne
    obtain ⟨p, hp⟩ := Option.ne_none_iff_exists'.mp hne
    have := h a p hp
    simp only [pageSize] at this
    omega

/-- No objection is made exactly to what makes sense. -/
theorem mappingObjection?_iff (haligned : ∀ a p, space.pages[a]? = some p → a % pageSize = 0) :
    mappingObjection? space addr length fileLength offset = none ↔
      Mappable space addr length fileLength offset := by
  have hword : wordLimit = 2 ^ 64 := rfl
  unfold mappingObjection?
  split
  · rename_i hbad
    refine ⟨(by simp), fun h => ?_⟩
    rcases hbad with h0 | haddr | hoffset | hlength
    · exact absurd h0 h.nonzero
    · exact absurd (Nat.mod_eq_zero_of_dvd h.aligned) haddr
    · exact absurd (Nat.mod_eq_zero_of_dvd h.offset_aligned) hoffset
    · exact absurd hlength (Nat.ne_of_gt h.length_pos)
  rename_i hok
  simp only [not_or, not_not, pageOffset] at hok
  obtain ⟨hnonzero, haddr, hoffset, hlength⟩ := hok
  have haddr := Nat.dvd_of_mod_eq_zero haddr
  have hoffset := Nat.dvd_of_mod_eq_zero hoffset
  split
  · rename_i hempty
    exact ⟨(by simp), fun h => absurd hempty (Nat.ne_of_gt h.file_pos)⟩
  rename_i hfile
  cases hend : mappingEnd? addr length with
  | none =>
    refine ⟨(by simp), fun h => ?_⟩
    rw [mappingEnd?_iff.mpr ⟨h.below_kernel, rfl⟩] at hend
    cases hend
  | some stop =>
    obtain ⟨hbelow, rfl⟩ := mappingEnd?_iff.mp hend
    have hapart := isFree_iff_apart length haligned haddr
    dsimp only
    split
    · rename_i htaken
      refine ⟨(by simp), fun h => ?_⟩
      rw [hapart.mpr h.free] at htaken
      cases htaken
    rename_i hfree
    have hfree := hapart.mp (by simpa using hfree)
    rw [Nat.add_sub_cancel_left]
    split
    · rename_i hover
      exact ⟨(by simp), fun h => absurd h.offset_fits (Nat.not_lt_of_le (hword ▸ hover))⟩
    · rename_i hfits
      refine ⟨fun _ => ?_, fun _ => rfl⟩
      exact ⟨hnonzero, haddr, hoffset, Nat.pos_of_ne_zero hlength, Nat.pos_of_ne_zero hfile, hbelow, hfree,
        hword ▸ Nat.lt_of_not_le hfits⟩

end Requests

/-- An untouched page of a mapping: the one at `va`, which shows a file of `fileLength` bytes from `start`
on, as many bytes as there are and fit, and is chained if another page follows. -/
structure Page.Shows (p : Page) (va : Nat) (writable : Bool) (file fileLength start : Nat) (more : Prop) :
    Prop where
  va : p.va = va
  writable : p.writable = writable
  frame : p.frame = none
  backing : p.backing = .uninit .file p.source
  file : p.source.file = some file
  offset : p.source.offset = start
  readBytes : p.source.readBytes = min pageSize (fileLength - start)
  zeroBytes : p.source.zeroBytes = pageSize - p.source.readBytes
  chained : p.source.chained = true ↔ more

theorem Page.shows_ofFile (serial va : Nat) (writable : Bool) (file fileLength start : Nat) (more : Prop)
    [Decidable more] : (Page.ofFile serial va writable (mappingSource file start fileLength
      (decide more))).Shows va writable file fileLength start more where
  va := rfl
  writable := rfl
  frame := rfl
  backing := rfl
  file := rfl
  offset := rfl
  readBytes := Nat.min_comm ..
  zeroBytes := rfl
  chained := decide_eq_true_iff

namespace FileStore
variable (files : FileStore) (file f : Nat)

theorem handles?_iterate_retain (count : Nat) : ((retain · file)^[count] files).handles? f =
    (files.handles? f).map fun n => n + if f = file then count else 0 := by
  induction count generalizing files with
  | zero => simp
  | succ count ih =>
    rw [Function.iterate_succ_apply, ih, handles?_retain]
    by_cases hf : f = file
    · simp only [hf, if_true, Option.map_map]
      congr 1
      funext n
      simp only [Function.comp_apply]
      omega
    · simp only [hf, Ne.symm hf, if_false]

theorem contents_iterate_retain (count : Nat) :
    (((retain · file)^[count] files).node f).contents = (files.node f).contents := by
  induction count generalizing files with
  | zero => rfl
  | succ count ih => rw [Function.iterate_succ_apply, ih, contents_retain]

end FileStore

namespace Machine
variable {π : Type}

/-- To space `s` have been added the `count` pages from `addr` on, which show a file from `offset` on,
each with a handle of its own. Nothing else has changed. -/
structure MapsFile (m : Machine π) (s addr count : Nat) (writable : Bool) (file offset : Nat)
    (after : Machine π) : Prop where
  added : ∀ i < count, ∃ p, (after.space s).pages[addr + pageSize * i]? = some p ∧
    p.Shows (addr + pageSize * i) writable file (m.files.length file) (offset + pageSize * i)
      (i + 1 < count)
  kept : ∀ t a, (t = s → ∀ i < count, a ≠ addr + pageSize * i) →
    (after.space t).pages[a]? = (m.space t).pages[a]?
  handles : ∀ f, after.files.handles? f =
    (m.files.handles? f).map fun n => n + if f = file then count else 0
  contents : ∀ f, (after.files.node f).contents = (m.files.node f).contents
  mappings : ∀ t va, (after.space t).directory.entry? va = (m.space t).directory.entry? va
  frames : ∀ n, after.frames.frame n = m.frames.frame n
  swap : after.swap = m.swap

theorem mapsFile_of_maps {m after : Machine π} {s addr count file offset : Nat} {writable : Bool}
    (h : m.memory.Maps after.memory s file (m.files.length file) writable addr offset count) :
    m.MapsFile s addr count writable file offset after := by
  have hrest := h.rest
  have hfiles : after.memory.files = (FileStore.retain · file)^[count] m.files := by rw [hrest]; rfl
  have hframes : after.memory.frames = m.memory.frames := by rw [hrest]
  have hentries : after.memory.entries = m.memory.entries := by rw [hrest]
  refine ⟨fun i hi => ?_, fun t a hout => h.kept t a fun ht i hi => ?_, fun f => ?_, fun f => ?_,
    fun t va => ?_, congrFun hframes, show after.memory.swap = _ by rw [hrest]; rfl⟩
  · have hadded := h.added i hi
    rw [Nat.mul_comm i] at hadded
    exact ⟨_, hadded, Page.shows_ofFile ..⟩
  · rw [Nat.mul_comm]
    exact hout ht i hi
  · exact (congrArg (·.handles? f) hfiles).trans (FileStore.handles?_iterate_retain ..)
  · exact (congrArg (fun files => (files.node f).contents) hfiles).trans
      (FileStore.contents_iterate_retain ..)
  · rw [entry?_eq, entry?_eq, hentries]

end Machine

variable {π : Type} [ReplacementPolicy π] {m : Machine π} {s : Nat}

/-- In whatever table of page-aligned pages a file is to be mapped, the request is answered. It is
accepted exactly if it makes sense, and then all of its pages are added and nothing else changes.
Otherwise nothing changes at all. -/
theorem mapping_requests (hs : s < m.spaces.size)
    (haligned : ∀ a p, (m.space s).pages[a]? = some p → a % pageSize = 0) (addr length : Nat)
    (writable : Bool) (file offset : Nat) :
    ∃ answer after, mapFile s addr length writable file offset m = .ok answer after ∧
      (answer = .ok addr ↔ Mappable (m.space s) addr length (m.files.length file) offset) ∧
      (answer = .ok addr ∧ m.MapsFile s addr (mappedPages length) writable file offset after ∨
        answer = .error .invalidMapping ∧ m.Untouched after) ∧
      ∀ stop, mappingEnd? addr length = some stop →
        (m.space s).rangeIsFree? addr stop = some ((m.space s).isFree addr stop) := by
  have hiff : mappingObjection? (m.space s) addr length (m.files.length file) offset = none ↔
      Mappable (m.space s) addr length (m.files.length file) offset := mappingObjection?_iff haligned
  have hdecides : Attempt.Ends True (mapFile s addr length writable file offset) m
      (fun _ _ => Mappable (m.space s) addr length (m.files.length file) offset)
      fun _ _ => ¬Mappable (m.space s) addr length (m.files.length file) offset :=
    (mapFile_decides addr length writable offset).imp (fun _ _ => hiff.mp) fun _ _ => mt hiff.mpr
  have hends := (mapFile_maps hs addr length writable offset).and hdecides
  unfold Attempt.Ends at hends
  split at hends
  · rename_i answer after hok
    obtain ⟨⟨rfl, -, -, -, hmaps⟩, hmappable⟩ := hends
    exact ⟨_, after, hok, by simp [hmappable], .inl ⟨rfl, Machine.mapsFile_of_maps hmaps⟩,
      fun _ => rangeIsFree?_of_end⟩
  · rename_i e after herror
    obtain ⟨⟨rfl, huntouched⟩, hnot⟩ := hends
    exact ⟨_, after, herror, by simp [hnot], .inr ⟨rfl, huntouched⟩, fun _ => rangeIsFree?_of_end⟩
  · exact hends.elim

/-- Two pages fit below a page that is there, and three do not. -/
theorem mapping_requests_below_page : ∃ calls, ∃ m after after' : Machine Fifo,
    Runs Operation.Allowed (.start 1 { name := "swap", kind := .swap, size := 0, disk := .zeroed 0 } {}
      { nodes := #[{ contents := [1, 2, 3] }] }) calls m ∧
    0 < m.spaces.size ∧ (∀ a p, (m.space 0).pages[a]? = some p → a % pageSize = 0) ∧
    (m.space 0).pages[73728]?.isSome ∧
    mapFile 0 65536 4097 true 0 0 m = .ok (.ok 65536) after ∧ m.MapsFile 0 65536 2 true 0 0 after ∧
    mapFile 0 65536 8193 true 0 0 m = .ok (.error .invalidMapping) after' ∧ m.Untouched after' := by
  obtain ⟨calls, m, hrun, hcheck⟩ := Runs.of_afterAll Operation.Allowed
    (m := .start 1 { name := "swap", kind := .swap, size := 0, disk := .zeroed 0 } ({} : Fifo)
      { nodes := #[{ contents := [1, 2, 3] }] })
    [.createProcess 1, .insert 0 73728 true (.anonymous .zeroed none)]
    (fun m => decide (m.spaces.size = 1 ∧ (m.space 0).pages[73728]?.isSome) &&
      match mapFile 0 65536 4097 true 0 0 m, mapFile 0 65536 8193 true 0 0 m with
      | .ok (.ok addr) _, .ok (.error _) _ => decide (addr = 65536)
      | _, _ => false) (by decide +kernel)
  obtain ⟨hbefore, hanswers⟩ := Bool.and_eq_true_iff.mp hcheck
  obtain ⟨hsize, hthere⟩ := of_decide_eq_true hbefore
  have hs : 0 < m.spaces.size := by omega
  have hvalid := hrun.valid (Machine.valid_start ..) fun _ _ hop => hop
  have haligned : ∀ a p, (m.space 0).pages[a]? = some p → a % pageSize = 0 := by
    intro a p hp
    obtain ⟨rfl, hva, -⟩ := hvalid.sound.kept (s := 0) hp
    exact hva
  obtain ⟨answer, after, hanswer, -, hmapped, -⟩ :=
    mapping_requests hs haligned 65536 4097 true 0 0
  obtain ⟨answer', after', hanswer', -, hrefused, -⟩ :=
    mapping_requests hs haligned 65536 8193 true 0 0
  rw [hanswer, hanswer'] at hanswers
  rcases hmapped with ⟨rfl, hmapped⟩ | ⟨rfl, -⟩
  swap
  · cases hanswers
  rcases hrefused with ⟨rfl, -⟩ | ⟨rfl, huntouched⟩
  · cases hanswers
  exact ⟨calls, m, after, after', hrun, hs, haligned, hthere, hanswer, hmapped, hanswer', huntouched⟩

end DemandPaging
