import DemandPaging.Proofs.Serials
import DemandPaging.Proofs.Sharing

/-! # Windows onto files

The pages of a mapping show a part of a file in user memory. `put` is what a write to user memory does
to the file as it is seen there. Memory is a `Faithful` window as long as each page holds its part of
what is seen, and the file has the rest.
-/
namespace DemandPaging
open Memory (Change Step)

/-- `pages` pages from `addr` on in a space, which show a file of `length` bytes from `offset` on. -/
structure Window where
  space : Nat
  addr : Nat
  pages : Nat
  file : Nat
  offset : Nat
  length : Nat

namespace Window

/-- Where page `k` is. -/
def place (W : Window) (k : Nat) : Nat := W.addr + k * pageSize

/-- Where page `k` has its bytes from. -/
def source (W : Window) (k : Nat) : Source :=
  mappingSource W.file (W.offset + k * pageSize) W.length (decide (k + 1 < W.pages))

/-- The bytes of the file that page `k` shows. -/
def part (W : Window) (bytes : List UInt8) (k : Nat) : List UInt8 :=
  slice bytes (W.offset + k * pageSize) (W.source k).readBytes

/-- Byte `i` of the file is seen at address `a`. -/
def Shows (W : Window) (i a : Nat) : Prop :=
  ∃ j < W.pages * pageSize, i = W.offset + j ∧ a = W.addr + j

/-- The file with `new` in the place of what is seen from address `start` on. -/
def put (W : Window) (bytes : List UInt8) (start : Nat) (new : List UInt8) : List UInt8 :=
  bytes.mapIdx fun i b =>
    if W.offset ≤ i ∧ i < W.offset + W.pages * pageSize ∧ start ≤ W.addr + (i - W.offset) then
      new.getD (W.addr + (i - W.offset) - start) b
    else b

variable {W : Window} {bytes new : List UInt8} {start i j k : Nat}

theorem length_put : (W.put bytes start new).length = bytes.length := List.length_mapIdx

theorem getElem?_put_of_shows (h : W.Shows i (start + j)) (hj : j < new.length)
    (hi : i < bytes.length) : (W.put bytes start new)[i]? = new[j]? := by
  obtain ⟨m, hm, rfl, ha⟩ := h
  have hat : W.addr + (W.offset + m - W.offset) - start = j := by omega
  rw [put, List.getElem?_mapIdx, List.getElem?_eq_getElem hi, Option.map_some, if_pos (by omega), hat,
    List.getD_eq_getElem?_getD, List.getElem?_eq_getElem hj, Option.getD_some]

theorem getElem?_put_of_not (h : ∀ j < new.length, ¬W.Shows i (start + j)) :
    (W.put bytes start new)[i]? = bytes[i]? := by
  rw [put, List.getElem?_mapIdx]
  cases bytes[i]? with
  | none => rfl
  | some b =>
    rw [Option.map_some]
    split
    · rename_i hin
      have hout : new.length ≤ W.addr + (i - W.offset) - start := by
        by_contra hlt
        exact h _ (Nat.lt_of_not_le hlt) ⟨i - W.offset, by omega, by omega, by omega⟩
      rw [List.getD_eq_getElem?_getD, List.getElem?_eq_none hout, Option.getD_none]
    · rfl

theorem put_nil : W.put bytes start [] = bytes :=
  List.ext_getElem? fun _ => getElem?_put_of_not nofun

theorem put_append (first rest : List UInt8) : W.put bytes start (first ++ rest) =
    W.put (W.put bytes start first) (start + first.length) rest := by
  apply List.ext_getElem?
  intro i
  rcases Nat.lt_or_ge i bytes.length with hi | hi
  · by_cases hshow : ∃ j < (first ++ rest).length, W.Shows i (start + j)
    · obtain ⟨j, hj, hshow⟩ := hshow
      rw [getElem?_put_of_shows hshow hj hi]
      rw [List.length_append] at hj
      rcases Nat.lt_or_ge j first.length with hfirst | hrest
      · rw [List.getElem?_append_left hfirst, getElem?_put_of_not, getElem?_put_of_shows hshow hfirst hi]
        rintro m - ⟨a, -, hia, ha⟩
        obtain ⟨b, -, hib, hb⟩ := hshow
        omega
      · have hshow' : W.Shows i (start + first.length + (j - first.length)) := by
          rwa [Nat.add_assoc, Nat.add_sub_cancel' hrest]
        rw [List.getElem?_append_right hrest,
          getElem?_put_of_shows hshow' (by omega) (by rwa [length_put])]
    · have hnone : ∀ j < (first ++ rest).length, ¬W.Shows i (start + j) := fun j hj hshow' =>
        hshow ⟨j, hj, hshow'⟩
      rw [getElem?_put_of_not hnone, getElem?_put_of_not, getElem?_put_of_not]
      · intro j hj
        exact hnone j (by rw [List.length_append]; omega)
      · intro j hj
        rw [Nat.add_assoc]
        exact hnone _ (by rw [List.length_append]; omega)
  · rw [List.getElem?_eq_none (by rwa [length_put]), List.getElem?_eq_none (by rwa [length_put, length_put])]

theorem offset_source : (W.source k).offset = W.offset + k * pageSize := rfl

theorem readBytes_source : (W.source k).readBytes = min (W.length - (W.offset + k * pageSize)) pageSize :=
  rfl

theorem getElem?_part : (W.part bytes k)[i]? =
    if i < (W.source k).readBytes then bytes[W.offset + k * pageSize + i]? else none := by
  rw [part, slice, List.getElem?_take, List.getElem?_drop]

/-- Where byte `m` of the window is: in which page, and where in its part. -/
theorem getElem?_part_at (bytes : List UInt8) {m : Nat} (hm : m < W.pages * pageSize) (hlt : W.offset + m < W.length) :
    m / pageSize < W.pages ∧ m % pageSize < (W.source (m / pageSize)).readBytes ∧
      (W.part bytes (m / pageSize))[m % pageSize]? = bytes[W.offset + m]? := by
  have hat : W.offset + m / pageSize * pageSize + m % pageSize = W.offset + m := by
    rw [Nat.add_assoc, Nat.div_add_mod']
  have hread : m % pageSize < (W.source (m / pageSize)).readBytes := by
    rw [readBytes_source]
    simp only [pageSize] at hlt ⊢
    omega
  refine ⟨?_, hread, ?_⟩
  · simp only [pageSize] at hm ⊢
    omega
  · rw [getElem?_part, if_pos hread, hat]

theorem part_put_of_ne (haddr : W.addr % pageSize = 0)
    (hlen : new.length ≤ pageSize - pageOffset start) (hne : W.place k ≠ pageDown start) :
    W.part (W.put bytes start new) k = W.part bytes k := by
  apply List.ext_getElem?
  intro i
  rw [getElem?_part, getElem?_part]
  split
  · rename_i hi
    have hle := (W.source k).readBytes_le
    apply getElem?_put_of_not
    rintro j hj ⟨m, -, hm, ha⟩
    have hdown := pageDown_add (Nat.lt_of_lt_of_le hj hlen)
    simp only [place, pageDown, pageSize] at hne hdown haddr hle hm ha
    omega
  · rfl

/-- The page that is written to shows what was written. -/
theorem part_put_of_eq {c : PageBytes} (hk : k < W.pages) (htotal : bytes.length = W.length)
    (hlen : new.length ≤ pageSize - pageOffset start) (heq : W.place k = pageDown start)
    (hc : c.toList.take (W.source k).readBytes = W.part bytes k) :
    (overwrite c (pageOffset start) new).toList.take (W.source k).readBytes =
      W.part (W.put bytes start new) k := by
  have hoff := pageOffset_lt start
  have hdown := pageDown_add_pageOffset start
  have hfit : (new.take (4096 - pageOffset start)).length ≤ c.toList.length - pageOffset start := by
    rw [List.length_take, Vector.length_toList]
    omega
  apply List.ext_getElem?
  intro i
  rw [getElem?_part, List.getElem?_take]
  split
  · rename_i hi
    have hread : (W.source k).readBytes ≤ W.length - (W.offset + k * pageSize) := Nat.min_le_left ..
    have hpage := (W.source k).readBytes_le
    have htake : new.take (4096 - pageOffset start) = new := List.take_of_length_le (by
      simp only [pageSize] at hlen
      exact hlen)
    rw [toList_overwrite, getElem?_splice _ _ _ hfit, htake]
    have hpos : W.offset + k * pageSize + i < bytes.length := by omega
    split
    · rename_i hin
      refine (getElem?_put_of_shows (j := i - pageOffset start) ⟨k * pageSize + i, ?_, ?_, ?_⟩ ?_ hpos).symm
      · simp only [pageSize] at hpage ⊢
        omega
      · omega
      · simp only [place, pageSize] at heq ⊢
        omega
      · omega
    · rename_i hout
      have hold : c.toList[i]? = bytes[W.offset + k * pageSize + i]? := by
        have := congrArg (·[i]?) hc
        rwa [List.getElem?_take, if_pos hi, getElem?_part, if_pos hi] at this
      rw [hold, getElem?_put_of_not]
      rintro j hj ⟨m, -, hm, ha⟩
      simp only [place, pageSize] at heq hm ha hout
      omega
  · rfl

end Window

namespace Memory
variable {π : Type} {v w : Memory π} {f : Nat}

variable [ReplacementPolicy π]

/-- No change reaches the bytes of a file, or how much a transfer of it moves. -/
theorem Alters.files_eq {c : Change} (ha : v.Alters c w) :
    (w.files.node f).contents = (v.files.node f).contents ∧
      w.files.transferLimits f = v.files.transferLimits f := by
  cases ha with
  | write | spawn | drop => exact ⟨rfl, rfl⟩
  | insert => exact ⟨FileStore.contents_retainSource .., FileStore.transferLimits_retainSource _⟩
  | remove => exact ⟨FileStore.contents_releaseSource .., FileStore.transferLimits_releaseSource _⟩
  | copy =>
    rw [files_adopt]
    exact ⟨FileStore.contents_retainSource .., FileStore.transferLimits_retainSource _⟩

theorem Step.length_eq (hs : Step v w) : w.files.length f = v.files.length f := by
  rcases hs.contents_or f with hsame | ⟨t, a, p, n, moved, -, -, -, -, -, hwrite⟩
  · exact congrArg List.length hsame
  · exact FileStore.length_writeAt hwrite

end Memory

namespace Window
variable {π : Type} {v u : Memory π} {W : Window} {count k : Nat} {bytes : List UInt8}

/-- The first `count` pages of the window hold their parts of the file as it is seen, nobody else maps
the file, and the file has the rest. -/
structure Faithful (W : Window) (count : Nat) (bytes : List UInt8) (v : Memory π) : Prop where
  only : ∀ {t a p}, v.pages t a = some p → p.isFile = true → p.source.file = some W.file →
    t = W.space ∧ ∃ k < count, a = W.place k
  alone : ∀ k < count, v.Alone W.space (W.place k)
  holds : ∀ k < count, v.Holds W.space (W.place k) (W.source k) (W.part bytes k)
  rest : ∀ i, ¬(W.offset ≤ i ∧ i < W.offset + count * pageSize) →
    (v.files.node W.file).contents[i]? = bytes[i]?
  length : v.files.length W.file = W.length
  total : bytes.length = W.length
  unlimited : (v.files.transferLimits W.file).2 = none

/-- The first `count` pages of the window are there. -/
def Laid (W : Window) (count : Nat) (v : Memory π) : Prop :=
  ∀ k < count, (v.pages W.space (W.place k)).isSome

theorem Laid.insert {page : Page} [ReplacementPolicy π] (h : W.Laid count v) (hva : page.va = W.place count)
    (ha : v.Alters (.insert W.space page) u) : W.Laid (count + 1) u := by
  intro k hk
  rw [ha.of_insert.1]
  show (setAt v.pages W.space page.va _ W.space (W.place k)).isSome
  rw [setAt_apply]
  split
  · rfl
  · rename_i hne
    rcases Nat.lt_succ_iff_lt_or_eq.mp hk with hk | rfl
    · exact h k hk
    · exact absurd ⟨rfl, hva.symm⟩ hne

/-- A change that has nothing to do with the window, or takes pages away. -/
def Spares (W : Window) : Change → Prop
  | .insert _ page => page.isFile = true → page.source.file ≠ some W.file
  | .copy src _ _ => src ≠ W.space
  | .write t _ _ _ => t ≠ W.space
  | .remove .. | .spawn _ | .drop => True

namespace Faithful

theorem takes (h : W.Faithful count bytes v) (k : Nat) : (W.source k).Takes v.files :=
  ⟨W.file, rfl, h.unlimited, h.length ▸ Nat.min_le_left ..⟩

theorem source_eq (h : W.Faithful count bytes v) {t a : Nat} {p : Page} (hp : v.pages t a = some p)
    (hfile : p.isFile = true) (hsource : p.source.file = some W.file) :
    t = W.space ∧ ∃ k < count, a = W.place k ∧ p.source = W.source k := by
  obtain ⟨rfl, k, hk, rfl⟩ := h.only hp hfile hsource
  exact ⟨rfl, k, hk, rfl, ((h.holds k hk).page hp).2⟩

theorem apart (h : W.Faithful count bytes v) (k : Nat) :
    v.Apart W.space (W.place k) (W.source k) := by
  intro t a p hne hp hfile hsame _
  obtain ⟨rfl, m, -, rfl, hsource⟩ := h.source_eq hp hfile hsame
  have hother : k ≠ m := by
    rintro rfl
    exact hne ⟨rfl, rfl⟩
  have hk := (W.source k).readBytes_le
  have hm := (W.source m).readBytes_le
  rw [hsource]
  show W.offset + k * pageSize + _ ≤ W.offset + m * pageSize ∨
    W.offset + m * pageSize + _ ≤ W.offset + k * pageSize
  simp only [pageSize] at hk hm ⊢
  omega

variable [ReplacementPolicy π]

theorem step (h : W.Faithful count bytes v) (hv : v.Sound) (hs : Memory.Step v u)
    (hlimit : u.files.transferLimits W.file = v.files.transferLimits W.file) :
    W.Faithful count bytes u where
  only hq hfile hsource := by
    obtain ⟨p, hp, houtline⟩ := hs.exists_of_page hq
    simp only [Page.outline, Prod.mk.injEq] at houtline
    obtain ⟨-, -, -, hsource', hfile'⟩ := houtline
    exact h.only hp (hfile' ▸ hfile) (hsource' ▸ hsource)
  alone k hk := hs.alone hv (h.alone k hk)
  holds k hk := (h.holds k hk).step hv hs (fun _ => hs.stays hv (h.alone k hk)) (hs.shown_of_apart (h.apart k))
  rest i hi := by
    rw [← h.rest i hi]
    rcases hs.contents_or W.file with hsame | ⟨t, a, p, n, moved, hp, -, hfile, hsource, -, hwrite⟩
    · rw [hsame]
    · -- What is written back belongs to a page of the window.
      obtain ⟨-, k, hk, -, hpage⟩ := h.source_eq hp hfile hsource
      have hmoved := FileStore.count_le_of_writeAt hwrite
      have htake := List.length_take_le p.source.readBytes (v.frames n).contents.toList
      have hle := p.source.readBytes_le
      rw [FileStore.getElem?_writeAt hwrite, if_neg]
      rw [hpage] at hmoved htake hle ⊢
      show ¬(W.offset + k * pageSize ≤ i ∧ i < W.offset + k * pageSize + moved)
      have hlast : (k + 1) * pageSize ≤ count * pageSize := Nat.mul_le_mul_right _ hk
      simp only [pageSize] at hle hi hlast ⊢
      omega
  length := hs.length_eq.trans h.length
  total := h.total
  unlimited := hlimit ▸ h.unlimited

/-- What is done elsewhere does not show, and what is taken away is saved. -/
theorem change {c : Change} (h : W.Faithful count bytes v) (hv : v.Sound) (ha : v.Alters c u)
    (hset : c.Settled v) (hc : W.Spares c)
    (hlaid : W.Laid count v ∨ ∃ t page, c = .remove t page) : W.Faithful count bytes u where
  only {t a q} hq hfile hsource := by
    cases ha with
    | write | spawn | drop => exact h.only hq hfile hsource
    | @insert t' page hs hva hnone hserial hf hb =>
      replace hq : setAt v.pages t' page.va (some page) t a = some q := hq
      rw [setAt_apply] at hq
      split at hq
      · obtain rfl := Option.some.inj hq
        exact absurd hsource (hc hfile)
      · exact h.only hq hfile hsource
    | @remove t' page hp =>
      rw [Memory.pages_discard, setAt_apply] at hq
      split at hq
      · cases hq
      · exact h.only hq hfile hsource
    | @copy src dst page backing swap hp hdst hnone hfit hb =>
      rw [Memory.pages_adopt, setAt_apply] at hq
      split at hq
      · obtain rfl := Option.some.inj hq
        obtain ⟨hsource', hfile'⟩ := hb.outline_eq
        have hold : page.source.file = some W.file := (congrArg Source.file hsource').symm.trans hsource
        exact absurd (h.only hp (hfile'.symm.trans hfile) hold).1 hc
      · exact h.only hq hfile hsource
  alone k hk := by
    apply ha.alone (h.alone k hk)
    rintro src dst page rfl
    exact ⟨hc, (hlaid.resolve_right nofun) k hk⟩
  holds k hk := by
    apply (h.holds k hk).change hv ha hset
    · exact hlaid.imp_left fun hall => hall k hk
    · rintro start new rfl
      exact hc rfl
    · exact fun _ _ _ => h.takes k
  rest i hi := by rw [ha.files_eq.1, h.rest i hi]
  length := (congrArg List.length ha.files_eq.1).trans h.length
  total := h.total
  unlimited := ha.files_eq.2 ▸ h.unlimited

theorem write {start : Nat} {new : List UInt8} (h : W.Faithful W.pages bytes v) (hv : v.Sound)
    (haddr : W.addr % pageSize = 0) (hlen : new.length ≤ pageSize - pageOffset start)
    (hlaid : W.Laid W.pages v)
    (ha : v.Alters (.write W.space (pageDown start) (pageOffset start) new) u) :
    W.Faithful W.pages (W.put bytes start new) u where
  only := by
    cases ha with
    | write => exact h.only
  alone k hk := ha.alone (h.alone k hk) nofun
  holds k hk := by
    by_cases heq : W.place k = pageDown start
    · exact (h.holds k hk).write (heq ▸ ha) fun c hc => part_put_of_eq hk h.total hlen heq hc
    · rw [part_put_of_ne haddr hlen heq]
      apply (h.holds k hk).change hv ha trivial (.inl (hlaid k hk))
      · intro start' new' hsame
        injection hsame with _ hva
        exact heq hva.symm
      · nofun
  rest i hi := by
    rw [ha.files_eq.1, h.rest i hi, getElem?_put_of_not]
    rintro j - ⟨m, hm, rfl, -⟩
    exact hi ⟨by omega, by omega⟩
  length := (congrArg List.length ha.files_eq.1).trans h.length
  total := length_put.trans h.total
  unlimited := ha.files_eq.2 ▸ h.unlimited

theorem course {moves : Nat → Nat → Prop} {cs : List Change} (h : W.Faithful count bytes v)
    (hv : v.Sound) (hcourse : Memory.Course moves cs v u) (hcs : ∀ c ∈ cs, W.Spares c)
    (hlaid : (∀ x, Memory.Between v u x → W.Laid count x) ∨ ∀ c ∈ cs, ∃ t page, c = .remove t page) :
    W.Faithful count bytes u := by
  induction hcourse with
  | refl => exact h
  | step hbefore hs hk ih =>
    refine (ih h hv hcs (hlaid.imp_left fun hall x hx => ?_)).step (hv.evolves hbefore.evolves) hs
      (hk.transfers _)
    obtain ⟨hfrom, _, hto⟩ := hx
    exact hall x ⟨hfrom, _, hto.step hs⟩
  | @change before c v u u' hbefore ha hset ih =>
    obtain ⟨hcs, hc⟩ := List.forall_mem_append.mp hcs
    have hfirst : W.Faithful count bytes u := by
      refine ih h hv hcs (hlaid.imp (fun hall x hx => ?_) fun hall c hc => ?_)
      · obtain ⟨hfrom, _, hto⟩ := hx
        exact hall x ⟨hfrom, _, hto.change ha⟩
      · exact hall c (List.mem_append_left _ hc)
    apply hfirst.change (hv.evolves hbefore.evolves) ha hset (hc _ (List.mem_singleton_self _))
    refine hlaid.imp (fun hall => ?_) fun hall => ?_
    · exact hall _ ⟨⟨_, hbefore.evolves⟩, _, .of_change ha⟩
    · exact hall _ (List.mem_append_right _ (List.mem_singleton_self _))

theorem rests (h : W.Faithful count bytes v) (hv : v.Sound) (hlaid : W.Laid count v)
    (hrests : Memory.Rests v u) : W.Faithful count bytes u ∧ W.Laid count u := by
  refine ⟨h.course hv hrests (List.forall_mem_nil _) (.inr (List.forall_mem_nil _)), fun k hk => ?_⟩
  have hpages : Memory.Pages v u := hrests.evolves
  obtain ⟨p, hp⟩ := Option.isSome_iff_exists.mp (hlaid k hk)
  obtain ⟨q, hq, -⟩ := hpages.exists_page hp
  exact Option.isSome_iff_exists.mpr ⟨q, hq⟩

omit [ReplacementPolicy π] in
/-- What is found in the frame of a page is what is seen of the file there. -/
theorem found {addr size n i j : Nat} {q : Page} {b : UInt8} (h : W.Faithful W.pages bytes v)
    (haddr : W.addr % pageSize = 0) (hq : v.pages W.space (pageDown addr) = some q)
    (hn : q.frame = some n) (hsize : size ≤ pageSize - pageOffset addr)
    (hb : (slice (v.frames n).contents.toList (pageOffset addr) size)[j]? = some b)
    (hshow : W.Shows i (addr + j)) (hi : i < bytes.length) : bytes[i]? = some b := by
  obtain ⟨m, hm, rfl, ha⟩ := hshow
  rw [slice, List.getElem?_take] at hb
  split at hb
  · rename_i hj
    have hin : j < pageSize - pageOffset addr := Nat.lt_of_lt_of_le hj hsize
    have hdown := pageDown_add hin
    have hoffset := pageOffset_add hin
    rw [List.getElem?_drop, ← hoffset] at hb
    obtain ⟨hk, hread, hpart⟩ := getElem?_part_at bytes hm (h.total ▸ hi)
    have hplace : pageDown addr = W.place (m / pageSize) := by
      rw [← hdown, ha]
      simp only [place, pageDown, pageSize] at haddr ⊢
      omega
    have hpos : pageOffset (addr + j) = m % pageSize := by
      rw [ha]
      simp only [pageOffset, pageSize] at haddr ⊢
      omega
    rw [← (h.holds _ hk).held (hplace ▸ hq) hn, List.getElem?_take, if_pos hread, ← hpos, hb] at hpart
    exact hpart.symm
  · cases hb

omit [ReplacementPolicy π] in
/-- Once the pages of the window are gone, the file is what was seen of it. -/
theorem contents_eq (h : W.Faithful W.pages bytes v) (hv : v.Sound)
    (hgone : ∀ k < W.pages, v.pages W.space (W.place k) = none) :
    (v.files.node W.file).contents = bytes := by
  have hsaved {k : Nat} (hk : k < W.pages) : W.part (v.files.node W.file).contents k = W.part bytes k := by
    have hclean : ¬v.Dirty W.space (W.place k) := by
      rintro ⟨e, he, -⟩
      obtain ⟨p, hp, -⟩ := hv.mapped he
      cases (hgone k hk).symm.trans hp
    rw [← (h.holds k hk).saved hclean]
    exact (Source.shown_eq_slice rfl (h.length ▸ Nat.min_le_left ..)).symm
  apply List.ext_getElem?
  intro i
  by_cases hin : W.offset ≤ i ∧ i < W.offset + W.pages * pageSize
  · rcases Nat.lt_or_ge i W.length with hi | hi
    · obtain ⟨m, rfl⟩ := Nat.exists_eq_add_of_le hin.1
      obtain ⟨hk, -, hfile⟩ := getElem?_part_at (v.files.node W.file).contents
        (Nat.lt_of_add_lt_add_left hin.2) hi
      obtain ⟨-, -, hseen⟩ := getElem?_part_at bytes (Nat.lt_of_add_lt_add_left hin.2) hi
      rw [← hfile, ← hseen, hsaved hk]
    · rw [List.getElem?_eq_none (Nat.le_trans (Nat.le_of_eq h.length) hi),
        List.getElem?_eq_none (Nat.le_trans (Nat.le_of_eq h.total) hi)]
  · exact h.rest i hin

omit [ReplacementPolicy π] in
theorem of_unmapped (hfiles : ∀ {t a p}, v.pages t a = some p → p.isFile = true →
    p.source.file ≠ some W.file) (hlen : v.files.length W.file = W.length)
    (hlimit : (v.files.transferLimits W.file).2 = none) :
    W.Faithful 0 (v.files.node W.file).contents v where
  only hp hfile hsource := absurd hsource (hfiles hp hfile)
  alone _ hk := absurd hk (Nat.not_lt_zero _)
  holds _ hk := absurd hk (Nat.not_lt_zero _)
  rest _ _ := rfl
  length := hlen
  total := hlen
  unlimited := hlimit

omit [ReplacementPolicy π] in
/-- Nobody has written to the part of the file that comes next. -/
theorem shown_next (h : W.Faithful count bytes v) :
    (W.source count).shown v.files = W.part bytes count := by
  have hfit : (W.source count).readBytes ≤ v.files.length W.file - (W.source count).offset :=
    h.length ▸ Nat.min_le_left ..
  rw [Source.shown_eq_slice rfl hfit]
  apply List.ext_getElem?
  intro i
  rw [slice, List.getElem?_take, List.getElem?_drop, getElem?_part, offset_source]
  split
  · exact h.rest _ (by omega)
  · rfl

/-- The next page of the file joins the window, yet to be filled from its part. -/
theorem insert {serial : Nat} {writable : Bool} (h : W.Faithful count bytes v) (hv : v.Sound)
    (hlaid : W.Laid count v)
    (ha : v.Alters (.insert W.space (.ofFile serial (W.place count) writable (W.source count))) u) :
    W.Faithful (count + 1) bytes u where
  only {t a p} hp hfile hsource := by
    rw [ha.of_insert.1] at hp
    replace hp : setAt v.pages W.space (W.place count) _ t a = some p := hp
    rw [setAt_apply] at hp
    split at hp
    · rename_i hat
      exact ⟨hat.1, count, Nat.lt_succ_self _, hat.2⟩
    · obtain ⟨ht, k, hk, hplace⟩ := h.only hp hfile hsource
      exact ⟨ht, k, Nat.lt_succ_of_lt hk, hplace⟩
  alone k hk := by
    rcases Nat.lt_succ_iff_lt_or_eq.mp hk with hk | rfl
    · exact ha.alone (h.alone k hk) nofun
    · intro p q n t a hp hf
      rw [ha.of_insert.1] at hp
      obtain rfl := Option.some.inj (setAt_self.symm.trans hp)
      cases hf
  holds k hk := by
    rcases Nat.lt_succ_iff_lt_or_eq.mp hk with hk | rfl
    · exact (h.holds k hk).change hv ha trivial (.inl (hlaid k hk)) nofun nofun
    · refine ⟨fun hp => ?_, fun hp hf => ?_, fun _ => ?_⟩
      · rw [ha.of_insert.1] at hp
        obtain rfl := Option.some.inj (setAt_self.symm.trans hp)
        exact ⟨rfl, rfl⟩
      · rw [ha.of_insert.1] at hp
        obtain rfl := Option.some.inj (setAt_self.symm.trans hp)
        cases hf
      · exact (Source.shown_congr fun _ _ => ha.files_eq.1).trans h.shown_next
  rest i hi := by
    have hout : ¬(W.offset ≤ i ∧ i < W.offset + count * pageSize) := by
      rintro ⟨hle, hlt⟩
      exact hi ⟨hle, Nat.lt_of_lt_of_le hlt (Nat.add_le_add_left (Nat.mul_le_mul_right _ (Nat.le_succ _)) _)⟩
    rw [ha.files_eq.1, h.rest i hout]
  length := (congrArg List.length ha.files_eq.1).trans h.length
  total := h.total
  unlimited := ha.files_eq.2 ▸ h.unlimited

/-- Once all its pages are laid out, the window shows the file as it was. -/
theorem laidOut {writable : Bool} {va offset count more : Nat} {cs : List Change}
    (hcs : LaidOut W.space W.file W.length writable va offset more cs) (h : W.Faithful count bytes v)
    (hv : v.Sound) (hlaid : W.Laid count v) (hva : va = W.place count)
    (hoffset : offset = W.offset + count * pageSize) (hcount : count + more = W.pages)
    (hquiet : Memory.Quiet cs v u) : W.Faithful W.pages bytes u ∧ W.Laid W.pages u := by
  induction hcs generalizing count v with
  | nil =>
    obtain rfl : count = W.pages := hcount
    exact h.rests hv hlaid hquiet
  | @cons va offset more cs serial huser hcs ih =>
    obtain ⟨v₁, v₂, hfirst, ha, -, hquiet⟩ := hquiet.uncons
    obtain ⟨h₁, hlaid₁⟩ := h.rests hv hlaid hfirst
    have hv₁ := hv.evolves hfirst.evolves
    have hchained : decide (0 < more) = decide (count + 1 < W.pages) := decide_eq_decide.mpr (by omega)
    rw [hchained, hva, hoffset] at ha
    apply ih (h₁.insert hv₁ hlaid₁ ha) (hv₁.evolves (.of_change ha)) (hlaid₁.insert rfl ha) ?_ ?_ (by omega) hquiet
    · simp only [hva, place, pageSize]
      omega
    · simp only [hoffset, pageSize]
      omega

end Faithful

end Window

end DemandPaging
