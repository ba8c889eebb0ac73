import DemandPaging.Proofs.Stores

/-! # Taking a frame

`acquire` answers a frame that was free, or that the eviction of one page made free. Whatever it had
to do, the page for which the frame is wanted stays as it is, in its frame.
-/
namespace DemandPaging

theorem pageDown_eq_self {va : Nat} (h : va % pageSize = 0) : pageDown va = va := by
  simp [pageDown, h]

theorem pageDown_mod (va : Nat) : pageDown va % pageSize = 0 := by
  simp only [pageDown, pageSize]
  omega

namespace Memory
variable {π : Type} [ReplacementPolicy π] {v w : Memory π} {s n : Nat} {p : Page}

/-- Memory in order: frames and slots are accounted for. -/
structure Valid (v : Memory π) : Prop where
  sound : v.Sound
  stowed : v.Stowed

namespace Valid

theorem evolves {cs : List Change} (h : Valid v) (he : Evolves cs v w) : Valid w :=
  ⟨h.sound.evolves he, h.stowed.evolves he⟩

theorem step (h : Valid v) (hs : Step v w) : Valid w := ⟨h.sound.step hs, h.stowed.step hs⟩

theorem course {moves : Nat → Nat → Prop} {cs : List Change} (h : Valid v) (hc : Course moves cs v w) :
    Valid w := h.evolves hc.evolves

omit [ReplacementPolicy π] in
theorem slot_lt (h : Valid v) {s va : Nat} (hp : v.pages s va = some p) (k : Nat)
    (hk : p.backing.slot? = some k) : k < v.swap.capacity :=
  h.stowed.lt_capacity ((Stowed.slotAt_eq hp).trans hk)

omit [ReplacementPolicy π] in
theorem used_of_slot (h : Valid v) {s va k : Nat} (hp : v.pages s va = some p)
    (hk : p.backing.slot? = some k) : v.swap.Used k :=
  (h.stowed.used k).mpr ⟨s, va, (Stowed.slotAt_eq hp).trans hk⟩

omit [ReplacementPolicy π] in
/-- Memory stays valid where files and the disk come to hold something else. -/
theorem elsewhere (h : Valid v) {device : Device} (hsize : device.size = v.swap.device.size)
    (files : FileStore) : Valid { v with swap := { v.swap with device }, files } := by
  have hcapacity : SwapSpace.capacity { v.swap with device } = v.swap.capacity := by
    rw [SwapSpace.capacity, hsize, SwapSpace.capacity]
  have hfits : SwapSpace.Fits { v.swap with device } := by
    rw [SwapSpace.Fits, hcapacity]
    exact h.stowed.fits
  refine ⟨h.sound.of_eq rfl rfl (Nat.le_refl _) rfl rfl rfl, ?_⟩
  exact ⟨hfits, h.stowed.used, h.stowed.single, h.stowed.apart, h.stowed.filled⟩

end Valid

/-- The page at `p.va` is in no frame and not mapped, and frame `n`, where it was, is free. -/
def putOut (v : Memory π) (s n : Nat) (p : Page) (backing : Backing) : Memory π :=
  { ((v.setPage s p.va (some { p with backing, frame := none })).setEntry s p.va none).setFrame n
      (.vacant (v.frames n).contents) with
    policy := ReplacementPolicy.remove v.policy n }

/-- The last page that leaves a frame leaves it free, in whatever backing. -/
theorem Sound.leave_last (h : Sound v) (hp : v.pages s p.va = some p) (hf : p.frame = some n)
    (hn : (v.frames n).refcount = 1) (backing : Backing) :
    v.leave s n { p with backing } = v.putOut s n p backing := by
  have hback := h.reback hp backing
  have hnone : (v.frames n).owners.erase ⟨p.serial, s, p.va⟩ = [] := by
    have hlen := List.length_erase_of_mem (h.owned hp hf)
    rw [← h.counted, hn] at hlen
    exact List.length_eq_zero_iff.mp hlen
  rw [← leave_setPage v s n { p with backing } (some { p with backing }),
    hback.leave_eq (p := { p with backing }) setAt_self hf]
  simp only [setPage, hn, if_true, hnone, setAt_setAt]
  rfl

/-- A frame taken: zeroed, pinned, and counted once. -/
def occupy (v : Memory π) (n : Nat) : Memory π :=
  { v.setFrame n { v.frames n with
      entry := (CoreMapEntry.free.put .allocated true).put .pinned true
      refcount := 1
      contents := zeroPage } with
    policy := ReplacementPolicy.insert v.policy n }

/-- From `v`, paging alone has led to `w`, where frame `n` is free. The busy page has not noticed, and
what was in swap is still there. -/
structure Yields (v w : Memory π) (busy : Option Nat) (n : Nat) : Prop where
  rests : Rests v w
  free : (w.frames n).allocated = false
  lt : n < w.size
  held : ∀ k, v.swap.Used k → w.swap.held k = v.swap.held k
  kept : ∀ {s va p}, v.pages s va = some p → busy = some p.serial →
    w.pages s va = some p ∧ w.entries s va = v.entries s va ∧
      ∀ k, p.frame = some k → w.frames k = v.frames k

end Memory

variable {π : Type} {m : Machine π}

/-- A search goes over all frames. -/
theorem FrameTable.mem_searchOrder {t : FrameTable π} {n : Nat} : n ∈ t.searchOrder ↔ n < t.size := by
  simp only [searchOrder, List.mem_map, List.mem_range]
  constructor
  · rintro ⟨i, hi, rfl⟩
    exact Nat.mod_lt _ (by omega)
  · intro hn
    have hstart : t.position % t.size < t.size := Nat.mod_lt _ (by omega)
    by_cases hle : t.position % t.size ≤ n
    · refine ⟨n - t.position % t.size, by omega, ?_⟩
      rw [← Nat.mod_add_mod, Nat.add_sub_cancel' hle, Nat.mod_eq_of_lt hn]
    · refine ⟨n + t.size - t.position % t.size, by omega, ?_⟩
      rw [← Nat.mod_add_mod, Nat.add_sub_cancel' (by omega), Nat.add_mod_right, Nat.mod_eq_of_lt hn]

theorem FrameTable.place?_eq_none {t : FrameTable π} :
    t.place? = none ↔ ∀ n, n < t.size → (t.frame n).allocated = true := by
  simp [place?, mem_searchOrder]

theorem FrameTable.place?_eq_some {t t' : FrameTable π} {n : Nat} (h : t.place? = some (n, t')) :
    (t.frame n).allocated = false ∧ n < t.size ∧ t'.frames = t.frames ∧ t'.policy = t.policy := by
  simp only [place?, Option.map_eq_some_iff, Prod.mk.injEq] at h
  obtain ⟨k, hk, rfl, rfl⟩ := h
  have hfree := List.find?_some hk
  exact ⟨by simpa using hfree, mem_searchOrder.mp (List.mem_of_find?_eq_some hk), rfl, rfl⟩

/-- Once a free frame is found, only the position of the search has moved. -/
theorem Machine.memory_placed {n : Nat} {frames : FrameTable π} (h : m.frames.place? = some (n, frames)) :
    ({ m with frames } : Machine π).memory = m.memory := by
  obtain ⟨-, -, hframes, hpolicy⟩ := FrameTable.place?_eq_some h
  obtain ⟨array, policy, position⟩ := frames
  cases hframes
  cases hpolicy
  rfl

theorem FrameTable.soleOwner?_eq_some {t : FrameTable π} {n : Nat} {o : Owner} :
    t.soleOwner? n = some o ↔ (t.frame n).allocated = true ∧ (t.frame n).pinned = false ∧
      (t.frame n).refcount = 1 ∧ (t.frame n).owners = [o] := by
  simp only [soleOwner?, Option.ite_none_right_eq_some, Bool.and_eq_true, Bool.not_eq_true', beq_iff_eq,
    and_assoc]
  refine and_congr_right fun _ => and_congr_right fun _ => and_congr_right fun _ => ?_
  split
  · rename_i o' howners
    simp [howners]
  · rename_i hnot
    exact iff_of_false nofun fun h => hnot o h

/-- What may be evicted, in full. -/
theorem Machine.victim?_eq_some {busy : Option Nat} {n : Nat} {o : Owner} {page : Page} :
    m.victim? busy n = some (o, page) ↔ m.frames.soleOwner? n = some o ∧
      m.page? o.space o.va = some page ∧ page.serial = o.page ∧ busy ≠ some page.serial := by
  simp only [victim?, ownedPage?, Option.bind_eq_bind, Option.bind_eq_some_iff, Option.filter_eq_some_iff,
    Option.ite_none_left_eq_some, Option.some.injEq, Prod.mk.injEq, beq_iff_eq]
  constructor
  · rintro ⟨_, ho, _, ⟨hp, hserial⟩, hbusy, rfl, rfl⟩
    exact ⟨ho, hp, hserial, hbusy⟩
  · rintro ⟨ho, hp, hserial, hbusy⟩
    exact ⟨o, ho, page, ⟨hp, hserial⟩, hbusy, rfl, rfl⟩

/-- A page that may be evicted is in its table and in the frame, which is its own. -/
theorem Machine.victim?_resident (h : m.memory.Valid) {busy : Option Nat} {n : Nat} {o : Owner}
    {page : Page} (hv : m.victim? busy n = some (o, page)) :
    o.va = page.va ∧ m.memory.pages o.space page.va = some page ∧ page.frame = some n ∧
      (m.memory.frames n).refcount = 1 ∧ busy ≠ some page.serial := by
  obtain ⟨ho, hp, -, hbusy⟩ := victim?_eq_some.mp hv
  obtain ⟨-, -, hn, howners⟩ := FrameTable.soleOwner?_eq_some.mp ho
  have howner : o ∈ (m.memory.frames n).owners := howners ▸ List.mem_singleton_self o
  obtain ⟨q, hq, -, hf⟩ := h.sound.owner howner
  obtain ⟨hva, haligned, -⟩ := h.sound.kept hq
  rw [page?_eq, pageDown_eq_self haligned] at hp
  obtain rfl := Option.some.inj (hp.symm.trans hq)
  exact ⟨hva.symm, hva ▸ hp, hf, hn, hbusy⟩

variable [ReplacementPolicy π]

/-- What the machine does to put a page out of a frame. -/
theorem Machine.memory_putOut {v : Memory π} {s n : Nat} {p : Page} (hva : p.va % pageSize = 0)
    (hs : s < v.spaces) (hn : n < v.size) (backing : Backing) (hm : m.memory = v) :
    ({ (m.unmap s p.va).putPage s { p with backing, frame := none } with
      frames := ((((m.unmap s p.va).putPage s { p with backing, frame := none }).frames.modify n
        fun f => { f with refcount := 0 }).vacate n) } : Machine π).memory = v.putOut s n p backing := by
  have hs : s < m.spaces.size := lt_spaces hm hs
  have hn : n < m.frames.size := lt_frames hm hn
  have hunmap := memory_unmap (m := m) s p.va
  rw [pageDown_eq_self hva] at hunmap
  have hput := memory_putPage (m := m.unmap s p.va) (s := s) (by
    rw [unmap, spaces_modifySpace]; exact hs) { p with backing, frame := none }
  rw [hunmap] at hput
  generalize (m.unmap s p.va).putPage s { p with backing, frame := none } = m₁ at hput
  have hsize : m₁.frames.size = m.frames.size := congrArg Memory.size hput
  have hmod := memory_modifyFrame (m := m₁) (fun f => { f with refcount := 0 }) (hsize ▸ hn)
  have hvac := memory_vacate (m := { m₁ with frames := m₁.frames.modify n fun f => { f with refcount := 0 } })
    (n := n) (Nat.lt_of_lt_of_eq hn ((congrArg Memory.size hmod).trans hsize).symm)
  refine hvac.trans ?_
  rw [hmod]
  simp only [Memory.putOut, Memory.setFrame, Function.update_idem, Function.update_self, hput, Memory.setPage,
    Memory.setEntry, hm]
  rfl

/-- Saving a page before it leaves its frame is paging that changes no table, no frame, no slot and no
other mapping. -/
theorem Memory.Rests.of_saving {u v : Memory π} {s n : Nat} {page : Page}
    (hp : u.pages s page.va = some page) (hf : page.frame = some n)
    (hv : v = u ∨ page.isFile = true ∧ u.Flushed s page.va n page.source v) :
    v.pages = u.pages ∧ v.frames = u.frames ∧ v.swap = u.swap ∧
      (∀ t a, ¬(t = s ∧ a = page.va) → v.entries t a = u.entries t a) ∧ Memory.Rests u v := by
  obtain rfl | ⟨hfile, hflush⟩ := hv
  · exact ⟨rfl, rfl, rfl, fun _ _ _ => rfl, .refl _⟩
  · exact ⟨hflush.same.1, hflush.same.2.1, hflush.swap_eq, hflush.same.2.2,
      .of_step (.flushed hp hf hfile hflush) (.of_pages hflush.same.1 hflush.transfers)⟩

omit [ReplacementPolicy π] in
theorem Memory.limits_of_saving {u v : Memory π} {s va n : Nat} {source : Source} {file : Prop}
    (hv : v = u ∨ file ∧ u.Flushed s va n source v) :
    v.spaces = u.spaces ∧ v.size = u.size ∧ v.nextSerial = u.nextSerial := by
  obtain rfl | ⟨-, hflush⟩ := hv
  · exact ⟨rfl, rfl, rfl⟩
  · exact hflush.limits

/-- A page that is evicted is saved and put out of its frame. -/
theorem evictPage_putsOut {n : Nat} {o : Owner} {page : Page} (hva : page.va % pageSize = 0)
    (hs : o.space < m.spaces.size) (hn : n < m.frames.size) (hfits : m.swap.Fits)
    (hp : m.memory.pages o.space page.va = some page) (hf : page.frame = some n) (ho : o.va = page.va)
    (hfilled : ∀ target source, page.backing ≠ .uninit target source) :
    Attempt.Ends False (evictPage n o page) m
      (fun _ after => ∃ v backing swap,
        (v = m.memory ∨ page.isFile = true ∧ m.memory.Flushed o.space page.va n page.source v) ∧
          v.Saved (v.frames n).contents (v.Dirty o.space page.va) page.backing backing swap ∧
          after.memory = { v.putOut o.space n page backing with swap })
      fun e after => e ≠ .invalidMapping ∧ m.memory.Unmoved after.memory := by
  simp only [evictPage, Attempt.ends_bind, Attempt.ends_modify]
  refine (saveOut_ends hva hfits hp hf hfilled).imp ?_ fun _ _ he => he
  rintro backing m₁ ⟨v, swap, hv, hsaved, hm₁⟩
  obtain ⟨-, hframes, -, -, -⟩ := Memory.Rests.of_saving hp hf hv
  obtain ⟨hspaces, hsize, -⟩ := Memory.limits_of_saving hv
  rw [← hframes] at hsaved
  have hafter := Machine.memory_putOut (v := { v with swap }) hva (Nat.lt_of_lt_of_eq hs hspaces.symm)
    (Nat.lt_of_lt_of_eq hn hsize.symm) backing hm₁
  rw [ho, Machine.memory_report, hafter]
  exact ⟨v, backing, swap, hv, hsaved, rfl⟩

/-- The last page leaves its frame when it is evicted. -/
theorem evictPage_leaves {n : Nat} {o : Owner} {page : Page} (h : m.memory.Valid)
    (hp : m.memory.pages o.space page.va = some page) (hf : page.frame = some n) (ho : o.va = page.va)
    (hn : (m.memory.frames n).refcount = 1) :
    Attempt.Ends False (evictPage n o page) m
      (fun _ after => ∃ v backing swap,
        (v = m.memory ∨ page.isFile = true ∧ m.memory.Flushed o.space page.va n page.source v) ∧
          v.Saved (v.frames n).contents (v.Dirty o.space page.va) page.backing backing swap ∧
          after.memory = { v.leave o.space n { page with backing } with swap })
      fun e after => e ≠ .invalidMapping ∧ m.memory.Unmoved after.memory := by
  obtain ⟨-, hva, hs, -⟩ := h.sound.kept hp
  have hsome : page.frame.isSome := by rw [hf]; rfl
  refine (evictPage_putsOut hva hs (h.sound.resident_frame hp hf).2 h.stowed.fits hp hf ho
    (h.stowed.filled hp hsome)).imp ?_ fun _ _ he => he
  rintro - after ⟨v, backing, swap, hv, hsaved, hafter⟩
  obtain ⟨hpages, hframes, -, -, hreach⟩ := Memory.Rests.of_saving hp hf hv
  refine ⟨v, backing, swap, hv, hsaved, ?_⟩
  rw [hafter, (h.course hreach).sound.leave_last (hpages ▸ hp) hf (hframes ▸ hn)]

theorem evictPage_ends {n : Nat} {o : Owner} {page : Page} (h : m.memory.Valid)
    (hp : m.memory.pages o.space page.va = some page) (hf : page.frame = some n) (ho : o.va = page.va)
    (hn : (m.memory.frames n).refcount = 1) {busy : Option Nat} (hbusy : busy ≠ some page.serial) :
    Attempt.Ends False (evictPage n o page) m (fun _ after => m.memory.Yields after.memory busy n)
      fun e after => e ≠ .invalidMapping ∧ m.memory.Unmoved after.memory := by
  refine (evictPage_leaves h hp hf ho hn).imp ?_ fun _ _ he => he
  rintro _ after ⟨v, backing, swap, hv, hsaved, hafter⟩
  obtain ⟨hpages, hframes, hswap, hentries, hreach⟩ := Memory.Rests.of_saving hp hf hv
  have hvalid := h.course hreach
  rw [← hpages] at hp
  rw [← hframes] at hn
  have hleave := hvalid.sound.leave_last hp hf hn backing
  rw [hafter]
  have hsteady : Memory.Steady (fun _ _ => False) v
      { v.leave o.space n { page with backing } with swap } := by
    refine .of_setAt (Memory.pages_leave v o.space n { page with backing })
      (fun f => congrArg (·.transferLimits f) (Memory.files_leave v o.space n { page with backing })) ?_
    rintro - p q k k' - - ⟨⟩ ⟨⟩
  refine ⟨hreach.rests (.of_step (.evicted hp hf hn hsaved) hsteady), ?_, ?_, fun k hk => ?_, ?_⟩
  · rw [hleave]
    simp only [Memory.putOut, Memory.setFrame, Function.update_self]
    exact CoreMapEntry.has_free _
  · rw [Memory.size_leave]
    exact (hvalid.sound.resident_frame hp hf).2
  · rw [← hswap] at hk ⊢
    exact hsaved.held_eq hvalid.stowed.fits hk
  · intro t a q hq hbusy'
    have hne : ¬(t = o.space ∧ a = page.va) := by
      rintro ⟨rfl, rfl⟩
      rw [← hpages, hp] at hq
      cases hq
      exact hbusy hbusy'
    rw [← hpages] at hq
    refine ⟨?_, ?_, ?_⟩
    · rw [Memory.pages_leave]
      exact (setAt_of_ne hne).trans hq
    · rw [Memory.entries_leave]
      exact (setAt_of_ne hne).trans (hentries t a hne)
    · intro k hk
      have hkn : k ≠ n := by
        rintro rfl
        exact hne (hvalid.sound.alone hn hq hk hp hf)
      rw [hleave]
      exact (Function.update_of_ne hkn ..).trans (congrFun hframes k)

section Outcomes
variable {stop : Prop} {Q : Nat → Machine π → Prop} {E : MemoryError → Machine π → Prop} {busy : Option Nat}

/-- What comes of putting any one page out comes of the search for a page to put out. -/
theorem evictFirst_of_victim (candidates : List Nat) (hnone : E .allocationExhausted m)
    (hvictim : ∀ n o page, m.victim? busy n = some (o, page) →
      Attempt.Ends stop (evictPage n o page) m (fun _ after => Q n after) E) :
    Attempt.Ends stop (evictFirst busy candidates) m Q E := by
  induction candidates with
  | nil => exact hnone
  | cons n rest ih =>
    simp only [evictFirst, Attempt.ends_bind, Attempt.ends_get]
    cases hv : m.victim? busy n with
    | none => exact ih
    | some victim =>
      obtain ⟨o, page⟩ := victim
      simp only [Attempt.ends_bind, Attempt.ends_pure]
      exact hvictim n o page hv

/-- A frame is taken that was free, or else one that was made free. -/
theorem acquire_of_room
    (hfree : ∀ n frames, m.frames.place? = some (n, frames) →
      Q n ({ m with frames := frames.occupy n }.report (.acquired n)))
    (hfull : m.frames.place? = none →
      Attempt.Ends stop (evictFirst busy (ReplacementPolicy.candidates m.frames.policy)) m
        (fun n after => Q n ({ after with frames := after.frames.occupy n }.report (.acquired n))) E) :
    Attempt.Ends stop (acquire busy) m Q E := by
  simp only [acquire, Attempt.ends_bind, Attempt.ends_get]
  cases hplace : m.frames.place? with
  | some found =>
    simp only [Attempt.ends_bind, Attempt.ends_set, Attempt.ends_modify, Attempt.ends_pure]
    exact hfree found.1 found.2 hplace
  | none =>
    simp only [Attempt.ends_bind, Attempt.ends_modify, Attempt.ends_pure]
    exact hfull hplace

end Outcomes

theorem evictFirst_ends (h : m.memory.Valid) (busy : Option Nat) (candidates : List Nat) :
    Attempt.Ends False (evictFirst busy candidates) m
      (fun n after => m.memory.Yields after.memory busy n)
      fun e after => e ≠ .invalidMapping ∧ m.memory.Unmoved after.memory := by
  refine evictFirst_of_victim candidates ⟨(by simp), .refl _⟩ fun n o page hv => ?_
  obtain ⟨ho, hp, hf, hn, hbusy⟩ := Machine.victim?_resident h hv
  exact evictPage_ends h hp hf ho hn hbusy

/-- A frame is taken, and the busy page keeps its own. -/
theorem acquire_ends (h : m.memory.Valid) (busy : Option Nat) :
    Attempt.Ends False (acquire busy) m
      (fun n after => ∃ v, m.memory.Yields v busy n ∧ after.memory = v.occupy n)
      fun e after => e ≠ .invalidMapping ∧ m.memory.Unmoved after.memory := by
  refine acquire_of_room (fun n frames hplace => ?_) fun _ => ?_
  · obtain ⟨hfree, hlt, -, -⟩ := FrameTable.place?_eq_some hplace
    refine ⟨m.memory, ⟨.refl _, hfree, hlt, fun _ _ => rfl, fun hp _ => ⟨hp, rfl, fun _ _ => rfl⟩⟩, ?_⟩
    have hsame := Machine.memory_placed hplace
    have hlt' : n < ({ m with frames } : Machine π).frames.size :=
      Nat.lt_of_lt_of_eq hlt (congrArg Memory.size hsame).symm
    exact (Machine.memory_occupy hlt').trans (congrArg (Memory.occupy · n) hsame)
  · refine (evictFirst_ends h busy _).imp ?_ fun _ _ he => he
    intro n after hy
    exact ⟨after.memory, hy, Machine.memory_occupy hy.lt⟩

end DemandPaging
