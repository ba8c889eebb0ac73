import DemandPaging.Proofs.Evictions

/-! # Where a free frame is found

A search for a free frame goes around the table once, from a position that moves. It finds the first free
frame from there on whenever there is one, and divides by the number of frames only if there are any. So it
is after any history, and pages are put out only when every frame is in use.
-/
namespace DemandPaging
open Machine (Undisturbed Indifferent)

/-- The remainder of a division, unless it is by zero. -/
def remainder? (a b : Nat) : Option Nat := if b = 0 then none else some (a % b)

theorem remainder?_of_pos {a b : Nat} (h : 0 < b) : remainder? a b = some (a % b) := if_neg (by omega)

variable {π : Type}

/-! ## One search -/

namespace FrameTable
variable {t t' : FrameTable π} {n i count : Nat}

/-- The frame `i` places on from the position. The first frame comes after the last. -/
def ahead (t : FrameTable π) (i : Nat) : Nat :=
  if t.position + i < t.size then t.position + i else t.position + i - t.size

/-- The place just past frame `n`. -/
def past (t : FrameTable π) (n : Nat) : Nat := if n + 1 < t.size then n + 1 else 0

/-- The position is at one of the frames, if there are any. -/
def Positioned (t : FrameTable π) : Prop := t.position < t.size ∨ t.size = 0 ∧ t.position = 0

/-- Frame `n` is free, and all frames from the position up to it are in use. -/
def FirstFree (t : FrameTable π) (n : Nat) : Prop :=
  ∃ i < t.size, n = t.ahead i ∧ (t.frame n).allocated = false ∧
    ∀ j < i, (t.frame (t.ahead j)).allocated = true

theorem ahead_eq (h : t.Positioned) (hi : i < t.size) : t.ahead i = (t.position + i) % t.size := by
  have hposition : t.position < t.size := by
    rcases h with hlt | ⟨hzero, -⟩ <;> omega
  unfold ahead
  split
  · rename_i hlt
    rw [Nat.mod_eq_of_lt hlt]
  · rw [Nat.mod_eq_sub_mod (by omega), Nat.mod_eq_of_lt (by omega)]

theorem ahead_lt (h : t.Positioned) (hi : i < t.size) : t.ahead i < t.size := by
  rw [ahead_eq h hi]
  exact Nat.mod_lt _ (by omega)

theorem past_eq (hn : n < t.size) : t.past n = (n + 1) % t.size := by
  unfold past
  split
  · rename_i hlt
    rw [Nat.mod_eq_of_lt hlt]
  · rw [show n + 1 = t.size by omega, Nat.mod_self]

/-- What a search finds is the first free frame, and the next search starts past it. -/
theorem place?_eq_some_iff (h : t.Positioned) :
    t.place? = some (n, t') ↔ t.FirstFree n ∧ t' = { t with position := t.past n } := by
  simp only [place?, searchOrder, List.find?_map, Option.map_map, Option.map_eq_some_iff,
    List.find?_range_eq_some, Function.comp_apply, Prod.mk.injEq, List.mem_range, Bool.not_eq_true',
    Bool.not_not]
  constructor
  · rintro ⟨i, ⟨hfree, hi, hbefore⟩, rfl, rfl⟩
    rw [← ahead_eq h hi] at hfree ⊢
    rw [past_eq (ahead_lt h hi)]
    refine ⟨⟨i, hi, rfl, hfree, ?_⟩, rfl⟩
    intro j hj
    rw [ahead_eq h (Nat.lt_trans hj hi)]
    exact hbefore j hj
  · rintro ⟨⟨i, hi, rfl, hfree, hbefore⟩, rfl⟩
    rw [past_eq (ahead_lt h hi)]
    rw [ahead_eq h hi] at hfree ⊢
    refine ⟨i, ⟨hfree, hi, ?_⟩, rfl, rfl⟩
    intro j hj
    rw [← ahead_eq h (Nat.lt_trans hj hi)]
    exact hbefore j hj

theorem Positioned.place? (hplace : t.place? = some (n, t')) : t'.Positioned := by
  simp only [FrameTable.place?, Option.map_eq_some_iff, Prod.mk.injEq] at hplace
  obtain ⟨k, hk, -, rfl⟩ := hplace
  have hlt : k < t.size := mem_searchOrder.mp (List.mem_of_find?_eq_some hk)
  exact .inl (Nat.mod_lt _ (by omega))

/-- The search over `count` places from the `i`th on, provided that it divides by no zero and looks at no
frame that is not there. -/
def scan? (t : FrameTable π) : Nat → Nat → Option (Option Nat)
  | _, 0 => some none
  | i, count + 1 => do
    let n ← remainder? (t.position + i) t.size
    let frame ← t.frames[n]?
    if frame.allocated then t.scan? (i + 1) count else some (some n)

/-- The search for a free frame, likewise. -/
def placed? (t : FrameTable π) : Option (Option (Nat × FrameTable π)) := do
  match ← t.scan? 0 t.size with
  | none => some none
  | some n => do
    let position ← remainder? (n + 1) t.size
    some (some (n, { t with position }))

theorem scan?_eq (hle : i + count ≤ t.size) : t.scan? i count =
    some (((List.range' i count).map fun i => (t.position + i) % t.size).find? fun n =>
      !(t.frame n).allocated) := by
  induction count generalizing i with
  | zero => rfl
  | succ count ih =>
    have hpos : 0 < t.size := by omega
    have hlt : (t.position + i) % t.size < t.frames.size := Nat.mod_lt _ hpos
    have hframe : t.frames[(t.position + i) % t.size]? = some (t.frame ((t.position + i) % t.size)) := by
      simp [frame, hlt]
    simp only [scan?, remainder?_of_pos hpos, hframe, Option.bind_eq_bind, Option.bind_some]
    rw [List.range'_succ, List.map_cons, List.find?_cons, ih (by omega)]
    cases (t.frame ((t.position + i) % t.size)).allocated <;> rfl

/-- No search divides by zero or looks at a frame that is not there. -/
theorem placed?_eq (t : FrameTable π) : t.placed? = some t.place? := by
  have hscan : t.scan? 0 t.size = some (t.searchOrder.find? fun n => !(t.frame n).allocated) := by
    rw [scan?_eq (by omega), searchOrder, List.range_eq_range']
  simp only [placed?, hscan, Option.bind_eq_bind, Option.bind_some]
  cases hfound : t.searchOrder.find? fun n => !(t.frame n).allocated with
  | none => simp [place?, hfound]
  | some n =>
    have hlt : n < t.size := mem_searchOrder.mp (List.mem_of_find?_eq_some hfound)
    simp [place?, hfound, remainder?_of_pos (Nat.zero_lt_of_lt hlt)]

end FrameTable

/-! ## Any number of searches -/

namespace Machine
variable {m m' : Machine π} {count position : Nat}

/-- There are `count` frames, and the next search starts at `position`. -/
def SearchesAt (count position : Nat) (m : Machine π) : Prop :=
  m.frames.size = count ∧ m.frames.position = position

/-- There are `count` frames, and the next search starts at one of them, if there are any. -/
def Searchable (count : Nat) (m : Machine π) : Prop := m.frames.size = count ∧ m.frames.Positioned

theorem SearchesAt.of_eq (h : m.SearchesAt count position) (hsize : m'.frames.size = m.frames.size)
    (hposition : m'.frames.position = m.frames.position) : m'.SearchesAt count position :=
  ⟨hsize.trans h.1, hposition.trans h.2⟩

/-- It makes no difference to searches what else has changed. -/
theorem SearchesAt.searchable (h : m'.SearchesAt m.frames.size m.frames.position) (hm : m.Searchable count) :
    m'.Searchable count := by
  obtain ⟨hsize, hposition⟩ := h
  refine ⟨hsize.trans hm.1, ?_⟩
  unfold FrameTable.Positioned
  rw [hsize, hposition]
  exact hm.2

theorem indifferent_searchesAt : Indifferent (SearchesAt (π := π) count position) where
  keep h hm := h.of_eq hm.size hm.position

theorem indifferent_searchable : Indifferent (Searchable (π := π) count) where
  keep h hm := SearchesAt.searchable ⟨hm.size, hm.position⟩ h

variable [ReplacementPolicy π]

theorem SearchesAt.vacate (h : m.SearchesAt count position) (n : Nat) :
    ({ m with frames := m.frames.vacate n } : Machine π).SearchesAt count position :=
  h.of_eq (FrameTable.size_modify ..) rfl

theorem SearchesAt.occupy (h : m.SearchesAt count position) (n : Nat) :
    ({ m with frames := m.frames.occupy n }.report (.acquired n) : Machine π).SearchesAt count position :=
  h.of_eq (FrameTable.size_modify ..) rfl

theorem SearchesAt.releaseFrame (h : m.SearchesAt count position) (n : Nat) :
    (m.releaseFrame n).SearchesAt count position := by
  have hdropped := indifferent_searchesAt.keep h (.modify (n := n)
    (f := fun fr => { fr with refcount := wordPred fr.refcount }) fun _ => rfl)
  simp only [Machine.releaseFrame, FrameTable.put]
  split
  · exact indifferent_searchesAt.keep (hdropped.vacate n) (.report rfl)
  · exact hdropped

/-- To put a page out is no search. -/
theorem evictFirst_searchesAt (busy : Option Nat) (candidates : List Nat) :
    Attempt.Preserves (SearchesAt count position) (evictFirst busy candidates : Attempt π Nat) := by
  constructor
  intro m h
  apply evictFirst_of_victim candidates h
  intro n o page _
  simp only [evictPage, Attempt.ends_bind, Attempt.ends_modify]
  have hsaved := (indifferent_searchesAt.heedless.saveOut page (n := n) (s := o.space)).ends m h
  refine hsaved.imp ?_ fun _ _ he => he
  intro backing m₁ h₁
  have hput : m₁.Undisturbed ((m₁.unmap o.space o.va).putPage o.space { page with backing, frame := none }) :=
    .of_eq rfl rfl
  have hcounted := indifferent_searchesAt.keep h₁ (hput.trans (.modify (n := n)
    (f := fun fr => { fr with refcount := 0 }) fun _ => rfl))
  exact (hcounted.vacate n).of_eq rfl rfl

theorem acquire_searchable (busy : Option Nat) :
    Attempt.Preserves (Searchable count) (acquire busy : Attempt π Nat) := by
  constructor
  intro m h
  apply acquire_of_room
  · intro n frames hplace
    obtain ⟨-, -, hframes, -⟩ := FrameTable.place?_eq_some hplace
    have hplaced : ({ m with frames } : Machine π).Searchable count := by
      refine ⟨?_, .place? hplace⟩
      rw [FrameTable.size, hframes]
      exact h.1
    exact (SearchesAt.occupy ⟨rfl, rfl⟩ n).searchable hplaced
  · intro _
    refine ((evictFirst_searchesAt busy _).ends m ⟨rfl, rfl⟩).imp ?_ ?_
    · intro n after hafter
      exact (hafter.occupy n).searchable h
    · intro e after hafter
      exact hafter.searchable h

theorem endures_searchable : Machine.Endures (Searchable (π := π) count) where
  toIndifferent := indifferent_searchable
  evictFirst busy candidates := by
    constructor
    intro m h
    refine ((evictFirst_searchesAt busy candidates).ends m ⟨rfl, rfl⟩).imp ?_ ?_
    · exact fun _ _ hafter => hafter.searchable h
    · exact fun _ _ hafter => hafter.searchable h
  acquire := acquire_searchable
  releaseFrame m n h := (SearchesAt.releaseFrame ⟨rfl, rfl⟩ n).searchable h

end Machine

variable [ReplacementPolicy π]

/-- The machines that come of the first one, in whatever way. Operations are performed. Frames are also
acquired, cleared, shared, filled and given back by hand, and whatever is not a frame comes to be something
else. -/
inductive SearchRuns (first : Machine π) : Machine π → Prop
  | start : SearchRuns first first
  | perform {m after : Machine π} {op : Operation} {reply : Reply} (h : SearchRuns first m)
    (hp : op.perform m = .ok reply after) : SearchRuns first after
  | acquired {m after : Machine π} {busy : Option Nat} {answer : Except MemoryError Nat}
    (h : SearchRuns first m) (ha : acquire busy m = .ok answer after) : SearchRuns first after
  | cleared {m after : Machine π} {busy : Option Nat} {offered : List Nat} {answer : Except MemoryError Nat}
    (h : SearchRuns first m) (he : evictFirst busy offered m = .ok answer after) : SearchRuns first after
  | shared {m after : Machine π} {n parent child page va : Nat} {answer : Except MemoryError Unit}
    (h : SearchRuns first m) (hs : share n parent child page va m = .ok answer after) : SearchRuns first after
  | installed {m : Machine π} (h : SearchRuns first m) (n page s va : Nat) :
    SearchRuns first (m.install n page s va)
  | released {m : Machine π} (h : SearchRuns first m) (n s va : Nat) : SearchRuns first (m.release n s va)
  | abandoned {m : Machine π} (h : SearchRuns first m) (n : Nat) : SearchRuns first (m.abandon n)
  | filled {m : Machine π} (h : SearchRuns first m) (n : Nat) (contents : PageBytes) :
    SearchRuns first (m.setContents n contents)
  | elsewhere {m after : Machine π} (h : SearchRuns first m) (hframes : after.frames = m.frames) :
    SearchRuns first after

variable {first m : Machine π} {count : Nat} {device : Device} {policy : π} {files : FileStore}

theorem SearchRuns.searchable (h : SearchRuns first m) (hfirst : first.Searchable count) :
    m.Searchable count := by
  have hendures : Machine.Endures (Machine.Searchable (π := π) count) := Machine.endures_searchable
  induction h with
  | start => exact hfirst
  | perform _ hp ih => exact ((Operation.perform_endures hendures _).ends _ ih).of_ok hp
  | @acquired m after busy answer _ ha ih =>
    have hends := (hendures.acquire busy).run.ends m ih
    exact hends.of_ok ha
  | @cleared m after busy offered answer _ he ih =>
    have hends := (hendures.evictFirst busy offered).run.ends m ih
    exact hends.of_ok he
  | @shared m after n parent child page va answer _ hs ih =>
    have hshare : Attempt.Preserves (Machine.Searchable count) (share n parent child page va) :=
      shareWith_indifferent hendures.toIndifferent parent child page (some n)
    exact (hshare.run.ends m ih).of_ok hs
  | installed _ n page s va ih => exact hendures.keep ih (.install n page s va)
  | released _ n s va ih => exact hendures.release _ n s va ih
  | abandoned _ n ih => exact hendures.releaseFrame _ n ih
  | filled _ n contents ih => exact hendures.keep ih (.setContents n contents)
  | elsewhere _ hframes ih =>
    refine Machine.SearchesAt.searchable ⟨?_, ?_⟩ ih <;> rw [hframes]

omit [ReplacementPolicy π] in
theorem Machine.searchable_start : (Machine.start count device policy files).Searchable count := by
  have hsize : (Machine.start count device policy files).frames.size = count := Array.size_replicate
  refine ⟨hsize, ?_⟩
  unfold FrameTable.Positioned
  rw [hsize]
  rcases Nat.eq_zero_or_pos count with hzero | hpos
  · exact .inr ⟨hzero, rfl⟩
  · exact .inl hpos

/-- A frame that is found is taken, and that is all. -/
theorem acquire_of_place {busy : Option Nat} {n : Nat} {frames : FrameTable π}
    (hplace : m.frames.place? = some (n, frames)) :
    acquire busy m = .ok (.ok n) ({ m with frames := frames.occupy n }.report (.acquired n)) := by
  have hends : Attempt.Ends False (acquire busy) m (fun k after => k = n ∧
      after = { m with frames := frames.occupy n }.report (.acquired n)) fun _ _ => False := by
    apply acquire_of_room
    · intro k found hfound
      obtain ⟨rfl, rfl⟩ := Prod.mk.inj (Option.some.inj (hfound.symm.trans hplace))
      exact ⟨rfl, rfl⟩
    · intro hnone
      cases hnone.symm.trans hplace
  obtain ⟨k, after, hacquire, rfl, rfl⟩ := hends.succeeds
  exact hacquire

/-- Where no frame is found the position stays, whatever comes of it. -/
theorem acquire_of_full {busy : Option Nat} (hnone : m.frames.place? = none) :
    Attempt.Leaves (Machine.SearchesAt m.frames.size m.frames.position) (acquire busy) m := by
  apply acquire_of_room
  · intro k found hfound
    cases hnone.symm.trans hfound
  · intro _
    have hcleared := (Machine.evictFirst_searchesAt busy
      (ReplacementPolicy.candidates m.frames.policy)).ends m ⟨rfl, rfl⟩
    exact hcleared.imp (fun n after hafter => hafter.occupy n) fun _ _ hafter => hafter

/-- Whatever has happened, a search finds the first free frame in the order of the table, around which it
goes once from the position on, and moves the position just past it. It finds none only if all are in use,
and only then an acquisition puts a page out. -/
theorem next_fit_of_runs (h : SearchRuns (Machine.start count device policy files) m) :
    m.frames.size = count ∧ m.frames.Positioned ∧ m.frames.placed? = some m.frames.place? ∧
    (m.frames.place? = none ↔ m.Full) ∧
    (∀ n frames, m.frames.place? = some (n, frames) ↔
      m.frames.FirstFree n ∧ frames = { m.frames with position := m.frames.past n }) ∧
    ∀ busy, (∃ n frames, m.frames.place? = some (n, frames) ∧ acquire busy m =
        .ok (.ok n) ({ m with frames := frames.occupy n }.report (.acquired n))) ∨
      m.Full ∧ ∀ answer after, acquire busy m = .ok answer after →
        after.frames.position = m.frames.position := by
  obtain ⟨hsize, hpositioned⟩ := h.searchable Machine.searchable_start
  refine ⟨hsize, hpositioned, m.frames.placed?_eq, FrameTable.place?_eq_none, ?_, ?_⟩
  · exact fun n frames => FrameTable.place?_eq_some_iff hpositioned
  · intro busy
    cases hplace : m.frames.place? with
    | some found => exact .inl ⟨found.1, found.2, rfl, acquire_of_place hplace⟩
    | none =>
      refine .inr ⟨FrameTable.place?_eq_none.mp hplace, ?_⟩
      intro answer after hacquire
      have hstays : Run.Leaves (Machine.SearchesAt m.frames.size m.frames.position) (acquire busy).run m :=
        Run.ends_run.mpr (acquire_of_full hplace)
      exact (hstays.of_ok hacquire).2

/-- Of two frames, both taken, the last is given back. The next search starts at the first frame, which is in
use, and finds the last; the one after that starts at the first again. -/
theorem next_fit_after_wrap : ∃ m : Machine Fifo,
    SearchRuns (.start 2 { name := "swap", kind := .swap, size := 0, disk := .zeroed 0 } {} {}) m ∧
    m.frames.position = 0 ∧ m.frames.FirstFree 1 ∧ m.frames.past 1 = 0 ∧
    acquire none m = .ok (.ok 1)
      ({ m with frames := FrameTable.occupy { m.frames with position := 0 } 1 }.report (.acquired 1)) := by
  let first : Machine Fifo := .start 2 { name := "swap", kind := .swap, size := 0, disk := .zeroed 0 } {} {}
  let one : Machine Fifo :=
    { first with frames := FrameTable.occupy { first.frames with position := 1 } 0 }.report (.acquired 0)
  let two : Machine Fifo :=
    { one with frames := FrameTable.occupy { one.frames with position := 0 } 1 }.report (.acquired 1)
  have hone : acquire none first = .ok (.ok 0) one := by
    apply acquire_of_place
    exact (FrameTable.place?_eq_some_iff (by unfold FrameTable.Positioned; decide +kernel)).mpr
      ⟨⟨0, by decide +kernel, by decide +kernel, by decide +kernel, nofun⟩, by with_unfolding_all rfl⟩
  have htwo : acquire none one = .ok (.ok 1) two := by
    apply acquire_of_place
    exact (FrameTable.place?_eq_some_iff (by unfold FrameTable.Positioned; decide +kernel)).mpr
      ⟨⟨0, by decide +kernel, by decide +kernel, by decide +kernel, nofun⟩, by with_unfolding_all rfl⟩
  have hruns : SearchRuns first (two.abandon 1) := ((SearchRuns.start.acquired hone).acquired htwo).abandoned 1
  obtain ⟨-, -, -, -, hsearch, hacquire⟩ := next_fit_of_runs hruns
  have hfree : (two.abandon 1).frames.FirstFree 1 :=
    ⟨1, by decide +kernel, by decide +kernel, by decide +kernel, by decide +kernel⟩
  have hpast : (two.abandon 1).frames.past 1 = 0 := by decide +kernel
  refine ⟨two.abandon 1, hruns, by decide +kernel, hfree, hpast, ?_⟩
  rcases hacquire none with ⟨n, frames, hfound, htaken⟩ | ⟨hfull, -⟩
  · have hplace := (hsearch _ _).mpr ⟨hfree, rfl⟩
    rw [hpast] at hplace
    obtain ⟨rfl, rfl⟩ := Prod.mk.inj (Option.some.inj (hfound.symm.trans hplace))
    exact htaken
  · exact absurd (hfull 1 (by decide +kernel)) (by decide +kernel)

end DemandPaging
