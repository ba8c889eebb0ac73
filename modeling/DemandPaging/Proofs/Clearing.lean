import DemandPaging.Proofs.Acquisition

/-! # Making room

A frame that is taken was free, or it has been cleared of the one page that was in it, which no other
page shared it with. Nothing else has moved, and when no frame could be had nothing has.
-/
namespace DemandPaging

namespace Memory
variable {π : Type} {u v w : Memory π} {n : Nat}

/-- No page, no mapping and no frame has changed. -/
structure Idles (v w : Memory π) : Prop where
  pages : w.pages = v.pages
  entries : w.entries = v.entries
  frames : w.frames = v.frames

/-- Frame `n` has been cleared: a page that was in it was alone there, and is in no frame now. Pages,
mappings and frames that it does not concern are as they were. -/
structure Clears (v w : Memory π) (n : Nat) : Prop where
  frames : ∀ k, k ≠ n → w.frames k = v.frames k
  others : ∀ t a, (∀ q, v.pages t a = some q → q.frame ≠ some n) →
    w.pages t a = v.pages t a ∧ w.entries t a = v.entries t a
  evicted : ∀ {t a q}, v.pages t a = some q → q.frame = some n →
    (v.frames n).refcount = 1 ∧ w.entries t a = none ∧ ∃ q', w.pages t a = some q' ∧ q'.frame = none

theorem FlushedShort.idles {s va : Nat} {source : Source} (h : v.FlushedShort s va n source w) :
    Idles v w := by
  cases h <;> exact ⟨rfl, rfl, rfl⟩

namespace Clears

/-- Nobody is in a frame that is free. -/
theorem of_free (h : v.Sound) (hn : (v.frames n).allocated = false) : Clears v v n where
  frames _ _ := rfl
  others _ _ _ := ⟨rfl, rfl⟩
  evicted hq hf := by
    have hpos := (h.resident_frame hq hf).1
    have hzero := (h.free_iff n).mp hn
    omega

/-- What the frame itself is like afterwards does not matter. -/
theorem congr (h : Clears u v n) (hp : w.pages = v.pages) (he : w.entries = v.entries)
    (hf : ∀ k, k ≠ n → w.frames k = v.frames k) : Clears u w n where
  frames k hk := (hf k hk).trans (h.frames k hk)
  others t a hout := by
    rw [hp, he]
    exact h.others t a hout
  evicted hq hqf := by
    rw [hp, he]
    exact h.evicted hq hqf

/-- A page that leaves a frame which it had to itself clears it. -/
theorem of_leave [ReplacementPolicy π] {s : Nat} {page : Page} {backing : Backing} {swap : SwapSpace}
    (hu : u.Sound) (hv : v.Sound) (hpages : v.pages = u.pages) (hframes : v.frames = u.frames)
    (hentries : ∀ t a, ¬(t = s ∧ a = page.va) → v.entries t a = u.entries t a)
    (hp : u.pages s page.va = some page) (hf : page.frame = some n) (hn : (u.frames n).refcount = 1) :
    Clears u { v.leave s n { page with backing } with swap } n := by
  have hleave := hv.leave_last (hpages ▸ hp) hf (hframes ▸ hn) backing
  have hout {t a : Nat} (hat : ∀ q, u.pages t a = some q → q.frame ≠ some n) :
      ¬(t = s ∧ a = page.va) := by
    rintro ⟨rfl, rfl⟩
    exact hat page hp hf
  refine ⟨fun k hk => ?_, fun t a hat => ⟨?_, ?_⟩, fun {t a q} hq hqf => ?_⟩
  · rw [hleave]
    exact (Function.update_of_ne hk ..).trans (congrFun hframes k)
  · rw [pages_leave, setAt_of_ne (hout hat), hpages]
  · rw [entries_leave, setAt_of_ne (hout hat), hentries t a (hout hat)]
  · obtain ⟨rfl, rfl⟩ := hu.alone hn hp hf hq hqf
    refine ⟨hn, ?_, { page with backing, frame := none }, ?_, rfl⟩
    · rw [entries_leave]
      exact setAt_self
    · rw [pages_leave]
      exact setAt_self

end Clears

end Memory

variable {π : Type} {m : Machine π} {s n : Nat} {page : Page}

/-- A page that could not be saved is as it was, and so is its frame. -/
theorem saveOut_idles (h : m.memory.Valid) (hp : m.memory.pages s page.va = some page) :
    Attempt.Ends True (saveOut page n s) m (fun _ _ => True) fun _ after =>
      m.memory.Idles after.memory := by
  unfold saveOut
  split
  · simp only [Attempt.ends_bind, Attempt.ends_get, Attempt.ends_pure]
    refine ((storePage_ends _ h.stowed.fits).weaken False.elim).imp (fun _ _ _ => trivial) ?_
    rintro e after ⟨-, swap, -, hafter⟩
    rw [hafter]
    exact ⟨rfl, rfl, rfl⟩
  · simp only [Attempt.ends_bind, Attempt.ends_pure]
    refine ((writeBack_ends _ (h.sound.kept hp).2.1).weaken False.elim).imp (fun _ _ _ => trivial) ?_
    rintro e after ⟨-, hshort, -⟩
    exact hshort.idles
  · exact ⟨rfl, rfl, rfl⟩

variable [ReplacementPolicy π]

theorem evictFirst_clears (h : m.memory.Valid) (busy : Option Nat) (candidates : List Nat) :
    Attempt.Ends True (evictFirst busy candidates) m
      (fun n after => m.memory.Clears after.memory n) fun _ after => m.memory.Idles after.memory := by
  refine evictFirst_of_victim candidates ⟨rfl, rfl, rfl⟩ fun n o page hv => ?_
  obtain ⟨ho, hp, hf, hn, -⟩ := Machine.victim?_resident h hv
  have hfails : Attempt.Ends True (evictPage n o page) m (fun _ _ => True) fun _ after =>
      m.memory.Idles after.memory := by
    simp only [evictPage, Attempt.ends_bind, Attempt.ends_modify]
    exact (saveOut_idles h hp).imp (fun _ _ _ => trivial) fun _ _ he => he
  refine (((evictPage_leaves h hp hf ho hn).weaken False.elim).and hfails).imp ?_ fun _ _ he => he.2
  rintro _ after ⟨⟨v, backing, swap, hsaving, -, hafter⟩, -⟩
  obtain ⟨hpages, hframes, -, hentries, hrests⟩ := Memory.Rests.of_saving hp hf hsaving
  rw [hafter]
  exact .of_leave h.sound (h.course hrests).sound hpages hframes hentries hp hf hn

/-- Taking a frame costs at most the page that was alone in it. -/
theorem acquire_clears (h : m.memory.Valid) (busy : Option Nat) :
    Attempt.Ends True (acquire busy) m
      (fun n after => m.memory.Clears after.memory n) fun _ after => m.memory.Idles after.memory := by
  have hoccupy {n : Nat} {m₁ : Machine π} (hc : m.memory.Clears m₁.memory n) (hn : n < m₁.frames.size) :
      m.memory.Clears ({ m₁ with frames := m₁.frames.occupy n } : Machine π).memory n := by
    rw [Machine.memory_occupy hn]
    exact hc.congr rfl rfl fun k hk => Function.update_of_ne hk ..
  refine acquire_of_room (fun n frames hplace => ?_) fun _ => ?_
  · obtain ⟨hfree, hlt, -, -⟩ := FrameTable.place?_eq_some hplace
    have hsame := Machine.memory_placed hplace
    have hclears : m.memory.Clears ({ m with frames } : Machine π).memory n := by
      rw [hsame]
      exact .of_free h.sound hfree
    exact hoccupy hclears (Nat.lt_of_lt_of_eq hlt (congrArg Memory.size hsame).symm)
  · refine (((evictFirst_ends h busy _).weaken False.elim).and (evictFirst_clears h busy _)).imp ?_
      fun _ _ he => he.2
    rintro n m₁ ⟨hy, hc⟩
    exact hoccupy hc hy.lt

end DemandPaging
