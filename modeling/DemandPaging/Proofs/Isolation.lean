import DemandPaging.Proofs.Operations

/-! # Copy-on-write isolation

Frames are shared between spaces, but what is mapped writable is not: its page may be written and is
alone in its frame. Whatever is refused, evicted, copied or given up, no write by one process shows
in the memory of another.
-/
namespace DemandPaging

/-- The page that contains `va` in space `s` may be written, and is the only page in frame `n`. -/
structure Machine.OwnsFrame {π : Type} (m : Machine π) (s va n : Nat) : Prop where
  page : ∃ p, m.page? s va = some p ∧ p.writable = true ∧ p.frame = some n
  counted : (m.frames.frame n).refcount = 1
  only : ∀ {t a q}, m.page? t a = some q → q.frame = some n → t = s ∧ pageDown a = pageDown va

variable {π : Type} {m : Machine π} {s va n : Nat}

/-- A writable mapping leads to a frame that its page owns. -/
theorem Machine.ownsFrame_of_writable (h : m.memory.Valid) {e : PageTableEntry}
    (he : m.memory.entries s (pageDown va) = some e) (hw : e.has .writable = true) :
    m.OwnsFrame s va e.frame := by
  obtain ⟨p, hp, hf⟩ := h.sound.mapped he
  obtain ⟨hwritable, hcount⟩ := h.sound.exclusive he hw hp
  refine ⟨⟨p, hp, hwritable, hf⟩, hcount, fun {t a q} hq hg => ?_⟩
  obtain ⟨rfl, ha⟩ := h.sound.alone hcount hp hf hq hg
  exact ⟨rfl, ha.symm⟩

variable [ReplacementPolicy π]

/-- The frame that an access is given for writing is owned by the page written to. -/
theorem pageFor_ownsFrame (h : m.memory.Valid) (hs : s < m.spaces.size) (esp addr : Nat) :
    Attempt.Ends False (pageFor s esp addr true accessRounds) m
      (fun n after => after.OwnsFrame s addr n) fun _ _ => True := by
  refine (pageFor_ends h hs esp addr true _).imp ?_ fun _ _ _ => trivial
  rintro n after ⟨cs, v, -, hevolves, q, e, record, hq, hn, he, hw, hafter⟩
  have hvalid := h.course hevolves
  have hmarked : after.memory.Valid := by
    rw [hafter]
    exact ⟨hvalid.sound.remark he (e.frame_touch record true)
      fun hwritable => .inl (by rwa [PageTableEntry.writable_touch] at hwritable),
      hvalid.stowed.of_eq rfl (.refl _)⟩
  have hentry : after.memory.entries s (pageDown addr) = some (e.touch record true) := by
    rw [hafter]
    exact setAt_self
  have howns := Machine.ownsFrame_of_writable hmarked hentry
    ((e.writable_touch record true).trans (hw rfl))
  rwa [e.frame_touch, hvalid.sound.frame_eq hq hn he] at howns

/-- Whatever was asked of the machine so far, and whatever was refused: a writable mapping leads to
the frame of its page, which may be written and is the only page there. The same holds, wherever an
operation has got to, of the frame that it is given to write user bytes to. -/
theorem isolated_of_runs {count : Nat} {device : Device} {policy : π} {files : FileStore}
    {calls : List Call} (h : Runs Operation.Allowed (Machine.start count device policy files) calls m) :
    (∀ s va, (m.space s).directory.isWritable va = true →
      ∃ n, (m.space s).directory.frame? va = some n ∧ m.OwnsFrame s va n) ∧
    ∀ cs (m' : Machine π), Memory.Evolves cs m.memory m'.memory →
      ∀ s esp addr n after, s < m'.spaces.size →
        pageFor s esp addr true accessRounds m' = .ok (.ok n) after → after.OwnsFrame s addr n := by
  have hvalid := h.valid (Machine.valid_start ..) fun _ _ hop => hop
  constructor
  · intro s va hw
    simp only [PageDirectory.isWritable, PageDirectory.has, PageDirectory.frame?] at hw ⊢
    cases he : PageDirectory.entry? (m.space s).directory va with
    | none =>
      rw [he] at hw
      cases hw
    | some e =>
      rw [he] at hw
      exact ⟨e.frame, rfl, Machine.ownsFrame_of_writable hvalid he hw⟩
  · intro cs m' hevolves s esp addr n after hs hrun
    exact (pageFor_ownsFrame (hvalid.evolves hevolves) hs esp addr).of_ok hrun

/-- A page that was shared by a fork has a frame of its own once the child has written to it. -/
theorem isolated_after_fork : ∃ calls, ∃ m : Machine Fifo,
    Runs Operation.Allowed
      (.start 2 { name := "swap", kind := .swap, size := 0, disk := .zeroed 0 } {} {}) calls m ∧
    ∃ n, (m.space 1).directory.frame? 4096 = some n ∧ m.OwnsFrame 1 4096 n := by
  obtain ⟨calls, m, hrun, hw⟩ := Runs.of_afterAll Operation.Allowed
    (m := .start 2 { name := "swap", kind := .swap, size := 0, disk := .zeroed 0 } ({} : Fifo) {})
    [.createProcess 1, .insert 0 4096 true (.anonymous .zeroed none), .writeUser 0 4096 [7],
      .fork 0 2, .writeUser 1 4096 [8]]
    (fun m => (m.space 1).directory.isWritable 4096) (by decide +kernel)
  exact ⟨calls, m, hrun, (isolated_of_runs hrun).1 1 4096 hw⟩

end DemandPaging
