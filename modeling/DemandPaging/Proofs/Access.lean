import DemandPaging.Proofs.Copying

/-! # Access to user memory

A copy from or to user memory brings in page after page, each mapped as the access needs it. `Reads`
is a copy out of memory as it evolves, `Wrote` a copy into memory, and `Written` the changes that the
latter comes to.
-/
namespace DemandPaging
open Memory (Change)

/-- From `v`, an access to the page at `va`, which is in frame `n`, leads to `w`. -/
def Memory.Accessed {π : Type} (v w : Memory π) (s va n : Nat) (write : Bool) : Prop :=
  ∃ q e record, v.pages s va = some q ∧ q.frame = some n ∧ v.entries s va = some e ∧
    (write = true → e.has .writable = true) ∧ w = v.setEntry s va (some (e.touch record write))

variable {π : Type} [ReplacementPolicy π] {m : Machine π} {s va : Nat} {page : Page}

omit [ReplacementPolicy π] in
theorem mapped_of_needsFault (h : m.memory.Valid) {write : Bool} (hn : needsFault m s va write = false) :
    m.memory.Mapped s (pageDown va) write := by
  simp only [needsFault, Bool.or_eq_false_iff, PageDirectory.frame?, PageDirectory.isWritable,
    PageDirectory.has, Machine.entry?_eq] at hn
  cases he : m.memory.entries s (pageDown va) with
  | none =>
    rw [he] at hn
    cases hn.1
  | some e =>
    obtain ⟨q, hq, hf⟩ := h.sound.mapped he
    refine ⟨q, _, e, hq, hf, he, fun hw => ?_⟩
    simpa [he, hw] using hn.2

omit [ReplacementPolicy π] in
theorem accessed_of_mapped {addr : Nat} {write : Bool} (h : m.memory.Mapped s (pageDown addr) write) :
    ∃ q n, m.page? s (pageDown addr) = some q ∧ q.frame = some n ∧
      m.memory.Accessed (m.touch s (pageDown addr) write).memory s (pageDown addr) n write := by
  obtain ⟨q, n, e, hq, hn, he, hw⟩ := h
  have hpage : m.page? s (pageDown addr) = some q := by
    rw [Machine.page?_eq, pageDown_pageDown, hq]
  have hentry : m.memory.entries s (pageDown (pageDown addr)) = some e := by
    rw [pageDown_pageDown, he]
  have htouch := Machine.memory_touch write hentry
  rw [pageDown_pageDown] at htouch
  exact ⟨q, n, hpage, hn, q, e, _, hq, hn, he, hw, htouch⟩

/-- The page of an access ends up resident, and mapped as the access needs it. -/
theorem pageFor_ends (h : m.memory.Valid) (hs : s < m.spaces.size) (esp addr : Nat) (write : Bool)
    (rounds : Nat) :
    Attempt.Ends False (pageFor s esp addr write (rounds + 1)) m
      (fun n after => ∃ cs v, Grown s (pageDown addr) cs ∧
        Memory.Course (fun t a => write = true ∧ t = s ∧ a = pageDown addr) cs m.memory v ∧
        v.Accessed after.memory s (pageDown addr) n write)
      fun _ after => ∃ cs, Undone s (pageDown addr) cs ∧ Memory.Quiet cs m.memory after.memory := by
  have hnone : ((m.space s).directory.frame? (pageDown addr)).isNone =
      (m.memory.entries s (pageDown addr)).isNone := by
    rw [PageDirectory.frame?, Machine.entry?_eq, pageDown_pageDown, Option.isNone_map]
  simp only [pageFor, Attempt.ends_bind, Attempt.ends_get, Attempt.ends_ite]
  refine ⟨fun _ => ?_, fun hfault => ?_⟩
  · refine (handleFault_ends h hs _ esp).imp ?_ ?_
    · rintro _ m₁ ⟨cs, hcs, hevolves, -, hmapped⟩
      obtain ⟨q, n, hpage, hn, haccessed⟩ := accessed_of_mapped (hmapped fun _ => hnone)
      simp only [hpage, hn, Attempt.ends_bind, Attempt.ends_modify, Attempt.ends_pure]
      exact ⟨cs, m₁.memory, hcs, hevolves.mono fun t a hat => ⟨hat.1, hat.2.2.1, hat.2.2.2.1⟩, haccessed⟩
    · rintro e after ⟨cs, hcs, hevolves, -⟩
      exact ⟨cs, hcs, hevolves⟩
  · have hmapped := mapped_of_needsFault h (Bool.not_eq_true _ ▸ hfault)
    rw [pageDown_pageDown] at hmapped
    obtain ⟨q, n, hpage, hn, haccessed⟩ := accessed_of_mapped hmapped
    simp only [hpage, hn, Attempt.ends_bind, Attempt.ends_modify, Attempt.ends_pure]
    exact ⟨[], m.memory, .same, .refl _, haccessed⟩

theorem Memory.Accessed.read {v w : Memory π} {n : Nat} (h : v.Accessed w s va n false) :
    Memory.Rests v w ∧ ∃ q, w.pages s va = some q ∧ q.frame = some n := by
  obtain ⟨q, e, record, hq, hn, he, -, rfl⟩ := h
  exact ⟨.of_step (.touched record he) (.of_pages rfl fun _ => rfl), q, hq, hn⟩

/-- A chunk comes from the frame that its page is in afterwards. -/
theorem readChunk_ends (h : m.memory.Valid) (hs : s < m.spaces.size) (esp addr count : Nat) :
    Attempt.Ends False (readChunk s esp addr count) m
      (fun bytes after => ∃ cs q n, Grown s (pageDown addr) cs ∧
        Memory.Quiet cs m.memory after.memory ∧ after.memory.pages s (pageDown addr) = some q ∧
        q.frame = some n ∧ bytes = slice (after.memory.frames n).contents.toList (pageOffset addr) count)
      fun _ after => ∃ cs, Undone s (pageDown addr) cs ∧ Memory.Quiet cs m.memory after.memory := by
  simp only [readChunk, Attempt.ends_bind, Attempt.ends_get, Attempt.ends_pure]
  refine (pageFor_ends h hs esp addr false _).imp ?_ fun _ _ he => he
  rintro n after ⟨cs, v, hcs, hevolves, haccess⟩
  obtain ⟨hrests, q, hq, hn⟩ := haccess.read
  have hquiet : Memory.Quiet cs m.memory v := hevolves.mono fun _ _ hat => nomatch hat.1
  exact ⟨cs, q, n, hcs, hquiet.rests hrests, hq, hn, rfl⟩

/-- A chunk goes to the frame of its page, which may have moved there. -/
theorem writeChunk_ends (h : m.memory.Valid) (hs : s < m.spaces.size) (esp addr : Nat)
    (bytes : List UInt8) :
    Attempt.Ends False (writeChunk s esp addr bytes) m
      (fun _ after => ∃ cs v, Grown s (pageDown addr) cs ∧
        Memory.Course (fun t a => t = s ∧ a = pageDown addr) cs m.memory v ∧
        v.Alters (.write s (pageDown addr) (pageOffset addr) bytes) after.memory)
      fun _ after => ∃ cs, Undone s (pageDown addr) cs ∧ Memory.Quiet cs m.memory after.memory := by
  simp only [writeChunk, Attempt.ends_bind, Attempt.ends_modify]
  refine (pageFor_ends h hs esp addr true _).imp ?_ fun _ _ he => he
  rintro n after ⟨cs, v, hcs, hevolves, q, e, record, hq, hn, he, hw, hafter⟩
  have hvalid := h.course hevolves
  have hlt : n < after.frames.size := Machine.lt_frames hafter (hvalid.sound.resident_frame hq hn).2
  have hwrite := Machine.memory_setContents hlt (overwrite (after.contents n) (pageOffset addr) bytes)
  rw [Machine.contents_eq, hafter] at hwrite
  refine ⟨cs, v, hcs, hevolves.mono fun _ _ => And.right, ?_⟩
  rw [Machine.contents_eq, hafter, hwrite]
  exact .write record hq hn he (hw rfl)

/-- A copy of bytes from `addr` on, out of memory that evolves from one state to another. -/
inductive Reads (s : Nat) : Nat → Memory π → List UInt8 → Memory π → Prop
  | nil (addr : Nat) (v : Memory π) : Reads s addr v [] v
  | chunk {addr count n : Nat} {cs : List Change} {v u w : Memory π} {q : Page} {bytes : List UInt8}
    (hcs : Grown s (pageDown addr) cs) (he : Memory.Quiet cs v u)
    (hq : u.pages s (pageDown addr) = some q) (hn : q.frame = some n)
    (hpos : 0 < count) (hcount : count ≤ pageSize - pageOffset addr) (hr : Reads s (addr + count) u bytes w) :
    Reads s addr v (slice (u.frames n).contents.toList (pageOffset addr) count ++ bytes) w

theorem length_chunk (c : PageBytes) {addr count : Nat} (h : count ≤ pageSize - pageOffset addr) :
    (slice c.toList (pageOffset addr) count).length = count := by
  have hoff := pageOffset_lt addr
  rw [slice, List.length_take, List.length_drop, Vector.length_toList]
  simp only [pageSize] at h hoff
  omega

theorem chunkSize_le (addr count : Nat) : chunkSize addr count ≤ pageSize - pageOffset addr :=
  Nat.min_le_left ..

/-- A copy that reads all it was asked for, or fails at a page that it leaves as it was. -/
theorem readChunks_ends (h : m.memory.Valid) (hs : s < m.spaces.size) (esp addr count : Nat) :
    Run.Ends False (readChunks s esp addr count) m fun answer after => ∃ v cs va,
      Reads s addr m.memory answer.1 v ∧ Undone s va cs ∧ Memory.Quiet cs v after.memory ∧
      answer.1.length ≤ count ∧ (answer.2 = none → answer.1.length = count ∧ cs = []) := by
  induction count using Nat.strongRecOn generalizing m addr with
  | ind count ih =>
  rw [readChunks]
  split
  · rename_i hpos
    have hchunk := chunkSize_pos addr hpos
    have hle := chunkSize_le addr count
    have hcount : chunkSize addr count ≤ count := Nat.min_le_right ..
    simp only [Run.ends_bind, Run.ends_run]
    refine (readChunk_ends h hs esp addr (chunkSize addr count)).imp ?_ ?_
    · rintro bytes m₁ ⟨cs, q, n, hcs, hevolves, hq, hn, rfl⟩
      have hvalid := h.course hevolves
      have hlen := length_chunk (m₁.memory.frames n).contents hle
      simp only [Run.ends_pure]
      refine (ih (count - chunkSize addr count) (by omega) hvalid ?_ (addr + chunkSize addr count)).imp ?_
      · exact (hvalid.sound.kept hq).2.2.1
      · rintro ⟨rest, failure⟩ after ⟨v, us, va, hreads, hus, hv, hrest, hdone⟩
        refine ⟨v, us, va, .chunk hcs hevolves hq hn hchunk hle hreads, hus, hv, ?_, fun hok => ?_⟩
        · rw [List.length_append, hlen]
          omega
        · obtain ⟨hall, hnil⟩ := hdone hok
          refine ⟨?_, hnil⟩
          rw [List.length_append, hlen, hall]
          omega
    · rintro e after ⟨cs, hcs, hevolves⟩
      exact ⟨m.memory, cs, _, .nil .., hcs, hevolves, Nat.zero_le _, (by simp)⟩
  · rename_i hpos
    exact ⟨m.memory, [], 0, .nil .., .same, .refl _, Nat.zero_le _,
      fun _ => ⟨(Nat.eq_zero_of_not_pos hpos).symm, rfl⟩⟩

/-- The changes that a copy of bytes to `addr` on comes to. -/
inductive Written (s : Nat) : Nat → List UInt8 → List Change → Prop
  | nil (addr : Nat) : Written s addr [] []
  | chunk {addr : Nat} {cs rest : List Change} {chunk bytes : List UInt8}
    (hcs : Grown s (pageDown addr) cs) (hpos : 0 < chunk.length)
    (hlen : chunk.length ≤ pageSize - pageOffset addr)
    (hw : Written s (addr + chunk.length) bytes rest) :
    Written s addr (chunk ++ bytes) (cs ++ .write s (pageDown addr) (pageOffset addr) chunk :: rest)

/-- A copy of bytes to `addr` on, into memory that evolves from one state to another, and the changes
that it comes to. The page that a chunk goes to may first leave a frame that it shares. -/
inductive Wrote (s : Nat) : Nat → Memory π → List UInt8 → List Change → Memory π → Prop
  | nil (addr : Nat) (v : Memory π) : Wrote s addr v [] [] v
  | chunk {addr : Nat} {cs rest : List Change} {chunk bytes : List UInt8} {v u u' w : Memory π}
    (hcs : Grown s (pageDown addr) cs)
    (he : Memory.Course (fun t a => t = s ∧ a = pageDown addr) cs v u)
    (ha : u.Alters (.write s (pageDown addr) (pageOffset addr) chunk) u')
    (hpos : 0 < chunk.length) (hlen : chunk.length ≤ pageSize - pageOffset addr)
    (hw : Wrote s (addr + chunk.length) u' bytes rest w) :
    Wrote s addr v (chunk ++ bytes)
      (cs ++ .write s (pageDown addr) (pageOffset addr) chunk :: rest) w

namespace Wrote
variable {addr : Nat} {v w : Memory π} {bytes : List UInt8} {cs : List Change}

theorem written (h : Wrote s addr v bytes cs w) : Written s addr bytes cs := by
  induction h with
  | nil => exact .nil _
  | chunk hcs he ha hpos hlen _ ih => exact .chunk hcs hpos hlen ih

/-- Only pages that bytes go to move from one frame to another. -/
theorem course (h : Wrote s addr v bytes cs w) :
    Memory.Course (fun t a => t = s ∧ ∃ i < bytes.length, a = pageDown (addr + i)) cs v w := by
  induction h with
  | nil => exact .refl _
  | @chunk addr cs rest chunk bytes v u u' w hcs he ha hpos hlen _ ih =>
    have hfirst := (he.mono fun t a hat => (⟨hat.1, 0, by rw [List.length_append]; omega, hat.2⟩ :
      t = s ∧ ∃ i < (chunk ++ bytes).length, a = pageDown (addr + i))).change ha trivial
    have hboth := hfirst.trans (ih.mono fun t a ⟨ht, i, hi, hat⟩ =>
      ⟨ht, chunk.length + i, by rw [List.length_append]; omega, by rw [hat, Nat.add_assoc]⟩)
    rwa [List.append_assoc, List.singleton_append] at hboth

end Wrote

/-- A copy that writes all it was given, or stops at a page that it leaves as it was. -/
theorem writeChunks_ends (h : m.memory.Valid) (hs : s < m.spaces.size) (esp addr : Nat)
    (bytes : List UInt8) :
    Attempt.Ends False (writeChunks s esp addr bytes) m
      (fun _ after => ∃ cs, Wrote s addr m.memory bytes cs after.memory)
      fun _ after => ∃ k cs us va v, Wrote s addr m.memory (bytes.take k) cs v ∧ Undone s va us ∧
        Memory.Quiet us v after.memory := by
  induction hlen : bytes.length using Nat.strongRecOn generalizing m addr bytes with
  | ind count ih =>
  rw [writeChunks]
  split
  · rename_i hpos
    have hchunk := chunkSize_pos addr hpos
    have hle := chunkSize_le addr bytes.length
    have hcount : chunkSize addr bytes.length ≤ bytes.length := Nat.min_le_right ..
    simp only [Attempt.ends_bind]
    generalize chunkSize addr bytes.length = size at hchunk hle hcount
    have htake : (bytes.take size).length = size := List.length_take_of_le hcount
    refine (writeChunk_ends h hs esp addr (bytes.take size)).imp ?_ ?_
    · rintro _ m₁ ⟨cs, v, hcs, hcourse, ha⟩
      have hboth := hcourse.change ha trivial
      have hs₁ : s < m₁.spaces.size := Nat.lt_of_lt_of_eq hs (hboth.spaces_eq (by
        simpa [or_imp, forall_and, Change.Inside] using hcs.inside)).symm
      have hfirst {rest : List Change} {more : List UInt8} {w : Memory π}
          (hrest : Wrote s (addr + size) m₁.memory more rest w) :
          Wrote s addr m.memory (bytes.take size ++ more) _ w :=
        .chunk hcs hcourse ha (by rwa [htake]) (by rwa [htake]) (by rwa [htake])
      refine (ih _ (by rw [List.length_drop]; omega) (h.course hboth) hs₁ (addr + size)
        (bytes.drop size) rfl).imp ?_ ?_
      · rintro _ after ⟨rest, hrest⟩
        have := hfirst hrest
        rw [List.take_append_drop] at this
        exact ⟨_, this⟩
      · rintro e after ⟨k, rest, us, va, w, hrest, hus, hquiet⟩
        have := hfirst hrest
        rw [← List.take_add] at this
        exact ⟨size + k, _, us, va, w, this, hus, hquiet⟩
    · rintro e after ⟨cs, hcs, hquiet⟩
      exact ⟨0, [], cs, _, m.memory, .nil .., hcs, hquiet⟩
  · rename_i hpos
    obtain rfl := List.length_eq_zero_iff.mp (Nat.eq_zero_of_not_pos hpos)
    exact ⟨[], .nil ..⟩

theorem copyFromUser_ends (h : m.memory.Valid) (hs : s < m.spaces.size) (esp addr count : Nat) :
    Run.Ends False (copyFromUser s esp addr count) m fun answer after => ∃ v cs va,
      Reads s addr m.memory answer.1 v ∧ Undone s va cs ∧ Memory.Quiet cs v after.memory ∧
      answer.1.length ≤ count ∧ (answer.2 = none → answer.1.length = count ∧ cs = []) := by
  simp only [copyFromUser, Run.ends_ite, Run.ends_pure]
  exact ⟨fun _ => readChunks_ends h hs esp addr count,
    fun _ => ⟨m.memory, [], 0, .nil .., .same, .refl _, Nat.zero_le _, (by simp)⟩⟩

theorem copyToUser_ends (h : m.memory.Valid) (hs : s < m.spaces.size) (esp addr : Nat)
    (bytes : List UInt8) :
    Attempt.Ends False (copyToUser s esp addr bytes) m
      (fun _ after => ∃ cs, Wrote s addr m.memory bytes cs after.memory)
      fun _ after => ∃ k cs us va v, Wrote s addr m.memory (bytes.take k) cs v ∧ Undone s va us ∧
        Memory.Quiet us v after.memory := by
  simp only [copyToUser, Attempt.ends_ite, Attempt.ends_throw]
  exact ⟨fun _ => writeChunks_ends h hs esp addr bytes,
    fun _ => ⟨0, [], [], 0, m.memory, .nil .., .same, .refl _⟩⟩

/-! ## What copies keep -/

namespace Machine

omit [ReplacementPolicy π] in
theorem pages_touch (write : Bool) (t a : Nat) :
    (m.touch s va write).memory.pages t a = m.memory.pages t a := by
  simp only [memory, touch, space_modifySpace]
  split
  · rename_i h
    rw [h.1]
    cases write <;> simp only [Space.recordAccess, Bool.false_eq_true, if_false, if_true, Space.setDirty] <;>
      split <;> rfl
  · rfl

omit [ReplacementPolicy π] in
theorem valid_touch {n : Nat} (h : m.memory.Valid) (write : Bool) (hp : m.page? s va = some page)
    (hf : page.frame = some n) : (m.touch s va write).memory.Valid := by
  obtain ⟨e, he⟩ := Option.isSome_iff_exists.mp (h.sound.resident hp hf)
  rw [memory_touch write he]
  refine ⟨h.sound.remark he (PageTableEntry.frame_touch ..) fun hw => .inl ?_, h.stowed.of_eq rfl (.refl _)⟩
  rwa [PageTableEntry.writable_touch] at hw

omit [ReplacementPolicy π] in
theorem valid_setContents (h : m.memory.Valid) (n : Nat) (c : PageBytes) :
    (m.setContents n c).memory.Valid := by
  by_cases hn : n < m.frames.size
  · rw [memory_setContents hn c]
    exact ⟨h.sound.refill n c, h.stowed.of_eq rfl (.refl _)⟩
  · have hframes : ¬n < m.frames.frames.size := hn
    have hsame : m.setContents n c = m := by
      simp [setContents, FrameTable.setContents, FrameTable.modify, Array.modify, Array.modifyM, hframes]
    rwa [hsame]

/-- `I` survives all that a copy between the kernel and space `s` does: its faults, the marks that it
leaves and the bytes that it writes. -/
structure Survives (s : Nat) (I : Machine π → Prop) : Prop where
  fault : ∀ fault esp, Attempt.Preserves I (handleFault s fault esp : Attempt π Unit)
  touch : ∀ m addr write page n, I m → m.page? s addr = some page → page.frame = some n →
    I (m.touch s addr write)
  contents : ∀ m n c, I m → I (m.setContents n c)

namespace Survives
variable {I : Machine π → Prop}

theorem pageFor (h : Survives s I) (esp addr : Nat) (write : Bool) (rounds : Nat) :
    Attempt.Preserves I (pageFor s esp addr write rounds : Attempt π Nat) := by
  induction rounds with
  | zero => exact Attempt.preserves_abort _
  | succ rounds ih =>
    constructor
    intro m hm
    -- Faulted in or not, what follows is the same.
    have hfaulted {R : Machine π → Prop} {c : Prop} (fault : PageFault) (hrest : ∀ m₁, I m₁ → R m₁) :
        (c → Attempt.Ends True (handleFault s fault esp) m (fun _ => R) fun _ => I) ∧ (¬c → R m) :=
      ⟨fun _ => ((h.fault fault esp).ends m hm).imp (fun _ => hrest) fun _ _ he => he,
        fun _ => hrest m hm⟩
    simp only [DemandPaging.pageFor, Attempt.ends_bind, Attempt.ends_get, Attempt.ends_ite]
    refine hfaulted _ fun m₁ h₁ => ?_
    cases hp : m₁.page? s (pageDown addr) with
    | none => exact h₁
    | some page =>
      cases hf : page.frame with
      | none =>
        simp only [hf]
        exact ih.ends m₁ h₁
      | some n =>
        simp only [hf, Attempt.ends_bind, Attempt.ends_modify, Attempt.ends_pure]
        exact h.touch m₁ _ write page n h₁ hp hf

theorem readChunk (h : Survives s I) (esp addr count : Nat) :
    Attempt.Preserves I (readChunk s esp addr count : Attempt π _) := by
  apply (h.pageFor esp addr false _).bind
  exact fun _ => Attempt.preserves_get.bind fun _ => Attempt.preserves_pure _

theorem writeChunk (h : Survives s I) (esp addr : Nat) (bytes : List UInt8) :
    Attempt.Preserves I (writeChunk s esp addr bytes : Attempt π Unit) := by
  apply (h.pageFor esp addr true _).bind
  exact fun n => Attempt.preserves_modify fun m hm => h.contents m n _ hm

theorem readChunks (h : Survives s I) (esp addr count : Nat) :
    Run.Preserves I (readChunks s esp addr count : Run π _) := by
  induction count using Nat.strongRecOn generalizing addr with
  | ind count ih =>
    rw [DemandPaging.readChunks]
    split
    · rename_i hpos
      have hsize := chunkSize_pos addr hpos
      refine (h.readChunk esp addr _).run.bind fun answer => ?_
      split
      · exact Run.preserves_pure _
      · exact (ih _ (by omega) _).bind fun _ => Run.preserves_pure _
    · exact Run.preserves_pure _

theorem writeChunks (h : Survives s I) (esp addr : Nat) (bytes : List UInt8) :
    Attempt.Preserves I (writeChunks s esp addr bytes : Attempt π Unit) := by
  induction hlength : bytes.length using Nat.strongRecOn generalizing addr bytes with
  | ind count ih =>
    rw [DemandPaging.writeChunks]
    split
    · rename_i hpos
      have hsize := chunkSize_pos addr hpos
      refine (h.writeChunk esp addr _).bind fun _ => ih _ ?_ _ _ rfl
      rw [List.length_drop]
      omega
    · exact Attempt.preserves_pure _

theorem copyFromUser (h : Survives s I) (esp addr count : Nat) :
    Run.Preserves I (copyFromUser s esp addr count : Run π _) := by
  unfold DemandPaging.copyFromUser
  split
  · exact h.readChunks esp addr count
  · exact Run.preserves_pure _

theorem copyToUser (h : Survives s I) (esp addr : Nat) (bytes : List UInt8) :
    Attempt.Preserves I (copyToUser s esp addr bytes : Attempt π Unit) := by
  unfold DemandPaging.copyToUser
  split
  · exact h.writeChunks esp addr bytes
  · exact Attempt.preserves_throw _

end Survives

end Machine

end DemandPaging
