import DemandPaging.Proofs.WrittenPages

/-! # Dirty marks

A page of a file that was written to stays mapped dirty until its bytes are back in the file, however
it is evicted, shared, copied or remapped. The exception is a fault that gives a shared page a frame
of its own: it takes the bytes along and leaves the mark behind.
-/
namespace DemandPaging
open Memory (Change)

namespace Memory
variable {π : Type} {u v w : Memory π} {s va serial : Nat} {source : Source} {cs cs' : List Change}

/-- The page of a file with this serial is at `va`, and is mapped dirty. -/
def Marked (v : Memory π) (s va serial : Nat) (source : Source) : Prop :=
  (∃ p, v.pages s va = some p ∧ p.serial = serial ∧ p.isFile = true ∧ p.source = source) ∧ v.Dirty s va

theorem Marked.of_outline {p q : Page} (hq : w.pages s va = some q) (houtline : q.outline = p.outline)
    (hserial : p.serial = serial) (hfile : p.isFile = true) (hsource : p.source = source)
    (hd : w.Dirty s va) : w.Marked s va serial source := by
  simp only [Page.outline, Prod.mk.injEq] at houtline
  obtain ⟨hserial', -, -, hsource', hfile'⟩ := houtline
  exact ⟨⟨q, hq, hserial' ▸ hserial, hfile' ▸ hfile, hsource' ▸ hsource⟩, hd⟩

variable [ReplacementPolicy π]

/-- On the way from `v` to `w` within the scope the page, while it was mapped dirty, was written to its
file in full. -/
def Scope.Saves (S : Scope) (v w : Memory π) (s va serial : Nat) (source : Source) : Prop :=
  ∃ u u', S.Passes v u ∧ u.Marked s va serial source ∧ Step u u' ∧ u.WrittenBack u' s va ∧ S.Passes u' w

/-- What has become in `w` of a page of a file that was mapped dirty in `v`. -/
inductive Scope.Fate (S : Scope) (v w : Memory π) (s va serial : Nat) (source : Source) : Prop
  | gone (h : w.Gone s va serial)
  | marked (h : w.Marked s va serial source)
  | saved (h : S.Saves v w s va serial source)

namespace Scope
variable {S : Scope}

theorem Saves.passes (h : S.Saves v u s va serial source) (hp : S.Passes u w) :
    S.Saves v w s va serial source := by
  obtain ⟨x, x', hx, hmarked, hs, hback, hu⟩ := h
  exact ⟨x, x', hx, hmarked, hs, hback, hu.trans hp⟩

theorem Saves.of_later (hp : S.Passes v u) (h : S.Saves u w s va serial source) :
    S.Saves v w s va serial source := by
  obtain ⟨x, x', hx, hmarked, hs, hback, hw⟩ := h
  exact ⟨x, x', hp.trans hx, hmarked, hs, hback, hw⟩

namespace Fate

/-- A step clears a mark only by a write-back. -/
theorem step (h : S.Fate v u s va serial source) (hp : S.Passes v u) (hu : u.Sound) (hs : Step u w)
    (hk : Steady S.moves u w) (hstay : Stays u w s va) : S.Fate v w s va serial source := by
  cases h with
  | gone h => exact .gone (h.step hs)
  | saved h => exact .saved (h.passes ((Passes.refl u).step hs hk))
  | marked h =>
    obtain ⟨⟨p, hpage, hserial, hfile, hsource⟩, hd⟩ := id h
    obtain ⟨q, hq, houtline⟩ := (Evolves.of_step hs).exists_page hpage
    rcases hs.dirty_or hu hpage hfile hstay hd with hdirty | hback
    · exact .marked (.of_outline hq houtline hserial hfile hsource hdirty)
    · -- This step is the write-back, and nothing has to come after it.
      exact .saved ⟨u, w, hp, h, hs, hback, .refl w⟩

theorem change {c : Change} (h : S.Fate v u s va serial source) (hu : u.Sound) (ha : u.Alters c w)
    (hset : c.Settled u) (hc : S.brings c) : S.Fate v w s va serial source := by
  cases h with
  | gone h => exact .gone (h.change ha)
  | saved h => exact .saved (h.passes ((Passes.refl u).change ha hset hc))
  | marked h =>
    obtain ⟨⟨p, hp, rfl, hfile, hsource⟩, hd⟩ := h
    rcases ha.page_cases s va with ⟨hsame, hother⟩ | ⟨hnone, -⟩ | ⟨-, -, -, -, hnone⟩
    · exact .marked ⟨⟨p, hsame.trans hp, rfl, hfile, hsource⟩, ha.dirty_of hu hd hother⟩
    · cases hnone.symm.trans hp
    · refine .gone ⟨Nat.lt_of_lt_of_le (hu.kept hp).2.2.2 ha.nextSerial_le, ?_⟩
      rintro ⟨q, hq, -⟩
      cases hnone.symm.trans hq

/-- What becomes of a page that is still marked half-way becomes of it altogether. -/
theorem trans (h : S.Fate v u s va serial source) (hp : S.Passes v u) (hp' : S.Passes u w)
    (hrest : u.Marked s va serial source → S.Fate u w s va serial source) :
    S.Fate v w s va serial source := by
  cases h with
  | gone h =>
    obtain ⟨_, hevolves⟩ := hp'.evolves
    exact .gone (h.evolves hevolves)
  | saved h => exact .saved (h.passes hp')
  | marked h =>
    cases hrest h with
    | gone h => exact .gone h
    | marked h => exact .marked h
    | saved h => exact .saved (h.of_later hp)

end Fate

end Scope

/-- A page that is not moved keeps its mark or is written back. -/
theorem Course.fate {S : Scope} {moves : Nat → Nat → Prop} (h : Course moves cs v w) (hv : v.Sound)
    (hm : v.Marked s va serial source) (hstay : ¬moves s va) (hmoves : ∀ t a, moves t a → S.moves t a)
    (hcs : ∀ c ∈ cs, S.brings c) : S.Fate v w s va serial source := by
  induction h with
  | refl => exact .marked hm
  | step hcourse hs hk ih =>
    have hu := hv.evolves hcourse.evolves
    exact (ih hv hm hcs).step ⟨_, hcourse.mono hmoves, hcs⟩ hu hs (hk.mono hmoves) (hk.stays hstay)
  | change hcourse ha hset ih =>
    obtain ⟨hcs, hc⟩ := List.forall_mem_append.mp hcs
    exact (ih hv hm hcs).change (hv.evolves hcourse.evolves) ha hset (hc _ (List.mem_singleton_self _))

/-- A page that is written to is dirty, even if it had to leave a frame that others use. -/
theorem Alters.fate_of_write {S : Scope} {start : Nat} {bytes : List UInt8} (hv : v.Sound)
    (hm : v.Marked s va serial source) (hp : S.Passes v u)
    (ha : u.Alters (.write s va start bytes) w) : S.Fate v w s va serial source := by
  obtain ⟨⟨p, hpage, rfl, hfile, hsource⟩, -⟩ := hm
  obtain ⟨_, hevolves⟩ := hp.evolves
  rcases hevolves.outline_or_gone hv hpage with ⟨q, hq, houtline⟩ | hgone
  · cases ha with
    | @write t a n start bytes page e record hpage hf hentry hwritable =>
      refine .marked (.of_outline hq houtline rfl hfile hsource ⟨_, setAt_self, ?_⟩)
      rw [PageTableEntry.dirty_touch, Bool.true_or]
  · exact .gone (hgone.change ha)

end Memory

variable {π : Type} [ReplacementPolicy π] {v w : Memory π} {s va t addr serial : Nat} {source : Source}

/-- The scope of an operation that copies these bytes to `addr` on. -/
structure Memory.Scope.Covers (S : Memory.Scope) (t addr : Nat) (bytes : List UInt8) : Prop where
  moves : ∀ i < bytes.length, S.moves t (pageDown (addr + i))
  stack : ∀ {c : Change}, c.OfStack t → S.brings c
  writes : ∀ {c : Change}, c.Puts t addr bytes → S.brings c

section Copies
variable {S : Memory.Scope} {bytes chunk : List UInt8} {cs : List Change} {k : Nat}

theorem Memory.Scope.Covers.later (h : S.Covers t addr (chunk ++ bytes)) :
    S.Covers t (addr + chunk.length) bytes where
  moves i hi := by
    rw [Nat.add_assoc]
    exact h.moves _ (by rw [List.length_append]; omega)
  stack := h.stack
  writes hc := h.writes (hc.later chunk)

theorem Memory.Scope.Covers.of_take (h : S.Covers t addr bytes) : S.Covers t addr (bytes.take k) where
  moves i hi := h.moves i (Nat.lt_of_lt_of_le hi (List.length_take_le' k bytes))
  stack := h.stack
  writes hc := h.writes hc.of_take

theorem Wrote.passes (h : Wrote t addr v bytes cs w) (hS : S.Covers t addr bytes) : S.Passes v w := by
  refine ⟨cs, h.course.mono ?_, fun c hc => (h.written.brings c hc).elim hS.stack hS.writes⟩
  rintro _ _ ⟨rfl, i, hi, rfl⟩
  exact hS.moves i hi

/-- Bytes that go to a page leave it dirty, and those that go elsewhere leave its mark alone. -/
theorem Wrote.fate (h : Wrote t addr v bytes cs w) (hS : S.Covers t addr bytes) (hv : v.Sound)
    (hm : v.Marked s va serial source) : S.Fate v w s va serial source := by
  induction h with
  | nil => exact .marked hm
  | @chunk addr cs rest chunk bytes v u u' w hcs he ha hpos hlen hw ih =>
    have hu := hv.evolves he.evolves
    have hmoves : ∀ b c, b = t ∧ c = pageDown addr → S.moves b c := by
      rintro _ _ ⟨rfl, rfl⟩
      exact hS.moves 0 (by rw [List.length_append]; omega)
    have hbrings : ∀ c ∈ cs, S.brings c := fun c hc => hS.stack (hcs.ofStack c hc)
    have hwrite : S.brings (.write t (pageDown addr) (pageOffset addr) chunk) :=
      hS.writes (.first hpos (List.prefix_append chunk bytes))
    have hbefore : S.Passes v u := ⟨cs, he.mono hmoves, hbrings⟩
    -- Getting the frame of the page that is written to may clear its own mark, and no other.
    have hfirst : S.Fate v u' s va serial source := by
      by_cases hat : s = t ∧ va = pageDown addr
      · obtain ⟨rfl, rfl⟩ := hat
        exact ha.fate_of_write hv hm hbefore
      · exact (he.fate hv hm hat hmoves hbrings).change hu ha trivial hwrite
    exact hfirst.trans (hbefore.change ha trivial hwrite) (hw.passes hS.later) (ih hS.later (hu.change ha))

theorem Wrote.fate_undone {us : List Change} {u : Memory π} {a : Nat} (h : Wrote t addr v bytes cs u)
    (hS : S.Covers t addr bytes) (hus : Undone t a us) (hquiet : Memory.Quiet us u w)
    (hv : v.Sound) (hm : v.Marked s va serial source) : S.Fate v w s va serial source := by
  have hu := hv.evolves h.course.evolves
  have hundone : ∀ c ∈ us, S.brings c := fun c hc => hS.stack (hus.ofStack c hc)
  apply (h.fate hS hv hm).trans (h.passes hS) ⟨us, .of_quiet hquiet, hundone⟩
  intro hmarked
  exact hquiet.fate hu hmarked id (fun _ _ => False.elim) hundone

end Copies

/-- Whatever is asked, a dirty page of a file is gone, dirty or saved, unless a fault unshares it. -/
theorem Operation.Comes.fate {op : Operation} {reply : Reply} (h : op.Comes v w reply) (hv : v.Sound)
    (hm : v.Marked s va serial source) (hshared : ¬op.Unshares v s va) :
    (op.scope v).Fate v w s va serial source := by
  cases op with
  | writeUser t addr bytes | copyTo t esp addr bytes =>
    obtain ⟨k, cs, us, a, u, hwrote, hus, hquiet, -⟩ := h
    refine hwrote.fate_undone (Memory.Scope.Covers.of_take ?_) hus hquiet hv hm
    exact ⟨fun i hi => .inl ⟨rfl, i, hi, rfl⟩, .inl, .inr⟩
  | _ =>
    obtain ⟨cs, hcourse, hbrings⟩ := h.passes
    apply hcourse.fate hv hm _ (fun _ _ => id) hbrings
    rintro (htarget | hunshares)
    · exact htarget
    · exact hshared hunshares

/-- A page that is saved is written to a file that takes its bytes. -/
theorem Memory.Scope.Saves.takes {S : Memory.Scope} (h : S.Saves v w s va serial source)
    (hpos : 0 < source.readBytes) : ∃ f, source.file = some f ∧ ¬v.files.Shut f := by
  obtain ⟨u, u', hpasses, ⟨⟨p, hp, -, -, rfl⟩, -⟩, -, hback, -⟩ := h
  obtain ⟨q, n, f, files, hq, -, -, hf, -, hwrite, -⟩ := hback
  obtain rfl := Option.some.inj (hp.symm.trans hq)
  refine ⟨f, hf, fun hshut => ?_⟩
  have hnone := ((hpasses.shut hshut).of_writeAt hwrite).1
  omega

section Runs
variable {m after : Machine π} {calls : List Call}

/-- The operation writes a dirty page of a file, in full, to its place in the file. -/
structure Operation.SavesPage (op : Operation) (m after : Machine π) (s va : Nat) (p : Page) : Prop where
  /-- On the way all bytes that the page had go to the file. -/
  passed : (op.scope m.memory).Saves m.memory after.memory s va p.serial p.source
  /-- The operation would come to something else if the file took no bytes. -/
  written : 0 < p.source.readBytes → ∃ f, p.source.file = some f ∧ op.WritesTo m f
  /-- Where no other page has bytes to write back over it, the file has in the end what the page held, with
  what the operation itself had put there. -/
  shown : m.memory.Lone op.Target s va p.source → (op.Target s va → m.memory.Alone s va) →
    ∀ n, p.frame = some n → ∃ k, p.source.shown after.files =
      op.puts s va k ((m.contents n).toList.take p.source.readBytes)

/-- A page whose mark is gone afterwards was written to its file by the operation. -/
theorem Operation.writesTo_of_clean {op : Operation} {reply : Reply} {p q : Page}
    (hm : m.memory.Valid) (hop : op.Allowed m) (hp : op.perform m = .ok reply after)
    (hmarked : m.memory.Marked s va p.serial p.source)
    (hq : after.memory.pages s va = some q) (hsame : q.serial = p.serial)
    (hclean : ¬after.memory.Dirty s va) (hshared : ¬op.Unshares m.memory s va)
    (hpos : 0 < p.source.readBytes) : ∃ f, p.source.file = some f ∧ op.WritesTo m f := by
  have hsaved {u w : Memory π} (hfate : (op.scope u).Fate u w s va p.serial p.source)
      (hpages : w.pages = after.memory.pages) (hentries : w.entries = after.memory.entries) :
      (op.scope u).Saves u w s va p.serial p.source := by
    cases hfate with
    | gone hgone => exact absurd ⟨q, hpages ▸ hq, hsame⟩ hgone.absent
    | marked hmarked =>
      obtain ⟨-, e, he, hd⟩ := hmarked
      exact absurd ⟨e, hentries ▸ he, hd⟩ hclean
    | saved hsaves => exact hsaves
  have hcomes := (Operation.perform_ends hm hop).of_ok hp
  obtain ⟨f, hf, -⟩ := (hsaved (hcomes.fate hm.sound hmarked hshared) rfl rfl).takes hpos
  refine ⟨f, hf, ?_⟩
  by_contra hnot
  -- Where the file takes no bytes the operation comes to the same, and the mark could not have gone.
  have hsealed := Operation.comes_sealed hm hop hp hnot
  have hsound : (m.memory.sealed f).Sound := (hm.elsewhere rfl (m.files.sealed f)).sound
  obtain ⟨g, hg, htakes⟩ := (hsaved (hsealed.fate hsound hmarked hshared) rfl rfl).takes hpos
  obtain rfl := Option.some.inj (hf.symm.trans hg)
  exact htakes FileStore.shut_sealed

/-- Whatever was asked of the machine so far, and whatever is asked next: a page of a file that was
dirty before, and is still there afterwards, is still dirty, unless the operation wrote all its bytes to
their place in the file, or it was a fault that moved the page out of a frame that others use. -/
theorem dirty_kept_of_runs {count : Nat} {device : Device} {policy : π} {files : FileStore}
    (h : Runs Operation.Allowed (Machine.start count device policy files) calls m) {op : Operation}
    {reply : Reply} (hop : op.Allowed m) (hp : op.perform m = .ok reply after) {p q : Page}
    (hpage : m.page? s va = some p) (hfile : p.isFile = true)
    (hdirty : (m.space s).directory.isDirty va = true) (hstill : after.page? s va = some q)
    (hsame : q.serial = p.serial) (hshared : ¬op.Unshares m.memory s (pageDown va)) :
    (after.space s).directory.isDirty va = true ∨ op.SavesPage m after s (pageDown va) p := by
  have hvalid := h.valid (Machine.valid_start ..) fun _ _ hop => hop
  have hcomes := (Operation.perform_ends hvalid hop).of_ok hp
  rw [Machine.isDirty_iff] at hdirty ⊢
  by_cases hclean : after.memory.Dirty s (pageDown va)
  · exact .inl hclean
  have hmarked : m.memory.Marked s (pageDown va) p.serial p.source := ⟨⟨p, hpage, rfl, hfile, rfl⟩, hdirty⟩
  refine .inr ⟨?_, Operation.writesTo_of_clean hvalid hop hp hmarked hstill hsame hclean hshared, ?_⟩
  · cases hcomes.fate hvalid.sound hmarked hshared with
    | gone hgone => exact absurd ⟨q, hstill, hsame⟩ hgone.absent
    | marked hstays => exact absurd hstays.2 hclean
    | saved hsaves => exact hsaves
  · intro hlone halone n hn
    have hholds : m.memory.Holds s (pageDown va) p.source ((m.contents n).toList.take p.source.readBytes) := by
      refine ⟨fun hr => ?_, fun hr hk => ?_, fun hnot => absurd hdirty hnot⟩
      · obtain rfl := Option.some.inj (hr.symm.trans hpage)
        exact ⟨hfile, rfl⟩
      · obtain rfl := Option.some.inj (hr.symm.trans hpage)
        obtain rfl := Option.some.inj (hk.symm.trans hn)
        rfl
    have hsize : ((m.contents n).toList.take p.source.readBytes).length ≤ pageSize :=
      Nat.le_trans (List.length_take_le ..) p.source.readBytes_le
    obtain ⟨k, hafter⟩ := hcomes.holds_puts hvalid.sound (pageDown_mod va) hholds hsize
      ⟨p, q, hpage, hstill, hsame⟩ (fun _ => hshared) hlone halone
    exact ⟨k, hafter.saved hclean⟩

/-- A page that was written to is saved when a read of another page needs its frame. -/
theorem dirty_saved_by_eviction : ∃ calls, ∃ m : Machine Fifo,
    Runs Operation.Allowed (.start 1 { name := "swap", kind := .swap, size := 0, disk := .zeroed 0 } {}
      { nodes := #[{ contents := [1, 2, 3] }] }) calls m ∧
    ∃ reply after p, (Operation.readUser 0 8192 1).perform m = .ok reply after ∧
      m.page? 0 65536 = some p ∧ (m.files.node 0).contents = [1, 2, 3] ∧
      (Operation.readUser 0 8192 1).SavesPage m after 0 65536 p ∧
      (after.files.node 0).contents = [7, 2, 3] := by
  obtain ⟨calls, m, hrun, hcheck⟩ := Runs.of_afterAll Operation.Allowed
    (m := .start 1 { name := "swap", kind := .swap, size := 0, disk := .zeroed 0 } ({} : Fifo)
      { nodes := #[{ contents := [1, 2, 3] }] })
    [.createProcess 1, .map 0 65536 3 true 0 0, .writeUser 0 65536 [7],
      .insert 0 8192 true (.anonymous .zeroed none)]
    (fun m => decide ((Operation.readUser 0 8192 1).Allowed m) && (m.space 0).directory.isDirty 65536 &&
      decide ((m.files.node 0).contents = [1, 2, 3]) &&
      ((Operation.readUser 0 8192 1).outcome? m).any fun found : Reply × Machine Fifo =>
        !(found.2.space 0).directory.isDirty 65536 &&
        decide ((found.2.files.node 0).contents = [7, 2, 3]) && (m.page? 0 65536).any fun p : Page =>
          p.isFile && (found.2.page? 0 65536).any fun q : Page => decide (q.serial = p.serial))
    (by decide +kernel)
  simp only [Bool.and_eq_true, Option.any_eq_true, Bool.not_eq_true', decide_eq_true_eq] at hcheck
  obtain ⟨⟨⟨hop, hdirty⟩, hbefore⟩, ⟨reply, after⟩, hfound, ⟨hclean, hafter⟩, p, hpage, hfile, q, hq,
    hsame⟩ := hcheck
  have hp := Operation.perform_of_outcome? hfound
  refine ⟨calls, m, hrun, reply, after, p, hp, hpage, hbefore, ?_, hafter⟩
  rcases dirty_kept_of_runs hrun hop hp hpage hfile hdirty hq hsame id with hstill | hsaves
  · cases hclean.symm.trans hstill
  · exact hsaves

/-- A fork shares the frame of a page that was written to. A fault on the page then moves its bytes to
a frame of its own, where it is clean, and none of them have been written to the file. -/
theorem dirty_lost_by_unsharing : ∃ calls, ∃ m : Machine Fifo,
    Runs Operation.Allowed (.start 2 { name := "swap", kind := .swap, size := 0, disk := .zeroed 0 } {}
      { nodes := #[{ contents := [1, 2, 3] }] }) calls m ∧
    ∃ fault reply after p q n, (Operation.pageFault 0 fault 0).Allowed m ∧
      (Operation.pageFault 0 fault 0).perform m = .ok reply after ∧
      m.page? 0 65536 = some p ∧ p.isFile = true ∧ p.frame = some n ∧
      (m.space 0).directory.isDirty 65536 = true ∧
      after.page? 0 65536 = some q ∧ q.serial = p.serial ∧
      (after.space 0).directory.isDirty 65536 = false ∧
      (m.contents n).toList.take 3 = [7, 2, 3] ∧ (after.files.node 0).contents = [1, 2, 3] := by
  obtain ⟨calls, m, hrun, hcheck⟩ := Runs.of_afterAll Operation.Allowed
    (m := .start 2 { name := "swap", kind := .swap, size := 0, disk := .zeroed 0 } ({} : Fifo)
      { nodes := #[{ contents := [1, 2, 3] }] })
    [.createProcess 1, .map 0 65536 3 true 0 0, .writeUser 0 65536 [7], .fork 0 2]
    (fun m => decide ((Operation.pageFault 0 ⟨65536, true, true, false⟩ 0).Allowed m) &&
      (m.space 0).directory.isDirty 65536 &&
      ((Operation.pageFault 0 ⟨65536, true, true, false⟩ 0).outcome? m).any fun moved : Reply × Machine Fifo =>
        !(moved.2.space 0).directory.isDirty 65536 &&
        decide ((moved.2.files.node 0).contents = [1, 2, 3]) && (m.page? 0 65536).any fun p : Page =>
          p.isFile && (p.frame.any fun n => decide ((m.contents n).toList.take 3 = [7, 2, 3])) &&
          (moved.2.page? 0 65536).any fun q : Page => decide (q.serial = p.serial)) (by decide +kernel)
  simp only [Bool.and_eq_true, Option.any_eq_true, Bool.not_eq_true', decide_eq_true_eq] at hcheck
  obtain ⟨⟨hop, hdirty⟩, ⟨reply, after⟩, hmoved, ⟨hclean, hfiles⟩, p, hpage, ⟨hfile, n, hn, hbytes⟩, q, hq,
    hsame⟩ := hcheck
  exact ⟨calls, m, hrun, _, reply, after, p, q, n, hop, Operation.perform_of_outcome? hmoved, hpage, hfile,
    hn, hdirty, hq, hsame, hclean, hbytes, hfiles⟩

end Runs

end DemandPaging
