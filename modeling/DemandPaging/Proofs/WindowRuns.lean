import DemandPaging.Proofs.FileWindow
import DemandPaging.Proofs.Tables

/-! # Runs through a window

The pages of a mapping are read and written while memory comes and goes around them. What is found
there is what was last written there, and once the mapping ends the file has it.
-/
namespace DemandPaging
open Memory (Change)

namespace Window
variable {π : Type} [ReplacementPolicy π]

/-- The window that a mapping opens. -/
def ofMapping (s addr length file offset fileLength : Nat) : Window :=
  { space := s, addr, pages := mappedPages length, file, offset, length := fileLength }

/-- The bytes, read from `start` on, are those that are seen. -/
def Finds (W : Window) (seen : List UInt8) (start : Nat) (bytes : List UInt8) : Prop :=
  ∀ i j b, bytes[j]? = some b → W.Shows i (start + j) → i < seen.length → seen[i]? = some b

/-- A call, and the bytes that are seen before and after it: what is written is seen from then on, what
is read was seen, and nothing else shows. -/
def Admits (W : Window) (call : Call) (seen after : List UInt8) : Prop :=
  match call.op with
  | .writeUser s addr bytes | .copyTo s _ addr bytes =>
    if s = W.space then ∃ k, after = W.put seen addr (bytes.take k) ∧
      (call.reply = .done ∧ k = bytes.length ∨ ∃ e, call.reply = .failed e)
    else after = seen
  | .readUser s addr count | .copyFrom s _ addr count =>
    after = seen ∧ ∃ bytes failure, call.reply = .read bytes failure ∧
      (failure = none → bytes.length = count) ∧ (s = W.space → W.Finds seen addr bytes)
  | _ => after = seen

/-- What is seen before and after any number of calls. -/
inductive Runs (W : Window) : List Call → List UInt8 → List UInt8 → Prop
  | refl (seen : List UInt8) : Runs W [] seen seen
  | step {calls : List Call} {call : Call} {seen mid after : List UInt8} (h : Runs W calls seen mid)
    (hcall : W.Admits call mid after) : Runs W (calls ++ [call]) seen after

/-- The space is not copied, and nobody else maps the file. -/
def Sole (W : Window) : Operation → Prop
  | .fork s _ | .copyTable s _ => s ≠ W.space
  | .map _ _ _ _ file _ => file ≠ W.file
  | .insert _ _ _ backing => backing.isFile = true → backing.source.file ≠ some W.file
  | _ => True

/-- No page of the window is removed. -/
def Keeps (W : Window) (m after : Machine π) : Prop :=
  ∀ k < W.pages, (after.page? W.space (W.place k)).map Page.serial =
    (m.page? W.space (W.place k)).map Page.serial

/-- What may be asked while the window is open. -/
def Allows (W : Window) (m : Machine π) (op : Operation) : Prop :=
  op.Allowed m ∧ W.Sole op ∧
    match op.perform m with
    | .ok _ after => W.Keeps m after
    | .error _ _ => True

omit [ReplacementPolicy π] in
instance (W : Window) (op : Operation) : Decidable (W.Sole op) :=
  match op with
  | .fork s _ | .copyTable s _ => inferInstanceAs (Decidable (s ≠ W.space))
  | .map _ _ _ _ file _ => inferInstanceAs (Decidable (file ≠ W.file))
  | .insert _ _ _ backing =>
    inferInstanceAs (Decidable (backing.isFile = true → backing.source.file ≠ some W.file))
  | .createProcess _ | .createTable .. | .setStackPointer .. | .load .. | .openFile .. | .closeFile ..
  | .unmap .. | .pageFault .. | .readUser .. | .writeUser .. | .exit _ | .claim .. | .resolveFault ..
  | .copyFrom .. | .copyTo .. | .remove .. | .kill _ | .evict _ => .isTrue trivial

omit [ReplacementPolicy π] in
instance (W : Window) (m after : Machine π) : Decidable (W.Keeps m after) :=
  inferInstanceAs (Decidable (∀ k < W.pages, _ = _))

instance (W : Window) (m : Machine π) (op : Operation) : Decidable (W.Allows m op) :=
  @instDecidableAnd _ _ _ (@instDecidableAnd _ _ _ (by split <;> infer_instance))

section Seen
variable {W : Window} {seen after bytes more : List UInt8} {start : Nat}

theorem Finds.append (h : W.Finds seen start bytes) (hmore : W.Finds seen (start + bytes.length) more) :
    W.Finds seen start (bytes ++ more) := by
  intro i j b hb hshow hi
  rcases Nat.lt_or_ge j bytes.length with hj | hj
  · rw [List.getElem?_append_left hj] at hb
    exact h i j b hb hshow hi
  · rw [List.getElem?_append_right hj] at hb
    apply hmore i _ b hb _ hi
    rwa [Nat.add_assoc, Nat.add_sub_cancel' hj]

/-- What a call puts down is in the window, and no longer than the file. -/
theorem Admits.frame {call : Call} (h : W.Admits call seen after) : after.length = seen.length ∧
    ∀ i, ¬(W.offset ≤ i ∧ i < W.offset + W.pages * pageSize) → after[i]? = seen[i]? := by
  have hput (start : Nat) (new : List UInt8) : (W.put seen start new).length = seen.length ∧ ∀ i,
      ¬(W.offset ≤ i ∧ i < W.offset + W.pages * pageSize) → (W.put seen start new)[i]? = seen[i]? := by
    refine ⟨length_put, fun i hout => getElem?_put_of_not ?_⟩
    rintro j - ⟨m, hm, rfl, -⟩
    exact hout ⟨by omega, by omega⟩
  obtain ⟨files, op, reply⟩ := call
  cases op with
  | writeUser | copyTo =>
    simp only [Admits] at h
    split at h
    · obtain ⟨k, rfl, -⟩ := h
      exact hput _ _
    · exact h ▸ ⟨rfl, fun _ _ => rfl⟩
  | readUser | copyFrom => exact h.1 ▸ ⟨rfl, fun _ _ => rfl⟩
  | _ =>
    obtain rfl : after = seen := h
    exact ⟨rfl, fun _ _ => rfl⟩

theorem Runs.frame {calls : List Call} (h : W.Runs calls seen after) : after.length = seen.length ∧
    ∀ i, ¬(W.offset ≤ i ∧ i < W.offset + W.pages * pageSize) → after[i]? = seen[i]? := by
  induction h with
  | refl => exact ⟨rfl, fun _ _ => rfl⟩
  | step _ hcall ih =>
    obtain ⟨hlen, hout⟩ := hcall.frame
    exact ⟨hlen.trans ih.1, fun i hi => (hout i hi).trans (ih.2 i hi)⟩

end Seen

section Changes
variable {W : Window} {v w : Memory π} {s : Nat} {c : Change}

omit [ReplacementPolicy π] in
theorem spares_of_stack (h : c.OfStack s) : W.Spares c := by
  rcases h with ⟨serial, va, -, rfl⟩ | ⟨page, rfl⟩
  · exact nofun
  · trivial

omit [ReplacementPolicy π] in
/-- What may be asked brings nothing that has to do with the window, but the writes to it. -/
theorem Sole.spares {op : Operation} (hsole : W.Sole op) (h : op.Brings v c)
    (htarget : ∀ a, ¬op.Target W.space a) : W.Spares c := by
  cases op with
  | createProcess =>
    obtain rfl := h
    trivial
  | createTable =>
    obtain rfl := h
    trivial
  | setStackPointer | openFile | closeFile | claim | evict => exact h.elim
  | insert =>
    obtain ⟨serial, rfl⟩ := h
    exact hsole
  | load =>
    obtain ⟨page, rfl, -, hprogram⟩ := h
    intro hfile
    cases hprogram.isFile_eq.symm.trans hfile
  | map =>
    obtain ⟨page, source, rfl, -, hb, hsource⟩ := h
    intro _ hsame
    rw [Page.source, hb] at hsame
    exact hsole (Option.some.inj (hsource.symm.trans hsame))
  | unmap | exit | kill | remove =>
    obtain ⟨page, rfl⟩ := h
    trivial
  | copyTable =>
    obtain ⟨page, rfl⟩ := h
    exact hsole
  | pageFault | resolveFault | readUser | copyFrom => exact spares_of_stack h
  | writeUser | copyTo =>
    rcases h with hc | ⟨i, hi, chunk, -, rfl⟩
    · exact spares_of_stack hc
    · rintro rfl
      exact htarget _ ⟨rfl, i, hi, rfl⟩
  | fork =>
    rcases h with rfl | ⟨page, rfl⟩ | ⟨page, rfl⟩ | rfl
    · trivial
    · exact hsole
    · trivial
    · trivial

end Changes

section Access
variable {W : Window} {v w : Memory π} {addr : Nat} {seen bytes : List UInt8} {cs : List Change}

theorem finds_of_reads (h : Reads W.space addr v bytes w) (hv : v.Sound) (haddr : W.addr % pageSize = 0)
    (hfaithful : W.Faithful W.pages seen v) (hlaid : ∀ x, Memory.Between v w x → W.Laid W.pages x) :
    W.Finds seen addr bytes := by
  induction h with
  | nil => exact fun _ _ _ hb => nomatch hb
  | @chunk addr count n cs v u w q bytes hcs he hq hn hpos hcount hr ih =>
    obtain ⟨_, hrest, -⟩ := hr.quiet
    have hu : W.Faithful W.pages seen u := by
      apply hfaithful.course hv he fun c hc => spares_of_stack (hcs.ofStack c hc)
      exact .inl fun x hx => hlaid x (hx.of_earlier hrest.evolves)
    apply Finds.append
    · intro i j b hb hshow hi
      exact hu.found haddr hq hn hcount hb hshow hi
    · rw [length_chunk _ hcount]
      exact ih (hv.evolves he.evolves) hu fun x hx => hlaid x (hx.of_later he.evolves)

theorem puts_of_wrote (h : Wrote W.space addr v bytes cs w) (hv : v.Sound)
    (haddr : W.addr % pageSize = 0) (hfaithful : W.Faithful W.pages seen v)
    (hlaid : ∀ x, Memory.Between v w x → W.Laid W.pages x) :
    W.Faithful W.pages (W.put seen addr bytes) w := by
  induction h generalizing seen with
  | nil =>
    rw [put_nil]
    exact hfaithful
  | @chunk addr cs rest chunk bytes v u u' w hcs he ha hpos hlen hw ih =>
    have hrest := (Memory.Evolves.of_change ha).trans hw.course.evolves
    have hu : W.Faithful W.pages seen u := by
      apply hfaithful.course hv he fun c hc => spares_of_stack (hcs.ofStack c hc)
      exact .inl fun x hx => hlaid x (hx.of_earlier hrest)
    have hsound := hv.evolves he.evolves
    have hwritten := hu.write hsound haddr hlen (hlaid u ⟨⟨_, he.evolves⟩, _, hrest⟩) ha
    rw [put_append]
    apply ih (hsound.change ha) hwritten
    intro x hx
    exact hlaid x (hx.of_later (he.evolves.change ha))

/-- Whatever is asked, the window goes on showing the file. -/
theorem admits_of_comes {op : Operation} {reply : Reply} (files : FileStore) (h : op.Comes v w reply)
    (hv : v.Sound) (haddr : W.addr % pageSize = 0) (hsole : W.Sole op)
    (hfaithful : W.Faithful W.pages seen v) (hlaid : ∀ x, Memory.Between v w x → W.Laid W.pages x) :
    ∃ after, W.Admits ⟨files, op, reply⟩ seen after ∧ W.Faithful W.pages after w := by
  -- What does not write to the window leaves it as it is, whatever else it comes to.
  have hspared (htarget : ∀ a, ¬op.Target W.space a) : W.Faithful W.pages seen w := by
    obtain ⟨cs, hcourse, hbrings⟩ := h.passes
    exact hfaithful.course hv hcourse (fun c hc => hsole.spares (hbrings c hc) htarget) (.inl hlaid)
  cases op with
  | writeUser s addr bytes | copyTo s esp addr bytes =>
    simp only [Admits]
    split
    · rename_i hs
      subst hs
      obtain ⟨k, cs, us, va, u, hwrote, hus, hquiet, hreply⟩ := h
      have hu := puts_of_wrote hwrote hv haddr hfaithful fun x hx => hlaid x (hx.of_earlier hquiet.evolves)
      refine ⟨_, ⟨k, rfl, hreply⟩, hu.course (hv.evolves hwrote.course.evolves) hquiet ?_ ?_⟩
      · exact fun c hc => spares_of_stack (hus.ofStack c hc)
      · exact .inl fun x hx => hlaid x (hx.of_later hwrote.course.evolves)
    · rename_i hs
      exact ⟨seen, rfl, hspared fun a hat => hs hat.1.symm⟩
  | readUser s addr count | copyFrom s esp addr count =>
    obtain ⟨bytes, failure, u, cs, va, rfl, hreads, hcs, hquiet, -, hall⟩ := h
    refine ⟨seen, ⟨rfl, bytes, failure, rfl, fun hok => (hall hok).1, ?_⟩, hspared fun _ => id⟩
    rintro rfl
    exact finds_of_reads hreads hv haddr hfaithful fun x hx => hlaid x (hx.of_earlier hquiet.evolves)
  | _ => exact ⟨seen, rfl, hspared fun _ => id⟩

end Access

section Course
variable {W : Window} {m m₁ m₂ after : Machine π} {calls : List Call} {seen bytes : List UInt8}

/-- What holds of the machine while the window is open. -/
structure Open (W : Window) (seen : List UInt8) (m : Machine π) : Prop where
  valid : m.memory.Valid
  faithful : W.Faithful W.pages seen m.memory
  laid : W.Laid W.pages m.memory

omit [ReplacementPolicy π] in
theorem place_down (haddr : W.addr % pageSize = 0) (k : Nat) : pageDown (W.place k) = W.place k := by
  simp only [place, pageDown, pageSize] at haddr ⊢
  omega

/-- The pages of the window are there throughout an operation that removes none. -/
theorem Open.laid_between (h : W.Open seen m) (haddr : W.addr % pageSize = 0) (hkeeps : W.Keeps m after)
    (x : Memory π) (hx : Memory.Between m.memory after.memory x) : W.Laid W.pages x := by
  intro k hk
  obtain ⟨p, hp⟩ := Option.isSome_iff_exists.mp (h.laid k hk)
  have hserial := hkeeps k hk
  rw [Machine.page?_eq, Machine.page?_eq, place_down haddr, hp, Option.map_some,
    Option.map_eq_some_iff] at hserial
  obtain ⟨q, hq, hsame⟩ := hserial
  obtain ⟨r, hr, -⟩ := hx.exists_page h.valid.sound hp hq hsame
  exact Option.isSome_iff_exists.mpr ⟨r, hr⟩

theorem Open.perform {op : Operation} {reply : Reply} (h : W.Open seen m) (haddr : W.addr % pageSize = 0)
    (hop : W.Allows m op) (hp : op.perform m = .ok reply after) :
    ∃ mid, W.Admits ⟨m.files, op, reply⟩ seen mid ∧ W.Open mid after := by
  obtain ⟨hallowed, hsole, hkeeps⟩ := hop
  rw [hp] at hkeeps
  have hcomes := (Operation.perform_ends h.valid hallowed).of_ok hp
  have hlaid := h.laid_between haddr hkeeps
  obtain ⟨cs, hcourse, -⟩ := hcomes.passes
  obtain ⟨mid, hadmits, hfaithful⟩ :=
    admits_of_comes m.files hcomes h.valid.sound haddr hsole h.faithful hlaid
  exact ⟨mid, hadmits, h.valid.course hcourse, hfaithful, hlaid _ ⟨⟨_, hcourse.evolves⟩, _, .refl _⟩⟩

theorem Open.runs (h : W.Open bytes m) (haddr : W.addr % pageSize = 0)
    (hruns : DemandPaging.Runs W.Allows m calls after) :
    ∃ seen, W.Runs calls bytes seen ∧ W.Open seen after := by
  induction hruns with
  | refl => exact ⟨bytes, .refl _, h⟩
  | step _ hop hp ih =>
    obtain ⟨mid, hcalls, hmid⟩ := ih
    obtain ⟨last, hadmits, hlast⟩ := hmid.perform haddr hop hp
    exact ⟨last, hcalls.step hadmits, hlast⟩

/-- A mapping of a file that nobody else has mapped opens a window. -/
theorem open_of_map {s addr length file offset : Nat} {writable : Bool} (hm : m.memory.Valid)
    (hunmapped : ∀ e ∈ m.allPages, e.2.isFile = true → e.2.source.file ≠ some file)
    (hwhole : (m.files.node file).writeLimit = none)
    (hallowed : (Operation.map s addr length writable file offset).Allowed m)
    (hmap : (Operation.map s addr length writable file offset).perform m = .ok (.address addr) m₁) :
    (ofMapping s addr length file offset (m.files.length file)).Open
      (m.files.node file).contents m₁ ∧ addr % pageSize = 0 := by
  set W := ofMapping s addr length file offset (m.files.length file)
  obtain ⟨cs, hquiet, ⟨-, haddr, -, hlaidOut⟩ | ⟨⟨e, he⟩, -⟩⟩ := (Operation.perform_ends hm hallowed).of_ok hmap
  · -- Nobody maps the file yet: a window of no pages, to which the pages are added one by one.
    have hnobody : W.Faithful 0 (m.files.node file).contents m.memory := by
      refine Faithful.of_unmapped (W := W) (v := m.memory) ?_ rfl hwhole
      intro t a p hp hfile
      obtain ⟨rfl, -⟩ := hm.sound.kept hp
      exact hunmapped (t, p) ((Machine.mem_allPages hm.sound).mpr hp) hfile
    have hnone : W.Laid 0 m.memory := fun k hk => absurd hk (Nat.not_lt_zero k)
    have hplace : addr = W.place 0 := by simp [place, W, ofMapping]
    have hoffset : offset = W.offset + 0 * pageSize := by simp [W, ofMapping]
    obtain ⟨hfaithful, hlaid⟩ := hnobody.laidOut hlaidOut hm.sound hnone hplace hoffset (Nat.zero_add _) hquiet
    exact ⟨⟨hm.course hquiet, hfaithful, hlaid⟩, haddr⟩
  · cases he

/-- Once it is unmapped, or its process has ended, the file is what was seen. -/
theorem Open.contents_of_closed {op : Operation} {reply : Reply} (h : W.Open seen m)
    (haddr : W.addr % pageSize = 0) (hop : op = .unmap W.space W.addr ∨ op = .exit W.space)
    (hallowed : op.Allowed m) (hp : op.perform m = .ok reply after) :
    (after.files.node W.file).contents = seen := by
  have hcomes := (Operation.perform_ends h.valid hallowed).of_ok hp
  have hclosed {pages : List Page}
      (hquiet : Memory.Quiet (pages.map (.remove W.space)) m.memory after.memory)
      (hgone : ∀ k < W.pages, after.memory.pages W.space (W.place k) = none) :
      (after.files.node W.file).contents = seen := by
    have hremoves : ∀ c ∈ pages.map (Change.remove W.space), ∃ t page, c = .remove t page :=
      List.forall_mem_map.mpr fun page _ => ⟨_, page, rfl⟩
    have hspares : ∀ c ∈ pages.map (Change.remove W.space), W.Spares c :=
      List.forall_mem_map.mpr fun _ _ => trivial
    have hend := h.faithful.course h.valid.sound hquiet hspares (.inr hremoves)
    exact hend.contents_eq (h.valid.course hquiet).sound hgone
  rcases hop with rfl | rfl
  · obtain ⟨⟨pages, -, hquiet, hchain⟩, -⟩ := hcomes
    have hdown : pageDown W.addr = W.addr := by
      have := place_down haddr 0
      rwa [place, Nat.zero_mul] at this
    rw [hdown] at hchain
    apply hclosed hquiet (hchain W.pages ?_)
    intro k hk
    obtain ⟨p, hp⟩ := Option.isSome_iff_exists.mp (h.laid k hk)
    obtain ⟨hfile, hsource⟩ := (h.faithful.holds k hk).page hp
    refine ⟨p, hp, hfile, fun hmore => ?_⟩
    rw [hsource]
    exact decide_eq_true hmore
  · obtain ⟨pages, hquiet, hgone⟩ := hcomes
    exact hclosed hquiet fun k _ => hgone _

end Course

end Window

section Runs
variable {π : Type} [ReplacementPolicy π] {m m₁ m₂ : Machine π} {calls calls' : List Call}

/-- A mapping of a file is a window onto it. Let a file that takes whatever is written to it be mapped
on any machine that operations lead to, while nobody else has it mapped. As long as its space is not
copied, nobody else maps the file and no page of the mapping is removed, whatever all processes ask
for and whichever pages are evicted on the way, what is read there is what was last written there, or
else what the file held at first. Once it is unmapped, or its process has ended, that is what the file
holds, which is as long as before and the same elsewhere. -/
theorem mapping_is_window {count : Nat} {device : Device} {policy : π} {files : FileStore}
    (hm : Runs Operation.Allowed (Machine.start count device policy files) calls m)
    {s addr length file offset : Nat} {writable : Bool}
    (hunmapped : ∀ e ∈ m.allPages, e.2.isFile = true → e.2.source.file ≠ some file)
    (hwhole : (m.files.node file).writeLimit = none)
    (hallowed : (Operation.map s addr length writable file offset).Allowed m)
    (hmap : (Operation.map s addr length writable file offset).perform m = .ok (.address addr) m₁)
    (hruns : Runs (Window.ofMapping s addr length file offset (m.files.length file)).Allows m₁ calls' m₂) :
    ∃ seen, (Window.ofMapping s addr length file offset (m.files.length file)).Runs calls'
        (m.files.node file).contents seen ∧
      seen.length = (m.files.node file).contents.length ∧
      (∀ i, ¬(offset ≤ i ∧ i < offset + mappedPages length * pageSize) →
        seen[i]? = (m.files.node file).contents[i]?) ∧
      ∀ (op : Operation) reply after, op = .unmap s addr ∨ op = .exit s → op.Allowed m₂ →
        op.perform m₂ = .ok reply after → (after.files.node file).contents = seen := by
  have hvalid := hm.valid (Machine.valid_start ..) fun _ _ hop => hop
  obtain ⟨hopen, haddr⟩ := Window.open_of_map hvalid hunmapped hwhole hallowed hmap
  obtain ⟨seen, hcalls, hlast⟩ := hopen.runs haddr hruns
  obtain ⟨hlen, hout⟩ := hcalls.frame
  refine ⟨seen, hcalls, hlen, hout, ?_⟩
  intro op reply after hop hclosing hp
  exact hlast.contents_of_closed haddr hop hclosing hp

/-- With one frame for two pages, a byte that was written to a mapping goes to the file when the page
is evicted. The next one is only in the page that came back, until the page is unmapped. -/
theorem mapping_after_eviction : ∃ calls calls', ∃ m m₁ m₂ : Machine Fifo,
    Runs Operation.Allowed
      (.start 1 { name := "swap", kind := .swap, size := 16, disk := .zeroed 16 } {}
        { nodes := #[{ contents := [1, 2, 3] }] }) calls m ∧
    (Operation.map 0 65536 3 true 0 0).perform m = .ok (.address 65536) m₁ ∧
    Runs (Window.ofMapping 0 65536 3 0 0 (m.files.length 0)).Allows m₁ calls' m₂ ∧
    (m₂.files.node 0).contents = [7, 2, 3] ∧ ∃ seen reply after,
      (Window.ofMapping 0 65536 3 0 0 (m.files.length 0)).Runs calls' (m.files.node 0).contents seen ∧
      (Operation.unmap 0 65536).perform m₂ = .ok reply after ∧
      (after.files.node 0).contents = seen ∧ seen = [7, 8, 3] := by
  obtain ⟨calls, m, hrun, hcheck⟩ := Runs.of_afterAll Operation.Allowed
    (m := .start 1 { name := "swap", kind := .swap, size := 16, disk := .zeroed 16 } ({} : Fifo)
      { nodes := #[{ contents := [1, 2, 3] }] })
    [.createProcess 1]
    (fun m => m.allPages.isEmpty && decide ((m.files.node 0).writeLimit = none) &&
      decide ((Operation.map 0 65536 3 true 0 0).Allowed m) &&
      ((Operation.map 0 65536 3 true 0 0).outcome? m).any fun mapped : Reply × Machine Fifo =>
        decide (mapped.1 = .address 65536) &&
        (mapped.2.afterAll (Window.ofMapping 0 65536 3 0 0 (m.files.length 0)).Allows
          [.writeUser 0 65536 [7], .insert 0 8192 true (.anonymous .zeroed none),
            .writeUser 0 8192 [9], .readUser 0 65536 2, .writeUser 0 65537 [8]]).any fun m₂ : Machine Fifo =>
          decide ((m₂.files.node 0).contents = [7, 2, 3]) && decide ((Operation.unmap 0 65536).Allowed m₂) &&
          ((Operation.unmap 0 65536).outcome? m₂).any fun closed : Reply × Machine Fifo =>
            decide ((closed.2.files.node 0).contents = [7, 8, 3])) (by decide +kernel)
  obtain ⟨hbefore, hcheck⟩ := Bool.and_eq_true_iff.mp hcheck
  obtain ⟨⟨reply, m₁⟩, hmap, hcheck⟩ := (Option.any_eq_true _ _).mp hcheck
  obtain ⟨haddress, hcheck⟩ := Bool.and_eq_true_iff.mp hcheck
  obtain ⟨calls', m₂, hruns, hcheck⟩ := Runs.of_afterAll _ _ _ hcheck
  simp only [Bool.and_eq_true, List.isEmpty_iff, Option.any_eq_true, decide_eq_true_eq] at hbefore haddress hcheck
  obtain ⟨⟨hnone, hwhole⟩, hallowed⟩ := hbefore
  obtain ⟨⟨hevicted, hunmap⟩, ⟨reply', after⟩, hclose, hcontents⟩ := hcheck
  subst haddress
  have hmapped := Operation.perform_of_outcome? hmap
  have hp := Operation.perform_of_outcome? hclose
  have hunmapped : ∀ e ∈ m.allPages, e.2.isFile = true → e.2.source.file ≠ some 0 := by
    rw [hnone]
    exact List.forall_mem_nil _
  obtain ⟨seen, hcalls, -, -, hclosed⟩ := mapping_is_window hrun hunmapped hwhole hallowed hmapped hruns
  have hseen := hclosed _ _ _ (.inl rfl) hunmap hp
  exact ⟨calls, calls', m, m₁, m₂, hrun, hmapped, hruns, hevicted, seen, reply', after, hcalls, hp, hseen,
    hseen.symm.trans hcontents⟩

end Runs

end DemandPaging
