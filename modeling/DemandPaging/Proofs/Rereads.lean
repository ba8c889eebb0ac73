import DemandPaging.Proofs.SharedMarks

/-! # Reading a page of a file again

A page of a file whose bytes are in the file, or in a frame with a dirty page, is found to have the same
bytes whenever it is read, however it is evicted, shared and brought back. This ends when its process
writes to it, when it and the dirty page are parted before their bytes are in the file, and when what a
page elsewhere has of the same bytes of the file is written back.
-/
namespace DemandPaging
open Memory (Change)

/-- What is found from `start` on are these bytes of the page at `va`, as far as they are from its
file. -/
def Source.Agrees (source : Source) (va : Nat) (bytes : List UInt8) (start : Nat) (found : List UInt8) :
    Prop :=
  ∀ j b, found[j]? = some b → pageDown (start + j) = va → pageOffset (start + j) < source.readBytes →
    bytes[pageOffset (start + j)]? = some b

/-- A call that reads the page at `va` finds these bytes there. -/
def Call.Agrees (call : Call) (s va : Nat) (source : Source) (bytes : List UInt8) : Prop :=
  match call.op, call.reply with
  | .readUser t addr _, .read found _ | .copyFrom t _ addr _, .read found _ =>
    t = s → source.Agrees va bytes addr found
  | _, _ => True

theorem Source.Agrees.append {source : Source} {va start : Nat} {bytes found more : List UInt8}
    (h : source.Agrees va bytes start found) (hmore : source.Agrees va bytes (start + found.length) more) :
    source.Agrees va bytes start (found ++ more) := by
  intro j b hb hva hoffset
  rcases Nat.lt_or_ge j found.length with hj | hj
  · rw [List.getElem?_append_left hj] at hb
    exact h j b hb hva hoffset
  · rw [List.getElem?_append_right hj] at hb
    have hat : start + found.length + (j - found.length) = start + j := by omega
    rw [← hat] at hva hoffset ⊢
    exact hmore _ b hb hva hoffset

namespace Memory
variable {π : Type} {v w : Memory π} {s t va n : Nat} {source : Source} {bytes : List UInt8}

/-- A chunk that comes from the frame of a page has the bytes that the page carries. -/
theorem Carries.agrees {start size : Nat} {p : Page} (h : v.Carries s va source bytes)
    (hp : v.pages s (pageDown start) = some p) (hf : p.frame = some n)
    (hsize : size ≤ pageSize - pageOffset start) : source.Agrees va bytes start
      (slice (v.frames n).contents.toList (pageOffset start) size) := by
  rintro j b hb rfl hoffset
  rw [slice, List.getElem?_take] at hb
  split at hb
  · rename_i hj
    have hin : j < pageSize - pageOffset start := Nat.lt_of_lt_of_le hj hsize
    rw [List.getElem?_drop, ← pageOffset_add hin] at hb
    rw [pageDown_add hin] at h
    rw [← h.held hp hf, List.getElem?_take, if_pos hoffset, hb]
  · cases hb

theorem Carries.of_honest {p : Page} (hp : v.pages s va = some p) (hfile : p.isFile = true)
    (hhonest : (∃ t, v.Backs t s va) ∨ ∀ n, p.frame = some n →
      (v.frames n).contents.toList.take p.source.readBytes = p.source.shown v.files) :
    ∃ bytes, v.Carries s va p.source bytes := by
  have hpage {q : Page} (hq : v.pages s va = some q) : q.isFile = true ∧ q.source = p.source := by
    obtain rfl := Option.some.inj (hp.symm.trans hq)
    exact ⟨hfile, rfl⟩
  cases hf : p.frame with
  | none =>
    refine ⟨_, hpage, fun hq hn => ?_, .inr rfl⟩
    obtain rfl := Option.some.inj (hp.symm.trans hq)
    cases hf.symm.trans hn
  | some n =>
    refine ⟨(v.frames n).contents.toList.take p.source.readBytes, hpage, fun hq hn => ?_, ?_⟩
    · obtain rfl := Option.some.inj (hp.symm.trans hq)
      obtain rfl := Option.some.inj (hf.symm.trans hn)
      rfl
    · exact hhonest.imp_right fun h => (h n hf).symm

end Memory

variable {π : Type} [ReplacementPolicy π] {v w : Memory π} {s t va : Nat} {source : Source}
  {bytes : List UInt8}

section Reads
variable {S : Memory.Scope} {addr : Nat} {found : List UInt8}
  (hstack : ∀ c : Change, c.OfStack s → S.brings c)

include hstack

/-- Every chunk that is read finds the bytes of the page. -/
theorem Reads.agrees (h : Reads s addr v found w) (hv : v.Sound) (hsafe : v.Safe t s va source bytes)
    (hsecure : S.Secures v w t s va source) :
    source.Agrees va bytes addr found ∧ w.Safe t s va source bytes := by
  induction h with
  | nil => exact ⟨fun _ _ hb => (nomatch hb), hsafe⟩
  | @chunk addr count n cs v u w q found hcs he hq hn hpos hcount hr ih =>
    have hbrings : ∀ c ∈ cs, S.brings c := fun c hc => hstack c (hcs.ofStack c hc)
    have hfirst : Memory.Course S.moves cs v u := .of_quiet he
    obtain ⟨_, hrest, -⟩ := hr.quiet
    have hsound := hv.evolves he.evolves
    have hu := hfirst.safe hbrings hv hsafe (hsecure.first hrest.evolves)
    obtain ⟨hagrees, hw⟩ := ih hsound hu (hsecure.rest ⟨cs, hfirst, hbrings⟩)
    refine ⟨((hu.carries hsound).agrees hq hn hcount).append ?_, hw⟩
    rwa [length_chunk _ hcount]

/-- The same of a read that stops half-way. -/
theorem Reads.agrees_undone {a : Nat} {us : List Change} {u : Memory π} (h : Reads s addr v found u)
    (hus : Undone s a us) (hquiet : Memory.Quiet us u w) (hv : v.Sound)
    (hsafe : v.Safe t s va source bytes) (hsecure : S.Secures v w t s va source) :
    source.Agrees va bytes addr found ∧ w.Safe t s va source bytes := by
  obtain ⟨cs, hcourse, hcs⟩ := h.quiet
  have hfirst : S.Passes v u := ⟨cs, .of_quiet hcourse, fun c hc => hstack c (hcs c hc)⟩
  have hlast : Memory.Course S.moves us u w := .of_quiet hquiet
  obtain ⟨hagrees, hu⟩ := h.agrees hstack hv hsafe (hsecure.first hquiet.evolves)
  exact ⟨hagrees, hlast.safe (fun c hc => hstack c (hus.ofStack c hc)) (hv.evolves hcourse.evolves) hu
    (hsecure.rest hfirst)⟩

end Reads

/-- What an operation that secures the bytes of a page leaves of it, and finds there. -/
theorem Operation.Comes.rereads {op : Operation} {reply : Reply} (h : op.Comes v w reply)
    (files : FileStore) (hv : v.Sound) (hsafe : v.Safe t s va source bytes)
    (hsecure : (op.scope v).Secures v w t s va source) :
    (Call.mk files op reply).Agrees s va source bytes ∧ w.Safe t s va source bytes := by
  obtain ⟨cs, hcourse, hbrings⟩ := h.passes
  have hw := hcourse.safe hbrings hv hsafe hsecure
  cases op with
  | readUser b addr count | copyFrom b esp addr count =>
    obtain ⟨found, failure, u, cs, a, rfl, hreads, hus, hquiet, -⟩ := h
    refine ⟨?_, hw⟩
    rintro rfl
    exact (hreads.agrees_undone (fun _ => id) hus hquiet hv hsafe hsecure).1
  | _ => exact ⟨trivial, hw⟩

/-- What it takes of an operation to secure the bytes of a page. -/
theorem Operation.secures (op : Operation) (hv : v.Sound)
    (htargets : ¬op.Target s va ∧ ¬op.Target t va)
    (hstays : v.Dirty s va ∨ v.Dirty t va → ¬op.Moves v s va ∧ ¬op.Moves v t va)
    (hremains : v.Remains w s va) (hkept : v.Remains w t va ∨ source.Takes v.files)
    (hspares : (op.scope v).Spares v t va source) : (op.scope v).Secures v w t s va source where
  there := hremains.there hv
  kept := hkept.imp_left fun h => h.there hv
  stays := hstays
  unwritten _ _ := ⟨fun hbrings => htargets.1 hbrings.target, fun hbrings => htargets.2 hbrings.target⟩
  spares := hspares

/-! ## Runs -/

/-- What may be asked while a page is read again and again: nothing that writes to it, or moves it or a
dirty page out of the frame that they share. -/
def Operation.Leaves (s va : Nat) (m : Machine π) (op : Operation) : Prop :=
  op.Allowed m ∧ ¬op.Target s va ∧
    ∀ t, m.memory.Backs t s va → ¬op.Moves m.memory s va ∧ ¬op.Moves m.memory t va

/-- The page at `va` of space `t` is still there afterwards. -/
def Operation.Keeps (op : Operation) (m : Machine π) (t va : Nat) : Prop :=
  ∀ reply after, op.perform m = .ok reply after → m.memory.Remains after.memory t va

/-- No page but a dirty one in the frame of the page at `va` may come to be written back over the bytes
that this has from its file. -/
def Memory.Unrivalled (v : Memory π) (written : Nat → Nat → Prop) (s va : Nat) (source : Source) : Prop :=
  ∀ {t a p}, v.pages t a = some p → v.Rivals written source t a p → a = va ∧ v.Backs t s va

/-- The operation spares the bytes that the page at `va` has from its file. It does not write to the
file, and a dirty page in the frame stays where it is; or no page from elsewhere may come to be written
back over them, and the file takes all that a dirty page in the frame has for it, unless that stays. -/
def Operation.Spares (s va : Nat) (source : Source) (m : Machine π) (op : Operation) : Prop :=
  (∀ t, m.memory.Backs t s va → op.Keeps m t va) ∧ (∀ f, source.file = some f → ¬op.WritesTo m f) ∨
    (∀ t, m.memory.Backs t s va → op.Keeps m t va ∨ source.Takes m.files) ∧
      m.memory.Unrivalled op.Target s va source

section Decide
variable {t a : Nat}

omit [ReplacementPolicy π] in
theorem Memory.shared_iff : v.Shared s va ↔ ((v.pages s va).any fun p =>
    p.frame.any fun n => decide ((v.frames n).refcount ≠ 1)) = true := by
  simp only [Shared, Option.any_eq_true, decide_eq_true_eq]
  constructor
  · rintro ⟨p, n, hp, hn, hne⟩
    exact ⟨p, hp, n, hn, hne⟩
  · rintro ⟨p, hp, n, hn, hne⟩
    exact ⟨p, n, hp, hn, hne⟩

omit [ReplacementPolicy π] in
instance : Decidable (v.Shared s va) := decidable_of_iff _ Memory.shared_iff.symm

instance (op : Operation) : Decidable (op.Target t a) :=
  match op with
  | .writeUser s addr bytes | .copyTo s _ addr bytes =>
    inferInstanceAs (Decidable (t = s ∧ ∃ i < bytes.length, a = pageDown (addr + i)))
  | .createProcess _ | .createTable .. | .setStackPointer .. | .insert .. | .load .. | .openFile ..
  | .closeFile .. | .map .. | .unmap .. | .pageFault .. | .readUser .. | .fork .. | .exit _ | .claim ..
  | .resolveFault .. | .copyFrom .. | .remove .. | .copyTable .. | .kill _ | .evict _ => .isFalse id

omit [ReplacementPolicy π] in
instance (fault : PageFault) : Decidable (fault.Moves v s t a) :=
  inferInstanceAs (Decidable (fault.write = true ∧ fault.notPresent = false ∧ t = s ∧
    a = pageDown fault.addr ∧ v.Shared t a))

omit [ReplacementPolicy π] in
instance (op : Operation) : Decidable (op.Unshares v t a) :=
  match op with
  | .pageFault s fault _ | .resolveFault s fault _ => inferInstanceAs (Decidable (fault.Moves v s t a))
  | .createProcess _ | .createTable .. | .setStackPointer .. | .insert .. | .load .. | .openFile ..
  | .closeFile .. | .map .. | .unmap .. | .readUser .. | .writeUser .. | .fork .. | .exit _ | .claim ..
  | .copyFrom .. | .copyTo .. | .remove .. | .copyTable .. | .kill _ | .evict _ => .isFalse id

instance (op : Operation) : Decidable (op.Moves v t a) := inferInstanceAs (Decidable (_ ∨ _))

omit [ReplacementPolicy π] in
theorem Memory.dirty_iff : v.Dirty s va ↔ ((v.entries s va).any fun e => e.has .dirty) = true := by
  simp only [Dirty, Option.any_eq_true]

omit [ReplacementPolicy π] in
instance : Decidable (v.Dirty s va) := decidable_of_iff _ Memory.dirty_iff.symm

omit [ReplacementPolicy π] in
theorem Memory.together_iff : v.Together s t va ↔ ((v.pages s va).any fun p => p.frame.any fun n =>
    (v.pages t va).any fun q => decide (q.frame = some n)) = true := by
  simp only [Together, Option.any_eq_true, decide_eq_true_eq]
  constructor
  · rintro ⟨p, q, n, hp, hf, hq, hg⟩
    exact ⟨p, hp, n, hf, q, hq, hg⟩
  · rintro ⟨p, hp, n, hf, q, hq, hg⟩
    exact ⟨p, q, n, hp, hf, hq, hg⟩

omit [ReplacementPolicy π] in
instance : Decidable (v.Together s t va) := decidable_of_iff _ Memory.together_iff.symm

omit [ReplacementPolicy π] in
instance : Decidable (v.Backs t s va) := inferInstanceAs (Decidable (_ ∧ _))

omit [ReplacementPolicy π] in
/-- Only pages of the spaces that there are back others. -/
theorem Machine.forall_backs {m : Machine π} {P : Nat → Prop} :
    (∀ t < m.spaces.size, m.memory.Backs t s va → P t) ↔ ∀ t, m.memory.Backs t s va → P t := by
  refine ⟨fun h t hbacks => h t ?_ hbacks, fun h t _ => h t⟩
  obtain ⟨⟨e, he, -⟩, -⟩ := hbacks
  exact Machine.lt_of_entry he

instance (m : Machine π) (op : Operation) : Decidable (op.Leaves s va m) :=
  decidable_of_iff (op.Allowed m ∧ ¬op.Target s va ∧ ∀ t < m.spaces.size, m.memory.Backs t s va →
    ¬op.Moves m.memory s va ∧ ¬op.Moves m.memory t va)
    (and_congr_right fun _ => and_congr_right fun _ => Machine.forall_backs)

omit [ReplacementPolicy π] in
instance {written : Nat → Nat → Prop} [∀ t a, Decidable (written t a)] {p : Page} :
    Decidable (v.Rivals written source t a p) :=
  inferInstanceAs (Decidable (_ ∧ _ ∧ (_ ∨ _) ∧ _ ∧ _))

omit [ReplacementPolicy π] in
theorem Machine.unrivalled_iff {m : Machine π} {written : Nat → Nat → Prop} :
    m.memory.Unrivalled written s va source ↔ ∀ t < m.spaces.size, ∀ e ∈ (m.space t).pages.toList,
      m.memory.Rivals written source t e.1 e.2 → e.1 = va ∧ m.memory.Backs t s va := by
  have hmem (t : Nat) (e : Nat × Page) :
      e ∈ (m.space t).pages.toList ↔ m.memory.pages t e.1 = some e.2 :=
    Std.ExtTreeMap.mem_toList_iff_getElem?_eq_some
  constructor
  · intro h t _ e he
    exact h ((hmem t e).mp he)
  · intro h t a p hp
    refine h t ?_ (a, p) ((hmem t (a, p)).mpr hp)
    by_contra hout
    cases (Machine.memory_spaceless (Nat.le_of_not_lt hout)).1.symm.trans hp

omit [ReplacementPolicy π] in
instance (m : Machine π) (written : Nat → Nat → Prop) [∀ t a, Decidable (written t a)] :
    Decidable (m.memory.Unrivalled written s va source) :=
  decidable_of_iff _ Machine.unrivalled_iff.symm

omit [ReplacementPolicy π] in
theorem Source.takes_iff {files : FileStore} : source.Takes files ↔ (source.file.any fun f =>
    decide ((files.transferLimits f).2 = none ∧ source.readBytes ≤ files.length f - source.offset)) =
      true := by
  simp only [Takes, Option.any_eq_true, decide_eq_true_eq]

omit [ReplacementPolicy π] in
instance (files : FileStore) : Decidable (source.Takes files) :=
  decidable_of_iff _ Source.takes_iff.symm

end Decide

section Runs
variable {m after : Machine π} {calls : List Call}

/-- What leaves the page alone, and spares the bytes that it has from its file. -/
def Operation.LeavesIntact (s va : Nat) (source : Source) (m : Machine π) (op : Operation) : Prop :=
  op.Leaves s va m ∧ op.Spares s va source m

omit [ReplacementPolicy π] in
/-- Of the pages that may come to be written back there is but one. -/
theorem Memory.Unrivalled.lone {written : Nat → Nat → Prop} (h : v.Unrivalled written s va source)
    (hv : v.Matched) (ht : v.Backs t s va ∨ t = s ∧ ∀ b, ¬v.Backs b s va) :
    v.Lone written t va source := by
  intro b a p hp hrivals
  obtain ⟨hat, hb⟩ := h hp hrivals
  rcases ht with ht | ⟨-, hnone⟩
  · exact ⟨hv.backs_unique hb ht, hat⟩
  · exact absurd hb (hnone b)

omit [ReplacementPolicy π] in
/-- With which page the bytes are safe, and that the operation leaves the two of them alone. -/
theorem Operation.Leaves.exists_safe {op : Operation} (h : op.Leaves s va m) (hv : m.memory.Sound)
    (hmatched : m.memory.Matched) (hcarries : m.memory.Carries s va source bytes) :
    ∃ t, (m.memory.Backs t s va ∨ t = s ∧ ∀ b, ¬m.memory.Backs b s va) ∧
      m.memory.Safe t s va source bytes ∧ (¬op.Target s va ∧ ¬op.Target t va) ∧
      (m.memory.Dirty s va ∨ m.memory.Dirty t va → ¬op.Moves m.memory s va ∧ ¬op.Moves m.memory t va) := by
  obtain ⟨-, htarget, hbacked⟩ := h
  obtain ⟨t, ht, hsafe⟩ := hcarries.exists_safe hmatched
  refine ⟨t, ht, hsafe, ?_⟩
  rcases ht with ht | ⟨rfl, hnone⟩
  · exact ⟨⟨htarget, fun hin => (hbacked t ht).2 (.inl hin)⟩, fun _ => hbacked t ht⟩
  · -- A dirty page would back itself.
    exact ⟨⟨htarget, htarget⟩, fun hd => absurd (hv.backs_self (or_self_iff.mp hd)) (hnone t)⟩

/-- An operation that leaves a page intact finds the bytes that it has, and it goes on having them. -/
theorem Operation.LeavesIntact.rereads {op : Operation} {reply : Reply}
    (h : op.LeavesIntact s va source m) (hm : m.memory.Valid) (hmatched : m.memory.Matched)
    (hperform : op.perform m = .ok reply after) (hcarries : m.memory.Carries s va source bytes)
    (hremains : m.memory.Remains after.memory s va) :
    (Call.mk m.files op reply).Agrees s va source bytes ∧ after.memory.Carries s va source bytes := by
  obtain ⟨hleaves, hspares⟩ := h
  obtain ⟨t, ht, hsafe, htargets, hstays⟩ := hleaves.exists_safe hm.sound hmatched hcarries
  have hcomes := (Operation.perform_ends hm hleaves.1).of_ok hperform
  obtain ⟨_, hevolves⟩ := hcomes.passes.evolves
  have hafter := hm.sound.evolves hevolves
  have hkept {b : Prop} (hkeeps : m.memory.Backs t s va → op.Keeps m t va ∨ b) :
      m.memory.Remains after.memory t va ∨ b := by
    rcases ht with ht | ⟨rfl, -⟩
    · exact (hkeeps ht).imp_left fun h => h reply after hperform
    · exact .inl hremains
  have hopen (hkept : m.memory.Remains after.memory t va ∨ source.Takes m.files)
      (hspares : (op.scope m.memory).Spares m.memory t va source) :
      (Call.mk m.files op reply).Agrees s va source bytes ∧ after.memory.Carries s va source bytes := by
    obtain ⟨hagrees, hsafe⟩ := hcomes.rereads m.files hm.sound hsafe
      (op.secures hm.sound htargets hstays hremains hkept hspares)
    exact ⟨hagrees, hsafe.carries hafter⟩
  rcases hspares with ⟨hkeeps, hnot⟩ | ⟨hkeeps, hunrivalled⟩
  · have hthere : m.memory.Remains after.memory t va :=
      (hkept (b := False) fun ht => .inl (hkeeps t ht)).resolve_right id
    cases hsource : source.file with
    | none =>
      have hshut : (op.scope m.memory).Spares m.memory t va source :=
        Memory.Scope.spares_of_shut fun f hf => absurd (hsource.symm.trans hf) nofun
      exact hopen (.inl hthere) hshut
    | some f =>
      -- It does not write to the file, so it comes to the same where the file is sealed.
      have hsealed := Operation.comes_sealed hm hleaves.1 hperform (hnot f hsource)
      have hsound : (m.memory.sealed f).Sound := (hm.elsewhere rfl (m.files.sealed f)).sound
      have hshut : (op.scope (m.memory.sealed f)).Spares (m.memory.sealed f) t va source := by
        refine Memory.Scope.spares_of_shut fun g hg => ?_
        obtain rfl := Option.some.inj (hsource.symm.trans hg)
        exact FileStore.shut_sealed
      obtain ⟨hagrees, hsafe⟩ := hsealed.rereads m.files hsound (Memory.safe_sealed.mpr hsafe)
        (op.secures hsound htargets hstays hremains (.inl hthere) hshut)
      exact ⟨hagrees, (Memory.safe_sealed.mp hsafe).carries hafter⟩
  · have hlone : m.memory.Lone op.Target t va source := hunrivalled.lone hmatched ht
    exact hopen (hkept (hkeeps t))
      (Memory.Scope.spares_of_lone hm.sound hlone fun _ => Operation.Brings.within)

omit [ReplacementPolicy π] in
/-- Nothing is shared on a machine on which nothing has run. -/
theorem Machine.matched_start (count : Nat) (device : Device) (policy : π) (files : FileStore) :
    (Machine.start count device policy files).memory.Matched where
  alike := by
    intro s t va p q _ hp
    cases (start_spaceless count device policy files s va).1.symm.trans hp
  sole := by
    rintro s t va - ⟨e, he, -⟩
    cases (start_spaceless count device policy files s va).2.symm.trans he

/-- All reads on the way find the bytes that the page had at first. -/
theorem Runs.rereads (h : Runs (Operation.LeavesIntact s va source) m calls after) (hm : m.memory.Valid)
    (hmatched : m.memory.Matched) (hcarries : m.memory.Carries s va source bytes)
    (hremains : m.memory.Remains after.memory s va) :
    (∀ call ∈ calls, call.Agrees s va source bytes) ∧ after.memory.Carries s va source bytes := by
  induction h with
  | refl => exact ⟨List.forall_mem_nil _, hcarries⟩
  | @step m₁ after calls op reply hrun hop hperform ih =>
    obtain ⟨p, q, hp, hq, hsame⟩ := hremains
    have hvalid := hrun.valid hm fun _ _ hop => hop.1.1
    obtain ⟨_, hbefore⟩ := hrun.evolves hm fun _ _ hop => hop.1.1
    obtain ⟨_, hlast⟩ := ((Operation.perform_ends hvalid hop.1.1).of_ok hperform).passes.evolves
    -- The page that is there in the end is there before the last operation.
    rcases hbefore.outline_or_gone hm.sound hp with ⟨r, hr, houtline⟩ | hgone
    · have hserial : r.serial = p.serial := congrArg Prod.fst houtline
      obtain ⟨hcalls, hmid⟩ := ih ⟨p, r, hp, hr, hserial⟩
      obtain ⟨hagrees, hafter⟩ := hop.rereads hvalid (hmatched.evolves hm.sound hbefore) hperform hmid
        ⟨r, q, hr, hq, hsame.trans hserial.symm⟩
      exact ⟨List.forall_mem_append.mpr ⟨hcalls, List.forall_mem_singleton.mpr hagrees⟩, hafter⟩
    · exact absurd ⟨q, hq, hsame⟩ (hgone.evolves hlast).absent

/-- Eviction does not show. Take a page of a file on any machine that operations lead to, which is in a
frame with a dirty page, itself or one that it was forked from, or has the bytes that its file has. As
long as the page is there, its process does not write to it, nothing moves it or the dirty page out of
their frame, and each operation spares the bytes, all its reads find the same bytes, whatever is asked
by whom and whatever is evicted, claimed, forked and ended on the way. -/
theorem rereads_of_runs {count : Nat} {device : Device} {policy : π} {files : FileStore} {addr : Nat}
    {calls' : List Call} {p q : Page}
    (hm : Runs Operation.Allowed (Machine.start count device policy files) calls m)
    (hp : m.page? s addr = some p) (hfile : p.isFile = true)
    (hhonest : (∃ t, m.memory.Backs t s (pageDown addr)) ∨ ∀ n, p.frame = some n →
      (m.contents n).toList.take p.source.readBytes = p.source.shown m.files)
    (hruns : Runs (Operation.LeavesIntact s (pageDown addr) p.source) m calls' after)
    (hq : after.page? s addr = some q) (hsame : q.serial = p.serial) :
    ∃ bytes, ∀ call ∈ calls', call.Agrees s (pageDown addr) p.source bytes := by
  have hstart := Machine.valid_start count device policy files
  have hvalid := hm.valid hstart fun _ _ hop => hop
  obtain ⟨_, hevolves⟩ := hm.evolves hstart fun _ _ hop => hop
  have hmatched := (Machine.matched_start count device policy files).evolves hstart.sound hevolves
  obtain ⟨bytes, hcarries⟩ := Memory.Carries.of_honest (v := m.memory) hp hfile hhonest
  exact ⟨bytes, (hruns.rereads hvalid hmatched hcarries ⟨p, q, hp, hq, hsame⟩).1⟩

/-- A child reads what its parent has written to a page that they share. The parent ends, and the file
has what it wrote. Then the page of the child is evicted, comes back, and is read again. -/
theorem rereads_after_eviction : ∃ calls calls', ∃ m after : Machine Fifo, ∃ p,
    Runs Operation.Allowed (.start 1 { name := "swap", kind := .swap, size := 16, disk := .zeroed 16 } {}
      { nodes := #[{ contents := [1, 2, 3] }] }) calls m ∧
    Runs (Operation.LeavesIntact 1 65536 p.source) m calls' after ∧ m.page? 1 65536 = some p ∧
    (m.space 1).directory.isDirty 65536 = false ∧
    (m.files.node 0).contents = [1, 2, 3] ∧ (after.files.node 0).contents = [7, 2, 3] ∧
    calls'.map Call.reply = [.read [7] none, .done, .read [0] none, .read [7] none] ∧
    ∃ bytes, ∀ call ∈ calls', call.Agrees 1 65536 p.source bytes := by
  obtain ⟨calls, m, hrun, hcheck⟩ := Runs.of_afterAll Operation.Allowed
    (m := .start 1 { name := "swap", kind := .swap, size := 16, disk := .zeroed 16 } ({} : Fifo)
      { nodes := #[{ contents := [1, 2, 3] }] })
    [.createProcess 1, .map 0 65536 3 true 0 0, .writeUser 0 65536 [7],
      .insert 0 8192 true (.anonymous .zeroed none), .fork 0 2]
    (fun m => decide (m.memory.Backs 0 1 65536) && !(m.space 1).directory.isDirty 65536 &&
      decide ((m.files.node 0).contents = [1, 2, 3]) &&
      (m.page? 1 65536).any fun p : Page => p.isFile &&
        (m.history? (fun m op => op.Leaves 1 65536 m ∧ p.source.Takes m.files ∧
            m.memory.Unrivalled op.Target 1 65536 p.source)
          [.readUser 1 65536 1, .exit 0, .readUser 1 8192 1, .readUser 1 65536 1]).any
            fun later : List Call × Machine Fifo =>
              decide ((later.2.files.node 0).contents = [7, 2, 3]) &&
              decide (later.1.map Call.reply =
                [.read [7] none, .done, .read [0] none, .read [7] none]) &&
              (later.2.page? 1 65536).any fun q : Page => decide (q.serial = p.serial)) (by decide +kernel)
  simp only [Bool.and_eq_true, Bool.not_eq_true', decide_eq_true_eq] at hcheck
  obtain ⟨⟨⟨hbacks, hclean⟩, hbefore⟩, hcheck⟩ := hcheck
  obtain ⟨p, hp, hcheck⟩ := (Option.any_eq_true _ _).mp hcheck
  obtain ⟨hfile, hcheck⟩ := Bool.and_eq_true_iff.mp hcheck
  obtain ⟨calls', after, hruns, hcheck⟩ := Runs.of_history? _ _ _ hcheck
  simp only [Bool.and_eq_true, Option.any_eq_true, decide_eq_true_eq] at hcheck
  obtain ⟨⟨hafter, hreplies⟩, q, hq, hsame⟩ := hcheck
  have hintact : Runs (Operation.LeavesIntact 1 65536 p.source) m calls' after :=
    hruns.mono fun _ _ hop => ⟨hop.1, .inr ⟨fun _ _ => .inr hop.2.1, hop.2.2⟩⟩
  refine ⟨calls, calls', m, after, p, hrun, hintact, hp, hclean, hbefore, hafter, hreplies, ?_⟩
  exact rereads_of_runs hrun hp hfile (.inl ⟨0, hbacks⟩) hintact hq hsame

/-- After a fork a write moves the page of the parent to a frame of its own. The copy of the child has
the bytes that the parent had written before, but it is clean: once it is evicted, they are lost, while
nobody has written to the file. -/
theorem reads_differ_after_fork : ∃ calls calls', ∃ m m₁ m₂ m₃ : Machine Fifo, ∃ p q,
    Runs Operation.Allowed (.start 2 { name := "swap", kind := .swap, size := 16, disk := .zeroed 16 } {}
      { nodes := #[{ contents := [1, 2, 3] }] }) calls m ∧
    m.page? 1 65536 = some p ∧ p.isFile = true ∧ 0 < p.source.readBytes ∧
    (Operation.readUser 1 65536 1).perform m = .ok (.read [7] none) m₁ ∧
    Runs (Operation.Leaves 1 65536) m₁ calls' m₂ ∧
    (∀ call ∈ calls', (call.files.node 0).contents = [1, 2, 3]) ∧
    (Operation.readUser 1 65536 1).perform m₂ = .ok (.read [1] none) m₃ ∧
    m₃.page? 1 65536 = some q ∧ q.serial = p.serial ∧ (m₃.files.node 0).contents = [1, 2, 3] := by
  obtain ⟨calls, m, hrun, hcheck⟩ := Runs.of_afterAll Operation.Allowed
    (m := .start 2 { name := "swap", kind := .swap, size := 16, disk := .zeroed 16 } ({} : Fifo)
      { nodes := #[{ contents := [1, 2, 3] }] })
    [.createProcess 1, .map 0 65536 3 true 0 0, .writeUser 0 65536 [7], .fork 0 2, .writeUser 0 65537 [9]]
    (fun m => (m.page? 1 65536).any fun p : Page => p.isFile && decide (0 < p.source.readBytes) &&
      ((Operation.readUser 1 65536 1).outcome? m).any fun first : Reply × Machine Fifo =>
        decide (first.1 = .read [7] none) && (first.2.history? (Operation.Leaves 1 65536)
          [.insert 1 131072 true (.anonymous .zeroed none), .writeUser 1 131072 [5], .remove 1 131072]).any
            fun h : List Call × Machine Fifo =>
              decide (∀ call ∈ h.1, (call.files.node 0).contents = [1, 2, 3]) &&
              ((Operation.readUser 1 65536 1).outcome? h.2).any fun second : Reply × Machine Fifo =>
                decide (second.1 = .read [1] none) && decide ((second.2.files.node 0).contents = [1, 2, 3]) &&
                (second.2.page? 1 65536).any fun q : Page => decide (q.serial = p.serial)) (by decide +kernel)
  obtain ⟨p, hp, hcheck⟩ := (Option.any_eq_true _ _).mp hcheck
  obtain ⟨hpage, hcheck⟩ := Bool.and_eq_true_iff.mp hcheck
  obtain ⟨⟨reply, m₁⟩, hfirst, hcheck⟩ := (Option.any_eq_true _ _).mp hcheck
  obtain ⟨hreply, hcheck⟩ := Bool.and_eq_true_iff.mp hcheck
  obtain ⟨calls', m₂, hruns, hcheck⟩ := Runs.of_history? _ _ _ hcheck
  simp only [Bool.and_eq_true, Option.any_eq_true, decide_eq_true_eq] at hpage hreply hcheck
  obtain ⟨hsame, ⟨reply', m₃⟩, hsecond, ⟨hreply', hfiles⟩, q, hq, hserial⟩ := hcheck
  subst hreply hreply'
  exact ⟨calls, calls', m, m₁, m₂, m₃, p, q, hrun, hp, hpage.1, hpage.2,
    Operation.perform_of_outcome? hfirst, hruns, hsame, Operation.perform_of_outcome? hsecond, hq, hserial,
    hfiles⟩

end Runs

end DemandPaging
