import DemandPaging.Proofs.FileWindow
import DemandPaging.Proofs.Rereads

/-! # How files change

No process writes to a file. It writes to its pages, which marks them dirty, and paging writes dirty
pages back. In `Signed` memory each dirty page is writable and has been written to by the process that
it belongs to, so that behind every byte of a file that changes there is such a page.
-/
namespace DemandPaging
open Memory (Change)

namespace Memory
variable {π : Type} {u v w : Memory π} {f i s va : Nat} {T T' : Nat → Nat → Nat → Prop}

/-- A dirty page is writable, and has been written to as `T` tells of its place and serial. -/
def Signed (T : Nat → Nat → Nat → Prop) (v : Memory π) : Prop :=
  ∀ s va, v.Dirty s va → ∃ p, v.pages s va = some p ∧ p.writable = true ∧ T s va p.serial

/-- Byte `i` of file `f`, which is one of those that a dirty page has from the file, becomes what it is
in the frame of that page. -/
structure Deposits (v w : Memory π) (f i s va : Nat) (page : Page) : Prop where
  found : v.pages s va = some page
  isFile : page.isFile = true
  file : page.source.file = some f
  dirty : v.Dirty s va
  within : page.source.offset ≤ i ∧ i < page.source.offset + page.source.readBytes
  inside : i < v.files.length f
  byte : ∃ n, page.frame = some n ∧
    (w.files.node f).contents[i]? = (v.frames n).contents.toList[i - page.source.offset]?

/-- No page of the file may be written. -/
def ReadOnly (f : Nat) (v : Memory π) : Prop :=
  ∀ s va p, v.pages s va = some p → p.isFile = true → p.source.file = some f → p.writable = false

/-- A change that adds no page of the file that may be written. -/
def Change.Protects (f : Nat) : Change → Prop
  | .insert _ page => page.isFile = true → page.source.file = some f → page.writable = false
  | _ => True

namespace Signed

theorem mono (h : v.Signed T) (hle : ∀ s va serial, T s va serial → T' s va serial) :
    v.Signed T' := by
  intro s va hd
  obtain ⟨p, hp, hwritable, hT⟩ := h s va hd
  exact ⟨p, hp, hwritable, hle _ _ _ hT⟩

variable [ReplacementPolicy π]

theorem step (h : v.Signed T) (hs : Step v w) : w.Signed T := by
  intro s va hd
  obtain ⟨p, hp, hwritable, hT⟩ := h s va (hs.dirty_of hd)
  obtain ⟨q, hq, houtline⟩ := (Evolves.of_step hs).exists_page hp
  simp only [Page.outline, Prod.mk.injEq] at houtline
  obtain ⟨hserial, -, hwritable', -, -⟩ := houtline
  exact ⟨q, hq, hwritable'.trans hwritable, hserial ▸ hT⟩

/-- Only a write to a page makes it dirty, and it needs a page that may be written. -/
theorem change {c : Change} (h : v.Signed T) (hv : v.Sound) (ha : v.Alters c w)
    (hc : ∀ {s va p start new}, c = .write s va start new → v.pages s va = some p → T s va p.serial) :
    w.Signed T := by
  intro s va hd
  by_cases hwrite : ∃ start new, c = .write s va start new
  · obtain ⟨start, new, rfl⟩ := hwrite
    cases ha with
    | @write t a n start new page e record hp hf he hw =>
      exact ⟨page, hp, (hv.exclusive he hw hp).1, hc rfl hp⟩
  · have hbefore := ha.dirty_before hd fun start new heq => hwrite ⟨start, new, heq⟩
    obtain ⟨p, hp, hwritable, hT⟩ := h s va hbefore
    rcases ha.page_cases s va with ⟨hsame, -⟩ | ⟨hnone, -⟩ | ⟨-, -, -, -, hnone⟩
    · exact ⟨p, hsame.trans hp, hwritable, hT⟩
    · cases hnone.symm.trans hp
    · obtain ⟨e, he, -⟩ := hd
      obtain ⟨q, hq, -⟩ := (hv.evolves (.of_change ha)).mapped he
      cases hnone.symm.trans hq

end Signed

namespace ReadOnly
variable [ReplacementPolicy π]

theorem step (h : v.ReadOnly f) (hs : Step v w) : w.ReadOnly f := by
  intro s va q hq hfile hsource
  obtain ⟨p, hp, houtline⟩ := hs.exists_of_page hq
  simp only [Page.outline, Prod.mk.injEq] at houtline
  obtain ⟨-, -, hwritable, hsource', hfile'⟩ := houtline
  exact hwritable.trans <| h s va p hp (hfile'.symm.trans hfile)
    ((congrArg Source.file hsource').symm.trans hsource)

theorem change {c : Change} (h : v.ReadOnly f) (ha : v.Alters c w) (hc : c.Protects f) :
    w.ReadOnly f := by
  intro s va q hq hfile hsource
  cases ha with
  | write | spawn | drop => exact h _ _ _ hq hfile hsource
  | @insert t page hlt hva hnone hserial hf hb =>
    replace hq : setAt v.pages t page.va (some page) s va = some q := hq
    rw [setAt_apply] at hq
    split at hq
    · obtain rfl := Option.some.inj hq
      exact hc hfile hsource
    · exact h _ _ _ hq hfile hsource
  | @remove t page hp =>
    rw [pages_discard, setAt_apply] at hq
    split at hq
    · cases hq
    · exact h _ _ _ hq hfile hsource
  | @copy src dst page backing swap hp hdst hnone hfit hb =>
    rw [pages_adopt, setAt_apply] at hq
    split at hq
    · obtain rfl := Option.some.inj hq
      obtain ⟨hsource', hfile'⟩ := hb.outline_eq
      exact h src page.va page hp (hfile'.symm.trans hfile)
        ((congrArg Source.file hsource').symm.trans hsource)
    · exact h _ _ _ hq hfile hsource

end ReadOnly

variable [ReplacementPolicy π]

/-- What a step changes in a file it has from a dirty page. -/
theorem Step.deposits (hs : Step v w)
    (hne : (w.files.node f).contents[i]? ≠ (v.files.node f).contents[i]?) :
    ∃ s va page, v.Deposits w f i s va page := by
  rcases hs.contents_or f with hsame | ⟨s, va, p, n, count, hp, hn, hfile, hsource, hd, hwrite⟩
  · rw [hsame] at hne
    exact absurd rfl hne
  · have hinside : i < v.files.length f := by
      by_contra hout
      refine hne ((List.getElem?_eq_none ?_).trans (List.getElem?_eq_none (Nat.le_of_not_lt hout)).symm)
      exact Nat.le_trans (Nat.le_of_eq hs.length_eq) (Nat.le_of_not_lt hout)
    have hcount := FileStore.count_le_of_writeAt hwrite
    have hle := List.length_take_le p.source.readBytes (v.frames n).contents.toList
    rw [FileStore.getElem?_writeAt hwrite] at hne
    split at hne
    · rename_i hin
      refine ⟨s, va, p, hp, hfile, hsource, hd, ⟨hin.1, by omega⟩, hinside, n, hn, ?_⟩
      rw [FileStore.getElem?_writeAt hwrite, if_pos hin, List.getElem?_take, if_pos (by omega)]
    · exact absurd rfl hne

namespace Scope
variable {S : Scope}

/-- On the way from `v` to `w` within the scope, space `s` writes to the page with this serial, which
it has at `va`. -/
def Writes (S : Scope) (v w : Memory π) (s va serial : Nat) : Prop :=
  ∃ u u' start new, S.Passes v u ∧ u.At s va serial ∧ S.brings (.write s va start new) ∧
    u.Alters (.write s va start new) u' ∧ S.Passes u' w

/-- On the way from `v` to `w` within the scope byte `i` of file `f` is overwritten from a page, which
may be written and was written to, as `T` tells or on the way. -/
def Reaches (S : Scope) (T : Nat → Nat → Nat → Prop) (v w : Memory π) (f i : Nat) : Prop :=
  ∃ u u' s va page, S.Passes v u ∧ Step u u' ∧ S.Passes u' w ∧ u.Deposits u' f i s va page ∧
    page.writable = true ∧ (T s va page.serial ∨ S.Writes v u s va page.serial)

theorem Writes.passes {serial : Nat} (h : S.Writes v u s va serial) (hp : S.Passes u w) :
    S.Writes v w s va serial := by
  obtain ⟨x, x', start, new, hx, hat, hbrings, ha, hu⟩ := h
  exact ⟨x, x', start, new, hx, hat, hbrings, ha, hu.trans hp⟩

theorem Reaches.passes (h : S.Reaches T v u f i) (hp : S.Passes u w) : S.Reaches T v w f i := by
  obtain ⟨x, x', s, va, page, hx, hs, hu, hpage⟩ := h
  exact ⟨x, x', s, va, page, hx, hs, hu.trans hp, hpage⟩

/-- What is written on the way signs the pages that get dirty there. -/
theorem Passes.signed (h : S.Passes v w) (hv : v.Sound) (hT : v.Signed T) :
    w.Signed fun s va serial => T s va serial ∨ S.Writes v w s va serial := by
  obtain ⟨cs, hcourse, hcs⟩ := h
  induction hcourse with
  | refl => exact hT.mono fun _ _ _ => .inl
  | step hfirst hs hk ih =>
    have hlast := (Passes.refl _).step hs hk
    exact ((ih hv hT hcs).step hs).mono fun _ _ _ => Or.imp_right fun hw => hw.passes hlast
  | @change cs c v u w hfirst ha hset ih =>
    obtain ⟨hbefore, hc⟩ := List.forall_mem_append.mp hcs
    replace hc := hc _ (List.mem_singleton_self _)
    have hlast := (Passes.refl u).change ha hset hc
    have hsigned := (ih hv hT hbefore).mono fun _ _ _ => Or.imp_right fun hw => hw.passes hlast
    refine hsigned.change (hv.evolves hfirst.evolves) ha ?_
    rintro s va p start new rfl hp
    exact .inr ⟨u, w, start, new, ⟨cs, hfirst, hbefore⟩, ⟨p, hp, rfl⟩, hc, ha, .refl w⟩

/-- Behind every byte of a file that changes there is a page that was written to. -/
theorem Passes.reaches (h : S.Passes v w) (hv : v.Sound) (hT : v.Signed T)
    (hne : (w.files.node f).contents[i]? ≠ (v.files.node f).contents[i]?) : S.Reaches T v w f i := by
  obtain ⟨cs, hcourse, hcs⟩ := h
  induction hcourse with
  | refl => exact absurd rfl hne
  | @step cs v u w hfirst hs hk ih =>
    by_cases hsame : (w.files.node f).contents[i]? = (u.files.node f).contents[i]?
    · exact (ih hv hT (hsame ▸ hne) hcs).passes ((Passes.refl u).step hs hk)
    · have hbefore : S.Passes v u := ⟨cs, hfirst, hcs⟩
      obtain ⟨s, va, page, hdeposit⟩ := hs.deposits hsame
      obtain ⟨p, hp, hwritable, hwritten⟩ := hbefore.signed hv hT _ _ hdeposit.dirty
      obtain rfl := Option.some.inj (hp.symm.trans hdeposit.found)
      exact ⟨u, w, s, va, p, hbefore, hs, .refl w, hdeposit, hwritable, hwritten⟩
  | @change cs c v u w hfirst ha hset ih =>
    obtain ⟨hcs, hc⟩ := List.forall_mem_append.mp hcs
    rw [ha.files_eq.1] at hne
    exact (ih hv hT hne hcs).passes
      ((Passes.refl u).change ha hset (hc _ (List.mem_singleton_self _)))

theorem Passes.readOnly (h : S.Passes v w) (hS : ∀ c, S.brings c → c.Protects f)
    (hv : v.ReadOnly f) : w.ReadOnly f := by
  obtain ⟨cs, hcourse, hcs⟩ := h
  refine hcourse.keeps (I := fun u => u.ReadOnly f) hv ?_ ?_
  · exact fun hs _ hread => hread.step hs
  · exact fun hmem ha _ hread => hread.change ha (hS _ (hcs _ hmem))

/-- A file that no page may be written of stays as it is. -/
theorem Passes.contents_eq (h : S.Passes v w) (hS : ∀ c, S.brings c → c.Protects f) (hv : v.Sound)
    (hT : v.Signed T) (hread : v.ReadOnly f) :
    (w.files.node f).contents = (v.files.node f).contents := by
  apply List.ext_getElem?
  intro i
  by_contra hne
  obtain ⟨u, u', s, va, page, hu, -, -, hdeposit, hwritable, -⟩ := h.reaches hv hT hne
  have hprotected := hu.readOnly hS hread _ _ _ hdeposit.found hdeposit.isFile hdeposit.file
  cases hwritable.symm.trans hprotected

end Scope

end Memory

/-- The file is mapped so that it may be written. -/
def Operation.MapsWritable (f : Nat) : Operation → Prop
  | insert _ _ writable backing =>
    writable = true ∧ backing.isFile = true ∧ backing.source.file = some f
  | map _ _ _ writable file _ => writable = true ∧ file = f
  | _ => False

variable {π : Type} [ReplacementPolicy π] {v w : Memory π} {f : Nat}

omit [ReplacementPolicy π] in
theorem LaidOut.protects {s file length va offset count : Nat} {writable : Bool} {cs : List Change}
    (h : LaidOut s file length writable va offset count cs) (hf : file = f → writable = false) :
    ∀ c ∈ cs, c.Protects f := by
  induction h with
  | nil => exact List.forall_mem_nil _
  | cons serial hva _ ih =>
    refine List.forall_mem_cons.mpr ⟨fun _ hsource => ?_, ih⟩
    exact hf (Option.some.inj hsource)

omit [ReplacementPolicy π] in
theorem Memory.Change.OfStack.protects {s : Nat} {c : Change} (h : c.OfStack s) : c.Protects f := by
  obtain ⟨serial, va, -, rfl⟩ | ⟨page, rfl⟩ := h
  · exact nofun
  · trivial

/-- What operations bring that map no file so that it may be written. Of `map` this is known from how
its pages are laid out. -/
theorem Operation.Comes.protects {op : Operation} {reply : Reply} (h : op.Comes v w reply)
    (hop : ¬op.MapsWritable f) :
    Memory.Scope.Passes { moves := op.Moves v, brings := Change.Protects f } v w := by
  have hof (hbrings : ∀ c, op.Brings v c → c.Protects f) :
      Memory.Scope.Passes { moves := op.Moves v, brings := Change.Protects f } v w := by
    obtain ⟨cs, hcourse, hcs⟩ := h.passes
    exact ⟨cs, hcourse, fun c hc => hbrings c (hcs c hc)⟩
  cases op with
  | map s addr length writable file offset =>
    obtain ⟨cs, hquiet, ⟨-, -, -, hcs⟩ | ⟨-, rfl⟩⟩ := h
    · refine ⟨cs, .of_quiet hquiet, hcs.protects fun heq => ?_⟩
      exact eq_false_of_ne_true fun hwritable => hop ⟨hwritable, heq⟩
    · exact ⟨[], .of_quiet hquiet, List.forall_mem_nil _⟩
  | insert s va writable backing =>
    apply hof
    rintro _ ⟨serial, rfl⟩ hfile hsource
    exact eq_false_of_ne_true fun hwritable => hop ⟨hwritable, hfile, hsource⟩
  | load s h' =>
    apply hof
    rintro _ ⟨page, rfl, -, hprogram⟩ hfile
    cases hprogram.isFile_eq.symm.trans hfile
  | pageFault | resolveFault | readUser | copyFrom => exact hof fun c hc => Change.OfStack.protects hc
  | writeUser | copyTo =>
    apply hof
    rintro c (hc | ⟨i, -, start, chunk, rfl⟩)
    · exact hc.protects
    · trivial
  | fork =>
    apply hof
    rintro c (rfl | ⟨page, rfl⟩ | ⟨page, rfl⟩ | rfl) <;> trivial
  | createProcess | createTable =>
    apply hof
    rintro _ rfl
    trivial
  | setStackPointer | openFile | closeFile | claim | evict => exact hof fun _ => False.elim
  | unmap | exit | kill | remove | copyTable =>
    apply hof
    rintro _ ⟨page, rfl⟩
    trivial

section Runs
variable {m after : Machine π} {calls : List Call} {s va serial : Nat}

/-- One of the calls between two machines wrote to the page with this serial, which space `s` then had
at `va`. -/
def Machine.Written (m after : Machine π) (calls : List Call) (s va serial : Nat) : Prop :=
  ∃ (op : Operation) (reply : Reply) (m₁ m₂ : Machine π) (first rest : List Call),
    calls = first ++ ⟨m₁.files, op, reply⟩ :: rest ∧ Runs Operation.Allowed m first m₁ ∧
      op.Allowed m₁ ∧ op.perform m₁ = .ok reply m₂ ∧ op.Target s va ∧
      (op.scope m₁.memory).Writes m₁.memory m₂.memory s va serial ∧ Runs Operation.Allowed m₂ rest after

theorem Machine.Written.step {m₁ : Machine π} {op : Operation} {reply : Reply}
    (h : m.Written m₁ calls s va serial) (hop : op.Allowed m₁) (hp : op.perform m₁ = .ok reply after) :
    m.Written after (calls ++ [⟨m₁.files, op, reply⟩]) s va serial := by
  obtain ⟨op', reply', m₂, m₃, first, rest, rfl, hfirst, hop', hp', htarget, hwrites, hrest⟩ := h
  exact ⟨op', reply', m₂, m₃, first, _, List.append_assoc .., hfirst, hop', hp', htarget, hwrites,
    hrest.step hop hp⟩

theorem Runs.signed (h : Runs Operation.Allowed m calls after) (hm : m.memory.Valid)
    (hclean : ∀ s va, ¬m.memory.Dirty s va) : after.memory.Signed (m.Written after calls) := by
  induction h with
  | refl => exact fun s va hd => absurd hd (hclean s va)
  | @step m₁ after calls op reply hrun hop hp ih =>
    have hvalid := hrun.valid hm fun _ _ hop => hop
    have hpasses := ((Operation.perform_ends hvalid hop).of_ok hp).passes
    refine (hpasses.signed hvalid.sound ih).mono ?_
    rintro s va serial (hbefore | hwrites)
    · exact hbefore.step hop hp
    · have htarget : op.Target s va := by
        obtain ⟨_, _, _, _, -, -, hbrings, -⟩ := hwrites
        exact Operation.Brings.target hbrings
      exact ⟨op, reply, m₁, after, calls, [], rfl, hrun, hop, hp, htarget, hwrites, .refl _⟩

/-- No operation changes how long a file is, or how much a transfer of it moves. -/
theorem Runs.file_shape (h : Runs Operation.Allowed m calls after) (hm : m.memory.Valid) :
    after.files.length f = m.files.length f ∧
      after.files.transferLimits f = m.files.transferLimits f := by
  induction h with
  | refl => exact ⟨rfl, rfl⟩
  | step hrun hop hp ih =>
    have hvalid := hrun.valid hm fun _ _ hop => hop
    obtain ⟨cs, hcourse, -⟩ := ((Operation.perform_ends hvalid hop).of_ok hp).passes
    exact ⟨(hcourse.length_eq f).trans ih.1, (hcourse.transferLimits_eq f).trans ih.2⟩

/-- A file stays as it is while no operation maps it so that it may be written. -/
theorem Runs.contents_eq (h : Runs Operation.Allowed m calls after) (hm : m.memory.Valid)
    (hclean : ∀ s va, ¬m.memory.Dirty s va) (hread : m.memory.ReadOnly f)
    (hcalls : ∀ call ∈ calls, ¬call.op.MapsWritable f) :
    after.memory.ReadOnly f ∧ (after.files.node f).contents = (m.files.node f).contents := by
  induction h with
  | refl => exact ⟨hread, rfl⟩
  | step hrun hop hp ih =>
    obtain ⟨hcalls, hlast⟩ := List.forall_mem_append.mp hcalls
    obtain ⟨hread, hsame⟩ := ih hcalls
    have hvalid := hrun.valid hm fun _ _ hop => hop
    have hcomes := (Operation.perform_ends hvalid hop).of_ok hp
    have hpasses := hcomes.protects (hlast _ (List.mem_singleton_self _))
    have hsigned := hrun.signed hm hclean
    exact ⟨hpasses.readOnly (fun _ => id) hread,
      (hpasses.contents_eq (fun _ => id) hvalid.sound hsigned hread).trans hsame⟩

end Runs

end DemandPaging
