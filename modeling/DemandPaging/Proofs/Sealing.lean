import DemandPaging.Proofs.FileWindow

/-! # Writing to a file

Whether an operation writes to a file shows once the file takes no bytes. An operation that then comes
to the same has not written to it, and its way through memory can be followed where the file is
sealed. The bytes that a clean page has from its file are spared there, and also where no other page
has any of them to write back.
-/
namespace DemandPaging
open Memory (Change Step)

namespace FileStore
variable {files files' : FileStore} {f g position count : Nat} {bytes : List UInt8}

/-- The files, where `f` takes no bytes. -/
def sealed (files : FileStore) (f : Nat) : FileStore :=
  files.setLimits f (files.node f).readLimit (some 0)

/-- Nothing can be written to file `f`: it takes no bytes, or has none. -/
def Shut (files : FileStore) (f : Nat) : Prop :=
  (files.transferLimits f).2 = some 0 ∨ files.length f = 0

theorem contents_sealed : ((files.sealed f).node g).contents = (files.node g).contents := by
  simp only [sealed, setLimits, modify, node, Array.getD_eq_getD_getElem?, Array.getElem?_modify]
  split
  · cases files.nodes[g]? <;> rfl
  · rfl

theorem shut_sealed : (files.sealed f).Shut f := by
  unfold Shut
  cases hnode : files.nodes[f]? with
  | none =>
    right
    have hnone : files.node f = default := by rw [node, Array.getD_eq_getD_getElem?, hnode]; rfl
    rw [length, FileNode.length, contents_sealed, hnone]
    rfl
  | some node =>
    left
    simp only [transferLimits, sealed, setLimits, modify, FileStore.node, Array.getD_eq_getD_getElem?,
      Array.getElem?_modify, hnode, if_true]
    rfl

/-- A write to a file that is shut moves nothing. -/
theorem Shut.of_writeAt (h : files.Shut f) (hw : files.writeAt f position bytes = (count, files')) :
    count = 0 ∧ (files'.node f).contents = (files.node f).contents := by
  have hcount : count = 0 := by
    have hmoved := count_writeAt hw
    rcases h with hlimit | hempty
    · rw [hlimit] at hmoved
      simpa [FileNode.allowed] using hmoved
    · rw [hempty, Nat.zero_sub, Nat.min_zero] at hmoved
      exact hmoved
  refine ⟨hcount, List.ext_getElem? fun i => ?_⟩
  rw [getElem?_writeAt hw, if_neg (by omega)]

end FileStore

theorem Source.shown_sealed {source : Source} {files : FileStore} {f : Nat} :
    source.shown (files.sealed f) = source.shown files :=
  Source.shown_congr fun _ _ => FileStore.contents_sealed

namespace Memory
variable {π : Type} {u v w : Memory π} {f s va : Nat} {source : Source} {bytes : List UInt8}

/-- Memory, where file `f` takes no bytes. -/
def sealed (v : Memory π) (f : Nat) : Memory π := { v with files := v.files.sealed f }

theorem holds_sealed : (v.sealed f).Holds s va source bytes ↔ v.Holds s va source bytes := by
  constructor
  · intro h
    exact ⟨h.page, h.held, fun hd => Source.shown_sealed.symm.trans (h.saved hd)⟩
  · intro h
    exact ⟨h.page, h.held, fun hd => Source.shown_sealed.trans (h.saved hd)⟩

/-- The page at `a` has some of the bytes of a file that the source tells of, and is dirty or one of those
in `written`. -/
def Rivals (v : Memory π) (written : Nat → Nat → Prop) (source : Source) (t a : Nat) (p : Page) : Prop :=
  p.isFile = true ∧ p.source.file = source.file ∧ (v.Dirty t a ∨ written t a) ∧
    p.source.offset < source.offset + source.readBytes ∧
    source.offset < p.source.offset + p.source.readBytes

/-- No page but the one at `va` may come to be written back over its bytes. -/
def Lone (v : Memory π) (written : Nat → Nat → Prop) (s va : Nat) (source : Source) : Prop :=
  ∀ {t a p}, v.pages t a = some p → v.Rivals written source t a p → t = s ∧ a = va

/-- A change that writes only to pages in `written`, and puts no page of a file there. -/
def Change.Within (written : Nat → Nat → Prop) : Change → Prop
  | .write t a _ _ => written t a
  | .insert t page => written t page.va → page.isFile = false
  | .copy _ dst page => ¬written dst page.va
  | .remove .. | .spawn _ | .drop => True

variable [ReplacementPolicy π] {written : Nat → Nat → Prop}

/-- A page appears where it is inserted, or where a copy of one is put. -/
theorem Alters.adds {c : Change} {q : Page} (ha : v.Alters c w) (hnone : v.pages s va = none)
    (hq : w.pages s va = some q) :
    c = .insert s q ∧ q.va = va ∨ ∃ src page, c = .copy src s page ∧ page.va = va := by
  have hset {t a : Nat} {x : Option Page} (hw : w.pages = setAt v.pages t a x) :
      (s = t ∧ va = a) ∧ x = some q := by
    rw [hw, setAt_apply] at hq
    split at hq
    · rename_i hat
      exact ⟨hat, hq⟩
    · cases hnone.symm.trans hq
  cases ha with
  | write | spawn | drop => cases hnone.symm.trans hq
  | @insert t page =>
    obtain ⟨⟨rfl, rfl⟩, ⟨⟩⟩ := hset (t := t) (a := page.va) rfl
    exact .inl ⟨rfl, rfl⟩
  | @remove t page => cases (hset (pages_discard v t page)).2
  | @copy src dst page =>
    obtain ⟨⟨rfl, rfl⟩, -⟩ := hset (pages_adopt ..)
    exact .inr ⟨src, page, rfl, rfl⟩

namespace Lone

omit [ReplacementPolicy π] in
theorem apart (h : v.Lone written s va source) : v.Apart s va source := by
  intro t a p hne hp hfile hsource hd
  by_contra hover
  exact hne (h hp ⟨hfile, hsource, .inl hd, by omega, by omega⟩)

theorem step (h : v.Lone written s va source) (hs : Step v w) : w.Lone written s va source := by
  rintro t a q hq ⟨hfile, hsource, hmark, hover⟩
  obtain ⟨p, hp, houtline⟩ := hs.exists_of_page hq
  simp only [Page.outline, Prod.mk.injEq] at houtline
  obtain ⟨-, -, -, hsource', hfile'⟩ := houtline
  rw [hsource'] at hsource hover
  exact h hp ⟨hfile'.symm.trans hfile, hsource, hmark.imp_left hs.dirty_of, hover⟩

/-- Only a write marks a page dirty, and a new page is none of those that are marked. -/
theorem change {c : Change} (h : v.Lone written s va source) (hv : v.Sound) (ha : v.Alters c w)
    (hc : c.Within written) : w.Lone written s va source := by
  rintro t a q hq ⟨hfile, hsource, hmark, hover⟩
  have hbefore : v.Dirty t a ∨ written t a := by
    rcases hmark with hd | hin
    · by_cases hwrite : ∃ start new, c = .write t a start new
      · obtain ⟨start, new, rfl⟩ := hwrite
        exact .inr hc
      · exact .inl (ha.dirty_before hd fun start new heq => hwrite ⟨start, new, heq⟩)
    · exact .inr hin
  rcases ha.page_cases t a with ⟨hsame, -⟩ | ⟨hnone, -⟩ | ⟨-, -, -, -, hgone⟩
  · exact h (hsame.symm.trans hq) ⟨hfile, hsource, hbefore, hover⟩
  · -- A new page is not mapped, and where something is written it is not of a file.
    rcases hbefore with ⟨e, he, -⟩ | hin
    · obtain ⟨p, hp, -⟩ := hv.mapped he
      cases hnone.symm.trans hp
    · rcases ha.adds hnone hq with ⟨rfl, rfl⟩ | ⟨src, page, rfl, rfl⟩
      · cases hfile.symm.trans (hc hin)
      · exact absurd hin hc
  · cases hgone.symm.trans hq

end Lone

/-- From `v` on nothing that the scope permits reaches the bytes that the page at `va` has from its file
while it is clean. -/
def Scope.Spares (S : Scope) (v : Memory π) (s va : Nat) (source : Source) : Prop :=
  ∀ x y, S.Passes v x → Step x y → ¬x.Dirty s va → source.shown y.files = source.shown x.files

theorem Scope.Spares.later {S : Scope} (h : S.Spares v s va source) (hp : S.Passes v u) :
    S.Spares u s va source :=
  fun x y hx => h x y (hp.trans hx)

theorem Course.length_eq {moves : Nat → Nat → Prop} {cs : List Change} (h : Course moves cs v w)
    (f : Nat) : w.files.length f = v.files.length f :=
  h.keeps (I := fun u => u.files.length f = v.files.length f) rfl
    (fun hs _ heq => hs.length_eq.trans heq)
    fun _ ha _ heq => (congrArg List.length ha.files_eq.1).trans heq

theorem Course.transferLimits_eq {moves : Nat → Nat → Prop} {cs : List Change}
    (h : Course moves cs v w) (f : Nat) : w.files.transferLimits f = v.files.transferLimits f :=
  h.keeps (I := fun u => u.files.transferLimits f = v.files.transferLimits f) rfl
    (fun _ hk heq => (hk.transfers f).trans heq) fun _ ha _ heq => ha.files_eq.2.trans heq

theorem Scope.Passes.shut {S : Scope} (h : S.Passes v w) (hv : v.files.Shut f) : w.files.Shut f := by
  obtain ⟨cs, hcourse, -⟩ := h
  rwa [FileStore.Shut, hcourse.transferLimits_eq, hcourse.length_eq]

theorem Step.contents_of_shut (hs : Step v w) (hv : v.files.Shut f) :
    (w.files.node f).contents = (v.files.node f).contents := by
  rcases hs.contents_or f with hsame | ⟨_, _, _, _, _, -, -, -, -, -, hwrite⟩
  · exact hsame
  · exact (hv.of_writeAt hwrite).2

theorem Scope.Passes.contents_of_shut {S : Scope} (h : S.Passes v w) (hv : v.files.Shut f) :
    (w.files.node f).contents = (v.files.node f).contents := by
  obtain ⟨cs, hcourse, hcs⟩ := h
  induction hcourse with
  | refl => rfl
  | step hfirst hs _ ih =>
    exact (hs.contents_of_shut (Passes.shut ⟨_, hfirst, hcs⟩ hv)).trans (ih hv hcs)
  | change _ ha _ ih => exact ha.files_eq.1.trans (ih hv (List.forall_mem_append.mp hcs).1)

/-- What is in a file that is shut is spared. -/
theorem Scope.spares_of_shut {S : Scope} (h : ∀ f, source.file = some f → v.files.Shut f) :
    S.Spares v s va source :=
  fun _ _ hp hs _ => Source.shown_congr fun f hf => hs.contents_of_shut (hp.shut (h f hf))

/-- So are the bytes of a page that no other page has to write back. -/
theorem Scope.spares_of_lone {S : Scope} (hv : v.Sound) (h : v.Lone written s va source)
    (hS : ∀ c, S.brings c → c.Within written) : S.Spares v s va source := by
  rintro x y ⟨cs, hcourse, hcs⟩ hs hclean
  obtain ⟨hlone, -⟩ : x.Lone written s va source ∧ x.Sound := by
    refine hcourse.keeps (I := fun u => u.Lone written s va source ∧ u.Sound) ⟨h, hv⟩ ?_ ?_
    · exact fun hs _ ⟨hu, hsound⟩ => ⟨hu.step hs, hsound.step hs⟩
    · exact fun hmem ha _ ⟨hu, hsound⟩ =>
        ⟨hu.change hsound ha (hS _ (hcs _ hmem)), hsound.evolves (.of_change ha)⟩
  exact hs.shown_of_apart hlone.apart hclean

end Memory

variable {π : Type} [ReplacementPolicy π] {m after : Machine π} {op : Operation} {reply : Reply}
  {v : Memory π} {f s va : Nat} {source : Source}

omit [ReplacementPolicy π] in
/-- An operation brings no writes but to its target. -/
theorem Operation.Brings.target {op : Operation} {t a start : Nat} {new : List UInt8}
    (h : op.Brings v (.write t a start new)) : op.Target t a := by
  have hstack {s : Nat} : ¬(Change.write t a start new).OfStack s := by
    rintro (⟨serial, va, -, ⟨⟩⟩ | ⟨page, ⟨⟩⟩)
  cases op with
  | writeUser | copyTo =>
    rcases h with hc | ⟨i, hi, chunk, -, ⟨⟩⟩
    · exact (hstack hc).elim
    · exact ⟨rfl, i, hi, rfl⟩
  | pageFault | resolveFault | readUser | copyFrom => exact (hstack h).elim
  | fork =>
    obtain (hc | ⟨page, hc⟩ | ⟨page, hc⟩ | hc) := h
    all_goals cases hc
  | createProcess | createTable => cases h
  | setStackPointer | openFile | closeFile | claim | evict => exact h.elim
  | load =>
    obtain ⟨page, ⟨⟩, -⟩ := h
  | map =>
    obtain ⟨page, source, ⟨⟩, -⟩ := h
  | insert | unmap | exit | kill | remove | copyTable =>
    obtain ⟨page, ⟨⟩⟩ := h

omit [ReplacementPolicy π] in
/-- An operation writes only to its targets, and puts no page of a file there. -/
theorem Operation.Brings.within {c : Change} (h : op.Brings v c) : c.Within op.Target := by
  cases op with
  | writeUser | copyTo =>
    rcases h with (⟨serial, va, -, rfl⟩ | ⟨page, rfl⟩) | ⟨i, hi, chunk, -, rfl⟩
    · exact fun _ => rfl
    · trivial
    · exact ⟨rfl, i, hi, rfl⟩
  | _ =>
    cases c with
    | write => exact Operation.Brings.target h
    | insert | copy => exact fun hin => hin.elim
    | remove | spawn | drop => trivial

/-- The machine, where file `f` takes no bytes. -/
def Machine.sealed (m : Machine π) (f : Nat) : Machine π := { m with files := m.files.sealed f }

/-- The operation writes to file `f`: it would not come to the same if the file took no bytes. -/
def Operation.WritesTo (op : Operation) (m : Machine π) (f : Nat) : Prop :=
  ∃ reply after, op.perform m = .ok reply after ∧ op.perform (m.sealed f) ≠ .ok reply (after.sealed f)

/-- What does not write to a file comes to the same where the file takes no bytes. -/
theorem Operation.comes_sealed (hm : m.memory.Valid) (hop : op.Allowed m)
    (hp : op.perform m = .ok reply after) (hnot : ¬op.WritesTo m f) :
    op.Comes (m.memory.sealed f) (after.memory.sealed f) reply := by
  have hsealed : op.perform (m.sealed f) = .ok reply (after.sealed f) := by
    by_contra hne
    exact hnot ⟨reply, after, hp, hne⟩
  have hvalid : (m.sealed f).memory.Valid := hm.elsewhere rfl (m.files.sealed f)
  exact (Operation.perform_ends hvalid hop).of_ok hsealed

/-- A file that changes is written to. -/
theorem Operation.contents_of_not_writesTo (hm : m.memory.Valid) (hop : op.Allowed m)
    (hp : op.perform m = .ok reply after) (hnot : ¬op.WritesTo m f) :
    (after.files.node f).contents = (m.files.node f).contents := by
  have hsame := (Operation.comes_sealed hm hop hp hnot).passes.contents_of_shut FileStore.shut_sealed
  exact FileStore.contents_sealed.symm.trans (hsame.trans FileStore.contents_sealed)

end DemandPaging
