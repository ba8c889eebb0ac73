import DemandPaging.Proofs.Evolution

/-! # The course of an operation

Memory may evolve in more ways than any one operation makes it. A `Course` says closer what an
operation does: which pages a write may have moved out of a frame that others use, that no file moves
more or less in one transfer than before, and that a page of a file goes only once its bytes are
written back. Forgetting this gives how memory has evolved.
-/
namespace DemandPaging

theorem FileNode.allowed_le (limit : Option Nat) (size : Nat) : allowed limit size ≤ size := by
  cases limit with
  | none => exact Nat.le_refl _
  | some limit => exact Nat.min_le_left ..

namespace FileStore

/-- How many bytes one read and one write of a file move at most. -/
def transferLimits (files : FileStore) (file : Nat) : Option Nat × Option Nat :=
  ((files.node file).readLimit, (files.node file).writeLimit)

variable {files files' : FileStore} {file position count f : Nat} {bytes : List UInt8}

theorem transferLimits_modify {g : FileNode → FileNode}
    (hg : ∀ node, files.nodes[file]? = some node →
      (g node).readLimit = node.readLimit ∧ (g node).writeLimit = node.writeLimit) :
    (files.modify file g).transferLimits f = files.transferLimits f := by
  simp only [transferLimits, modify, node, Array.getD_eq_getD_getElem?, Array.getElem?_modify]
  split
  · rename_i heq
    subst heq
    cases hnode : files.nodes[file]? with
    | none => rfl
    | some node => exact Prod.ext (hg node hnode).1 (hg node hnode).2
  · rfl

theorem transferLimits_retain : (files.retain file).transferLimits f = files.transferLimits f :=
  transferLimits_modify fun _ _ => ⟨rfl, rfl⟩

theorem transferLimits_release : (files.release file).transferLimits f = files.transferLimits f :=
  transferLimits_modify fun _ _ => ⟨rfl, rfl⟩

theorem transferLimits_retainSource (source : Source) :
    (files.retainSource source).transferLimits f = files.transferLimits f := by
  unfold retainSource
  split
  · exact transferLimits_retain
  · rfl

theorem transferLimits_releaseSource (source : Source) :
    (files.releaseSource source).transferLimits f = files.transferLimits f := by
  unfold releaseSource
  split
  · exact transferLimits_release
  · rfl

theorem transferLimits_writeAt (h : files.writeAt file position bytes = (count, files')) :
    files'.transferLimits f = files.transferLimits f := by
  simp only [writeAt, Prod.mk.injEq] at h
  rw [← h.2]
  refine transferLimits_modify fun node hnode => ?_
  have : files.node file = node := by
    simp only [FileStore.node, Array.getD_eq_getD_getElem?, hnode, Option.getD_some]
  simp only [FileNode.writeAt, this, and_self]

theorem count_writeAt (h : files.writeAt file position bytes = (count, files')) :
    count = min (FileNode.allowed (files.transferLimits file).2 bytes.length)
      (files.length file - position) := by
  simp only [writeAt, FileNode.writeAt, Prod.mk.injEq] at h
  exact h.1.symm

theorem contents_writeAt_self (h : files.writeAt file position bytes = (count, files')) :
    (files'.node file).contents = splice (files.node file).contents position (bytes.take count) := by
  simp only [writeAt, FileNode.writeAt, Prod.mk.injEq] at h
  rw [← h.2, ← h.1]
  simp only [modify, node, Array.getD_eq_getD_getElem?, Array.getElem?_modify, if_true]
  cases files.nodes[file]? with
  | none =>
    -- A file that there is not has no bytes, and takes none.
    have hlen : (Option.getD (none : Option FileNode) default).length - position = 0 := Nat.zero_sub _
    rw [hlen, Nat.min_zero, List.take_zero]
    simp [splice, dropLike, default]
  | some node => rfl

theorem contents_writeAt (h : files.writeAt file position bytes = (count, files')) (hne : f ≠ file) :
    (files'.node f).contents = (files.node f).contents := by
  simp only [writeAt, Prod.mk.injEq] at h
  rw [← h.2]
  simp only [modify, node, Array.getD_eq_getD_getElem?, Array.getElem?_modify, if_neg (Ne.symm hne)]

theorem length_writeAt (h : files.writeAt file position bytes = (count, files')) :
    files'.length f = files.length f := by
  by_cases hf : f = file
  · subst hf
    have hcount := count_writeAt h
    have hfit : (bytes.take count).length ≤ (files.node f).contents.length - position := by
      rw [List.length_take, hcount]
      exact Nat.le_trans (Nat.min_le_left ..) (Nat.min_le_right ..)
    exact (congrArg List.length (contents_writeAt_self h)).trans (length_splice _ _ _ hfit)
  · exact congrArg List.length (contents_writeAt h hf)

end FileStore

/-- The file of the source is there, and takes all the bytes that a page has from it. -/
def Source.Takes (source : Source) (files : FileStore) : Prop :=
  ∃ file, source.file = some file ∧ (files.transferLimits file).2 = none ∧
    source.readBytes ≤ files.length file - source.offset

namespace Memory
variable {π : Type}

/-- The page at `va` shares its frame with others. -/
def Shared (v : Memory π) (s va : Nat) : Prop :=
  ∃ p n, v.pages s va = some p ∧ p.frame = some n ∧ (v.frames n).refcount ≠ 1

/-- Transfers move as much as before, and only pages in `moves` have gone from one frame to another. -/
structure Steady (moves : Nat → Nat → Prop) (v w : Memory π) : Prop where
  transfers : ∀ f, w.files.transferLimits f = v.files.transferLimits f
  stays : ∀ {s va p q n k}, ¬moves s va → v.pages s va = some p → p.frame = some n →
    w.pages s va = some q → q.frame = some k → k = n

/-- A dirty page of a file is not given up while its file takes all its bytes. -/
def Change.Settled (v : Memory π) : Change → Prop
  | remove s page => page.isFile = true → v.Dirty s page.va → ¬page.source.Takes v.files
  | _ => True

namespace Steady
variable {moves : Nat → Nat → Prop} {v w : Memory π}

theorem of_pages (hp : w.pages = v.pages)
    (ht : ∀ f, w.files.transferLimits f = v.files.transferLimits f) : Steady moves v w where
  transfers := ht
  stays _ hpage hn hq hk := by
    rw [hp, hpage] at hq
    cases hq
    exact Option.some.inj (hk.symm.trans hn)

theorem of_setAt {s va : Nat} {x : Option Page} (hp : w.pages = setAt v.pages s va x)
    (ht : ∀ f, w.files.transferLimits f = v.files.transferLimits f)
    (hx : ¬moves s va → ∀ p q n k, v.pages s va = some p → p.frame = some n → x = some q →
      q.frame = some k → k = n) : Steady moves v w where
  transfers := ht
  stays := by
    intro t a p q n k hm hpage hn hq hk
    rw [hp, setAt_apply] at hq
    split at hq
    · rename_i hat
      rw [hat.1, hat.2] at hm hpage
      exact hx hm p q n k hpage hn hq hk
    · rw [hpage] at hq
      cases hq
      exact Option.some.inj (hk.symm.trans hn)

theorem mono {moves' : Nat → Nat → Prop} (h : Steady moves v w)
    (hle : ∀ s va, moves s va → moves' s va) : Steady moves' v w where
  transfers := h.transfers
  stays hm := h.stays fun hin => hm (hle _ _ hin)

end Steady

theorem Flushed.transfers {v w : Memory π} {s va n : Nat} {source : Source}
    (h : v.Flushed s va n source w) (f : Nat) :
    w.files.transferLimits f = v.files.transferLimits f := by
  cases h with
  | clean => rfl
  | done hs he hd hw => exact FileStore.transferLimits_writeAt hw

theorem FlushedShort.transfers {v w : Memory π} {s va n : Nat} {source : Source}
    (h : v.FlushedShort s va n source w) (f : Nat) :
    w.files.transferLimits f = v.files.transferLimits f := by
  cases h with
  | detached => rfl
  | short hs he hd hw => exact FileStore.transferLimits_writeAt hw

theorem FlushedShort.same {v w : Memory π} {s va n : Nat} {source : Source}
    (h : v.FlushedShort s va n source w) : w.pages = v.pages := by
  cases h <;> rfl

variable [ReplacementPolicy π]

/-- How an operation makes memory evolve, by steps and the listed changes, where only pages in
`moves` go from one frame to another. -/
inductive Course (moves : Nat → Nat → Prop) : List Change → Memory π → Memory π → Prop
  | refl (v : Memory π) : Course moves [] v v
  | step {cs : List Change} {u v w : Memory π} (h : Course moves cs u v) (hs : Step v w)
    (hk : Steady moves v w) : Course moves cs u w
  | change {cs : List Change} {c : Change} {u v w : Memory π} (h : Course moves cs u v)
    (ha : Alters v c w) (hc : c.Settled v) : Course moves (cs ++ [c]) u w

/-- No page goes from one frame to another. -/
abbrev Quiet : List Change → Memory π → Memory π → Prop := Course fun _ _ => False

/-- Paging alone, and no page goes from one frame to another. -/
abbrev Rests : Memory π → Memory π → Prop := Quiet []

namespace Course
variable {moves moves' : Nat → Nat → Prop} {cs cs' : List Change} {u v w : Memory π}

theorem of_step (h : Step u v) (hk : Steady moves u v) : Course moves [] u v := .step (.refl u) h hk

theorem of_change {c : Change} (h : Alters u c v) (hc : c.Settled u) : Course moves [c] u v :=
  .change (.refl u) h hc

theorem evolves (h : Course moves cs u v) : Evolves cs u v := by
  induction h with
  | refl => exact .refl _
  | step _ hs _ ih => exact .step ih hs
  | change _ ha _ ih => exact .change ih ha

theorem trans (h : Course moves cs u v) (h' : Course moves cs' v w) :
    Course moves (cs ++ cs') u w := by
  induction h' with
  | refl =>
    rw [List.append_nil]
    exact h
  | step _ hs hk ih => exact .step (ih h) hs hk
  | change _ ha hc ih =>
    rw [← List.append_assoc]
    exact .change (ih h) ha hc

theorem mono (h : Course moves cs u v) (hle : ∀ s va, moves s va → moves' s va) :
    Course moves' cs u v := by
  induction h with
  | refl => exact .refl _
  | step _ hs hk ih => exact .step ih hs (hk.mono hle)
  | change _ ha hc ih => exact .change ih ha hc

theorem of_quiet (h : Quiet cs u v) : Course moves cs u v := h.mono fun _ _ => False.elim

theorem rests (h : Course moves cs u v) (h' : Rests v w) : Course moves cs u w := by
  have := h.trans (of_quiet h')
  rwa [List.append_nil] at this

/-- Before the first of its changes a course is paging alone. -/
theorem uncons {c : Change} (h : Course moves (c :: cs) u w) : ∃ v v', Course moves [] u v ∧
    Alters v c v' ∧ c.Settled v ∧ Course moves cs v' w := by
  generalize hall : c :: cs = all at h
  induction h generalizing cs with
  | refl => cases hall
  | step _ hs hk ih =>
    obtain ⟨v, v', hfirst, ha, hset, hrest⟩ := ih hall
    exact ⟨v, v', hfirst, ha, hset, hrest.step hs hk⟩
  | @change before last u v w h ha hset ih =>
    rcases before with _ | ⟨first, before⟩
    · obtain ⟨rfl, rfl⟩ := List.cons_eq_cons.mp hall
      exact ⟨v, w, h, ha, hset, .refl w⟩
    · obtain ⟨rfl, rfl⟩ := List.cons_eq_cons.mp hall
      obtain ⟨x, x', hfirst, ha', hset', hrest⟩ := ih rfl
      exact ⟨x, x', hfirst, ha', hset', hrest.change ha hset⟩

/-- What every step of the course keeps, and every one of the changes, is kept. -/
theorem keeps {I : Memory π → Prop} (h : Course moves cs u v) (hu : I u)
    (hs : ∀ {v w}, Step v w → Steady moves v w → I v → I w)
    (hc : ∀ {v c w}, c ∈ cs → Alters v c w → c.Settled v → I v → I w) : I v := by
  induction h with
  | refl => exact hu
  | step _ h hk ih => exact hs h hk (ih hu hc)
  | change _ h hset ih =>
    exact hc (List.mem_append_right _ (List.mem_singleton_self _)) h hset
      (ih hu fun hmem => hc (List.mem_append_left _ hmem))

theorem spaces_eq (h : Course moves cs u v) (hcs : ∀ c ∈ cs, c.Inside) : v.spaces = u.spaces :=
  h.evolves.spaces_eq hcs

end Course

/-- Nothing has changed but serials, counts of handles, and slots that no page has. -/
structure Spared (v w : Memory π) : Prop where
  same : w = { v with nextSerial := w.nextSerial, swap := w.swap, files := w.files }
  serial : v.nextSerial ≤ w.nextSerial
  swap : v.swap.Agrees w.swap
  contents : ∀ f, (w.files.node f).contents = (v.files.node f).contents
  transfers : ∀ f, w.files.transferLimits f = v.files.transferLimits f

theorem Spared.rests {v w : Memory π} (h : Spared v w) : Rests v w := by
  obtain ⟨hsame, hserial, hswap, hcontents, htransfers⟩ := h
  have hserials : Rests v { v with nextSerial := w.nextSerial } :=
    .of_step (.serial hserial) (.of_pages rfl fun _ => rfl)
  rw [hsame]
  exact (hserials.step (.swap hswap) (.of_pages rfl fun _ => rfl)).step (.handles hcontents)
    (.of_pages rfl htransfers)

/-- What an operation may do to memory: which pages it may move from one frame to another, and which
changes it may bring. -/
structure Scope where
  moves : Nat → Nat → Prop
  brings : Change → Prop

/-- Memory goes from one state to another within the scope. -/
def Scope.Passes (S : Scope) (v w : Memory π) : Prop :=
  ∃ cs, Course S.moves cs v w ∧ ∀ c ∈ cs, S.brings c

namespace Scope.Passes
variable {S : Scope} {c : Change} {u v w : Memory π}

theorem refl (v : Memory π) : S.Passes v v := ⟨[], .refl v, List.forall_mem_nil _⟩

theorem step (h : S.Passes u v) (hs : Step v w) (hk : Steady S.moves v w) : S.Passes u w := by
  obtain ⟨cs, hcourse, hcs⟩ := h
  exact ⟨cs, hcourse.step hs hk, hcs⟩

theorem change (h : S.Passes u v) (ha : v.Alters c w) (hset : c.Settled v) (hc : S.brings c) :
    S.Passes u w := by
  obtain ⟨cs, hcourse, hcs⟩ := h
  exact ⟨_, hcourse.change ha hset, List.forall_mem_append.mpr ⟨hcs, List.forall_mem_singleton.mpr hc⟩⟩

theorem trans (h : S.Passes u v) (h' : S.Passes v w) : S.Passes u w := by
  obtain ⟨cs, hcourse, hcs⟩ := h
  obtain ⟨cs', hcourse', hcs'⟩ := h'
  exact ⟨_, hcourse.trans hcourse', List.forall_mem_append.mpr ⟨hcs, hcs'⟩⟩

theorem evolves (h : S.Passes u v) : ∃ cs, Evolves cs u v := by
  obtain ⟨cs, hcourse, -⟩ := h
  exact ⟨cs, hcourse.evolves⟩

end Scope.Passes

end Memory

end DemandPaging
