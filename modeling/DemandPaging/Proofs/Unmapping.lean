import DemandPaging.Proofs.Links
import DemandPaging.Proofs.SystemCalls

/-! # Unmapping stays inside a mapping

Pages of files come from calls that map them, or are copies of such pages. What is left of a mapping is
always its first pages, whatever was unmapped, so the chain from one of its pages on leads through all
pages of the mapping behind it. It leads further only where a mapping was cut and another one begins in
the gap: the last page that is left still says that the mapping goes on.
-/
namespace DemandPaging

/-- The addresses mapped by one call, which is known by its place in the history. -/
structure MappedRange where
  call : Nat
  start : Nat
  stop : Nat
deriving DecidableEq

/-- The mapping that the page of a file at an address of a space is from. -/
abbrev Origins := Nat → Nat → Option MappedRange

/-- The origins after a call. Whatever is mapped is from that call, and copies are from where their
originals are. -/
def Origins.after (of : Origins) (call : Nat) (c : Call) : Origins :=
  match c.op, c.reply with
  | .map s addr length _ _ _, .address _ => fun t a =>
    if t = s ∧ addr ≤ a ∧ a < addr + mappedPages length * pageSize then
      some ⟨call, addr, addr + mappedPages length * pageSize⟩
    else of t a
  | .fork s _, .space child => fun t => of (if t = child then s else t)
  | .copyTable src dst, .done => fun t => of (if t = dst then src else t)
  | _, _ => of

def origins (calls : List Call) : Origins :=
  calls.zipIdx.foldl (fun of c => of.after c.2 c.1) fun _ _ => none

theorem origins_concat (calls : List Call) (c : Call) :
    origins (calls ++ [c]) = (origins calls).after calls.length c := by
  rw [origins, List.zipIdx_append, List.foldl_append]
  simp [origins]

namespace Operation
variable {π : Type} [ReplacementPolicy π]

/-- What keeps mappings in order: pages of files come by mapping and by copying whole tables, and go by
unmapping or with their table. -/
def KeepsMappings (m : Machine π) (op : Operation) : Prop :=
  op.Allowed m ∧ match op with
    | insert _ _ _ backing => backing.isFile = false
    | remove .. => False
    | copyTable .. => (op.outcome? m).map Prod.fst = some .done
    | _ => True

instance (m : Machine π) (op : Operation) : Decidable (op.KeepsMappings m) :=
  @instDecidableAnd _ _ _ <| match op with
    | insert _ _ _ backing => inferInstanceAs (Decidable (backing.isFile = false))
    | remove .. => .isFalse id
    | copyTable src dst =>
      inferInstanceAs (Decidable (((copyTable src dst).outcome? m).map Prod.fst = some .done))
    | createProcess _ | createTable .. | setStackPointer .. | load .. | openFile .. | closeFile ..
    | map .. | unmap .. | pageFault .. | readUser .. | writeUser .. | fork .. | exit _ | claim ..
    | resolveFault .. | copyFrom .. | copyTo .. | kill _ | evict _ => .isTrue trivial

end Operation

namespace Machine
variable {π : Type}

/-- The page at `va` is one of a file, and is from this mapping. -/
def FromMapping (m : Machine π) (of : Origins) (s va : Nat) (range : MappedRange) : Prop :=
  (∃ p, m.page? s va = some p ∧ p.isFile = true) ∧ of s (pageDown va) = some range

instance (m : Machine π) (of : Origins) (s va : Nat) (range : MappedRange) :
    Decidable (m.FromMapping of s va range) :=
  decidable_of_iff ((m.page? s va).any (·.isFile) = true ∧ of s (pageDown va) = some range) <| by
    simp only [FromMapping, Option.any_eq_true]

/-- What is left of a mapping has been cut, and right behind it is a page of another mapping. -/
def RunsOn (m : Machine π) (of : Origins) (s : Nat) (range : MappedRange) : Prop :=
  ∃ va other, m.FromMapping of s va range ∧ va + pageSize < range.stop ∧
    m.FromMapping of s (va + pageSize) other ∧ other ≠ range

theorem fromMapping_iff {m : Machine π} {of : Origins} {s va : Nat} {range : MappedRange} :
    m.FromMapping of s va range ↔
      m.memory.link s (pageDown va) ≠ none ∧ of s (pageDown va) = some range := by
  rw [FromMapping, Option.ne_none_iff_exists']
  simp only [Memory.link_eq_some, page?_eq, exists_comm (α := Bool), exists_and_left, exists_eq',
    and_true]

theorem fromMapping_of_link {m : Machine π} {of : Origins} {s va a : Nat} {range : MappedRange}
    {chained : Bool} (hlink : m.memory.link s a = some chained) (hof : of s a = some range)
    (ha : pageDown va = a) : m.FromMapping of s va range := by
  subst ha
  exact fromMapping_iff.mpr ⟨by rw [hlink]; exact Option.some_ne_none _, hof⟩

/-- The pages of space `s` from that of `addr` up to `stop` are gone. -/
structure Unmapped (m after : Machine π) (of : Origins) (s addr stop : Nat) (range : MappedRange) :
    Prop where
  /-- No other page is. -/
  exactly : ∀ t a, after.page? t a =
    if t = s ∧ pageDown addr ≤ a ∧ a < stop then none else m.page? t a
  /-- They are pages of files. -/
  mapped : ∀ a, pageDown addr ≤ a → a < stop → ∃ other, m.FromMapping of s a other
  /-- All pages are among them that the mapping still has from there on. -/
  all : ∀ a, pageDown addr ≤ a → m.FromMapping of s a range → a < stop
  /-- They are pages of that mapping, unless it runs on into another one. -/
  only : ¬m.RunsOn of s range → ∀ a, pageDown addr ≤ a → a < stop → m.FromMapping of s a range

end Machine

/-- The links of the pages of files tell where their mappings end, and of a mapping the first pages are
there, up to some page. -/
structure Traced (f : Links) (of : Origins) : Prop where
  within : ∀ {s a chained}, f s a = some chained → a % pageSize = 0 ∧ a < kernelBase ∧
    ∃ range, of s a = some range ∧ range.start ≤ a ∧ a < range.stop ∧
      chained = decide (a + pageSize < range.stop)
  filled : ∀ {s a b range}, f s a ≠ none → of s a = some range → range.start ≤ b → b ≤ a →
    b % pageSize = 0 → f s b ≠ none ∧ of s b = some range

namespace Traced
variable {f g : Links} {of : Origins} {s va count : Nat}

/-- Whole tables go. -/
theorem of_rows (h : Traced f of) (hg : ∀ t, g t = f t ∨ ∀ a, g t a = none) : Traced g of where
  within {s a chained} hlink := by
    rcases hg s with hsame | hnone
    · exact h.within (hsame ▸ hlink)
    · rw [hnone] at hlink
      cases hlink
  filled {s a b range} hlink := by
    rcases hg s with hsame | hnone
    · rw [hsame] at hlink ⊢
      exact h.filled hlink
    · exact absurd (hnone a) hlink

/-- Tables are copied. -/
theorem reindex (h : Traced f of) (row : Nat → Nat) :
    Traced (fun t => f (row t)) fun t => of (row t) where
  within := h.within
  filled := h.filled

/-- Consecutive pages are mapped where there were none. -/
theorem mapped (h : Traced f of) (call : Nat) (hva : va % pageSize = 0)
    (huser : ∀ j < count, va + j * pageSize < kernelBase)
    (hfree : ∀ j < count, f s (va + j * pageSize) = none) :
    Traced
      (fun t a => if t = s ∧ ∃ j < count, a = va + j * pageSize then
        some (decide (a + pageSize < va + count * pageSize)) else f t a)
      (fun t a => if t = s ∧ va ≤ a ∧ a < va + count * pageSize then
        some ⟨call, va, va + count * pageSize⟩ else of t a) := by
  have hmod (j : Nat) : (va + j * pageSize) % pageSize = 0 := by rw [Nat.add_mul_mod_self_right, hva]
  constructor
  · intro t a chained hlink
    split at hlink
    · rename_i hin
      obtain ⟨rfl, j, hj, rfl⟩ := hin
      have hrange := (exists_lt_pages hva (hmod j)).mp ⟨j, hj, rfl⟩
      refine ⟨hmod j, huser j hj, _, if_pos ⟨rfl, hrange⟩, hrange.1, hrange.2, ?_⟩
      exact (Option.some.inj hlink).symm
    · rename_i hout
      obtain ⟨ha, hlt, range, hof, hin⟩ := h.within hlink
      refine ⟨ha, hlt, range, ?_, hin⟩
      rw [if_neg, hof]
      rwa [← exists_lt_pages hva ha]
  · intro t a b range hlink hof hstart hle hb
    split at hof
    · rename_i hin
      obtain rfl := Option.some.inj hof
      have hrange : t = s ∧ va ≤ b ∧ b < va + count * pageSize :=
        ⟨hin.1, hstart, Nat.lt_of_le_of_lt hle hin.2.2⟩
      rw [if_pos ⟨hrange.1, (exists_lt_pages hva hb).mpr hrange.2⟩, if_pos hrange]
      exact ⟨Option.some_ne_none _, rfl⟩
    · rename_i hout
      have hnew : ¬(t = s ∧ ∃ j < count, a = va + j * pageSize) := by
        rintro ⟨rfl, j, hj, rfl⟩
        exact hout ⟨rfl, (exists_lt_pages hva (hmod j)).mp ⟨j, hj, rfl⟩⟩
      rw [if_neg hnew] at hlink
      obtain ⟨hthere, hsame⟩ := h.filled hlink hof hstart hle hb
      -- Where the mapping has a page nothing was mapped.
      have hold : ¬(t = s ∧ ∃ j < count, b = va + j * pageSize) := by
        rintro ⟨rfl, j, hj, rfl⟩
        exact hthere (hfree j hj)
      rw [if_neg hold, if_neg (by rwa [← exists_lt_pages hva hb])]
      exact ⟨hthere, hsame⟩

/-- From one page of a mapping to another all pages are linked. -/
theorem linked (h : Traced f of) {a b x : Nat} {range : MappedRange} (hb : f s b ≠ none)
    (hof : of s b = some range) (hstart : range.start ≤ a) (hx : x % pageSize = 0) (hle : a ≤ x)
    (hlt : x ≤ b) : of s x = some range ∧ ∃ chained, f s x = some chained ∧ (x < b → chained = true) := by
  obtain ⟨hthere, hsame⟩ := h.filled hb hof (Nat.le_trans hstart hle) hlt hx
  obtain ⟨chained, hlink⟩ := Option.ne_none_iff_exists'.mp hthere
  refine ⟨hsame, chained, hlink, fun hbefore => ?_⟩
  obtain ⟨-, -, range', hof', -, -, rfl⟩ := h.within hlink
  obtain rfl := Option.some.inj (hsame.symm.trans hof')
  obtain ⟨y, hy⟩ := Option.ne_none_iff_exists'.mp hb
  obtain ⟨hbmod, -, range', hof', -, hstop, -⟩ := h.within hy
  obtain rfl := Option.some.inj (hof.symm.trans hof')
  simp only [pageSize] at hx hbmod ⊢
  exact decide_eq_true (by omega)

end Traced

namespace Memory
variable {π : Type} {v w : Memory π} {of : Origins} {s va limit k : Nat}

/-- A chain that enters a mapping leads to every page of the mapping behind that. -/
theorem Chain.extend (h : v.Chain s va k) (ht : Traced v.link of) {i j : Nat} {range : MappedRange}
    (hj : j < k) (hva : va % pageSize = 0) (hlink : v.link s (va + i * pageSize) ≠ none)
    (hof : of s (va + i * pageSize) = some range) (hstart : range.start ≤ va + j * pageSize) :
    v.Chain s va (i + 1) := by
  rw [chain_iff] at h ⊢
  intro l hl
  by_cases hbefore : l < j
  · obtain ⟨chained, hlink, hchained⟩ := h l (by omega)
    exact ⟨chained, hlink, fun _ => hchained (by omega)⟩
  · obtain ⟨-, chained, hlink, hchained⟩ := ht.linked (x := va + l * pageSize) hlink hof hstart
      (by simp only [pageSize] at hva ⊢; omega) (by simp only [pageSize]; omega)
      (by simp only [pageSize]; omega)
    exact ⟨chained, hlink, fun hlt => hchained (by simp only [pageSize]; omega)⟩

/-- What an unmapping leaves of a mapping are its first pages. -/
theorem Unchains.traced (h : v.Unchains s va limit k w) (ht : Traced v.link of) (hva : va % pageSize = 0)
    (hlimit : ∀ j, v.Chain s va j → j ≤ limit) : Traced w.link of := by
  have hlink (t a : Nat) : w.link t a =
      if t = s ∧ ∃ j < k, a = va + j * pageSize then none else v.link t a := by
    rw [link, h.pages]
    split <;> rfl
  constructor
  · intro t a chained hw
    rw [hlink] at hw
    split at hw
    · cases hw
    · exact ht.within hw
  · intro t a b range hw hof hstart hle hb
    rw [hlink] at hw ⊢
    split at hw
    · exact absurd rfl hw
    rename_i hstays
    obtain ⟨hthere, hsame⟩ := ht.filled hw hof hstart hle hb
    rw [if_neg]
    · exact ⟨hthere, hsame⟩
    rintro ⟨rfl, j, hj, rfl⟩
    -- The chain that took this page would have taken the one behind it, too.
    obtain ⟨chained, hchained⟩ := Option.ne_none_iff_exists'.mp hw
    have ha := (ht.within hchained).1
    obtain ⟨i, rfl⟩ := exists_pages hva ha (Nat.le_trans (Nat.le_add_right ..) hle)
    have hlonger := h.chain.extend ht hj hva hw hof hstart
    have hmost := h.longest (i + 1) (hlimit _ hlonger) hlonger
    exact hstays ⟨rfl, i, by omega, rfl⟩

end Memory

section Operations
variable {π : Type} [ReplacementPolicy π] {v w : Memory π} {m after : Machine π} {s : Nat}
  {of : Origins} {calls : List Call}

omit [ReplacementPolicy π] in
/-- A whole table that is copied into one without pages gives it the same links. -/
theorem Memory.link_copied {dst : Nat} {pages : List Page} (hv : v.Valid)
    (hpages : ∀ p, p ∈ pages ↔ v.pages s p.va = some p) (hempty : ∀ a, v.pages dst a = none)
    (hw : w.link = (pages.map (.copy s dst)).foldl Links.after v.link) :
    w.link = fun t => v.link (if t = dst then s else t) := by
  by_cases hne : s = dst
  · subst hne
    have hnil : pages = [] := by
      refine List.eq_nil_iff_forall_not_mem.mpr fun p hp => ?_
      rw [hpages, hempty] at hp
      cases hp
    rw [hw, hnil]
    funext t
    show v.link t = _
    split <;> simp_all
  · rw [hw, Links.foldl_copies hne]
    funext t a
    by_cases ht : t = dst
    · subst ht
      simp only [true_and, if_true]
      split
      · rfl
      · rename_i hnot
        rw [Memory.link_of_absent (hempty a)]
        refine (Memory.link_of_absent ?_).symm
        by_contra hp
        obtain ⟨p, hp⟩ := Option.ne_none_iff_exists'.mp hp
        have hva := (hv.sound.kept hp).1
        exact hnot ⟨p, (hpages p).mpr (hva ▸ hp), hva⟩
    · simp [ht]

/-- A fork that fails leaves all links as they are. -/
theorem Memory.link_of_failed_fork {copied removed : List Page} (hv : v.Valid) (hw : w.Valid)
    (hspaces : w.spaces = v.spaces) (hquiet : Quiet (.spawn True :: copied.map (.copy s v.spaces) ++
      removed.map (.remove v.spaces) ++ [.drop]) v w) : w.link = v.link := by
  have hnone {u : Memory π} (hu : u.Valid) (hus : u.spaces = v.spaces) (a : Nat) :
      u.link v.spaces a = none := by
    refine link_of_absent ?_
    by_contra hp
    obtain ⟨p, hp⟩ := Option.ne_none_iff_exists'.mp hp
    exact absurd (hu.sound.kept hp).2.2.1 (by omega)
  funext t a
  by_cases ht : t = v.spaces
  · rw [ht, hnone hw hspaces, hnone hv rfl]
  · rw [hquiet.evolves.link_eq, Links.foldl_elsewhere (s := v.spaces) _ ht]
    simp [or_imp, forall_and, View.Within]

/-- A chain of pages of files goes, or there is none and nothing happens. Pages of files lie in user
memory, which ends before the last of all addresses. -/
theorem unmapFile_unchains (hv : m.memory.Valid) (ht : Traced m.memory.link of) (addr : Nat) :
    Attempt.Ends False (unmapFile s addr) m
      (fun _ after => ∃ k, 0 < k ∧
        m.memory.Unchains s (pageDown addr) (m.space s).pages.size k after.memory)
      fun e after => e = .invalidMapping ∧ (∀ p, m.page? s addr = some p → p.isFile = false) ∧
        after.memory = m.memory := by
  have hstop (a : Nat) (p : Page) (hp : m.memory.pages s a = some p) (hfile : p.isFile = true)
      (hlast : wordLimit ≤ a + pageSize) : False := by
    have huser := (ht.within (Memory.link_eq_some.mpr ⟨p, hp, hfile, rfl⟩)).2.1
    simp only [wordLimit, pageSize, kernelBase] at hlast huser
    omega
  refine ((unmapFile_ends hv hstop addr).and unmapFile_removes).imp ?_ ?_
  · rintro _ after ⟨⟨-, hend⟩, -⟩
    exact hend
  · rintro e after ⟨⟨hunmaps, -⟩, rfl, huntouched⟩
    have hsame : after.memory = m.memory := by
      rw [show after = _ from huntouched]
      rfl
    refine ⟨rfl, fun p hp => ?_, hsame⟩
    rw [Machine.page?_eq] at hp
    exact hunmaps.not_file (by rw [hsame]) hp

/-- Every operation that keeps mappings in order keeps track of them. -/
theorem Operation.KeepsMappings.traced {op : Operation} {reply : Reply} (hop : op.KeepsMappings m)
    (hv : m.memory.Valid) (ht : Traced m.memory.link of) (hp : op.perform m = .ok reply after)
    (files : FileStore) (call : Nat) :
    Traced after.memory.link (of.after call ⟨files, op, reply⟩) := by
  obtain ⟨hallowed, hop⟩ := hop
  have hcomes := (Operation.perform_ends hv hallowed).of_ok hp
  obtain ⟨_, hevolves, -⟩ := hcomes.evolves
  have hafter : after.memory.Valid := hv.evolves hevolves
  have keep (hsame : after.memory.link = m.memory.link) : Traced after.memory.link of := hsame ▸ ht
  cases op with
  | createProcess pid => exact keep hcomes.2.evolves.link_eq
  | createTable admission recordsAccess => exact keep hcomes.2.evolves.link_eq
  | setStackPointer | openFile | closeFile | claim | evict =>
    exact keep (Memory.Course.evolves hcomes).link_eq
  | insert s va writable backing =>
    rcases hcomes with ⟨-, hrests⟩ | ⟨serial, -, hquiet⟩
    · exact keep hrests.evolves.link_eq
    · refine keep (hquiet.evolves.link_eq.trans (Links.foldl_kept ?_))
      exact List.forall_mem_singleton.mpr hop
  | load s h =>
    obtain ⟨cs, hcs, hquiet⟩ := hcomes
    refine keep (hquiet.evolves.link_eq.trans (Links.foldl_kept fun c hc => ?_))
    obtain ⟨page, rfl, -, hpage⟩ := hcs c hc
    exact hpage.isFile_eq
  | map s addr length writable file offset =>
    obtain ⟨cs, hquiet, ⟨rfl, hva, -, hcs⟩ | ⟨⟨e, rfl⟩, rfl⟩⟩ := hcomes
    · rw [hquiet.evolves.link_eq, Links.foldl_laidOut hcs]
      exact ht.mapped call hva (fun j hj => hcs.atUser hj) fun j hj => hcs.link_eq_none hquiet hj
    · exact keep hquiet.evolves.link_eq
  | unmap s addr =>
    have hend : Run.Ends False (Operation.unmap s addr).perform m
        fun _ after => Traced after.memory.link of := by
      refine answer_ends (unmapFile_unchains hv ht addr) ?_ ?_
      · rintro _ after ⟨k, -, hunchains⟩
        exact hunchains.traced ht (pageDown_mod addr) fun j hchain => hchain.le_size
      · rintro e after ⟨-, -, hsame⟩
        rwa [hsame]
    exact hend.of_ok hp
  | pageFault s fault esp | resolveFault s fault esp =>
    obtain ⟨-, cs, hcs, hcourse, -⟩ | ⟨-, cs, hcs, hquiet⟩ := hcomes
    · exact keep (hcourse.evolves.link_eq.trans (Links.foldl_kept hcs.kept))
    · exact keep (hcs.link_eq hquiet)
  | readUser s addr count | copyFrom s esp addr count =>
    obtain ⟨bytes, failure, u, cs, va, -, hreads, hcs, hquiet, -⟩ := hcomes
    exact keep ((hcs.link_eq hquiet).trans hreads.link_eq)
  | writeUser s addr bytes | copyTo s esp addr bytes =>
    obtain ⟨k, cs, us, va, u, hwrote, hus, hquiet, -⟩ := hcomes
    exact keep ((hus.link_eq hquiet).trans hwrote.link_eq)
  | fork s pid =>
    obtain ⟨rfl, pages, hpages, hquiet⟩ | ⟨⟨e, rfl⟩, hspaces, copied, removed, hquiet⟩ := hcomes
    · have hempty (a : Nat) : m.memory.pages m.memory.spaces a = none :=
        (Machine.memory_spaceless (Nat.le_refl _)).1
      rw [Memory.link_copied hv hpages hempty hquiet.evolves.link_eq]
      exact ht.reindex _
    · exact keep (Memory.link_of_failed_fork hv hafter hspaces hquiet)
  | copyTable src dst =>
    obtain ⟨pages, hquiet, hempty, ⟨rfl, hpages⟩ | ⟨e, rfl⟩⟩ := hcomes
    · rw [Memory.link_copied hv hpages hempty hquiet.evolves.link_eq]
      exact ht.reindex _
    · have : (Operation.copyTable src dst).outcome? m = some (.failed e, after) := by
        rw [Operation.outcome?, hp]
      rw [this] at hop
      cases hop
  | exit s | kill s =>
    obtain ⟨pages, hquiet, hgone⟩ := hcomes
    refine ht.of_rows fun t => ?_
    by_cases hts : t = s
    · exact .inr fun a => Memory.link_of_absent (hts ▸ hgone a)
    · refine .inl ?_
      rw [hquiet.evolves.link_eq]
      exact Links.foldl_elsewhere (s := s) (List.forall_mem_map.mpr fun _ _ => rfl) hts
  | remove s va => exact hop.elim

omit [ReplacementPolicy π] in
/-- A chain stays in the mapping that it begins in, unless that one runs on into another: each page is
chained to the next within the mapping. -/
theorem Machine.stays_of_chain {va k : Nat} {range : MappedRange} (ht : Traced m.memory.link of)
    (hva : va % pageSize = 0) (hof : of s va = some range) (hruns : ¬m.RunsOn of s range)
    (h : m.memory.Chain s va k) : ∀ j < k, of s (va + j * pageSize) = some range := by
  have hdown (j : Nat) : pageDown (va + j * pageSize) = va + j * pageSize :=
    pageDown_eq_self (by rw [Nat.add_mul_mod_self_right, hva])
  have hnext (j : Nat) : va + j * pageSize + pageSize = va + (j + 1) * pageSize := by
    rw [Nat.succ_mul, Nat.add_assoc]
  rw [Memory.chain_iff] at h
  intro j hj
  induction j with
  | zero => simpa using hof
  | succ j ih =>
    have hsame := ih (by omega)
    obtain ⟨chained, hlink, hchained⟩ := h j (by omega)
    obtain ⟨next, hlink', -⟩ := h (j + 1) hj
    obtain ⟨-, -, range', hof, -, -, hmore⟩ := ht.within hlink
    obtain rfl := Option.some.inj (hsame.symm.trans hof)
    obtain ⟨-, -, other, hother, -⟩ := ht.within hlink'
    by_contra hne
    refine hruns ⟨_, other, Machine.fromMapping_of_link hlink hof (hdown j),
      of_decide_eq_true (hmore.symm.trans (hchained hj)), ?_, ?_⟩
    · rw [hnext]
      exact Machine.fromMapping_of_link hlink' hother (hdown (j + 1))
    · rintro rfl
      exact hne hother

omit [ReplacementPolicy π] in
/-- What is unmapped with a page is what the chain from it on comes to. -/
theorem Machine.unmapped_of_unchains {addr limit k : Nat} {range : MappedRange}
    (ht : Traced m.memory.link of) (hrange : m.FromMapping of s addr range) (hk : 0 < k)
    (hlimit : ∀ j, m.memory.Chain s (pageDown addr) j → j ≤ limit)
    (h : m.memory.Unchains s (pageDown addr) limit k after.memory) :
    m.Unmapped after of s addr (pageDown addr + k * pageSize) range := by
  have hva := pageDown_mod addr
  rw [Machine.fromMapping_iff] at hrange
  have hat (a : Nat) : (∃ j < k, pageDown a = pageDown addr + j * pageSize) ↔
      pageDown addr ≤ a ∧ a < pageDown addr + k * pageSize := by
    rw [exists_lt_pages hva (pageDown_mod a)]
    simp only [pageDown, pageSize]
    omega
  have hchain := Memory.chain_iff.mp h.chain
  constructor
  · intro t a
    rw [Machine.page?_eq, Machine.page?_eq, h.pages]
    exact if_congr (and_congr_right fun _ => hat a) rfl rfl
  · intro a hle hlt
    obtain ⟨j, hj, ha⟩ := (hat a).mpr ⟨hle, hlt⟩
    obtain ⟨chained, hlink, -⟩ := hchain j hj
    obtain ⟨-, -, other, hof, -⟩ := ht.within hlink
    exact ⟨other, Machine.fromMapping_of_link hlink hof ha⟩
  · intro a hle ha
    rw [Machine.fromMapping_iff] at ha
    have hdown : pageDown addr ≤ pageDown a := by
      simp only [pageDown, pageSize] at *
      omega
    obtain ⟨i, hi⟩ := exists_pages hva (pageDown_mod a) hdown
    obtain ⟨chained, hlink⟩ := Option.ne_none_iff_exists'.mp hrange.1
    obtain ⟨-, -, range', hof, hstart, -⟩ := ht.within hlink
    obtain rfl := Option.some.inj (hrange.2.symm.trans hof)
    rw [hi] at ha
    have hlonger := h.chain.extend ht hk hva ha.1 ha.2 (by rwa [Nat.zero_mul, Nat.add_zero])
    have hmost := h.longest _ (hlimit _ hlonger) hlonger
    exact ((hat a).mp ⟨i, hmost, hi⟩).2
  · intro hruns a hle hlt
    obtain ⟨j, hj, ha⟩ := (hat a).mpr ⟨hle, hlt⟩
    obtain ⟨chained, hlink, -⟩ := hchain j hj
    exact Machine.fromMapping_of_link hlink (Machine.stays_of_chain ht hva hrange.2 hruns h.chain j hj) ha

theorem Runs.traced (h : Runs Operation.KeepsMappings m calls after) (hv : m.memory.Valid)
    (ht : Traced m.memory.link (origins [])) : Traced after.memory.link (origins calls) := by
  induction h with
  | refl => exact ht
  | step hrun hop hp ih =>
    rw [origins_concat]
    exact hop.traced (hrun.valid hv fun _ _ hop => hop.1) ih hp _ _

end Operations

section Runs
variable {π : Type} [ReplacementPolicy π] {m : Machine π} {calls : List Call}

omit [ReplacementPolicy π] in
theorem Machine.traced_start (count : Nat) (device : Device) (policy : π) (files : FileStore)
    (of : Origins) : Traced (start count device policy files).memory.link of := by
  have hnone (s a : Nat) : (start count device policy files).memory.link s a = none :=
    Memory.link_of_absent (start_spaceless ..).1
  constructor
  · intro s a chained hlink
    rw [hnone] at hlink
    cases hlink
  · intro s a b range hlink
    exact absurd (hnone s a) hlink

/-- Whatever was mapped and unmapped, inserted, evicted and forked so far: an unmapping with a page of a
file takes away all pages that are left of its mapping from that one on, and besides these at most pages
of other mappings behind a mapping that was cut. Where it finds no page of a file it is refused and
changes no memory. -/
theorem unmap_of_runs {count : Nat} {device : Device} {policy : π} {files : FileStore}
    (h : Runs Operation.KeepsMappings (Machine.start count device policy files) calls m)
    (s addr : Nat) :
    ∃ reply after, (Operation.unmap s addr).perform m = .ok reply after ∧
      ((reply = .failed .invalidMapping ∧ (∀ p, m.page? s addr = some p → p.isFile = false) ∧
          after.memory = m.memory) ∨
        reply = .done ∧ ∃ range stop, m.FromMapping (origins calls) s addr range ∧
          m.Unmapped after (origins calls) s addr stop range) := by
  have hv := h.valid (Machine.valid_start ..) fun _ _ hop => hop.1
  have ht := h.traced (Machine.valid_start ..) (Machine.traced_start ..)
  have hend : Run.Ends False (Operation.unmap s addr).perform m fun reply after =>
      (reply = .failed .invalidMapping ∧ (∀ p, m.page? s addr = some p → p.isFile = false) ∧
        after.memory = m.memory) ∨
      reply = .done ∧ ∃ range stop, m.FromMapping (origins calls) s addr range ∧
        m.Unmapped after (origins calls) s addr stop range := by
    refine answer_ends (unmapFile_unchains hv ht addr) ?_ ?_
    · rintro _ after ⟨k, hk, hunchains⟩
      obtain ⟨p, hp, hfile, -⟩ := hunchains.chain.head hk
      have hlink := Memory.link_eq_some.mpr ⟨p, hp, hfile, rfl⟩
      obtain ⟨-, -, range, hof, -⟩ := ht.within hlink
      have hrange := Machine.fromMapping_of_link hlink hof rfl
      exact .inr ⟨rfl, range, _, hrange,
        Machine.unmapped_of_unchains ht hrange hk (fun j hchain => hchain.le_size) hunchains⟩
    · rintro e after ⟨rfl, hrefused⟩
      exact .inl ⟨rfl, hrefused⟩
  obtain ⟨reply, after, hp⟩ := hend.answers id
  exact ⟨reply, after, hp, hend.of_ok hp⟩

/-- In a copied space, of a mapping of four pages two of which were unmapped, with an anonymous page in
the place of the third: the second page goes when it is unmapped, and only that one. -/
theorem unmap_in_copy : ∃ calls, ∃ m : Machine Fifo,
    Runs Operation.KeepsMappings (.start 1 { name := "swap", kind := .swap, size := 0, disk := .zeroed 0 } {}
      { nodes := #[{ contents := [1, 2, 3] }] }) calls m ∧
    ∃ after stop, (Operation.unmap 1 69632).perform m = .ok .done after ∧
      m.Unmapped after (origins calls) 1 69632 stop ⟨1, 65536, 81920⟩ ∧
      after.page? 1 65536 = m.page? 1 65536 ∧ after.page? 1 69632 = none ∧
      after.page? 1 73728 = m.page? 1 73728 ∧ (m.page? 1 73728).isSome = true := by
  obtain ⟨calls, m, hrun, hcheck⟩ := Runs.of_history? Operation.KeepsMappings
    (m := .start 1 { name := "swap", kind := .swap, size := 0, disk := .zeroed 0 } ({} : Fifo)
      { nodes := #[{ contents := [1, 2, 3] }] })
    [.createProcess 1, .map 0 65536 16384 true 0 0, .unmap 0 73728,
      .insert 0 73728 true (.anonymous .zeroed none), .fork 0 2]
    (fun h => decide (h.2.FromMapping (origins h.1) 1 69632 ⟨1, 65536, 81920⟩) &&
      (h.2.page? 1 73728).any fun p : Page => !p.isFile) (by decide +kernel)
  simp only [Bool.and_eq_true, decide_eq_true_eq, Option.any_eq_true, Bool.not_eq_true'] at hcheck
  obtain ⟨hfrom, p, hp, hanonymous⟩ := hcheck
  obtain ⟨⟨q, hq, hfile⟩, hof⟩ := id hfrom
  obtain ⟨reply, after, hperform, ⟨-, hother, -⟩ | ⟨rfl, range, stop, ⟨-, hrange⟩, hunmaps⟩⟩ :=
    unmap_of_runs hrun 1 69632
  · exact absurd (hfile.symm.trans (hother q hq)) Bool.true_eq_false.mp
  obtain rfl := Option.some.inj (hof.symm.trans hrange)
  have hstop := hunmaps.all 69632 (Nat.le_refl _) hfrom
  have hbehind : ¬73728 < stop := by
    intro hlt
    obtain ⟨_, ⟨p', hp', hfile'⟩, -⟩ := hunmaps.mapped 73728 (by decide) hlt
    obtain rfl := Option.some.inj (hp.symm.trans hp')
    exact absurd (hanonymous.symm.trans hfile') Bool.false_ne_true
  refine ⟨calls, m, hrun, after, stop, hperform, hunmaps, ?_, ?_, ?_, by rw [hp]; rfl⟩
  · rw [hunmaps.exactly, if_neg (by simp [pageDown, pageSize])]
  · rw [hunmaps.exactly, if_pos ⟨rfl, by decide, hstop⟩]
  · rw [hunmaps.exactly, if_neg fun hin => hbehind hin.2.2]

/-- A mapping that was cut runs on into another one that begins in the gap, and unmapping the first takes
the second away as well. -/
theorem unmap_runs_on : ∃ calls, ∃ m : Machine Fifo,
    Runs Operation.KeepsMappings (.start 1 { name := "swap", kind := .swap, size := 0, disk := .zeroed 0 } {}
      { nodes := #[{ contents := [1, 2, 3] }, { contents := [4, 5, 6] }] }) calls m ∧
    ∃ first second after, m.FromMapping (origins calls) 0 65536 first ∧
      m.FromMapping (origins calls) 0 69632 second ∧ first.call ≠ second.call ∧
      (Operation.unmap 0 65536).perform m = .ok .done after ∧ after.page? 0 69632 = none := by
  obtain ⟨calls, m, hrun, hcheck⟩ := Runs.of_history? Operation.KeepsMappings
    (m := .start 1 { name := "swap", kind := .swap, size := 0, disk := .zeroed 0 } ({} : Fifo)
      { nodes := #[{ contents := [1, 2, 3] }, { contents := [4, 5, 6] }] })
    [.createProcess 1, .map 0 65536 12288 true 0 0, .unmap 0 69632, .map 0 69632 3 true 1 0]
    (fun h => decide (h.2.FromMapping (origins h.1) 0 65536 ⟨1, 65536, 77824⟩) &&
      decide (h.2.FromMapping (origins h.1) 0 69632 ⟨3, 69632, 73728⟩) &&
      ((Operation.unmap 0 65536).outcome? h.2).any fun found : Reply × Machine Fifo =>
        decide (found.1 = .done) && (found.2.page? 0 69632).isNone) (by decide +kernel)
  simp only [Bool.and_eq_true, decide_eq_true_eq, Option.any_eq_true, Option.isNone_iff_eq_none]
    at hcheck
  obtain ⟨⟨hfirst, hsecond⟩, ⟨reply, after⟩, hfound, rfl, hnone⟩ := hcheck
  exact ⟨calls, m, hrun, _, _, after, hfirst, hsecond, by decide, Operation.perform_of_outcome? hfound,
    hnone⟩

end Runs

end DemandPaging
