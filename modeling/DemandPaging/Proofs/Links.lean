import DemandPaging.Proofs.FlatChanges

/-! # Links between mapped pages

Where a mapping ends is written down nowhere. Each page of a file only says whether the mapping goes on
behind it, and this link is all that an unmapping goes by. Paging leaves the links alone, and every
change has one effect on them.
-/
namespace DemandPaging
open Memory (Change Step Alters Evolves)

/-- Whether the mapping goes on behind a page of a file. -/
def Page.link (p : Page) : Option Bool := if p.isFile then some p.source.chained else none

/-- The links of the pages of files, by space and address. -/
abbrev Links := Nat → Nat → Option Bool

/-- The links after a change. -/
def Links.after (f : Links) : Change → Links
  | .insert s page => if page.isFile then setAt f s page.va page.link else f
  | .remove s page => setAt f s page.va none
  | .copy src dst page => setAt f dst page.va (f src page.va)
  | .write .. | .spawn _ | .drop => f

namespace Memory
variable {π : Type} {u v w : Memory π} {s va : Nat} {cs : List Change} {p page : Page}

def link (v : Memory π) : Links := fun s va => (v.pages s va).bind Page.link

theorem link_eq_some {chained : Bool} : v.link s va = some chained ↔
    ∃ p, v.pages s va = some p ∧ p.isFile = true ∧ p.source.chained = chained := by
  simp only [link, Option.bind_eq_some_iff, Page.link, Option.ite_none_right_eq_some,
    Option.some.injEq]

theorem link_of_absent (h : v.pages s va = none) : v.link s va = none := by
  rw [link, h, Option.bind_none]

theorem link_of_setAt {x : Option Page} (hw : w.pages = setAt v.pages s va x) :
    w.link = setAt v.link s va (x.bind Page.link) := by
  funext t a
  simp only [link, hw, setAt_apply]
  split <;> rfl

/-- From `va` on there are `count` links, each but the last to the next page. -/
theorem chain_iff {count : Nat} : v.Chain s va count ↔ ∀ j < count, ∃ chained,
    v.link s (va + j * pageSize) = some chained ∧ (j + 1 < count → chained = true) := by
  refine forall₂_congr fun j _ => ⟨?_, ?_⟩
  · rintro ⟨p, hp, hfile, hchained⟩
    exact ⟨_, link_eq_some.mpr ⟨p, hp, hfile, rfl⟩, hchained⟩
  · rintro ⟨chained, hlink, hchained⟩
    obtain ⟨p, hp, hfile, rfl⟩ := link_eq_some.mp hlink
    exact ⟨p, hp, hfile, hchained⟩

variable [ReplacementPolicy π]

theorem Step.link_eq (h : Step v w) : w.link = v.link := by
  have houtline : ∀ o : Option Page, o.bind Page.link =
      (o.map Page.outline).bind fun e => if e.2.2.2.2 then some e.2.2.2.1.chained else none := by
    rintro (_ | p) <;> rfl
  funext s va
  simp only [link, houtline, h.outline_eq s va]

theorem Alters.link_eq {c : Change} (h : Alters v c w) : w.link = v.link.after c := by
  cases h with
  | @insert s page hs hva hp =>
    have hadd : (v.add s page).link = setAt v.link s page.va page.link :=
      link_of_setAt (x := some page) rfl
    rw [hadd, Links.after]
    split
    · rfl
    · rename_i hfile
      exact setAt_eq_self ((link_of_absent hp).trans (if_neg hfile).symm)
  | @remove s page hp => exact link_of_setAt (pages_discard ..)
  | @copy src dst page backing swap hp hdst hd hfit hb =>
    obtain ⟨hsource, hfile⟩ := hb.outline_eq
    rw [link_of_setAt (pages_adopt ..), Links.after, link, hp]
    simp only [Option.bind_some, Page.link, Page.isFile, Page.source, hsource, hfile]
    rfl
  | write | spawn | drop => rfl

/-- The links of memory follow the changes. -/
theorem Evolves.link_eq (h : Evolves cs v w) : w.link = cs.foldl Links.after v.link := by
  induction h with
  | refl => rfl
  | step _ hs ih => rw [hs.link_eq, ih]
  | change _ ha ih => rw [ha.link_eq, ih, List.foldl_concat]

/-- What is inserted first comes to a place without a page. -/
theorem Course.link_of_insert {moves : Nat → Nat → Prop} (h : Course moves (.insert s page :: cs) v w) :
    v.link s page.va = none := by
  obtain ⟨u, u', hfirst, ha, -⟩ := h.uncons
  have hlink : u.link = v.link := hfirst.evolves.link_eq
  rw [← hlink]
  exact link_of_absent ha.of_insert.2

end Memory

namespace Links
variable {f : Links} {cs : List Change} {s t a : Nat}

/-- Changes that add no page of a file and take none away. -/
def Kept : Change → Prop
  | .insert _ page => page.isFile = false
  | .remove .. | .copy .. => False
  | .write .. | .spawn _ | .drop => True

theorem foldl_kept (h : ∀ c ∈ cs, Kept c) : cs.foldl after f = f := by
  induction cs generalizing f with
  | nil => rfl
  | cons c cs ih =>
    obtain ⟨hc, hcs⟩ := List.forall_mem_cons.mp h
    rw [List.foldl_cons, ih hcs]
    cases c with
    | insert s page => exact if_neg (by simpa [Kept] using hc)
    | remove | copy => exact hc.elim
    | write | spawn | drop => rfl

/-- Changes of one space leave the links of the others alone. -/
theorem foldl_elsewhere (h : ∀ c ∈ cs, View.Within s c) (ht : t ≠ s) :
    (cs.foldl after f) t = f t := by
  induction cs generalizing f with
  | nil => rfl
  | cons c cs ih =>
    obtain ⟨hc, hcs⟩ := List.forall_mem_cons.mp h
    have hne : ∀ va a : Nat, ¬(t = s ∧ a = va) := fun va a hat => ht hat.1
    rw [List.foldl_cons, ih hcs]
    funext a
    cases c with
    | insert r page =>
      obtain rfl := hc
      rw [after]
      split
      · exact setAt_of_ne (hne _ a)
      · rfl
    | remove | copy =>
      obtain rfl := hc
      exact setAt_of_ne (hne _ a)
    | write | spawn | drop => rfl

/-- Copied pages are linked as their originals are. -/
theorem foldl_copies {src dst : Nat} {pages : List Page} (hne : src ≠ dst) :
    (pages.map (.copy src dst)).foldl after f =
      fun t a => if t = dst ∧ ∃ p ∈ pages, p.va = a then f src a else f t a := by
  induction pages generalizing f with
  | nil => simp
  | cons p pages ih =>
    rw [List.map_cons, List.foldl_cons, ih]
    funext t a
    have hsrc : (after f (.copy src dst p)) src a = f src a := setAt_of_ne fun hat => hne hat.1
    rw [hsrc]
    simp only [after, setAt_apply, List.mem_cons, exists_eq_or_imp, eq_comm (a := p.va)]
    by_cases ht : t = dst <;> by_cases ha : a = p.va <;> simp [ht, ha]

/-- The pages of a new mapping are linked, all but the last. -/
theorem foldl_laidOut {file length va offset count : Nat} {writable : Bool}
    (h : LaidOut s file length writable va offset count cs) :
    cs.foldl after f = fun t a =>
      if t = s ∧ ∃ j < count, a = va + j * pageSize then
        some (decide (a + pageSize < va + count * pageSize))
      else f t a := by
  induction h generalizing f with
  | nil => simp
  | @cons va offset count cs serial hva _ ih =>
    have hlink : after f (.insert s (.ofFile serial va writable
        (mappingSource file offset length (decide (0 < count))))) =
        setAt f s va (some (decide (0 < count))) := rfl
    rw [List.foldl_cons, ih, hlink]
    funext t a
    have hat : (∃ j < count, a = va + pageSize + j * pageSize) ↔
        ∃ j < count, a = va + (j + 1) * pageSize := by
      simp only [Nat.succ_mul, Nat.add_assoc, Nat.add_comm pageSize]
    have hend : va + pageSize + count * pageSize = va + (count + 1) * pageSize := by
      rw [Nat.succ_mul, Nat.add_assoc, Nat.add_comm pageSize]
    have hfirst : decide (0 < count) = decide (va + pageSize < va + (count + 1) * pageSize) :=
      decide_eq_decide.mpr (by simp only [pageSize]; omega)
    simp only [hat, hend, hfirst, setAt_apply, Nat.exists_lt_succ_left, Nat.zero_mul, Nat.add_zero]
    by_cases ht : t = s <;> by_cases ha : a = va <;> simp [ht, ha]

end Links

section Operations
variable {π : Type} [ReplacementPolicy π] {v w : Memory π} {s va addr : Nat} {cs : List Change}
  {bytes : List UInt8}

theorem Grown.kept (h : Grown s va cs) : ∀ c ∈ cs, Links.Kept c := by
  cases h with
  | same => exact List.forall_mem_nil _
  | added => exact List.forall_mem_singleton.mpr rfl

/-- A page of the stack that comes and goes leaves no trace. -/
theorem Undone.link_eq {moves : Nat → Nat → Prop} (h : Undone s va cs)
    (hc : Memory.Course moves cs v w) : w.link = v.link := by
  rw [hc.evolves.link_eq]
  cases h with
  | same => rfl
  | removed serial page hva heq =>
    have hnone : v.link s va = none := hc.link_of_insert
    show setAt v.link s page.va none = v.link
    rw [heq]
    exact setAt_eq_self hnone

theorem Reads.link_eq (h : Reads s addr v bytes w) : w.link = v.link := by
  induction h with
  | nil => rfl
  | chunk hcs he _ _ _ _ _ ih => rw [ih, he.evolves.link_eq, Links.foldl_kept hcs.kept]

theorem Wrote.link_eq (h : Wrote s addr v bytes cs w) : w.link = v.link := by
  induction h with
  | nil => rfl
  | chunk hcs he ha _ _ _ ih => rw [ih, ha.link_eq, he.evolves.link_eq, Links.foldl_kept hcs.kept]; rfl

/-- Where pages of a file are mapped there was none before. -/
theorem LaidOut.link_eq_none {file length offset count : Nat} {writable : Bool}
    (h : LaidOut s file length writable va offset count cs) (hc : Memory.Quiet cs v w) {j : Nat}
    (hj : j < count) : v.link s (va + j * pageSize) = none := by
  induction h generalizing v j with
  | nil => cases hj
  | @cons va offset count cs serial hva _ ih =>
    cases j with
    | zero =>
      rw [Nat.zero_mul, Nat.add_zero]
      exact hc.link_of_insert
    | succ j =>
      obtain ⟨u, u', hfirst, ha, -, hrest⟩ := hc.uncons
      have hlater := ih hrest (Nat.lt_of_succ_lt_succ hj)
      have hat : va + pageSize + j * pageSize = va + (j + 1) * pageSize := by
        rw [Nat.succ_mul, Nat.add_assoc, Nat.add_comm pageSize]
      have hne : va + (j + 1) * pageSize ≠ va := by
        simp only [pageSize]
        omega
      rw [hat, ha.link_eq] at hlater
      have hsame : u.link = v.link := hfirst.evolves.link_eq
      rw [← hsame]
      exact (setAt_of_ne fun h => hne h.2).symm.trans hlater

end Operations

end DemandPaging
