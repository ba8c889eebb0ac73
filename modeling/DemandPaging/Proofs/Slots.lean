import DemandPaging.Proofs.Accounting

/-! # Slots and the pages in them

In `Stowed` memory the slots in use are exactly those that pages have recorded, each recorded by one
page, and a page that is resident has no slot. A `Roomy` machine refuses no mapping, and then a
file-backed page is marked evicted exactly while it is not resident.
-/
namespace DemandPaging

namespace Memory
variable {π : Type}

/-- The slot in which a page of a table is. -/
def slotAt (v : Memory π) (s va : Nat) : Option Nat := (v.pages s va).bind (·.backing.slot?)

structure Stowed (v : Memory π) : Prop where
  fits : v.swap.Fits
  /-- Exactly the slots that are recorded are in use. -/
  used : ∀ k, v.swap.Used k ↔ ∃ s va, v.slotAt s va = some k
  single : ∀ {s va t a k}, v.slotAt s va = some k → v.slotAt t a = some k → s = t ∧ va = a
  apart : ∀ {s va p}, v.pages s va = some p → p.frame.isSome → p.backing.slot? = none
  filled : ∀ {s va p}, v.pages s va = some p → p.frame.isSome → ∀ target source,
    p.backing ≠ .uninit target source

attribute [grind →] Stowed.single Stowed.apart

end Memory

namespace Memory.Stowed
variable {π : Type} {v w : Memory π} {s va n : Nat} {p page : Page}

/-- One page is replaced. Its slot may be given back, and a slot that was free may be taken. -/
theorem replace (h : Stowed v) {x : Option Page} (hp : w.pages = setAt v.pages s va x)
    (hfits : w.swap.Fits)
    (hused : ∀ k, w.swap.Used k ↔
      x.bind (·.backing.slot?) = some k ∨ v.swap.Used k ∧ v.slotAt s va ≠ some k)
    (hnew : ∀ k, x.bind (·.backing.slot?) = some k → v.swap.Used k → v.slotAt s va = some k)
    (hx : ∀ p, x = some p → p.frame.isSome →
      p.backing.slot? = none ∧ ∀ target source, p.backing ≠ .uninit target source) : Stowed w := by
  have hslot : ∀ t a, w.slotAt t a =
      if t = s ∧ a = va then x.bind (·.backing.slot?) else v.slotAt t a := by
    intro t a
    simp only [slotAt, hp, setAt_apply]
    split <;> rfl
  refine ⟨hfits, ?_, ?_, ?_, ?_⟩
  · intro k
    rw [hused, h.used]
    simp only [hslot]
    grind
  · intro t a t' a' k h1 h2
    have h3 := h.used k
    grind
  · intro t a q hq
    rw [hp, setAt_apply] at hq
    grind
  · intro t a q hq
    rw [hp, setAt_apply] at hq
    grind [h.filled]

/-- The same pages, and the same slots in use. -/
theorem of_eq (h : Stowed v) (hp : w.pages = v.pages) (hs : v.swap.Agrees w.swap) : Stowed w where
  fits := hs.fits h.fits
  used k := (hs.used k).trans (by simp only [slotAt, hp]; exact h.used k)
  single h1 h2 := h.single (by simpa only [slotAt, hp] using h1) (by simpa only [slotAt, hp] using h2)
  apart hq := h.apart (hp ▸ hq)
  filled hq := h.filled (hp ▸ hq)

theorem slotAt_eq (hp : v.pages s va = some page) : v.slotAt s va = page.backing.slot? := by
  rw [slotAt, hp]
  rfl

theorem lt_capacity (h : Stowed v) {k : Nat} (hk : v.slotAt s va = some k) : k < v.swap.capacity :=
  SwapSpace.Used.lt_capacity ((h.used k).mpr ⟨s, va, hk⟩) h.fits

/-- One page is replaced by one with the same slot. -/
theorem keep (h : Stowed v) {x : Option Page} (hp : w.pages = setAt v.pages s va x)
    (hs : w.swap = v.swap) (hslot : x.bind (·.backing.slot?) = v.slotAt s va)
    (hx : ∀ p, x = some p → p.frame.isSome →
      p.backing.slot? = none ∧ ∀ target source, p.backing ≠ .uninit target source) : Stowed w := by
  refine h.replace hp (hs ▸ h.fits) ?_ ?_ hx
  · intro k
    have := h.used k
    rw [hs, hslot]
    grind
  · intro k hk _
    rw [← hslot, hk]

/-- A page is brought in. -/
theorem filled_page (h : Stowed v) {backing : Backing} {c : PageBytes} {swap : SwapSpace}
    {frame : Option Nat} (hp : v.pages s page.va = some page)
    (hw : w.pages = setAt v.pages s page.va (some { page with backing, frame }))
    (hs : w.swap = swap) (hb : v.Filled page.backing c backing swap) : Stowed w := by
  have hslot := slotAt_eq hp
  cases hback : page.backing with
  | uninit target source =>
    rw [hback] at hb hslot
    cases hb
    refine h.keep hw hs (by rw [hslot]; cases target <;> rfl) ?_
    rintro q ⟨⟩ -
    cases target <;> exact ⟨rfl, by simp [Target.first]⟩
  | anonymous source slot =>
    rw [hback] at hb hslot
    cases hb with
    | blank =>
      refine h.keep hw hs (by rw [hslot]; rfl) ?_
      rintro q ⟨⟩ -
      exact ⟨rfl, by simp⟩
    | @fetched _ slot bytes swap hfetch =>
      obtain ⟨-, -, -, hfits, hused, -⟩ := SwapSpace.fetch_eq_ok hfetch (h.lt_capacity hslot)
      refine h.replace hw (hs ▸ hfits h.fits) ?_ (by simp [Backing.slot?]) ?_
      · intro k
        rw [hs, hused, hslot]
        simp [Backing.slot?, and_comm, eq_comm]
      · rintro q ⟨⟩ -
        exact ⟨rfl, by simp⟩
  | fileBacked source evicted =>
    rw [hback] at hb hslot
    cases hb
    refine h.keep hw hs (by rw [hslot]; rfl) ?_
    rintro q ⟨⟩ -
    exact ⟨rfl, by simp⟩

/-- A page leaves memory for its backing store. -/
theorem saved_page (h : Stowed v) {backing : Backing} {c : PageBytes} {dirty : Prop} {swap : SwapSpace}
    (hp : v.pages s page.va = some page) (hf : page.frame.isSome)
    (hw : w.pages = setAt v.pages s page.va (some { page with backing, frame := none }))
    (hs : w.swap = swap) (hb : v.Saved c dirty page.backing backing swap) : Stowed w := by
  have hslot : v.slotAt s page.va = none := (slotAt_eq hp).trans (h.apart hp hf)
  cases hback : page.backing with
  | uninit target source =>
    rw [hback] at hb
    cases hb
  | anonymous source old =>
    rw [hback] at hb
    cases hb with
    | stored hstore =>
      obtain ⟨hfree, -, -, hfits, hused, -⟩ := SwapSpace.store_eq_ok hstore h.fits
      refine h.replace hw (hs ▸ hfits) ?_ ?_ (by rintro q ⟨⟩ ⟨⟩)
      · intro k
        rw [hs, hused, hslot]
        simp [Backing.slot?, eq_comm]
      · rintro k ⟨⟩ hk
        exact absurd hk hfree
  | fileBacked source evicted =>
    rw [hback] at hb
    cases hb
    exact h.keep hw hs (by rw [hslot]; rfl) (by rintro q ⟨⟩ ⟨⟩)

variable [ReplacementPolicy π]

theorem step (h : Stowed v) (hs : Step v w) : Stowed w := by
  cases hs with
  | serial _ => exact h.of_eq rfl (.refl _)
  | handles _ => exact h.of_eq rfl (.refl _)
  | swap hs => exact h.of_eq rfl hs
  | passed _ => exact h.of_eq rfl (.refl _)
  | flushed _ _ _ hw => cases hw <;> exact h.of_eq rfl (.refl _)
  | flushedShort _ _ _ hw => cases hw <;> exact h.of_eq rfl (.refl _)
  | evicted hp hf hn hb => exact h.saved_page hp (by rw [hf]; rfl) (pages_leave ..) rfl hb
  | claimed hp hf hn hlt hfit hb => exact h.filled_page hp (pages_seat ..) rfl hb
  | refused hp hf hn hlt hb hr => exact h.filled_page hp rfl rfl hb
  | unshared => exact h.of_eq rfl (.refl _)
  | @moved s old new page hp hf hw hold hnew hlt hfit =>
    have hsome : page.frame.isSome := by rw [hf]; rfl
    have hpages := pages_move v s old page new (v.frames old).contents
    have hswap := (swap_seat (v.leave s old page) s new { page with frame := none } true
      (v.frames old).contents).trans (swap_leave ..)
    have hapart := h.apart hp hsome
    have hfilled := h.filled hp hsome
    refine h.keep hpages hswap (slotAt_eq hp).symm ?_
    rintro q ⟨⟩ -
    exact ⟨hapart, hfilled⟩
  | touched => exact h.of_eq rfl (.refl _)

theorem change {c : Change} (h : Stowed v) (ha : Alters v c w) : Stowed w := by
  cases ha with
  | insert hlt hva hp hserial hf hb =>
    refine h.keep rfl rfl ?_ ?_
    · rw [slotAt, hp]
      exact hb.slot?_eq
    · rintro q ⟨⟩ hq
      rw [hf] at hq
      cases hq
  | @remove s page hp =>
    have hslot := slotAt_eq hp
    refine h.replace (pages_discard ..) ?_ ?_ (by simp) (by simp)
    · show (v.swap.freeSlot _).Fits
      unfold SwapSpace.freeSlot
      split
      · exact h.fits.free
      · exact h.fits
    · intro k
      show (v.swap.freeSlot _).Used k ↔ _
      rw [hslot]
      cases page.backing.slot? with
      | none => simp [SwapSpace.freeSlot]
      | some j => simp [SwapSpace.freeSlot, SwapSpace.used_free, and_comm, eq_comm]
  | @copy src dst page backing swap hp hdst hd hfit hb =>
    have hslot : v.slotAt dst page.va = none := by
      rw [slotAt, hd]
      rfl
    have hpages := pages_adopt v page src dst backing swap
    have hswap := swap_adopt v page src dst backing swap
    generalize v.adopt src dst page backing swap = w at hpages hswap
    generalize hback : page.backing = old at hb
    cases hb with
    | @slot source slot copy swap hdup =>
      have hlt := h.lt_capacity ((slotAt_eq hp).trans (by rw [hback]; rfl))
      obtain ⟨hfree, hfits, hused, -⟩ := SwapSpace.duplicate_eq_ok hdup hlt h.fits
      have hnone := h.apart hp
      refine h.replace hpages (hswap ▸ hfits) ?_ ?_ ?_
      · intro k
        rw [hswap, hused, hslot]
        simp [Backing.slot?, eq_comm]
      · rintro k ⟨⟩ hk
        exact absurd hk hfree
      · rintro q ⟨⟩ hq
        rw [hback] at hnone
        cases hnone hq
    | same hb =>
      have hfilled := h.filled hp
      rw [hback] at hfilled
      refine h.keep hpages hswap (by rw [hslot]; exact hb) ?_
      rintro q ⟨⟩ hq
      exact ⟨hb, hfilled hq⟩
  | write record hp hf he hw => exact h.of_eq rfl (.refl _)
  | spawn willing => exact h.of_eq rfl (.refl _)
  | drop hpos hp => exact h.of_eq rfl (.refl _)

theorem evolves {cs : List Change} (h : Stowed v) (he : Evolves cs v w) : Stowed w :=
  he.keeps h (fun hs h => h.step hs) fun _ ha h => h.change ha

end Memory.Stowed

/-- What no step of paging changes of a page. -/
def Page.outline (p : Page) : Nat × Nat × Bool × Source × Bool :=
  (p.serial, p.va, p.writable, p.source, p.isFile)

namespace Memory
variable {π : Type} [ReplacementPolicy π] {v w : Memory π} {s va : Nat} {p page : Page}

omit [ReplacementPolicy π] in
theorem Filled.outline_eq {backing backing' : Backing} {c : PageBytes} {swap : SwapSpace}
    (h : v.Filled backing c backing' swap) :
    backing'.source = backing.source ∧ backing'.isFile = backing.isFile := by
  cases h with
  | uninit target source => cases target <;> exact ⟨rfl, rfl⟩
  | blank | fetched | file => exact ⟨rfl, rfl⟩

omit [ReplacementPolicy π] in
theorem Saved.outline_eq {backing backing' : Backing} {c : PageBytes} {dirty : Prop} {swap : SwapSpace}
    (h : v.Saved c dirty backing backing' swap) :
    backing'.source = backing.source ∧ backing'.isFile = backing.isFile := by
  cases h <;> exact ⟨rfl, rfl⟩

omit [ReplacementPolicy π] in
theorem Duplicated.outline_eq {backing backing' : Backing} {swap : SwapSpace}
    (h : v.Duplicated backing backing' swap) :
    backing'.source = backing.source ∧ backing'.isFile = backing.isFile := by
  cases h <;> exact ⟨rfl, rfl⟩

omit [ReplacementPolicy π] in
/-- A page that comes in leaves all slots as they are, its own included, which it gives back. -/
theorem Filled.held_eq {backing backing' : Backing} {c : PageBytes} {swap : SwapSpace}
    (h : v.Filled backing c backing' swap)
    (hlt : ∀ k, backing.slot? = some k → k < v.swap.capacity) (k : Nat) :
    swap.held k = v.swap.held k := by
  cases h with
  | fetched hfetch =>
    obtain ⟨-, -, -, -, -, hheld⟩ := SwapSpace.fetch_eq_ok hfetch (hlt _ rfl)
    exact hheld k
  | uninit | blank | file => rfl

omit [ReplacementPolicy π] in
/-- A page that is saved goes to a slot that was free. -/
theorem Saved.held_eq {backing backing' : Backing} {c : PageBytes} {dirty : Prop} {swap : SwapSpace}
    (h : v.Saved c dirty backing backing' swap) (hfits : v.swap.Fits) {k : Nat} (hk : v.swap.Used k) :
    swap.held k = v.swap.held k := by
  cases h with
  | stored hstore =>
    obtain ⟨hfree, -, -, -, -, hheld, -⟩ := SwapSpace.store_eq_ok hstore hfits
    refine hheld k ?_
    rintro rfl
    exact hfree hk
  | clean => rfl

omit [ReplacementPolicy π] in
/-- So does a slot that is copied. -/
theorem Duplicated.held_eq {backing backing' : Backing} {swap : SwapSpace}
    (h : v.Duplicated backing backing' swap)
    (hlt : ∀ k, backing.slot? = some k → k < v.swap.capacity) (hfits : v.swap.Fits) {k : Nat}
    (hk : v.swap.Used k) : swap.held k = v.swap.held k := by
  cases h with
  | slot hdup =>
    obtain ⟨hfree, -, -, hheld, -⟩ := SwapSpace.duplicate_eq_ok hdup (hlt _ rfl) hfits
    refine hheld k ?_ hk
    rintro rfl
    exact hfree hk
  | same => rfl

omit [ReplacementPolicy π] in
theorem Filled.not_evicted {backing : Backing} {c : PageBytes} {swap : SwapSpace} {source : Source}
    {evicted : Bool} {backing' : Backing} (h : v.Filled backing c backing' swap)
    (hb : backing' = .fileBacked source evicted) : evicted = false := by
  cases h with
  | uninit target source =>
    cases target <;> cases hb
    rfl
  | file =>
    cases hb
    rfl
  | blank | fetched => cases hb

omit [ReplacementPolicy π] in
theorem Saved.evicted {backing : Backing} {c : PageBytes} {dirty : Prop} {swap : SwapSpace}
    {source : Source} {evicted : Bool} {backing' : Backing} (h : v.Saved c dirty backing backing' swap)
    (hb : backing' = .fileBacked source evicted) : evicted = true := by
  cases h <;> cases hb
  rfl

omit [ReplacementPolicy π] in
theorem Duplicated.eq_file {backing : Backing} {swap : SwapSpace} {source : Source} {evicted : Bool}
    {backing' : Backing} (h : v.Duplicated backing backing' swap)
    (hb : backing' = .fileBacked source evicted) : backing = .fileBacked source evicted := by
  cases h <;> cases hb
  rfl

omit [ReplacementPolicy π] in
theorem outline_set {q : Page} (hp : v.pages s va = some page)
    (hw : w.pages = setAt v.pages s va (some q)) (hq : q.outline = page.outline) (t a : Nat) :
    (w.pages t a).map Page.outline = (v.pages t a).map Page.outline := by
  rw [hw, setAt_apply]
  split
  · rename_i h
    rw [h.1, h.2, hp, Option.map_some, Option.map_some, hq]
  · rfl

/-- Paging neither adds pages nor removes any. -/
theorem Step.outline_eq (h : Step v w) (t a : Nat) :
    (w.pages t a).map Page.outline = (v.pages t a).map Page.outline := by
  cases h with
  | @evicted s n page backing swap hp hf hn hb =>
    obtain ⟨h1, h2⟩ := hb.outline_eq
    refine outline_set hp (pages_leave v s n { page with backing }) ?_ t a
    simp only [Page.outline, Page.source, Page.isFile, h1, h2]
  | @claimed s n page backing c swap hp hf hn hlt hfit hb =>
    obtain ⟨h1, h2⟩ := hb.outline_eq
    refine outline_set hp (pages_seat v s n { page with backing } page.writable c) ?_ t a
    simp only [Page.outline, Page.source, Page.isFile, h1, h2]
  | refused hp hf hn hlt hb hr =>
    obtain ⟨h1, h2⟩ := hb.outline_eq
    exact outline_set hp rfl (by simp [Page.outline, Page.source, Page.isFile, h1, h2]) t a
  | moved hp hf hw hold hnew hlt hfit =>
    exact outline_set hp (pages_move ..) (by simp [Page.outline, Page.source, Page.isFile]) t a
  | flushed _ _ _ hw => cases hw <;> rfl
  | flushedShort _ _ _ hw => cases hw <;> rfl
  | serial | handles | swap | passed | unshared | touched => rfl

theorem Step.exists_of_page (h : Step v w) (hp : w.pages s va = some p) :
    ∃ q, v.pages s va = some q ∧ p.outline = q.outline := by
  have := h.outline_eq s va
  rw [hp, Option.map_some, eq_comm, Option.map_eq_some_iff] at this
  obtain ⟨q, hq, heq⟩ := this
  exact ⟨q, hq, heq.symm⟩

theorem Pages.outline_eq (h : Pages v w) (t a : Nat) :
    (w.pages t a).map Page.outline = (v.pages t a).map Page.outline :=
  h.keeps (I := fun u => (u.pages t a).map Page.outline = (v.pages t a).map Page.outline) rfl
    (fun hs hu => (hs.outline_eq t a).trans hu) (by simp)

theorem Pages.exists_page (h : Pages v w) (hp : v.pages s va = some p) :
    ∃ q, w.pages s va = some q ∧ q.outline = p.outline := by
  have := h.outline_eq s va
  rw [hp, Option.map_some, Option.map_eq_some_iff] at this
  exact this

/-- No mapping is refused: every frame fits an entry, every space is willing, and every page is in
user memory. -/
structure Roomy (v : Memory π) : Prop where
  size : v.size ≤ PageTableEntry.frameLimit
  willing : ∀ s, v.willing s
  user : ∀ {s va p}, v.pages s va = some p → va < kernelBase

/-- A change that leaves a roomy memory roomy. -/
def Change.AtUser : Change → Prop
  | .insert _ page => page.va < kernelBase
  | .spawn willing => willing
  | _ => True

/-- Every page is in user memory. -/
def InUser (v : Memory π) : Prop := ∀ s va p, v.pages s va = some p → va < kernelBase

namespace InUser

theorem step (h : InUser v) (hs : Step v w) : InUser w := by
  intro s va p hp
  obtain ⟨q, hq, -⟩ := hs.exists_of_page hp
  exact h s va q hq

theorem change {c : Change} (h : InUser v) (hc : c.AtUser) (ha : Alters v c w) : InUser w := by
  have hset {s va : Nat} {x : Option Page} (hva : x.isSome → va < kernelBase)
      (hp : w.pages = setAt v.pages s va x) : InUser w := by
    intro t a p hq
    rw [hp, setAt_apply] at hq
    split at hq
    · rename_i hat
      exact hat.2 ▸ hva (hq ▸ rfl)
    · exact h t a p hq
  cases ha with
  | insert hs hva hp hserial hf hb => exact hset (fun _ => hc) rfl
  | remove hp => exact hset (fun hx => by cases hx) (pages_discard ..)
  | copy hp hdst hd hfit hb => exact hset (fun _ => h _ _ _ hp) (pages_adopt ..)
  | write | spawn | drop => exact h

theorem evolves {cs : List Change} (h : InUser v) (hcs : ∀ c ∈ cs, c.AtUser)
    (he : Evolves cs v w) : InUser w :=
  he.keeps h (fun hs h => h.step hs) fun hmem ha h => h.change (hcs _ hmem) ha

end InUser

/-- A file-backed page is marked evicted exactly while it is not resident. -/
def Shaped (v : Memory π) : Prop :=
  ∀ s va p source evicted, v.pages s va = some p → p.backing = .fileBacked source evicted →
    (evicted = true ↔ p.frame = none)

namespace Roomy

omit [ReplacementPolicy π] in
theorem inUser (h : Roomy v) : InUser v := fun _ _ _ hp => h.user hp

omit [ReplacementPolicy π] in
theorem of_limits (h : Roomy v) (hl : w.limits = v.limits) (hp : InUser w) : Roomy w := by
  simp only [limits, Prod.mk.injEq] at hl
  exact ⟨hl.2.1 ▸ h.size, hl.2.2 ▸ h.willing, fun {s va p} hq => hp s va p hq⟩

theorem step (h : Roomy v) (hs : Step v w) : Roomy w :=
  h.of_limits hs.limits_eq (h.inUser.step hs)

theorem change {c : Change} (h : Roomy v) (hc : c.AtUser) (ha : Alters v c w) : Roomy w := by
  have huser := h.inUser.change hc ha
  cases ha with
  | insert | write => exact h.of_limits rfl huser
  | remove => exact h.of_limits (limits_discard ..) huser
  | copy => exact h.of_limits (limits_adopt ..) huser
  | spawn willing =>
    refine ⟨h.size, fun s => ?_, h.user⟩
    simp only [Function.update_apply]
    split
    · exact hc
    · exact h.willing s
  | drop hpos hp =>
    refine ⟨h.size, fun s => ?_, h.user⟩
    simp only [Function.update_apply]
    split
    · trivial
    · exact h.willing s

theorem evolves {cs : List Change} (h : Roomy v) (hcs : ∀ c ∈ cs, c.AtUser) (he : Evolves cs v w) :
    Roomy w :=
  he.keeps h (fun hs h => h.step hs) fun hmem ha h => h.change (hcs _ hmem) ha

omit [ReplacementPolicy π] in
/-- A page that is filled finds room. -/
theorem not_refused (h : Roomy v) {n : Nat} (hp : v.pages s va = some p) (hn : n < v.size) :
    v.willing s ∧ va < kernelBase ∧ n < PageTableEntry.frameLimit :=
  ⟨h.willing s, h.user hp, Nat.lt_of_lt_of_le hn h.size⟩

end Roomy

namespace Shaped

omit [ReplacementPolicy π] in
theorem set (h : Shaped v) {x : Option Page} (hp : w.pages = setAt v.pages s va x)
    (hx : ∀ p source evicted, x = some p → p.backing = .fileBacked source evicted →
      (evicted = true ↔ p.frame = none)) : Shaped w := by
  intro t a q source evicted hq hb
  rw [hp, setAt_apply] at hq
  split at hq
  · exact hx _ _ _ hq hb
  · exact h _ _ _ _ _ hq hb

theorem step (h : Shaped v) (hr : Roomy v) (hs : Step v w) : Shaped w := by
  cases hs with
  | evicted hp hf hn hb =>
    refine h.set (pages_leave ..) ?_
    rintro q source evicted ⟨⟩ hq
    exact iff_of_true (hb.evicted hq) rfl
  | claimed hp hf hn hlt hfit hb =>
    refine h.set (pages_seat ..) ?_
    rintro q source evicted ⟨⟩ hq
    exact iff_of_false (by simp [hb.not_evicted hq]) (by simp)
  | refused hp hf hn hlt hb hrefused => exact absurd (hr.not_refused hp hlt) hrefused
  | @moved s old new page hp hf hw hold hnew hlt hfit =>
    refine h.set (pages_move ..) ?_
    rintro q source evicted ⟨⟩ hq
    have := h _ _ _ _ _ hp hq
    rw [hf] at this
    exact this.trans (iff_of_false (by simp) (by simp))
  | flushed _ _ _ hw => cases hw <;> exact h
  | flushedShort _ _ _ hw => cases hw <;> exact h
  | serial | handles | swap | passed | unshared | touched => exact h

theorem change {c : Change} (h : Shaped v) (ha : Alters v c w) : Shaped w := by
  cases ha with
  | insert hs hva hp hserial hf hb =>
    refine h.set rfl ?_
    rintro q source evicted ⟨⟩ hq
    rw [hq] at hb
    cases hb
  | remove hp => exact h.set (pages_discard ..) (by simp)
  | copy hp hdst hd hfit hb =>
    refine h.set (pages_adopt ..) ?_
    rintro q source evicted ⟨⟩ hq
    have := h _ _ _ _ _ hp (hb.eq_file hq)
    exact this
  | write => exact h
  | spawn => exact h
  | drop => exact h

theorem evolves {cs : List Change} (h : Shaped v) (hr : Roomy v) (hcs : ∀ c ∈ cs, c.AtUser)
    (he : Evolves cs v w) : Shaped w :=
  (he.keeps (I := fun v => Shaped v ∧ Roomy v) ⟨h, hr⟩
    (fun hs h => ⟨h.1.step h.2 hs, h.2.step hs⟩)
    fun hmem ha h => ⟨h.1.change ha, h.2.change (hcs _ hmem) ha⟩).1

end Shaped

end Memory

end DemandPaging
