import Mathlib.Data.List.Pairwise
import DemandPaging.Proofs.Evolution

/-! # Frames and the pages in them

`Sound` memory keeps its books right: the owners of a frame are exactly the pages in it, counted once
each, a page is mapped exactly while it is resident, and a writable mapping is the only use of its
frame. Every step of paging and every change keeps memory sound, and so does every run of them.
-/
namespace DemandPaging

namespace Memory
variable {π : Type}

structure Sound (v : Memory π) : Prop where
  /-- A page is kept under its own address, in a space there is. -/
  kept : ∀ {s va p}, v.pages s va = some p →
    p.va = va ∧ va % pageSize = 0 ∧ s < v.spaces ∧ p.serial < v.nextSerial
  /-- No two pages have the same serial. -/
  unique : ∀ {s va p t a q}, v.pages s va = some p → v.pages t a = some q → p.serial = q.serial →
    s = t ∧ va = a
  owned : ∀ {s va p n}, v.pages s va = some p → p.frame = some n →
    ⟨p.serial, s, va⟩ ∈ (v.frames n).owners
  owner : ∀ {n o}, o ∈ (v.frames n).owners →
    ∃ p, v.pages o.space o.va = some p ∧ p.serial = o.page ∧ p.frame = some n
  /-- Pages that share a frame are in different spaces, at one address. -/
  distinct : ∀ n, (v.frames n).owners.Pairwise fun o o' => o.space ≠ o'.space ∧ o.va = o'.va
  counted : ∀ n, (v.frames n).refcount = (v.frames n).owners.length
  /-- No frame is pinned, and a frame is allocated while it is counted. -/
  state : ∀ n, (v.frames n).entry = if (v.frames n).refcount = 0 then .free else .used
  bounded : ∀ {n}, (v.frames n).refcount ≠ 0 → n < v.size
  mapped : ∀ {s va e}, v.entries s va = some e →
    ∃ p, v.pages s va = some p ∧ p.frame = some e.frame
  resident : ∀ {s va p n}, v.pages s va = some p → p.frame = some n → (v.entries s va).isSome
  /-- What is mapped writable may be written, and by no other page. -/
  exclusive : ∀ {s va e p}, v.entries s va = some e → e.has .writable = true →
    v.pages s va = some p → p.writable = true ∧ (v.frames e.frame).refcount = 1

attribute [grind →] Sound.kept Sound.unique Sound.owned Sound.owner Sound.mapped Sound.resident
  Sound.exclusive Sound.bounded

end Memory

namespace PageTableEntry

@[simp] theorem frame_ofFrame (n : BitVec 20) (writable : Bool) : (ofFrame n writable).frame = n.toNat :=
  frame_putFrame _ _

@[simp] theorem writable_ofFrame (n : BitVec 20) (writable : Bool) :
    (ofFrame n writable).has .writable = writable := by
  simp [ofFrame, has_put]

@[simp] theorem dirty_ofFrame (n : BitVec 20) (writable : Bool) :
    (ofFrame n writable).has .dirty = false := by
  simp only [ofFrame, has_putFrame, has_put]
  cases writable <;> decide

@[simp] theorem writable_remap (old : Option PageTableEntry) (n : Nat) (writable : Bool) :
    (remap old n writable).has .writable = writable := by
  unfold remap
  split
  · split <;> simp [has_put]
  · simp

theorem frame_remap (old : Option PageTableEntry) {n : Nat} (writable : Bool) (hn : n < frameLimit) :
    (remap old n writable).frame = n := by
  have : (BitVec.ofNat 20 n).toNat = n := by
    rw [BitVec.toNat_ofNat]
    exact Nat.mod_eq_of_lt hn
  unfold remap
  split
  · split <;> simp [this]
  · simp [this]

theorem frame_lt (e : PageTableEntry) : e.frame < frameLimit := (e.raw.extractLsb' 12 20).isLt

@[simp] theorem frame_touch (e : PageTableEntry) (record write : Bool) :
    (e.touch record write).frame = e.frame := by
  cases record <;> cases write <;> simp [touch]

@[simp] theorem writable_touch (e : PageTableEntry) (record write : Bool) :
    (e.touch record write).has .writable = e.has .writable := by
  cases record <;> cases write <;> simp [touch, has_put]

end PageTableEntry

namespace CoreMapEntry

@[simp] theorem allocated_used : used.has .allocated = true := by decide

@[simp] theorem pinned_used : used.has .pinned = false := by decide

end CoreMapEntry

namespace Memory.Sound
variable {π : Type} {v w : Memory π} {s va n : Nat} {page : Page}

/-- Only these parts of memory are kept account of. -/
theorem of_eq (h : Sound v) (hsp : w.spaces = v.spaces) (hsz : w.size = v.size)
    (hse : v.nextSerial ≤ w.nextSerial) (hp : w.pages = v.pages) (he : w.entries = v.entries)
    (hf : w.frames = v.frames) : Sound w where
  kept hq := by
    rw [hp] at hq
    obtain ⟨h1, h2, h3, h4⟩ := h.kept hq
    exact ⟨h1, h2, hsp ▸ h3, by omega⟩
  unique h1 h2 := h.unique (hp ▸ h1) (hp ▸ h2)
  owned h1 h2 := hf ▸ h.owned (hp ▸ h1) h2
  owner h1 := hp ▸ h.owner (hf ▸ h1)
  distinct n := hf ▸ h.distinct n
  counted n := hf ▸ h.counted n
  state n := hf ▸ h.state n
  bounded h1 := hsz ▸ h.bounded (hf ▸ h1)
  mapped h1 := hp ▸ h.mapped (he ▸ h1)
  resident h1 h2 := he ▸ h.resident (hp ▸ h1) h2
  exclusive h1 h2 h3 := hf ▸ h.exclusive (he ▸ h1) h2 (hp ▸ h3)

theorem entry_eq_none (h : Sound v) (hp : v.pages s va = some page) (hf : page.frame = none) :
    v.entries s va = none := by
  cases he : v.entries s va with
  | none => rfl
  | some e =>
    obtain ⟨p, hp', hf'⟩ := h.mapped he
    rw [hp, Option.some.injEq] at hp'
    rw [← hp', hf] at hf'
    cases hf'

/-- Where there is no page nothing is mapped. -/
theorem unmapped (h : Sound v) (hnone : v.pages s va = none) : v.entries s va = none := by
  cases he : v.entries s va with
  | none => rfl
  | some e =>
    obtain ⟨p, hp, -⟩ := h.mapped he
    rw [hnone] at hp
    cases hp

theorem owner_va (h : Sound v) {o o' : Owner} (ho : o ∈ (v.frames n).owners)
    (ho' : o' ∈ (v.frames n).owners) : o.va = o'.va := by
  have : Std.Symm fun o o' : Owner => o.va = o'.va := ⟨fun _ _ => Eq.symm⟩
  have hva : (v.frames n).owners.Pairwise fun o o' => o.va = o'.va := (h.distinct n).imp And.right
  exact hva.forall_of_forall (R := fun o o' : Owner => o.va = o'.va) (fun _ _ => rfl) ho ho'

theorem owners_nodup (h : Sound v) (n : Nat) : (v.frames n).owners.Nodup :=
  (h.distinct n).imp fun hne heq => hne.1 (congrArg Owner.space heq)

theorem free_iff (h : Sound v) (n : Nat) :
    (v.frames n).allocated = false ↔ (v.frames n).refcount = 0 := by
  rw [Frame.allocated, h.state n]
  split <;> simp_all

theorem pinned_eq (h : Sound v) (n : Nat) : (v.frames n).pinned = false := by
  rw [Frame.pinned, h.state n]
  split <;> decide

/-- A frame that is not allocated has no trace of earlier users but its bytes. -/
theorem eq_vacant (h : Sound v) (hn : (v.frames n).allocated = false) :
    v.frames n = .vacant (v.frames n).contents := by
  have hr := (h.free_iff n).mp hn
  have hs := h.state n
  have ho := h.counted n
  rw [hr] at ho
  rw [if_pos hr] at hs
  have ho := List.length_eq_zero_iff.mp ho.symm
  generalize v.frames n = f at hr hs ho
  obtain ⟨entry, refcount, owners, contents⟩ := f
  subst hr hs ho
  rfl

/-- A resident page is in a frame of the machine, which is in use. -/
theorem resident_frame (h : Sound v) (hp : v.pages s va = some page) (hf : page.frame = some n) :
    0 < (v.frames n).refcount ∧ n < v.size := by
  have hmem := h.owned hp hf
  have hpos : 0 < (v.frames n).refcount := by
    rw [h.counted]
    exact List.length_pos_of_mem hmem
  exact ⟨hpos, h.bounded (by omega)⟩

@[grind →] theorem owner_eq (h : Sound v) {o : Owner} (ho : o ∈ (v.frames n).owners)
    (hp : v.pages o.space o.va = some page) : o = ⟨page.serial, o.space, o.va⟩ := by
  obtain ⟨p, hp', hser, -⟩ := h.owner ho
  rw [hp, Option.some.injEq] at hp'
  rw [hp', hser]

/-- A frame with a reference count of one holds no two pages. -/
@[grind →] theorem alone (h : Sound v) {t a : Nat} {other : Page} (hn : (v.frames n).refcount = 1)
    (hp : v.pages s va = some page) (hf : page.frame = some n) (hq : v.pages t a = some other)
    (hg : other.frame = some n) : s = t ∧ va = a := by
  have h1 := h.owned hp hf
  have h2 := h.owned hq hg
  rw [h.counted] at hn
  obtain ⟨o, ho⟩ := List.length_eq_one_iff.mp hn
  rw [ho, List.mem_singleton] at h1 h2
  have := h1.trans h2.symm
  simp only [Owner.mk.injEq] at this
  exact this.2

/-- A page is one of the owners of its frame, and can be told from the others by where it is. -/
theorem filter_owners (h : Sound v) (hp : v.pages s va = some page) (n : Nat) :
    ((v.frames n).owners.filter fun o => !(o.va == va && o.space == s)) =
      (v.frames n).owners.erase ⟨page.serial, s, va⟩ := by
  rw [(h.owners_nodup n).erase_eq_filter]
  refine List.filter_congr fun o ho => ?_
  grind

end Memory.Sound

namespace Memory.Sound
variable {π : Type} [ReplacementPolicy π] {v w : Memory π} {s va n : Nat} {p page : Page}

/-- A p that leaves its frame is no longer counted there. -/
theorem leave_eq (h : Sound v) (hp : v.pages s p.va = some p) (hf : p.frame = some n) :
    v.leave s n p =
      { ((v.setPage s p.va (some { p with frame := none })).setEntry s p.va none).setFrame n
          { v.frames n with
            entry := if (v.frames n).refcount = 1 then .free else .used
            refcount := (v.frames n).refcount - 1
            owners := (v.frames n).owners.erase ⟨p.serial, s, p.va⟩ } with
        policy := if (v.frames n).refcount = 1 then ReplacementPolicy.remove v.policy n
          else v.policy } := by
  have hpos := (h.resident_frame hp hf).1
  have hstate := h.state n
  have hlen := List.length_erase_of_mem (h.owned hp hf)
  rw [← h.counted] at hlen
  rw [if_neg (by omega)] at hstate
  simp only [leave, release, put, setFrame, setEntry, setPage, Function.update_self, Function.update_idem,
    h.filter_owners hp n]
  by_cases h1 : (v.frames n).refcount = 1
  · rw [h1] at hlen
    simp only [h1, if_true, List.length_eq_zero_iff.mp hlen]
  · simp only [h1, if_false, wordPred_of_pos hpos, hstate]

theorem leave (h : Sound v) (hp : v.pages s p.va = some p) (hf : p.frame = some n) :
    Sound (v.leave s n p) := by
  rw [h.leave_eq hp hf]
  have hk := h.kept hp
  have hmem := h.owned hp hf
  have hlen := List.length_erase_of_mem hmem
  have herase := fun o => (h.owners_nodup n).mem_erase_iff (a := o) (b := ⟨p.serial, s, p.va⟩)
  constructor <;> dsimp only [setPage, setEntry, setFrame] <;>
    simp only [setAt_apply, Function.update_apply]
  · intro t a q
    grind
  · grind
  · grind
  · grind
  · intro k
    split
    · exact (h.distinct n).sublist List.erase_sublist
    · exact h.distinct k
  · intro k
    split
    · rw [hlen, h.counted]
    · exact h.counted k
  · intro k
    have := (h.resident_frame hp hf).1
    split
    · split <;> grind
    · exact h.state k
  · grind
  · grind
  · grind
  · grind

theorem seat (h : Sound v) (hp : v.pages s p.va = some p) (hf : p.frame = none)
    (hn : (v.frames n).allocated = false) (hlt : n < v.size) (hfit : n < PageTableEntry.frameLimit)
    {writable : Bool} (hw : writable = true → p.writable = true) (c : PageBytes) :
    Sound (v.seat s n p writable c) := by
  have hvacant := h.eq_vacant hn
  have hfree := (h.free_iff n).mp hn
  have hk := h.kept hp
  have hframe := PageTableEntry.frame_remap none writable hfit
  have hwritable := PageTableEntry.writable_remap none n writable
  have howners : (v.frames n).owners = [] := by rw [hvacant]; rfl
  unfold Memory.seat
  constructor <;> dsimp only [setPage, setEntry, setFrame, Frame.ownedBy] <;>
    simp only [setAt_apply, Function.update_apply]
  · grind
  · grind
  · grind
  · grind
  · intro k
    split
    · exact List.pairwise_singleton ..
    · exact h.distinct k
  · intro k
    split
    · rfl
    · exact h.counted k
  · intro k
    split
    · rfl
    · exact h.state k
  · grind
  · grind
  · grind
  · grind

omit [ReplacementPolicy π] in
theorem join (h : Sound v) (hp : v.pages s p.va = some p) (hf : p.frame = none)
    (hfit : n < PageTableEntry.frameLimit) (hpos : 0 < (v.frames n).refcount)
    (hva : ∀ o ∈ (v.frames n).owners, o.space ≠ s ∧ o.va = p.va)
    (hr : ∀ t a e, v.entries t a = some e → e.frame = n → e.has .writable = false) :
    Sound (v.join s n p) := by
  have hk := h.kept hp
  have hlt : n < v.size := h.bounded (by omega)
  have hframe := PageTableEntry.frame_remap none false hfit
  have hwritable := PageTableEntry.writable_remap none n false
  unfold Memory.join
  constructor <;> dsimp only [setPage, setEntry, setFrame, Frame.sharedWith] <;>
    simp only [setAt_apply, Function.update_apply]
  · grind
  · grind
  · grind
  · grind
  · intro k
    split
    · rw [List.pairwise_append]
      exact ⟨h.distinct n, List.pairwise_singleton .., by grind⟩
    · exact h.distinct k
  · intro k
    split
    · simp [h.counted n]
    · exact h.counted k
  · intro k
    split
    · rw [if_neg (Nat.succ_ne_zero _)]
      exact (h.state n).trans (if_neg (by omega))
    · exact h.state k
  · grind
  · grind
  · grind
  · grind

omit [ReplacementPolicy π]

/-- The mapping of a p may change in anything but its frame. -/
theorem remark (h : Sound v) {e f : PageTableEntry} (he : v.entries s va = some e)
    (hframe : f.frame = e.frame)
    (hw : f.has .writable = true → e.has .writable = true ∨
      (v.frames e.frame).refcount = 1 ∧ ∀ q, v.pages s va = some q → q.writable = true) :
    Sound (v.setEntry s va (some f)) where
  kept := h.kept
  unique := h.unique
  owned := h.owned
  owner := h.owner
  distinct := h.distinct
  counted := h.counted
  state := h.state
  bounded := h.bounded
  mapped := by
    simp only [setEntry, setAt_apply]
    grind
  resident := by
    simp only [setEntry, setAt_apply]
    grind
  exclusive := by
    simp only [setEntry, setAt_apply]
    grind

/-- What a p keeps of its contents outside its frame is not part of the account. -/
theorem reback (h : Sound v) (hp : v.pages s p.va = some p) (backing : Backing) :
    Sound (v.setPage s p.va (some { p with backing })) where
  kept := by
    simp only [setPage, setAt_apply]
    grind
  unique := by
    simp only [setPage, setAt_apply]
    grind
  owned := by
    simp only [setPage, setAt_apply]
    grind
  owner := by
    simp only [setPage, setAt_apply]
    grind
  distinct := h.distinct
  counted := h.counted
  state := h.state
  bounded := h.bounded
  mapped := by
    simp only [setPage, setAt_apply]
    grind
  resident := by
    simp only [setPage, setAt_apply]
    grind
  exclusive := by
    simp only [setPage, setAt_apply]
    grind

theorem erase (h : Sound v) (hp : v.pages s p.va = some p) (hf : p.frame = none) :
    Sound (v.setPage s p.va none) where
  kept := by
    simp only [setPage, setAt_apply]
    grind
  unique := by
    simp only [setPage, setAt_apply]
    grind
  owned := by
    simp only [setPage, setAt_apply]
    grind
  owner := by
    simp only [setPage, setAt_apply]
    grind
  distinct := h.distinct
  counted := h.counted
  state := h.state
  bounded := h.bounded
  mapped := by
    simp only [setPage, setAt_apply]
    grind
  resident := by
    simp only [setPage, setAt_apply]
    grind
  exclusive := by
    simp only [setPage, setAt_apply]
    grind

theorem add (h : Sound v) (hs : s < v.spaces) (hva : p.va % pageSize = 0)
    (hp : v.pages s p.va = none) (hserial : p.serial = v.nextSerial) (hf : p.frame = none) :
    Sound (v.add s p) where
  kept := by
    simp only [Memory.add, setPage, setAt_apply]
    grind
  unique := by
    simp only [Memory.add, setPage, setAt_apply]
    grind
  owned := by
    simp only [Memory.add, setPage, setAt_apply]
    grind
  owner := by
    simp only [Memory.add, setPage, setAt_apply]
    grind
  distinct := h.distinct
  counted := h.counted
  state := h.state
  bounded := h.bounded
  mapped := by
    simp only [Memory.add, setPage, setAt_apply]
    grind
  resident := by
    simp only [Memory.add, setPage, setAt_apply]
    grind
  exclusive := by
    simp only [Memory.add, setPage, setAt_apply]
    grind

/-- A frame may come to hold other bytes. -/
theorem refill (h : Sound v) (n : Nat) (c : PageBytes) :
    Sound (v.setFrame n { v.frames n with contents := c }) where
  kept := h.kept
  unique := h.unique
  owned := by
    simp only [setFrame, Function.update_apply]
    grind
  owner := by
    simp only [setFrame, Function.update_apply]
    grind
  distinct := by
    simp only [setFrame, Function.update_apply]
    grind [h.distinct]
  counted := by
    simp only [setFrame, Function.update_apply]
    grind [h.counted]
  state := by
    simp only [setFrame, Function.update_apply]
    grind [h.state]
  bounded := by
    simp only [setFrame, Function.update_apply]
    grind
  mapped := h.mapped
  resident := h.resident
  exclusive := by
    simp only [setFrame, Function.update_apply]
    grind

theorem pass [ReplacementPolicy π] (h : Sound v) (hn : (v.frames n).allocated = false)
    (c : PageBytes) : Sound (v.pass n c) := by
  have hr := h.refill n c
  rw [h.eq_vacant hn] at hr
  exact hr.of_eq rfl rfl (Nat.le_refl _) rfl rfl rfl

variable [ReplacementPolicy π]

/-- A page that has left its frame is still in its table. -/
theorem quit (h : Sound v) (hp : v.pages s page.va = some page) :
    Sound (v.quit s page) ∧ (v.quit s page).pages s page.va = some { page with frame := none } := by
  unfold Memory.quit
  cases hf : page.frame with
  | none =>
    refine ⟨h, hp.trans (congrArg some ?_)⟩
    rw [← hf]
  | some n => exact ⟨h.leave hp hf, page_leave ..⟩

theorem discard (h : Sound v) (hp : v.pages s page.va = some page) : Sound (v.discard s page) := by
  obtain ⟨hq, hp'⟩ := h.quit hp
  exact (hq.erase (p := { page with frame := none }) hp' rfl).of_eq rfl rfl (Nat.le_refl _) rfl rfl rfl

omit [ReplacementPolicy π] in
theorem frame_eq (h : Sound v) {e : PageTableEntry} (hp : v.pages s va = some page)
    (hf : page.frame = some n) (he : v.entries s va = some e) : e.frame = n := by
  grind

omit [ReplacementPolicy π] in
theorem adopt {src dst : Nat} (h : Sound v) (hp : v.pages src page.va = some page)
    (hdst : dst < v.spaces) (hd : v.pages dst page.va = none)
    (hfit : ∀ n, page.frame = some n → n < PageTableEntry.frameLimit) (backing : Backing)
    (swap : SwapSpace) : Sound (v.adopt src dst page backing swap) := by
  have hne : ¬(src = dst ∧ page.va = page.va) := by
    rintro ⟨rfl, -⟩
    rw [hp] at hd
    cases hd
  have hk := h.kept hp
  have hadd : Sound { v.add dst { page with serial := v.nextSerial, backing, frame := none } with swap } :=
    (h.add (p := { page with serial := v.nextSerial, backing, frame := none }) hdst hk.2.1 hd rfl
      rfl).of_eq rfl rfl (Nat.le_refl _) rfl rfl rfl
  unfold Memory.adopt
  cases hf : page.frame with
  | none => exact hadd
  | some n =>
    obtain ⟨e, he⟩ := Option.isSome_iff_exists.mp (h.resident hp hf)
    have hremap := PageTableEntry.frame_remap (v.entries src page.va) false (hfit n hf)
    have hmark := hadd.remark (f := .remap (v.entries src page.va) n false) he
      (hremap.trans (h.frame_eq hp hf he).symm) (by simp)
    refine hmark.join setAt_self rfl (hfit n hf) (h.resident_frame hp hf).1 ?_ ?_
    · -- Every owner is at the address of the page, where `dst` has nothing.
      intro o ho
      have hat : o.va = page.va := h.owner_va ho (h.owned hp hf)
      refine ⟨fun hs => ?_, hat⟩
      obtain ⟨p, hp', -⟩ := h.owner ho
      rw [hs, hat, hd] at hp'
      cases hp'
    · -- Where else the frame is mapped it is shared with this page, hence not writable.
      intro t a e' he' hn'
      simp only [setEntry, setAt_apply] at he'
      split at he'
      · rw [← Option.some.inj he']
        exact PageTableEntry.writable_remap ..
      · rename_i hat
        have he' : v.entries t a = some e' := he'
        obtain ⟨q, hq, hqf⟩ := h.mapped he'
        rw [← Bool.not_eq_true]
        intro hw
        have hone := (h.exclusive he' hw hq).2
        have halone := h.alone hone hq hqf hp (hf.trans (congrArg some hn'.symm))
        exact hat halone

theorem step (h : Sound v) (hs : Step v w) : Sound w := by
  cases hs with
  | serial hn => exact h.of_eq rfl rfl hn rfl rfl rfl
  | handles _ => exact h.of_eq rfl rfl (Nat.le_refl _) rfl rfl rfl
  | swap _ => exact h.of_eq rfl rfl (Nat.le_refl _) rfl rfl rfl
  | passed hn => exact h.pass hn _
  | flushed hp hf hfile hw =>
    cases hw with
    | clean => exact h
    | done hs he hd hw =>
      exact (h.remark he (PageTableEntry.frame_put ..) fun hw' => .inl (by
        simpa [PageTableEntry.has_put] using hw')).of_eq rfl rfl (Nat.le_refl _) rfl rfl rfl
  | flushedShort hp hf hfile hw =>
    cases hw with
    | detached => exact h
    | short => exact h.of_eq rfl rfl (Nat.le_refl _) rfl rfl rfl
  | @evicted s n page backing swap hp hf hn hb =>
    have hr := (h.reback hp backing).leave (p := { page with backing }) setAt_self hf
    rw [leave_setPage v s n { page with backing }] at hr
    exact hr.of_eq rfl rfl (Nat.le_refl _) rfl rfl rfl
  | @claimed s n page backing c swap hp hf hn hlt hfit hb =>
    have hr := (h.reback hp backing).seat (p := { page with backing }) setAt_self hf hn hlt hfit id c
    rw [seat_setPage v s n { page with backing }] at hr
    exact hr.of_eq rfl rfl (Nat.le_refl _) rfl rfl rfl
  | @refused s n page backing c swap hp hf hn hlt hb hr =>
    exact ((h.reback hp backing).pass hn c).of_eq rfl rfl (Nat.le_refl _) rfl rfl rfl
  | @unshared s n page e hp hf hw hn he =>
    have hframe := h.frame_eq hp hf he
    refine h.remark he ((PageTableEntry.frame_remap _ _ ?_).trans hframe.symm) fun _ => .inr ⟨?_, ?_⟩
    · exact hframe ▸ e.frame_lt
    · rw [hframe, hn]
    · intro p hp'
      rw [hp, Option.some.injEq] at hp'
      exact hp' ▸ hw
  | @moved s old new page hp hf hw hold hnew hlt hfit =>
    have hne : new ≠ old := by
      rintro rfl
      have := (h.resident_frame hp hf).1
      rw [h.free_iff] at hnew
      omega
    have hframe : (v.leave s old page).frames new = v.frames new := by
      rw [h.leave_eq hp hf]
      exact Function.update_of_ne hne ..
    have hsize : (v.leave s old page).size = v.size := size_leave ..
    exact (h.leave hp hf).seat (p := { page with frame := none }) (page_leave ..) rfl (hframe ▸ hnew)
      (hsize ▸ hlt) hfit (fun _ => hw) (v.frames old).contents
  | touched record he =>
    exact h.remark he (PageTableEntry.frame_touch ..) fun hw => .inl (by simpa using hw)

theorem change {c : Change} (h : Sound v) (ha : Alters v c w) : Sound w := by
  cases ha with
  | insert hs hva hp hserial hf hb => exact h.add hs hva hp hserial hf
  | remove hp => exact h.discard hp
  | copy hp hdst hd hfit hb => exact h.adopt hp hdst hd hfit ..
  | write record hp hf he hw =>
    exact (h.remark he (PageTableEntry.frame_touch ..) fun hw => .inl (by simpa using hw)).refill ..
  | spawn willing =>
    exact
      { kept := fun hp => by
          obtain ⟨h1, h2, h3, h4⟩ := h.kept hp
          exact ⟨h1, h2, Nat.lt_succ_of_lt h3, h4⟩
        unique := h.unique
        owned := h.owned
        owner := h.owner
        distinct := h.distinct
        counted := h.counted
        state := h.state
        bounded := h.bounded
        mapped := h.mapped
        resident := h.resident
        exclusive := h.exclusive }
  | drop hpos hp =>
    exact
      { kept := by
          intro s va p hp'
          obtain ⟨h1, h2, h3, h4⟩ := h.kept hp'
          refine ⟨h1, h2, ?_, h4⟩
          have : s ≠ v.spaces - 1 := by
            rintro rfl
            rw [hp va] at hp'
            cases hp'
          show s < v.spaces - 1
          omega
        unique := h.unique
        owned := h.owned
        owner := h.owner
        distinct := h.distinct
        counted := h.counted
        state := h.state
        bounded := h.bounded
        mapped := h.mapped
        resident := h.resident
        exclusive := h.exclusive }

theorem evolves {cs : List Change} (h : Sound v) (he : Evolves cs v w) : Sound w :=
  he.keeps h (fun hs h => h.step hs) fun _ ha h => h.change ha

end Memory.Sound

end DemandPaging
