import DemandPaging.Proofs.Acquisition

/-! # Frames on hand

Whoever acquires a frame has it on hand until a page is put into it or it is given back. Meanwhile
anything may be mapped anywhere. Frames on hand and mappings apart, memory is as valid as ever, and that
is kept while further frames are taken, filled and given back.
-/
namespace DemandPaging

namespace Frame

/-- A frame that was acquired and that no page is in yet. -/
def taken (c : PageBytes) : Frame :=
  { entry := (CoreMapEntry.free.put .allocated true).put .pinned true, refcount := 1, contents := c }

@[simp] theorem allocated_taken (c : PageBytes) : (taken c).allocated = true := by
  simp [allocated, taken, CoreMapEntry.has_put]

end Frame

namespace Memory
variable {π : Type} {v w x : Memory π} {s va n : Nat} {p : Page} {held : List Nat}

theorem Saved.congr {c : PageBytes} {dirty : Prop} {backing backing' : Backing} {swap : SwapSpace}
    (h : v.Saved c dirty backing backing' swap) (hs : w.swap = v.swap) :
    w.Saved c dirty backing backing' swap := by
  cases h with
  | stored h => exact .stored (hs ▸ h)
  | clean source old h =>
    rw [← hs]
    exact .clean source old h

/-- A page may be put out of a frame of its own once its bytes are saved. -/
theorem Valid.putOut [ReplacementPolicy π] (h : Valid v) (hp : v.pages s p.va = some p)
    (hf : p.frame = some n) (hn : (v.frames n).refcount = 1) {c : PageBytes} {dirty : Prop}
    {backing : Backing} {swap : SwapSpace} (hb : v.Saved c dirty p.backing backing swap) :
    Valid { v.putOut s n p backing with swap } := by
  refine ⟨?_, h.stowed.saved_page hp (by rw [hf]; rfl) rfl rfl hb⟩
  have hleft := (h.sound.reback hp backing).leave (p := { p with backing }) setAt_self hf
  rw [leave_setPage v s n { p with backing }, h.sound.leave_last hp hf hn] at hleft
  exact hleft.of_eq rfl rfl (Nat.le_refl _) rfl rfl rfl

/-- Mappings are in step with pages: what is mapped is what pages are in, and nobody writes to it who may
not, or besides others. -/
structure InStep (v : Memory π) : Prop where
  mapped : ∀ {s va e}, v.entries s va = some e → ∃ p, v.pages s va = some p ∧ p.frame = some e.frame
  resident : ∀ {s va p n}, v.pages s va = some p → p.frame = some n → (v.entries s va).isSome
  exclusive : ∀ {s va e p}, v.entries s va = some e → e.has .writable = true →
    v.pages s va = some p → p.writable = true ∧ (v.frames e.frame).refcount = 1

/-- Memory under other mappings, with the frames on hand given back. -/
def unreserved (v : Memory π) (held : List Nat) (entries : Nat → Nat → Option PageTableEntry) : Memory π :=
  { v with entries, frames := fun n => if n ∈ held then .vacant (v.frames n).contents else v.frames n }

theorem frames_unreserved (v : Memory π) (held : List Nat) (entries : Nat → Nat → Option PageTableEntry)
    (n : Nat) : (v.unreserved held entries).frames n =
      if n ∈ held then .vacant (v.frames n).contents else v.frames n := rfl

theorem frames_unreserved_of_not_mem (v : Memory π) (entries : Nat → Nat → Option PageTableEntry)
    (hn : n ∉ held) :
    (v.unreserved held entries).frames n = v.frames n := if_neg hn

/-- Frames `held` are on hand, and there are mappings under which memory without them is valid. -/
structure Reserves (held : List Nat) (v : Memory π) : Prop where
  nodup : held.Nodup
  taken : ∀ n ∈ held, n < v.size ∧ v.frames n = .taken (v.frames n).contents
  valid : ∃ entries, Valid (v.unreserved held entries)

namespace Reserves

theorem of_valid (h : Valid v) : Reserves [] v :=
  ⟨List.nodup_nil, nofun, v.entries, h⟩

theorem valid_of_inStep (h : Reserves [] v) (hm : v.InStep) : Valid v := by
  obtain ⟨entries, hv⟩ := h.valid
  exact ⟨{ hv.sound with mapped := hm.mapped, resident := hm.resident, exclusive := hm.exclusive },
    hv.stowed.of_eq rfl (.refl _)⟩

/-- Only these parts of memory matter to what is in order besides the frames on hand. -/
theorem of_eq (hnodup : held.Nodup)
    (htaken : ∀ n ∈ held, n < v.size ∧ v.frames n = .taken (v.frames n).contents) (hx : Valid x)
    (hspaces : v.spaces = x.spaces) (hsize : v.size = x.size) (hserial : v.nextSerial = x.nextSerial)
    (hpages : v.pages = x.pages) (hframes : (v.unreserved held x.entries).frames = x.frames)
    (hswap : x.swap.Agrees v.swap) :
    Reserves held v := by
  refine ⟨hnodup, htaken, x.entries, ?_, hx.stowed.of_eq hpages hswap⟩
  exact hx.sound.of_eq hspaces hsize (Nat.le_of_eq hserial.symm) hpages rfl hframes

/-- Mappings and files may change at will. -/
theorem congr (h : Reserves held v) (hspaces : w.spaces = v.spaces) (hsize : w.size = v.size)
    (hserial : w.nextSerial = v.nextSerial) (hpages : w.pages = v.pages) (hframes : w.frames = v.frames)
    (hswap : v.swap.Agrees w.swap) : Reserves held w := by
  obtain ⟨hnodup, htaken, entries, hv⟩ := h
  refine .of_eq hnodup (fun n hn => ?_) hv hspaces hsize hserial hpages ?_ hswap
  · rw [hsize, hframes]
    exact htaken n hn
  · funext n
    simp only [frames_unreserved, hframes]

/-- So may the disk, as long as its size stays the same. -/
theorem elsewhere (h : Reserves held v) {device : Device} (hsize : device.size = v.swap.device.size)
    (files : FileStore) : Reserves held { v with swap := { v.swap with device }, files } := by
  obtain ⟨entries, hv⟩ := h.valid
  exact ⟨h.nodup, h.taken, entries, hv.elsewhere hsize files⟩

section Facts
variable (h : Reserves held v)
include h

theorem kept (hp : v.pages s va = some p) : p.va = va ∧ va % pageSize = 0 ∧ s < v.spaces := by
  obtain ⟨entries, hv⟩ := h.valid
  obtain ⟨hva, haligned, hs, -⟩ := hv.sound.kept hp
  exact ⟨hva, haligned, hs⟩

theorem fits : v.swap.Fits := h.valid.choose_spec.stowed.fits

theorem filled (hp : v.pages s va = some p) (hf : p.frame = some n) (target : Target) (source : Source) :
    p.backing ≠ .uninit target source := by
  obtain ⟨entries, hv⟩ := h.valid
  exact hv.stowed.filled hp (by rw [hf]; rfl) target source

/-- A page in a frame is in none of those on hand. -/
theorem resident (hp : v.pages s va = some p) (hf : p.frame = some n) :
    n ∉ held ∧ n < v.size ∧ 0 < (v.frames n).refcount := by
  obtain ⟨entries, hv⟩ := h.valid
  obtain ⟨hpos, hlt⟩ := hv.sound.resident_frame hp hf
  have hnot : n ∉ held := by
    intro hn
    rw [frames_unreserved, if_pos hn] at hpos
    exact Nat.lt_irrefl 0 hpos
  rw [frames_unreserved_of_not_mem v entries hnot] at hpos
  exact ⟨hnot, hlt, hpos⟩

/-- The owners of a frame are pages that are in it. -/
theorem owner {o : Owner} (ho : o ∈ (v.frames n).owners) :
    ∃ p, v.pages o.space o.va = some p ∧ p.serial = o.page ∧ p.frame = some n := by
  obtain ⟨entries, hv⟩ := h.valid
  have hnot : n ∉ held := by
    intro hn
    rw [(h.taken n hn).2] at ho
    cases ho
  exact hv.sound.owner (by rwa [frames_unreserved_of_not_mem v entries hnot])

/-- A frame that is not allocated is none of those on hand, and has no trace of who was in it. -/
theorem free (hn : (v.frames n).allocated = false) :
    n ∉ held ∧ v.frames n = .vacant (v.frames n).contents := by
  obtain ⟨entries, hv⟩ := h.valid
  have hnot : n ∉ held := by
    intro hmem
    rw [(h.taken n hmem).2, Frame.allocated_taken] at hn
    cases hn
  have hsame := frames_unreserved_of_not_mem v entries hnot
  have hvacant := hv.sound.eq_vacant (n := n) (by rwa [hsame])
  rw [hsame] at hvacant
  exact ⟨hnot, hvacant⟩

/-- Any frame may come to hold other bytes. -/
theorem refill (n : Nat) (c : PageBytes) : Reserves held (v.setFrame n { v.frames n with contents := c }) := by
  obtain ⟨hnodup, htaken, entries, hv⟩ := h
  refine .of_eq hnodup (fun k hk => ⟨(htaken k hk).1, ?_⟩) ⟨hv.sound.refill n c, hv.stowed.of_eq rfl (.refl _)⟩
    rfl rfl rfl rfl (funext fun k => ?_) (.refl _)
  · have htaken := (htaken k hk).2
    by_cases hkn : k = n
    · subst hkn
      simp only [setFrame, Function.update_self]
      rw [htaken]
      rfl
    · simp only [setFrame, Function.update_of_ne hkn]
      exact htaken
  · simp only [frames_unreserved, setFrame, Function.update_apply]
    by_cases hkn : k = n
    · subst hkn
      by_cases hk : k ∈ held <;> simp [hk, Frame.vacant]
    · simp [hkn]

variable [ReplacementPolicy π]

/-- A page is put out of a frame of its own, with its bytes saved. -/
theorem putOut (hp : v.pages s p.va = some p) (hf : p.frame = some n) (hn : (v.frames n).refcount = 1)
    {c : PageBytes} {dirty : Prop} {backing : Backing} {swap : SwapSpace}
    (hb : v.Saved c dirty p.backing backing swap) : Reserves held { v.putOut s n p backing with swap } := by
  have hnot := (h.resident hp hf).1
  obtain ⟨hnodup, htaken, entries, hv⟩ := h
  have hsame := frames_unreserved_of_not_mem v entries hnot
  refine .of_eq hnodup (fun k hk => ⟨(htaken k hk).1, ?_⟩)
    (hv.putOut hp hf (by rwa [hsame]) (hb.congr rfl)) rfl rfl rfl rfl (funext fun k => ?_) (.refl _)
  · have hkn : k ≠ n := fun heq => hnot (heq ▸ hk)
    simp only [Memory.putOut, setFrame, setEntry, setPage, Function.update_of_ne hkn]
    exact (htaken k hk).2
  · simp only [frames_unreserved, Memory.putOut, setFrame, setEntry, setPage, Function.update_apply]
    by_cases hkn : k = n
    · subst hkn
      simp [hnot]
    · simp [hkn]

/-- A free frame is taken. -/
theorem occupy (hn : (v.frames n).allocated = false) (hlt : n < v.size) :
    Reserves (n :: held) (v.occupy n) := by
  obtain ⟨hnot, hvacant⟩ := h.free hn
  have hrefilled := (h.refill n zeroPage)
  obtain ⟨hnodup, htaken, entries, hv⟩ := hrefilled
  have hframe : (v.occupy n).frames n = .taken zeroPage := by
    simp only [Memory.occupy, setFrame, Function.update_self]
    rw [hvacant]
    rfl
  have hother (k : Nat) (hkn : k ≠ n) : (v.occupy n).frames k = v.frames k := Function.update_of_ne hkn ..
  refine .of_eq (List.nodup_cons.mpr ⟨hnot, hnodup⟩) (fun k hk => ?_) hv rfl rfl rfl rfl (funext fun k => ?_)
    (.refl _)
  · by_cases hkn : k = n
    · subst hkn
      exact ⟨hlt, by rw [hframe]; rfl⟩
    · rw [hother k hkn]
      exact h.taken k ((List.mem_cons.mp hk).resolve_left hkn)
  · simp only [frames_unreserved, List.mem_cons, setFrame, Function.update_apply]
    by_cases hkn : k = n
    · subst hkn
      simp only [true_or, if_true, hframe, hnot, if_false]
      rw [hvacant]
      rfl
    · simp only [hkn, false_or, if_false, hother k hkn]

/-- A frame on hand is given back. -/
theorem put (hn : n ∈ held) : Reserves (held.erase n) (v.put n) := by
  obtain ⟨hnodup, htaken, entries, hv⟩ := h
  have htaken' := (htaken n hn).2
  have hframe : (v.put n).frames n = .vacant (v.frames n).contents := by
    simp only [Memory.put, setFrame, Function.update_self]
    rw [htaken']
    rfl
  have hother (k : Nat) (hkn : k ≠ n) : (v.put n).frames k = v.frames k := Function.update_of_ne hkn ..
  refine .of_eq (hnodup.erase n) (fun k hk => ?_) hv rfl rfl rfl rfl (funext fun k => ?_) (.refl _)
  · obtain ⟨hkn, hk⟩ := hnodup.mem_erase_iff.mp hk
    rw [hother k hkn]
    exact htaken k hk
  · simp only [frames_unreserved, hnodup.mem_erase_iff]
    by_cases hkn : k = n
    · subst hkn
      simp [hframe, hn]
    · simp [hkn, hother k hkn]

end Facts
end Reserves
end Memory
end DemandPaging
