import DemandPaging.Proofs.Access

/-! # Writes in place

A page that may be written and is alone in its frame can be mapped there for reading alone, as a fork
leaves it. A write to such a page succeeds where the page is: it gets its right back and its bytes
change, and no frame is taken or given back.
-/
namespace DemandPaging

/-- The page at `va` may be written and is alone in frame `n`, but mapped there for reading alone. -/
structure Memory.Protected {π : Type} (v : Memory π) (s va n : Nat) (e : PageTableEntry) : Prop where
  resident : ∃ p, v.pages s va = some p ∧ p.frame = some n ∧ p.writable = true
  alone : (v.frames n).refcount = 1
  entry : v.entries s va = some e
  readonly : e.has .writable = false
  user : va < kernelBase
  willing : v.willing s

variable {π : Type} [ReplacementPolicy π] {m : Machine π} {s va n addr : Nat} {e : PageTableEntry}

theorem lt_kernelBase (h : pageDown addr < kernelBase) (count : Nat)
    (hcount : count ≤ pageSize - pageOffset addr) : addr + count ≤ kernelBase := by
  simp only [pageDown, pageOffset, pageSize, kernelBase] at h hcount ⊢
  omega

theorem unprotect_in_place {page : Page} (h : m.memory.Valid)
    (hp : m.memory.pages s page.va = some page) (hprotected : m.memory.Protected s page.va n e) :
    Attempt.Ends False (unprotect s page) m
      (fun _ after => after.memory = m.memory.setEntry s page.va (some (.remap (some e) n true)))
      fun _ _ => False := by
  obtain ⟨⟨q, hq, hf, -⟩, hone, he, -, huser, hwilling⟩ := hprotected
  obtain rfl := Option.some.inj (hp.symm.trans hq)
  obtain ⟨_, hva, hs, _⟩ := h.sound.kept hp
  simp only [unprotect, hf, Attempt.ends_bind, Attempt.ends_get, Attempt.ends_ite,
    Attempt.ends_modifyGet, Attempt.ends_modify, Attempt.ends_throw]
  have hmapped := Machine.map_cases hs page.va n true
  rw [pageDown_eq_self hva, he] at hmapped
  refine ⟨fun _ => ?_, fun hne => absurd hone hne⟩
  obtain ⟨hdone, -, -, hmap⟩ | ⟨-, -, hrefused⟩ := hmapped
  · exact ⟨fun _ => hmap, fun hnot => hnot hdone⟩
  · -- The frame is the one that the entry has, so that it fits.
    have hfit : n < PageTableEntry.frameLimit := h.sound.frame_eq hp hf he ▸ e.frame_lt
    exact absurd ⟨hwilling, huser, hfit⟩ hrefused

theorem handleFault_in_place (h : m.memory.Valid) (hprotected : m.memory.Protected s (pageDown addr) n e)
    (user : Bool) (esp : Nat) :
    Attempt.Ends False (handleFault s { addr, user, write := true, notPresent := false } esp) m
      (fun _ after => after.memory =
        m.memory.setEntry s (pageDown addr) (some (.remap (some e) n true)))
      fun _ _ => False := by
  obtain ⟨page, hp, -, hw⟩ := hprotected.resident
  have hva := (h.sound.kept hp).1
  refine ends_handleFault_of_present hp hw rfl rfl (fun _ haddr => ?_) ?_
  · have huser := lt_kernelBase hprotected.user 1 (Nat.sub_pos_of_lt (pageOffset_lt addr))
    exact absurd huser (Nat.not_lt_of_le haddr)
  · rw [← hva] at hprotected hp ⊢
    exact unprotect_in_place h hp hprotected

theorem pageFor_in_place (h : m.memory.Valid) (hprotected : m.memory.Protected s (pageDown addr) n e)
    (esp rounds : Nat) :
    Attempt.Ends False (pageFor s esp addr true (rounds + 1)) m
      (fun k after => k = n ∧ ∃ record, after.memory = m.memory.setEntry s (pageDown addr)
        (some ((PageTableEntry.remap (some e) n true).touch record true)))
      fun _ _ => False := by
  obtain ⟨page, hp, hf, hw⟩ := hprotected.resident
  have hentry : PageDirectory.entry? (m.space s).directory (pageDown addr) = some e := by
    rw [Machine.entry?_eq, pageDown_pageDown, hprotected.entry]
  have hneeds : needsFault m s (pageDown addr) true = true := by
    simp [needsFault, PageDirectory.isWritable, PageDirectory.has, hentry, hprotected.readonly]
  have hpresent : ((m.space s).directory.frame? (pageDown addr)).isNone = false := by
    simp [PageDirectory.frame?, hentry]
  simp only [pageFor, Attempt.ends_bind, Attempt.ends_get, hneeds, if_true, hpresent]
  refine (handleFault_in_place h hprotected false esp).imp ?_ fun _ _ => id
  intro _ m₁ hm₁
  have hpage : m₁.page? s (pageDown addr) = some page := by
    rw [Machine.page?_eq, pageDown_pageDown, hm₁]
    exact hp
  have hentry₁ : m₁.memory.entries s (pageDown (pageDown addr)) = some (.remap (some e) n true) := by
    rw [pageDown_pageDown, hm₁]
    exact setAt_self
  have htouch := Machine.memory_touch true hentry₁
  rw [pageDown_pageDown] at htouch
  simp only [hpage, hf, Attempt.ends_bind, Attempt.ends_modify, Attempt.ends_pure]
  refine ⟨trivial, (m₁.space s).recordsAccess, ?_⟩
  rw [htouch, hm₁]
  simp only [Memory.setEntry, setAt_setAt]

/-- Bytes that fit the rest of their page are written in one go. -/
theorem writeUser_in_place (h : m.memory.Valid) (hprotected : m.memory.Protected s (pageDown addr) n e)
    {bytes : List UInt8} (hne : bytes ≠ []) (hfit : bytes.length ≤ pageSize - pageOffset addr) :
    Attempt.Ends False (writeUser s addr bytes) m
      (fun _ after => ∃ record, after.memory =
        (m.memory.setEntry s (pageDown addr)
          (some ((PageTableEntry.remap (some e) n true).touch record true))).setFrame n
          { m.memory.frames n with
            contents := overwrite (m.memory.frames n).contents (pageOffset addr) bytes })
      fun _ _ => False := by
  obtain ⟨page, hp, hf, -⟩ := hprotected.resident
  have hlt := (h.sound.resident_frame hp hf).2
  have hpos : 0 < bytes.length := List.length_pos_iff.mpr hne
  have hwhole : chunkSize addr bytes.length = bytes.length := Nat.min_eq_right hfit
  have huser : inUserMemory addr bytes.length = true := decide_eq_true (lt_kernelBase hprotected.user _ hfit)
  rw [writeUser]
  simp only [copyToUser, huser, if_true, Attempt.ends_bind, Attempt.ends_get]
  rw [writeChunks, dif_pos hpos]
  simp only [hwhole, List.take_length, List.drop_length, writeChunk, Attempt.ends_bind,
    Attempt.ends_modify]
  refine (pageFor_in_place h hprotected _ 1).imp ?_ fun _ _ => id
  rintro k m₁ ⟨rfl, record, hm₁⟩
  rw [writeChunks, dif_neg (by simp)]
  have hn : k < m₁.frames.size := Machine.lt_frames hm₁ hlt
  refine ⟨record, ?_⟩
  rw [Machine.memory_setContents hn, Machine.contents_eq, hm₁]
  rfl

end DemandPaging
