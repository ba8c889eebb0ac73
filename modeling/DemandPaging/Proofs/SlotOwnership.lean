import DemandPaging.Proofs.Operations
import DemandPaging.Proofs.Tables

/-! # Who owns which slot

As long as no space refuses a mapping, pages keep the form that their state calls for, and the swap
slots in use are those that pages have recorded, each by one page. What eviction finds in a frame can
always be saved.
-/
namespace DemandPaging

variable {π : Type} [ReplacementPolicy π] {m : Machine π}

/-- What a page may look like. -/
structure Page.WellFormed (p : Page) : Prop where
  uninit : ∀ target source, p.backing = .uninit target source → p.frame = none
  anonymous : ∀ source slot, p.backing = .anonymous source slot → ¬(p.frame.isSome ∧ slot.isSome)
  fileBacked : ∀ source evicted, p.backing = .fileBacked source evicted →
    (evicted = true ↔ p.frame = none)

omit [ReplacementPolicy π] in
theorem Memory.Valid.wellFormed {v : Memory π} (h : v.Valid) (hs : v.Shaped) {s va : Nat} {p : Page}
    (hp : v.pages s va = some p) : p.WellFormed where
  uninit target source hb := by
    cases hf : p.frame with
    | none => rfl
    | some n => exact absurd hb (h.stowed.filled hp (hf ▸ rfl) target source)
  anonymous source slot hb hboth := by
    have hslot := h.stowed.apart hp hboth.1
    rw [hb] at hslot
    rw [show slot = none from hslot] at hboth
    cases hboth.2
  fileBacked source evicted hb := hs _ _ _ _ _ hp hb

/-- What eviction finds can be saved, and has no slot yet. -/
theorem victim_saved (h : m.memory.Valid) {busy : Option Nat} {n : Nat} {o : Owner} {page : Page}
    (hv : m.victim? busy n = some (o, page)) :
    page.backing.slot? = none ∧ (∀ target source, page.backing ≠ .uninit target source) ∧
      ∀ after, saveOut page n o.space m ≠ .ok (.error .invalidMapping) after := by
  obtain ⟨-, hp, hf, -, -⟩ := Machine.victim?_resident h hv
  have hresident : page.frame.isSome := hf ▸ rfl
  have hfilled := h.stowed.filled hp hresident
  refine ⟨h.stowed.apart hp hresident, hfilled, fun after hx => ?_⟩
  exact ((saveOut_ends (h.sound.kept hp).2.1 h.stowed.fits hp hf hfilled).of_error hx).1 rfl

/-- Whatever processes have done, and whatever has failed on the way: every page is well formed, every
slot that a page has recorded is one of the device and in use, no two pages have the same, and there
are no other slots in use. Neither then nor in the middle of an operation does eviction meet a page
that nobody has filled, or one that has a slot already. -/
theorem slots_owned_of_runs {count : Nat} (hcount : count ≤ PageTableEntry.frameLimit) {device : Device} {policy : π}
    {files : FileStore} {calls : List Call}
    (h : Runs (fun m op => op.Allowed m ∧ op.AtUser) (Machine.start count device policy files) calls m) :
    (∀ s va p, m.page? s va = some p → p.WellFormed ∧
      ∀ k, p.backing.slot? = some k → k < m.swap.capacity ∧ m.swap.Used k) ∧
    (∀ s va p t a q k, m.page? s va = some p → m.page? t a = some q →
      p.backing.slot? = some k → q.backing.slot? = some k → s = t ∧ pageDown va = pageDown a) ∧
    m.swap.slotsInUse = m.recordedSlots.length ∧
    ∀ cs (m' : Machine π), Memory.Evolves cs m.memory m'.memory →
      ∀ busy n o page, m'.victim? busy n = some (o, page) →
        page.backing.slot? = none ∧ (∀ target source, page.backing ≠ .uninit target source) ∧
          ∀ after, saveOut page n o.space m' ≠ .ok (.error .invalidMapping) after := by
  have hvalid := h.valid (Machine.valid_start ..) fun _ _ hop => hop.1
  obtain ⟨-, -, hshaped⟩ : m.memory.Valid ∧ m.memory.Roomy ∧ m.memory.Shaped := by
    refine h.keeps (I := fun m => m.memory.Valid ∧ m.memory.Roomy ∧ m.memory.Shaped)
      ⟨Machine.valid_start .., Machine.roomy_start _ _ _ _ hcount, Machine.shaped_start _ _ _ _⟩ ?_
    rintro m₁ op reply m₂ ⟨hv, hr, hs⟩ ⟨hop, huser⟩ hp
    obtain ⟨cs, hevolves, hcs⟩ := ((Operation.perform_ends hv hop).of_ok hp).evolves
    exact ⟨hv.evolves hevolves, hr.evolves (hcs huser) hevolves, hs.evolves hr (hcs huser) hevolves⟩
  have hslot : ∀ {s va p k}, m.page? s va = some p → p.backing.slot? = some k →
      m.memory.slotAt s (pageDown va) = some k := by
    intro s va p k hp hk
    rw [Machine.page?_eq] at hp
    exact (Memory.Stowed.slotAt_eq hp).trans hk
  refine ⟨fun s va p hp => ⟨hvalid.wellFormed hshaped hp, fun k hk => ?_⟩, ?_,
    Machine.slotsInUse_eq hvalid.sound hvalid.stowed, fun cs m' hevolves busy n o page hv => ?_⟩
  · exact ⟨hvalid.stowed.lt_capacity (hslot hp hk), (hvalid.stowed.used k).mpr ⟨s, _, hslot hp hk⟩⟩
  · intro s va p t a q k hp hq hk hk'
    exact hvalid.stowed.single (hslot hp hk) (hslot hq hk')
  · exact victim_saved (hvalid.evolves hevolves) hv

/-- With a single frame, the first of two pages is in a slot once the second has been written. -/
theorem slots_owned_after_eviction : ∃ calls, ∃ m : Machine Fifo,
    Runs (fun m op => op.Allowed m ∧ op.AtUser)
      (.start 1 { name := "swap", kind := .swap, size := 8, disk := .zeroed 8 } {} {}) calls m ∧
    m.recordedSlots = [0] ∧ m.swap.slotsInUse = m.recordedSlots.length := by
  obtain ⟨calls, m, hrun, hcheck⟩ := Runs.of_afterAll (fun m op => op.Allowed m ∧ op.AtUser)
    (m := .start 1 { name := "swap", kind := .swap, size := 8, disk := .zeroed 8 } ({} : Fifo) {})
    [.createProcess 1, .insert 0 4096 true (.anonymous .zeroed none),
      .insert 0 8192 true (.anonymous .zeroed none), .writeUser 0 4096 [7], .writeUser 0 8192 [8]]
    (fun m => decide (m.recordedSlots = [0])) (by decide +kernel)
  exact ⟨calls, m, hrun, of_decide_eq_true hcheck, (slots_owned_of_runs (by decide) hrun).2.2.1⟩

end DemandPaging
