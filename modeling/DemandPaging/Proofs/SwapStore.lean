import Mathlib.Tactic.Common
import DemandPaging.Swap

/-! # Swap as a store of pages

Slots are disjoint runs of sectors, so that what is written to one slot leaves every other slot as it
was. Storing a page takes a slot that nobody uses; fetching it answers the page that was stored.
-/
namespace DemandPaging

/-- The bytes of up to `count` consecutive sectors. -/
def Disk.bytes (d : Disk) (sector count : Nat) : List UInt8 :=
  ((d.sectors.drop sector).take count).flatMap (·.toList)

namespace Device

theorem write_eq_ok {d d' : Device} {sector : Nat} {buffer : List UInt8}
    (h : d.write sector buffer = .ok d') :
    ∃ hb : buffer.length = sectorSize, sector < d.disk.sectors.length ∧ d'.size = d.size ∧
      d'.disk.sectors = d.disk.sectors.set sector (Sector.ofList buffer hb) := by
  unfold write at h
  split at h
  · cases h
  · split at h
    · rename_i hb
      split at h
      · cases h
      · unfold Disk.write at h
        by_cases hro : d.disk.readOnly = true
        · simp [hro] at h
        · by_cases hlt : sector < d.disk.sectors.length
          · simp only [hro, hlt, if_true] at h
            cases h
            exact ⟨hb, hlt, rfl, rfl⟩
          · simp [hro, hlt] at h
    · cases h

theorem read_eq_ok {d d' : Device} {sector size : Nat} {s : Sector}
    (h : d.read sector size = .ok (s, d')) :
    d.disk.sectors[sector]? = some s ∧ d'.size = d.size ∧ d'.disk = d.disk := by
  unfold read at h
  split at h
  · cases h
  · split at h
    · cases h
    · unfold Disk.read at h
      cases hs : d.disk.sectors[sector]? with
      | none => simp [hs] at h
      | some s' =>
        simp only [hs] at h
        cases h
        exact ⟨rfl, rfl, rfl⟩

/-- Writing a run of sectors changes no sector outside of it, also if it fails. -/
theorem writeRun_frame (d : Device) (sector : Nat) (buffers : List (List UInt8)) :
    (d.writeRun sector buffers).1.size = d.size ∧
      (d.writeRun sector buffers).1.disk.sectors.length = d.disk.sectors.length ∧
      ∀ i, i < sector ∨ sector + buffers.length ≤ i →
        (d.writeRun sector buffers).1.disk.sectors[i]? = d.disk.sectors[i]? := by
  induction buffers generalizing d sector with
  | nil => exact ⟨rfl, rfl, fun _ _ => rfl⟩
  | cons buffer rest ih =>
    unfold writeRun
    cases h : d.write sector buffer with
    | error e => exact ⟨rfl, rfl, fun _ _ => rfl⟩
    | ok d' =>
      obtain ⟨hb, hlt, hsize, hset⟩ := write_eq_ok h
      obtain ⟨ihsize, ihlen, ihframe⟩ := ih d' (sector + 1)
      refine ⟨ihsize.trans hsize, ihlen.trans (by rw [hset, List.length_set]), ?_⟩
      intro i hi
      simp only [List.length_cons] at hi
      dsimp only
      rw [ihframe i (by omega), hset, List.getElem?_set_ne (by omega)]

/-- A run of sectors that was written holds what was written. -/
theorem writeRun_stored {d d' : Device} {sector : Nat} {buffers : List (List UInt8)}
    (h : d.writeRun sector buffers = (d', none)) :
    ((d'.disk.sectors.drop sector).take buffers.length).map (·.toList) = buffers := by
  induction buffers generalizing d sector with
  | nil => simp
  | cons buffer rest ih =>
    unfold writeRun at h
    cases hw : d.write sector buffer with
    | error e => simp [hw] at h
    | ok d₁ =>
      simp only [hw] at h
      obtain ⟨hb, hlt, -, hset⟩ := write_eq_ok hw
      have hfirst : d'.disk.sectors[sector]? = some (Sector.ofList buffer hb) := by
        have hframe := (writeRun_frame d₁ (sector + 1) rest).2.2 sector (.inl (by omega))
        rw [h] at hframe
        rw [hframe, hset, List.getElem?_set_self hlt]
      obtain ⟨hs, hfirst⟩ := List.getElem?_eq_some_iff.mp hfirst
      rw [List.drop_eq_getElem_cons hs, List.length_cons, List.take_succ_cons, List.map_cons, ih h,
        hfirst]
      simp [Sector.ofList]

/-- Reading a run of sectors changes nothing but the counters of the device. -/
theorem readRun_frame (d : Device) (sector count : Nat) :
    (d.readRun sector count).2.1.size = d.size ∧ (d.readRun sector count).2.1.disk = d.disk := by
  induction count generalizing d sector with
  | zero => exact ⟨rfl, rfl⟩
  | succ count ih =>
    unfold readRun
    cases h : d.read sector sectorSize with
    | error e => exact ⟨rfl, rfl⟩
    | ok r =>
      obtain ⟨s, d'⟩ := r
      obtain ⟨-, hsize, hdisk⟩ := read_eq_ok h
      exact ⟨(ih d' (sector + 1)).1.trans hsize, (ih d' (sector + 1)).2.trans hdisk⟩

/-- A run that could be read in full answers the bytes of its sectors. -/
theorem readRun_eq_none {d d' : Device} {sector count : Nat} {bytes : List UInt8}
    (h : d.readRun sector count = (bytes, d', none)) :
    bytes = d.disk.bytes sector count ∧ bytes.length = sectorSize * count := by
  induction count generalizing d sector bytes with
  | zero =>
    cases h
    exact ⟨by simp [Disk.bytes], rfl⟩
  | succ count ih =>
    unfold readRun at h
    cases hr : d.read sector sectorSize with
    | error e => simp [hr] at h
    | ok r =>
      obtain ⟨s, d₁⟩ := r
      obtain ⟨hs, -, hdisk⟩ := read_eq_ok hr
      simp only [hr, Prod.mk.injEq] at h
      obtain ⟨hbytes, hd, hnone⟩ := h
      have hrun : d₁.readRun (sector + 1) count = ((d₁.readRun (sector + 1) count).1, d', none) := by
        rw [← hd, ← hnone]
      obtain ⟨hrest, hlen⟩ := ih hrun
      obtain ⟨hlt, hs⟩ := List.getElem?_eq_some_iff.mp hs
      constructor
      · rw [← hbytes, hrest, hdisk, Disk.bytes, Disk.bytes, List.drop_eq_getElem_cons hlt,
          List.take_succ_cons, List.flatMap_cons, hs]
      · rw [← hbytes, List.length_append, hlen, Vector.length_toList, sectorSize]
        omega

end Device

namespace SwapSpace
variable {s s' : SwapSpace} {slot k : Nat} {page : PageBytes}

def Used (s : SwapSpace) (slot : Nat) : Prop := s.inUse[slot]? = some true

/-- The page that a slot holds. -/
def held (s : SwapSpace) (slot : Nat) : PageBytes :=
  overwrite zeroPage 0 (s.device.disk.bytes (slot * sectorsPerPage) sectorsPerPage)

/-- No slot lies beyond the capacity. -/
def Fits (s : SwapSpace) : Prop := s.inUse.length ≤ s.capacity

/-- Two swap spaces with the same slots in use, holding the same pages. -/
structure Agrees (s s' : SwapSpace) : Prop where
  capacity : s'.capacity = s.capacity
  fits : s.Fits → s'.Fits
  used : ∀ k, s'.Used k ↔ s.Used k
  held : ∀ k, s.Used k → s'.held k = s.held k

theorem Agrees.refl (s : SwapSpace) : s.Agrees s := ⟨rfl, id, fun _ => Iff.rfl, fun _ _ => rfl⟩

theorem Agrees.trans {t : SwapSpace} (h : s.Agrees s') (h' : s'.Agrees t) : s.Agrees t where
  capacity := h'.capacity.trans h.capacity
  fits := h'.fits ∘ h.fits
  used k := (h'.used k).trans (h.used k)
  held k hk := (h'.held k ((h.used k).mpr hk)).trans (h.held k hk)

theorem Used.lt_capacity (h : s.Used k) (hs : s.Fits) : k < s.capacity :=
  Nat.lt_of_lt_of_le (List.getElem?_eq_some_iff.mp h).1 hs

/-- A slot of the device has a sector number that fits 32 bits, so that nothing is cut off. -/
theorem firstSector_eq (h : slot < s.capacity) : firstSector slot = slot * sectorsPerPage := by
  have := s.device.size.toNat_lt
  simp only [capacity, firstSector, sectorsPerPage, halfWordLimit] at h ⊢
  omega

theorem held_congr (h : ∀ i, slot * sectorsPerPage ≤ i → i < slot * sectorsPerPage + sectorsPerPage →
    s'.device.disk.sectors[i]? = s.device.disk.sectors[i]?) : s'.held slot = s.held slot := by
  unfold held Disk.bytes
  congr 2
  refine List.ext_getElem? fun i => ?_
  rw [List.getElem?_take, List.getElem?_take]
  split
  · rw [List.getElem?_drop, List.getElem?_drop]
    exact h _ (by omega) (by omega)
  · rfl

theorem used_free : (s.free slot).Used k ↔ k ≠ slot ∧ s.Used k := by
  simp only [Used, free, List.getElem?_set]
  by_cases h : slot = k
  · subst h
    simp
  · simp [h, Ne.symm h]

theorem Fits.free (h : s.Fits) : (s.free slot).Fits := by
  simp only [Fits, SwapSpace.free, List.length_set]
  exact h

/-- The slot that is taken was free, and is the only one that changes. -/
theorem reserve?_eq_some (h : s.reserve? = some (slot, s')) :
    ¬s.Used slot ∧ s'.device = s.device ∧ (s.Fits → s'.Fits ∧ slot < s.capacity) ∧
      ∀ k, s'.Used k ↔ k = slot ∨ s.Used k := by
  unfold reserve? at h
  cases hf : s.inUse.findIdx? (! ·) with
  | some i =>
    simp only [hf, Option.some.injEq, Prod.mk.injEq] at h
    obtain ⟨rfl, rfl⟩ := h
    obtain ⟨hlt, hfree, -⟩ := List.findIdx?_eq_some_iff_getElem.mp hf
    have hfree : s.inUse[i] = false := by simpa using hfree
    refine ⟨by simp [Used, List.getElem?_eq_getElem hlt, hfree], rfl, ?_, ?_⟩
    · intro hs
      refine ⟨?_, Nat.lt_of_lt_of_le hlt hs⟩
      simp only [Fits, List.length_set]
      exact hs
    · intro k
      simp only [Used, List.getElem?_set]
      by_cases hk : i = k
      · simp [hk, hk ▸ hlt]
      · simp [hk, Ne.symm hk]
  | none =>
    simp only [hf] at h
    by_cases hlt : s.inUse.length < s.capacity
    · simp only [hlt, if_true, Option.some.injEq, Prod.mk.injEq] at h
      obtain ⟨rfl, rfl⟩ := h
      refine ⟨by simp [Used], rfl, ?_, ?_⟩
      · intro _
        refine ⟨?_, hlt⟩
        simp only [Fits, List.length_append, List.length_singleton]
        exact hlt
      · intro k
        simp only [Used, List.getElem?_append, List.getElem?_singleton]
        split
        · rename_i hk
          simp [Nat.ne_of_lt hk]
        · rename_i hk
          rw [List.getElem?_eq_none (Nat.le_of_not_lt hk)]
          split <;> simp <;> omega
    · simp [hlt] at h

theorem flatten_slices (l : List UInt8) (size count : Nat) :
    ((List.range count).map fun i => slice l (size * i) size).flatten = l.take (size * count) := by
  induction count with
  | zero => simp
  | succ count ih =>
    rw [List.range_succ, List.map_append, List.flatten_append, ih, Nat.mul_succ, List.take_add]
    simp [slice]

/-- The pieces of a page, put together again. -/
theorem flatten_sectorsOf (page : PageBytes) : (sectorsOf page).flatten = page.toList := by
  rw [sectorsOf, flatten_slices]
  exact List.take_of_length_le (by simp [sectorSize, sectorsPerPage])

theorem overwrite_toList (page page' : PageBytes) : overwrite page' 0 page.toList = page := by
  apply Vector.toList_inj.mp
  have hlen : page.toList.length = 4096 := Vector.length_toList
  have hlen' : page'.toList.length = 4096 := Vector.length_toList
  rw [toList_overwrite, splice, dropLike_eq_drop, List.take_zero, List.drop_zero, List.nil_append,
    List.take_of_length_le (by omega), List.drop_eq_nil_of_le (by omega), List.append_nil]

/-- Writing a page to a slot that is in use by nobody else leaves the other slots alone. -/
theorem held_writeRun {d : Device} {e : Option DeviceError} (hs : slot < s.capacity)
    (hw : s.device.writeRun (firstSector slot) (sectorsOf page) = (d, e)) {t : SwapSpace}
    (hd : t.device = d) : t.capacity = s.capacity ∧
      (∀ k, k ≠ slot → t.held k = s.held k) ∧ (e = none → t.held slot = page) := by
  rw [firstSector_eq hs] at hw
  have hlen : (sectorsOf page).length = sectorsPerPage := by simp [sectorsOf]
  obtain ⟨hsize, -, hframe⟩ := s.device.writeRun_frame (slot * sectorsPerPage) (sectorsOf page)
  simp only [hw] at hsize hframe
  subst hd
  refine ⟨by rw [capacity, hsize, capacity], ?_, ?_⟩
  · intro k hk
    refine held_congr fun i hlo hhi => hframe i ?_
    rw [hlen]
    simp only [sectorsPerPage] at hlo hhi ⊢
    omega
  · rintro rfl
    have hst := Device.writeRun_stored hw
    rw [hlen] at hst
    rw [held, Disk.bytes, List.flatMap_def, hst, flatten_sectorsOf, overwrite_toList]

/-- Storing a page takes a slot that nobody used and touches no other. -/
theorem store_eq_ok (h : s.store page = (.ok slot, s')) (hs : s.Fits) :
    ¬s.Used slot ∧ slot < s.capacity ∧ s'.capacity = s.capacity ∧ s'.Fits ∧
      (∀ k, s'.Used k ↔ k = slot ∨ s.Used k) ∧ (∀ k, k ≠ slot → s'.held k = s.held k) ∧
      s'.held slot = page := by
  unfold store at h
  cases hr : s.reserve? with
  | none => simp [hr] at h
  | some r =>
    obtain ⟨i, reserved⟩ := r
    obtain ⟨hfree, hdev, hfits, hused⟩ := reserve?_eq_some hr
    obtain ⟨hfits, hlt⟩ := hfits hs
    simp only [hr] at h
    cases hw : reserved.device.writeRun (firstSector i) (sectorsOf page) with
    | mk d e =>
      rw [hw] at h
      cases e with
      | some e => simp at h
      | none =>
        simp only [Prod.mk.injEq, Except.ok.injEq] at h
        obtain ⟨rfl, rfl⟩ := h
        rw [hdev] at hw
        obtain ⟨hcap, hother, hself⟩ :=
          held_writeRun hlt hw (t := { reserved with device := d }) rfl
        refine ⟨hfree, hlt, hcap, ?_, hused, hother, hself rfl⟩
        have hcap' : reserved.capacity = s.capacity := by rw [capacity, hdev, capacity]
        rw [Fits, hcap, ← hcap']
        exact hfits

theorem store_eq_error {e : MemoryError} (h : s.store page = (.error e, s')) (hs : s.Fits) :
    s.Agrees s' := by
  unfold store at h
  cases hr : s.reserve? with
  | none =>
    simp only [hr, Prod.mk.injEq] at h
    obtain ⟨-, rfl⟩ := h
    exact .refl _
  | some r =>
    obtain ⟨i, reserved⟩ := r
    obtain ⟨hfree, hdev, hfits, hused⟩ := reserve?_eq_some hr
    obtain ⟨hfits, hlt⟩ := hfits hs
    simp only [hr] at h
    cases hw : reserved.device.writeRun (firstSector i) (sectorsOf page) with
    | mk d e' =>
      rw [hw] at h
      cases e' with
      | none => simp at h
      | some e' =>
        simp only [Prod.mk.injEq] at h
        obtain ⟨-, rfl⟩ := h
        rw [hdev] at hw
        obtain ⟨hcap, hother, -⟩ :=
          held_writeRun hlt hw (t := { reserved with device := d }) rfl
        have hcap' : reserved.capacity = s.capacity := by rw [capacity, hdev, capacity]
        have hfits' : ({ reserved with device := d } : SwapSpace).Fits := by
          rw [Fits, hcap, ← hcap']
          exact hfits
        refine ⟨hcap, fun _ => hfits'.free, ?_, ?_⟩
        · intro k
          rw [used_free]
          constructor
          · rintro ⟨hk, hu⟩
            exact ((hused k).mp hu).resolve_left hk
          · intro hu
            exact ⟨fun hk => hfree (hk ▸ hu), (hused k).mpr (.inr hu)⟩
        · intro k hu
          exact hother k fun hk => hfree (hk ▸ hu)

theorem readSlot_eq_ok {bytes : List UInt8} {failure : Option MemoryError}
    (h : s.readSlot slot = .ok (bytes, failure, s')) (hs : slot < s.capacity) :
    s'.inUse = s.inUse ∧ s'.device.size = s.device.size ∧ s'.device.disk = s.device.disk ∧
      (failure = none → bytes.length = 4096 ∧ overwrite zeroPage 0 bytes = s.held slot) := by
  unfold readSlot at h
  split at h
  · rw [firstSector_eq hs] at h
    obtain ⟨hsize, hdisk⟩ := s.device.readRun_frame (slot * sectorsPerPage) sectorsPerPage
    cases hr : s.device.readRun (slot * sectorsPerPage) sectorsPerPage with
    | mk b r =>
      obtain ⟨d, e⟩ := r
      simp only [hr, Except.ok.injEq, Prod.mk.injEq] at h hsize hdisk
      obtain ⟨rfl, rfl, rfl⟩ := h
      refine ⟨rfl, hsize, hdisk, ?_⟩
      intro hn
      cases e with
      | some e => simp at hn
      | none =>
        obtain ⟨hb, hlen⟩ := Device.readRun_eq_none hr
        exact ⟨hlen, by rw [held, ← hb]⟩
  · cases h

theorem Agrees.of_read (hu : s'.inUse = s.inUse) (hsize : s'.device.size = s.device.size)
    (hdisk : s'.device.disk = s.device.disk) : s.Agrees s' := by
  have hcap : s'.capacity = s.capacity := by rw [SwapSpace.capacity, hsize, SwapSpace.capacity]
  refine ⟨hcap, ?_, ?_, ?_⟩
  · intro h
    rw [Fits, hu, hcap]
    exact h
  · intro k
    rw [Used, Used, hu]
  · intro k _
    rw [SwapSpace.held, hdisk, SwapSpace.held]

/-- A fetch that succeeds answers the page of the slot and gives the slot back. -/
theorem fetch_eq_ok {bytes : List UInt8} (h : s.fetch slot = .ok (bytes, none, s'))
    (hs : slot < s.capacity) :
    bytes.length = 4096 ∧ overwrite zeroPage 0 bytes = s.held slot ∧ s'.capacity = s.capacity ∧
      (s.Fits → s'.Fits) ∧ (∀ k, s'.Used k ↔ k ≠ slot ∧ s.Used k) ∧ ∀ k, s'.held k = s.held k := by
  unfold fetch at h
  cases hr : s.readSlot slot with
  | error a => simp [hr] at h
  | ok r =>
    obtain ⟨b, f, s₁⟩ := r
    obtain ⟨hu, hsize, hdisk, hb⟩ := readSlot_eq_ok hr hs
    cases f with
    | some e => simp [hr] at h
    | none =>
      simp only [hr, Except.ok.injEq, Prod.mk.injEq, true_and] at h
      obtain ⟨rfl, rfl⟩ := h
      obtain ⟨hlen, hb⟩ := hb rfl
      have ha := Agrees.of_read hu hsize hdisk
      refine ⟨hlen, hb, ha.capacity, fun hf => (ha.fits hf).free, ?_, ?_⟩
      · intro k
        rw [used_free, ha.used]
      · intro k
        rw [held, held, ← hdisk]
        rfl

theorem fetch_eq_failure {bytes : List UInt8} {e : MemoryError}
    (h : s.fetch slot = .ok (bytes, some e, s')) (hs : slot < s.capacity) : s.Agrees s' := by
  unfold fetch at h
  cases hr : s.readSlot slot with
  | error a => simp [hr] at h
  | ok r =>
    obtain ⟨b, f, s₁⟩ := r
    obtain ⟨hu, hsize, hdisk, -⟩ := readSlot_eq_ok hr hs
    cases f with
    | none => simp [hr] at h
    | some e' =>
      simp only [hr, Except.ok.injEq, Prod.mk.injEq] at h
      obtain ⟨-, -, rfl⟩ := h
      exact .of_read hu hsize hdisk

/-- No slot of the device is out of reach of its sector numbers. -/
theorem fetch_ne_abort (hs : slot < s.capacity) (a : Abort) : s.fetch slot ≠ .error a := by
  have := s.device.size.toNat_lt
  have hlt : slot * sectorsPerPage < wordLimit := by
    simp only [capacity, sectorsPerPage, wordLimit] at hs ⊢
    omega
  simp only [fetch, readSlot, hlt, if_true]
  split <;> simp_all

/-- A copy of a slot takes a slot that nobody used, and holds the same page. -/
theorem duplicate_eq_ok {copy : Nat} (h : s.duplicate slot = .ok (.ok copy, s')) (hlt : slot < s.capacity)
    (hs : s.Fits) : ¬s.Used copy ∧ s'.Fits ∧ (∀ k, s'.Used k ↔ k = copy ∨ s.Used k) ∧
      (∀ k, k ≠ copy → s.Used k → s'.held k = s.held k) ∧ s'.held copy = s.held slot := by
  unfold duplicate at h
  cases hr : s.readSlot slot with
  | error a => simp [hr] at h
  | ok r =>
    obtain ⟨b, f, s₁⟩ := r
    obtain ⟨hu, hsize, hdisk, hb⟩ := readSlot_eq_ok hr hlt
    have ha := Agrees.of_read hu hsize hdisk
    cases f with
    | some e => simp [hr] at h
    | none =>
      simp only [hr, Except.ok.injEq] at h
      obtain ⟨hfree, -, -, hfits, hused, hother, hself⟩ := store_eq_ok h (ha.fits hs)
      refine ⟨mt (ha.used _).mpr hfree, hfits, fun k => (hused k).trans (or_congr_right (ha.used k)), ?_,
        hself.trans (hb rfl).2⟩
      intro k hk hu
      exact (hother k hk).trans (ha.held k hu)

theorem duplicate_eq_error {e : MemoryError} (h : s.duplicate slot = .ok (.error e, s'))
    (hlt : slot < s.capacity) (hs : s.Fits) : s.Agrees s' := by
  unfold duplicate at h
  cases hr : s.readSlot slot with
  | error a => simp [hr] at h
  | ok r =>
    obtain ⟨b, f, s₁⟩ := r
    obtain ⟨hu, hsize, hdisk, hb⟩ := readSlot_eq_ok hr hlt
    have ha := Agrees.of_read hu hsize hdisk
    cases f with
    | some e =>
      simp only [hr, Except.ok.injEq, Prod.mk.injEq] at h
      obtain ⟨-, rfl⟩ := h
      exact ha
    | none =>
      simp only [hr, Except.ok.injEq] at h
      exact ha.trans (store_eq_error h (ha.fits hs))

theorem duplicate_ne_abort (hs : slot < s.capacity) (a : Abort) : s.duplicate slot ≠ .error a := by
  have := s.device.size.toNat_lt
  have hlt : slot * sectorsPerPage < wordLimit := by
    simp only [capacity, sectorsPerPage, wordLimit] at hs ⊢
    omega
  simp only [duplicate, readSlot, hlt, if_true]
  split <;> simp_all

/-- A device that fails does not make a page invalid. -/
theorem readSlot_error_ne {bytes : List UInt8} {e : MemoryError}
    (h : s.readSlot slot = .ok (bytes, some e, s')) : e ≠ .invalidMapping := by
  unfold readSlot at h
  split at h
  · simp only [Except.ok.injEq, Prod.mk.injEq, Option.map_eq_some_iff] at h
    obtain ⟨-, ⟨d, -, rfl⟩, -⟩ := h
    simp [DeviceError.toMemoryError]
  · cases h

theorem fetch_error_ne {bytes : List UInt8} {e : MemoryError}
    (h : s.fetch slot = .ok (bytes, some e, s')) : e ≠ .invalidMapping := by
  unfold fetch at h
  cases hr : s.readSlot slot with
  | error a => simp [hr] at h
  | ok r =>
    obtain ⟨b, f, s₁⟩ := r
    cases f with
    | none => simp [hr] at h
    | some e' =>
      simp only [hr, Except.ok.injEq, Prod.mk.injEq, Option.some.injEq] at h
      obtain ⟨-, rfl, -⟩ := h
      exact readSlot_error_ne hr

theorem store_error_ne {e : MemoryError} (h : s.store page = (.error e, s')) :
    e ≠ .invalidMapping := by
  unfold store at h
  split at h
  · cases h
    simp
  · split at h
    · rename_i d _
      simp only [Prod.mk.injEq, Except.error.injEq] at h
      obtain ⟨rfl, -⟩ := h
      simp [DeviceError.toMemoryError]
    · simp at h

end SwapSpace

end DemandPaging
