import Mathlib.Logic.Function.Basic
import DemandPaging.Proofs.SwapStore

/-! # Requests to a swap space

The callers of a swap space know what they asked for and what they were answered. From that alone
they can tell which page each slot has to hold: the shelf. After any requests the slots in use are
those on the shelf, each with its page, whatever was refused on the way.
-/
namespace DemandPaging

namespace Device

/-- A run of sectors that was written is one of the disk. -/
theorem writeRun_within {d d' : Device} {sector : Nat} {buffers : List (List UInt8)}
    (h : d.writeRun sector buffers = (d', none)) (hpos : 0 < buffers.length) :
    sector + buffers.length ≤ d'.disk.sectors.length := by
  have hlen := congrArg List.length (writeRun_stored h)
  rw [List.length_map, List.length_take, List.length_drop] at hlen
  omega

/-- Sectors that both the device and its disk have can be read. -/
theorem readRun_within {d : Device} {sector count : Nat} (hsize : sector + count ≤ d.size.toNat)
    (hlen : sector + count ≤ d.disk.sectors.length) : (d.readRun sector count).2.2 = none := by
  induction count generalizing d sector with
  | zero => rfl
  | succ count ih =>
    have hget := List.getElem?_eq_getElem (show sector < d.disk.sectors.length by omega)
    rw [readRun, read, if_neg (by omega), if_neg (by simp), Disk.read, hget]
    exact ih (by dsimp only; omega) (by dsimp only; omega)

end Device

namespace SwapSpace
variable {s s' : SwapSpace} {slot : Nat} {page : PageBytes}

/-- The sectors of a slot lie within the device, and their numbers fit 32 bits. -/
theorem sectors_within (h : slot < s.capacity) : firstSector slot = slot * sectorsPerPage ∧
    slot * sectorsPerPage + sectorsPerPage ≤ s.device.size.toNat ∧
    slot * sectorsPerPage + sectorsPerPage < halfWordLimit := by
  have hsize := s.device.size.toNat_lt
  refine ⟨firstSector_eq h, ?_⟩
  simp only [capacity, sectorsPerPage, halfWordLimit] at h ⊢
  omega

theorem slotsInUse_le (h : s.Fits) : s.slotsInUse ≤ s.capacity :=
  Nat.le_trans List.count_le_length h

/-- There is no slot left to take exactly when as many are in use as the device has room for. -/
theorem reserve?_eq_none (h : s.Fits) : s.reserve? = none ↔ s.slotsInUse = s.capacity := by
  have hle : s.slotsInUse ≤ s.inUse.length := List.count_le_length
  unfold Fits at h
  unfold reserve?
  cases hf : s.inUse.findIdx? (! ·) with
  | some i =>
    obtain ⟨hlt, hfree, -⟩ := List.findIdx?_eq_some_iff_getElem.mp hf
    have hne : s.slotsInUse ≠ s.inUse.length := by
      intro hall
      have := List.count_eq_length.mp hall _ (List.getElem_mem hlt)
      simp [← this] at hfree
    simp only [reduceCtorEq, false_iff]
    omega
  | none =>
    have hall : s.slotsInUse = s.inUse.length := by
      refine List.count_eq_length.mpr fun b hb => ?_
      simpa using (List.findIdx?_eq_none_iff.mp hf b hb).symm
    by_cases hlt : s.inUse.length < s.capacity
    · simp only [hlt, if_true, reduceCtorEq, false_iff]
      omega
    · simp only [hlt, if_false, true_iff]
      omega

/-- A page is refused for want of a slot or by the disk, and otherwise written to the slot taken. -/
theorem store_cases (s : SwapSpace) (page : PageBytes) :
    (s.reserve? = none ∧ s.store page = (.error .allocationExhausted, s)) ∨
      ∃ slot reserved, s.reserve? = some (slot, reserved) ∧ ∃ d,
        ((∃ e, reserved.device.writeRun (firstSector slot) (sectorsOf page) = (d, some e)) ∧
            s.store page = (.error .ioFailure, { reserved with device := d }.free slot) ∨
          reserved.device.writeRun (firstSector slot) (sectorsOf page) = (d, none) ∧
            s.store page = (.ok slot, { reserved with device := d })) := by
  unfold store
  cases s.reserve? with
  | none => exact .inl ⟨rfl, rfl⟩
  | some r =>
    obtain ⟨slot, reserved⟩ := r
    refine .inr ⟨slot, reserved, rfl, ?_⟩
    dsimp only
    rcases reserved.device.writeRun (firstSector slot) (sectorsOf page) with ⟨d, _ | e⟩
    · exact ⟨d, .inr ⟨rfl, rfl⟩⟩
    · exact ⟨d, .inl ⟨⟨e, rfl⟩, rfl⟩⟩

/-- A page is refused for want of a slot exactly when there is none, and otherwise by the disk. -/
theorem store_refused {e : MemoryError} (h : s.store page = (.error e, s')) (hs : s.Fits) :
    (e = .allocationExhausted ↔ s.slotsInUse = s.capacity) ∧
      (e = .allocationExhausted ∨ e = .ioFailure) := by
  rw [← reserve?_eq_none hs]
  obtain ⟨hr, hx⟩ | ⟨slot, reserved, hr, d, ⟨-, hx⟩ | ⟨-, hx⟩⟩ := s.store_cases page
  all_goals
    rw [hx] at h
    cases h
  · simp [hr]
  · simp [hr]

theorem store_room (h : s.store page = (.ok slot, s')) (hs : s.Fits) :
    s.slotsInUse < s.capacity := by
  refine Nat.lt_of_le_of_ne (slotsInUse_le hs) fun hfull => ?_
  rw [store, (reserve?_eq_none hs).mpr hfull] at h
  cases h

/-- What every request keeps of a swap space. The sectors of a slot in use are on the disk. -/
structure Standing (s : SwapSpace) (device : Device) : Prop where
  fits : s.Fits
  size : s.device.size = device.size
  stocked : ∀ k, s.Used k → k * sectorsPerPage + sectorsPerPage ≤ s.device.disk.sectors.length

namespace Standing
variable {device : Device}

theorem start (device : Device) : Standing { device } device :=
  ⟨Nat.zero_le _, rfl, fun k hk => by simp [Used] at hk⟩

theorem capacity (h : s.Standing device) : s.capacity = device.size.toNat / sectorsPerPage := by
  rw [SwapSpace.capacity, h.size]

theorem free (h : s.Standing device) : (s.free slot).Standing device :=
  ⟨h.fits.free, h.size, fun k hk => h.stocked k (used_free.mp hk).2⟩

theorem store (h : s.Standing device) : (s.store page).2.Standing device := by
  obtain ⟨-, hx⟩ | ⟨slot, reserved, hr, d, hx⟩ := s.store_cases page
  · rwa [hx]
  · obtain ⟨hfree, hdev, hfits, hused⟩ := reserve?_eq_some hr
    obtain ⟨hfits, hlt⟩ := hfits h.fits
    obtain ⟨hsize, hlen, -⟩ := reserved.device.writeRun_frame (firstSector slot) (sectorsOf page)
    have hfits : ({ reserved with device := d } : SwapSpace).Fits := by
      have hd : d.size = reserved.device.size := by
        rcases hx with ⟨⟨e, hw⟩, -⟩ | ⟨hw, -⟩ <;> simpa [hw] using hsize
      simpa only [Fits, SwapSpace.capacity, hd] using hfits
    obtain ⟨⟨e, hw⟩, hx⟩ | ⟨hw, hx⟩ := hx <;> rw [hw, hdev] at hsize hlen <;> rw [hx]
    · refine ⟨hfits.free, hsize.trans h.size, fun k hk => ?_⟩
      obtain ⟨hk, hu⟩ := used_free.mp hk
      exact Nat.le_trans (h.stocked k (((hused k).mp hu).resolve_left hk)) (Nat.le_of_eq hlen.symm)
    · refine ⟨hfits, hsize.trans h.size, fun k hk => ?_⟩
      obtain rfl | hu := (hused k).mp hk
      · have hin := Device.writeRun_within hw (by simp [sectorsOf])
        rw [firstSector_eq hlt] at hin
        simpa [sectorsOf] using hin
      · exact Nat.le_trans (h.stocked k hu) (Nat.le_of_eq hlen.symm)

theorem read {bytes : List UInt8} {failure : Option MemoryError} (h : s.Standing device)
    (hr : s.readSlot slot = .ok (bytes, failure, s')) (hs : slot < s.capacity) :
    s'.Standing device := by
  obtain ⟨hu, hsize, hdisk, -⟩ := readSlot_eq_ok hr hs
  refine ⟨(Agrees.of_read hu hsize hdisk).fits h.fits, hsize.trans h.size, fun k hk => ?_⟩
  rw [Used, hu] at hk
  rw [hdisk]
  exact h.stocked k hk

/-- A slot in use can be read: all of its sectors have been written. -/
theorem readSlot_ok (h : s.Standing device) (hu : s.Used slot) :
    ∃ bytes s', s.readSlot slot = .ok (bytes, none, s') := by
  obtain ⟨hfirst, hsize, hword⟩ := sectors_within (hu.lt_capacity h.fits)
  have hlt : slot * sectorsPerPage < wordLimit := by
    simp only [halfWordLimit, wordLimit] at hword ⊢
    omega
  have hrun := Device.readRun_within hsize (h.stocked slot hu)
  refine ⟨(s.device.readRun (slot * sectorsPerPage) sectorsPerPage).1,
    { s with device := (s.device.readRun (slot * sectorsPerPage) sectorsPerPage).2.1 }, ?_⟩
  simp [readSlot, hlt, hfirst, hrun]

end Standing

/-- What is asked of a swap space. -/
inductive Request where
  | store (page : PageBytes)
  | fetch (slot : Nat)
  | duplicate (slot : Nat)
  | free (slot : Nat)

inductive Answer where
  /-- The slot in which a page has been put. -/
  | slot (slot : Nat)
  | page (bytes : List UInt8)
  | done
  | refused (e : MemoryError)

def answerSlot : Except MemoryError Nat → Answer
  | .ok slot => .slot slot
  | .error e => .refused e

def serve (s : SwapSpace) : Request → Except Abort (Answer × SwapSpace)
  | .store page => .ok (answerSlot (s.store page).1, (s.store page).2)
  | .fetch slot => do
    let (bytes, failure, s) ← s.fetch slot
    return ((failure.map .refused).getD (.page bytes), s)
  | .duplicate slot => do
    let (copy, s) ← s.duplicate slot
    return (answerSlot copy, s)
  | .free slot => .ok (.done, s.free slot)

theorem serve_store {r : Except MemoryError Nat} (h : (s.store page).1 = r) :
    s.serve (.store page) = .ok (answerSlot r, (s.store page).2) := by
  rw [serve, h]

/-- Only slots in use are fetched and copied. -/
def Request.Allowed (s : SwapSpace) : Request → Prop
  | .fetch slot | .duplicate slot => s.Used slot
  | .store _ | .free _ => True

/-- A slot that was free has been given a page, and the other slots are as before. -/
structure Takes (s s' : SwapSpace) (slot : Nat) (page : PageBytes) : Prop where
  room : s.slotsInUse < s.capacity
  free : ¬s.Used slot
  lt : slot < s.capacity
  used : ∀ k, s'.Used k ↔ k = slot ∨ s.Used k
  held : s'.held slot = page
  others : ∀ k, s.Used k → s'.held k = s.held k

/-- A slot is free now, and the other slots are as before. -/
structure Releases (s s' : SwapSpace) (slot : Nat) : Prop where
  used : ∀ k, s'.Used k ↔ k ≠ slot ∧ s.Used k
  others : ∀ k, s.Used k → s'.held k = s.held k

/-- What has become of a swap space, by the request and the answer to it. -/
def Served (s : SwapSpace) : Request → Answer → SwapSpace → Prop
  | .store page, .slot k, s' => s.Takes s' k page
  | .duplicate slot, .slot k, s' => s.Takes s' k (s.held slot)
  | .fetch slot, .page bytes, s' => bytes = (s.held slot).toList ∧ s.Releases s' slot
  | .free slot, .done, s' => s.Releases s' slot
  | .store _, .refused e, s' | .duplicate _, .refused e, s' =>
    (e = .allocationExhausted ↔ s.slotsInUse = s.capacity) ∧
      (e = .allocationExhausted ∨ e = .ioFailure) ∧ s.Agrees s'
  | _, _, _ => False

variable {device : Device}

theorem store_served (h : s.Standing device) :
    s.Served (.store page) (answerSlot (s.store page).1) (s.store page).2 := by
  cases hx : s.store page with
  | mk r s' => cases r with
    | ok slot =>
      obtain ⟨hfree, hlt, -, -, hused, hothers, hheld⟩ := store_eq_ok hx h.fits
      exact ⟨store_room hx h.fits, hfree, hlt, hused, hheld,
        fun k hk => hothers k fun e => hfree (e ▸ hk)⟩
    | error e =>
      obtain ⟨hfull, he⟩ := store_refused hx h.fits
      exact ⟨hfull, he, store_eq_error hx h.fits⟩

theorem duplicate_served (h : s.Standing device) (hu : s.Used slot) :
    ∃ copy s', s.duplicate slot = .ok (copy, s') ∧ s'.Standing device ∧
      s.Served (.duplicate slot) (answerSlot copy) s' := by
  have hlt := hu.lt_capacity h.fits
  obtain ⟨bytes, s₁, hread⟩ := h.readSlot_ok hu
  obtain ⟨hinUse, hsize, hdisk, hbytes⟩ := readSlot_eq_ok hread hlt
  have hagrees := Agrees.of_read hinUse hsize hdisk
  have hstand := h.read hread hlt
  refine ⟨_, _, by rw [duplicate, hread], hstand.store, ?_⟩
  rw [(hbytes rfl).2]
  have hserved : s₁.Served (.store (s.held slot)) _ _ := store_served hstand
  have hcount : s₁.slotsInUse = s.slotsInUse := congrArg (List.count true) hinUse
  generalize answerSlot (s₁.store (s.held slot)).1 = answer at hserved ⊢
  -- The read has left everything as it was that the store is judged by.
  cases answer with
  | slot copy =>
    exact ⟨hcount ▸ hagrees.capacity ▸ hserved.room, mt (hagrees.used copy).mpr hserved.free,
      hagrees.capacity ▸ hserved.lt,
      fun k => (hserved.used k).trans (or_congr_right (hagrees.used k)), hserved.held,
      fun k hk => (hserved.others k ((hagrees.used k).mpr hk)).trans (hagrees.held k hk)⟩
  | refused e =>
    obtain ⟨hfull, he, hs⟩ := hserved
    rw [hagrees.capacity, hcount] at hfull
    exact ⟨hfull, he, hagrees.trans hs⟩
  | page bytes => exact hserved
  | done => exact hserved

theorem fetch_served (h : s.Standing device) (hu : s.Used slot) :
    ∃ bytes s', s.fetch slot = .ok (bytes, none, s') ∧ s'.Standing device ∧
      s.Served (.fetch slot) (.page bytes) s' := by
  have hlt := hu.lt_capacity h.fits
  obtain ⟨bytes, s₁, hread⟩ := h.readSlot_ok hu
  have hx : s.fetch slot = .ok (bytes, none, s₁.free slot) := by rw [fetch, hread]
  obtain ⟨hlen, hbytes, -, -, hused, hheld⟩ := fetch_eq_ok hx hlt
  have hpage : s.held slot = (⟨⟨bytes⟩, hlen⟩ : PageBytes) :=
    hbytes.symm.trans (overwrite_toList (⟨⟨bytes⟩, hlen⟩ : PageBytes) zeroPage)
  exact ⟨bytes, _, hx, (h.read hread hlt).free, by rw [hpage]; rfl, hused, fun k _ => hheld k⟩

/-- Every request that may be made is answered. -/
theorem serve_served (h : s.Standing device) {request : Request} (hr : request.Allowed s) :
    ∃ answer s', s.serve request = .ok (answer, s') ∧ s'.Standing device ∧
      s.Served request answer s' := by
  cases request with
  | store page => exact ⟨_, _, rfl, h.store, store_served h⟩
  | fetch slot =>
    obtain ⟨bytes, s', hx, hs⟩ := fetch_served h hr
    exact ⟨_, _, by rw [serve, hx]; rfl, hs⟩
  | duplicate slot =>
    obtain ⟨copy, s', hx, hs⟩ := duplicate_served h hr
    exact ⟨_, _, by rw [serve, hx]; rfl, hs⟩
  | free slot => exact ⟨_, _, rfl, h.free, fun k => used_free, fun k _ => rfl⟩

/-- Requests made one after the other, with the answers to them, of a swap space that has the device
to itself. -/
inductive History (device : Device) : List (Request × Answer) → SwapSpace → Prop
  | start : History device [] { device }
  | serve {log : List (Request × Answer)} {s s' : SwapSpace} {request : Request} {answer : Answer} :
    History device log s → request.Allowed s → s.serve request = .ok (answer, s') →
      History device (log ++ [(request, answer)]) s'

/-- The page that is in each slot, as far as the callers can tell. -/
abbrev Shelf : Type := Nat → Option PageBytes

def Shelf.after (σ : Shelf) : Request × Answer → Shelf
  | (.store page, .slot k) => Function.update σ k (some page)
  | (.duplicate slot, .slot k) => Function.update σ k (σ slot)
  | (.fetch slot, .page _) | (.free slot, .done) => Function.update σ slot none
  | _ => σ

def shelf (log : List (Request × Answer)) : Shelf := log.foldl Shelf.after fun _ => none

/-- The slots in use are those on the shelf, and each holds its page. -/
def Keeps (s : SwapSpace) (σ : Shelf) : Prop :=
  ∀ k page, σ k = some page ↔ s.Used k ∧ s.held k = page

namespace Keeps
variable {σ : Shelf}

theorem agrees (h : s.Keeps σ) (ha : s.Agrees s') : s'.Keeps σ := by
  intro k page
  rw [h k page, ha.used k]
  exact and_congr_right fun hu => by rw [ha.held k hu]

theorem takes (h : s.Keeps σ) (ht : s.Takes s' slot page) :
    s'.Keeps (Function.update σ slot (some page)) := by
  intro k page'
  rw [Function.update_apply, ht.used k]
  split
  · rename_i hk
    rw [hk, ht.held]
    simp
  · rename_i hk
    rw [h k page', or_iff_right hk]
    exact and_congr_right fun hu => by rw [ht.others k hu]

theorem releases (h : s.Keeps σ) (hr : s.Releases s' slot) :
    s'.Keeps (Function.update σ slot none) := by
  intro k page
  rw [Function.update_apply, hr.used k]
  split
  · rename_i hk
    simp [hk]
  · rename_i hk
    rw [h k page, and_iff_right hk]
    exact and_congr_right fun hu => by rw [hr.others k hu]

theorem served (h : s.Keeps σ) {request : Request} {answer : Answer} (hr : request.Allowed s)
    (hs : s.Served request answer s') : s'.Keeps (σ.after (request, answer)) := by
  cases request <;> cases answer <;> try exact absurd hs id
  case store.slot => exact h.takes hs
  case store.refused => exact h.agrees hs.2.2
  case fetch.page => exact h.releases hs.2
  case duplicate.slot slot k =>
    have hσ : σ slot = some (s.held slot) := (h slot _).mpr ⟨hr, rfl⟩
    rw [Shelf.after, hσ]
    exact h.takes hs
  case duplicate.refused => exact h.agrees hs.2.2
  case free.done => exact h.releases hs

end Keeps

/-- Along any history the device is used within its bounds and the shelf is right. -/
theorem History.keeps {log : List (Request × Answer)} (h : History device log s) :
    s.Standing device ∧ s.Keeps (shelf log) := by
  induction h with
  | start => exact ⟨.start device, fun k page => by simp [shelf, Used]⟩
  | serve _ hr hx ih =>
    obtain ⟨hstand, hkeeps⟩ := ih
    obtain ⟨answer, s', hx', hstand', hserved⟩ := serve_served hstand hr
    obtain ⟨rfl, rfl⟩ := Prod.mk.inj (Except.ok.inj (hx.symm.trans hx'))
    rw [shelf, List.foldl_append]
    exact ⟨hstand', hkeeps.served hr hserved⟩

/-- Whatever has been asked of a swap space: no more slots are in use than the device has room for,
namely those of the shelf, each with the page of the shelf; and the sectors of a slot are those of the
device, by numbers that nothing cuts off. Whatever may be asked next is answered. A page is refused
only if there is no slot left or the disk fails, and nothing is lost by that; otherwise it goes to a
slot that nobody used. A slot on the shelf answers its page byte for byte and is free then. -/
theorem pages_kept {log : List (Request × Answer)} (h : History device log s) :
    s.capacity = device.size.toNat / sectorsPerPage ∧ s.slotsInUse ≤ s.capacity ∧
    (∀ slot page, shelf log slot = some page ↔ s.Used slot ∧ s.held slot = page) ∧
    (∀ slot, slot < s.capacity → firstSector slot = slot * sectorsPerPage ∧
      slot * sectorsPerPage + sectorsPerPage ≤ device.size.toNat ∧
      slot * sectorsPerPage + sectorsPerPage < halfWordLimit) ∧
    (∀ request, request.Allowed s → ∃ answer s',
      s.serve request = .ok (answer, s') ∧ s.Served request answer s') ∧
    ∀ slot page, shelf log slot = some page →
      ∃ s', s.serve (.fetch slot) = .ok (.page page.toList, s') ∧ s.Releases s' slot := by
  obtain ⟨hstand, hkeeps⟩ := h.keeps
  refine ⟨hstand.capacity, slotsInUse_le hstand.fits, hkeeps, fun slot hlt => ?_,
    fun request hr => ?_, fun slot page hslot => ?_⟩
  · rw [← hstand.size]
    exact sectors_within hlt
  · obtain ⟨answer, s', hx, -, hserved⟩ := serve_served hstand hr
    exact ⟨answer, s', hx, hserved⟩
  · obtain ⟨hu, rfl⟩ := (hkeeps slot page).mp hslot
    obtain ⟨bytes, s', hx, -, rfl, hreleases⟩ := fetch_served hstand hu
    exact ⟨s', by rw [serve, hx]; rfl, hreleases⟩

/-- With room for a single page, the second page is refused and the first is still there. -/
theorem pages_kept_when_full :
    ∃ s, History { name := "swap", kind := .swap, size := 8, disk := .zeroed 8 }
      [(.store zeroPage, .slot 0),
        (.store (overwrite zeroPage 0 [7]), .refused .allocationExhausted)] s ∧
    ∃ s', s.serve (.fetch 0) = .ok (.page zeroPage.toList, s') ∧ s.Releases s' 0 := by
  let empty : SwapSpace := { device := { name := "swap", kind := .swap, size := 8, disk := .zeroed 8 } }
  let full := (empty.store zeroPage).2
  let page := overwrite zeroPage 0 [7]
  have hfirst : (empty.store zeroPage).1 = .ok 0 := by decide +kernel
  have hsecond : (full.store page).1 = .error .allocationExhausted := by decide +kernel
  have hfull : History empty.device [(.store zeroPage, .slot 0)] full :=
    .serve .start trivial (serve_store hfirst)
  have hrefused := hfull.serve (show Request.Allowed full (.store page) from trivial)
    (serve_store hsecond)
  exact ⟨_, hrefused, (pages_kept hrefused).2.2.2.2.2 0 zeroPage rfl⟩

end SwapSpace

end DemandPaging
