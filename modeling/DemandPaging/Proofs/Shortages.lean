import DemandPaging.Proofs.Acquisition

/-! # What runs short

Paging fails for want of something: a frame, a slot, a mapping that the space grants, or a transfer
that moves all its bytes. Whatever page it was done for, and whatever page had to make room, no other
error comes out of it.
-/
namespace DemandPaging

/-- Something was not to be had. -/
def MemoryError.Shortage (e : MemoryError) : Prop := e = allocationExhausted ∨ e = ioFailure

theorem DeviceError.shortage (e : DeviceError) : e.toMemoryError.Shortage := .inr rfl

namespace SwapSpace
variable {swap swap' : SwapSpace} {slot : Nat} {e : MemoryError}

theorem shortage_of_readSlot {bytes : List UInt8}
    (h : swap.readSlot slot = .ok (bytes, some e, swap')) : e.Shortage := by
  unfold readSlot at h
  split at h
  · simp only [Except.ok.injEq, Prod.mk.injEq, Option.map_eq_some_iff] at h
    obtain ⟨-, ⟨d, -, rfl⟩, -⟩ := h
    exact d.shortage
  · cases h

theorem shortage_of_fetch {bytes : List UInt8} (h : swap.fetch slot = .ok (bytes, some e, swap')) :
    e.Shortage := by
  unfold fetch at h
  split at h
  · cases h
  · rename_i hread
    obtain ⟨-, rfl, -⟩ := Prod.mk.inj (Except.ok.inj h)
    exact shortage_of_readSlot hread
  · cases h

theorem shortage_of_store {page : PageBytes} (h : swap.store page = (.error e, swap')) : e.Shortage := by
  unfold store at h
  split at h
  · cases h
    exact .inl rfl
  · split at h
    · cases h
      exact DeviceError.shortage _
    · cases h

end SwapSpace

variable {π α β : Type} {m : Machine π} {s n : Nat} {page : Page}

/-- Run from `m`, the attempt fails for want of something, if it fails. -/
abbrev Attempt.Wants (x : Attempt π α) (m : Machine π) : Prop :=
  Ends True x m (fun _ _ => True) fun e _ => e.Shortage

theorem loadSource_wants (source : Source) : Attempt.Wants (loadSource source n) m := by
  simp only [Attempt.Wants, loadSource, Attempt.ends_bind, Attempt.ends_get, Attempt.ends_set,
    Attempt.ends_modify, Attempt.ends_ite, Attempt.ends_throw]
  exact ⟨fun _ => .inr rfl, fun _ => trivial⟩

theorem fetchSlot_wants (slot : Nat) : Attempt.Wants (fetchSlot slot n) m := by
  simp only [Attempt.Wants, fetchSlot, Attempt.ends_bind, Attempt.ends_get]
  cases hfetch : m.swap.fetch slot with
  | error a => trivial
  | ok answer =>
    obtain ⟨bytes, failure, swap⟩ := answer
    cases failure with
    | none => trivial
    | some e => exact SwapSpace.shortage_of_fetch hfetch

theorem storePage_wants (contents : PageBytes) : Attempt.Wants (storePage contents) m := by
  simp only [Attempt.Wants, storePage, Attempt.ends_bind, Attempt.ends_get]
  cases hstore : m.swap.store contents with
  | mk answer swap =>
    refine ((storedIn_ends answer swap).weaken False.elim).imp (fun _ _ _ => trivial) ?_
    rintro e after ⟨rfl, -⟩
    exact SwapSpace.shortage_of_store hstore

theorem materialize_wants (backing : Backing) : Attempt.Wants (materialize backing n) m := by
  unfold materialize
  split <;> simp only [Attempt.Wants, Attempt.ends_bind, Attempt.ends_pure]
  · refine (loadSource_wants _).imp (fun _ _ _ => ?_) fun _ _ he => he
    split <;> trivial
  · exact (fetchSlot_wants _).imp (fun _ _ _ => trivial) fun _ _ he => he
  · exact (loadSource_wants _).imp (fun _ _ _ => trivial) fun _ _ he => he

theorem saveOut_wants (hva : page.va % pageSize = 0)
    (hfilled : ∀ target source, page.backing ≠ .uninit target source) :
    Attempt.Wants (saveOut page n s) m := by
  unfold saveOut
  split <;> simp only [Attempt.Wants, Attempt.ends_bind, Attempt.ends_get, Attempt.ends_pure]
  · exact (storePage_wants _).imp (fun _ _ _ => trivial) fun _ _ he => he
  · refine ((writeBack_ends _ hva).weaken False.elim).imp (fun _ _ _ => trivial) ?_
    rintro e after ⟨rfl, -⟩
    exact .inr rfl
  · rename_i target source hbacking
    exact absurd hbacking (hfilled target source)

variable [ReplacementPolicy π]

theorem evictFirst_wants (h : m.memory.Valid) (busy : Option Nat) (candidates : List Nat) :
    Attempt.Wants (evictFirst busy candidates) m := by
  refine evictFirst_of_victim candidates (.inl rfl) fun n o page hvictim => ?_
  obtain ⟨-, hp, hf, -⟩ := Machine.victim?_resident h hvictim
  simp only [evictPage, Attempt.ends_bind, Attempt.ends_modify]
  refine (saveOut_wants (h.sound.kept hp).2.1 ?_).imp (fun _ _ _ => trivial) fun _ _ he => he
  exact h.stowed.filled hp (Option.isSome_iff_exists.mpr ⟨n, hf⟩)

theorem acquire_wants (h : m.memory.Valid) (busy : Option Nat) : Attempt.Wants (acquire busy) m := by
  refine acquire_of_room (fun _ _ _ => trivial) fun _ => ?_
  exact (evictFirst_wants h busy _).imp (fun _ _ _ => trivial) fun _ _ he => he

theorem claimPage_wants (h : m.memory.Valid) : Attempt.Wants (claimPage s page) m := by
  simp only [Attempt.Wants, claimPage, Attempt.ends_bind, Attempt.ends_ite, Attempt.ends_pure]
  refine ⟨fun _ => trivial, fun _ => ?_⟩
  refine (acquire_wants h _).imp ?_ fun _ _ he => he
  rintro n m₁ -
  simp only [Attempt.ends_tryCatch, Attempt.ends_bind, Attempt.ends_modify, Attempt.ends_throw,
    Attempt.ends_modifyGet]
  refine (materialize_wants _).imp ?_ fun _ _ he => he
  exact fun _ _ _ => ⟨fun _ => trivial, fun _ => .inl rfl⟩

theorem copyOnWrite_wants (h : m.memory.Valid) (old : Nat) : Attempt.Wants (copyOnWrite s page old) m := by
  simp only [Attempt.Wants, copyOnWrite, Attempt.ends_bind]
  refine (acquire_wants h _).imp ?_ fun _ _ he => he
  rintro n m₁ -
  simp only [Attempt.ends_modify, Attempt.ends_modifyGet, Attempt.ends_ite]
  exact ⟨fun _ => trivial, fun _ => .inl rfl⟩

theorem unprotect_wants (h : m.memory.Valid) : Attempt.Wants (unprotect s page) m := by
  unfold unprotect
  split
  · exact claimPage_wants h
  · simp only [Attempt.Wants, Attempt.ends_bind, Attempt.ends_get, Attempt.ends_ite,
      Attempt.ends_modifyGet, Attempt.ends_modify, Attempt.ends_throw]
    exact ⟨fun _ => ⟨fun _ => trivial, fun _ => .inl rfl⟩, fun _ => copyOnWrite_wants h _⟩

end DemandPaging
