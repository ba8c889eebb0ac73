import DemandPaging.Proofs.Operations

/-! # Mappings and residency

A page directory and the table beside it are changed at different moments, also on behalf of other
spaces, and a space may refuse a mapping. Between operations they agree: a space maps an address to a
frame exactly while the page there is in that frame.
-/
namespace DemandPaging

namespace Memory
variable {π : Type} {v : Memory π} {s va n : Nat}

/-- A page is mapped to the frame that it is in, and to no other. -/
theorem Sound.entry_frame_iff (h : Sound v) :
    (v.entries s va).map (·.frame) = some n ↔ ∃ p, v.pages s va = some p ∧ p.frame = some n := by
  constructor
  · intro he
    obtain ⟨e, hentry, rfl⟩ := Option.map_eq_some_iff.mp he
    exact h.mapped hentry
  · rintro ⟨p, hp, hf⟩
    obtain ⟨e, he⟩ := Option.isSome_iff_exists.mp (h.resident hp hf)
    rw [he, Option.map_some, h.frame_eq hp hf he]

end Memory

variable {π : Type} [ReplacementPolicy π] {m : Machine π} {calls : List Call}

/-- Whatever was asked of the machine so far, refused or not, by processes or of tables over spaces
that refuse mappings: an address is mapped to frame `n` exactly if there is a page there, and that
page is in frame `n`. A page that is in no frame, or not there any more, leaves no mapping behind. -/
theorem mapped_iff_resident {count : Nat} {device : Device} {policy : π} {files : FileStore}
    (h : Runs Operation.Allowed (Machine.start count device policy files) calls m) (s va : Nat) :
    (∀ n, (m.space s).directory.frame? va = some n ↔
      ∃ p, m.page? s va = some p ∧ p.frame = some n) ∧
    ((∀ p, m.page? s va = some p → p.frame = none) →
      PageDirectory.entry? (m.space s).directory va = none) := by
  have hsound := (h.valid (Machine.valid_start ..) fun _ _ hop => hop).sound
  refine ⟨fun n => hsound.entry_frame_iff, fun habsent => ?_⟩
  rw [Machine.entry?_eq]
  cases he : m.memory.entries s (pageDown va) with
  | none => rfl
  | some e =>
    obtain ⟨p, hp, hf⟩ := hsound.mapped he
    rw [habsent p hp] at hf
    cases hf

/-- A table whose space grants a single mapping. Its second page stays without a frame and without a
mapping. -/
theorem mapped_after_refusal : ∃ calls, ∃ m : Machine Fifo,
    Runs Operation.Allowed
      (.start 2 { name := "swap", kind := .swap, size := 0, disk := .zeroed 0 } {} {}) calls m ∧
    (∃ p, m.page? 0 4096 = some p ∧ p.frame = some 0) ∧
    (m.space 0).directory.frame? 4096 = some 0 ∧
    (m.space 0).admission.asked = 2 ∧ PageDirectory.entry? (m.space 0).directory 8192 = none := by
  obtain ⟨calls, m, hrun, hcheck⟩ := Runs.of_afterAll Operation.Allowed
    (m := .start 2 { name := "swap", kind := .swap, size := 0, disk := .zeroed 0 } ({} : Fifo) {})
    [.createTable (.atMost 1) true, .insert 0 4096 true (.anonymous .zeroed none),
      .insert 0 8192 true (.anonymous .zeroed none), .claim 0 4096, .claim 0 8192]
    (fun m => decide ((m.space 0).directory.frame? 4096 = some 0 ∧ (m.space 0).admission.asked = 2 ∧
      ((m.page? 0 8192).all fun p => p.frame == none) = true)) (by decide +kernel)
  obtain ⟨hmapped, hasked, habsent⟩ := of_decide_eq_true hcheck
  refine ⟨calls, m, hrun, ((mapped_iff_resident hrun 0 4096).1 0).mp hmapped, hmapped, hasked, ?_⟩
  refine (mapped_iff_resident hrun 0 8192).2 fun p hp => ?_
  rw [hp] at habsent
  simpa using habsent

end DemandPaging
