import DemandPaging.Proofs.Acquisition
import DemandPaging.Proofs.Entries
import DemandPaging.Proofs.Operations

/-! # Reached machines

The widest class of histories in which only the machine itself maps pages. Whatever else happens between
operations, memory stays valid.
-/
namespace DemandPaging

variable {π : Type} [ReplacementPolicy π] {first m : Machine π}

/-- The machines that come of the first one. Any operation is performed; in between things are reported,
processes have something else besides memory, frames come to hold anything, pages are marked as used or as
not used, and files and the disk come to hold something else. -/
inductive Reached (first : Machine π) : Machine π → Prop
  | start : Reached first first
  | perform {m after : Machine π} {op : Operation} {reply : Reply} (h : Reached first m)
    (hop : op.Allowed m) (hp : op.perform m = .ok reply after) : Reached first after
  | reported {m : Machine π} (h : Reached first m) (e : Event) : Reached first (m.report e)
  | lived {m : Machine π} (h : Reached first m) (s : Nat) (f : Process → Process) :
    Reached first (m.modifyProcess s f)
  | filled {m : Machine π} (h : Reached first m) (n : Nat) (contents : PageBytes) :
    Reached first (m.setContents n contents)
  | marked {m : Machine π} (h : Reached first m) (s va : Nat) {f : PageTableEntry.Flag}
    (hf : f = .accessed ∨ f = .dirty) (on : Bool) :
    Reached first (m.modifySpace s fun space => { space with directory := space.directory.mark f va on })
  | elsewhere {m : Machine π} (h : Reached first m) (device : Device) (files : FileStore)
    (hsize : device.size = m.swap.device.size) :
    Reached first { m with swap := { m.swap with device }, files }

omit [ReplacementPolicy π] in
/-- A mark changes neither the frame nor the right to write. -/
theorem Machine.valid_mark (h : m.memory.Valid) (s va : Nat) {f : PageTableEntry.Flag}
    (hf : f = .accessed ∨ f = .dirty) (on : Bool) :
    (m.modifySpace s fun space => { space with directory := space.directory.mark f va on }).memory.Valid := by
  have hwritable (e : PageTableEntry) : (e.put f on).has .writable = e.has .writable := by
    rw [PageTableEntry.has_put, if_neg]
    rintro rfl
    rcases hf with hf | hf <;> cases hf
  have hspace : s < m.spaces.size ∨ (m.memory.entries s (pageDown va)).map (·.put f on) = none := by
    refine (Nat.lt_or_ge s m.spaces.size).imp_right fun hge => ?_
    rw [(memory_spaceless hge).2, Option.map_none]
  rw [memory_directory Iff.rfl rfl (PageDirectory.getElem?_mark_eq _ f va on) hspace]
  cases he : m.memory.entries s (pageDown va) with
  | none =>
    have hsame : m.memory.setEntry s (pageDown va) none = m.memory := by
      rw [Memory.setEntry, setAt_eq_self he]
    rwa [Option.map_none, hsame]
  | some e =>
    rw [Option.map_some]
    refine ⟨h.sound.remark he (PageTableEntry.frame_put ..) fun hw => .inl ?_, h.stowed.of_eq rfl (.refl _)⟩
    rwa [hwritable] at hw

namespace Reached

theorem valid (h : Reached first m) (hfirst : first.memory.Valid) : m.memory.Valid := by
  induction h with
  | start => exact hfirst
  | perform _ hop hp ih =>
    obtain ⟨cs, hevolves, -⟩ := ((Operation.perform_ends ih hop).of_ok hp).evolves
    exact ih.evolves hevolves
  | reported _ _ ih => exact ih
  | lived _ _ _ ih => exact (Machine.memory_modifyProcess _).symm ▸ ih
  | filled _ n contents ih => exact Machine.valid_setContents ih n contents
  | marked _ s va hf on ih => exact Machine.valid_mark ih s va hf on
  | elsewhere _ device files hsize ih => exact ih.elsewhere hsize files

/-- Operations alone are such a history. -/
theorem of_runs {calls : List Call} (h : Runs Operation.Allowed first calls m) : Reached first m := by
  induction h with
  | refl => exact .start
  | step _ hop hp ih => exact ih.perform hop hp

end Reached

end DemandPaging
