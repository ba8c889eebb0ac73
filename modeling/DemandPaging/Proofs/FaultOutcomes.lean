import DemandPaging.Proofs.Operations
import DemandPaging.Proofs.Shortages

/-! # How faults end

A fault that tells truly why an access failed is resolved so that the access goes through, or answers
an error that says why it may not. Which of the two kinds of forbidden accesses it was depends on the
fault, the table of pages and the stack pointer alone. What else can go wrong is that something was
not to be had, also where a page of another process had to make room.
-/
namespace DemandPaging
open Memory (Change)

namespace PageFault

/-- The access failed as the fault says: nothing is mapped at its address, or else it was a write and
the mapping is not writable. -/
def Describes (fault : PageFault) (directory : PageDirectory) : Prop :=
  (fault.notPresent = true ↔ directory.entry? fault.addr = none) ∧
    (fault.notPresent = false → fault.write = true ∧ directory.isWritable fault.addr = false)

variable {π : Type}

/-- An access that no paging makes possible. -/
def Forbidden (fault : PageFault) (m : Machine π) (s : Nat) : Prop :=
  kernelBase ≤ fault.addr ∨
    fault.write = true ∧ ∃ p, m.page? s fault.addr = some p ∧ p.writable = false

/-- An access to user memory where there is nothing, and no stack to grow there. -/
def Stray (fault : PageFault) (m : Machine π) (s esp : Nat) : Prop :=
  fault.addr < kernelBase ∧ m.page? s fault.addr = none ∧ isStackAccess fault.addr esp = false

/-- How a fault fails. -/
inductive Fails (fault : PageFault) (m : Machine π) (s esp : Nat) : MemoryError → Prop
  | forbidden (h : fault.Forbidden m s) (hthere : ¬fault.Stray m s esp) :
    Fails fault m s esp .protectionViolation
  | stray (hallowed : ¬fault.Forbidden m s) (h : fault.Stray m s esp) :
    Fails fault m s esp .invalidMapping
  | short {e : MemoryError} (hallowed : ¬fault.Forbidden m s) (hthere : ¬fault.Stray m s esp)
    (he : e.Shortage) : Fails fault m s esp e

variable {fault : PageFault} {m : Machine π} {s : Nat}

theorem Describes.notPresent_eq (h : fault.Describes (m.space s).directory) :
    fault.notPresent = (m.memory.entries s (pageDown fault.addr)).isNone := by
  rw [← Machine.entry?_eq, Bool.eq_iff_iff, h.1, Option.isNone_iff_eq_none]

theorem not_forbidden (haddr : fault.addr < kernelBase)
    (hw : ∀ p, m.page? s fault.addr = some p → fault.write = true → p.writable = true) :
    ¬fault.Forbidden m s := by
  rintro (hkernel | ⟨hwrite, p, hp, hreadOnly⟩)
  · exact absurd haddr (Nat.not_lt_of_le hkernel)
  · cases (hw p hp hwrite).symm.trans hreadOnly

/-- The error of a fault that is one by itself says why. -/
theorem RefusedAs.fails {esp : Nat} {e : MemoryError} {report : Event}
    (h : fault.RefusedAs m s esp e report) : fault.Fails m s esp e := by
  cases h with
  | kernel haddr =>
    exact .forbidden (.inl haddr) fun hstray => absurd hstray.1 (Nat.not_lt_of_le haddr)
  | stray haddr hp hstack =>
    refine .stray (not_forbidden haddr fun p hfound => ?_) ⟨haddr, hp, hstack⟩
    cases hp.symm.trans hfound
  | readOnly haddr hp hwrite hreadOnly =>
    refine .forbidden (.inr ⟨hwrite, _, hp, hreadOnly⟩) fun hstray => ?_
    cases hp.symm.trans hstray.2.1

/-- Something is done only about accesses that may become possible. -/
theorem ResolvedBy.allowed [ReplacementPolicy π] {esp : Nat} {x : Attempt π Unit}
    (h : fault.ResolvedBy m s esp x) : ¬fault.Forbidden m s ∧ ¬fault.Stray m s esp := by
  cases h with
  | growth haddr hp hstack =>
    refine ⟨not_forbidden haddr fun p hfound => ?_, fun hstray => ?_⟩
    · cases hp.symm.trans hfound
    · cases hstack.symm.trans hstray.2.2
  | unprotection haddr hp _ _ hw =>
    refine ⟨not_forbidden haddr fun p hfound _ => ?_, fun hstray => ?_⟩
    · exact Option.some.inj (hp.symm.trans hfound) ▸ hw
    · cases hp.symm.trans hstray.2.1
  | claim haddr hp hallowed =>
    refine ⟨not_forbidden haddr fun p hfound hwrite => ?_, fun hstray => ?_⟩
    · exact Option.some.inj (hp.symm.trans hfound) ▸ (hallowed hwrite).1
    · cases hp.symm.trans hstray.2.1

end PageFault

variable {π : Type}

/-- An access goes through: its address is mapped to the frame that the page is in, and writable if it
is a write. -/
def Machine.Permits (m : Machine π) (s addr : Nat) (write : Bool) : Prop :=
  ∃ p n, m.page? s addr = some p ∧ p.frame = some n ∧ (m.space s).directory.frame? addr = some n ∧
    (write = true → (m.space s).directory.isWritable addr = true)

theorem Machine.permits_of_mapped {m : Machine π} {s addr : Nat} {write : Bool} (h : m.memory.Sound)
    (hm : m.memory.Mapped s (pageDown addr) write) : m.Permits s addr write := by
  obtain ⟨p, n, e, hp, hf, he, hw⟩ := hm
  refine ⟨p, n, hp, hf, ?_, fun hwrite => ?_⟩
  · rw [PageDirectory.frame?, entry?_eq, he, Option.map_some, h.frame_eq hp hf he]
  · rw [PageDirectory.isWritable, PageDirectory.has, entry?_eq, he, Option.any_some, hw hwrite]

variable [ReplacementPolicy π] {m : Machine π} {s va : Nat}

/-- The new page at the foot of the stack is there to be claimed. -/
theorem growStack_wants (h : m.memory.Valid) (hs : s < m.spaces.size) (hva : va % pageSize = 0)
    (hp : m.memory.pages s va = none) : Attempt.Wants (growStack s va) m := by
  refine ends_growStack hs hva hp fun m₁ ha _ => ?_
  refine (claimPage_wants (h.evolves (.of_change ha))).imp (fun _ _ _ => trivial) ?_
  exact fun _ _ he => Run.ends_true.imp fun _ _ _ => he

/-- Forbidden and stray accesses, and they alone, end with the error that says so. -/
theorem handleFault_classes (h : m.memory.Valid) (hs : s < m.spaces.size) (fault : PageFault)
    (esp : Nat) :
    Attempt.Ends True (handleFault s fault esp) m
      (fun _ _ => ¬fault.Forbidden m s ∧ ¬fault.Stray m s esp) fun e _ => fault.Fails m s esp e := by
  refine ends_handleFault (fun e report hrefused => hrefused.fails) fun x hresolved => ?_
  obtain ⟨hallowed, hthere⟩ := hresolved.allowed
  have hwants : Attempt.Wants x m := by
    cases hresolved with
    | growth _ hp => exact growStack_wants h hs (pageDown_mod _) hp
    | unprotection => exact unprotect_wants h
    | claim => exact claimPage_wants h
  exact hwants.imp (fun _ _ _ => ⟨hallowed, hthere⟩) fun _ _ he => .short hallowed hthere he

variable {count : Nat} {device : Device} {policy : π} {files : FileStore} {calls : List Call}

/-- Whatever was asked of the machine so far, a fault on an access as it really failed has an answer.
If it is resolved the access goes through. It is a protection violation exactly if the address is the
kernel's or the access a write to a page that may not be written, and invalid exactly if there is no
page and no stack to grow; otherwise it fails only for want of memory, swap or a transfer. The kernel's
part of memory has mappings of its own, about which nothing is asked. -/
theorem fault_outcome (h : Runs Operation.Allowed (Machine.start count device policy files) calls m)
    (hs : s < m.spaces.size) (fault : PageFault)
    (hreal : fault.addr < kernelBase → fault.Describes (m.space s).directory) (esp : Nat) :
    ∃ answer after, handleFault s fault esp m = .ok answer after ∧
      (answer = .ok ⟨⟩ → after.Permits s fault.addr fault.write) ∧
      (answer = .error .protectionViolation ↔ fault.Forbidden m s) ∧
      (answer = .error .invalidMapping ↔ fault.Stray m s esp) ∧
      ∀ e, answer = .error e → ¬fault.Forbidden m s → ¬fault.Stray m s esp →
        e = .allocationExhausted ∨ e = .ioFailure := by
  have hvalid := h.valid (Machine.valid_start ..) fun _ _ hop => hop
  have hends := (handleFault_ends hvalid hs fault esp).and (handleFault_classes hvalid hs fault esp)
  unfold Attempt.Ends at hends
  split at hends
  · rename_i after hok
    obtain ⟨⟨cs, -, hcourse, -, hmapped⟩, hallowed, hthere⟩ := hends
    refine ⟨_, after, hok, fun _ => ?_, by simp [hallowed], by simp [hthere], by simp⟩
    have huser : fault.addr < kernelBase := by
      by_contra hkernel
      exact hallowed (.inl (Nat.le_of_not_lt hkernel))
    exact Machine.permits_of_mapped (hvalid.course hcourse).sound
      (hmapped fun _ => (hreal huser).notPresent_eq)
  · rename_i e after herror
    refine ⟨_, after, herror, by simp, ?_⟩
    cases hends.2 with
    | forbidden hno hthere => simp [hno, hthere]
    | stray hallowed hstray => simp [hallowed, hstray]
    | short hallowed hthere he => rcases he with rfl | rfl <;> simp [hallowed, hthere]
  · exact hends.elim

/-- A child writes to a page that it shares with its parent, when no frame is free. Once another of its
pages has made room, the write goes through. -/
theorem fault_outcome_after_fork : ∃ calls, ∃ m after : Machine Fifo, ∃ fault : PageFault,
    Runs Operation.Allowed
      (.start 2 { name := "swap", kind := .swap, size := 8, disk := .zeroed 8 } {} {}) calls m ∧
    1 < m.spaces.size ∧ fault.addr = 4097 ∧ fault.write = true ∧
    fault.Describes (m.space 1).directory ∧
    handleFault 1 fault 0 m = .ok (.ok ⟨⟩) after ∧ after.Permits 1 4097 true := by
  let fault : PageFault := { addr := 4097, user := true, write := true, notPresent := false }
  obtain ⟨calls, m, hrun, hcheck⟩ := Runs.of_afterAll Operation.Allowed
    (m := .start 2 { name := "swap", kind := .swap, size := 8, disk := .zeroed 8 } ({} : Fifo) {})
    [.createProcess 1, .insert 0 4096 true (.anonymous .zeroed none), .writeUser 0 4096 [7], .fork 0 2,
      .insert 1 8192 true (.anonymous .zeroed none), .writeUser 1 8192 [8]]
    (fun m => decide (m.spaces.size = 2 ∧
        ((m.space 1).directory.entry? fault.addr).isSome ∧
        (m.space 1).directory.isWritable fault.addr = false) &&
      match handleFault 1 fault 0 m with
      | .ok (.ok _) _ => true
      | _ => false) (by decide +kernel)
  obtain ⟨hbefore, hresolved⟩ := Bool.and_eq_true_iff.mp hcheck
  obtain ⟨hsize, hpresent, hprotected⟩ := of_decide_eq_true hbefore
  have hs : 1 < m.spaces.size := by omega
  have hreal : fault.Describes (m.space 1).directory := by
    refine ⟨⟨nofun, fun hnone => ?_⟩, fun _ => ⟨rfl, hprotected⟩⟩
    rw [hnone] at hpresent
    cases hpresent
  obtain ⟨answer, after, hanswer, hpermits, -⟩ := fault_outcome hrun hs fault (fun _ => hreal) 0
  rw [hanswer] at hresolved
  cases answer with
  | error e => cases hresolved
  | ok _ => exact ⟨calls, m, after, fault, hrun, hs, rfl, rfl, hreal, hanswer, hpermits rfl⟩

end DemandPaging
