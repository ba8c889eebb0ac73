import DemandPaging.Proofs.Turnover

/-! # The order of arrival

First in, first out is an order by what a machine reports, over any history of evictions, frames given
back, copies on write and failures: the frames in use are queued in the order in which each of them was
last acquired.
-/
namespace DemandPaging
open Machine (Undisturbed Indifferent)

/-- Candidates are queued as they come, whatever leaves in between. -/
structure FirstInFirstOut (π : Type) [ReplacementPolicy π] : Prop where
  insert : ∀ (policy : π) n, ReplacementPolicy.candidates (ReplacementPolicy.insert policy n) =
    ReplacementPolicy.candidates policy ++ [n]
  remove : ∀ (policy : π) n, ReplacementPolicy.candidates (ReplacementPolicy.remove policy n) =
    (ReplacementPolicy.candidates policy).filter (· ≠ n)

theorem Fifo.firstInFirstOut : FirstInFirstOut Fifo := ⟨fun _ _ => rfl, fun _ _ => rfl⟩

def Event.acquired? : Event → Option Nat
  | .acquired n => some n
  | _ => none

variable {π : Type}

namespace Machine
variable {m m' : Machine π} {n k : Nat}

/-- The frames that were acquired, oldest acquisition first. -/
def acquisitions (m : Machine π) : List Nat := m.turnover.filterMap Event.acquired?

/-- Frame `n` was acquired, and frame `k` has been acquired since, but frame `n` has not again: the last
acquisition of the one is older than that of the other. -/
def AcquiredBefore (m : Machine π) (n k : Nat) : Prop :=
  ∃ earlier later, m.acquisitions = earlier ++ later ∧ n ∈ earlier ∧ n ∉ later ∧ k ∈ later

theorem acquisitions_acquired (n : Nat) :
    (m.report (.acquired n)).acquisitions = m.acquisitions ++ [n] := by
  simp [acquisitions, turnover, report, Event.isTurnover, Event.acquired?, List.filter_singleton]

theorem acquisitions_evicted (n va : Nat) : (m.report (.evicted n va)).acquisitions = m.acquisitions := by
  simp [acquisitions, turnover, report, Event.isTurnover, Event.acquired?]

/-- Of two frames only one was acquired before the other. -/
theorem AcquiredBefore.asymm (h : m.AcquiredBefore n k) : ¬m.AcquiredBefore k n := by
  rintro ⟨earlier', later', hlist', -, hk', hn'⟩
  obtain ⟨earlier, later, hlist, -, hn, hk⟩ := h
  -- One of the two latter parts is a part of the other.
  rcases List.append_eq_append_iff.mp (hlist.symm.trans hlist') with ⟨between, -, rfl⟩ | ⟨between, -, rfl⟩
  · exact hn (List.mem_append_right _ hn')
  · exact hk' (List.mem_append_right _ hk)

/-- Acquisitions of other frames make no difference to which of two was acquired first. -/
theorem AcquiredBefore.push {j : Nat} (h : m.AcquiredBefore n k) (hne : n ≠ j)
    (hm' : m'.acquisitions = m.acquisitions ++ [j]) : m'.AcquiredBefore n k := by
  obtain ⟨earlier, later, hlist, hn, hnot, hk⟩ := h
  refine ⟨earlier, later ++ [j], ?_, hn, ?_, List.mem_append_left _ hk⟩
  · rw [hm', hlist, List.append_assoc]
  · simp [hnot, hne]

/-- The frames in use are the candidates, in the order in which they were acquired. -/
structure InOrder [ReplacementPolicy π] (m : Machine π) : Prop where
  candidates : ∀ n, n ∈ ReplacementPolicy.candidates m.frames.policy ↔ (m.frames.frame n).allocated = true
  acquired : ∀ n, (m.frames.frame n).allocated = true → n ∈ m.acquisitions
  order : (ReplacementPolicy.candidates m.frames.policy).Pairwise m.AcquiredBefore

namespace InOrder
variable [ReplacementPolicy π]

theorem start (count : Nat) (device : Device) {policy : π} (files : FileStore)
    (hp : ReplacementPolicy.candidates policy = []) : (Machine.start count device policy files).InOrder := by
  have hfree (n : Nat) : ((Machine.start count device policy files).frames.frame n).allocated = false := by
    have hframe : (Machine.start count device policy files).frames.frame n = _ := frame_start ..
    rw [hframe]
    rfl
  refine ⟨fun n => ?_, fun n hn => ?_, ?_⟩
  · rw [hfree]
    exact iff_of_false (hp ▸ List.not_mem_nil) nofun
  · rw [hfree] at hn
    cases hn
  · exact hp ▸ List.Pairwise.nil

theorem of_acquisitions (h : m.InOrder) (hacquisitions : m'.acquisitions = m.acquisitions)
    (hpolicy : m'.frames.policy = m.frames.policy)
    (hallocated : ∀ n, (m'.frames.frame n).allocated = (m.frames.frame n).allocated) : m'.InOrder := by
  refine ⟨fun n => ?_, fun n hn => ?_, ?_⟩
  · rw [hpolicy, hallocated]
    exact h.candidates n
  · rw [hacquisitions]
    exact h.acquired n (hallocated n ▸ hn)
  · rw [hpolicy]
    exact h.order.imp fun {n k} hbefore => by rwa [AcquiredBefore, hacquisitions]

theorem indifferent : Indifferent (InOrder (π := π)) where
  keep h hm := h.of_acquisitions (by rw [acquisitions, hm.turnover, acquisitions]) hm.policy hm.allocated

section Queued
variable (hπ : FirstInFirstOut π)
include hπ

/-- A frame that is given back is a candidate no more. -/
theorem vacate (h : m.InOrder) (n : Nat) : ({ m with frames := m.frames.vacate n } : Machine π).InOrder := by
  have hallocated (k : Nat) : ((m.frames.vacate n).frame k).allocated =
      if n = k ∧ k < m.frames.size then false else (m.frames.frame k).allocated := by
    refine (congrArg Frame.allocated (m.frames.frame_modify k)).trans ?_
    split
    · exact CoreMapEntry.has_free _
    · rfl
  have hlater : ReplacementPolicy.candidates (m.frames.vacate n).policy =
      (ReplacementPolicy.candidates m.frames.policy).filter (· ≠ n) := hπ.remove ..
  refine ⟨fun k => ?_, fun k hk => h.acquired k ?_, ?_⟩
  · rw [hallocated, hlater, List.mem_filter, h.candidates]
    have hlt : (m.frames.frame k).allocated = true → k < m.frames.size := m.frames.lt_of_allocated
    grind
  · have hk := (hallocated k).symm.trans hk
    grind
  · rw [hlater]
    exact h.order.filter _

/-- A frame that is taken is the last of the candidates. -/
theorem occupy (h : m.InOrder) {n : Nat} (hfree : (m.frames.frame n).allocated = false)
    (hn : n < m.frames.size) :
    ({ m with frames := m.frames.occupy n }.report (.acquired n) : Machine π).InOrder := by
  have hallocated (k : Nat) : ((m.frames.occupy n).frame k).allocated =
      if n = k then true else (m.frames.frame k).allocated := by
    refine (congrArg Frame.allocated (m.frames.frame_modify k)).trans ?_
    split
    · rename_i hk
      rw [if_pos hk.1]
      simp [Frame.allocated, CoreMapEntry.has_put]
    · rename_i hk
      rw [if_neg fun heq => hk ⟨heq, heq ▸ hn⟩]
  have hlater : ReplacementPolicy.candidates (m.frames.occupy n).policy =
      ReplacementPolicy.candidates m.frames.policy ++ [n] := hπ.insert ..
  have hpush := acquisitions_acquired (m := { m with frames := m.frames.occupy n }) n
  have hne (k : Nat) (hk : k ∈ ReplacementPolicy.candidates m.frames.policy) : k ≠ n := by
    rintro rfl
    rw [h.candidates, hfree] at hk
    cases hk
  refine ⟨fun k => ?_, fun k hk => ?_, ?_⟩
  · show k ∈ ReplacementPolicy.candidates (m.frames.occupy n).policy ↔ _
    rw [hlater, List.mem_append, List.mem_singleton, h.candidates]
    show _ ↔ ((m.frames.occupy n).frame k).allocated = true
    rw [hallocated]
    grind
  · rw [hpush]
    have hk := (hallocated k).symm.trans hk
    split at hk
    · rename_i heq
      exact List.mem_append_right _ (heq ▸ List.mem_singleton_self n)
    · exact List.mem_append_left _ (h.acquired k hk)
  · show (ReplacementPolicy.candidates (m.frames.occupy n).policy).Pairwise _
    rw [hlater, List.pairwise_append]
    refine ⟨?_, List.pairwise_singleton .., fun k hk j hj => ?_⟩
    · exact h.order.imp_of_mem fun hk _ hbefore => hbefore.push (hne _ hk) hpush
    · rw [List.mem_singleton.mp hj]
      refine ⟨m.acquisitions, [n], hpush, h.acquired k ((h.candidates k).mp hk), ?_, List.mem_singleton_self n⟩
      simpa using hne k hk

/-- A frame that a page is put out of is free afterwards, and one of the frames that there are. -/
theorem evictPage (h : m.InOrder) {n : Nat} (hn : n < m.frames.size) (o : Owner) (page : Page) :
    Attempt.Ends True (evictPage n o page) m
      (fun _ after => after.InOrder ∧ (after.frames.frame n).allocated = false ∧ n < after.frames.size)
      fun _ after => after.InOrder := by
  have hkeep : Indifferent fun m : Machine π => m.InOrder ∧ n < m.frames.size :=
    ⟨fun {m m'} h hm => ⟨indifferent.keep h.1 hm, hm.size ▸ h.2⟩⟩
  simp only [DemandPaging.evictPage, Attempt.ends_bind, Attempt.ends_modify]
  refine ((hkeep.heedless.saveOut page).ends m ⟨h, hn⟩).imp ?_ fun _ _ he => he.1
  rintro backing m₁ ⟨h₁, hn₁⟩
  have hput : m₁.Undisturbed ((m₁.unmap o.space o.va).putPage o.space { page with backing, frame := none }) :=
    .of_eq rfl rfl
  have hcounted := hkeep.keep ⟨h₁, hn₁⟩ (hput.trans (.modify (n := n)
    (f := fun fr => { fr with refcount := 0 }) fun _ => rfl))
  refine ⟨(hcounted.1.vacate hπ n).of_acquisitions (acquisitions_evicted ..) rfl fun _ => rfl, ?_, ?_⟩
  · refine (congrArg Frame.allocated (FrameTable.frame_modify _ n)).trans ?_
    rw [if_pos ⟨rfl, hcounted.2⟩]
    exact CoreMapEntry.has_free _
  · exact Nat.lt_of_lt_of_eq hcounted.2 (FrameTable.size_modify _).symm

theorem evictFirst (busy : Option Nat) (candidates : List Nat) (h : m.InOrder) :
    Attempt.Ends True (evictFirst busy candidates) m
      (fun n after => after.InOrder ∧ (after.frames.frame n).allocated = false ∧ n < after.frames.size)
      fun _ after => after.InOrder := by
  refine evictFirst_of_victim candidates h fun n o page hv => ?_
  have hallocated := (FrameTable.soleOwner?_eq_some.mp (victim?_eq_some.mp hv).1).1
  exact h.evictPage hπ (m.frames.lt_of_allocated hallocated) o page

theorem acquire (busy : Option Nat) : Attempt.Preserves InOrder (acquire busy : Attempt π Nat) := by
  constructor
  intro m h
  refine acquire_of_room (fun n frames hplace => ?_) fun _ => ?_
  · obtain ⟨hfree, hlt, hframes, hpolicy⟩ := FrameTable.place?_eq_some hplace
    have hframe (k : Nat) : frames.frame k = m.frames.frame k := by
      rw [FrameTable.frame, FrameTable.frame, hframes]
    have hplaced : ({ m with frames } : Machine π).InOrder :=
      h.of_acquisitions rfl hpolicy fun k => congrArg Frame.allocated (hframe k)
    exact hplaced.occupy hπ ((congrArg Frame.allocated (hframe n)).trans hfree) (by
      rwa [FrameTable.size, hframes])
  · refine (h.evictFirst hπ busy _).imp ?_ fun _ _ he => he
    rintro n m₁ ⟨h₁, hfree, hlt⟩
    exact h₁.occupy hπ hfree hlt

theorem endures : Endures (InOrder (π := π)) where
  toIndifferent := indifferent
  evictFirst busy candidates := by
    constructor
    intro m h
    exact (h.evictFirst hπ busy candidates).imp (fun _ _ he => he.1) fun _ _ he => he
  acquire := acquire hπ
  releaseFrame m n h := by
    have hdropped := indifferent.keep h (.modify (n := n)
      (f := fun fr => { fr with refcount := wordPred fr.refcount }) fun _ => rfl)
    simp only [releaseFrame, FrameTable.put]
    split
    · exact indifferent.keep (hdropped.vacate hπ n) (.report rfl)
    · exact hdropped

end Queued
end InOrder
end Machine
end DemandPaging
