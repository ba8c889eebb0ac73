import Mathlib.Data.List.Nodup
import DemandPaging.Proofs.Removal

/-! # The pages of all tables

All pages of a machine in one list, to count them by what they have. In sound memory each is listed
once.
-/
namespace DemandPaging
theorem count_eq_length_filter (l : List Bool) :
    l.count true = ((List.range l.length).filter fun k => l[k]? == some true).length := by
  induction l with
  | nil => rfl
  | cons b l ih =>
    have hshift : (fun k => (b :: l)[k]? == some true) ∘ Nat.succ = fun k => l[k]? == some true := rfl
    rw [List.count_cons, ih, List.length_cons, List.range_succ_eq_map, List.filter_cons, List.filter_map,
      hshift]
    cases b <;> simp

namespace SwapSpace
variable {swap : SwapSpace}

theorem mem_filter_used (k : Nat) :
    (k ∈ (List.range swap.inUse.length).filter fun k => swap.inUse[k]? == some true) ↔ swap.Used k := by
  rw [List.mem_filter, List.mem_range, beq_iff_eq]
  exact ⟨And.right, fun hused => ⟨(List.getElem?_eq_some_iff.mp hused).1, hused⟩⟩

/-- As many slots are in use as are listed once each. -/
theorem slotsInUse_eq_length {slots : List Nat} (hnodup : slots.Nodup)
    (hmem : ∀ k, k ∈ slots ↔ swap.Used k) : swap.slotsInUse = slots.length := by
  rw [slotsInUse, count_eq_length_filter]
  refine (List.Perm.length_eq ?_).symm
  exact (List.perm_ext_iff_of_nodup hnodup (List.nodup_range.filter _)).mpr fun k =>
    (hmem k).trans (mem_filter_used k).symm

end SwapSpace

namespace Machine
variable {π : Type} {m : Machine π} {s : Nat} {p : Page}

/-- Every page with the space whose table it is in. -/
def allPages (m : Machine π) : List (Nat × Page) :=
  (List.range m.spaces.size).flatMap fun s => (m.space s).pages.values.map fun p => (s, p)

theorem mem_values (h : m.memory.Sound) :
    p ∈ (m.space s).pages.values ↔ m.memory.pages s p.va = some p :=
  (of_values fun _ _ hp => (h.kept hp).1).1 p

theorem nodup_values (s : Nat) (h : m.memory.Sound) : (m.space s).pages.values.Nodup :=
  .of_map _ (of_values fun _ _ hp => (h.kept hp).1).2

theorem mem_allPages (h : m.memory.Sound) :
    (s, p) ∈ m.allPages ↔ m.memory.pages s p.va = some p := by
  simp only [allPages, List.mem_flatMap, List.mem_range, List.mem_map, Prod.mk.injEq, mem_values h]
  constructor
  · rintro ⟨t, -, q, hq, rfl, rfl⟩
    exact hq
  · intro hp
    exact ⟨s, (h.kept hp).2.2.1, p, hp, rfl, rfl⟩

theorem nodup_allPages (h : m.memory.Sound) : m.allPages.Nodup := by
  refine List.nodup_flatMap.mpr ⟨fun s _ => ?_, ?_⟩
  · exact (nodup_values s h).map fun p q heq => congrArg Prod.snd heq
  · refine List.nodup_range.imp fun {s t} hne e hs ht => ?_
    obtain ⟨_, -, rfl⟩ := List.mem_map.mp hs
    obtain ⟨_, -, heq⟩ := List.mem_map.mp ht
    exact hne (congrArg Prod.fst heq).symm

/-- Those pages that are in frame `n`, as owners of it. -/
def residents (m : Machine π) (n : Nat) : List Owner :=
  (m.allPages.filter fun e => decide (e.2.frame = some n)).map fun e => ⟨e.2.serial, e.1, e.2.va⟩

/-- The owners of a frame are the pages that are in it, one for one. -/
theorem residents_perm (h : m.memory.Sound) (n : Nat) :
    (m.residents n).Perm (m.frames.frame n).owners := by
  refine (List.perm_ext_iff_of_nodup ?_ (h.owners_nodup n)).mpr fun o => ?_
  · refine ((nodup_allPages h).filter _).map_on ?_
    rintro ⟨s, p⟩ hp ⟨t, q⟩ hq heq
    have hp := (mem_allPages h).mp (List.mem_of_mem_filter hp)
    have hq := (mem_allPages h).mp (List.mem_of_mem_filter hq)
    simp only [Owner.mk.injEq] at heq
    obtain ⟨-, rfl, hva⟩ := heq
    rw [hva] at hp
    rw [Option.some.inj (hp.symm.trans hq)]
  · simp only [residents, List.mem_map, List.mem_filter, decide_eq_true_eq, Prod.exists, mem_allPages h]
    constructor
    · rintro ⟨s, p, ⟨hp, hf⟩, rfl⟩
      exact h.owned hp hf
    · intro ho
      obtain ⟨p, hp, hserial, hf⟩ := h.owner ho
      have hva := (h.kept hp).1
      refine ⟨o.space, p, ⟨hva ▸ hp, hf⟩, ?_⟩
      rw [hva, hserial]

/-- The slots that pages have recorded. -/
def recordedSlots (m : Machine π) : List Nat := m.allPages.filterMap fun e => e.2.backing.slot?

/-- As many slots are in use as pages have recorded. -/
theorem slotsInUse_eq (h : m.memory.Sound) (hs : m.memory.Stowed) :
    m.swap.slotsInUse = m.recordedSlots.length := by
  refine SwapSpace.slotsInUse_eq_length ?_ fun k => ?_
  · refine List.pairwise_filterMap.mpr ((nodup_allPages h).imp_of_mem ?_)
    rintro ⟨s, p⟩ ⟨t, q⟩ hp hq hne k hk _ hk' rfl
    have hp := (mem_allPages h).mp hp
    have hq := (mem_allPages h).mp hq
    obtain ⟨rfl, hva⟩ := hs.single ((Memory.Stowed.slotAt_eq hp).trans hk) ((Memory.Stowed.slotAt_eq hq).trans hk')
    rw [hva] at hp
    exact hne (congrArg _ (Option.some.inj (hp.symm.trans hq)))
  · simp only [recordedSlots, List.mem_filterMap, Prod.exists, mem_allPages h]
    refine ⟨fun ⟨s, p, hp, hk⟩ => (hs.used k).mpr ⟨s, p.va, (Memory.Stowed.slotAt_eq hp).trans hk⟩, fun hused => ?_⟩
    obtain ⟨s, va, hk⟩ := (hs.used k).mp hused
    rw [Memory.slotAt, Option.bind_eq_some_iff] at hk
    obtain ⟨p, hp, hk⟩ := hk
    exact ⟨s, p, (h.kept hp).1 ▸ hp, hk⟩

end Machine
end DemandPaging
