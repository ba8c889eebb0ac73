import DemandPaging.Proofs.SuccessfulForks

/-! # What descriptors are bound to

A descriptor that is given out is none that is open, and what is bound to all others stays. Whether one can
be given out depends on the last of all descriptors alone: while it is open nothing can be opened, however
many descriptors are closed.
-/
namespace DemandPaging

namespace Descriptors
variable {d : Descriptors} {fd : Int}

/-- All that is open is open as a descriptor that may be handed out. -/
def InRange (d : Descriptors) : Prop := ∀ fd h, d.get? fd = some h → firstDescriptor ≤ fd ∧ fd ≤ lastDescriptor

theorem isSome_maxKey {top : Int} (htop : d.handles.maxKey? = some top) : (d.get? top).isSome :=
  mem_iff.mp (Std.ExtTreeMap.maxKey?_eq_some_iff_mem_and_forall.mp htop).1

theorem next?_of_maxKey {top : Int} (htop : d.handles.maxKey? = some top) :
    d.next? = if top < lastDescriptor then some (top + 1) else none := by
  rw [next?, htop]

theorem next?_of_empty (htop : d.handles.maxKey? = none) : d.next? = some firstDescriptor := by
  rw [next?, htop]

/-- Descriptors have run out as soon as the last one is open. -/
theorem next?_eq_none_iff (h : d.InRange) : d.next? = none ↔ (d.get? lastDescriptor).isSome := by
  cases htop : d.handles.maxKey? with
  | none =>
    have hclosed : d.get? lastDescriptor = none := by
      simp [get?, Std.ExtTreeMap.maxKey?_eq_none_iff.mp htop]
    simp [next?_of_empty htop, hclosed]
  | some top =>
    obtain ⟨handle, hhandle⟩ := Option.isSome_iff_exists.mp (isSome_maxKey htop)
    have hrange := h top handle hhandle
    rw [next?_of_maxKey htop]
    constructor
    · intro hnone
      have hlast : top = lastDescriptor := by
        by_contra hne
        rw [if_pos (by omega)] at hnone
        cases hnone
      rw [← hlast, hhandle]
      rfl
    · intro hopen
      have hle := le_maxKey htop hopen
      exact if_neg (by omega)

theorem range_next (h : d.InRange) (hnext : d.next? = some fd) : firstDescriptor ≤ fd ∧ fd ≤ lastDescriptor := by
  cases htop : d.handles.maxKey? with
  | none =>
    rw [next?_of_empty htop] at hnext
    obtain rfl := Option.some.inj hnext
    decide
  | some top =>
    obtain ⟨handle, hhandle⟩ := Option.isSome_iff_exists.mp (isSome_maxKey htop)
    have hrange := h top handle hhandle
    rw [next?_of_maxKey htop] at hnext
    split at hnext
    · obtain rfl := Option.some.inj hnext
      omega
    · cases hnext

/-- Where the first `n` descriptors are open, the next one is handed out. -/
theorem next?_of_row {n : Nat} {bound : Handle} (hn : firstDescriptor + n ≤ lastDescriptor)
    (h : ∀ k, d.get? k = if firstDescriptor ≤ k ∧ k < firstDescriptor + n then some bound else none) :
    d.next? = some (firstDescriptor + n) := by
  cases htop : d.handles.maxKey? with
  | none =>
    have hzero : n = 0 := by
      by_contra hne
      have hopen := h firstDescriptor
      rw [if_pos ⟨Int.le_refl _, by omega⟩, get?, Std.ExtTreeMap.maxKey?_eq_none_iff.mp htop] at hopen
      simp at hopen
    rw [next?_of_empty htop, hzero]
    rfl
  | some top =>
    obtain ⟨handle, hhandle⟩ := Option.isSome_iff_exists.mp (isSome_maxKey htop)
    rw [h] at hhandle
    split at hhandle
    · rename_i hrange
      have hlast : top = firstDescriptor + n - 1 := by
        have hopen : (d.get? (firstDescriptor + n - 1)).isSome := by
          rw [h, if_pos (by omega)]
          rfl
        have hle := le_maxKey htop hopen
        omega
      rw [next?_of_maxKey htop, if_pos (by omega), hlast, Int.sub_add_cancel]
    · cases hhandle

end Descriptors

variable {π : Type} {m after : Machine π} {s : Nat} {fd : Int}

namespace Machine

/-- Of all descriptors of all processes, `fd` of process `s` alone has changed. -/
structure Rebinds (s : Nat) (fd : Int) (bound : Option Handle) (m after : Machine π) : Prop where
  spaces : after.spaces.size = m.spaces.size
  bindings : ∀ t k, openHandle? after t k = if t = s ∧ k = fd then bound else openHandle? m t k

/-- The new process has what is open in its parent, and the others what they had. -/
structure Inherits (s : Nat) (child : Nat) (m after : Machine π) : Prop where
  new : child = m.spaces.size
  spaces : after.spaces.size = m.spaces.size + 1
  bindings : ∀ t k, openHandle? after t k = openHandle? m (if t = child then s else t) k

/-- No process has gained or lost a descriptor. A new one has none. -/
structure KeepsBindings (m after : Machine π) : Prop where
  spaces : m.spaces.size ≤ after.spaces.size
  bindings : ∀ t k, openHandle? after t k = openHandle? m t k

/-- Every open descriptor of every process may be handed out, and memory is valid. -/
structure Numbered (m : Machine π) : Prop where
  valid : m.memory.Valid
  range : ∀ s, (m.process s).descriptors.InRange

theorem openHandle?_modifyProcess (hs : s < m.spaces.size) (f : Process → Process) (t : Nat) (k : Int) :
    openHandle? (m.modifyProcess s f) t k =
      if t = s then (f (m.process s)).descriptors.get? k else openHandle? m t k := by
  simp only [openHandle?, process, modifyProcess, space_modifySpace]
  by_cases hts : t = s
  · rw [if_pos ⟨hts, hs⟩, if_pos hts]
  · rw [if_neg fun hat => hts hat.1, if_neg hts]

theorem openHandle?_eq (m : Machine π) (s : Nat) (fd : Int) : openHandle? m s fd =
    (m.standing.processes[s]?).bind fun p => p.descriptors.get? fd := by
  cases hp : m.standing.processes[s]? with
  | some p => rw [openHandle?, process_eq hp]; rfl
  | none =>
    have hge : m.spaces.size ≤ s := by simpa [standing] using hp
    rw [openHandle?, process, space_eq_default hge]
    exact Descriptors.get?_empty fd

theorem rebinds_modifyProcess (hs : s < m.spaces.size) {bound : Option Handle} {f : Process → Process}
    (hf : ∀ k, (f (m.process s)).descriptors.get? k = if fd = k then bound else openHandle? m s k) :
    m.Rebinds s fd bound (m.modifyProcess s f) where
  spaces := Array.size_modify
  bindings t k := by
    rw [openHandle?_modifyProcess hs]
    by_cases hts : t = s
    · rw [if_pos hts, hf, hts]
      simp only [true_and, eq_comm (a := fd)]
    · rw [if_neg hts, if_neg fun hat => hts hat.1]

theorem rebinds_insert (hs : s < m.spaces.size) (fd : Int) (h : Handle) : m.Rebinds s fd (some h)
    (m.modifyProcess s fun p => { p with descriptors := p.descriptors.insert fd h }) :=
  rebinds_modifyProcess hs Descriptors.get?_insert

theorem rebinds_erase (hs : s < m.spaces.size) (fd : Int) : m.Rebinds s fd none
    (m.modifyProcess s fun p => { p with descriptors := p.descriptors.erase fd }) :=
  rebinds_modifyProcess hs Descriptors.get?_erase

theorem rebinds_none (hopen : openHandle? m s fd = none) : m.Rebinds s fd none m where
  spaces := rfl
  bindings t k := by
    split
    · rename_i hat
      rw [hat.1, hat.2, hopen]
    · rfl

theorem Rebinds.of_ne {bound : Option Handle} (h : m.Rebinds s fd bound after) {t : Nat} {k : Int}
    (hne : ¬(t = s ∧ k = fd)) : openHandle? after t k = openHandle? m t k :=
  (h.bindings t k).trans (if_neg hne)

/-- A process that was there already keeps its descriptors. -/
theorem Inherits.of_lt {child t : Nat} (h : m.Inherits s child after) (ht : t < m.spaces.size) (k : Int) :
    openHandle? after t k = openHandle? m t k := by
  rw [h.bindings, if_neg]
  rw [h.new]
  exact Nat.ne_of_lt ht

theorem Rebinds.numbered {bound : Option Handle} (h : m.Rebinds s fd bound after) (hm : m.Numbered)
    (hvalid : after.memory.Valid)
    (hrange : ∀ h ∈ bound, firstDescriptor ≤ fd ∧ fd ≤ lastDescriptor) : after.Numbered where
  valid := hvalid
  range t k handle hk := by
    have hbinding := h.bindings t k
    split at hbinding
    · rename_i hat
      obtain ⟨rfl, rfl⟩ := hat
      exact hrange handle (hbinding.symm.trans hk)
    · exact hm.range t k handle (hbinding.symm.trans hk)

theorem Inherits.numbered {child : Nat} (h : m.Inherits s child after) (hm : m.Numbered)
    (hvalid : after.memory.Valid) : after.Numbered where
  valid := hvalid
  range t k handle hk := hm.range _ k handle ((h.bindings t k).symm.trans hk)

theorem KeepsBindings.numbered (h : m.KeepsBindings after) (hm : m.Numbered) (hvalid : after.memory.Valid) :
    after.Numbered where
  valid := hvalid
  range t k handle hk := hm.range t k handle ((h.bindings t k).symm.trans hk)

theorem numbered_start {count : Nat} {device : Device} {policy : π} {files : FileStore} :
    (start count device policy files).Numbered where
  valid := Machine.valid_start count device policy files
  range s _ _ hopen := absurd (lt_spaces_of_open hopen) (Nat.not_lt_zero s)

theorem keepsBindings_of_processes (h : after.standing.processes = m.standing.processes) :
    m.KeepsBindings after where
  spaces := Nat.le_of_eq (by rw [← length_processes, ← length_processes, h])
  bindings t k := by rw [openHandle?_eq, h, ← openHandle?_eq]

theorem openHandle?_of_append {p : Process}
    (h : after.standing.processes = m.standing.processes ++ [p]) (t : Nat) (k : Int) :
    openHandle? after t k = if t = m.spaces.size then p.descriptors.get? k else openHandle? m t k := by
  rw [openHandle?_eq, h, List.getElem?_append, length_processes]
  by_cases hlt : t < m.spaces.size
  · rw [if_pos hlt, if_neg (Nat.ne_of_lt hlt), ← openHandle?_eq]
  · rw [if_neg hlt]
    by_cases ht : t = m.spaces.size
    · simp [ht]
    · -- Neither machine has such a process.
      have hnone : [p][t - m.spaces.size]? = none := List.getElem?_eq_none (by simp; omega)
      rw [hnone, if_neg ht, openHandle?_eq, List.getElem?_eq_none (by rw [length_processes]; omega)]

theorem spaces_of_append {p : Process} (h : after.standing.processes = m.standing.processes ++ [p]) :
    after.spaces.size = m.spaces.size + 1 := by
  rw [← length_processes, h, List.length_append, length_processes, List.length_singleton]

theorem inherits_of_processes {p : Process} (h : after.standing.processes = m.standing.processes ++ [p])
    (hp : p.descriptors = (m.process s).descriptors) : m.Inherits s m.spaces.size after where
  new := rfl
  spaces := spaces_of_append h
  bindings t k := by
    rw [openHandle?_of_append h, hp]
    split <;> rfl

end Machine

/-! ## What each call does -/

theorem openFile_of_none {h : Handle} (hnone : (m.process s).descriptors.next? = none) :
    openFile s h m = .error .overflow m := by
  have hget : (get : Run π _) m = .ok m m := rfl
  simp only [openFile, Run.bind_of_ok hget, hnone]
  rfl

theorem openFile_of_next {h : Handle} (hnext : (m.process s).descriptors.next? = some fd) : openFile s h m =
    .ok fd (m.modifyProcess s fun p => { p with descriptors := p.descriptors.insert fd h }) := by
  have hget : (get : Run π _) m = .ok m m := rfl
  simp only [openFile, Run.bind_of_ok hget, hnext]
  rfl

theorem openFile_rebinds (hs : s < m.spaces.size) (h : Handle) :
    Run.Ends ((m.process s).descriptors.next? = none) (openFile s h) m fun fd after =>
      (m.process s).descriptors.next? = some fd ∧ m.Rebinds s fd (some h) after ∧
      after.memory = m.memory := by
  unfold Run.Ends
  cases hnext : (m.process s).descriptors.next? with
  | none => rw [openFile_of_none hnext]
  | some fd =>
    rw [openFile_of_next hnext]
    exact ⟨rfl, Machine.rebinds_insert hs fd h, Machine.memory_modifyProcess _⟩

theorem closeFile_rebinds (s : Nat) (fd : Int) : Run.Ends False (closeFile s fd) m fun answer after =>
    answer = (openHandle? m s fd).isSome ∧ m.Rebinds s fd none after := by
  simp only [closeFile, Run.ends_bind, Run.ends_get]
  cases hopen : openHandle? m s fd with
  | none =>
    rw [show (m.process s).descriptors.get? fd = none from hopen]
    exact ⟨rfl, Machine.rebinds_none hopen⟩
  | some h =>
    rw [show (m.process s).descriptors.get? fd = some h from hopen]
    simp only [Run.ends_bind, Run.ends_modify, Run.ends_pure]
    have hs := lt_spaces_of_open hopen
    have herased := Machine.rebinds_erase (m := { m with files := m.files.close h }) hs fd
    exact ⟨rfl, herased.spaces, herased.bindings⟩

theorem withFile_of_none {α : Type} {f : FileStore → Handle → α × Handle × FileStore}
    (hopen : openHandle? m s fd = none) : withFile s fd f m = .ok none m := by
  have hget : (get : Run π _) m = .ok m m := rfl
  simp only [withFile, Run.bind_of_ok hget, hopen]
  rfl

theorem withFile_rebinds {α : Type} {f : FileStore → Handle → α × Handle × FileStore} {h : Handle}
    (hopen : openHandle? m s fd = some h) :
    Run.Ends False (withFile s fd f) m fun answer after => answer = some (f m.files h).1 ∧
      after.files = (f m.files h).2.2 ∧ m.Rebinds s fd (some (f m.files h).2.1) after ∧
      after.memory = { m.memory with files := (f m.files h).2.2 } := by
  simp only [withFile, Run.ends_bind, Run.ends_get, hopen, updateHandle, Run.ends_modify, Run.ends_pure]
  have hs := lt_spaces_of_open hopen
  have hinserted := Machine.rebinds_insert (m := { m with files := (f m.files h).2.2 }) hs fd (f m.files h).2.1
  exact ⟨trivial, rfl, ⟨hinserted.spaces, hinserted.bindings⟩, Machine.memory_modifyProcess _⟩

theorem createProcess_keeps (pid : Nat) : Run.Ends False (createProcess pid) m fun _ after =>
    m.KeepsBindings after := by
  simp only [createProcess, Run.ends_bind, Run.ends_get, Run.ends_modify, Run.ends_pure]
  have happend := congrArg Standing.processes (m.standing_addSpace { process := { pid } })
  refine ⟨by rw [Machine.spaces_of_append happend]; exact Nat.le_succ _, fun t k => ?_⟩
  rw [Machine.openHandle?_of_append happend]
  split
  · rename_i ht
    rw [openHandle?, Machine.process, Machine.space_eq_default (Nat.le_of_eq ht.symm)]
    rfl
  · rfl

theorem openFile_answers (hm : m.Numbered) (hs : s < m.spaces.size) (h : Handle) :
    (openHandle? m s lastDescriptor).isSome ∧ openFile s h m = .error .overflow m ∨
    openHandle? m s lastDescriptor = none ∧ ∃ fd after, openFile s h m = .ok fd after ∧
      firstDescriptor ≤ fd ∧ fd ≤ lastDescriptor ∧ openHandle? m s fd = none ∧
      m.Rebinds s fd (some h) after := by
  have hlast := Descriptors.next?_eq_none_iff (hm.range s)
  have hends := openFile_rebinds hs h
  cases hnext : (m.process s).descriptors.next? with
  | none => exact .inl ⟨hlast.mp hnext, openFile_of_none hnext⟩
  | some next =>
    have hnone : (m.process s).descriptors.next? ≠ none := by
      rw [hnext]
      nofun
    obtain ⟨fd, after, hopened⟩ := hends.answers hnone
    obtain ⟨hfd, hbinds, -⟩ := hends.of_ok hopened
    obtain ⟨hlow, hhigh⟩ := Descriptors.range_next (hm.range s) hfd
    have hfree : openHandle? m s lastDescriptor = none :=
      Option.not_isSome_iff_eq_none.mp fun hopen => hnone (hlast.mpr hopen)
    exact .inr ⟨hfree, fd, after, hopened, hlow, hhigh, Descriptors.get?_next hfd, hbinds⟩

theorem closeFile_answers (m : Machine π) (s : Nat) (fd : Int) :
    ∃ after, closeFile s fd m = .ok (openHandle? m s fd).isSome after ∧ m.Rebinds s fd none after := by
  obtain ⟨answer, after, hclosed⟩ := (closeFile_rebinds s fd).answers id
  obtain ⟨rfl, hbinds⟩ := (closeFile_rebinds s fd).of_ok hclosed
  exact ⟨after, hclosed, hbinds⟩

theorem withFile_answers {α : Type} (m : Machine π) (s : Nat) (fd : Int)
    (f : FileStore → Handle → α × Handle × FileStore) :
    openHandle? m s fd = none ∧ withFile s fd f m = .ok none m ∨
    ∃ h after, openHandle? m s fd = some h ∧ withFile s fd f m = .ok (some (f m.files h).1) after ∧
      after.files = (f m.files h).2.2 ∧ m.Rebinds s fd (some (f m.files h).2.1) after := by
  cases hopen : openHandle? m s fd with
  | none => exact .inl ⟨rfl, withFile_of_none hopen⟩
  | some h =>
    have hends := withFile_rebinds (f := f) hopen
    obtain ⟨answer, after, hused⟩ := hends.answers id
    obtain ⟨rfl, hfiles, hbinds, -⟩ := hends.of_ok hused
    exact .inr ⟨h, after, rfl, hused, hfiles, hbinds⟩

/-! ## What becomes of descriptors -/

/-- A call on one descriptor of one process. -/
inductive DescriptorCall where
  | opened (s : Nat) (fd : Int)
  | closed (s : Nat) (fd : Int)
  | used (s : Nat) (fd : Int)
deriving DecidableEq

namespace DescriptorCall

def process : DescriptorCall → Nat
  | opened s _ | closed s _ | used s _ => s

end DescriptorCall

/-- What has become of descriptors. -/
inductive Machine.Rebound (m : Machine π) : Option DescriptorCall → Machine π → Prop
  | opened {after : Machine π} {s : Nat} {fd : Int} {h : Handle} (hclosed : openHandle? m s fd = none)
    (hbinds : m.Rebinds s fd (some h) after) : Rebound m (some (.opened s fd)) after
  | closed {after : Machine π} {s : Nat} {fd : Int} (hbinds : m.Rebinds s fd none after) :
    Rebound m (some (.closed s fd)) after
  | used {after : Machine π} {s : Nat} {fd : Int} {bound : Option Handle}
    (hbinds : m.Rebinds s fd bound after) : Rebound m (some (.used s fd)) after
  | inherited {after : Machine π} {s child : Nat} (hinherits : m.Inherits s child after) : Rebound m none after
  | kept {after : Machine π} (hkeeps : m.KeepsBindings after) : Rebound m none after

namespace Machine.Rebound
variable {call : Option DescriptorCall} {t : Nat} {k : Int} {h : Handle}

theorem spaces_le (hr : m.Rebound call after) : m.spaces.size ≤ after.spaces.size := by
  cases hr with
  | opened _ hbinds | closed hbinds | used hbinds => exact Nat.le_of_eq hbinds.spaces.symm
  | inherited hinherits =>
    rw [hinherits.spaces]
    exact Nat.le_succ _
  | kept hkeeps => exact hkeeps.spaces

/-- A descriptor stays what it is until it is closed or used. -/
theorem stays (hr : m.Rebound call after) (hopen : openHandle? m t k = some h)
    (hclosed : call ≠ some (.closed t k)) (hused : call ≠ some (.used t k)) :
    openHandle? after t k = some h := by
  cases hr with
  | opened hnone hbinds =>
    refine (hbinds.of_ne ?_).trans hopen
    rintro ⟨rfl, rfl⟩
    cases hnone.symm.trans hopen
  | closed hbinds =>
    refine (hbinds.of_ne ?_).trans hopen
    rintro ⟨rfl, rfl⟩
    exact hclosed rfl
  | used hbinds =>
    refine (hbinds.of_ne ?_).trans hopen
    rintro ⟨rfl, rfl⟩
    exact hused rfl
  | inherited hinherits =>
    -- A child is new, and a process with an open descriptor is not.
    exact (hinherits.of_lt (lt_spaces_of_open hopen) k).trans hopen
  | kept hkeeps => exact (hkeeps.bindings t k).trans hopen

/-- A process keeps its descriptors while others call. -/
theorem elsewhere (hr : m.Rebound call after) (ht : t < m.spaces.size)
    (hother : ∀ c ∈ call, c.process ≠ t) : openHandle? after t k = openHandle? m t k := by
  cases hr with
  | @opened _ s _ _ _ hbinds | @closed _ s _ hbinds | @used _ s _ _ hbinds =>
    have hne : s ≠ t := hother _ rfl
    exact hbinds.of_ne fun hat => hne hat.1.symm
  | inherited hinherits => exact hinherits.of_lt ht k
  | kept hkeeps => exact hkeeps.bindings t k

end Machine.Rebound

variable [ReplacementPolicy π]

/-! ## What a fork does -/

theorem fork_processes (h : m.memory.Valid) (hs : s < m.spaces.size) (pid : Nat) :
    Attempt.Ends False (fork s pid) m
      (fun child after => child = m.spaces.size ∧ after.standing.processes = m.standing.processes ++
        [{ pid, esp := (m.process s).esp, descriptors := (m.process s).descriptors }])
      fun _ after => after.standing.processes = m.standing.processes := by
  refine ((fork_steps h pid).and (fork_similar h pid)).imp ?_ ?_
  · rintro child after ⟨⟨rfl, pages, copied, inherited, -, hcopies, hinherited, event, rfl⟩, -⟩
    exact ⟨rfl, (hcopies.inherited hs hinherited).2⟩
  · exact fun _ after hafter => hafter.2.processes

/-- The child of a fork has what is open in its parent. Of a fork that fails no descriptor stays. -/
theorem fork_inherits (h : m.memory.Valid) (hs : s < m.spaces.size) (pid : Nat) :
    Attempt.Ends False (fork s pid) m (fun child after => m.Inherits s child after ∧ after.memory.Valid)
      fun _ after => m.KeepsBindings after ∧ after.memory.Valid := by
  have hmemory := (fork_ends (s := s) h pid).weaken fun _ => trivial
  refine ((fork_processes h hs pid).and hmemory).imp ?_ ?_
  · rintro child after ⟨⟨rfl, hprocesses⟩, -, pages, -, hquiet⟩
    exact ⟨Machine.inherits_of_processes hprocesses rfl, h.course hquiet⟩
  · rintro e after ⟨hprocesses, -, copied, removed, hquiet⟩
    exact ⟨Machine.keepsBindings_of_processes hprocesses, h.course hquiet⟩

theorem fork_answers (hm : m.Numbered) (hs : s < m.spaces.size) (pid : Nat) :
    (∃ child after, fork s pid m = .ok (.ok child) after ∧ m.Inherits s child after) ∨
    ∃ e after, fork s pid m = .ok (.error e) after ∧ m.KeepsBindings after := by
  have hends := fork_inherits hm.valid hs pid
  have hrun : Run.Ends False (fork s pid).run m fun _ _ => True :=
    Run.ends_run.mpr (hends.imp (fun _ _ _ => trivial) fun _ _ _ => trivial)
  obtain ⟨answer | answer, after, hforked⟩ := hrun.answers id
  · exact .inr ⟨answer, after, hforked, (hends.of_error hforked).1⟩
  · exact .inl ⟨answer, after, hforked, (hends.of_ok hforked).1⟩

/-! ## Any number of calls -/

/-- What happens to descriptors. A file is opened, closed or used, a process forks or a new one is created.
Anything else may happen as well that keeps memory valid and concerns no descriptor. -/
inductive DescriptorStep (m : Machine π) : Option DescriptorCall → Machine π → Prop
  | opened {after : Machine π} {s : Nat} {h : Handle} {fd : Int} (hs : s < m.spaces.size)
    (ho : openFile s h m = .ok fd after) : DescriptorStep m (some (.opened s fd)) after
  | closed {after : Machine π} {s : Nat} {fd : Int} {answer : Bool} (hc : closeFile s fd m = .ok answer after) :
    DescriptorStep m (some (.closed s fd)) after
  | used {after : Machine π} {s : Nat} {fd : Int} {α : Type} {f : FileStore → Handle → α × Handle × FileStore}
    {answer : Option α} (hu : withFile s fd f m = .ok answer after) : DescriptorStep m (some (.used s fd)) after
  | forked {after : Machine π} {s pid : Nat} {answer : Except MemoryError Nat} (hs : s < m.spaces.size)
    (hf : fork s pid m = .ok answer after) : DescriptorStep m none after
  | created {after : Machine π} {s pid : Nat} (hc : createProcess pid m = .ok s after) :
    DescriptorStep m none after
  | meanwhile {after : Machine π} (hkeeps : m.KeepsBindings after) (hvalid : after.memory.Valid) :
    DescriptorStep m none after

/-- Nothing else can become of descriptors, and all that are open stay in their range. -/
theorem DescriptorStep.rebound {call : Option DescriptorCall} (h : DescriptorStep m call after)
    (hm : m.Numbered) : m.Rebound call after ∧ after.Numbered := by
  cases h with
  | opened hs ho =>
    obtain ⟨hnext, hbinds, hmemory⟩ := (openFile_rebinds hs _).of_ok ho
    refine ⟨.opened (Descriptors.get?_next hnext) hbinds, hbinds.numbered hm (hmemory ▸ hm.valid) ?_⟩
    exact fun _ _ => Descriptors.range_next (hm.range _) hnext
  | closed hc =>
    have hbinds := ((closeFile_rebinds _ _).of_ok hc).2
    have hvalid := hm.valid.course ((closeFile_ends _).of_ok hc)
    exact ⟨.closed hbinds, hbinds.numbered hm hvalid nofun⟩
  | @used _ s fd _ f answer hu =>
    cases hopen : openHandle? m s fd with
    | none =>
      obtain ⟨-, rfl⟩ := EStateM.Result.ok.inj ((withFile_of_none hopen).symm.trans hu)
      exact ⟨.used (Machine.rebinds_none hopen), hm⟩
    | some h =>
      obtain ⟨-, -, hbinds, hmemory⟩ := (withFile_rebinds hopen).of_ok hu
      refine ⟨.used hbinds, hbinds.numbered hm ?_ fun _ _ => hm.range s fd h hopen⟩
      rw [hmemory]
      exact hm.valid.elsewhere rfl _
  | @forked _ s pid answer hs hf =>
    cases answer with
    | ok child =>
      obtain ⟨hinherits, hvalid⟩ := (fork_inherits hm.valid hs pid).of_ok hf
      exact ⟨.inherited hinherits, hinherits.numbered hm hvalid⟩
    | error e =>
      obtain ⟨hkeeps, hvalid⟩ := (fork_inherits hm.valid hs pid).of_error hf
      exact ⟨.kept hkeeps, hkeeps.numbered hm hvalid⟩
  | created hc =>
    have hkeeps := (createProcess_keeps _).of_ok hc
    have hvalid := hm.valid.course ((createProcess_ends _).of_ok hc).2
    exact ⟨.kept hkeeps, hkeeps.numbered hm hvalid⟩
  | meanwhile hkeeps hvalid => exact ⟨.kept hkeeps, hkeeps.numbered hm hvalid⟩

/-- Calls one after the other. -/
inductive DescriptorRuns (first : Machine π) : List DescriptorCall → Machine π → Prop
  | start : DescriptorRuns first [] first
  | step {calls : List DescriptorCall} {call : Option DescriptorCall} {m after : Machine π}
    (hruns : DescriptorRuns first calls m) (hstep : DescriptorStep m call after) :
    DescriptorRuns first (calls ++ call.toList) after

namespace DescriptorRuns
variable {first : Machine π} {calls : List DescriptorCall} {t : Nat} {k : Int} {h : Handle}

theorem numbered (hruns : DescriptorRuns first calls m) (hfirst : first.Numbered) : m.Numbered := by
  induction hruns with
  | start => exact hfirst
  | step _ hstep ih => exact (hstep.rebound ih).2

theorem spaces_le (hruns : DescriptorRuns first calls m) (hfirst : first.Numbered) :
    first.spaces.size ≤ m.spaces.size := by
  induction hruns with
  | start => exact Nat.le_refl _
  | step hruns hstep ih => exact Nat.le_trans ih (hstep.rebound (hruns.numbered hfirst)).1.spaces_le

theorem stays (hruns : DescriptorRuns first calls m) (hfirst : first.Numbered)
    (hopen : openHandle? first t k = some h) (hclosed : .closed t k ∉ calls) (hused : .used t k ∉ calls) :
    openHandle? m t k = some h := by
  induction hruns with
  | start => exact hopen
  | step hruns hstep ih =>
    rw [List.mem_append, not_or, Option.mem_toList] at hclosed hused
    exact (hstep.rebound (hruns.numbered hfirst)).1.stays (ih hclosed.1 hused.1) hclosed.2 hused.2

theorem elsewhere (hruns : DescriptorRuns first calls m) (hfirst : first.Numbered)
    (ht : t < first.spaces.size) (hother : ∀ c ∈ calls, c.process ≠ t) :
    openHandle? m t k = openHandle? first t k := by
  induction hruns with
  | start => rfl
  | step hruns hstep ih =>
    have hbefore := ih fun c hc => hother c (List.mem_append_left _ hc)
    rw [← hbefore]
    refine (hstep.rebound (hruns.numbered hfirst)).1.elsewhere
      (Nat.lt_of_lt_of_le ht (hruns.spaces_le hfirst)) fun c hc => hother c ?_
    exact List.mem_append_right _ (Option.mem_toList.mpr hc)

/-- A process opens a file as often as there are descriptors, which are handed out in a row. -/
theorem row (hruns : DescriptorRuns first calls m)
    (hs : s < m.spaces.size) (hnone : ∀ k, openHandle? m s k = none) {n : Nat}
    (hn : firstDescriptor + n ≤ lastDescriptor + 1) : ∃ later after, DescriptorRuns first later after ∧
      s < after.spaces.size ∧ ∀ k, openHandle? after s k =
        if firstDescriptor ≤ k ∧ k < firstDescriptor + n then some h else none := by
  induction n with
  | zero =>
    refine ⟨calls, m, hruns, hs, fun k => ?_⟩
    rw [hnone, if_neg (by omega)]
  | succ n ih =>
    obtain ⟨later, after, hlater, hsize, hrow⟩ := ih (by omega)
    have hnext : (after.process s).descriptors.next? = some (firstDescriptor + n) :=
      Descriptors.next?_of_row (by omega) hrow
    have hends := openFile_rebinds hsize h
    rw [hnext] at hends
    obtain ⟨fd, last, hopened⟩ := hends.answers nofun
    obtain ⟨hfd, hbinds, -⟩ := hends.of_ok hopened
    refine ⟨_, last, hlater.step (.opened hsize hopened), hbinds.spaces ▸ hsize, fun k => ?_⟩
    rw [hbinds.bindings, hrow, ← Option.some.inj hfd]
    by_cases hk : k = firstDescriptor + n
    · rw [if_pos ⟨rfl, hk⟩, if_pos (by omega)]
    · rw [if_neg fun hat => hk hat.2]
      congr 1
      exact propext (by omega)

end DescriptorRuns

variable {calls : List DescriptorCall} {count : Nat} {device : Device} {policy : π} {files : FileStore}

/-- After any number of calls, a file that is opened gets a descriptor from 3 on that was not open, unless
the last of all is open. Nothing else is bound to anything else, and so it is with whatever is closed or
used. The child of a fork has what its parent has. Later calls change no descriptor of a process but those
that the process itself closes or uses. -/
theorem descriptors_of_runs (hruns : DescriptorRuns (Machine.start count device policy files) calls m)
    (hs : s < m.spaces.size) :
    (∀ h, (openHandle? m s lastDescriptor).isSome ∧ openFile s h m = .error .overflow m ∨
      openHandle? m s lastDescriptor = none ∧ ∃ fd after, openFile s h m = .ok fd after ∧
        firstDescriptor ≤ fd ∧ fd ≤ lastDescriptor ∧ openHandle? m s fd = none ∧
        m.Rebinds s fd (some h) after) ∧
    (∀ fd, ∃ after, closeFile s fd m = .ok (openHandle? m s fd).isSome after ∧ m.Rebinds s fd none after) ∧
    (∀ (α : Type) (fd : Int) (f : FileStore → Handle → α × Handle × FileStore),
      openHandle? m s fd = none ∧ withFile s fd f m = .ok none m ∨
      ∃ h after, openHandle? m s fd = some h ∧ withFile s fd f m = .ok (some (f m.files h).1) after ∧
        after.files = (f m.files h).2.2 ∧ m.Rebinds s fd (some (f m.files h).2.1) after) ∧
    (∀ pid, (∃ child after, fork s pid m = .ok (.ok child) after ∧ m.Inherits s child after) ∨
      ∃ e after, fork s pid m = .ok (.error e) after ∧ m.KeepsBindings after) ∧
    ∀ later after, DescriptorRuns m later after →
      (∀ t k h, openHandle? m t k = some h → .closed t k ∉ later → .used t k ∉ later →
        openHandle? after t k = some h) ∧
      ∀ t < m.spaces.size, (∀ call ∈ later, call.process ≠ t) →
        ∀ k, openHandle? after t k = openHandle? m t k := by
  have hm := hruns.numbered Machine.numbered_start
  refine ⟨openFile_answers hm hs, closeFile_answers m s, fun _ => withFile_answers m s, fork_answers hm hs, ?_⟩
  intro later after hlater
  refine ⟨?_, ?_⟩
  · exact fun t k h hopen hclosed hused => hlater.stays hm hopen hclosed hused
  · exact fun t ht hother k => hlater.elsewhere hm ht hother

/-- A process with an open file forks and closes it. Its child has it open still. -/
theorem descriptors_after_fork : ∃ calls, ∃ m after last : Machine Fifo, ∃ child,
    DescriptorRuns (.start 1 { name := "swap", kind := .swap, size := 8, disk := .zeroed 8 } {}
      { nodes := #[{ contents := [1, 2], handles := 1 }] }) calls m ∧ 0 < m.spaces.size ∧
    fork 0 2 m = .ok (.ok child) after ∧ child = 1 ∧ closeFile 0 3 after = .ok true last ∧
    openHandle? last 0 3 = none ∧ openHandle? last child 3 = some { file := 0 } := by
  let first : Machine Fifo := .start 1 { name := "swap", kind := .swap, size := 8, disk := .zeroed 8 } {}
    { nodes := #[{ contents := [1, 2], handles := 1 }] }
  have hcreate : createProcess 1 first = .ok 0 (first.addSpace { process := { pid := 1 } }) := rfl
  have hcreated : DescriptorRuns first [] _ := .step .start (.created hcreate)
  let m := (first.addSpace { process := { pid := 1 } }).modifyProcess 0 fun p =>
    { p with descriptors := p.descriptors.insert 3 { file := 0 } }
  have hruns : DescriptorRuns first _ m :=
    hcreated.step (.opened (by decide) (openFile_of_next Descriptors.next?_empty))
  have hchecked : (match fork 0 2 m with | .ok (.ok _) _ => true | _ => false) = true := by decide +kernel
  have hopen : openHandle? m 0 3 = some { file := 0 } := by
    rw [Machine.openHandle?_modifyProcess (by decide), if_pos rfl, Descriptors.get?_insert, if_pos rfl]
  obtain ⟨-, -, -, hfork, -⟩ := descriptors_of_runs hruns (s := 0) (by decide)
  rcases hfork 2 with ⟨child, after, hforked, hinherits⟩ | ⟨e, after, hforked, -⟩
  · have hchild : child = 1 := hinherits.new
    have hafter := hruns.step (.forked (by decide) hforked)
    have hspaces : after.spaces.size = 2 := hinherits.spaces
    obtain ⟨-, hclose, -, -, hlater⟩ := descriptors_of_runs hafter (s := 0) (by omega)
    obtain ⟨last, hclosed, hbinds⟩ := hclose 3
    obtain ⟨-, hother⟩ := hlater _ last (DescriptorRuns.start.step (.closed hclosed))
    refine ⟨_, m, after, last, child, hruns, by decide, hforked, hchild, ?_, ?_, ?_⟩
    · rw [hclosed, hinherits.bindings, hchild, if_neg (by decide), hopen]
      rfl
    · rw [hbinds.bindings, if_pos ⟨rfl, rfl⟩]
    · rw [hother child (by omega) (by simp [DescriptorCall.process, hchild]), hinherits.bindings, if_pos rfl,
        hopen]
  · rw [hforked] at hchecked
    cases hchecked

/-- Once the last descriptor has been handed out nothing can be opened, although the first one is closed. -/
theorem openFile_overflows_beside_closed : ∃ calls, ∃ m : Machine Fifo,
    DescriptorRuns (.start 1 { name := "swap", kind := .swap, size := 8, disk := .zeroed 8 } {}
      { nodes := #[{ contents := [1, 2], handles := 1 }] }) calls m ∧
    0 < m.spaces.size ∧ openHandle? m 0 firstDescriptor = none ∧
    openFile 0 { file := 0 } m = .error .overflow m := by
  let first : Machine Fifo := .start 1 { name := "swap", kind := .swap, size := 8, disk := .zeroed 8 } {}
    { nodes := #[{ contents := [1, 2], handles := 1 }] }
  have hnumbered : first.Numbered := Machine.numbered_start
  have hcreate : createProcess 1 first = .ok 0 (first.addSpace { process := { pid := 1 } }) := rfl
  have hcreated : DescriptorRuns first [] _ := .step .start (.created hcreate)
  obtain ⟨calls, full, hfull, hsize, hrow⟩ := hcreated.row (s := 0) (h := { file := 0 }) (n := 32765)
    (by decide) (fun _ => Descriptors.get?_empty _) (by decide)
  obtain ⟨m, hclosed, hbinds⟩ := closeFile_answers full 0 firstDescriptor
  have hruns := hfull.step (.closed hclosed)
  have hspaces : 0 < m.spaces.size := hbinds.spaces ▸ hsize
  refine ⟨_, m, hruns, hspaces, ?_, ?_⟩
  · rw [hbinds.bindings, if_pos ⟨rfl, rfl⟩]
  · have hlast : openHandle? m 0 lastDescriptor = some { file := 0 } := by
      rw [hbinds.bindings, if_neg (by decide), hrow, if_pos (by decide)]
    rcases openFile_answers (hruns.numbered hnumbered) hspaces { file := 0 } with hopen | ⟨hnone, -⟩
    · exact hopen.2
    · cases hnone.symm.trans hlast

end DemandPaging
