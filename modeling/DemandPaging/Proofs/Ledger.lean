import DemandPaging.Proofs.Operations
import DemandPaging.Proofs.Tables

/-! # The ledger of frames

What the core map, the counts, the lists of owners, the queue of the policy and the tables say of a
frame is one and the same, between operations and whatever has failed. The queue is that of first in,
first out.
-/
namespace DemandPaging

/-- The queue holds each frame in use once, and no others. -/
structure Memory.Queued (v : Memory Fifo) : Prop where
  nodup : v.policy.queue.Nodup
  mem : ∀ n, n ∈ v.policy.queue ↔ (v.frames n).refcount ≠ 0

namespace Memory.Queued
variable {v w : Memory Fifo} {s n : Nat} {page : Page}

/-- As long as the same frames are in use, so is the queue. -/
theorem of_eq (h : Queued v) (hp : w.policy = v.policy)
    (hf : ∀ n, (w.frames n).refcount ≠ 0 ↔ (v.frames n).refcount ≠ 0) : Queued w where
  nodup := hp ▸ h.nodup
  mem n := by rw [hp, h.mem, hf]

/-- A frame is taken and joins the queue. -/
theorem take (h : Queued v) (hn : (v.frames n).refcount = 0) (hw : (w.frames n).refcount ≠ 0)
    (hf : ∀ k, k ≠ n → (w.frames k).refcount = (v.frames k).refcount)
    (hp : w.policy = ReplacementPolicy.insert v.policy n) : Queued w := by
  have hnot : n ∉ v.policy.queue := fun hmem => (h.mem n).mp hmem hn
  have hqueue : w.policy.queue = v.policy.queue ++ [n] := by rw [hp]; rfl
  refine ⟨?_, fun k => ?_⟩
  · rw [hqueue, List.nodup_append_comm]
    exact List.nodup_cons.mpr ⟨hnot, h.nodup⟩
  · rw [hqueue, List.mem_append, List.mem_singleton, h.mem]
    by_cases hk : k = n
    · simp [hk, hw]
    · simp [hk, hf k hk]

/-- A frame is given back and leaves the queue. -/
theorem give (h : Queued v) (hw : (w.frames n).refcount = 0)
    (hf : ∀ k, k ≠ n → (w.frames k).refcount = (v.frames k).refcount)
    (hp : w.policy = ReplacementPolicy.remove v.policy n) : Queued w := by
  have hqueue : w.policy.queue = v.policy.queue.filter (· ≠ n) := by rw [hp]; rfl
  refine ⟨?_, fun k => ?_⟩
  · rw [hqueue]
    exact h.nodup.filter _
  · rw [hqueue, List.mem_filter, h.mem]
    by_cases hk : k = n
    · simp [hk, hw]
    · simp [hk, hf k hk]

theorem leave (h : Queued v) (hs : Sound v) (hp : v.pages s page.va = some page)
    (hf : page.frame = some n) : Queued (v.leave s n page) := by
  rw [hs.leave_eq hp hf]
  by_cases hone : (v.frames n).refcount = 1
  · refine h.give (n := n) ?_ (fun k hk => ?_) (if_pos hone)
    · simp [setFrame, hone]
    · simp [setFrame, setEntry, setPage, hk]
  · have hpos := (hs.resident_frame hp hf).1
    refine h.of_eq (if_neg hone) fun k => ?_
    by_cases hk : k = n
    · simp only [setFrame, hk, Function.update_self]
      omega
    · simp [setFrame, setEntry, setPage, hk]

theorem seat {writable : Bool} {c : PageBytes} (h : Queued v) (hn : (v.frames n).refcount = 0) :
    Queued (v.seat s n page writable c) := by
  unfold Memory.seat
  refine h.take hn ?_ (fun k hk => ?_) rfl
  · simp [setFrame, Frame.ownedBy]
  · simp [setFrame, setEntry, setPage, hk]

theorem pass {c : PageBytes} (h : Queued v) (hn : (v.frames n).refcount = 0) : Queued (v.pass n c) := by
  have htaken : Queued { v.setFrame n { v.frames n with refcount := 1 } with
      policy := ReplacementPolicy.insert v.policy n } :=
    h.take hn (by simp [setFrame]) (fun k hk => by simp [setFrame, hk]) rfl
  refine htaken.give (n := n) ?_ (fun k hk => ?_) rfl
  · simp [Memory.pass, setFrame, Frame.vacant]
  · simp [Memory.pass, setFrame, hk]

theorem quit (h : Queued v) (hs : Sound v) (hp : v.pages s page.va = some page) :
    Queued (v.quit s page) := by
  unfold Memory.quit
  cases hf : page.frame with
  | none => exact h
  | some n => exact h.leave hs hp hf

theorem adopt {src dst : Nat} {backing : Backing} {swap : SwapSpace} (h : Queued v) (hs : Sound v)
    (hp : v.pages src page.va = some page) : Queued (v.adopt src dst page backing swap) := by
  unfold Memory.adopt
  cases hf : page.frame with
  | none => exact ⟨h.nodup, h.mem⟩
  | some n =>
    have hpos := (hs.resident_frame hp hf).1
    dsimp only
    unfold Memory.join
    refine h.of_eq rfl fun k => ?_
    by_cases hk : k = n
    · simp only [setFrame, setEntry, setPage, add, hk, Function.update_self, Frame.sharedWith]
      omega
    · simp [setFrame, setEntry, setPage, add, hk]

theorem step (h : Queued v) (hv : Sound v) (hs : Step v w) : Queued w := by
  cases hs with
  | serial | handles | swap | unshared | touched => exact ⟨h.nodup, h.mem⟩
  | passed hn => exact h.pass ((hv.free_iff _).mp hn)
  | flushed hp hf hfile hw => cases hw <;> exact ⟨h.nodup, h.mem⟩
  | flushedShort hp hf hfile hw => cases hw <;> exact ⟨h.nodup, h.mem⟩
  | @evicted s n page backing swap hp hf hn hb =>
    have hset : Queued (v.setPage s page.va (some { page with backing })) := ⟨h.nodup, h.mem⟩
    have hleft : Queued ((v.setPage s page.va (some { page with backing })).leave s n
        { page with backing }) := hset.leave (hv.reback hp backing) setAt_self hf
    rw [leave_setPage v s n { page with backing }] at hleft
    exact ⟨hleft.nodup, hleft.mem⟩
  | @claimed s n page backing c swap hp hf hn hlt hfit hb =>
    have hseat : Queued (v.seat s n { page with backing } page.writable c) :=
      h.seat ((hv.free_iff n).mp hn)
    exact ⟨hseat.nodup, hseat.mem⟩
  | @refused s n page backing c swap hp hf hn hlt hb hr =>
    have hpass := h.pass (c := c) ((hv.free_iff n).mp hn)
    exact ⟨hpass.nodup, hpass.mem⟩
  | @moved s old new page hp hf hw hold hnew hlt hfit =>
    have hleft := hv.leave hp hf
    have hfree : ((v.leave s old page).frames new).refcount = 0 := by
      have hne : new ≠ old := by
        rintro rfl
        have := (hv.resident_frame hp hf).1
        rw [hv.free_iff] at hnew
        omega
      rw [hv.leave_eq hp hf]
      exact (congrArg Frame.refcount (Function.update_of_ne hne ..)).trans ((hv.free_iff new).mp hnew)
    exact (h.leave hv hp hf).seat hfree

theorem change {c : Change} (h : Queued v) (hv : Sound v) (ha : Alters v c w) : Queued w := by
  cases ha with
  | insert | spawn | drop => exact ⟨h.nodup, h.mem⟩
  | remove hp =>
    have hquit := h.quit hv hp
    exact ⟨hquit.nodup, hquit.mem⟩
  | copy hp hdst hd hfit hb => exact h.adopt hv hp
  | @write s va n start bytes page e record hp hf he hw =>
    refine h.of_eq rfl fun k => ?_
    by_cases hk : k = n
    · simp [setFrame, hk]
    · simp [setFrame, setEntry, hk]

theorem evolves {cs : List Change} (h : Queued v) (hv : Sound v) (he : Evolves cs v w) : Queued w :=
  (he.keeps (I := fun v => Queued v ∧ Sound v) ⟨h, hv⟩ (fun hs h => ⟨h.1.step h.2 hs, h.2.step hs⟩)
    fun _ ha h => ⟨h.1.change h.2 ha, h.2.change ha⟩).1

end Memory.Queued

/-- Whatever was asked of a machine whose policy is first in, first out, the ledger of every frame
balances: it is allocated, counted and queued alike, its owners are the pages that are in it, and it
is not pinned. Nor is a page ever in a frame that does not count it, not even in the middle of
an operation, so that no count is ever taken below zero. -/
theorem ledger_of_runs {count : Nat} {device : Device} {files : FileStore} {calls : List Call}
    {m : Machine Fifo}
    (h : Runs Operation.Allowed (Machine.start count device {} files) calls m) (n : Nat) :
    ((m.frames.frame n).allocated = true ↔ 1 ≤ (m.frames.frame n).refcount) ∧
    m.frames.policy.queue.count n = (if (m.frames.frame n).allocated then 1 else 0) ∧
    (m.frames.frame n).refcount = (m.residents n).length ∧
    (m.frames.frame n).refcount = (m.frames.frame n).owners.length ∧
    (m.residents n).Perm (m.frames.frame n).owners ∧
    ((m.frames.frame n).owners.Pairwise fun o o' => o.space ≠ o'.space ∧ o.va = o'.va) ∧
    (m.frames.frame n).pinned = false ∧
    ((m.frames.frame n).allocated = false →
      (m.frames.frame n).refcount = 0 ∧ (m.frames.frame n).owners = []) ∧
    ∀ cs v, Memory.Evolves cs m.memory v → ∀ s va p, v.pages s va = some p → p.frame = some n →
      1 ≤ (v.frames n).refcount := by
  have hvalid := h.valid (Machine.valid_start ..) fun _ _ hop => hop
  have hqueued : m.memory.Queued := by
    refine (h.keeps (I := fun m => m.memory.Queued ∧ m.memory.Valid) ⟨⟨List.nodup_nil, ?_⟩,
      Machine.valid_start ..⟩ ?_).1
    · intro k
      rw [Machine.frame_start]
      exact iff_of_false List.not_mem_nil fun hne => hne rfl
    · rintro m₁ op reply m₂ ⟨hq, hv⟩ hop hp
      obtain ⟨cs, hevolves, -⟩ := ((Operation.perform_ends hv hop).of_ok hp).evolves
      exact ⟨hq.evolves hv.sound hevolves, hv.evolves hevolves⟩
  have hsound := hvalid.sound
  have hfree := hsound.free_iff n
  have hperm := Machine.residents_perm hsound n
  have hcount := hsound.counted n
  have hallocated : (m.frames.frame n).allocated = true ↔ 1 ≤ (m.frames.frame n).refcount := by
    rw [Nat.one_le_iff_ne_zero, ← not_iff_not, Bool.not_eq_true, not_not]
    exact hfree
  refine ⟨hallocated, ?_, hperm.length_eq ▸ hcount, hcount, hperm, hsound.distinct n, ?_, fun hf => ?_, ?_⟩
  · show m.memory.policy.queue.count n = _
    rw [hqueued.nodup.count]
    refine if_congr ?_ rfl rfl
    rw [hallocated, Nat.one_le_iff_ne_zero]
    exact hqueued.mem n
  · have hstate := hsound.state n
    show (m.memory.frames n).entry.has .pinned = false
    rw [hstate]
    split <;> simp
  · have hzero := hfree.mp hf
    exact ⟨hzero, List.length_eq_zero_iff.mp (hcount.symm.trans hzero)⟩
  · intro cs v hevolves s va p hp hf
    exact (hvalid.evolves hevolves).sound.resident_frame hp hf |>.1

/-- Two processes share the frame of a page after a fork. -/
theorem ledger_after_fork : ∃ calls, ∃ m : Machine Fifo,
    Runs Operation.Allowed
      (.start 2 { name := "swap", kind := .swap, size := 0, disk := .zeroed 0 } {} {}) calls m ∧
    (m.residents 0).length = 2 ∧ (m.residents 0).Perm (m.frames.frame 0).owners := by
  obtain ⟨calls, m, hrun, hcheck⟩ := Runs.of_afterAll Operation.Allowed
    (m := .start 2 { name := "swap", kind := .swap, size := 0, disk := .zeroed 0 } ({} : Fifo) {})
    [.createProcess 1, .insert 0 4096 true (.anonymous .zeroed none), .writeUser 0 4096 [7],
      .fork 0 2]
    (fun m => decide ((m.residents 0).length = 2)) (by decide +kernel)
  exact ⟨calls, m, hrun, of_decide_eq_true hcheck, (ledger_of_runs hrun 0).2.2.2.2.1⟩

end DemandPaging
