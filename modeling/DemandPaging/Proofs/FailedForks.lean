import DemandPaging.Proofs.InPlace
import DemandPaging.Proofs.Leaks
import DemandPaging.Proofs.Lending

/-! # Forks that fail

A fork can fail at any page, when swap is full or a transfer goes wrong, after frames were shared, slots
copied and handles taken. Then the parent, its pages and all that they are in are as before, and a page
that was write-protected on the way gets its right back at the next write, in place.
-/
namespace DemandPaging
open Memory (Change Evolves)

/-- The same processes, and handles of the same files. -/
structure Standing.Similar (st st' : Standing) : Prop where
  processes : st'.processes = st.processes
  files : ∀ f, (st'.handles f).isSome = (st.handles f).isSome

namespace Standing.Similar

theorem refl (st : Standing) : st.Similar st := ⟨rfl, fun _ => rfl⟩

theorem trans {st st' st'' : Standing} (h : st.Similar st') (h' : st'.Similar st'') : st.Similar st'' :=
  ⟨h'.processes.trans h.processes, fun f => (h'.files f).trans (h.files f)⟩

theorem retain (st : Standing) (source : Source) : st.Similar (st.retain source) := by
  refine ⟨rfl, fun f => ?_⟩
  simp only [Standing.retain]
  split
  · exact Option.isSome_map ..
  · rfl

theorem releaseAll (st : Standing) (pages : List Page) : st.Similar (st.releaseAll pages) := by
  refine ⟨processes_releaseAll st pages, fun f => ?_⟩
  rw [handles_releaseAll, Option.isSome_map]

end Standing.Similar

/-- A file store is all in its files, each with its handles, its bytes and its limits. -/
theorem FileStore.eq_of_nodes {files files' : FileStore} (hhandles : files'.handles? = files.handles?)
    (hcontents : ∀ f, (files'.node f).contents = (files.node f).contents)
    (htransfers : ∀ f, files'.transferLimits f = files.transferLimits f) : files' = files := by
  refine congrArg FileStore.mk (Array.ext_getElem? fun f => ?_)
  have hh := congrFun hhandles f
  have hc := hcontents f
  have ht := htransfers f
  simp only [handles?, transferLimits, node, Array.getD_eq_getD_getElem?] at hh hc ht
  cases hnode : files.nodes[f]? with
  | none =>
    rw [hnode, Option.map_none, Option.map_eq_none_iff] at hh
    exact hh
  | some node =>
    rw [hnode, Option.map_some, Option.map_eq_some_iff] at hh
    obtain ⟨node', hnode', hhandles⟩ := hh
    rw [hnode, hnode', Option.getD_some, Option.getD_some] at hc ht
    obtain ⟨hread, hwrite⟩ := Prod.mk.inj ht
    rw [hnode']
    obtain ⟨contents, handles, readLimit, writeLimit⟩ := node
    obtain ⟨contents', handles', readLimit', writeLimit'⟩ := node'
    subst hc hhandles hread hwrite
    rfl

variable {π : Type} {m after : Machine π} {s : Nat}

/-- All that a failed fork of process `s` leaves of a machine: everything as it was, except that pages of
`s` may be mapped without the right to write and without an accessed mark. -/
structure Machine.Restored (s : Nat) (m after : Machine π) : Prop where
  tables : ∀ t, (after.space t).pages = (m.space t).pages
  entries : ∀ t va : Nat, (after.space t).directory.entries[va]? = (m.space t).directory.entries[va]? ∨
    t = s ∧ (after.space t).directory.entries[va]? =
      (m.space t).directory.entries[va]?.map PageTableEntry.guarded
  frames : after.frames.frames = m.frames.frames
  policy : after.frames.policy = m.frames.policy
  slots : ∀ k, after.swap.Used k ↔ m.swap.Used k
  held : ∀ k, m.swap.Used k → after.swap.held k = m.swap.held k
  files : after.files = m.files
  processes : after.spaces.toList.map (·.process) = m.spaces.toList.map (·.process)

/-- Bytes were written at `addr` in space `s` where they belong, in frame `n`. No page has moved, no
frame was taken or given back, and only the page that was written is mapped otherwise. -/
structure Machine.WroteInPlace (s addr : Nat) (bytes : List UInt8) (n : Nat) (m after : Machine π) :
    Prop where
  tables : ∀ t, (after.space t).pages = (m.space t).pages
  frames : ∀ k, after.frames.frame k =
    if k = n then { m.frames.frame n with contents := overwrite (m.contents n) (pageOffset addr) bytes }
    else m.frames.frame k
  policy : after.frames.policy = m.frames.policy
  swap : after.swap = m.swap
  files : after.files = m.files
  others : ∀ t va : Nat, ¬(t = s ∧ va = pageDown addr) →
    (after.space t).directory.entries[va]? = (m.space t).directory.entries[va]?
  mapped : (after.space s).directory.frame? addr = some n ∧
    (after.space s).directory.isWritable addr = true ∧ (after.space s).directory.isDirty addr = true

theorem Machine.tables_eq (h : after.memory.pages = m.memory.pages) (t : Nat) :
    (after.space t).pages = (m.space t).pages :=
  Std.ExtTreeMap.ext_getElem? fun a => congrFun (congrFun h t) a

theorem Machine.frames_eq (hsize : after.memory.size = m.memory.size)
    (hframes : after.memory.frames = m.memory.frames) : after.frames.frames = m.frames.frames := by
  refine Array.ext hsize fun n hn hn' => ?_
  have hframe := congrFun hframes n
  simp only [memory, FrameTable.frame, Array.getD_eq_getD_getElem?] at hframe
  rwa [Array.getElem?_eq_getElem hn, Array.getElem?_eq_getElem hn', Option.getD_some,
    Option.getD_some] at hframe

theorem Machine.wroteInPlace {addr n : Nat} {bytes : List UInt8} {e : PageTableEntry} {record : Bool}
    (hfit : n < PageTableEntry.frameLimit)
    (h : after.memory = (m.memory.setEntry s (pageDown addr)
      (some ((PageTableEntry.remap (some e) n true).touch record true))).setFrame n
      { m.memory.frames n with
        contents := overwrite (m.memory.frames n).contents (pageOffset addr) bytes }) :
    m.WroteInPlace s addr bytes n after := by
  have hentry : PageDirectory.entry? (after.space s).directory addr =
      some ((PageTableEntry.remap (some e) n true).touch record true) := by
    rw [entry?_eq, h]
    exact setAt_self
  refine ⟨tables_eq (by rw [h]; rfl), fun k => ?_, congrArg Memory.policy h, congrArg Memory.swap h,
    congrArg Memory.files h, fun t va hne => ?_, ?_, ?_, ?_⟩
  · refine (congrFun (congrArg Memory.frames h) k).trans ?_
    simp only [Memory.setFrame, Function.update_apply]
    rfl
  · exact (congrFun (congrFun (congrArg Memory.entries h) t) va).trans (setAt_of_ne hne)
  · rw [PageDirectory.frame?, hentry, Option.map_some, PageTableEntry.frame_touch,
      PageTableEntry.frame_remap _ _ hfit]
  · simp [PageDirectory.isWritable, PageDirectory.has, hentry]
  · simp [PageDirectory.isDirty, PageDirectory.has, hentry]

/-- Handles are what the same processes and the same pages hold. -/
theorem Machine.Balanced.handles_eq {ps : List Process} {held : Nat → Nat} (h : m.Balanced ps held)
    (h' : after.Balanced ps held) (hpages : after.memory.pages = m.memory.pages)
    (hsome : ∀ f, (after.standing.handles f).isSome = (m.standing.handles f).isSome) :
    after.standing.handles = m.standing.handles := by
  funext f
  have hholders := holders_congr (f := f) h.valid.sound h'.valid.sound fun t a => by
    rw [Memory.fileAt, hpages, Memory.fileAt]
  have hf := hsome f
  cases hn : m.standing.handles f with
  | none =>
    rw [hn] at hf
    exact Option.isNone_iff_eq_none.mp (by simpa using hf)
  | some n =>
    rw [hn] at hf
    obtain ⟨k, hk⟩ := Option.isSome_iff_exists.mp hf
    rw [hk, h'.counted hk, h.counted hn, hholders]

variable [ReplacementPolicy π]

theorem Machine.Copies.similar {src dst : Nat} {pages : List Page} (h : Copies src dst pages m after) :
    m.standing.Similar after.standing := by
  induction h with
  | done _ hst =>
    rw [hst]
    exact .refl _
  | copy _ _ hst _ ih =>
    rw [hst] at ih
    exact (Standing.Similar.retain ..).trans ih

/-- After a fork that fails there are the same processes as before, and the same files. -/
theorem fork_similar (h : m.memory.Valid) (childPid : Nat) :
    Attempt.Ends True (fork s childPid) m (fun _ _ => True) fun _ after =>
      m.standing.Similar after.standing := by
  refine ((fork_steps h childPid).weaken False.elim).imp (fun _ _ _ => trivial) ?_
  rintro e after ⟨pages, copied, emptied, hcopies, hemptied, rfl⟩
  have hboth := hcopies.similar.trans (.releaseAll _ (copied.space m.spaces.size).pages.values)
  rw [← hemptied.standing, Machine.withChild, Machine.standing_addSpace] at hboth
  refine ⟨?_, hboth.files⟩
  have hprocesses := hboth.processes
  simp only [Machine.standing, Array.toList_pop, List.map_dropLast] at hprocesses ⊢
  rw [hprocesses, List.dropLast_concat]

namespace HandleRuns
variable {count : Nat} {device : Device} {policy : π} {files : FileStore} {ops : List Operation}
  {outside : Nat → Nat}

/-- What memory keeps while it evolves, whatever files and the disk come to hold, it keeps in a run. -/
theorem keeps {I : Memory π → Prop}
    (h : HandleRuns (Machine.start count device policy files) ops outside m)
    (hstart : I (Machine.start count device policy files).memory)
    (hevolves : ∀ op ∈ ops, ∀ {cs v w}, Evolves cs v w → (op.AtUser → ∀ c ∈ cs, c.AtUser) → I v → I w)
    (helsewhere : ∀ v device files, I v → I { v with swap := { v.swap with device }, files }) :
    I m.memory := by
  induction h with
  | start => exact hstart
  | @perform ops outside m after op reply h hop hbacked hp ih =>
    obtain ⟨ps, hps⟩ := h.balanced
    obtain ⟨cs, he, hcs⟩ := ((Operation.perform_ends hps.valid hop).of_ok hp).evolves
    refine hevolves op (List.mem_append_right _ (List.mem_singleton_self _)) he hcs (ih ?_)
    exact fun op hop => hevolves op (List.mem_append_left _ hop)
  | @opened _ _ m _ file ih => exact helsewhere _ m.swap.device _ (ih hevolves)
  | @closed _ _ m _ file _ ih => exact helsewhere _ m.swap.device _ (ih hevolves)
  | moved h hopen hfile hp ih =>
    obtain ⟨ps, hps⟩ := h.balanced
    rw [((updateHandle_accounted (.of_balanced hps _) hopen hfile).of_ok hp).2]
    exact ih hevolves
  | elsewhere _ device files _ _ ih => exact helsewhere _ device files (ih hevolves)

theorem plain (h : HandleRuns (Machine.start count device policy files) ops outside m) :
    m.memory.Plain := by
  refine h.keeps (I := Memory.Plain) ?_ ?_ ?_
  · intro s va e he
    rw [(Machine.start_spaceless ..).2] at he
    cases he
  · exact fun _ _ _ _ _ he _ hv => hv.evolves he
  · exact fun _ _ _ hv => hv

/-- Processes alone refuse no mapping. -/
theorem roomy (h : HandleRuns (Machine.start count device policy files) ops outside m)
    (hcount : count ≤ PageTableEntry.frameLimit) (hops : ∀ op ∈ ops, op.AtUser) : m.memory.Roomy := by
  refine h.keeps (I := Memory.Roomy) (Machine.roomy_start _ _ _ _ hcount) ?_ ?_
  · exact fun op hop _ _ _ he hcs hv => hv.evolves (hcs (hops op hop)) he
  · exact fun _ _ _ hv => ⟨hv.size, hv.willing, hv.user⟩

end HandleRuns

/-! ## What is left of a failed fork -/

variable {count : Nat} {device : Device} {policy : π} {files : FileStore} {ops : List Operation}
  {outside : Nat → Nat}

/-- Whatever error a fork ends with, and wherever it strikes, the machine is as it was before. The
parent may have lost the right to write to pages that it could write. The next write to such a page
succeeds in place, in a space that grants every mapping, as those of processes do. -/
theorem failed_fork_restores (h : HandleRuns (Machine.start count device policy files) ops outside m)
    (hs : s < m.spaces.size) {childPid : Nat} {e : MemoryError}
    (hfork : fork s childPid m = .ok (.error e) after) :
    m.Restored s after ∧ ((m.space s).Willing → ∀ addr bytes,
      (m.space s).directory.isWritable addr = true →
      (after.space s).directory.isWritable addr = false →
      bytes ≠ [] → bytes.length ≤ pageSize - pageOffset addr →
      ∃ n final, (m.space s).directory.frame? addr = some n ∧
        writeUser s addr bytes after = .ok (.ok ⟨⟩) final ∧
        after.WroteInPlace s addr bytes n final) := by
  obtain ⟨ps, hps⟩ := h.balanced
  have hrestored := (fork_restores hps.valid h.plain hs childPid).of_error hfork
  have hsimilar := (fork_similar hps.valid childPid).of_error hfork
  have haccounted : after.Accounted outside ps none := (fork_accounted hps s childPid).of_error hfork
  have hbalanced := haccounted.balanced
  rw [hsimilar.processes, hps.processes] at hbalanced
  have hhandles := hps.handles_eq hbalanced hrestored.pages hsimilar.files
  refine ⟨?_, fun hwilling addr bytes hbefore hafter hne hfit => ?_⟩
  · exact
      { tables := Machine.tables_eq hrestored.pages
        entries := fun t va => (hrestored.entries t va).imp id fun ⟨ht, _, heq⟩ => ⟨ht, heq⟩
        frames := Machine.frames_eq (congrArg (·.2.1) hrestored.limits :) hrestored.frames
        policy := hrestored.policy
        slots := hrestored.used
        held := hrestored.held
        files := FileStore.eq_of_nodes hhandles hrestored.contents hrestored.transfers
        processes := hsimilar.processes }
  · obtain ⟨e₀, hentry, hwritable⟩ : ∃ e₀, m.memory.entries s (pageDown addr) = some e₀ ∧
        e₀.has .writable = true := by
      simpa [PageDirectory.isWritable, PageDirectory.has, Machine.entry?_eq, Option.any_eq_true]
        using hbefore
    rcases hrestored.entries s (pageDown addr) with hsame | ⟨-, huser, hguarded⟩
    · rw [PageDirectory.isWritable, PageDirectory.has, Machine.entry?_eq, hsame, hentry, Option.any_some,
        hwritable] at hafter
      cases hafter
    · obtain ⟨p, hp, hf⟩ := hps.valid.sound.mapped hentry
      obtain ⟨hw, halone⟩ := hps.valid.sound.exclusive hentry hwritable hp
      have hprotected : after.memory.Protected s (pageDown addr) e₀.frame e₀.guarded :=
        { resident := ⟨p, by rw [hrestored.pages, hp], hf, hw⟩
          alone := by rw [hrestored.frames, halone]
          entry := by rw [hguarded, hentry, Option.map_some]
          readonly := by simp [PageTableEntry.guarded, PageTableEntry.has_put]
          user := huser
          willing := by
            rw [show after.memory.willing = m.memory.willing from congrArg (·.2.2) hrestored.limits]
            exact hwilling }
      obtain ⟨_, final, hok, record, hmemory⟩ :=
        (writeUser_in_place hbalanced.valid hprotected hne hfit).succeeds
      refine ⟨e₀.frame, final, ?_, hok, Machine.wroteInPlace e₀.frame_lt hmemory⟩
      rw [PageDirectory.frame?, Machine.entry?_eq, hentry, Option.map_some]

/-- With a single frame and a single slot, a fork shares the page that is in the frame and fails at the
one that is in the slot. The next write to the first page is in place. -/
theorem failed_fork_restores_when_swap_is_full : ∃ ops outside, ∃ m after final : Machine Fifo, ∃ e n,
    HandleRuns (.start 1 { name := "swap", kind := .swap, size := 8, disk := .zeroed 8 } {} {}) ops
      outside m ∧
    0 < m.spaces.size ∧ fork 0 2 m = .ok (.error e) after ∧ (m.space 0).Willing ∧
    (m.space 0).directory.isWritable 4096 = true ∧ (after.space 0).directory.isWritable 4096 = false ∧
    m.Restored 0 after ∧ writeUser 0 4096 [9] after = .ok (.ok ⟨⟩) final ∧
    after.WroteInPlace 0 4096 [9] n final := by
  let first : Machine Fifo := .start 1 { name := "swap", kind := .swap, size := 8, disk := .zeroed 8 } {} {}
  have hstart : HandleRuns first [] first.files.handles first := .start
  let check (m : Machine Fifo) : Bool := match fork 0 2 m with
    | .ok (.error _) after => decide (0 < m.spaces.size) && (m.space 0).directory.isWritable 4096 &&
      !(after.space 0).directory.isWritable 4096
    | _ => false
  let ops : List Operation := [.createProcess 1, .insert 0 8192 true (.anonymous .zeroed none),
    .insert 0 4096 true (.anonymous .zeroed none), .writeUser 0 8192 [8], .writeUser 0 4096 [7]]
  obtain ⟨outside, m, hrun, hcheck⟩ := hstart.of_handled ops (fun _ => check) (by decide +kernel)
  cases hfork : fork 0 2 m with
  | error a after => simp [check, hfork] at hcheck
  | ok answer after =>
    cases answer with
    | ok child => simp [check, hfork] at hcheck
    | error e =>
      simp only [check, hfork, Bool.and_eq_true, decide_eq_true_eq, Bool.not_eq_true'] at hcheck
      obtain ⟨⟨hpos, hbefore⟩, hafter⟩ := hcheck
      have hwilling : (m.space 0).Willing := (hrun.roomy (by decide) (by decide)).willing 0
      obtain ⟨hrestored, hwrite⟩ := failed_fork_restores hrun hpos hfork
      obtain ⟨n, final, -, hok, hplace⟩ := hwrite hwilling 4096 [9] hbefore hafter (by simp) (by decide)
      exact ⟨_, outside, m, after, final, e, n, hrun, hpos, hfork, hwilling, hbefore, hafter, hrestored,
        hok, hplace⟩

end DemandPaging
