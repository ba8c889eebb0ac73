import DemandPaging.Proofs.FailedCopies
import DemandPaging.Proofs.Turnover

/-! # Forks that succeed

A fork that succeeds has made a page of the child for every page of the parent. The two are in one frame
or have a slot each, and each holds a handle of its own. Frames are shared on the way, but none is taken
and none is cleared.
-/
namespace DemandPaging
open Memory (Lent)

variable {π : Type} {s c : Nat} {pages : List Page} {page : Page}

namespace Backing.Copied
variable {before after before' after' : SwapSpace} {backing copy : Backing}

/-- What is copied in a part of a course is copied in the whole, if slots keep what they hold. -/
theorem widen (h : backing.Copied before after copy) (hfresh : ∀ k, before'.Used k → before.Used k)
    (hold : ∀ k, backing.slot? = some k → before.held k = before'.held k)
    (hnew : ∀ k, after.Used k → after'.Used k ∧ after'.held k = after.held k) :
    backing.Copied before' after' copy := by
  cases h with
  | same hnone => exact .same hnone
  | @slot source slot k hfree hused hheld =>
    obtain ⟨hused', hheld'⟩ := hnew k hused
    exact .slot (fun hk => hfree (hfresh k hk)) hused' (hheld'.trans (hheld.trans (hold slot rfl)))

theorem isSome_slot (h : backing.Copied before after copy) : copy.slot?.isSome = backing.slot?.isSome := by
  cases h <;> rfl

end Backing.Copied

namespace Memory
variable {u v w : Memory π}

/-- From `v` to `w` these pages were doubled in space `c`, each with a slot of its own for the one that it
had. Pages and slots that there were before are as they were. -/
structure Doubled (c : Nat) (pages : List Page) (v w : Memory π) : Prop where
  kept : ∀ {a q}, v.pages c a = some q → w.pages c a = some q
  fresh : ∀ p ∈ pages, v.pages c p.va = none
  twin : ∀ p ∈ pages, ∃ serial backing, w.pages c p.va = some { p with serial, backing } ∧
    p.backing.Copied v.swap w.swap backing
  origin : ∀ {a q}, w.pages c a = some q → v.pages c a = some q ∨ ∃ p ∈ pages, p.va = a
  nodup : (pages.map (·.va)).Nodup
  slots : ∀ k, v.swap.Used k → w.swap.Used k ∧ w.swap.held k = v.swap.held k
  slotsInUse : w.swap.slotsInUse = v.swap.slotsInUse + pages.countP (·.backing.slot?.isSome)

namespace Doubled

theorem of_spared (h : v.Spared w) : Doubled c [] v w := by
  obtain ⟨hsame, -, hswap, -, -⟩ := h
  have hspills : v.swap.Spills none w.swap := ⟨fun k => by simp [hswap.used], nofun, hswap.held⟩
  have hpages : w.pages = v.pages := by rw [hsame]
  refine
    { kept := fun hq => hpages ▸ hq
      fresh := List.forall_mem_nil _
      twin := List.forall_mem_nil _
      origin := fun hq => .inl (hpages ▸ hq)
      nodup := List.nodup_nil
      slots := fun k hk => ⟨(hswap.used k).mpr hk, hswap.held k hk⟩
      slotsInUse := hspills.slotsInUse_eq }

/-- One page is copied, and then the others. -/
theorem cons [ReplacementPolicy π] (ha : v.Alters (.copy s c page) u) (hv : v.Valid)
    (hpages : ∀ p ∈ page :: pages, v.pages s p.va = some p) (h : Doubled c pages u w) :
    Doubled c (page :: pages) v w := by
  cases ha with
  | @copy _ _ _ backing swap hp hdst hd hfit hb =>
    obtain ⟨hspills, hcopied⟩ := hb.spills hv.stowed.fits fun slot => hv.slot_lt hp slot
    obtain ⟨hkept, hfresh, htwin, horigin, hnodup, hslots, hslotsInUse⟩ := h
    rw [swap_adopt] at htwin hslots hslotsInUse
    have hat (a : Nat) : (v.adopt s c page backing swap).pages c a =
        if a = page.va then some { page with serial := v.nextSerial, backing } else v.pages c a := by
      rw [pages_adopt, setAt_apply]
      simp
    have hne (p : Page) (hmem : p ∈ pages) : p.va ≠ page.va := by
      intro heq
      have hnone := hfresh p hmem
      rw [hat, if_pos heq] at hnone
      cases hnone
    have hslots' (k : Nat) (hk : v.swap.Used k) : swap.Used k ∧ swap.held k = v.swap.held k :=
      ⟨(hspills.used k).mpr (.inl hk), hspills.held k hk⟩
    refine ⟨fun {a q} hq => hkept ?_, ?_, ?_, fun {a q} hq => ?_, ?_, fun k hk => ?_, ?_⟩
    · rw [hat, if_neg, hq]
      rintro rfl
      rw [hd] at hq
      cases hq
    · rintro p (_ | ⟨_, hmem⟩)
      · exact hd
      · have hnone := hfresh p hmem
        rwa [hat, if_neg (hne p hmem)] at hnone
    · rintro p (_ | ⟨_, hmem⟩)
      · refine ⟨v.nextSerial, backing, hkept (by rw [hat, if_pos rfl]), ?_⟩
        exact hcopied.widen (fun _ hk => hk) (fun _ _ => rfl) hslots
      · obtain ⟨serial, copy, hq, hcopy⟩ := htwin p hmem
        have hused (k : Nat) (hk : p.backing.slot? = some k) : v.swap.Used k :=
          hv.used_of_slot (hpages p (List.mem_cons_of_mem _ hmem)) hk
        refine ⟨serial, copy, hq, ?_⟩
        exact hcopy.widen (fun k hk => (hslots' k hk).1) (fun k hk => (hslots' k (hused k hk)).2)
          fun k hk => ⟨hk, rfl⟩
    · rcases horigin hq with hq | ⟨p, hmem, rfl⟩
      · rw [hat] at hq
        split at hq
        · rename_i ha
          exact .inr ⟨page, List.mem_cons_self .., ha.symm⟩
        · exact .inl hq
      · exact .inr ⟨p, List.mem_cons_of_mem _ hmem, rfl⟩
    · rw [List.map_cons, List.nodup_cons]
      refine ⟨fun hmem => ?_, hnodup⟩
      obtain ⟨p, hmem, heq⟩ := List.mem_map.mp hmem
      exact hne p hmem heq
    · obtain ⟨hused, hheld⟩ := hslots' k hk
      exact ⟨(hslots k hused).1, (hslots k hused).2.trans hheld⟩
    · rw [hslotsInUse, hspills.slotsInUse_eq, hcopied.isSome_slot, List.countP_cons]
      omega

theorem congr {w' : Memory π} (h : Doubled c pages v w) (hpages : w'.pages = w.pages)
    (hswap : w'.swap = w.swap) : Doubled c pages v w' := by
  obtain ⟨hkept, hfresh, htwin, horigin, hnodup, hslots, hslotsInUse⟩ := h
  rw [← hpages] at hkept htwin horigin
  rw [← hswap] at htwin hslots hslotsInUse
  exact ⟨hkept, hfresh, htwin, horigin, hnodup, hslots, hslotsInUse⟩

end Doubled

namespace Lent
variable {a n : Nat} {p q : Page}

/-- A page on loan has made its frame shared by one more. -/
theorem refcount_eq (h : Lent s c v w) (hv : v.Sound) (hw : w.Sound) (hq : w.pages c a = some q)
    (hf : q.frame = some n) : (w.frames n).refcount = (v.frames n).refcount + 1 := by
  have howned := hw.owned hq hf
  have herase : (w.frames n).owners.filter (fun o => o.space != c) =
      (w.frames n).owners.erase ⟨q.serial, c, a⟩ := by
    rw [← hw.filter_owners hq]
    refine List.filter_congr fun o ho => ?_
    have hva : o.va = a := hw.owner_va ho howned
    simp [hva, bne]
  have hlength := List.length_erase_of_mem howned
  rw [← herase, h.owners, ← hv.counted, ← hw.counted] at hlength
  have hpos := (hw.resident_frame hq hf).1
  omega

/-- A frame that no page on loan is in is as it was. -/
theorem frame_eq (h : Lent s c v w) (hv : v.Sound) (hw : w.Sound)
    (hnone : ∀ a q, w.pages c a = some q → q.frame ≠ some n) : w.frames n = v.frames n := by
  refine hv.frame_ext hw ?_ (h.bytes n)
  rw [← h.owners n, eq_comm]
  refine List.filter_eq_self.mpr fun o ho => ?_
  obtain ⟨q, hq, -, hf⟩ := hw.owner ho
  rw [bne_iff_ne]
  rintro rfl
  exact hnone _ q hq hf

/-- No frame is taken or given back. -/
theorem entry_eq (h : Lent s c v w) (hv : v.Sound) (hw : w.Sound) (n : Nat) :
    (w.frames n).entry = (v.frames n).entry := by
  by_cases hshared : ∃ a q, w.pages c a = some q ∧ q.frame = some n
  · obtain ⟨a, q, hq, hf⟩ := hshared
    obtain ⟨p, hp, hpf⟩ := h.shares a q n hq hf
    rw [hw.state, hv.state, if_neg, if_neg]
    · exact Nat.one_le_iff_ne_zero.mp (hv.resident_frame hp hpf).1
    · exact Nat.one_le_iff_ne_zero.mp (hw.resident_frame hq hf).1
  · rw [h.frame_eq hv hw fun a q hq hf => hshared ⟨a, q, hq, hf⟩]

/-- A page and its copy are mapped to their frame for reading alone. The original is as dirty as it was,
and the copy is not. -/
theorem mapped (h : Lent s c v w) (hv : v.Sound) (hw : w.Sound) (hne : s ≠ c) (hnone : v.pages c a = none)
    (hp : v.pages s a = some p) (hf : p.frame = some n) (hq : w.pages c a = some q)
    (hqf : q.frame = some n) : ∃ e₀ e e', v.entries s a = some e₀ ∧ w.entries s a = some e ∧
      w.entries c a = some e' ∧ e.frame = n ∧ e'.frame = n ∧ e.has .writable = false ∧
      e'.has .writable = false ∧ e.has .dirty = e₀.has .dirty ∧ e'.has .dirty = false := by
  have hshared := h.refcount_eq hv hw hq hqf
  have hpos := (hv.resident_frame hp hf).1
  -- A mapping that may be written would be the only one of its frame.
  have hreadonly {t : Nat} {r : Page} {e : PageTableEntry} (hr : w.pages t a = some r)
      (hrf : r.frame = some n) (he : w.entries t a = some e) : e.frame = n ∧ e.has .writable = false := by
    have hframe := hw.frame_eq hr hrf he
    refine ⟨hframe, Bool.eq_false_iff.mpr fun hwritable => ?_⟩
    have hone := (hw.exclusive he hwritable hr).2
    rw [hframe] at hone
    omega
  have hp' : w.pages s a = some p := (h.pages s a hne).trans hp
  obtain ⟨e₀, he₀⟩ := Option.isSome_iff_exists.mp (hv.resident hp hf)
  obtain ⟨e, he⟩ := Option.isSome_iff_exists.mp (hw.resident hp' hf)
  obtain ⟨e', he'⟩ := Option.isSome_iff_exists.mp (hw.resident hq hqf)
  obtain ⟨hframe, hwritable⟩ := hreadonly hp' hf he
  obtain ⟨hframe', hwritable'⟩ := hreadonly hq hqf he'
  refine ⟨e₀, e, e', he₀, he, he', hframe, hframe', hwritable, hwritable', ?_, ?_⟩
  · rcases h.entries s a hne with hsame | ⟨-, -, hguarded⟩
    · rw [hsame, he₀] at he
      rw [Option.some.inj he]
    · rw [hguarded, he₀] at he
      rw [← Option.some.inj he]
      simp [PageTableEntry.guarded, PageTableEntry.has_put]
  · refine Bool.eq_false_iff.mpr fun hdirty => ?_
    obtain ⟨e₁, he₁, -⟩ := h.dirty c a ⟨e', he', hdirty⟩
    rw [hv.unmapped hnone] at he₁
    cases he₁

end Lent
end Memory

variable [ReplacementPolicy π] {m after : Machine π}

namespace Machine.Copies

theorem doubled (h : Copies s c pages m after) (hv : m.memory.Valid) (hne : s ≠ c)
    (hpages : ∀ p ∈ pages, m.memory.pages s p.va = some p) :
    Memory.Doubled c pages m.memory after.memory := by
  induction h with
  | done hspared => exact .of_spared hspared
  | @copy pages page m m₁ after ha _ _ _ ih =>
    refine .cons ha hv hpages (ih (hv.evolves (.of_change ha)) fun p hp => ?_)
    rw [ha.of_copy.1 _ _ fun hat => hne hat.1]
    exact hpages p (List.mem_cons_of_mem _ hp)

/-- Each copy has taken a handle of its own. -/
theorem handles (h : Copies s c pages m after) (f : Nat) : after.standing.handles f =
    (m.standing.handles f).map (· + pages.countP fun p => decide (p.source.file = some f)) := by
  induction h with
  | done _ hst => simp [hst]
  | @copy pages page m m₁ after _ _ hst _ ih =>
    rw [ih, hst, Standing.retain, List.countP_cons]
    by_cases hfile : page.source.file = some f
    · cases hn : m.standing.handles f <;> simp [hn, hfile, Nat.add_assoc, Nat.add_comm 1]
    · simp [hfile]

end Machine.Copies

/-- Page `q` of space `child` is a copy of page `p` of space `s`, both of them at `va`. -/
structure Machine.Twins (s child va : Nat) (p q : Page) (m after : Machine π) : Prop where
  address : q.va = p.va
  writable : q.writable = p.writable
  frame : q.frame = p.frame
  /-- The two are of one kind, with the same file, offset, number of bytes and link. If the parent's page
  is in swap the child's is in another slot, with the same bytes. -/
  backing : p.backing.Copied m.swap after.swap q.backing
  counted : ∀ n, p.frame = some n → (after.frames.frame n).refcount = (m.frames.frame n).refcount + 1
  original : ∀ n, p.frame = some n → (after.space s).directory.frame? va = some n ∧
    (after.space s).directory.isWritable va = false ∧
    (after.space s).directory.isDirty va = (m.space s).directory.isDirty va
  copy : ∀ n, p.frame = some n → (after.space child).directory.frame? va = some n ∧
    (after.space child).directory.isWritable va = false ∧ (after.space child).directory.isDirty va = false

/-- All that a fork does that has made `child`, with process number `pid`, out of process `s`. -/
structure Machine.Forked (s child pid : Nat) (m after : Machine π) : Prop where
  /-- The child has a page wherever its parent has one, and nowhere else. -/
  addresses : ∀ va : Nat, va ∈ (after.space child).pages ↔ va ∈ (m.space s).pages
  twins : ∀ (va : Nat) p, (m.space s).pages[va]? = some p →
    ∃ q, (after.space child).pages[va]? = some q ∧ m.Twins s child va p q after
  tables : ∀ t, t ≠ child → (after.space t).pages = (m.space t).pages
  mappings : ∀ t, t ≠ s → t ≠ child → (after.space t).directory = (m.space t).directory
  /-- No frame was taken, and no page was put out of one. -/
  turnover : after.turnover = m.turnover
  frames : after.frames.size = m.frames.size ∧ after.frames.policy = m.frames.policy ∧
    ∀ n, (after.frames.frame n).entry = (m.frames.frame n).entry ∧
      (after.frames.frame n).contents = (m.frames.frame n).contents
  unshared : ∀ n, (∀ (va : Nat) p, (m.space s).pages[va]? = some p → p.frame ≠ some n) →
    after.frames.frame n = m.frames.frame n
  slots : ∀ k, m.swap.Used k → after.swap.Used k ∧ after.swap.held k = m.swap.held k
  slotsInUse : after.swap.slotsInUse =
    m.swap.slotsInUse + (m.space s).pages.values.countP (·.backing.slot?.isSome)
  /-- Each page with a file has a copy with a handle of its own, and so has each descriptor. -/
  handles : ∀ f, after.files.handles? f = (m.files.handles? f).map fun n =>
    n + (m.space s).pages.values.countP (fun p => decide (p.source.file = some f)) +
      (m.process s).descriptors.openOn f
  contents : ∀ f, (after.files.node f).contents = (m.files.node f).contents
  processes : after.spaces.toList.map (·.process) = m.spaces.toList.map (·.process) ++
    [{ pid, esp := (m.process s).esp, descriptors := (m.process s).descriptors }]
  /-- A transfer through a descriptor of one of the two moves the cursor of that one alone. -/
  independent : ∀ t u, (t, u) = (s, child) ∨ (t, u) = (child, s) → ∀ fd handle moved,
    updateHandle t fd handle after = .ok ⟨⟩ moved → moved.process u = after.process u

omit [ReplacementPolicy π] in
/-- The descriptors of the parent are opened once more for the child. -/
theorem inheritDescriptors_inherits : Run.Ends False (inheritDescriptors s c) m fun _ after =>
    m.memory.Spared after.memory ∧ after.memory.swap = m.memory.swap ∧
    after.standing.processes = m.standing.processes.modify c
      (fun p => { p with descriptors := (m.process s).descriptors }) ∧
    ∀ f, after.standing.handles f = (m.standing.handles f).map (· + (m.process s).descriptors.openOn f) := by
  simp only [inheritDescriptors, Run.ends_modify]
  rw [Machine.memory_modifyProcess, Machine.standing_modifyProcess]
  refine ⟨⟨rfl, Nat.le_refl _, .refl _, fun f => ?_, fun f => ?_⟩, rfl, rfl, fun f => ?_⟩
  · exact FileStore.contents_foldl _ (fun _ _ _ => FileStore.contents_retain ..) _ _ f
  · exact FileStore.transferLimits_foldl _ (fun _ _ _ => FileStore.transferLimits_retain) _ _ f
  · exact FileStore.handles?_foldl_retain ..

/-- A fork that succeeds takes no frame and clears none. -/
theorem fork_turnover (s childPid : Nat) : Attempt.Ends True (fork s childPid) m
    (fun _ after => after.turnover = m.turnover) fun _ _ => True := by
  have hkeep : Machine.Indifferent fun m' : Machine π => m'.turnover = m.turnover :=
    ⟨fun hm h => h.turnover.trans hm⟩
  simp only [fork, Attempt.ends_bind, Attempt.ends_get, Attempt.ends_modify, Attempt.ends_tryCatch,
    Attempt.ends_lift, Attempt.ends_throw, Attempt.ends_pure]
  have hspawned : (m.withChild s childPid).turnover = m.turnover := rfl
  refine ((copySpace_indifferent hkeep s m.spaces.size).ends _ hspawned).imp ?_ ?_
  · intro _ m₁ h₁
    simp only [inheritDescriptors, Run.ends_modify]
    exact (Machine.turnover_report rfl).trans h₁
  · exact fun _ _ _ => Run.ends_true

omit [ReplacementPolicy π] in
theorem updateHandle_elsewhere {t u : Nat} (hne : u ≠ t) (fd : Int) (handle : Handle) :
    Run.Ends False (updateHandle t fd handle) m fun _ after => after.process u = m.process u := by
  simp only [updateHandle, Run.ends_modify]
  rw [Machine.process, Machine.modifyProcess, Machine.space_modifySpace, if_neg fun hat => hne hat.1]
  rfl

/-- To copy pages changes no process. The child has the stack pointer and the descriptors of its parent. -/
theorem Machine.Copies.inherited {pages : List Page} {pid : Nat} {copied inherited : Machine π}
    (h : Copies s m.spaces.size pages (m.withChild s pid) copied) (hs : s < m.spaces.size)
    (hinherited : inheritDescriptors s m.spaces.size copied = .ok ⟨⟩ inherited) :
    copied.process s = m.process s ∧ inherited.standing.processes = m.standing.processes ++
      [{ pid, esp := (m.process s).esp, descriptors := (m.process s).descriptors }] := by
  have hstanding : copied.standing.processes = m.standing.processes ++
      [{ pid, esp := (m.process s).esp }] := by
    rw [h.similar.processes, Machine.withChild, Machine.standing_addSpace]
  have hlength := m.length_processes
  have hparent : copied.process s = m.process s := by
    have hp := List.getElem?_eq_getElem (hlength ▸ hs : s < m.standing.processes.length)
    rw [Machine.process_eq hp, Machine.process_eq]
    rw [hstanding, List.getElem?_append_left (hlength ▸ hs), hp]
  refine ⟨hparent, ?_⟩
  rw [(inheritDescriptors_inherits.of_ok hinherited).2.2.1, hstanding, hparent, ← hlength,
    List.modify_eq_take_drop]
  simp

/-- The pages of process `s` are on loan to a child that has its number, its stack pointer and its
descriptors. -/
structure Machine.Begets (s pid : Nat) (pages : List Page) (m after : Machine π) : Prop where
  lent : Lent s m.spaces.size (m.withChild s pid).memory after.memory
  doubled : Memory.Doubled m.spaces.size pages (m.withChild s pid).memory after.memory
  valid : after.memory.Valid
  all : ∀ p, p ∈ pages ↔ m.memory.pages s p.va = some p
  processes : after.standing.processes = m.standing.processes ++
    [{ pid, esp := (m.process s).esp, descriptors := (m.process s).descriptors }]
  handles : ∀ f, after.standing.handles f = (m.standing.handles f).map fun n =>
    n + pages.countP (fun p => decide (p.source.file = some f)) + (m.process s).descriptors.openOn f

theorem fork_begets (h : m.memory.Valid) (hplain : m.memory.Plain) (hs : s < m.spaces.size)
    (childPid : Nat) : Attempt.Ends False (fork s childPid) m
      (fun answer after => answer = m.spaces.size ∧ ∃ pages, m.Begets s childPid pages after)
      fun _ _ => True := by
  refine (fork_steps h childPid).imp ?_ fun _ _ _ => trivial
  rintro answer after ⟨rfl, pages, copied, inherited, hall, hcopies, hinherited, event, rfl⟩
  obtain ⟨hspared, hswap, -, hopen⟩ := inheritDescriptors_inherits.of_ok hinherited
  obtain ⟨hparent, hprocesses⟩ := hcopies.inherited hs hinherited
  have halters := Machine.alters_withChild m s childPid
  have hv := h.evolves (.of_change halters)
  have hcopied := hv.course hcopies.quiet
  have hnone := Machine.pages_withChild m s childPid
  have hne : s ≠ m.spaces.size := Nat.ne_of_lt hs
  have hin (p : Page) (hp : p ∈ pages) : (m.withChild s childPid).memory.pages s p.va = some p :=
    halters.of_spawn.2 ▸ (hall p).mp hp
  have hlent := hcopies.lent (.refl hv hnone) hv (hplain.evolves (.of_change halters)) hnone hne hv
  refine ⟨rfl, pages,
    { lent := hlent.spared (fun k hk => hlent.used hv hcopied hnone hk) hspared
      doubled := (hcopies.doubled hv hne hin).congr (by rw [Machine.memory_report, hspared.same]) hswap
      valid := hcopied.course hspared.rests
      all := hall
      processes := hprocesses
      handles := fun f => ?_ }⟩
  have hcount := (hopen f).trans (congrArg _ (hcopies.handles f))
  rwa [hparent, Option.map_map] at hcount

namespace Machine.Begets
variable {pid : Nat}

/-- Every page of the parent has a twin. -/
theorem exists_twin (hb : m.Begets s pid pages after) (h : m.memory.Valid) (hs : s < m.spaces.size)
    {p : Page} (hp : m.memory.pages s p.va = some p) :
    ∃ q, after.memory.pages m.spaces.size p.va = some q ∧ m.Twins s m.spaces.size p.va p q after := by
  have halters := alters_withChild m s pid
  have hv := h.evolves (.of_change halters)
  have hp' : (m.withChild s pid).memory.pages s p.va = some p := halters.of_spawn.2 ▸ hp
  have hva : pageDown p.va = p.va := pageDown_eq_self (h.sound.kept hp).2.1
  obtain ⟨serial, backing, hq, hcopied⟩ := hb.doubled.twin p ((hb.all p).mpr hp)
  have hmapped (n : Nat) (hf : p.frame = some n) := hb.lent.mapped hv.sound hb.valid.sound (Nat.ne_of_lt hs)
    (pages_withChild m s pid p.va) hp' hf hq hf
  refine ⟨_, hq, rfl, rfl, rfl, hcopied, fun n hf => ?_, fun n hf => ?_, fun n hf => ?_⟩
  · exact hb.lent.refcount_eq hv.sound hb.valid.sound hq hf
  · obtain ⟨e₀, e, -, he₀, he, -, hframe, -, hwritable, -, hdirty, -⟩ := hmapped n hf
    rw [halters.of_spawned] at he₀
    have he₀ : m.memory.entries s p.va = some e₀ := he₀
    simp [PageDirectory.frame?, PageDirectory.isWritable, PageDirectory.isDirty, PageDirectory.has, entry?_eq,
      hva, he₀, he, hframe, hwritable, hdirty]
  · obtain ⟨-, -, e', -, -, he', -, hframe, -, hwritable, -, hdirty⟩ := hmapped n hf
    simp [PageDirectory.frame?, PageDirectory.isWritable, PageDirectory.isDirty, PageDirectory.has, entry?_eq,
      hva, he', hframe, hwritable, hdirty]

/-- The child has pages where the parent has, and nowhere else. -/
theorem isSome_iff (hb : m.Begets s pid pages after) (h : m.memory.Valid) (hs : s < m.spaces.size)
    (va : Nat) : (after.memory.pages m.spaces.size va).isSome ↔ (m.memory.pages s va).isSome := by
  simp only [Option.isSome_iff_exists]
  constructor
  · rintro ⟨q, hq⟩
    rcases hb.doubled.origin hq with hq | ⟨p, hp, rfl⟩
    · rw [pages_withChild] at hq
      cases hq
    · exact ⟨p, (hb.all p).mp hp⟩
  · rintro ⟨p, hp⟩
    obtain rfl := (h.sound.kept hp).1
    obtain ⟨q, hq, -⟩ := hb.exists_twin h hs hp
    exact ⟨q, hq⟩

omit [ReplacementPolicy π] in
/-- The parent's pages are those that were copied, each of them once. -/
theorem perm (hb : m.Begets s pid pages after) (h : m.memory.Valid) : pages.Perm (m.space s).pages.values := by
  refine (List.perm_ext_iff_of_nodup (.of_map _ hb.doubled.nodup) (nodup_values s h.sound)).mpr fun p => ?_
  exact (hb.all p).trans (mem_values h.sound).symm

theorem forked (hb : m.Begets s pid pages after) (h : m.memory.Valid) (hs : s < m.spaces.size)
    (hturnover : after.turnover = m.turnover) : m.Forked s m.spaces.size pid after := by
  have halters := alters_withChild m s pid
  have hv := (h.evolves (.of_change halters)).sound
  have hw := hb.valid.sound
  have hpages : (m.withChild s pid).memory.pages = m.memory.pages := halters.of_spawn.2
  refine
    { addresses := fun va => ?_
      twins := fun va p hp => ?_
      tables := fun t ht => ?_
      mappings := fun t hts htc => ?_
      turnover := hturnover
      frames := ⟨(congrArg (·.2.1) hb.lent.limits :), hb.lent.policy, fun n => ⟨?_, hb.lent.bytes n⟩⟩
      unshared := fun n hn => ?_
      slots := hb.doubled.slots
      slotsInUse := ?_
      handles := fun f => ?_
      contents := hb.lent.contents
      processes := hb.processes
      independent := ?_ }
  · rw [Std.ExtTreeMap.mem_iff_isSome_getElem?, Std.ExtTreeMap.mem_iff_isSome_getElem?]
    exact hb.isSome_iff h hs va
  · obtain rfl := (h.sound.kept hp).1
    exact hb.exists_twin h hs hp
  · refine Std.ExtTreeMap.ext_getElem? fun a => (hb.lent.pages t a ht).trans ?_
    rw [hpages]
    rfl
  · refine congrArg PageDirectory.mk (Std.ExtTreeMap.ext_getElem? fun a => ?_)
    rcases hb.lent.entries t a htc with hsame | ⟨rfl, -⟩
    · exact hsame.trans (by rw [halters.of_spawned]; rfl)
    · exact absurd rfl hts
  · exact hb.lent.entry_eq hv hw n
  · refine hb.lent.frame_eq hv hw fun a q hq hf => ?_
    obtain ⟨p, hp, hpf⟩ := hb.lent.shares a q n hq hf
    rw [hpages] at hp
    exact hn a p hp hpf
  · rw [← (hb.perm h).countP_eq]
    exact hb.doubled.slotsInUse
  · rw [← (hb.perm h).countP_eq]
    exact hb.handles f
  · rintro t u htu fd handle moved hmoved
    refine (updateHandle_elsewhere ?_ fd handle).of_ok hmoved
    have hne := Nat.ne_of_lt hs
    rcases htu with htu | htu <;> cases htu
    · exact hne.symm
    · exact hne

end Machine.Begets

variable {count : Nat} {device : Device} {policy : π} {files : FileStore} {ops : List Operation}
  {outside : Nat → Nat}

/-- A fork that succeeds answers the number of a child that has all that its parent has. -/
theorem fork_shares_everything (h : HandleRuns (Machine.start count device policy files) ops outside m)
    (hs : s < m.spaces.size) {childPid child : Nat} (hfork : fork s childPid m = .ok (.ok child) after) :
    child = m.spaces.size ∧ m.Forked s child childPid after := by
  obtain ⟨ps, hps⟩ := h.balanced
  obtain ⟨rfl, pages, hb⟩ := (fork_begets hps.valid h.plain hs childPid).of_ok hfork
  exact ⟨rfl, hb.forked hps.valid hs ((fork_turnover s childPid).of_ok hfork)⟩

/-- A process with an open file forks. One of its pages is in swap, one is in a frame, and one is the file's
own and written to. -/
theorem fork_shares_swapped_and_mapped : ∃ ops outside, ∃ m after : Machine Fifo, ∃ child,
    HandleRuns (.start 2 { name := "swap", kind := .swap, size := 16, disk := .zeroed 16 } {}
      { nodes := #[{ contents := [1, 2, 3], handles := 2 }] }) ops outside m ∧
    0 < m.spaces.size ∧ fork 0 2 m = .ok (.ok child) after ∧
    (m.page? 0 8192).any (·.backing.slot? == some 0) = true ∧
    (m.space 0).directory.isWritable 4096 = true ∧ (m.space 0).directory.isDirty 65536 = true ∧
    child = m.spaces.size ∧ m.Forked 0 child 2 after := by
  let first : Machine Fifo := .start 2 { name := "swap", kind := .swap, size := 16, disk := .zeroed 16 } {}
    { nodes := #[{ contents := [1, 2, 3], handles := 2 }] }
  let alone : Machine Fifo := first.addSpace { process := { pid := 1 } }
  have hcreate : (Operation.createProcess 1).perform first = .ok (.space 0) alone := rfl
  have hopen : (Operation.openFile 0 { file := 0 }).perform alone = .ok (.descriptor 3) _ :=
    Operation.perform_openFile Descriptors.next?_empty
  have hstart : HandleRuns first [] first.files.handles first := .start
  have hbefore := (hstart.perform (by decide +kernel) (by decide +kernel) hcreate).perform
    (by decide +kernel) (by decide +kernel) hopen
  let check (m : Machine Fifo) : Bool := match fork 0 2 m with
    | .ok (.ok _) _ => decide (0 < m.spaces.size) && (m.page? 0 8192).any (·.backing.slot? == some 0) &&
      (m.space 0).directory.isWritable 4096 && (m.space 0).directory.isDirty 65536
    | _ => false
  obtain ⟨outside, m, hrun, hcheck⟩ := hbefore.of_handled
    [.insert 0 8192 true (.anonymous .zeroed none), .insert 0 4096 true (.anonymous .zeroed none),
      .map 0 65536 3 true 0 0, .writeUser 0 8192 [8], .writeUser 0 4096 [7], .writeUser 0 65536 [9]]
    (fun _ => check) (by decide +kernel)
  cases hfork : fork 0 2 m with
  | error a after => simp [check, hfork] at hcheck
  | ok answer after =>
    cases answer with
    | error e => simp [check, hfork] at hcheck
    | ok child =>
      simp only [check, hfork, Bool.and_eq_true, decide_eq_true_eq] at hcheck
      obtain ⟨⟨⟨hpos, hslot⟩, hwritable⟩, hdirty⟩ := hcheck
      obtain ⟨hchild, hforked⟩ := fork_shares_everything hrun hpos hfork
      exact ⟨_, outside, m, after, child, hrun, hpos, hfork, hslot, hwritable, hdirty, hchild, hforked⟩

end DemandPaging
