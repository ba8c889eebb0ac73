import DemandPaging.Proofs.Processes

/-! # Operations and runs

All that can be asked of a machine, by processes and of bare tables of pages, and what each request
comes to in memory. A run is any number of requests one after the other. An invariant that paging
and the changes of each request keep holds after every run.
-/
namespace DemandPaging
open Memory (Change)

inductive Operation where
  | createProcess (pid : Nat)
  /-- A table of pages over a space that may refuse mappings. -/
  | createTable (admission : Admission) (recordsAccess : Bool)
  | setStackPointer (s esp : Nat)
  /-- Adds a page that nobody has used yet. -/
  | insert (s va : Nat) (writable : Bool) (backing : Backing)
  | load (s : Nat) (h : Handle)
  | openFile (s : Nat) (h : Handle)
  | closeFile (s : Nat) (fd : Int)
  | map (s addr length : Nat) (writable : Bool) (file offset : Nat)
  | unmap (s addr : Nat)
  | pageFault (s : Nat) (fault : PageFault) (userEsp : Nat)
  | readUser (s addr count : Nat)
  | writeUser (s addr : Nat) (bytes : List UInt8)
  | fork (s childPid : Nat)
  | exit (s : Nat)
  | claim (s va : Nat)
  | resolveFault (s : Nat) (fault : PageFault) (esp : Nat)
  | copyFrom (s esp addr count : Nat)
  | copyTo (s esp addr : Nat) (bytes : List UInt8)
  | remove (s va : Nat)
  | copyTable (src dst : Nat)
  | kill (s : Nat)
  /-- Evicts frame `n`, if it may be evicted. -/
  | evict (n : Nat)

/-- What comes back. -/
inductive Reply where
  | done
  | space (s : Nat)
  | descriptor (fd : Int)
  | flag (answer : Bool)
  | address (addr : Nat)
  | loaded (answer : Except LoadError Nat)
  | read (bytes : List UInt8) (failure : Option MemoryError)
  | failed (e : MemoryError)
deriving DecidableEq

namespace Memory.Change
variable {s addr k : Nat} {bytes : List UInt8} {c : Change}

/-- Of the bytes that go to `addr` on some are written to one page, at their place there. -/
def Puts (s addr : Nat) (bytes : List UInt8) (c : Change) : Prop :=
  ∃ i < bytes.length, ∃ chunk, chunk <+: bytes.drop i ∧
    c = .write s (pageDown (addr + i)) (pageOffset (addr + i)) chunk

theorem Puts.first {chunk : List UInt8} (hpos : 0 < chunk.length) (h : chunk <+: bytes) :
    Puts s addr bytes (.write s (pageDown addr) (pageOffset addr) chunk) :=
  ⟨0, Nat.lt_of_lt_of_le hpos h.length_le, chunk, h, rfl⟩

theorem Puts.later (first : List UInt8) (h : c.Puts s (addr + first.length) bytes) :
    c.Puts s addr (first ++ bytes) := by
  obtain ⟨i, hi, chunk, hchunk, rfl⟩ := h
  refine ⟨first.length + i, by rw [List.length_append]; omega, chunk, ?_, by rw [Nat.add_assoc]⟩
  rwa [List.drop_append, List.drop_eq_nil_of_le (Nat.le_add_right ..), List.nil_append,
    Nat.add_sub_cancel_left]

theorem Puts.of_take (h : c.Puts s addr (bytes.take k)) : c.Puts s addr bytes := by
  obtain ⟨i, hi, chunk, hchunk, rfl⟩ := h
  refine ⟨i, Nat.lt_of_lt_of_le hi (List.length_take_le' k bytes), chunk, ?_, rfl⟩
  rw [List.drop_take] at hchunk
  exact hchunk.trans (List.take_prefix _ _)

end Memory.Change

variable {π : Type} [ReplacementPolicy π]

omit [ReplacementPolicy π] in
/-- A space with a table of pages and no process. -/
def createTable (admission : Admission) (recordsAccess : Bool) : Run π Nat := do
  let s := (← get).spaces.size
  modify (·.addSpace { admission, recordsAccess })
  return s

omit [ReplacementPolicy π] in
/-- Adds a page together with the handle of the file that it is filled from. -/
def insertOwned (s va : Nat) (writable : Bool) (backing : Backing) : Run π Bool := do
  modify (·.retainSource backing.source)
  insertPage s va writable backing

omit [ReplacementPolicy π] in
/-- The reply to an attempt. -/
def answer {α : Type} (reply : α → Reply) (x : Attempt π α) : Run π Reply := do
  match ← x.run with
  | .ok a => return reply a
  | .error e => return .failed e

namespace Operation

def perform : Operation → Run π Reply
  | createProcess pid => .space <$> DemandPaging.createProcess pid
  | createTable admission recordsAccess =>
    .space <$> DemandPaging.createTable admission recordsAccess
  | setStackPointer s esp => (fun _ => .done) <$> saveStackPointer s esp
  | insert s va writable backing => .flag <$> insertOwned s va writable backing
  | load s h => (fun a => .loaded a.2) <$> loadProgram s h
  | openFile s h => .descriptor <$> DemandPaging.openFile s h
  | closeFile s fd => .flag <$> DemandPaging.closeFile s fd
  | map s addr length writable file offset =>
    answer .address (mapFile s addr length writable file offset)
  | unmap s addr => answer (fun _ => .done) (unmapFile s addr)
  | pageFault s fault userEsp => answer (fun _ => .done) (processFault s fault userEsp)
  | readUser s addr count => (fun a => .read a.1 a.2) <$> DemandPaging.readUser s addr count
  | writeUser s addr bytes => answer (fun _ => .done) (DemandPaging.writeUser s addr bytes)
  | fork s childPid => answer .space (DemandPaging.fork s childPid)
  | exit s => (fun _ => .done) <$> DemandPaging.exit s
  | claim s va => answer (fun _ => .done) (DemandPaging.claim s va)
  | resolveFault s fault esp => answer (fun _ => .done) (handleFault s fault esp)
  | copyFrom s esp addr count => (fun a => .read a.1 a.2) <$> copyFromUser s esp addr count
  | copyTo s esp addr bytes => answer (fun _ => .done) (copyToUser s esp addr bytes)
  | remove s va => .flag <$> removePage s va
  | copyTable src dst => answer (fun _ => .done) (copySpace src dst)
  | kill s => (fun _ => .done) <$> emptySpace s
  | evict n => answer .space (evictFirst none [n])

/-- The space that an operation works on. -/
def space? : Operation → Option Nat
  | setStackPointer s _ | insert s _ _ _ | load s _ | openFile s _ | closeFile s _
  | map s _ _ _ _ _ | unmap s _ | pageFault s _ _ | readUser s _ _ | writeUser s _ _ | fork s _
  | exit s | claim s _ | resolveFault s _ _ | copyFrom s _ _ _ | copyTo s _ _ _ | remove s _
  | copyTable _ s | kill s => some s
  | createProcess _ | createTable _ _ | evict _ => none

/-- What is asked is sensible: of a space that there is, pages are inserted as new ones at page
addresses, and tables are copied into empty ones. -/
def Allowed (m : Machine π) (op : Operation) : Prop :=
  (∀ s ∈ op.space?, s < m.spaces.size) ∧
    match op with
    | insert _ va _ backing => va % pageSize = 0 ∧ backing.Fresh
    | copyTable _ dst => (m.space dst).pages.isEmpty
    | _ => True

instance (m : Machine π) (op : Operation) : Decidable (op.Allowed m) :=
  @instDecidableAnd _ _ _ (by split <;> infer_instance)

/-- What there is no answer to: an `openFile` when descriptors have run out, and an `unmap` that goes
on past the last of all addresses. -/
def Stuck (m : Machine π) : Operation → Prop
  | openFile s _ => (m.process s).descriptors.next? = none
  | unmap s _ => ∃ va : Nat, (m.space s).pages[va]?.isSome ∧ wordLimit ≤ va + pageSize
  | _ => False

/-- What an operation comes to in memory. -/
def Comes (v w : Memory π) (reply : Reply) : Operation → Prop
  | createProcess _ => reply = .space v.spaces ∧ Memory.Quiet [.spawn True] v w
  | createTable admission _ => reply = .space v.spaces ∧
    Memory.Quiet [.spawn (∀ asked granted, admission.admits asked granted = true)] v w
  | setStackPointer .. | openFile .. | closeFile .. | claim .. | evict _ => Memory.Rests v w
  | insert s va writable backing =>
    reply = .flag false ∧ Memory.Rests v w ∨ ∃ serial, reply = .flag true ∧
      Memory.Quiet [.insert s { serial, va, writable, backing }] v w
  | load s h => v.Loads s h.file (SegmentPlan.OfImage (v.files.node h.file).contents) w
  | map s addr length writable file offset => ∃ cs, Memory.Quiet cs v w ∧
    (reply = .address addr ∧ addr % pageSize = 0 ∧ offset % pageSize = 0 ∧
      LaidOut s file (v.files.length file) writable addr offset (mappedPages length) cs ∨
      (∃ e, reply = .failed e) ∧ cs = [])
  | unmap s addr => v.Unmaps s (pageDown addr) w ∧
    (reply = .done ∧ (∃ limit k, 0 < k ∧ v.Unchains s (pageDown addr) limit k w) ∨
      (∃ e, reply = .failed e) ∧ w.pages = v.pages)
  | pageFault s fault _ | resolveFault s fault _ =>
    (reply = .done ∧ ∃ cs, Grown s (pageDown fault.addr) cs ∧ Memory.Course (fault.Moves v s) cs v w ∧
      (w.pages s (pageDown fault.addr)).isSome) ∨
      (∃ e, reply = .failed e) ∧ ∃ cs, Undone s (pageDown fault.addr) cs ∧ Memory.Quiet cs v w
  | readUser s addr count | copyFrom s _ addr count => ∃ bytes failure u cs va,
    reply = .read bytes failure ∧ Reads s addr v bytes u ∧ Undone s va cs ∧
      Memory.Quiet cs u w ∧ bytes.length ≤ count ∧ (failure = none → bytes.length = count ∧ cs = [])
  | writeUser s addr bytes | copyTo s _ addr bytes => ∃ k cs us va u,
    Wrote s addr v (bytes.take k) cs u ∧ Undone s va us ∧ Memory.Quiet us u w ∧
      (reply = .done ∧ k = bytes.length ∨ ∃ e, reply = .failed e)
  | fork s _ =>
    (reply = .space v.spaces ∧ ∃ pages : List Page,
      (∀ p, p ∈ pages ↔ v.pages s p.va = some p) ∧
      Memory.Quiet (.spawn True :: pages.map (.copy s v.spaces)) v w) ∨
    (∃ e, reply = .failed e) ∧ w.spaces = v.spaces ∧ ∃ copied removed : List Page, Memory.Quiet
      (.spawn True :: copied.map (.copy s v.spaces) ++ removed.map (.remove v.spaces) ++ [.drop]) v w
  | copyTable src dst => ∃ pages : List Page, Memory.Quiet (pages.map (.copy src dst)) v w ∧
    (∀ va, v.pages dst va = none) ∧
      (reply = .done ∧ (∀ p, p ∈ pages ↔ v.pages src p.va = some p) ∨ ∃ e, reply = .failed e)
  | exit s | kill s => ∃ pages : List Page, Memory.Quiet (pages.map (.remove s)) v w ∧
    ∀ va, w.pages s va = none
  | remove s va => Memory.Rests v w ∧ v.pages s (pageDown va) = none ∨
    ∃ page, v.pages s (pageDown va) = some page ∧ Memory.Quiet [.remove s page] v w

/-- The pages that an operation writes to. -/
def Target : Operation → Nat → Nat → Prop
  | writeUser s addr bytes, t, a | copyTo s _ addr bytes, t, a =>
    t = s ∧ ∃ i < bytes.length, a = pageDown (addr + i)
  | _, _, _ => False

/-- The pages that an operation moves out of a frame that others use, without a write of its own. -/
def Unshares (v : Memory π) : Operation → Nat → Nat → Prop
  | pageFault s fault _, t, a | resolveFault s fault _, t, a => fault.Moves v s t a
  | _, _, _ => False

/-- The pages that an operation may move from one frame to another. -/
def Moves (v : Memory π) (op : Operation) (t a : Nat) : Prop := op.Target t a ∨ op.Unshares v t a

/-- The changes that an operation may come to. -/
def Brings (v : Memory π) : Operation → Change → Prop
  | createProcess _, c => c = .spawn True
  | createTable admission _, c =>
    c = .spawn (∀ asked granted, admission.admits asked granted = true)
  | insert s va writable backing, c => ∃ serial, c = .insert s { serial, va, writable, backing }
  | load s h, c => ∃ page, c = .insert s page ∧ page.va < kernelBase ∧
    page.OfProgram h.file (SegmentPlan.OfImage (v.files.node h.file).contents)
  | map s _ _ _ file _, c => ∃ page source, c = .insert s page ∧ page.va < kernelBase ∧
    page.backing = .uninit .file source ∧ source.file = some file
  | pageFault s _ _, c | resolveFault s _ _, c | readUser s _ _, c | copyFrom s _ _ _, c => c.OfStack s
  | writeUser s addr bytes, c | copyTo s _ addr bytes, c => c.OfStack s ∨ c.Puts s addr bytes
  | fork s _, c => c = .spawn True ∨ (∃ page, c = .copy s v.spaces page) ∨
    (∃ page, c = .remove v.spaces page) ∨ c = .drop
  | copyTable src dst, c => ∃ page, c = .copy src dst page
  | unmap s _, c | exit s, c | kill s, c | remove s _, c => ∃ page, c = .remove s page
  | setStackPointer .., _ | openFile .., _ | closeFile .., _ | claim .., _ | evict _, _ => False

/-- What an operation may do to memory that it finds as `v`. -/
def scope (v : Memory π) (op : Operation) : Memory.Scope := { moves := op.Moves v, brings := op.Brings v }

/-- An operation on processes, which refuse no mapping and have all their pages in user memory. -/
def AtUser : Operation → Prop
  | createTable .. => False
  | insert _ va _ _ => va < kernelBase
  | _ => True

instance (op : Operation) : Decidable op.AtUser := by
  unfold AtUser
  split <;> infer_instance

end Operation

/-- An operation that was performed: the files it found, what was asked and what came back. -/
structure Call where
  files : FileStore
  op : Operation
  reply : Reply

/-- The machines that are reached from one by operations that may each be asked of the machine they
find, with the calls on the way. -/
inductive Runs (may : Machine π → Operation → Prop) : Machine π → List Call → Machine π → Prop
  | refl (m : Machine π) : Runs may m [] m
  | step {m m₁ after : Machine π} {calls : List Call} {op : Operation} {reply : Reply}
    (h : Runs may m calls m₁) (hop : may m₁ op) (hp : op.perform m₁ = .ok reply after) :
    Runs may m (calls ++ [⟨m₁.files, op, reply⟩]) after

/-- What an operation answers, and the machine that it leaves, if it does not abort. -/
def Operation.outcome? (op : Operation) (m : Machine π) : Option (Reply × Machine π) :=
  match op.perform m with
  | .ok reply after => some (reply, after)
  | .error _ _ => none

theorem Operation.perform_of_outcome? {op : Operation} {reply : Reply} {m after : Machine π}
    (h : op.outcome? m = some (reply, after)) : op.perform m = .ok reply after := by
  unfold outcome? at h
  split at h
  · rename_i hp
    obtain ⟨rfl, rfl⟩ := Prod.mk.inj (Option.some.inj h)
    exact hp
  · cases h

/-- Performs one operation after the other, as long as each may be asked. -/
def Machine.afterAll (may : Machine π → Operation → Prop) [∀ m op, Decidable (may m op)]
    (m : Machine π) : List Operation → Option (Machine π)
  | [] => some m
  | op :: rest =>
    if may m op then
      match op.perform m with
      | .ok _ after => afterAll may after rest
      | .error _ _ => none
    else none

/-- The same, with the calls that this comes to. -/
def Machine.history? (may : Machine π → Operation → Prop) [∀ m op, Decidable (may m op)]
    (m : Machine π) : List Operation → Option (List Call × Machine π)
  | [] => some ([], m)
  | op :: rest =>
    if may m op then
      match op.perform m with
      | .ok reply after => (history? may after rest).map fun h => (⟨m.files, op, reply⟩ :: h.1, h.2)
      | .error _ _ => none
    else none

section Ends
variable {m : Machine π} {s va : Nat}

omit [ReplacementPolicy π] in
theorem answer_ends {α : Type} {stop : Prop} {x : Attempt π α} {reply : α → Reply}
    {Q : α → Machine π → Prop} {E : MemoryError → Machine π → Prop} {P : Reply → Machine π → Prop}
    (h : Attempt.Ends stop x m Q E) (hq : ∀ a after, Q a after → P (reply a) after)
    (he : ∀ e after, E e after → P (.failed e) after) : Run.Ends stop (answer reply x) m P := by
  simp only [answer, Run.ends_bind, Run.ends_run]
  exact h.imp hq he

theorem createTable_ends (admission : Admission) (recordsAccess : Bool) :
    Run.Ends False (createTable admission recordsAccess) m fun answer after =>
      answer = m.memory.spaces ∧ Memory.Quiet
        [.spawn (∀ asked granted, admission.admits asked granted = true)] m.memory after.memory := by
  simp only [createTable, Run.ends_bind, Run.ends_get, Run.ends_modify, Run.ends_pure]
  exact ⟨rfl, .of_change (Machine.alters_addSpace { admission, recordsAccess } rfl rfl) trivial⟩

theorem insertOwned_ends {writable : Bool} {backing : Backing} (hfresh : backing.Fresh)
    (hs : s < m.spaces.size) (hva : va % pageSize = 0) :
    Run.Ends False (insertOwned s va writable backing) m fun answer after =>
      (answer = false ∧ Memory.Rests m.memory after.memory) ∨
      ∃ serial, answer = true ∧ Memory.Quiet [.insert s { serial, va, writable, backing }]
        m.memory after.memory := by
  simp only [insertOwned, Run.ends_bind, Run.ends_modify]
  have hm := Machine.memory_retainSource (m := m) backing.source
  refine (insertPage_ends (v := m.memory) hfresh (Machine.lt_spaces hm hs) hva hm).imp ?_
  rintro answer after (⟨rfl, -, hpages⟩ | ⟨rfl, ha⟩)
  · exact .inl ⟨rfl, hpages⟩
  · exact .inr ⟨_, rfl, .of_change ha trivial⟩

theorem evict_ends (h : m.memory.Valid) (n : Nat) :
    Attempt.Ends False (evictFirst none [n]) m
      (fun _ after => Memory.Rests m.memory after.memory)
      fun _ after => Memory.Rests m.memory after.memory := by
  refine (evictFirst_ends h none [n]).imp ?_ ?_
  · intro _ _ hy
    exact hy.rests
  · rintro _ _ ⟨-, hunmoved⟩
    exact hunmoved.rests

omit [ReplacementPolicy π] in
theorem Machine.pages_eq_none (h : (m.space s).pages.isEmpty) (a : Nat) : m.memory.pages s a = none := by
  show (m.space s).pages[a]? = none
  rw [Std.ExtTreeMap.isEmpty_iff.mp h]
  exact Std.ExtTreeMap.getElem?_empty

/-- Whatever is asked of a machine whose memory is valid comes to paging and the changes of that
request, and nothing aborts that is not stuck. -/
theorem Operation.perform_ends {op : Operation} (h : m.memory.Valid) (ha : op.Allowed m) :
    Run.Ends (op.Stuck m) op.perform m fun reply after => op.Comes m.memory after.memory reply := by
  obtain ⟨hspace, hop⟩ := ha
  cases op with
  | createProcess pid =>
    refine Run.ends_map.mpr ((createProcess_ends pid).imp ?_)
    rintro _ after ⟨rfl, hevolves⟩
    exact ⟨rfl, hevolves⟩
  | createTable admission recordsAccess =>
    refine Run.ends_map.mpr ((createTable_ends admission recordsAccess).imp ?_)
    rintro _ after ⟨rfl, hevolves⟩
    exact ⟨rfl, hevolves⟩
  | setStackPointer s esp =>
    refine Run.ends_map.mpr (Run.ends_modify.mpr ?_)
    show Memory.Rests m.memory _
    rw [Machine.memory_modifyProcess]
    exact .refl _
  | insert s va writable backing =>
    exact Run.ends_map.mpr ((insertOwned_ends hop.2 (hspace s rfl) hop.1).imp fun answer after hend => by
      rcases hend with ⟨rfl, hpages⟩ | ⟨serial, rfl, hevolves⟩
      · exact .inl ⟨rfl, hpages⟩
      · exact .inr ⟨serial, rfl, hevolves⟩)
  | load s h' => exact Run.ends_map.mpr (loadProgram_ends h (hspace s rfl) h')
  | openFile s h' =>
    refine Run.ends_map.mpr ((openFile_ends h').imp ?_)
    intro fd after hsame
    show Memory.Rests m.memory after.memory
    rw [hsame]
    exact .refl _
  | closeFile s fd => exact Run.ends_map.mpr (closeFile_ends fd)
  | map s addr length writable file offset =>
    refine answer_ends (mapFile_ends (hspace s rfl) addr length writable offset) ?_ ?_
    · rintro _ after ⟨rfl, hva, hoffset, cs, hcs, hquiet⟩
      exact ⟨cs, hquiet, .inl ⟨rfl, hva, hoffset, hcs⟩⟩
    · intro e after hsame
      exact ⟨[], hsame ▸ .refl _, .inr ⟨⟨e, rfl⟩, rfl⟩⟩
  | unmap s addr =>
    have hstop : ∀ a p, m.memory.pages s a = some p → p.isFile = true → wordLimit ≤ a + pageSize →
        (unmap s addr).Stuck m := fun a p hp _ hlast =>
      ⟨a, Option.isSome_iff_exists.mpr ⟨p, hp⟩, hlast⟩
    refine answer_ends (unmapFile_ends h hstop addr) ?_ ?_
    · rintro _ after ⟨hunmaps, hchain⟩
      exact ⟨hunmaps, .inl ⟨rfl, _, hchain⟩⟩
    · rintro e after ⟨hunmaps, hsame⟩
      exact ⟨hunmaps, .inr ⟨⟨e, rfl⟩, hsame⟩⟩
  | pageFault s fault userEsp =>
    refine answer_ends (processFault_ends h (hspace s rfl) fault userEsp) ?_ ?_
    · intro _ after hcourse
      exact .inl ⟨rfl, hcourse⟩
    · intro e after hquiet
      exact .inr ⟨⟨e, rfl⟩, hquiet⟩
  | resolveFault s fault esp =>
    refine answer_ends (handleFault_ends h (hspace s rfl) fault esp) ?_ ?_
    · rintro _ after ⟨cs, hcs, hcourse, hthere, -⟩
      exact .inl ⟨rfl, cs, hcs, hcourse, hthere⟩
    · rintro e after ⟨cs, hcs, hquiet, -⟩
      exact .inr ⟨⟨e, rfl⟩, cs, hcs, hquiet⟩
  | readUser s addr count =>
    refine Run.ends_map.mpr ((readUser_ends h (hspace s rfl) addr count).imp ?_)
    rintro ⟨bytes, failure⟩ after ⟨u, cs, va, hreads⟩
    exact ⟨bytes, failure, u, cs, va, rfl, hreads⟩
  | copyFrom s esp addr count =>
    refine Run.ends_map.mpr ((copyFromUser_ends h (hspace s rfl) esp addr count).imp ?_)
    rintro ⟨bytes, failure⟩ after ⟨u, cs, va, hreads⟩
    exact ⟨bytes, failure, u, cs, va, rfl, hreads⟩
  | writeUser s addr bytes =>
    refine answer_ends (writeUser_ends h (hspace s rfl) addr bytes) ?_ ?_
    · rintro _ after ⟨cs, hwrote⟩
      exact ⟨bytes.length, cs, [], 0, after.memory, by rwa [List.take_length], .same, .refl _,
        .inl ⟨rfl, rfl⟩⟩
    · rintro e after ⟨k, cs, us, va, u, hwrote, hus, hquiet⟩
      exact ⟨k, cs, us, va, u, hwrote, hus, hquiet, .inr ⟨e, rfl⟩⟩
  | copyTo s esp addr bytes =>
    refine answer_ends (copyToUser_ends h (hspace s rfl) esp addr bytes) ?_ ?_
    · rintro _ after ⟨cs, hwrote⟩
      exact ⟨bytes.length, cs, [], 0, after.memory, by rwa [List.take_length], .same, .refl _,
        .inl ⟨rfl, rfl⟩⟩
    · rintro e after ⟨k, cs, us, va, u, hwrote, hus, hquiet⟩
      exact ⟨k, cs, us, va, u, hwrote, hus, hquiet, .inr ⟨e, rfl⟩⟩
  | fork s childPid =>
    refine answer_ends (fork_ends h childPid) ?_ ?_
    · rintro _ after ⟨rfl, hpages⟩
      exact .inl ⟨rfl, hpages⟩
    · rintro e after hundone
      exact .inr ⟨⟨e, rfl⟩, hundone⟩
  | copyTable src dst =>
    have hempty := Machine.pages_eq_none hop
    refine answer_ends (copySpace_ends h (hspace dst rfl) hempty) ?_ ?_
    · rintro _ after ⟨pages, hall, hcopies⟩
      exact ⟨pages, hcopies.quiet, hempty, .inl ⟨rfl, hall⟩⟩
    · rintro e after ⟨copied, hcopies⟩
      exact ⟨copied, hcopies.quiet, hempty, .inr ⟨e, rfl⟩⟩
  | exit s => exact Run.ends_map.mpr (exit_ends h)
  | kill s =>
    refine Run.ends_map.mpr ((emptySpace_ends h s).imp ?_)
    rintro _ after ⟨pages, hevolves, hgone⟩
    exact ⟨pages, hevolves, fun va => by rw [hgone, if_pos rfl]⟩
  | claim s va =>
    refine answer_ends (claim_ends h va) ?_ ?_
    · rintro _ after ⟨_, -, hpages, -⟩
      exact hpages
    · rintro _ after ⟨hpages, -⟩
      exact hpages
  | remove s va =>
    refine Run.ends_map.mpr ((removePage_ends h va).imp ?_)
    rintro _ after (⟨-, hnone, hsame⟩ | ⟨page, -, hp, hevolves, -⟩)
    · exact .inl ⟨hsame ▸ .refl _, hnone⟩
    · exact .inr ⟨page, hp, hevolves⟩
  | evict n => exact answer_ends (evict_ends h n) (fun _ _ hpages => hpages) fun _ _ hpages => hpages

end Ends

section Changes
variable {v w : Memory π} {s va addr : Nat} {cs : List Change} {bytes : List UInt8}

theorem Grown.ofStack (h : Grown s va cs) : ∀ c ∈ cs, c.OfStack s := by
  cases h with
  | same => exact List.forall_mem_nil _
  | added serial hva => exact List.forall_mem_singleton.mpr (.inl ⟨serial, va, hva, rfl⟩)

theorem Undone.ofStack (h : Undone s va cs) : ∀ c ∈ cs, c.OfStack s := by
  cases h with
  | same => exact List.forall_mem_nil _
  | removed serial page hva =>
    exact List.forall_mem_cons.mpr ⟨.inl ⟨serial, va, hva, rfl⟩,
      List.forall_mem_singleton.mpr (.inr ⟨page, rfl⟩)⟩

theorem Written.brings (h : Written s addr bytes cs) : ∀ c ∈ cs, c.OfStack s ∨ c.Puts s addr bytes := by
  induction h with
  | nil => exact List.forall_mem_nil _
  | @chunk addr cs rest chunk bytes hcs hpos hlen hw ih =>
    intro c hc
    rcases List.mem_append.mp hc with hc | hc
    · exact .inl (hcs.ofStack c hc)
    · rcases List.mem_cons.mp hc with rfl | hc
      · exact .inr (.first hpos (List.prefix_append chunk bytes))
      · exact (ih c hc).imp_right fun hputs => hputs.later chunk

/-- A copy out of memory adds no page but those of the stack. -/
theorem Reads.quiet (h : Reads s addr v bytes w) :
    ∃ cs, Memory.Quiet cs v w ∧ ∀ c ∈ cs, c.OfStack s := by
  induction h with
  | nil => exact ⟨[], .refl _, List.forall_mem_nil _⟩
  | chunk hcs he _ _ _ _ _ ih =>
    obtain ⟨rest, hrest, hstack⟩ := ih
    exact ⟨_, he.trans hrest, List.forall_mem_append.mpr ⟨hcs.ofStack, hstack⟩⟩

/-- What an operation comes to are changes that it may bring, and the pages that it moves are those
that it writes to, or that a fault unshares. -/
theorem Operation.Comes.passes {op : Operation} {reply : Reply} (h : op.Comes v w reply) :
    (op.scope v).Passes v w := by
  cases op with
  | createProcess pid => exact ⟨_, .of_quiet h.2, List.forall_mem_singleton.mpr rfl⟩
  | createTable admission recordsAccess => exact ⟨_, .of_quiet h.2, List.forall_mem_singleton.mpr rfl⟩
  | setStackPointer | openFile | closeFile | claim | evict =>
    exact ⟨[], .of_quiet h, List.forall_mem_nil _⟩
  | insert s va writable backing =>
    rcases h with ⟨-, hrests⟩ | ⟨serial, -, hquiet⟩
    · exact ⟨[], .of_quiet hrests, List.forall_mem_nil _⟩
    · exact ⟨_, .of_quiet hquiet, List.forall_mem_singleton.mpr ⟨serial, rfl⟩⟩
  | load s h' =>
    obtain ⟨cs, hcs, hquiet⟩ := h
    exact ⟨cs, .of_quiet hquiet, hcs⟩
  | map s addr length writable file offset =>
    obtain ⟨cs, hquiet, ⟨-, -, -, hcs⟩ | ⟨-, rfl⟩⟩ := h
    · exact ⟨cs, .of_quiet hquiet, hcs.mapsIn⟩
    · exact ⟨[], .of_quiet hquiet, List.forall_mem_nil _⟩
  | unmap s addr =>
    obtain ⟨⟨pages, -, hquiet, -⟩, -⟩ := h
    exact ⟨_, .of_quiet hquiet, List.forall_mem_map.mpr fun page _ => ⟨page, rfl⟩⟩
  | exit s | kill s =>
    obtain ⟨pages, hquiet, -⟩ := h
    exact ⟨_, .of_quiet hquiet, List.forall_mem_map.mpr fun page _ => ⟨page, rfl⟩⟩
  | remove s va =>
    rcases h with ⟨hrests, -⟩ | ⟨page, -, hquiet⟩
    · exact ⟨[], .of_quiet hrests, List.forall_mem_nil _⟩
    · exact ⟨_, .of_quiet hquiet, List.forall_mem_singleton.mpr ⟨page, rfl⟩⟩
  | pageFault s fault esp | resolveFault s fault esp =>
    obtain ⟨-, cs, hcs, hcourse, -⟩ | ⟨-, cs, hcs, hquiet⟩ := h
    · exact ⟨cs, hcourse.mono fun _ _ => .inr, hcs.ofStack⟩
    · exact ⟨cs, .of_quiet hquiet, hcs.ofStack⟩
  | readUser s addr count | copyFrom s esp addr count =>
    obtain ⟨bytes, failure, u, cs, va, -, hreads, hcs, hquiet, -⟩ := h
    obtain ⟨grown, hgrown, hstack⟩ := hreads.quiet
    exact ⟨_, .of_quiet (hgrown.trans hquiet), List.forall_mem_append.mpr ⟨hstack, hcs.ofStack⟩⟩
  | writeUser s addr bytes | copyTo s esp addr bytes =>
    obtain ⟨k, cs, us, va, u, hwrote, hus, hquiet, -⟩ := h
    have hle := List.length_take_le' k bytes
    refine ⟨_, (hwrote.course.mono ?_).trans (.of_quiet hquiet), List.forall_mem_append.mpr ⟨?_, ?_⟩⟩
    · rintro t a ⟨rfl, i, hi, rfl⟩
      exact .inl ⟨rfl, i, Nat.lt_of_lt_of_le hi hle, rfl⟩
    · intro c hc
      exact (hwrote.written.brings c hc).imp_right fun hputs => hputs.of_take
    · exact fun c hc => .inl (hus.ofStack c hc)
  | fork s pid =>
    have hcopied (pages : List Page) : ∀ c ∈ Change.spawn True :: pages.map (.copy s v.spaces),
        (Operation.fork s pid).Brings v c := by
      refine List.forall_mem_cons.mpr ⟨.inl rfl, List.forall_mem_map.mpr fun page _ => ?_⟩
      exact .inr (.inl ⟨page, rfl⟩)
    obtain ⟨-, pages, -, hquiet⟩ | ⟨-, -, copied, removed, hquiet⟩ := h
    · exact ⟨_, .of_quiet hquiet, hcopied pages⟩
    · refine ⟨_, .of_quiet hquiet, List.forall_mem_append.mpr ⟨List.forall_mem_append.mpr
        ⟨hcopied copied, List.forall_mem_map.mpr fun page _ => ?_⟩, List.forall_mem_singleton.mpr ?_⟩⟩
      · exact .inr (.inr (.inl ⟨page, rfl⟩))
      · exact .inr (.inr (.inr rfl))
  | copyTable src dst =>
    obtain ⟨pages, hquiet, -⟩ := h
    exact ⟨_, .of_quiet hquiet, List.forall_mem_map.mpr fun page _ => ⟨page, rfl⟩⟩

omit [ReplacementPolicy π] in
/-- An operation that stays in user memory brings changes that do. -/
theorem Operation.Brings.atUser {op : Operation} {c : Change} (h : op.Brings v c) (huser : op.AtUser) :
    c.AtUser := by
  have hstack {s : Nat} (hc : c.OfStack s) : c.AtUser := by
    rcases hc with ⟨serial, va, hva, rfl⟩ | ⟨page, rfl⟩
    · exact hva.user
    · trivial
  cases op with
  | createProcess pid =>
    obtain rfl := h
    trivial
  | createTable => exact huser.elim
  | setStackPointer | openFile | closeFile | claim | evict => exact h.elim
  | insert =>
    obtain ⟨serial, rfl⟩ := h
    exact huser
  | load =>
    obtain ⟨page, rfl, hva, -⟩ := h
    exact hva
  | map =>
    obtain ⟨page, source, rfl, hva, -⟩ := h
    exact hva
  | unmap | exit | kill | remove | copyTable =>
    obtain ⟨page, rfl⟩ := h
    trivial
  | pageFault | resolveFault | readUser | copyFrom => exact hstack h
  | writeUser | copyTo =>
    rcases h with hc | ⟨i, hi, chunk, -, rfl⟩
    · exact hstack hc
    · trivial
  | fork => rcases h with rfl | ⟨page, rfl⟩ | ⟨page, rfl⟩ | rfl <;> trivial

theorem Operation.Comes.evolves {op : Operation} {reply : Reply} (h : op.Comes v w reply) :
    ∃ cs, Memory.Evolves cs v w ∧ (op.AtUser → ∀ c ∈ cs, c.AtUser) := by
  obtain ⟨cs, hcourse, hbrings⟩ := h.passes
  exact ⟨cs, hcourse.evolves, fun huser c hc => (hbrings c hc).atUser huser⟩

end Changes

/-! ## Runs -/

/-- A machine with `count` free frames, swap on `device` and these files, on which nothing has run. -/
def Machine.start (count : Nat) (device : Device) (policy : π) (files : FileStore) : Machine π :=
  { new count device policy with files }

namespace Machine
variable (count : Nat) (device : Device) (policy : π) (files : FileStore)

omit [ReplacementPolicy π] in
theorem frame_start (n : Nat) : (start count device policy files).memory.frames n = {} := by
  simp only [memory, start, new, FrameTable.ofCount, FrameTable.frame, Array.getD_eq_getD_getElem?,
    Array.getElem?_replicate]
  split <;> rfl

omit [ReplacementPolicy π] in
theorem start_spaceless (s va : Nat) : (start count device policy files).memory.pages s va = none ∧
    (start count device policy files).memory.entries s va = none :=
  memory_spaceless (Nat.zero_le s)

omit [ReplacementPolicy π] in
theorem valid_start : (start count device policy files).memory.Valid where
  sound := by
    refine ⟨?_, ?_, ?_, ?_, ?_, ?_, ?_, ?_, ?_, ?_, ?_⟩ <;>
      simp only [frame_start, start_spaceless, reduceCtorEq, IsEmpty.forall_iff, implies_true,
        List.not_mem_nil, List.Pairwise.nil, List.length_nil, if_true, ne_eq, not_true_eq_false]
  stowed := by
    have hslot : ∀ s va, (start count device policy files).memory.slotAt s va = none := by
      intro s va
      rw [Memory.slotAt, (start_spaceless count device policy files s va).1]
      rfl
    refine ⟨Nat.zero_le _, fun k => ⟨fun hused => ?_, ?_⟩, ?_, ?_, ?_⟩
    · cases hused
    · rintro ⟨s, va, hk⟩
      rw [hslot] at hk
      cases hk
    · simp [hslot]
    · simp [start_spaceless]
    · simp [start_spaceless]

omit [ReplacementPolicy π] in
theorem roomy_start (hcount : count ≤ PageTableEntry.frameLimit) :
    (start count device policy files).memory.Roomy where
  size := by simpa [memory, start, new, FrameTable.ofCount, FrameTable.size] using hcount
  willing s := by
    show ((start count device policy files).space s).Willing
    rw [space_eq_default (Nat.zero_le s)]
    exact fun _ _ => rfl
  user hp := by simp [start_spaceless] at hp

omit [ReplacementPolicy π] in
theorem shaped_start : (start count device policy files).memory.Shaped := by
  intro s va p source evicted hp
  simp [start_spaceless] at hp

end Machine

namespace Runs
variable {may : Machine π → Operation → Prop} {m after : Machine π} {calls : List Call}

theorem keeps {I : Machine π → Prop} (h : Runs may m calls after) (hm : I m)
    (hstep : ∀ {m₁ op reply m₂}, I m₁ → may m₁ op → op.perform m₁ = .ok reply m₂ → I m₂) : I after := by
  induction h with
  | refl => exact hm
  | step _ hop hp ih => exact hstep ih hop hp

theorem valid (h : Runs may m calls after) (hm : m.memory.Valid)
    (hmay : ∀ m op, may m op → op.Allowed m) : after.memory.Valid := by
  refine h.keeps (I := fun m => m.memory.Valid) hm ?_
  intro m₁ op reply m₂ hvalid hop hp
  obtain ⟨cs, hevolves, -⟩ := ((Operation.perform_ends hvalid (hmay _ _ hop)).of_ok hp).evolves
  exact hvalid.evolves hevolves

theorem evolves (h : Runs may m calls after)
    (hm : m.memory.Valid) (hmay : ∀ m op, may m op → op.Allowed m) :
    ∃ cs, Memory.Evolves cs m.memory after.memory := by
  induction h with
  | refl => exact ⟨[], .refl _⟩
  | step hrun hop hp ih =>
    obtain ⟨cs, hbefore⟩ := ih
    have hcomes := (Operation.perform_ends (hrun.valid hm hmay) (hmay _ _ hop)).of_ok hp
    obtain ⟨cs', hlast⟩ := hcomes.passes.evolves
    exact ⟨_, hbefore.trans hlast⟩

theorem mono {may' : Machine π → Operation → Prop} (h : Runs may m calls after)
    (hle : ∀ m op, may m op → may' m op) : Runs may' m calls after := by
  induction h with
  | refl => exact .refl _
  | step _ hop hp ih => exact .step ih (hle _ _ hop) hp

theorem trans {m₁ : Machine π} {calls' : List Call} (h : Runs may m calls m₁)
    (h' : Runs may m₁ calls' after) : Runs may m (calls ++ calls') after := by
  induction h' with
  | refl => rwa [List.append_nil]
  | step _ hop hp ih =>
    rw [← List.append_assoc]
    exact .step ih hop hp

/-- What performing operations gives is reached by a run. -/
theorem of_afterAll (may : Machine π → Operation → Prop) [∀ m op, Decidable (may m op)]
    (ops : List Operation) (check : Machine π → Bool) (h : (m.afterAll may ops).any check = true) :
    ∃ calls after, Runs may m calls after ∧ check after = true := by
  induction ops generalizing m with
  | nil => exact ⟨[], m, .refl m, h⟩
  | cons op rest ih =>
    simp only [Machine.afterAll] at h
    split at h
    · rename_i hop
      split at h
      · rename_i reply after hp
        obtain ⟨calls, last, hrun, hcheck⟩ := ih h
        exact ⟨_, last, ((Runs.refl m).step hop hp).trans hrun, hcheck⟩
      · cases h
    · cases h

/-- So is what the history of these operations ends in. -/
theorem of_history? (may : Machine π → Operation → Prop) [∀ m op, Decidable (may m op)]
    (ops : List Operation) (check : List Call × Machine π → Bool)
    (h : (m.history? may ops).any check = true) :
    ∃ calls after, Runs may m calls after ∧ check (calls, after) = true := by
  induction ops generalizing m check with
  | nil => exact ⟨[], m, .refl m, h⟩
  | cons op rest ih =>
    simp only [Machine.history?] at h
    split at h
    · rename_i hop
      split at h
      · rename_i reply after hp
        rw [Option.any_map] at h
        obtain ⟨calls, last, hrun, hcheck⟩ := ih _ h
        exact ⟨_, last, ((Runs.refl m).step hop hp).trans hrun, hcheck⟩
      · cases h
    · cases h

end Runs

end DemandPaging
