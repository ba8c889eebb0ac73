import DemandPaging.Proofs.Memory
import DemandPaging.Proofs.SwapStore

/-! # How memory evolves

Whatever operations do to the memory of a machine is a sequence of a few kinds of steps. A `Step` is
paging proper: frames are taken, filled, shared out and given back, and no process can tell. A
`Change` is one that somebody asked for: a page is inserted, removed, copied to another space or
written. An invariant of memory is proved once for every kind, and then holds after every operation.
-/
namespace DemandPaging

/-- In use and not pinned. -/
def CoreMapEntry.used : CoreMapEntry := free.put .allocated true

namespace Frame

/-- A free frame. -/
def vacant (c : PageBytes) : Frame := { contents := c }

/-- A frame that a single page uses. -/
def ownedBy (o : Owner) (c : PageBytes) : Frame :=
  { entry := .used, refcount := 1, owners := [o], contents := c }

/-- A frame that one more page uses. -/
def sharedWith (f : Frame) (o : Owner) : Frame :=
  { f with refcount := f.refcount + 1, owners := f.owners ++ [o] }

end Frame

/-- The page that a source describes. -/
def Source.image (source : Source) (files : FileStore) : PageBytes :=
  overwrite zeroPage 0 (match source.file with
    | some file => slice (files.node file).contents source.offset source.readBytes
    | none => [])

/-- What an uninitialised page is after its first claim. -/
def Target.first : Target → Source → Backing
  | anonymous, source => .anonymous source none
  | file, source => .fileBacked source false

/-- How a page is when nobody has used it yet. -/
inductive Backing.Fresh : Backing → Prop
  | uninit (target : Target) (source : Source) : Fresh (.uninit target source)
  | zeroed : Fresh (.anonymous .zeroed none)

instance : DecidablePred Backing.Fresh
  | .uninit target source => isTrue (.uninit target source)
  | .anonymous source slot =>
    if h : source = .zeroed ∧ slot = none then isTrue (by rw [h.1, h.2]; exact .zeroed)
    else isFalse fun hf => by cases hf; exact h ⟨rfl, rfl⟩
  | .fileBacked source evicted => isFalse nofun

theorem Backing.Fresh.slot?_eq {backing : Backing} (h : backing.Fresh) : backing.slot? = none := by
  cases h <;> rfl

namespace FileStore

/-- With one more handle of the file of a source. -/
def retainSource (files : FileStore) (source : Source) : FileStore :=
  match source.file with
  | some file => files.retain file
  | none => files

def releaseSource (files : FileStore) (source : Source) : FileStore :=
  match source.file with
  | some file => files.release file
  | none => files

end FileStore

/-- Without the slot of a page. -/
def SwapSpace.freeSlot (swap : SwapSpace) : Option Nat → SwapSpace
  | some slot => swap.free slot
  | none => swap

variable {π : Type} [ReplacementPolicy π]

namespace Memory

/-- How a page that is not resident is brought in: its backing, the bytes of its frame, its backing
from then on, and the swap space. -/
inductive Filled (v : Memory π) : Backing → PageBytes → Backing → SwapSpace → Prop
  | uninit (target : Target) (source : Source) :
    Filled v (.uninit target source) (source.image v.files) (target.first source) v.swap
  | blank (source : Source) : Filled v (.anonymous source none) zeroPage (.anonymous source none) v.swap
  | fetched {source : Source} {slot : Nat} {bytes : List UInt8} {swap : SwapSpace}
    (h : v.swap.fetch slot = .ok (bytes, none, swap)) :
    Filled v (.anonymous source (some slot)) (overwrite zeroPage 0 bytes) (.anonymous source none) swap
  | file (source : Source) (evicted : Bool) :
    Filled v (.fileBacked source evicted) (source.image v.files) (.fileBacked source false) v.swap

/-- The mapping at `va` has been written through since it was last written back. -/
def Dirty (v : Memory π) (s va : Nat) : Prop := ∃ e, v.entries s va = some e ∧ e.has .dirty = true

/-- What becomes of memory when frame `n` is written back to the file of a source. -/
inductive Flushed (v : Memory π) (s va n : Nat) (source : Source) : Memory π → Prop
  | clean (h : ¬v.Dirty s va) : Flushed v s va n source v
  | done {e : PageTableEntry} {file : Nat} {files : FileStore} (hs : source.file = some file)
    (he : v.entries s va = some e) (hd : e.has .dirty = true)
    (hw : v.files.writeAt file source.offset ((v.frames n).contents.toList.take source.readBytes) =
      (source.readBytes, files)) :
    Flushed v s va n source { v.setEntry s va (some (e.put .dirty false)) with files }

omit [ReplacementPolicy π] in
/-- Writing back changes no table, no frame and no other mapping. -/
theorem Flushed.same {v w : Memory π} {s va n : Nat} {source : Source}
    (h : v.Flushed s va n source w) : w.pages = v.pages ∧ w.frames = v.frames ∧
      ∀ t a, ¬(t = s ∧ a = va) → w.entries t a = v.entries t a := by
  cases h with
  | clean => exact ⟨rfl, rfl, fun _ _ _ => rfl⟩
  | done => exact ⟨rfl, rfl, fun _ _ hne => setAt_of_ne hne⟩

/-- What becomes of it when that fails. -/
inductive FlushedShort (v : Memory π) (s va n : Nat) (source : Source) : Memory π → Prop
  | detached : FlushedShort v s va n source v
  | short {e : PageTableEntry} {file count : Nat} {files : FileStore} (hs : source.file = some file)
    (he : v.entries s va = some e) (hd : e.has .dirty = true)
    (hw : v.files.writeAt file source.offset ((v.frames n).contents.toList.take source.readBytes) =
      (count, files)) :
    FlushedShort v s va n source { v with files }

/-- How the bytes of a resident page are saved: its backing, its backing from then on, and the swap
space. Only a page that is not `dirty` needs no writing back. -/
inductive Saved (v : Memory π) (c : PageBytes) (dirty : Prop) : Backing → Backing → SwapSpace → Prop
  | stored {source : Source} {old : Option Nat} {slot : Nat} {swap : SwapSpace}
    (h : v.swap.store c = (.ok slot, swap)) :
    Saved v c dirty (.anonymous source old) (.anonymous source (some slot)) swap
  | clean (source : Source) (old : Bool) (h : ¬dirty) :
    Saved v c dirty (.fileBacked source old) (.fileBacked source true) v.swap

/-- How the backing of a page is copied for another space. -/
inductive Duplicated (v : Memory π) : Backing → Backing → SwapSpace → Prop
  | slot {source : Source} {slot copy : Nat} {swap : SwapSpace}
    (h : v.swap.duplicate slot = .ok (.ok copy, swap)) :
    Duplicated v (.anonymous source (some slot)) (.anonymous source (some copy)) swap
  | same {backing : Backing} (h : backing.slot? = none) : Duplicated v backing backing v.swap

/-- A page is put into a frame of its own and mapped there. -/
def seat (v : Memory π) (s n : Nat) (page : Page) (writable : Bool) (c : PageBytes) : Memory π :=
  { ((v.setPage s page.va (some { page with frame := some n })).setEntry s page.va
      (some (.remap none n writable))).setFrame n (.ownedBy ⟨page.serial, s, page.va⟩ c) with
    policy := ReplacementPolicy.insert v.policy n }

/-- A page that is not resident joins the pages that share frame `n`, and is mapped there
read-only. -/
def join (v : Memory π) (s n : Nat) (page : Page) : Memory π :=
  ((v.setPage s page.va (some { page with frame := some n })).setEntry s page.va
    (some (.remap none n false))).setFrame n ((v.frames n).sharedWith ⟨page.serial, s, page.va⟩)

/-- A page leaves its frame. The last one frees it. -/
def leave (v : Memory π) (s n : Nat) (page : Page) : Memory π :=
  ((v.setPage s page.va (some { page with frame := none })).setEntry s page.va none).release n s
    page.va

/-- Frame `n` is taken and given back. -/
def pass (v : Memory π) (n : Nat) (c : PageBytes) : Memory π :=
  { v.setFrame n (.vacant c) with
    policy := ReplacementPolicy.remove (ReplacementPolicy.insert v.policy n) n }

/-- A page gives up its frame, if it is in one. -/
def quit (v : Memory π) (s : Nat) (page : Page) : Memory π :=
  match page.frame with
  | some n => v.leave s n page
  | none => v

/-- A page is dropped with all that it holds. -/
def discard (v : Memory π) (s : Nat) (page : Page) : Memory π :=
  { (v.quit s page).setPage s page.va none with
    swap := v.swap.freeSlot page.backing.slot?
    files := v.files.releaseSource page.source }

/-- A new page appears, which is in no frame and owns one more handle of its file. -/
def add (v : Memory π) (s : Nat) (page : Page) : Memory π :=
  { v.setPage s page.va (some page) with
    nextSerial := v.nextSerial + 1
    files := v.files.retainSource page.source }

/-- A copy of a page of space `src` appears in space `dst`. The two share the frame, if there is one,
and neither maps it writable. -/
def adopt (v : Memory π) (src dst : Nat) (page : Page) (backing : Backing) (swap : SwapSpace) :
    Memory π :=
  let copy := { page with serial := v.nextSerial, backing, frame := none }
  let added := { v.add dst copy with swap }
  match page.frame with
  | some n =>
    (added.setEntry src page.va (some (.remap (v.entries src page.va) n false))).join dst n copy
  | none => added

/-- What paging, tables and files leave alone: how many spaces and frames there are, and which spaces
are willing. -/
def limits (v : Memory π) : Nat × Nat × (Nat → Prop) := (v.spaces, v.size, v.willing)

section Fields
variable (v : Memory π) (s n : Nat) (page : Page) (writable : Bool) (c : PageBytes)

theorem pages_seat : (v.seat s n page writable c).pages =
    setAt v.pages s page.va (some { page with frame := some n }) := rfl

theorem entries_seat : (v.seat s n page writable c).entries =
    setAt v.entries s page.va (some (.remap none n writable)) := rfl

theorem pages_leave : (v.leave s n page).pages =
    setAt v.pages s page.va (some { page with frame := none }) := rfl

theorem limits_seat : (v.seat s n page writable c).limits = v.limits := rfl

theorem limits_leave : (v.leave s n page).limits = v.limits := rfl

omit [ReplacementPolicy π] in
theorem limits_join : (v.join s n page).limits = v.limits := rfl

theorem size_leave : (v.leave s n page).size = v.size := rfl

theorem swap_seat : (v.seat s n page writable c).swap = v.swap := rfl

theorem swap_leave : (v.leave s n page).swap = v.swap := rfl

theorem files_seat : (v.seat s n page writable c).files = v.files := rfl

theorem files_leave : (v.leave s n page).files = v.files := rfl

theorem entries_leave : (v.leave s n page).entries = setAt v.entries s page.va none := rfl

omit [ReplacementPolicy π] in
theorem pages_join : (v.join s n page).pages =
    setAt v.pages s page.va (some { page with frame := some n }) := rfl

omit [ReplacementPolicy π] in
theorem swap_join : (v.join s n page).swap = v.swap := rfl

omit [ReplacementPolicy π] in
theorem files_join : (v.join s n page).files = v.files := rfl

attribute [irreducible] leave seat join

theorem page_leave : (v.leave s n page).pages s page.va = some { page with frame := none } := by
  rw [pages_leave, setAt_self]

/-- A page that goes from one frame to another. -/
theorem pages_move (new : Nat) (c : PageBytes) :
    ((v.leave s n page).seat s new { page with frame := none } true c).pages =
      setAt v.pages s page.va (some { page with frame := some new }) := by
  rw [pages_seat, pages_leave, setAt_setAt]

theorem pages_discard : (v.discard s page).pages = setAt v.pages s page.va none := by
  simp only [discard, setPage, quit]
  cases page.frame with
  | none => rfl
  | some n =>
    dsimp only
    rw [pages_leave, setAt_setAt]

omit [ReplacementPolicy π] in
theorem pages_adopt (src dst : Nat) (backing : Backing) (swap : SwapSpace) :
    (v.adopt src dst page backing swap).pages =
      setAt v.pages dst page.va (some { page with serial := v.nextSerial, backing }) := by
  unfold adopt
  cases hf : page.frame with
  | none => rfl
  | some n =>
    dsimp only
    rw [pages_join]
    exact setAt_setAt

omit [ReplacementPolicy π] in
theorem swap_adopt (src dst : Nat) (backing : Backing) (swap : SwapSpace) :
    (v.adopt src dst page backing swap).swap = swap := by
  unfold adopt
  split
  · exact swap_join ..
  · rfl

omit [ReplacementPolicy π] in
theorem files_adopt (src dst : Nat) (backing : Backing) (swap : SwapSpace) :
    (v.adopt src dst page backing swap).files = v.files.retainSource backing.source := by
  unfold adopt
  split
  · exact files_join ..
  · rfl

end Fields

omit [ReplacementPolicy π] in
theorem setPage_setPage (v : Memory π) (s va : Nat) (p q : Option Page) :
    (v.setPage s va p).setPage s va q = v.setPage s va q := by
  simp only [setPage, setAt_setAt]

theorem leave_setPage (v : Memory π) (s n : Nat) (page : Page) (p : Option Page) :
    (v.setPage s page.va p).leave s n page = v.leave s n page := by
  rw [leave, setPage_setPage, leave]

theorem seat_setPage (v : Memory π) (s n : Nat) (page : Page) (writable : Bool) (c : PageBytes)
    (p : Option Page) : (v.setPage s page.va p).seat s n page writable c = v.seat s n page writable c := by
  rw [seat, setPage_setPage, seat]
  rfl

theorem limits_discard (v : Memory π) (s : Nat) (page : Page) :
    (v.discard s page).limits = v.limits := by
  show (v.quit s page).limits = v.limits
  unfold quit
  split
  · exact limits_leave ..
  · rfl

omit [ReplacementPolicy π] in
theorem limits_adopt (v : Memory π) (src dst : Nat) (page : Page) (backing : Backing)
    (swap : SwapSpace) : (v.adopt src dst page backing swap).limits = v.limits := by
  unfold adopt
  split
  · exact limits_join ..
  · rfl

/-- A step of paging. -/
inductive Step : Memory π → Memory π → Prop
  | serial {v : Memory π} {n : Nat} (h : v.nextSerial ≤ n) : Step v { v with nextSerial := n }
  | handles {v : Memory π} {files : FileStore}
    (h : ∀ f, (files.node f).contents = (v.files.node f).contents) : Step v { v with files }
  | swap {v : Memory π} {swap : SwapSpace} (h : v.swap.Agrees swap) : Step v { v with swap }
  | passed {v : Memory π} {n : Nat} {c : PageBytes} (hn : (v.frames n).allocated = false) :
    Step v (v.pass n c)
  | flushed {v w : Memory π} {s va n : Nat} {page : Page} (hp : v.pages s va = some page)
    (hf : page.frame = some n) (hfile : page.isFile = true) (hw : v.Flushed s va n page.source w) :
    Step v w
  | flushedShort {v w : Memory π} {s va n : Nat} {page : Page} (hp : v.pages s va = some page)
    (hf : page.frame = some n) (hfile : page.isFile = true)
    (hw : v.FlushedShort s va n page.source w) : Step v w
  | evicted {v : Memory π} {s n : Nat} {page : Page} {backing : Backing} {swap : SwapSpace}
    (hp : v.pages s page.va = some page) (hf : page.frame = some n) (hn : (v.frames n).refcount = 1)
    (hb : v.Saved (v.frames n).contents (v.Dirty s page.va) page.backing backing swap) :
    Step v { v.leave s n { page with backing } with swap }
  | claimed {v : Memory π} {s n : Nat} {page : Page} {backing : Backing} {c : PageBytes}
    {swap : SwapSpace}
    (hp : v.pages s page.va = some page) (hf : page.frame = none)
    (hn : (v.frames n).allocated = false) (hlt : n < v.size) (hfit : n < PageTableEntry.frameLimit)
    (hb : v.Filled page.backing c backing swap) :
    Step v { v.seat s n { page with backing } page.writable c with swap }
  | refused {v : Memory π} {s n : Nat} {page : Page} {backing : Backing} {c : PageBytes}
    {swap : SwapSpace}
    (hp : v.pages s page.va = some page) (hf : page.frame = none)
    (hn : (v.frames n).allocated = false) (hlt : n < v.size)
    (hb : v.Filled page.backing c backing swap)
    (hr : ¬(v.willing s ∧ page.va < kernelBase ∧ n < PageTableEntry.frameLimit)) :
    Step v { (v.pass n c).setPage s page.va (some { page with backing }) with swap }
  | unshared {v : Memory π} {s n : Nat} {page : Page} {e : PageTableEntry}
    (hp : v.pages s page.va = some page) (hf : page.frame = some n) (hw : page.writable = true)
    (hn : (v.frames n).refcount = 1) (he : v.entries s page.va = some e) :
    Step v (v.setEntry s page.va (some (.remap (some e) n true)))
  | moved {v : Memory π} {s old new : Nat} {page : Page}
    (hp : v.pages s page.va = some page) (hf : page.frame = some old) (hw : page.writable = true)
    (hold : (v.frames old).refcount ≠ 1) (hnew : (v.frames new).allocated = false)
    (hlt : new < v.size) (hfit : new < PageTableEntry.frameLimit) :
    Step v ((v.leave s old page).seat s new { page with frame := none } true (v.frames old).contents)
  | touched {v : Memory π} {s va : Nat} {e : PageTableEntry} (record : Bool)
    (he : v.entries s va = some e) : Step v (v.setEntry s va (some (e.touch record false)))

theorem Step.limits_eq {v w : Memory π} (h : Step v w) : w.limits = v.limits := by
  cases h with
  | evicted => exact limits_leave ..
  | claimed => exact limits_seat ..
  | moved =>
    rw [limits_seat, limits_leave]
  | flushed _ _ _ hw => cases hw <;> rfl
  | flushedShort _ _ _ hw => cases hw <;> rfl
  | serial | handles | swap | passed | refused | unshared | touched => rfl

/-- What can be asked of memory. -/
inductive Change where
  | insert (s : Nat) (page : Page)
  | remove (s : Nat) (page : Page)
  | copy (src dst : Nat) (page : Page)
  | write (s va start : Nat) (bytes : List UInt8)
  | spawn (willing : Prop)
  | drop

/-- A change within the spaces that there are. -/
def Change.Inside : Change → Prop
  | spawn _ | drop => False
  | _ => True

/-- What a change does. -/
inductive Alters : Memory π → Change → Memory π → Prop
  | insert {v : Memory π} {s : Nat} {page : Page} (hs : s < v.spaces) (hva : page.va % pageSize = 0)
    (hp : v.pages s page.va = none) (hserial : page.serial = v.nextSerial) (hf : page.frame = none)
    (hb : page.backing.Fresh) :
    Alters v (.insert s page) (v.add s page)
  | remove {v : Memory π} {s : Nat} {page : Page} (hp : v.pages s page.va = some page) :
    Alters v (.remove s page) (v.discard s page)
  | copy {v : Memory π} {src dst : Nat} {page : Page} {backing : Backing} {swap : SwapSpace}
    (hp : v.pages src page.va = some page) (hdst : dst < v.spaces) (hd : v.pages dst page.va = none)
    (hfit : ∀ n, page.frame = some n → n < PageTableEntry.frameLimit)
    (hb : v.Duplicated page.backing backing swap) :
    Alters v (.copy src dst page) (v.adopt src dst page backing swap)
  | write {v : Memory π} {s va n start : Nat} {bytes : List UInt8} {page : Page} {e : PageTableEntry}
    (record : Bool) (hp : v.pages s va = some page) (hf : page.frame = some n)
    (he : v.entries s va = some e) (hw : e.has .writable = true) :
    Alters v (.write s va start bytes)
      ((v.setEntry s va (some (e.touch record true))).setFrame n
        { v.frames n with contents := overwrite (v.frames n).contents start bytes })
  | spawn {v : Memory π} (willing : Prop) :
    Alters v (.spawn willing)
      { v with spaces := v.spaces + 1, willing := Function.update v.willing v.spaces willing }
  | drop {v : Memory π} (hpos : 0 < v.spaces) (hp : ∀ a, v.pages (v.spaces - 1) a = none) :
    Alters v .drop
      { v with
        spaces := v.spaces - 1, willing := Function.update v.willing (v.spaces - 1) True }

theorem Alters.of_insert {v w : Memory π} {s : Nat} {page : Page} (h : v.Alters (.insert s page) w) :
    w = v.add s page ∧ v.pages s page.va = none := by
  cases h with
  | insert hs hva hp => exact ⟨rfl, hp⟩

/-- A copy adds one page to one space. -/
theorem Alters.of_copy {v w : Memory π} {src dst : Nat} {page : Page}
    (h : v.Alters (.copy src dst page) w) :
    (∀ t a, ¬(t = dst ∧ a = page.va) → w.pages t a = v.pages t a) ∧ w.spaces = v.spaces := by
  cases h with
  | copy =>
    refine ⟨fun t a hne => ?_, congrArg Prod.fst (limits_adopt ..)⟩
    rw [pages_adopt]
    exact setAt_of_ne hne

theorem Alters.of_spawn {v w : Memory π} {willing : Prop} (h : v.Alters (.spawn willing) w) :
    w.spaces = v.spaces + 1 ∧ w.pages = v.pages := by
  cases h with
  | spawn => exact ⟨rfl, rfl⟩

theorem Alters.of_spawned {v w : Memory π} {willing : Prop} (h : v.Alters (.spawn willing) w) :
    w = { v with spaces := v.spaces + 1, willing := Function.update v.willing v.spaces willing } := by
  cases h with
  | spawn => rfl

theorem Alters.of_drop {v w : Memory π} (h : v.Alters .drop w) :
    w = { v with
      spaces := v.spaces - 1, willing := Function.update v.willing (v.spaces - 1) True } := by
  cases h with
  | drop => rfl

/-- Memory evolves by steps of paging and, in this order, by the listed changes. -/
inductive Evolves : List Change → Memory π → Memory π → Prop
  | refl (v : Memory π) : Evolves [] v v
  | step {cs : List Change} {u v w : Memory π} (h : Evolves cs u v) (hs : Step v w) : Evolves cs u w
  | change {cs : List Change} {c : Change} {u v w : Memory π} (h : Evolves cs u v) (ha : Alters v c w) :
    Evolves (cs ++ [c]) u w

/-- Paging alone. -/
abbrev Pages : Memory π → Memory π → Prop := Evolves []

namespace Evolves
variable {cs cs' : List Change} {u v w : Memory π}

theorem of_step (h : Step u v) : Pages u v := .step (.refl u) h

theorem of_change {c : Change} (h : Alters u c v) : Evolves [c] u v := .change (.refl u) h

theorem trans (h : Evolves cs u v) (h' : Evolves cs' v w) : Evolves (cs ++ cs') u w := by
  induction h' with
  | refl =>
    rw [List.append_nil]
    exact h
  | step _ hs ih => exact .step (ih h) hs
  | change _ ha ih =>
    rw [← List.append_assoc]
    exact .change (ih h) ha

/-- What every step keeps, and every one of the changes, is kept. -/
theorem keeps {I : Memory π → Prop} (h : Evolves cs u v) (hu : I u)
    (hs : ∀ {v w}, Step v w → I v → I w) (hc : ∀ {v c w}, c ∈ cs → Alters v c w → I v → I w) : I v := by
  induction h with
  | refl => exact hu
  | step _ h ih => exact hs h (ih hu hc)
  | change _ h ih =>
    exact hc (List.mem_append_right _ (List.mem_singleton_self _)) h
      (ih hu fun hmem => hc (List.mem_append_left _ hmem))

/-- Only a spawn or a drop changes how many spaces there are. -/
theorem spaces_eq (h : Evolves cs u v) (hcs : ∀ c ∈ cs, c.Inside) : v.spaces = u.spaces := by
  refine h.keeps (I := fun w => w.spaces = u.spaces) rfl ?_ ?_
  · intro v w hs heq
    exact (congrArg Prod.fst hs.limits_eq).trans heq
  · intro v c w hmem ha heq
    cases ha with
    | insert | write => exact heq
    | remove => exact (congrArg Prod.fst (limits_discard ..)).trans heq
    | copy => exact (congrArg Prod.fst (limits_adopt ..)).trans heq
    | spawn => exact (hcs _ hmem).elim
    | drop => exact (hcs _ hmem).elim

/-- Paging alone changes neither how many spaces and frames there are nor which spaces are willing. -/
theorem limits_eq (h : Pages u v) : v.limits = u.limits :=
  h.keeps (I := fun w => w.limits = u.limits) rfl (fun hs hw => hs.limits_eq.trans hw) (by simp)

end Evolves

end Memory

theorem Machine.isDirty_iff {π : Type} {m : Machine π} {s va : Nat} :
    (m.space s).directory.isDirty va = true ↔ m.memory.Dirty s (pageDown va) := by
  simp only [PageDirectory.isDirty, PageDirectory.has, entry?_eq, Memory.Dirty]
  cases m.memory.entries s (pageDown va) <;> simp

end DemandPaging
