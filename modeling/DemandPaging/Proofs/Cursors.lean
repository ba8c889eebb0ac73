import DemandPaging.Address
import DemandPaging.File
import Mathlib.Data.List.Basic

/-! # Handles of one file

However many handles of a file there are, they read and write one array of bytes of fixed length, and each
has a cursor of its own. Cursors are any words, also far past the end, where nothing is read or written.
-/
namespace DemandPaging

/-! ## What handles are asked for -/

inductive FileCall where
  | seek (position : UInt64)
  | tell
  | read (buffer : List UInt8)
  | readAt (position : UInt64) (buffer : List UInt8)
  | writeAt (position : UInt64) (bytes : List UInt8)
  | length
  | reopen
  | clone
  | drop

inductive FileAnswer where
  | done
  | position (n : Nat)
  /-- How much was read, and the whole buffer afterwards. -/
  | read (count : Nat) (buffer : List UInt8)
  | written (count : Nat)
  | length (n : Nat)
  /-- The number of a new handle. -/
  | opened (i : Nat)
  /-- There is no such handle, or it has been dropped. -/
  | gone
deriving DecidableEq, Repr

/-- One call after the other, each of the handle with the number given. -/
def callAll {σ : Type} (step : σ → Nat → FileCall → FileAnswer × σ) :
    σ → List (Nat × FileCall) → List FileAnswer × σ
  | s, [] => ([], s)
  | s, (i, call) :: calls =>
    let rest := callAll step (step s i call).2 calls
    ((step s i call).1 :: rest.1, rest.2)

/-- If every call keeps a relation and has the same answer on both sides, any number of calls does so. -/
theorem callAll_related {σ τ : Type} {f : σ → Nat → FileCall → FileAnswer × σ}
    {g : τ → Nat → FileCall → FileAnswer × τ} {R : σ → τ → Prop} {s : σ} {t : τ}
    (hstep : ∀ s t i call, R s t → (f s i call).1 = (g t i call).1 ∧ R (f s i call).2 (g t i call).2)
    (h : R s t) (calls : List (Nat × FileCall)) :
    (callAll f s calls).1 = (callAll g t calls).1 ∧ R (callAll f s calls).2 (callAll g t calls).2 := by
  induction calls generalizing s t with
  | nil => exact ⟨rfl, h⟩
  | cons call calls ih =>
    obtain ⟨hanswer, hnext⟩ := hstep s t call.1 call.2 h
    obtain ⟨hanswers, hlast⟩ := ih hnext
    refine ⟨?_, hlast⟩
    simp only [callAll, hanswer, hanswers]

/-- A buffer into which bytes were read. -/
def filled (buffer bytes : List UInt8) : List UInt8 := bytes ++ buffer.drop bytes.length

/-! ## The handles of a store -/

/-- Files with their handles by number. -/
structure HandlePool where
  files : FileStore
  handles : List (Option Handle)

namespace HandlePool

/-- A new file, and the handle of whoever made it. -/
def create (files : FileStore) (contents : List UInt8) : HandlePool where
  files := (files.create { contents }).2
  handles := [some (files.create { contents }).1]

def put (p : HandlePool) (i : Nat) (h : Option Handle) : HandlePool :=
  { p with handles := p.handles.set i h }

def add (p : HandlePool) (opened : Handle × FileStore) : FileAnswer × HandlePool :=
  (.opened p.handles.length, { files := opened.2, handles := p.handles ++ [some opened.1] })

def receive (p : HandlePool) (i : Nat) (buffer : List UInt8) (read : List UInt8 × Handle) :
    FileAnswer × HandlePool :=
  (.read read.1.length (filled buffer read.1), p.put i (some read.2))

/-- What the `i`th handle does. -/
def step (p : HandlePool) (i : Nat) (call : FileCall) : FileAnswer × HandlePool :=
  match p.handles[i]?.join, call with
  | none, _ => (.gone, p)
  | some h, .seek position => (.done, p.put i (some { h with cursor := position.toNat }))
  | some h, .tell => (.position h.cursor, p)
  | some h, .read buffer => p.receive i buffer (p.files.read h buffer.length)
  | some h, .readAt position buffer =>
    p.receive i buffer (p.files.readAt h position.toNat buffer.length)
  | some h, .writeAt position bytes =>
    let written := p.files.writeAt h.file position.toNat bytes
    (.written written.1, { p with files := written.2 })
  | some h, .length => (.length (p.files.length h.file), p)
  | some h, .reopen => p.add (p.files.reopen h)
  | some h, .clone => p.add (p.files.clone h)
  | some h, .drop => (.done, { p.put i none with files := p.files.close h })

end HandlePool

/-! ## An array with cursors -/

/-- An array of `size` bytes with cursors by number. -/
structure SharedArray (size : Nat) where
  bytes : Vector UInt8 size
  cursors : List (Option Nat)

namespace SharedArray
variable {size : Nat}

/-- All of the array is there from the start, with one cursor. -/
def start (contents : List UInt8) : SharedArray contents.length where
  bytes := ⟨contents.toArray, List.size_toArray ..⟩
  cursors := [some 0]

def live (a : SharedArray size) : Nat := a.cursors.countP (·.isSome)

/-- The array has a byte at `position + k` for the `k`th of a buffer, or the buffer keeps its own. -/
def shown (a : SharedArray size) (position : Nat) (buffer : List UInt8) : List UInt8 :=
  buffer.mapIdx fun k b => a.bytes[position + k]?.getD b

/-- There is a new byte for the `k`th of the array, or the array keeps its own. What would lie past the end
is lost. -/
def overwritten (a : SharedArray size) (position : Nat) (bytes : List UInt8) : SharedArray size :=
  { a with bytes := a.bytes.mapIdx fun k b => if position ≤ k then bytes[k - position]?.getD b else b }

/-- How many of `count` bytes from `position` on there are. -/
def reach (size position count : Nat) : Nat := min count (size - position)

def move (a : SharedArray size) (i : Nat) (cursor : Option Nat) : SharedArray size :=
  { a with cursors := a.cursors.set i cursor }

def add (a : SharedArray size) (cursor : Nat) : FileAnswer × SharedArray size :=
  (.opened a.cursors.length, { a with cursors := a.cursors ++ [some cursor] })

def fetch (a : SharedArray size) (i position : Nat) (buffer : List UInt8) : FileAnswer × SharedArray size :=
  let count := reach size position buffer.length
  (.read count (a.shown position buffer), a.move i (some (position + count)))

/-- What the `i`th cursor does. -/
def step (a : SharedArray size) (i : Nat) (call : FileCall) : FileAnswer × SharedArray size :=
  match a.cursors[i]?.join, call with
  | none, _ => (.gone, a)
  | some _, .seek position => (.done, a.move i (some position.toNat))
  | some cursor, .tell => (.position cursor, a)
  | some cursor, .read buffer => a.fetch i cursor buffer
  | some _, .readAt position buffer => a.fetch i position.toNat buffer
  | some _, .writeAt position bytes =>
    (.written (reach size position.toNat bytes.length), a.overwritten position.toNat bytes)
  | some _, .length => (.length size, a)
  | some _, .reopen => a.add 0
  | some cursor, .clone => a.add cursor
  | some _, .drop => (.done, a.move i none)

/-- No cursor is more than a word. -/
def Bounded (a : SharedArray size) : Prop := ∀ c, some c ∈ a.cursors → c < wordLimit

variable {a : SharedArray size} {i position c : Nat} {buffer bytes : List UInt8}

theorem live_move_some (h : a.cursors[i]?.join = some c) (c' : Nat) : (a.move i (some c')).live = a.live := by
  obtain ⟨hi, hget⟩ := List.getElem?_eq_some_iff.mp (Option.join_eq_some_iff.mp h)
  have hle : (if (a.cursors[i]).isSome then 1 else 0) ≤ a.live := List.boole_getElem_le_countP hi
  rw [hget] at hle
  simp only [live, move, List.countP_set hi, hget, Option.isSome_some]
  exact Nat.sub_add_cancel hle

theorem live_move_none (h : a.cursors[i]?.join = some c) : (a.move i none).live = a.live - 1 := by
  obtain ⟨hi, hget⟩ := List.getElem?_eq_some_iff.mp (Option.join_eq_some_iff.mp h)
  simp [live, move, List.countP_set hi, hget]

theorem live_add (a : SharedArray size) (c : Nat) : (a.add c).2.live = a.live + 1 := by
  simp [live, add, List.countP_append]

theorem Bounded.move (h : a.Bounded) {cursor : Option Nat} (hc : ∀ c ∈ cursor, c < wordLimit) :
    (a.move i cursor).Bounded := by
  intro c hmem
  rcases List.mem_or_eq_of_mem_set hmem with hold | rfl
  · exact h c hold
  · exact hc c rfl

theorem Bounded.add (h : a.Bounded) (hc : c < wordLimit) : (a.add c).2.Bounded := by
  intro k hmem
  rcases List.mem_append.mp hmem with hold | hnew
  · exact h k hold
  · obtain rfl := Option.some.inj (List.mem_singleton.mp hnew)
    exact hc

/-- A read stops at the end and past the end nothing is read, so that the cursor stays a word. -/
theorem add_reach_lt (hsize : size < wordLimit) (hc : c < wordLimit) (count : Nat) :
    c + reach size c count < wordLimit := by
  unfold reach
  omega

theorem length_slice (l : List UInt8) (position count : Nat) :
    (slice l position count).length = reach l.length position count := by
  rw [slice, List.length_take, List.length_drop, reach]

theorem filled_slice (a : SharedArray size) (position : Nat) (buffer : List UInt8) :
    filled buffer (slice a.bytes.toList position buffer.length) = a.shown position buffer := by
  have hlen := length_slice a.bytes.toList position buffer.length
  rw [reach, Vector.length_toList] at hlen
  apply List.ext_getElem?
  intro k
  rw [filled, shown, List.getElem?_mapIdx, ← Vector.getElem?_toList]
  by_cases hk : k < (slice a.bytes.toList position buffer.length).length
  · have hbuffer : k < buffer.length := by omega
    have hbytes : position + k < a.bytes.toList.length := by
      rw [Vector.length_toList]
      omega
    rw [List.getElem?_append_left hk, slice, List.getElem?_take, if_pos hbuffer, List.getElem?_drop,
      List.getElem?_eq_getElem hbuffer, List.getElem?_eq_getElem hbytes]
    rfl
  · rw [List.getElem?_append_right (by omega), List.getElem?_drop, Nat.add_sub_of_le (by omega)]
    -- Either the array has ended or the buffer has.
    by_cases hbuffer : k < buffer.length
    · have hnone : a.bytes.toList[position + k]? = none := by
        rw [List.getElem?_eq_none_iff, Vector.length_toList]
        omega
      rw [hnone, List.getElem?_eq_getElem hbuffer]
      rfl
    · rw [List.getElem?_eq_none (Nat.le_of_not_lt hbuffer)]
      rfl

theorem toList_overwritten (a : SharedArray size) (position : Nat) (bytes : List UInt8) :
    (a.overwritten position bytes).bytes.toList =
      splice a.bytes.toList position (bytes.take (reach size position bytes.length)) := by
  have hlen : (bytes.take (reach size position bytes.length)).length = reach size position bytes.length :=
    List.length_take_of_le (Nat.min_le_left ..)
  have hfit : (bytes.take (reach size position bytes.length)).length ≤ a.bytes.toList.length - position := by
    rw [hlen, Vector.length_toList]
    exact Nat.min_le_right ..
  apply List.ext_getElem?
  intro k
  rw [getElem?_splice _ _ _ hfit, hlen, overwritten, Vector.toList_mapIdx, List.getElem?_mapIdx,
    List.getElem?_take]
  unfold reach
  by_cases hk : k < a.bytes.toList.length
  · have hsize := hk
    rw [Vector.length_toList] at hsize
    rw [List.getElem?_eq_getElem hk, Option.map_some]
    by_cases hposition : position ≤ k
    · rw [if_pos hposition]
      by_cases hbytes : k - position < bytes.length
      · rw [if_pos (by omega), if_pos (by omega), List.getElem?_eq_getElem hbytes]
        rfl
      · rw [if_neg (by omega), List.getElem?_eq_none (Nat.le_of_not_lt hbytes)]
        rfl
    · rw [if_neg hposition, if_neg (by omega)]
  · have hsize := hk
    rw [Vector.length_toList] at hsize
    rw [List.getElem?_eq_none (Nat.le_of_not_lt hk), if_neg (by omega)]
    rfl

end SharedArray

/-! ## Checked transfers -/

/-- The bytes from `start` up to `stop`, provided that they are all there. -/
def part? (l : List UInt8) (start stop : Nat) : Option (List UInt8) :=
  if start ≤ stop ∧ stop ≤ l.length then some (slice l start (stop - start)) else none

/-- Other bytes from `start` up to `stop`, provided that there are as many. -/
def replace? (l : List UInt8) (start stop : Nat) (bytes : List UInt8) : Option (List UInt8) :=
  if start ≤ stop ∧ stop ≤ l.length ∧ bytes.length = stop - start then some (splice l start bytes) else none

/-- A read of a file into a buffer: how much was read, the buffer and the cursor, provided that no sum or
difference overflows and no byte is used that is not there. -/
def fetch? (contents buffer : List UInt8) (cursor : Nat) : Option (Nat × List UInt8 × Nat) := do
  let start := min cursor contents.length
  let left ← wordSub? contents.length start
  let count := min buffer.length left
  let stop ← wordAdd? start count
  let bytes ← part? contents start stop
  let buffer ← replace? buffer 0 count bytes
  let cursor ← wordAdd? cursor count
  some (count, buffer, cursor)

/-- A write to a file, likewise: how much was written, and the file. -/
def store? (contents bytes : List UInt8) (position : Nat) : Option (Nat × List UInt8) := do
  let start := min position contents.length
  let left ← wordSub? contents.length start
  let count := min bytes.length left
  let stop ← wordAdd? start count
  let bytes ← part? bytes 0 count
  let contents ← replace? contents start stop bytes
  some (count, contents)

section Checked
open SharedArray (reach length_slice add_reach_lt)
variable {contents buffer bytes : List UInt8} {cursor position : Nat}

theorem reach_eq (contents : List UInt8) (position count : Nat) :
    min count (contents.length - min position contents.length) = reach contents.length position count := by
  unfold reach
  omega

theorem slice_reach (contents : List UInt8) (position count : Nat) :
    slice contents (min position contents.length) (reach contents.length position count) =
      slice contents position count := by
  apply List.ext_getElem?
  intro k
  simp only [slice, List.getElem?_take, List.getElem?_drop]
  unfold reach
  by_cases hk : k < min count (contents.length - position)
  · rw [if_pos hk, if_pos (by omega), Nat.min_eq_left (by omega)]
  · rw [if_neg hk]
    split
    · rw [List.getElem?_eq_none (by omega)]
    · rfl

theorem splice_reach (contents bytes : List UInt8) (position : Nat) :
    splice contents (min position contents.length) (bytes.take (reach contents.length position bytes.length)) =
      splice contents position (bytes.take (reach contents.length position bytes.length)) := by
  by_cases hle : position ≤ contents.length
  · rw [Nat.min_eq_left hle]
  · have hnone : reach contents.length position bytes.length = 0 := by
      unfold reach
      omega
    rw [hnone, List.take_zero, Nat.min_eq_right (by omega)]
    simp [splice, dropLike, List.take_of_length_le (Nat.le_of_not_le hle),
      List.drop_eq_nil_of_le (Nat.le_of_not_le hle)]

/-- Where the file is shorter than any word, nothing overflows. -/
theorem fetch?_eq (hlen : contents.length < wordLimit) (hcursor : cursor < wordLimit) :
    fetch? contents buffer cursor = some (reach contents.length cursor buffer.length,
      filled buffer (slice contents cursor buffer.length),
      cursor + reach contents.length cursor buffer.length) := by
  have hleft := wordSub?_of_le (Nat.min_le_right cursor contents.length)
  have hle : reach contents.length cursor buffer.length ≤ buffer.length := Nat.min_le_left ..
  have hend : min cursor contents.length + reach contents.length cursor buffer.length ≤ contents.length := by
    unfold reach
    omega
  have hstop := wordAdd?_of_lt (Nat.lt_of_le_of_lt hend hlen)
  have hnext := wordAdd?_of_lt (add_reach_lt hlen hcursor buffer.length)
  have hpart : part? contents (min cursor contents.length) (min cursor contents.length +
      reach contents.length cursor buffer.length) = some (slice contents cursor buffer.length) := by
    rw [part?, if_pos ⟨Nat.le_add_right .., hend⟩, Nat.add_sub_cancel_left, slice_reach]
  have hreplace : replace? buffer 0 (reach contents.length cursor buffer.length)
      (slice contents cursor buffer.length) = some (filled buffer (slice contents cursor buffer.length)) := by
    rw [replace?, if_pos ⟨Nat.zero_le _, hle, length_slice ..⟩, splice, dropLike_eq_drop]
    rfl
  simp only [fetch?, hleft, Option.bind_eq_bind, Option.bind_some, reach_eq, hstop, hpart, hreplace, hnext]

theorem store?_eq (hlen : contents.length < wordLimit) :
    store? contents bytes position = some (reach contents.length position bytes.length,
      splice contents position (bytes.take (reach contents.length position bytes.length))) := by
  have hleft := wordSub?_of_le (Nat.min_le_right position contents.length)
  have hle : reach contents.length position bytes.length ≤ bytes.length := Nat.min_le_left ..
  have hend : min position contents.length + reach contents.length position bytes.length ≤ contents.length := by
    unfold reach
    omega
  have hstop := wordAdd?_of_lt (Nat.lt_of_le_of_lt hend hlen)
  have hpart : part? bytes 0 (reach contents.length position bytes.length) =
      some (bytes.take (reach contents.length position bytes.length)) := by
    rw [part?, if_pos ⟨Nat.zero_le _, hle⟩]
    rfl
  have hcount : (bytes.take (reach contents.length position bytes.length)).length =
      min position contents.length + reach contents.length position bytes.length -
        min position contents.length := by
    rw [List.length_take_of_le hle, Nat.add_sub_cancel_left]
  simp only [store?, hleft, Option.bind_eq_bind, Option.bind_some, reach_eq, hstop, hpart, replace?,
    if_pos (And.intro (Nat.le_add_right ..) (And.intro hend hcount)), splice_reach]

end Checked

/-! ## Handles are cursors -/

namespace HandlePool
open SharedArray (reach)
variable {size file c i : Nat} {p : HandlePool} {a : SharedArray size} {others : FileStore}

/-- The handles are the cursors of one file, of which the bytes are the array. No other file has changed. -/
structure Shows (p : HandlePool) (file : Nat) (others : FileStore) (a : SharedArray size) : Prop where
  handles : p.handles = a.cursors.map (Option.map fun cursor => { file, cursor })
  node : p.files.nodes[file]? = some { contents := a.bytes.toList, handles := a.live }
  others : ∀ k ≠ file, p.files.nodes[k]? = others.nodes[k]?
  bounded : a.Bounded

namespace Shows

theorem handle (h : p.Shows file others a) (i : Nat) :
    p.handles[i]?.join = a.cursors[i]?.join.map fun cursor => { file, cursor } := by
  rw [h.handles, List.getElem?_map]
  rcases a.cursors[i]? with _ | _ | c <;> rfl

theorem node_eq (h : p.Shows file others a) :
    p.files.node file = { contents := a.bytes.toList, handles := a.live } := by
  rw [FileStore.node, Array.getD_eq_getD_getElem?, h.node, Option.getD_some]

theorem node_modify (h : p.Shows file others a) (f : FileNode → FileNode) :
    (p.files.modify file f).nodes[file]? = some (f { contents := a.bytes.toList, handles := a.live }) := by
  simp only [FileStore.modify, Array.getElem?_modify, if_true, h.node, Option.map_some]

theorem others_modify (h : p.Shows file others a) (f : FileNode → FileNode) {k : Nat} (hk : k ≠ file) :
    (p.files.modify file f).nodes[k]? = others.nodes[k]? := by
  simp only [FileStore.modify, Array.getElem?_modify, if_neg (Ne.symm hk), h.others k hk]

theorem read (h : p.Shows file others a) (c count : Nat) :
    p.files.read { file, cursor := c } count =
      (slice a.bytes.toList c count, { file, cursor := c + reach size c count }) := by
  have hlen := SharedArray.length_slice a.bytes.toList c count
  rw [Vector.length_toList] at hlen
  simp only [FileStore.read, h.node_eq, FileNode.readAt, FileNode.allowed, Option.elim_none, hlen]

theorem writeAt (h : p.Shows file others a) (position : Nat) (bytes : List UInt8) :
    p.files.writeAt file position bytes = (reach size position bytes.length, p.files.modify file fun _ =>
      { contents := (a.overwritten position bytes).bytes.toList, handles := a.live }) := by
  have hlen : a.bytes.toList.length = size := Vector.length_toList
  simp only [FileStore.writeAt, h.node_eq, FileNode.writeAt, FileNode.length, FileNode.allowed, Option.elim_none,
    hlen, SharedArray.toList_overwritten]
  rfl

theorem moved (h : p.Shows file others a) (hi : a.cursors[i]?.join = some c) {c' : Nat} (hc : c' < wordLimit) :
    (p.put i (some { file, cursor := c' })).Shows file others (a.move i (some c')) where
  handles := by rw [put, h.handles, SharedArray.move, List.map_set, Option.map_some]
  node := by rw [SharedArray.live_move_some hi]; exact h.node
  others := h.others
  bounded := h.bounded.move fun k hk => Option.some.inj hk ▸ hc

theorem dropped (h : p.Shows file others a) (hi : a.cursors[i]?.join = some c) :
    ({ p.put i none with files := p.files.release file } : HandlePool).Shows file others (a.move i none) where
  handles := by simp only [put, h.handles, SharedArray.move, List.map_set, Option.map_none]
  node := by rw [FileStore.release, h.node_modify, SharedArray.live_move_none hi]; rfl
  others _ hk := h.others_modify _ hk
  bounded := h.bounded.move nofun

theorem added (h : p.Shows file others a) (hc : c < wordLimit) :
    (p.add ({ file, cursor := c }, p.files.retain file)).2.Shows file others (a.add c).2 where
  handles := by simp only [HandlePool.add, SharedArray.add, h.handles, List.map_append, List.map_cons,
    Option.map_some, List.map_nil]
  node := by rw [SharedArray.live_add]; exact h.node_modify _
  others _ hk := h.others_modify _ hk
  bounded := h.bounded.add hc

theorem overwritten (h : p.Shows file others a) (position : Nat) (bytes : List UInt8) :
    ({ p with files := (p.files.writeAt file position bytes).2 } : HandlePool).Shows file others
      (a.overwritten position bytes) where
  handles := h.handles
  node := by rw [h.writeAt]; exact h.node_modify _
  others k hk := by rw [h.writeAt]; exact h.others_modify _ hk
  bounded := h.bounded

theorem received (h : p.Shows file others a) (hsize : size < wordLimit) (hi : a.cursors[i]?.join = some c)
    {position : Nat} (hposition : position < wordLimit) (buffer : List UInt8) :
    (p.receive i buffer (p.files.read { file, cursor := position } buffer.length)).1 =
        (a.fetch i position buffer).1 ∧
      (p.receive i buffer (p.files.read { file, cursor := position } buffer.length)).2.Shows file others
        (a.fetch i position buffer).2 := by
  rw [h.read]
  have hlen := SharedArray.length_slice a.bytes.toList position buffer.length
  rw [Vector.length_toList] at hlen
  refine ⟨?_, h.moved hi (SharedArray.add_reach_lt hsize hposition _)⟩
  simp only [receive, SharedArray.fetch, hlen, SharedArray.filled_slice]

/-- One call has the same answer from the array, and shows it afterwards. -/
theorem step (h : p.Shows file others a) (hsize : size < wordLimit) (i : Nat) (call : FileCall) :
    (p.step i call).1 = (a.step i call).1 ∧ (p.step i call).2.Shows file others (a.step i call).2 := by
  have hhandle := h.handle i
  unfold HandlePool.step SharedArray.step
  rw [hhandle]
  cases hi : a.cursors[i]?.join with
  | none => exact ⟨rfl, h⟩
  | some c =>
    have hc : c < wordLimit := h.bounded c (List.mem_of_getElem? (Option.join_eq_some_iff.mp hi))
    cases call with
    | seek position => exact ⟨rfl, h.moved hi position.toNat_lt⟩
    | tell => exact ⟨rfl, h⟩
    | read buffer => exact h.received hsize hi hc buffer
    | readAt position buffer => exact h.received hsize hi position.toNat_lt buffer
    | writeAt position bytes =>
      refine ⟨?_, h.overwritten position.toNat bytes⟩
      exact congrArg (FileAnswer.written ·.1) (h.writeAt position.toNat bytes)
    | length =>
      refine ⟨?_, h⟩
      simp only [Option.map_some, FileStore.length, h.node_eq, FileNode.length, Vector.length_toList]
    | reopen =>
      refine ⟨?_, h.added (by decide)⟩
      simp only [Option.map_some, HandlePool.add, SharedArray.add, h.handles, List.length_map]
    | clone =>
      refine ⟨?_, h.added hc⟩
      simp only [Option.map_some, HandlePool.add, SharedArray.add, h.handles, List.length_map]
    | drop => exact ⟨rfl, h.dropped hi⟩

end Shows

theorem create_shows (files : FileStore) (contents : List UInt8) :
    (create files contents).Shows files.nodes.size files (.start contents) where
  handles := rfl
  node := by simp only [create, FileStore.create, Array.getElem?_push_size]; rfl
  others := by
    intro k hk
    rw [create, FileStore.create, Array.getElem?_push, if_neg hk]
  bounded := by
    intro c hc
    obtain rfl := Option.some.inj (List.mem_singleton.mp hc)
    decide

/-- No transfer of any handle goes wrong: every sum, difference and part of a buffer or of the file is
there, and what comes of it is what the store says. -/
structure Safe (p : HandlePool) : Prop where
  read : ∀ h, some h ∈ p.handles → ∀ buffer,
    let read := p.files.read h buffer.length
    fetch? (p.files.node h.file).contents buffer h.cursor =
      some (read.1.length, filled buffer read.1, read.2.cursor)
  readAt : ∀ h, some h ∈ p.handles → ∀ (position : UInt64) buffer,
    let read := p.files.readAt h position.toNat buffer.length
    fetch? (p.files.node h.file).contents buffer position.toNat =
      some (read.1.length, filled buffer read.1, read.2.cursor)
  writeAt : ∀ h, some h ∈ p.handles → ∀ (position : UInt64) bytes,
    let written := p.files.writeAt h.file position.toNat bytes
    store? (p.files.node h.file).contents bytes position.toNat =
      some (written.1, (written.2.node h.file).contents)

theorem Shows.safe (h : p.Shows file others a) (hsize : size < wordLimit) : p.Safe := by
  have hmem : ∀ k, some k ∈ p.handles → ∃ c < wordLimit, k = { file, cursor := c } := by
    intro k hk
    rw [h.handles] at hk
    obtain ⟨_ | c, hc, heq⟩ := List.mem_map.mp hk
    · cases heq
    · exact ⟨c, h.bounded c hc, (Option.some.inj heq).symm⟩
  have hlen : a.bytes.toList.length = size := Vector.length_toList
  have hlt : a.bytes.toList.length < wordLimit := by rwa [hlen]
  have hfetch : ∀ {c} buffer, c < wordLimit →
      let read := p.files.read { file, cursor := c } buffer.length
      fetch? (p.files.node file).contents buffer c =
        some (read.1.length, filled buffer read.1, read.2.cursor) := by
    intro c buffer hc
    simp only [h.read, h.node_eq, fetch?_eq hlt hc, SharedArray.length_slice, hlen]
  constructor
  · rintro k hk buffer
    obtain ⟨c, hc, rfl⟩ := hmem k hk
    exact hfetch buffer hc
  · rintro k hk position buffer
    obtain ⟨c, hc, rfl⟩ := hmem k hk
    exact hfetch buffer position.toNat_lt
  · rintro k hk position bytes
    obtain ⟨c, hc, rfl⟩ := hmem k hk
    have hafter := (h.overwritten position.toNat bytes).node_eq
    dsimp only at hafter ⊢
    rw [hafter, h.node_eq, store?_eq hlt, SharedArray.toList_overwritten, h.writeAt, hlen]

end HandlePool

/-! ## What was written is read -/

namespace SharedArray
variable {size position : Nat} {a : SharedArray size} {bytes buffer : List UInt8}

theorem shown_overwritten (hfit : reach size position bytes.length = bytes.length)
    (hlen : buffer.length = bytes.length) : (a.overwritten position bytes).shown position buffer = bytes := by
  apply List.ext_getElem?
  intro k
  rw [shown, List.getElem?_mapIdx]
  unfold reach at hfit
  by_cases hk : k < bytes.length
  · have hsize : position + k < size := by omega
    rw [List.getElem?_eq_getElem (l := buffer) (by omega), Option.map_some, List.getElem?_eq_getElem hk]
    simp [overwritten, hsize, hk]
  · rw [List.getElem?_eq_none (by omega), List.getElem?_eq_none (by omega)]
    rfl

/-- What was written as a whole is what the next read gives, whichever cursor reads. -/
theorem read_written {i j : Nat} {position : UInt64} (hlen : buffer.length = bytes.length)
    (hwrite : (a.step i (.writeAt position bytes)).1 = .written bytes.length)
    (hj : (a.cursors[j]?.join).isSome) :
    ((a.step i (.writeAt position bytes)).2.step j (.readAt position buffer)).1 =
      .read bytes.length bytes := by
  obtain ⟨c, hc⟩ := Option.isSome_iff_exists.mp hj
  cases hi : a.cursors[i]?.join with
  | none =>
    simp only [step, hi] at hwrite
    cases hwrite
  | some c' =>
    have hstep : a.step i (.writeAt position bytes) =
        (.written (reach size position.toNat bytes.length), a.overwritten position.toNat bytes) := by
      simp only [step, hi]
    rw [hstep] at hwrite ⊢
    have hfit : reach size position.toNat bytes.length = bytes.length := FileAnswer.written.inj hwrite
    have hcursor : (a.overwritten position.toNat bytes).cursors[j]?.join = some c := hc
    simp only [step, hcursor, fetch, hlen, hfit, shown_overwritten hfit hlen]

end SharedArray

/-- Whatever the handles of a file are asked for, they answer as cursors into one array of as many bytes, and
no transfer goes wrong. What one of them writes in full, any of them reads. -/
theorem handles_share_array {files : FileStore} {contents : List UInt8} {calls : List (Nat × FileCall)}
    {answers : List FileAnswer} {p : HandlePool} (hlen : contents.length < wordLimit)
    (hcalls : callAll HandlePool.step (.create files contents) calls = (answers, p)) :
    ∃ a : SharedArray contents.length,
      callAll SharedArray.step (.start contents) calls = (answers, a) ∧
      p.Shows files.nodes.size files a ∧ p.Safe ∧
      ∀ i j position (bytes buffer : List UInt8), buffer.length = bytes.length →
        (p.step i (.writeAt position bytes)).1 = .written bytes.length → (p.handles[j]?.join).isSome →
        ((p.step i (.writeAt position bytes)).2.step j (.readAt position buffer)).1 =
          .read bytes.length bytes := by
  obtain ⟨hanswers, hshows⟩ := callAll_related (f := HandlePool.step)
    (R := fun p (a : SharedArray contents.length) => p.Shows files.nodes.size files a)
    (fun p a i call h => h.step hlen i call) (HandlePool.create_shows files contents) calls
  rw [hcalls] at hanswers hshows
  refine ⟨_, Prod.ext hanswers.symm rfl, hshows, hshows.safe hlen, ?_⟩
  intro i j position bytes buffer hbuffer hwrite hj
  obtain ⟨hwritten, hafter⟩ := hshows.step hlen i (.writeAt position bytes)
  rw [(hafter.step hlen j _).1]
  refine SharedArray.read_written hbuffer (hwritten ▸ hwrite) ?_
  rwa [hshows.handle, Option.isSome_map] at hj

/-- A clone keeps the cursor, which is past the end; another handle starts at 0. A write is cut short at the
end, and both see it. -/
theorem handles_share_array_past_end :
    let calls : List (Nat × FileCall) := [(0, .seek 7), (0, .clone), (0, .reopen), (1, .read [9, 9]),
      (1, .writeAt 2 [5, 6, 7]), (2, .read [9, 9, 9]), (1, .tell), (2, .tell), (0, .drop), (0, .tell),
      (1, .readAt 3 [9, 9])]
    let answers : List FileAnswer := [.done, .opened 1, .opened 2, .read 0 [9, 9], .written 2,
      .read 3 [1, 2, 5], .position 7, .position 3, .done, .gone, .read 1 [6, 9]]
    ∃ p : HandlePool, callAll HandlePool.step (.create {} [1, 2, 3, 4]) calls = (answers, p) ∧
      ∃ a : SharedArray 4, callAll SharedArray.step (.start [1, 2, 3, 4]) calls = (answers, a) ∧
        p.Shows 0 {} a ∧ p.Safe := by
  intro calls answers
  have hcalls : callAll HandlePool.step (.create {} [1, 2, 3, 4]) calls = (answers, _) :=
    Prod.ext (by decide +kernel) rfl
  obtain ⟨a, ha, hshows, hsafe, -⟩ := handles_share_array (by decide) hcalls
  exact ⟨_, hcalls, a, ha, hshows, hsafe⟩

end DemandPaging
