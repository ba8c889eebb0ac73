import DemandPaging.Proofs.FlatChanges
import DemandPaging.Proofs.Reached

/-! # Cuts

A copy from or to user memory may be cut anywhere. What comes behind the cut finds the page that the cut
is in as the whole copy does: in its frame, mapped as the access needs it, and marked. So nothing tells
one copy from several, be it in memory, in the answer or in what is reported.
-/
namespace DemandPaging

/-! ## Bytes -/

theorem slice_add (l : List UInt8) (start j k : Nat) :
    slice l start (j + k) = slice l start j ++ slice l (start + j) k := by
  rw [slice, List.take_add, List.drop_drop, slice, slice]

theorem overwrite_append {n : Nat} (store : Vector UInt8 n) {start : Nat} {a b : List UInt8}
    (h : a.length + b.length ≤ n - start) :
    overwrite (overwrite store start a) (start + a.length) b = overwrite store start (a ++ b) := by
  have ha : a.take (n - start) = a := List.take_of_length_le (by omega)
  have hb : b.take (n - (start + a.length)) = b := List.take_of_length_le (by omega)
  have hab : (a ++ b).take (n - start) = a ++ b := List.take_of_length_le (by rw [List.length_append]; omega)
  have hlen : (splice store.toList start a).length = n := by
    rw [length_splice _ _ _ (by rw [Vector.length_toList]; omega), Vector.length_toList]
  apply Vector.toList_inj.mp
  simp only [toList_overwrite, ha, hb, hab]
  apply List.ext_getElem?
  intro i
  rw [getElem?_splice _ _ _ (by omega), getElem?_splice _ _ _ (by rw [Vector.length_toList]; omega),
    getElem?_splice _ _ _ (by rw [Vector.length_toList, List.length_append]; omega), List.length_append]
  by_cases hfirst : start ≤ i ∧ i < start + a.length
  · rw [if_neg (by omega), if_pos hfirst, if_pos (by omega), List.getElem?_append_left (by omega)]
  · by_cases hlast : start + a.length ≤ i ∧ i < start + a.length + b.length
    · rw [if_pos hlast, if_pos (by omega), List.getElem?_append_right (by omega), Nat.sub_add_eq]
    · rw [if_neg hlast, if_neg hfirst, if_neg (by omega)]

/-! ## Copies, chunk by chunk -/

section Copies
variable {π : Type} {m : Machine π}

/-- What a copy answers: the bytes that were read, and the error that it stopped at. -/
abbrev Copied := List UInt8 × Option MemoryError

/-- A copy and, unless it stops at an error, another one behind it. -/
def Run.followed (x y : Run π Copied) : Run π Copied := do
  match ← x with
  | (bytes, some e) => return (bytes, some e)
  | (bytes, none) =>
    let (rest, failure) ← y
    return (bytes ++ rest, failure)

/-- A copy to or from `addr` on, of as many bytes as there are elements, in chunks that end with their
page. -/
def chunked {α : Type} (body : Nat → List α → Run π Copied) (addr : Nat) (l : List α) : Run π Copied :=
  if h : 0 < l.length then
    let size := chunkSize addr l.length
    have := chunkSize_pos addr h
    (body addr (l.take size)).followed (chunked body (addr + size) (l.drop size))
  else pure ([], none)
termination_by l.length
decreasing_by
  simp only [List.length_drop]
  omega

namespace Run
variable {x x' y z : Run π Copied}

theorem followed_assoc : (x.followed y).followed z = x.followed (y.followed z) := by
  simp only [followed, bind_assoc]
  apply bind_congr
  rintro ⟨bytes, _ | e⟩
  · simp only [bind_assoc]
    apply bind_congr
    rintro ⟨rest, _ | e⟩
    · simp only [pure_bind, bind_assoc, List.append_assoc]
    · simp only [pure_bind]
  · simp only [pure_bind]

theorem pure_followed : (pure ([], none) : Run π Copied).followed y = y := by
  simp only [followed, pure_bind, List.nil_append]
  exact bind_pure y

theorem followed_pure : x.followed (pure ([], none)) = x := by
  refine Eq.trans (bind_congr (g := pure) ?_) (bind_pure x)
  rintro ⟨bytes, _ | e⟩
  · simp only [pure_bind, List.append_nil]
  · rfl

theorem followed_of_ok {bytes rest : List UInt8} {failure : Option MemoryError} {after last : Machine π}
    (hx : x m = .ok (bytes, none) after) (hy : y after = .ok (rest, failure) last) :
    x.followed y m = .ok (bytes ++ rest, failure) last :=
  (bind_of_ok hx).trans (bind_of_ok hy)

theorem followed_of_error {bytes : List UInt8} {e : MemoryError} {after : Machine π}
    (hx : x m = .ok (bytes, some e) after) : x.followed y m = .ok (bytes, some e) after :=
  bind_of_ok hx

theorem followed_congr_left (h : x m = x' m) : x.followed y m = x'.followed y m := bind_congr_left _ h

theorem Ends.followed_congr {stop : Prop} (h : Ends stop x m fun _ after => y after = z after) :
    x.followed y m = x.followed z m := by
  refine bind_congr (h.imp ?_)
  rintro ⟨bytes, _ | e⟩ after hafter
  · exact bind_congr_left _ hafter
  · rfl

end Run

section Chunks
variable {α : Type} {body : Nat → List α → Run π Copied} {addr : Nat}

theorem chunked_nil : chunked body addr [] = pure ([], none) := by
  rw [chunked, dif_neg (by simp)]

theorem chunked_of_pos {l : List α} (h : 0 < l.length) : chunked body addr l =
    (body addr (l.take (chunkSize addr l.length))).followed
      (chunked body (addr + chunkSize addr l.length) (l.drop (chunkSize addr l.length))) := by
  rw [chunked, dif_pos h]

theorem chunked_of_fits {l : List α} (hpos : 0 < l.length) (hfits : l.length ≤ pageSize - pageOffset addr) :
    chunked body addr l = body addr l := by
  have hsize : chunkSize addr l.length = l.length := Nat.min_eq_right hfits
  rw [chunked_of_pos hpos, hsize, List.take_length, List.drop_length, chunked_nil, Run.followed_pure]

/-- Where every chunk may be cut, so may the whole copy. -/
theorem chunked_append {I : Machine π → Prop} (hkeeps : ∀ addr l, Run.Preserves I (body addr l))
    (hcut : ∀ {m addr a b}, I m → a.length < pageSize - pageOffset addr →
      a.length + b.length ≤ pageSize - pageOffset addr →
      body addr (a ++ b) m = (body addr a).followed (body (addr + a.length) b) m)
    (hm : I m) (addr : Nat) (a b : List α) :
    chunked body addr (a ++ b) m = (chunked body addr a).followed (chunked body (addr + a.length) b) m := by
  induction hlen : a.length using Nat.strongRecOn generalizing m addr a with
  | ind count ih =>
  subst hlen
  rcases Nat.eq_zero_or_pos a.length with hnil | hpos
  · obtain rfl := List.length_eq_zero_iff.mp hnil
    rw [chunked_nil, Run.pure_followed, List.nil_append, List.length_nil, Nat.add_zero]
  have hroom := chunkSize_pos addr hpos
  have hboth : 0 < (a ++ b).length := by
    rw [List.length_append]
    omega
  by_cases hlong : pageSize - pageOffset addr ≤ a.length
  · -- The first chunk lies before the cut.
    have hsize : chunkSize addr (a ++ b).length = chunkSize addr a.length := by
      simp only [chunkSize, List.length_append] at hroom ⊢
      omega
    have hle : chunkSize addr a.length ≤ a.length := Nat.min_le_right ..
    rw [chunked_of_pos hboth, chunked_of_pos hpos, hsize, Run.followed_assoc,
      List.take_append_of_le_length hle, List.drop_append_of_le_length hle]
    refine (((hkeeps _ _).ends m hm).imp fun _ after hafter => ?_).followed_congr
    have hrest : (a.drop (chunkSize addr a.length)).length = a.length - chunkSize addr a.length :=
      List.length_drop
    rw [ih _ (by rw [hrest]; omega) hafter _ _ rfl, hrest, Nat.add_assoc, Nat.add_sub_cancel' hle]
  · rw [chunked_of_fits hpos (Nat.le_of_not_le hlong)]
    rcases Nat.eq_zero_or_pos b.length with hnil | hmore
    · obtain rfl := List.length_eq_zero_iff.mp hnil
      rw [List.append_nil, chunked_of_fits hpos (Nat.le_of_not_le hlong), chunked_nil, Run.followed_pure]
    · -- The cut is in the first chunk, and what comes behind it begins with the rest of that.
      have hshort := Nat.lt_of_not_le hlong
      have hoff := pageOffset_add hshort
      have hsize : chunkSize addr (a ++ b).length = a.length + chunkSize (addr + a.length) b.length := by
        simp only [chunkSize, List.length_append, hoff]
        omega
      rw [chunked_of_pos hboth, chunked_of_pos hmore, hsize, List.take_length_add_append,
        List.drop_length_add_append, ← Run.followed_assoc, Nat.add_assoc]
      apply Run.followed_congr_left
      apply hcut hm hshort
      rw [List.length_take]
      simp only [chunkSize, hoff]
      omega

end Chunks

end Copies

/-! ## Pages that an access finds as it leaves them -/

theorem PageDirectory.mark_eq_self {d : PageDirectory} {f : PageTableEntry.Flag} {va : Nat} {on : Bool}
    {e : PageTableEntry} (he : d.entry? va = some e) (hput : e.put f on = e) : d.mark f va on = d := by
  have hentries : (d.mark f va on).entries = d.entries := by
    apply Std.ExtTreeMap.ext_getElem?
    intro a
    rw [getElem?_mark he, hput]
    split
    · rename_i ha
      rw [ha]
      exact he.symm
    · rfl
  cases d
  exact congrArg PageDirectory.mk hentries

namespace Machine
variable {π : Type} {m : Machine π} {s va n : Nat} {write : Bool}

theorem modifySpace_eq_self {f : Space → Space} (h : f (m.space s) = m.space s) : m.modifySpace s f = m := by
  have hspaces : m.spaces.modify s f = m.spaces := by
    apply Array.ext_getElem?
    intro t
    rw [Array.getElem?_modify]
    split
    · rename_i ht
      subst ht
      cases hs : m.spaces[s]? with
      | none => rfl
      | some space =>
        rw [Machine.space, Array.getD_eq_getD_getElem?, hs, Option.getD_some] at h
        rw [Option.map_some, h]
    · rfl
  cases m
  exact congrArg (Machine.mk _ _ _ · _ _) hspaces

theorem setContents_setContents (c c' : PageBytes) : (m.setContents n c).setContents n c' = m.setContents n c' := by
  have hframes : (m.frames.setContents n c).setContents n c' = m.frames.setContents n c' := by
    simp only [FrameTable.setContents, FrameTable.modify]
    congr 1
    apply Array.ext_getElem?
    intro k
    simp only [Array.getElem?_modify]
    split
    · rw [Option.map_map]
      rfl
    · rfl
  simp only [setContents, hframes]

theorem contents_setContents (hn : n < m.frames.size) (c : PageBytes) : (m.setContents n c).contents n = c := by
  rw [contents_eq, memory_setContents hn]
  simp [Memory.setFrame]

/-- The page at `va` is in frame `n`, mapped as an access needs it and marked as one leaves it. -/
structure Primed (m : Machine π) (s va n : Nat) (write : Bool) : Prop where
  page : ∃ page, m.page? s va = some page ∧ page.frame = some n
  entry : ∃ e, (m.space s).directory.entry? va = some e ∧ (write = true → e.has .writable = true) ∧
    e.touch (m.space s).recordsAccess write = e

theorem recordsAccess_touch (t : Nat) :
    ((m.touch s va write).space t).recordsAccess = (m.space t).recordsAccess := by
  rw [touch, space_modifySpace]
  split
  · rename_i h
    rw [h.1]
    cases hr : (m.space s).recordsAccess <;> cases write <;> simp [Space.recordAccess, Space.setDirty, hr]
  · rfl

theorem primed_touch (h : m.memory.Mapped s (pageDown va) write) :
    ∃ page n, m.page? s (pageDown va) = some page ∧ page.frame = some n ∧
      (m.touch s (pageDown va) write).Primed s (pageDown va) n write := by
  obtain ⟨page, n, e, hp, hn, he, hw⟩ := h
  have hpage : m.page? s (pageDown va) = some page := by
    rw [page?_eq, pageDown_pageDown, hp]
  have hentry : m.memory.entries s (pageDown (pageDown va)) = some e := by
    rw [pageDown_pageDown, he]
  refine ⟨page, n, hpage, hn, ⟨page, ?_, hn⟩, e.touch (m.space s).recordsAccess write, ?_, ?_, ?_⟩
  · rw [page?_eq, pages_touch, ← page?_eq, hpage]
  · rw [entry?_eq, memory_touch write hentry]
    exact setAt_self
  · rw [PageTableEntry.writable_touch]
    exact hw
  · rw [recordsAccess_touch, PageTableEntry.touch_touch]

namespace Primed

theorem setContents (h : m.Primed s va n write) (c : PageBytes) : (m.setContents n c).Primed s va n write :=
  ⟨h.page, h.entry⟩

theorem lt_size (h : m.Primed s va n write) (hvalid : m.memory.Valid) : n < m.frames.size := by
  obtain ⟨page, hpage, hn⟩ := h.page
  exact (hvalid.sound.resident_frame hpage hn).2

/-- A second access marks nothing that the first did not. -/
theorem touch (h : m.Primed s va n write) : m.touch s va write = m := by
  obtain ⟨e, he, -, htouch⟩ := h.entry
  apply modifySpace_eq_self
  have hdirty (hw : write = true) : (m.space s).directory.setDirty va true = (m.space s).directory := by
    apply PageDirectory.mark_eq_self he
    apply PageTableEntry.put_eq_self
    rw [← htouch, PageTableEntry.dirty_touch, hw, Bool.true_or]
  have haccessed (hr : (m.space s).recordsAccess = true) :
      (m.space s).directory.setAccessed va true = (m.space s).directory := by
    apply PageDirectory.mark_eq_self he
    apply PageTableEntry.put_eq_self
    rw [← htouch, hr]
    cases write <;> simp [PageTableEntry.touch, PageTableEntry.has_put]
  have hrecord : (m.space s).recordAccess va = m.space s := by
    rw [Space.recordAccess]
    split
    · rename_i hr
      rw [haccessed hr]
    · rfl
  cases hw : write with
  | false => exact hrecord
  | true =>
    rw [hrecord, if_pos rfl, Space.setDirty, hdirty hw]

end Primed

end Machine

variable {π : Type} [ReplacementPolicy π] {m : Machine π} {s n : Nat} {write : Bool}

/-- One round of the search for the frame of an access. It answers none where the page has lost its frame
since it was faulted in. -/
def lookUp (s esp addr : Nat) (write : Bool) : Attempt π (Option Nat) := do
  let va := pageDown addr
  let m ← get
  if needsFault m s va write then
    let notPresent := ((m.space s).directory.frame? va).isNone
    handleFault s { addr, user := false, write, notPresent } esp
  match (← get).page? s va with
  | none => throw .invalidMapping
  | some page =>
    match page.frame with
    | none => return none
    | some n =>
      modify (·.touch s va write)
      return some n

theorem pageFor_succ (esp addr rounds : Nat) : pageFor s esp addr write (rounds + 1) =
    (do
      match ← lookUp s esp addr write with
      | some n => return n
      | none => pageFor s esp addr write rounds : Attempt π Nat) := by
  have hfound : ∀ m : Machine π, (match m.page? s (pageDown addr) with
      | none => throw .invalidMapping
      | some page => match page.frame with
        | none => pageFor s esp addr write rounds
        | some n => do
          modify (·.touch s (pageDown addr) write)
          return n : Attempt π Nat) =
      (match m.page? s (pageDown addr) with
      | none => throw .invalidMapping
      | some page => match page.frame with
        | none => return none
        | some n => do
          modify (·.touch s (pageDown addr) write)
          return some n : Attempt π (Option Nat)) >>= fun
        | some n => return n
        | none => pageFor s esp addr write rounds := by
    intro m
    split
    · rfl
    · split
      · simp only [pure_bind]
      · simp only [bind_assoc, pure_bind]
  simp only [pageFor, lookUp, bind_assoc]
  apply bind_congr
  intro m
  split
  · simp only [bind_assoc]
    apply bind_congr
    intro _
    apply bind_congr
    exact hfound
  · simp only [bind_assoc]
    apply bind_congr
    exact hfound

open Machine in
/-- The first round finds the frame, and leaves the page primed for the next access. -/
theorem lookUp_primes (h : m.memory.Valid) (hs : s < m.spaces.size) (esp addr : Nat) (write : Bool) :
    Attempt.Ends False (lookUp s esp addr write) m
      (fun found after => ∃ n, found = some n ∧ after.Primed s (pageDown addr) n write) fun _ _ => True := by
  have hnone : ((m.space s).directory.frame? (pageDown addr)).isNone =
      (m.memory.entries s (pageDown addr)).isNone := by
    rw [PageDirectory.frame?, entry?_eq, pageDown_pageDown, Option.isNone_map]
  simp only [lookUp, Attempt.ends_bind, Attempt.ends_get, Attempt.ends_ite]
  constructor
  · intro _
    refine (handleFault_ends h hs _ esp).imp ?_ fun _ _ _ => trivial
    rintro _ m₁ ⟨cs, -, -, -, hmapped⟩
    obtain ⟨page, n, hpage, hn, hprimed⟩ := primed_touch (hmapped fun _ => hnone)
    simp only [hpage, hn, Attempt.ends_bind, Attempt.ends_modify, Attempt.ends_pure]
    exact ⟨n, rfl, hprimed⟩
  · intro hfault
    have hmapped := mapped_of_needsFault h (Bool.not_eq_true _ ▸ hfault)
    rw [pageDown_pageDown] at hmapped
    obtain ⟨page, n, hpage, hn, hprimed⟩ := primed_touch hmapped
    simp only [hpage, hn, Attempt.ends_bind, Attempt.ends_modify, Attempt.ends_pure]
    exact ⟨n, rfl, hprimed⟩

theorem pageFor_primes (h : m.memory.Valid) (hs : s < m.spaces.size) (esp addr : Nat) (write : Bool)
    (rounds : Nat) :
    Attempt.Ends False (pageFor s esp addr write (rounds + 1)) m
      (fun n after => after.Primed s (pageDown addr) n write) fun _ _ => True := by
  rw [pageFor_succ]
  apply Attempt.ends_bind.mpr
  refine (lookUp_primes h hs esp addr write).imp ?_ fun _ _ he => he
  rintro _ after ⟨n, rfl, hprimed⟩
  exact hprimed

/-- On a primed page an access does nothing more. -/
theorem pageFor_of_primed {addr : Nat} (h : m.Primed s (pageDown addr) n write) (esp rounds : Nat) :
    pageFor s esp addr write (rounds + 1) m = .ok (.ok n) m := by
  have hfault : needsFault m s (pageDown addr) write = false := by
    obtain ⟨e, he, hw, -⟩ := h.entry
    cases write <;> simp [needsFault, PageDirectory.frame?, PageDirectory.isWritable, PageDirectory.has, he, hw]
  obtain ⟨page, hpage, hn⟩ := h.page
  have hends : Attempt.Ends False (pageFor s esp addr write (rounds + 1)) m
      (fun k after => k = n ∧ after = m) fun _ _ => False := by
    simp only [pageFor, Attempt.ends_bind, Attempt.ends_get, hfault, Bool.false_eq_true, if_false, hpage, hn,
      Attempt.ends_modify, Attempt.ends_pure, h.touch, and_self]
  obtain ⟨k, after, hx, rfl, rfl⟩ := hends.succeeds
  exact hx

open Memory (Change) in
/-- What a copy finds valid it leaves valid. -/
theorem survives_valid (s : Nat) :
    Machine.Survives s fun m : Machine π => m.memory.Valid ∧ s < m.spaces.size where
  fault fault esp := by
    constructor
    rintro m ⟨hvalid, hs⟩
    have hinside {cs : List Change} (hcs : ∀ c ∈ cs, c.OfStack s) : ∀ c ∈ cs, c.Inside := by
      intro c hc
      rcases hcs c hc with ⟨serial, va, -, rfl⟩ | ⟨page, rfl⟩ <;> trivial
    refine ((handleFault_ends hvalid hs fault esp).imp ?_ ?_).weaken False.elim
    · rintro _ after ⟨cs, hcs, hcourse, -⟩
      exact ⟨hvalid.course hcourse, Nat.lt_of_lt_of_eq hs (hcourse.spaces_eq (hinside hcs.ofStack)).symm⟩
    · rintro _ after ⟨cs, hcs, hquiet, -⟩
      exact ⟨hvalid.course hquiet, Nat.lt_of_lt_of_eq hs (hquiet.spaces_eq (hinside hcs.ofStack)).symm⟩
  touch m addr write page n hm hp hf :=
    ⟨Machine.valid_touch hm.1 write hp hf, (Machine.spaces_modifySpace _).symm ▸ hm.2⟩
  contents m n c hm := ⟨Machine.valid_setContents hm.1 n c, hm.2⟩

/-- What an attempt to read comes to as a copy. -/
def copied (x : Attempt π (List UInt8)) : Run π Copied := do
  match ← x.run with
  | .error e => return ([], some e)
  | .ok bytes => return (bytes, none)

/-- What an attempt to write comes to as a copy. -/
def written (x : Attempt π Unit) : Run π Copied := do
  match ← x.run with
  | .error e => return ([], some e)
  | .ok _ => return ([], none)

section Copied
omit [ReplacementPolicy π]
variable {x y : Attempt π (List UInt8)} {after : Machine π}

theorem copied_of_ok {bytes : List UInt8} (h : x m = .ok (.ok bytes) after) :
    copied x m = .ok (bytes, none) after := by
  simp only [copied, ExceptT.run, bind, EStateM.bind, h]
  rfl

theorem copied_of_error {e : MemoryError} (h : x m = .ok (.error e) after) :
    copied x m = .ok ([], some e) after := by
  simp only [copied, ExceptT.run, bind, EStateM.bind, h]
  rfl

theorem written_bind (x y : Attempt π Unit) : written (do x; y) = (written x).followed (written y) := by
  simp only [written, Run.followed, ExceptT.run_bind, bind_assoc]
  apply bind_congr
  rintro (e | ⟨⟩)
  · simp only [pure_bind]
  · simp only [pure_bind]
    apply bind_congr
    rintro (e | ⟨⟩) <;> simp only [pure_bind, List.nil_append]

theorem written_eq (x : Attempt π Unit) (m : Machine π) : written x m = match x m with
    | .ok (.ok _) after => .ok ([], none) after
    | .ok (.error e) after => .ok ([], some e) after
    | .error a after => .error a after := by
  simp only [written, ExceptT.run, bind, EStateM.bind]
  rcases x m with ⟨_ | _, after⟩ | ⟨a, after⟩ <;> rfl

/-- Nothing of an attempt to write is lost. -/
theorem eq_of_written {x y : Attempt π Unit} (h : written x m = written y m) : x m = y m := by
  rw [written_eq, written_eq] at h
  revert h
  rcases x m with ⟨_ | ⟨⟩, _⟩ | _ <;> rcases y m with ⟨_ | ⟨⟩, _⟩ | _ <;> simp

theorem preserves_copied {I : Machine π → Prop} (hx : Attempt.Preserves I x) : Run.Preserves I (copied x) := by
  apply hx.run.bind
  rintro (e | bytes) <;> exact Run.preserves_pure _

theorem preserves_written {I : Machine π → Prop} {x : Attempt π Unit} (hx : Attempt.Preserves I x) :
    Run.Preserves I (written x) := by
  apply hx.run.bind
  rintro (e | ⟨⟩) <;> exact Run.preserves_pure _

end Copied

/-! ## Cuts inside a page -/

theorem readChunk_of_ok {addr : Nat} {esp : Nat} {after : Machine π} (count : Nat)
    (h : pageFor s esp addr false accessRounds m = .ok (.ok n) after) :
    readChunk s esp addr count m =
      .ok (.ok (slice (after.contents n).toList (pageOffset addr) count)) after :=
  Attempt.bind_of_ok h

/-- Behind the first part of a chunk its page is found primed. -/
theorem readChunk_add (h : m.memory.Valid) (hs : s < m.spaces.size) (esp addr : Nat) {j : Nat} (k : Nat)
    (hj : j < pageSize - pageOffset addr) :
    copied (readChunk s esp addr (j + k)) m =
      ((copied (readChunk s esp addr j)).followed (copied (readChunk s esp (addr + j) k))) m := by
  have hprimes := (pageFor_primes h hs esp addr false 1).answered
  unfold Attempt.Ends at hprimes
  split at hprimes
  · rename_i n after _
    obtain ⟨hfirst, hprimed⟩ := hprimes
    rw [← pageDown_add hj] at hprimed
    have hagain := pageFor_of_primed hprimed esp 1
    rw [copied_of_ok (readChunk_of_ok (j + k) hfirst), Run.followed_of_ok (copied_of_ok (readChunk_of_ok j hfirst))
      (copied_of_ok (readChunk_of_ok k hagain)), pageOffset_add hj, slice_add]
  · rename_i e after _
    obtain ⟨hfirst, -⟩ := hprimes
    have herror (count : Nat) : readChunk s esp addr count m = .ok (.error e) after :=
      Attempt.bind_of_error hfirst
    rw [copied_of_error (herror (j + k)), Run.followed_of_error (copied_of_error (herror j))]
  · exact hprimes.elim

theorem writeChunk_append (h : m.memory.Valid) (hs : s < m.spaces.size) (esp addr : Nat) {a b : List UInt8}
    (ha : a.length < pageSize - pageOffset addr) (hab : a.length + b.length ≤ pageSize - pageOffset addr) :
    writeChunk s esp addr (a ++ b) m =
      (do writeChunk s esp addr a; writeChunk s esp (addr + a.length) b : Attempt π Unit) m := by
  simp only [writeChunk, bind_assoc]
  apply Attempt.Ends.bind_congr
  have hprimes := (pageFor_primes h hs esp addr true 1).and
    (((survives_valid s).pageFor esp addr true _).ends m ⟨h, hs⟩)
  refine hprimes.imp ?_ fun _ _ _ => trivial
  rintro n after ⟨hprimed, hvalid, -⟩
  have hlt := hprimed.lt_size hvalid
  rw [← pageDown_add ha] at hprimed
  let first := after.setContents n (overwrite (after.contents n) (pageOffset addr) a)
  have hsame : after.setContents n (overwrite (after.contents n) (pageOffset addr) (a ++ b)) =
      first.setContents n (overwrite (first.contents n) (pageOffset (addr + a.length)) b) := by
    rw [Machine.contents_setContents hlt, Machine.setContents_setContents, pageOffset_add ha,
      overwrite_append _ hab]
  have hagain := pageFor_of_primed (hprimed.setContents (overwrite (after.contents n) (pageOffset addr) a)) esp 1
  refine Eq.trans ?_ (Attempt.bind_of_ok hagain).symm
  exact congrArg (EStateM.Result.ok (Except.ok PUnit.unit)) hsame

/-! ## Cuts anywhere -/

theorem writeChunks_eq (esp addr : Nat) (bytes : List UInt8) : written (writeChunks s esp addr bytes) =
    chunked (fun a chunk => written (writeChunk s esp a chunk : Attempt π Unit)) addr bytes := by
  induction hlen : bytes.length using Nat.strongRecOn generalizing addr bytes with
  | ind count ih =>
  subst hlen
  rw [writeChunks]
  split
  · rename_i hpos
    have hsize := chunkSize_pos addr hpos
    rw [chunked_of_pos hpos, written_bind, ih _ (by rw [List.length_drop]; omega) _ _ rfl]
  · rename_i hpos
    obtain rfl := List.length_eq_zero_iff.mp (Nat.eq_zero_of_not_pos hpos)
    rw [chunked_nil]
    rfl

theorem readChunks_eq {α : Type} (esp addr : Nat) (l : List α) : readChunks s esp addr l.length =
    chunked (fun a chunk => copied (readChunk s esp a chunk.length : Attempt π _)) addr l := by
  induction hlen : l.length using Nat.strongRecOn generalizing addr l with
  | ind count ih =>
  subst hlen
  rw [readChunks]
  split
  · rename_i hpos
    have hsize := chunkSize_pos addr hpos
    have hle : chunkSize addr l.length ≤ l.length := Nat.min_le_right ..
    rw [chunked_of_pos hpos, ← ih _ (by rw [List.length_drop]; omega) _ _ rfl, List.length_take_of_le hle,
      List.length_drop]
    simp only [copied, Run.followed, bind_assoc]
    apply bind_congr
    rintro (e | bytes)
    · simp only [pure_bind]
    · simp only [pure_bind]
  · rename_i hpos
    rw [List.length_eq_zero_iff.mp (Nat.eq_zero_of_not_pos hpos), chunked_nil]

theorem copyToUser_of_fits {addr : Nat} {bytes : List UInt8} (hfits : addr + bytes.length ≤ kernelBase)
    (esp : Nat) :
    (copyToUser s esp addr bytes : Attempt π Unit) = writeChunks s esp addr bytes :=
  if_pos (decide_eq_true hfits)

theorem copyFromUser_of_fits {addr count : Nat} (hfits : addr + count ≤ kernelBase) (esp : Nat) :
    (copyFromUser s esp addr count : Run π _) = readChunks s esp addr count :=
  if_pos (decide_eq_true hfits)

theorem copyToUser_append (h : m.memory.Valid) (hs : s < m.spaces.size) (esp : Nat) {addr : Nat}
    {a b : List UInt8} (hfits : addr + a.length + b.length ≤ kernelBase) :
    copyToUser s esp addr (a ++ b) m =
      (do copyToUser s esp addr a; copyToUser s esp (addr + a.length) b : Attempt π Unit) m := by
  rw [copyToUser_of_fits (by rw [List.length_append]; omega), copyToUser_of_fits (by omega),
    copyToUser_of_fits hfits]
  apply eq_of_written
  simp only [written_bind, writeChunks_eq]
  apply chunked_append (I := fun m => m.memory.Valid ∧ s < m.spaces.size)
  · intro a chunk
    exact preserves_written ((survives_valid s).writeChunk esp a chunk)
  · intro m addr a b hm ha hab
    rw [← written_bind]
    exact Run.bind_congr_left _ (writeChunk_append hm.1 hm.2 esp addr ha hab)
  · exact ⟨h, hs⟩

theorem copyFromUser_add (h : m.memory.Valid) (hs : s < m.spaces.size) (esp : Nat) {addr j k : Nat}
    (hfits : addr + j + k ≤ kernelBase) :
    copyFromUser s esp addr (j + k) m =
      ((copyFromUser s esp addr j).followed (copyFromUser s esp (addr + j) k)) m := by
  rw [copyFromUser_of_fits (by omega), copyFromUser_of_fits (by omega), copyFromUser_of_fits hfits]
  obtain ⟨a, rfl⟩ : ∃ a : List Unit, a.length = j := ⟨.replicate j (), List.length_replicate⟩
  obtain ⟨b, rfl⟩ : ∃ b : List Unit, b.length = k := ⟨.replicate k (), List.length_replicate⟩
  rw [← List.length_append, readChunks_eq, readChunks_eq, readChunks_eq]
  apply chunked_append (I := fun m => m.memory.Valid ∧ s < m.spaces.size)
  · intro a chunk
    exact preserves_copied ((survives_valid s).readChunk esp a chunk.length)
  · intro m addr a b hm ha _
    rw [List.length_append]
    exact readChunk_add hm.1 hm.2 esp addr b.length ha
  · exact ⟨h, hs⟩

/-- A copy into user memory, byte by byte. -/
def writeEach (s esp addr : Nat) : List UInt8 → Attempt π Unit
  | [] => pure ()
  | byte :: rest => do
    copyToUser s esp addr [byte]
    writeEach s esp (addr + 1) rest

/-- A copy out of user memory, byte by byte. -/
def readEach (s esp addr : Nat) : Nat → Run π Copied
  | 0 => pure ([], none)
  | count + 1 => (copyFromUser s esp addr 1).followed (readEach s esp (addr + 1) count)

theorem copyToUser_each (h : m.memory.Valid) (hs : s < m.spaces.size) (esp : Nat) {addr : Nat}
    {bytes : List UInt8} (hfits : addr + bytes.length ≤ kernelBase) :
    copyToUser s esp addr bytes m = writeEach s esp addr bytes m := by
  induction bytes generalizing m addr with
  | nil =>
    rw [copyToUser_of_fits hfits, writeChunks]
    rfl
  | cons byte rest ih =>
    have hrest : addr + 1 + rest.length ≤ kernelBase := by
      rw [List.length_cons] at hfits
      omega
    have hkeeps := ((survives_valid s).copyToUser esp addr [byte]).ends m ⟨h, hs⟩
    apply (copyToUser_append h hs esp (a := [byte]) hrest).trans
    refine (hkeeps.imp ?_ fun _ _ hafter => hafter).bind_congr
    rintro _ after ⟨hvalid, hs⟩
    exact ih hvalid hs hrest

theorem copyFromUser_each (h : m.memory.Valid) (hs : s < m.spaces.size) (esp : Nat) {addr count : Nat}
    (hfits : addr + count ≤ kernelBase) :
    copyFromUser s esp addr count m = readEach s esp addr count m := by
  induction count generalizing m addr with
  | zero =>
    rw [copyFromUser_of_fits hfits, readChunks]
    rfl
  | succ count ih =>
    rw [readEach, Nat.add_comm count 1, copyFromUser_add h hs esp (by omega)]
    have hkeeps := ((survives_valid s).copyFromUser esp addr 1).ends m ⟨h, hs⟩
    refine (hkeeps.imp ?_).followed_congr
    rintro _ after ⟨hvalid, hs⟩
    exact ih hvalid hs (by omega)

variable {count : Nat} {device : Device} {policy : π} {files : FileStore}

/-- One copy or two that follow each other, or as many as there are bytes: the machine and the answer are
the same, whatever is faulted in, copied on write or evicted on the way. -/
theorem copies_independent_of_cuts (h : Reached (Machine.start count device policy files) m)
    (hs : s < m.spaces.size) (esp : Nat) :
    (∀ dst a b, dst + a.length + b.length ≤ kernelBase → copyToUser s esp dst (a ++ b) m =
      (do copyToUser s esp dst a; copyToUser s esp (dst + a.length) b : Attempt π Unit) m) ∧
    (∀ src j k, src + j + k ≤ kernelBase → copyFromUser s esp src (j + k) m =
      ((copyFromUser s esp src j).followed (copyFromUser s esp (src + j) k)) m) ∧
    (∀ dst bytes, dst + bytes.length ≤ kernelBase →
      copyToUser s esp dst bytes m = writeEach s esp dst bytes m) ∧
    ∀ src count, src + count ≤ kernelBase →
      copyFromUser s esp src count m = readEach s esp src count m := by
  have hvalid := h.valid (Machine.valid_start ..)
  refine ⟨?_, ?_, ?_, ?_⟩
  · intro dst a b hfits
    exact copyToUser_append hvalid hs esp hfits
  · intro src j k hfits
    exact copyFromUser_add hvalid hs esp hfits
  · intro dst bytes hfits
    exact copyToUser_each hvalid hs esp hfits
  · intro src count hfits
    exact copyFromUser_each hvalid hs esp hfits

/-- Two pages and one frame. A write across the end of the first evicts it half way, and so do its parts. -/
theorem copies_independent_of_cuts_evicting : ∃ m : Machine Fifo,
    Reached (.start 1 { name := "swap", kind := .swap, size := 16, disk := .zeroed 16 } {} {}) m ∧
    ∃ after, copyToUser 0 0 8190 [1, 2, 3, 4] m = .ok (.ok ⟨⟩) after ∧
      (do copyToUser 0 0 8190 [1]; copyToUser 0 0 8191 [2, 3, 4] : Attempt Fifo Unit) m =
        .ok (.ok ⟨⟩) after ∧
      (after.page? 0 4096).bind Page.frame = none ∧ (after.page? 0 8192).bind Page.frame = some 0 := by
  let moved (m : Machine Fifo) : Bool := match copyToUser 0 0 8190 [1, 2, 3, 4] m with
    | .ok (.ok _) after => decide ((after.page? 0 4096).bind Page.frame = none ∧
        (after.page? 0 8192).bind Page.frame = some 0)
    | _ => false
  obtain ⟨calls, m, hruns, hcheck⟩ := Runs.of_afterAll (m := .start 1
      { name := "swap", kind := .swap, size := 16, disk := .zeroed 16 } {} {}) Operation.Allowed
    [.createProcess 1, .insert 0 4096 true (.anonymous .zeroed none),
      .insert 0 8192 true (.anonymous .zeroed none)]
    (fun m => decide (0 < m.spaces.size) && moved m) (by decide +kernel)
  obtain ⟨hs, hmoved⟩ := Bool.and_eq_true_iff.mp hcheck
  have hreached := Reached.of_runs hruns
  have hcuts := copies_independent_of_cuts hreached (of_decide_eq_true hs) 0
  simp only [moved] at hmoved
  split at hmoved
  · rename_i after hwhole
    obtain ⟨hfirst, hsecond⟩ := of_decide_eq_true hmoved
    have hparts := hcuts.1 8190 [1] [2, 3, 4] (by decide)
    exact ⟨m, hreached, after, hwhole, hparts.symm.trans hwhole, hfirst, hsecond⟩
  · cases hmoved

end DemandPaging
