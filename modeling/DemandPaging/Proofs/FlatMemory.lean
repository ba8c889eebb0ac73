import DemandPaging.Proofs.Operations

/-! # Private flat memory

What memory is to processes: a row of cells for each of them, which nobody else writes to. Frames,
slots, sharing and paging are no part of it. `Call.Does` says what a call does to the rows, and
`Flat.Runs` what any number of calls do.
-/
namespace DemandPaging

/-- What a process finds at an address: nothing, a byte of a mapped file, or a byte of its own. -/
inductive Cell where
  | absent
  | file
  | byte (b : UInt8)

abbrev Flat := Nat → Nat → Cell

/-- The bytes of a page that is filled from a source: first those of the file, then zeroes. -/
def Source.byteAt (source : Source) (files : FileStore) (i : Nat) : UInt8 :=
  match source.file with
  | some file =>
    if i < source.readBytes then (files.node file).contents.getD (source.offset + i) 0 else 0
  | none => 0

/-- What an address on a page that nobody has used yet holds. -/
def Backing.cellAt (files : FileStore) : Backing → Nat → Cell
  | uninit .anonymous source, a => .byte (source.byteAt files (pageOffset a))
  | anonymous _ _, _ => .byte 0
  | _, _ => .file

namespace SegmentPlan

/-- The bytes of a segment of a file that holds `bytes`: first those of the file, then zeroes. -/
def byteAt (plan : SegmentPlan) (bytes : List UInt8) (a : Nat) : UInt8 :=
  if a - plan.va < plan.readBytes then bytes.getD (plan.fileOffset + (a - plan.va)) 0 else 0

/-- The segment takes in the address. -/
def Covers (plan : SegmentPlan) (a : Nat) : Prop :=
  plan.va ≤ a ∧ a < plan.va + (plan.readBytes + plan.zeroBytes)

end SegmentPlan

/-- The address is on the page where a program finds its stack. -/
def OnFirstStackPage (a : Nat) : Prop := stackTop - pageSize ≤ a ∧ a < stackTop

namespace Flat
variable {s t a addr : Nat} {bytes bytes' : List UInt8} {new : Nat → Cell → Prop} {f g h : Flat}

def empty : Flat := fun _ _ => .absent

/-- Each page has cells at all of its addresses, or at none. -/
def Paged (f : Flat) : Prop :=
  ∀ s a b, pageDown a = pageDown b → (f s a = .absent ↔ f s b = .absent)

/-- Cells may appear in row `s` where there were none. -/
def Adds (s : Nat) (new : Nat → Cell → Prop) (f g : Flat) : Prop :=
  ∀ t a, g t a = f t a ∨ t = s ∧ f t a = .absent ∧ new a (g t a)

/-- The address is on a page that an access to `count` bytes from `addr` on comes to. -/
def Touched (addr count a : Nat) : Prop := ∃ i < count, pageDown a = pageDown (addr + i)

/-- Zeroed pages may appear where an access comes to, on the stack. -/
abbrev Grows (s addr count : Nat) : Flat → Flat → Prop :=
  Adds s fun a c => Touched addr count a ∧ StackPage (pageDown a) ∧ c = .byte 0

/-- The bytes are those that are found from `addr` on. -/
structure Reads (s addr : Nat) (bytes : List UInt8) (f g : Flat) : Prop where
  grows : Grows s addr bytes.length f g
  found : ∀ i b, bytes[i]? = some b → g s (addr + i) = .byte b ∨ g s (addr + i) = .file

/-- The bytes are put down from `addr` on, and nowhere else. -/
structure Writes (s addr : Nat) (bytes : List UInt8) (f g : Flat) : Prop where
  written : ∀ i b, bytes[i]? = some b →
    g s (addr + i) = .byte b ∨ f s (addr + i) = .file ∧ g s (addr + i) = .file
  kept : ∀ t a, (t = s → ∀ i < bytes.length, a ≠ addr + i) →
    g t a = f t a ∨ t = s ∧ f t a = .absent ∧ Touched addr bytes.length a ∧ StackPage (pageDown a) ∧
      g t a = .byte 0

/-- Row `s` with other cells on the page at `va`. -/
def setPage (f : Flat) (s va : Nat) (row : Nat → Cell) : Flat := fun t a =>
  if t = s ∧ pageDown a = va then row a else f t a

/-- Row `s` with `c` in each of the cells from `start` up to `stop`. -/
def setRange (f : Flat) (s start stop : Nat) (c : Cell) : Flat := fun t a =>
  if t = s ∧ start ≤ a ∧ a < stop then c else f t a

/-- The program in a file that holds `bytes` is in row `s`, where there were no cells before: all its
segments, and a page for its stack. Nothing else has changed. -/
structure Loads (s : Nat) (bytes : List UInt8) (f g : Flat) : Prop where
  accepted : ∃ image rest, Image.read bytes = .ok (image, rest) ∧
    ∀ p ∈ image.programHeaders, p.kind = .load → p.objection? bytes.length = none
  stack : ∀ a, OnFirstStackPage a → f s a = .absent ∧ g s a = .byte 0
  segments : ∀ plan : SegmentPlan, plan.OfImage bytes → ∀ a, plan.Covers a →
    f s a = .absent ∧ g s a = .byte (plan.byteAt bytes a)
  kept : ∀ t a, (t = s → ¬OnFirstStackPage a ∧ ∀ plan : SegmentPlan, plan.OfImage bytes → ¬plan.Covers a) →
    g t a = f t a

theorem Touched.append_left {count : Nat} (more : Nat) (h : Touched addr count a) :
    Touched addr (count + more) a := by
  obtain ⟨i, hi, ha⟩ := h
  exact ⟨i, Nat.lt_add_right more hi, ha⟩

theorem Touched.append_right {count more : Nat} (h : Touched (addr + count) more a) :
    Touched addr (count + more) a := by
  obtain ⟨i, hi, ha⟩ := h
  exact ⟨count + i, Nat.add_lt_add_left hi count, by rwa [← Nat.add_assoc]⟩

namespace Adds

theorem refl (s : Nat) (new : Nat → Cell → Prop) (f : Flat) : Adds s new f f := fun _ _ => .inl rfl

theorem eq_of_ne (hadd : Adds s new f g) (hne : f t a ≠ .absent) : g t a = f t a := by
  rcases hadd t a with heq | ⟨-, habsent, -⟩
  · exact heq
  · exact absurd habsent hne

theorem trans (hadd : Adds s new f g) (hadd' : Adds s new g h) : Adds s new f h := by
  intro t a
  rcases hadd' t a with heq | ⟨rfl, habsent, hnew⟩
  · rw [heq]
    exact hadd t a
  · rcases hadd t a with heq | ⟨-, hwas, -⟩
    · exact .inr ⟨rfl, heq ▸ habsent, hnew⟩
    · exact .inr ⟨rfl, hwas, hnew⟩

theorem mono {new' : Nat → Cell → Prop} (hadd : Adds s new f g) (himp : ∀ a c, new a c → new' a c) :
    Adds s new' f g := by
  intro t a
  rcases hadd t a with heq | ⟨ht, habsent, hnew⟩
  · exact .inl heq
  · exact .inr ⟨ht, habsent, himp a _ hnew⟩

end Adds

theorem Reads.append (hread : Reads s addr bytes f g) (hread' : Reads s (addr + bytes.length) bytes' g h) :
    Reads s addr (bytes ++ bytes') f h where
  grows := by
    rw [List.length_append]
    apply Adds.trans
    · exact hread.grows.mono fun a c hnew => ⟨hnew.1.append_left _, hnew.2⟩
    · exact hread'.grows.mono fun a c hnew => ⟨hnew.1.append_right, hnew.2⟩
  found i b hb := by
    rcases Nat.lt_or_ge i bytes.length with hi | hi
    · rw [List.getElem?_append_left hi] at hb
      have hfound := hread.found i b hb
      rwa [hread'.grows.eq_of_ne (by rcases hfound with h | h <;> rw [h] <;> simp)]
    · rw [List.getElem?_append_right hi] at hb
      have hfound := hread'.found _ b hb
      rwa [Nat.add_assoc, Nat.add_sub_cancel' hi] at hfound

theorem Writes.append (hwrite : Writes s addr bytes f g)
    (hwrite' : Writes s (addr + bytes.length) bytes' g h) : Writes s addr (bytes ++ bytes') f h where
  written i b hb := by
    rcases Nat.lt_or_ge i bytes.length with hi | hi
    · rw [List.getElem?_append_left hi] at hb
      have hkept : h s (addr + i) = g s (addr + i) := by
        rcases hwrite'.kept s (addr + i) (fun _ j _ => by omega) with heq | ⟨-, habsent, -⟩
        · exact heq
        · rcases hwrite.written i b hb with hg | ⟨-, hg⟩ <;> rw [hg] at habsent <;> cases habsent
      rw [hkept]
      exact hwrite.written i b hb
    · rw [List.getElem?_append_right hi] at hb
      have hwritten := hwrite'.written _ b hb
      rw [Nat.add_assoc, Nat.add_sub_cancel' hi] at hwritten
      rcases hwritten with hbyte | ⟨hfile, hstill⟩
      · exact .inl hbyte
      · rcases hwrite.kept s (addr + i) (fun _ j _ => by omega) with heq | ⟨-, -, -, -, hzero⟩
        · exact .inr ⟨heq ▸ hfile, hstill⟩
        · rw [hzero] at hfile
          cases hfile
  kept t a hout := by
    rw [List.length_append] at hout ⊢
    have hg := hwrite.kept t a fun ht i hi => hout ht i (Nat.lt_add_right _ hi)
    have hh := hwrite'.kept t a fun ht i hi => by
      have := hout ht (bytes.length + i) (Nat.add_lt_add_left hi _)
      omega
    rcases hh with heq | ⟨rfl, habsent, htouched, hnew⟩
    · rw [heq]
      rcases hg with heq' | ⟨rfl, habsent, htouched, hnew⟩
      · exact .inl heq'
      · exact .inr ⟨rfl, habsent, htouched.append_left _, hnew⟩
    · rcases hg with heq' | ⟨-, hwas, -⟩
      · exact .inr ⟨rfl, heq' ▸ habsent, htouched.append_right, hnew⟩
      · exact .inr ⟨rfl, hwas, htouched.append_right, hnew⟩

end Flat

/-- What a call does to the rows of all spaces. -/
def Call.Does (call : Call) (f g : Flat) : Prop :=
  match call.op with
  | .createProcess _ | .createTable .. =>
    ∃ child, call.reply = .space child ∧ (∀ a, f child a = .absent) ∧ g = f
  | .setStackPointer .. | .openFile .. | .closeFile .. | .claim .. | .evict _ => g = f
  | .insert s va _ backing =>
    call.reply = .flag false ∧ g = f ∨ call.reply = .flag true ∧
      (∀ a, pageDown a = va → f s a = .absent) ∧ g = f.setPage s va (backing.cellAt call.files)
  | .load s h =>
    (∃ entry, call.reply = .loaded (.ok entry)) ∧
        Flat.Loads s (call.files.node h.file).contents f g ∨
      (∃ e, call.reply = .loaded (.error e)) ∧ Flat.Adds s (fun a c => OnFirstStackPage a ∧ c = .byte 0 ∨
        ∃ plan : SegmentPlan, plan.OfImage (call.files.node h.file).contents ∧ plan.Covers a ∧
          c = .byte (plan.byteAt (call.files.node h.file).contents a)) f g
  | .map s addr length .. =>
    call.reply = .address addr ∧
        (∀ a, addr ≤ a → a < addr + mappedPages length * pageSize → f s a = .absent) ∧
        g = f.setRange s addr (addr + mappedPages length * pageSize) .file ∨
      (∃ e, call.reply = .failed e) ∧ g = f
  | .unmap s addr =>
    call.reply = .done ∧ (∃ k, 0 < k ∧
        (∀ a, pageDown addr ≤ a → a < pageDown addr + k * pageSize → f s a = .file) ∧
        g = f.setRange s (pageDown addr) (pageDown addr + k * pageSize) .absent) ∨
      (∃ e, call.reply = .failed e) ∧ f s addr ≠ .file ∧ g = f
  | .pageFault s fault _ | .resolveFault s fault _ =>
    call.reply = .done ∧ Flat.Grows s fault.addr 1 f g ∧ g s fault.addr ≠ .absent ∨
      (∃ e, call.reply = .failed e) ∧ g = f
  | .readUser s addr count | .copyFrom s _ addr count => ∃ bytes failure,
    call.reply = .read bytes failure ∧ Flat.Reads s addr bytes f g ∧ bytes.length ≤ count ∧
      (failure = none → bytes.length = count)
  | .writeUser s addr bytes | .copyTo s _ addr bytes => ∃ k, Flat.Writes s addr (bytes.take k) f g ∧
    (call.reply = .done ∧ k = bytes.length ∨ ∃ e, call.reply = .failed e)
  | .fork s _ =>
    (∃ child, call.reply = .space child ∧ (∀ a, f child a = .absent) ∧
      g = Function.update f child (f s)) ∨ (∃ e, call.reply = .failed e) ∧ g = f
  | .copyTable src dst => (∀ a, f dst a = .absent) ∧
    (call.reply = .done ∧ g = Function.update f dst (f src) ∨
      (∃ e, call.reply = .failed e) ∧ Flat.Adds dst (fun a c => c = f src a) f g)
  | .exit s | .kill s => g = Function.update f s fun _ => .absent
  | .remove s va => g = f.setPage s (pageDown va) fun _ => .absent

/-- What calls do to the rows, one after the other. -/
inductive Flat.Runs : List Call → Flat → Flat → Prop
  | refl (f : Flat) : Runs [] f f
  | step {calls : List Call} {call : Call} {f g h : Flat} (hr : Runs calls f g) (hc : call.Does g h)
    (hpaged : h.Paged) : Runs (calls ++ [call]) f h

/-- The call is none that process `s` writes to address `a` with, or gives it up. -/
def Call.Spares (call : Call) (s a : Nat) : Prop :=
  match call.op with
  | .writeUser t addr bytes | .copyTo t _ addr bytes => t = s → ∀ i < bytes.length, a ≠ addr + i
  | .exit t | .kill t => t ≠ s
  | .remove t va => t = s → pageDown a ≠ pageDown va
  | _ => True

section Spared
variable {call : Call} {f g : Flat} {s a : Nat} {b : UInt8}

/-- No call changes a byte but one that its process makes for it. -/
theorem Call.Does.byte_of_spared (h : call.Does f g) (hspared : call.Spares s a) (hb : f s a = .byte b) :
    g s a = .byte b := by
  have hne : f s a ≠ .absent := by
    rw [hb]
    simp
  obtain ⟨files, op, reply⟩ := call
  cases op with
  | createProcess | createTable =>
    obtain ⟨-, -, -, rfl⟩ := h
    exact hb
  | setStackPointer | openFile | closeFile | claim | evict =>
    obtain rfl := h
    exact hb
  | insert t va writable backing =>
    rcases h with ⟨-, rfl⟩ | ⟨-, habsent, rfl⟩
    · exact hb
    · rw [Flat.setPage, if_neg, hb]
      rintro ⟨rfl, ha⟩
      exact hne (habsent a ha)
  | load t handle =>
    rcases h with ⟨-, hloads⟩ | ⟨-, hadds⟩
    · rwa [hloads.kept]
      rintro rfl
      exact ⟨fun hstack => hne (hloads.stack a hstack).1,
        fun plan hplan hcovers => hne (hloads.segments plan hplan a hcovers).1⟩
    · rwa [hadds.eq_of_ne hne]
  | map =>
    rcases h with ⟨-, habsent, rfl⟩ | ⟨-, rfl⟩
    · rw [Flat.setRange, if_neg, hb]
      rintro ⟨rfl, hle, hlt⟩
      exact hne (habsent a hle hlt)
    · exact hb
  | unmap =>
    rcases h with ⟨-, k, -, hfile, rfl⟩ | ⟨-, -, rfl⟩
    · rw [Flat.setRange, if_neg, hb]
      rintro ⟨rfl, hle, hlt⟩
      cases hb.symm.trans (hfile a hle hlt)
    · exact hb
  | pageFault | resolveFault =>
    rcases h with ⟨-, hgrows, -⟩ | ⟨-, rfl⟩
    · rwa [hgrows.eq_of_ne hne]
    · exact hb
  | readUser | copyFrom =>
    obtain ⟨bytes, failure, -, hreads, -⟩ := h
    rwa [hreads.grows.eq_of_ne hne]
  | writeUser t addr bytes | copyTo t esp addr bytes =>
    obtain ⟨k, hwrites, -⟩ := h
    have hout := fun ht i hi => hspared ht i (Nat.lt_of_lt_of_le hi (List.length_take_le' k bytes))
    rcases hwrites.kept s a fun ht => hout ht.symm with heq | ⟨-, habsent, -⟩
    · rwa [heq]
    · exact absurd habsent hne
  | fork t pid =>
    rcases h with ⟨child, -, habsent, rfl⟩ | ⟨-, rfl⟩
    · rw [Function.update_of_ne, hb]
      rintro rfl
      exact hne (habsent a)
    · exact hb
  | copyTable src dst =>
    obtain ⟨habsent, ⟨-, rfl⟩ | ⟨-, hadds⟩⟩ := h
    · rw [Function.update_of_ne, hb]
      rintro rfl
      exact hne (habsent a)
    · rwa [hadds.eq_of_ne hne]
  | exit t | kill t =>
    obtain rfl := h
    rw [Function.update_of_ne (Ne.symm hspared), hb]
  | remove t va =>
    obtain rfl := h
    rw [Flat.setPage, if_neg, hb]
    rintro ⟨rfl, ha⟩
    exact hspared rfl ha

/-- A byte stays what its process made it, until that process makes it another. -/
theorem Flat.Runs.byte_of_spared {calls : List Call} (h : Flat.Runs calls f g)
    (hspared : ∀ call ∈ calls, call.Spares s a) (hb : f s a = .byte b) : g s a = .byte b := by
  induction h with
  | refl => exact hb
  | step _ hc _ ih =>
    obtain ⟨hbefore, hlast⟩ := List.forall_mem_append.mp hspared
    exact hc.byte_of_spared (hlast _ (List.mem_singleton_self _)) (ih hbefore hb)

end Spared

end DemandPaging
