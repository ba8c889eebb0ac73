import DemandPaging.Proofs.Waiting

/-! # What is on a page

The bytes of an anonymous page are in its frame while it is resident, in its slot while it is swapped
out, and in the file of its program before it is first used. The `view` of memory shows them wherever
they are. Paging does not change it, and every change changes it as it says.
-/
namespace DemandPaging

/-- What a space has at a page address: nothing, a page of a file, or an anonymous page with its
bytes. -/
abbrev View := Nat → Nat → Option (Option PageBytes)

/-- The bytes that a page has before anybody uses it, unless it is one of a file. -/
def Backing.initial (files : FileStore) : Backing → Option PageBytes
  | uninit .anonymous source => some (source.image files)
  | anonymous _ _ => some zeroPage
  | _ => none

/-- A change that can be made: nothing is in the way of what is added, and what is taken away, copied
or written is there. -/
def Memory.Change.Possible (f : View) : Memory.Change → Prop
  | insert s page => f s page.va = none
  | remove s page => ∃ contents, f s page.va = some contents ∧ (page.isFile = true → contents = none)
  | copy src dst page => f dst page.va = none ∧ (f src page.va).isSome
  | write s va .. => (f s va).isSome
  | spawn _ | drop => True

/-- The view after a change. -/
def View.after (files : FileStore) (f : View) : Memory.Change → View
  | .insert s page => setAt f s page.va (some (page.backing.initial files))
  | .remove s page => setAt f s page.va none
  | .copy src dst page => setAt f dst page.va (f src page.va)
  | .write s va start bytes =>
    setAt f s va ((f s va).map fun contents => contents.map (overwrite · start bytes))
  | .spawn _ | .drop => f

/-- One view follows from another by changes, each possible where it is made. -/
def View.Follows (files : FileStore) : List Memory.Change → View → View → Prop
  | [], f, g => g = f
  | c :: cs, f, g => c.Possible f ∧ Follows files cs (f.after files c) g

theorem View.follows_append {files : FileStore} {cs cs' : List Memory.Change} {f h : View} :
    Follows files (cs ++ cs') f h ↔ ∃ g, Follows files cs f g ∧ Follows files cs' g h := by
  induction cs generalizing f with
  | nil => simp [Follows]
  | cons c cs ih =>
    rw [List.cons_append, Follows, ih]
    simp only [Follows, and_assoc, exists_and_left]

namespace Memory
variable {π : Type}

/-- The bytes of an anonymous page. -/
def bytes? (v : Memory π) (p : Page) : Option PageBytes :=
  match p.backing, p.frame with
  | .uninit .anonymous source, _ => some (source.image v.files)
  | .anonymous _ _, some n => some (v.frames n).contents
  | .anonymous _ (some slot), none => some (v.swap.held slot)
  | .anonymous _ none, none => some zeroPage
  | _, _ => none

def view (v : Memory π) : View := fun s va => (v.pages s va).map v.bytes?

/-- Files in `W` have the same contents. -/
def Unchanged (W : Nat → Prop) (files files' : FileStore) : Prop :=
  ∀ file, W file → (files'.node file).contents = (files.node file).contents

theorem Unchanged.refl (W : Nat → Prop) (files : FileStore) : Unchanged W files files := fun _ _ => rfl

theorem Unchanged.trans {W : Nat → Prop} {files files' files'' : FileStore}
    (h : Unchanged W files files') (h' : Unchanged W files' files'') : Unchanged W files files'' :=
  fun file hW => (h' file hW).trans (h file hW)

theorem Unchanged.image_eq {W : Nat → Prop} {files files' : FileStore} (h : Unchanged W files files')
    {source : Source} (hs : ∀ file, source.file = some file → W file) :
    source.image files' = source.image files := by
  unfold Source.image
  cases hf : source.file with
  | none => rfl
  | some file =>
    dsimp only
    rw [h file (hs file hf)]

section Bytes
variable {v w : Memory π} {p : Page} {n slot : Nat}

theorem bytes?_frame (hf : p.frame = some n) (hb : ∀ target source, p.backing ≠ .uninit target source) :
    v.bytes? p = if p.isFile then none else some (v.frames n).contents := by
  unfold bytes? Page.isFile Backing.isFile
  rw [hf]
  cases hback : p.backing with
  | uninit target source => exact absurd hback (hb target source)
  | anonymous source slot => rfl
  | fileBacked => rfl

/-- Pages of files, and no others, have no bytes of their own. -/
theorem bytes?_eq_none_iff : v.bytes? p = none ↔ p.isFile = true := by
  unfold bytes? Page.isFile Backing.isFile
  cases p.backing with
  | uninit target => cases target <;> simp
  | anonymous source slot => cases p.frame <;> cases slot <;> simp
  | fileBacked => simp

theorem bytes?_congr (himage : ∀ source, p.backing = .uninit .anonymous source →
      source.image w.files = source.image v.files)
    (hframe : ∀ n, p.frame = some n → (w.frames n).contents = (v.frames n).contents)
    (hslot : ∀ k, p.backing.slot? = some k → w.swap.held k = v.swap.held k) :
    w.bytes? p = v.bytes? p := by
  unfold bytes?
  cases hb : p.backing with
  | uninit target source =>
    cases target with
    | anonymous => exact congrArg some (himage source hb)
    | file => rfl
  | anonymous source slot =>
    cases hf : p.frame with
    | some n => cases slot <;> exact congrArg some (hframe n hf)
    | none =>
      cases slot with
      | none => rfl
      | some k => exact congrArg some (hslot k (by rw [hb]; rfl))
  | fileBacked => rfl

end Bytes

section Fields
variable [ReplacementPolicy π] (v : Memory π) (s n k : Nat) (page : Page)

theorem contents_leave : ((v.leave s n page).frames k).contents = (v.frames k).contents := by
  rw [leave]
  simp only [release, put, setFrame, setPage, setEntry]
  by_cases hk : k = n
  · subst hk
    simp only [Function.update_self]
    split <;> rfl
  · simp only [Function.update_of_ne hk]

theorem contents_discard : ((v.discard s page).frames k).contents = (v.frames k).contents := by
  show ((v.quit s page).frames k).contents = _
  unfold quit
  split
  · exact contents_leave ..
  · rfl

theorem contents_seat (writable : Bool) (c : PageBytes) :
    ((v.seat s n page writable c).frames k).contents = if k = n then c else (v.frames k).contents := by
  rw [seat]
  simp only [setFrame, setPage, setEntry, Function.update_apply]
  split <;> rfl

omit [ReplacementPolicy π] in
theorem contents_adopt (src dst : Nat) (backing : Backing) (swap : SwapSpace) :
    ((v.adopt src dst page backing swap).frames k).contents = (v.frames k).contents := by
  unfold adopt
  cases page.frame with
  | none => rfl
  | some n =>
    dsimp only
    rw [join]
    simp only [setFrame, setPage, setEntry, add, Function.update_apply]
    split
    · rename_i hk
      rw [hk]
      rfl
    · rfl

end Fields

/-- A write changes the bytes of the frame that its page is in, through a writable mapping. -/
theorem Alters.of_write [ReplacementPolicy π] {v w : Memory π} {s va start : Nat} {bytes : List UInt8}
    (h : v.Alters (.write s va start bytes) w) :
    ∃ n page e, v.pages s va = some page ∧ page.frame = some n ∧ v.entries s va = some e ∧
      e.has .writable = true ∧ w.pages = v.pages ∧ w.files = v.files ∧ w.swap = v.swap ∧
      ∀ k, (w.frames k).contents =
        if k = n then overwrite (v.frames n).contents start bytes else (v.frames k).contents := by
  cases h with
  | @write _ _ n _ _ page e record hp hf he hw =>
    refine ⟨n, page, e, hp, hf, he, hw, rfl, rfl, rfl, fun k => ?_⟩
    simp only [setFrame, setEntry, Function.update_apply]
    split <;> rfl

namespace Calm
variable {v w : Memory π} {W : Nat → Prop} {T : Nat → Nat → Prop} {s va n : Nat} {page : Page}

/-- Whatever a page waits for is in `W`. -/
theorem waits (h : Calm W T v) {source : Source} (hp : v.pages s va = some page)
    (hb : page.backing = .uninit .anonymous source) {file : Nat} (hf : source.file = some file) : W file :=
  h.awaited ⟨s, va, page, source, hp, hb, hf⟩

theorem view_eq (h : Calm W T v) (hfiles : Unchanged W v.files w.files)
    (hp : w.pages s va = v.pages s va)
    (hframe : ∀ p n, v.pages s va = some p → p.frame = some n →
      (w.frames n).contents = (v.frames n).contents)
    (hslot : ∀ k, v.slotAt s va = some k → w.swap.held k = v.swap.held k) :
    w.view s va = v.view s va := by
  unfold view
  rw [hp]
  cases hpage : v.pages s va with
  | none => rfl
  | some p =>
    refine congrArg some (bytes?_congr (fun source hb => ?_) (hframe p · hpage) fun k hk => ?_)
    · exact hfiles.image_eq fun file hf => h.waits hpage hb hf
    · exact hslot k ((Stowed.slotAt_eq hpage).trans hk)

theorem view_setAt (h : Calm W T v) (hfiles : Unchanged W v.files w.files) {x : Option Page}
    (hp : w.pages = setAt v.pages s va x)
    (hframe : ∀ t a p n, ¬(t = s ∧ a = va) → v.pages t a = some p → p.frame = some n →
      (w.frames n).contents = (v.frames n).contents)
    (hslot : ∀ t a k, ¬(t = s ∧ a = va) → v.slotAt t a = some k → w.swap.held k = v.swap.held k) :
    w.view = setAt v.view s va (x.map w.bytes?) := by
  funext t a
  rw [setAt_apply]
  split
  · rename_i hat
    rw [view, hp, hat.1, hat.2, setAt_self]
  · rename_i hne
    exact h.view_eq hfiles (by rw [hp, setAt_of_ne hne]) (fun p n => hframe t a p n hne)
      fun k => hslot t a k hne

theorem view_keep (h : Calm W T v) (hfiles : Unchanged W v.files w.files) {q : Page}
    (hv : v.pages s va = some page) (hp : w.pages = setAt v.pages s va (some q))
    (hq : w.bytes? q = v.bytes? page)
    (hframe : ∀ t a p n, ¬(t = s ∧ a = va) → v.pages t a = some p → p.frame = some n →
      (w.frames n).contents = (v.frames n).contents)
    (hslot : ∀ t a k, ¬(t = s ∧ a = va) → v.slotAt t a = some k → w.swap.held k = v.swap.held k) :
    w.view = v.view := by
  rw [h.view_setAt hfiles hp hframe hslot]
  refine setAt_eq_self ?_
  rw [view, hv, Option.map_some, Option.map_some, hq]

theorem view_same (h : Calm W T v) (hfiles : Unchanged W v.files w.files) (hp : w.pages = v.pages)
    (hframe : ∀ t a p n, v.pages t a = some p → p.frame = some n →
      (w.frames n).contents = (v.frames n).contents)
    (hslot : ∀ t a k, v.slotAt t a = some k → w.swap.held k = v.swap.held k) : w.view = v.view := by
  funext t a
  exact h.view_eq hfiles (by rw [hp]) (hframe t a) (hslot t a)

theorem ne_free (h : Calm W T v) (hn : (v.frames n).allocated = false) {k : Nat}
    (hp : v.pages s va = some page) (hf : page.frame = some k) : k ≠ n := by
  rintro rfl
  have hpos := (h.valid.sound.resident_frame hp hf).1
  rw [h.valid.sound.free_iff] at hn
  omega

/-- What is written back goes to a file that nothing waits for. -/
theorem unchanged_flushed (h : Calm W T v) (hp : v.pages s va = some page)
    (hfile : page.isFile = true) (hw : v.Flushed s va n page.source w) : Unchanged W v.files w.files := by
  cases hw with
  | clean => exact .refl _ _
  | @done e file files hs he hd hwrite =>
    intro f hW
    refine FileStore.contents_writeAt hwrite ?_
    rintro rfl
    exact h.saved hW ⟨s, va, page, hp, hfile, hs, e, he, hd⟩

theorem unchanged_flushedShort (h : Calm W T v) (hp : v.pages s va = some page)
    (hfile : page.isFile = true) (hw : v.FlushedShort s va n page.source w) :
    Unchanged W v.files w.files := by
  cases hw with
  | detached => exact .refl _ _
  | @short e file count files hs he hd hwrite =>
    intro f hW
    refine FileStore.contents_writeAt hwrite ?_
    rintro rfl
    exact h.saved hW ⟨s, va, page, hp, hfile, hs, e, he, hd⟩

variable [ReplacementPolicy π]

/-- Paging leaves the files in `W` as they are. -/
theorem unchanged_step (h : Calm W T v) (hs : Step v w) : Unchanged W v.files w.files := by
  cases hs with
  | serial | swap | passed | refused | unshared | touched => exact .refl _ _
  | handles hf => exact fun file _ => hf file
  | flushed hp hf hfile hw => exact h.unchanged_flushed hp hfile hw
  | flushedShort hp hf hfile hw => exact h.unchanged_flushedShort hp hfile hw
  | evicted | claimed | moved =>
    simp only [files_seat, files_leave]
    exact .refl _ _

/-- A page that is evicted is in its slot as it was in its frame. -/
theorem view_evicted {backing : Backing} {swap : SwapSpace} (h : Calm W T v)
    (hp : v.pages s page.va = some page) (hf : page.frame = some n)
    (hb : v.Saved (v.frames n).contents (v.Dirty s page.va) page.backing backing swap) :
    view { v.leave s n { page with backing } with swap } = v.view := by
  have hstowed := h.valid.stowed
  have hpages := pages_leave v s n { page with backing }
  have hcontents := fun k => contents_leave v s n k { page with backing }
  have hfiles := files_leave v s n { page with backing }
  have hslot : ∀ k, v.slotAt s page.va ≠ some k := by
    intro k hk
    rw [Stowed.slotAt_eq hp, hstowed.apart hp (by rw [hf]; rfl)] at hk
    cases hk
  generalize v.leave s n { page with backing } = u at hpages hcontents hfiles
  have hunchanged : Unchanged W v.files { u with swap }.files := by
    rw [show ({ u with swap } : Memory π).files = v.files from hfiles]
    exact .refl _ _
  -- Slots that were in use before are as they were.
  have hheld (t a k : Nat) (hk : v.slotAt t a = some k) : swap.held k = v.swap.held k :=
    hb.held_eq hstowed.fits ((hstowed.used k).mpr ⟨t, a, hk⟩)
  refine h.view_keep hunchanged hp hpages ?_ (fun _ _ _ k _ _ _ => hcontents k)
    fun t a k _ => hheld t a k
  have hframed := bytes?_frame (v := v) hf (hstowed.filled hp (by rw [hf]; rfl))
  rw [hframed, Page.isFile]
  generalize page.backing = old at hb
  cases hb with
  | stored hstore =>
    obtain ⟨-, -, -, -, -, -, hstored⟩ := SwapSpace.store_eq_ok hstore hstowed.fits
    exact congrArg some hstored
  | clean => rfl

/-- A page that is claimed is in its frame as it was where it came from. -/
theorem view_claimed {backing : Backing} {c : PageBytes} {swap : SwapSpace} (h : Calm W T v)
    (hp : v.pages s page.va = some page) (hf : page.frame = none)
    (hn : (v.frames n).allocated = false) (hb : v.Filled page.backing c backing swap) :
    view { v.seat s n { page with backing } page.writable c with swap } = v.view := by
  have hstowed := h.valid.stowed
  have hpages := pages_seat v s n { page with backing } page.writable c
  have hcontents := fun k => contents_seat v s n k { page with backing } page.writable c
  have hfiles := files_seat v s n { page with backing } page.writable c
  generalize v.seat s n { page with backing } page.writable c = u at hpages hcontents hfiles
  have hunchanged : Unchanged W v.files { u with swap }.files := by
    rw [show ({ u with swap } : Memory π).files = v.files from hfiles]
    exact .refl _ _
  have hlt := h.valid.slot_lt hp
  have hheld (k : Nat) : swap.held k = v.swap.held k := hb.held_eq hlt k
  refine h.view_keep hunchanged hp hpages ?_ (fun t a q k _ hq hk => ?_) fun _ _ k _ _ => hheld k
  · have hself : (u.frames n).contents = c := by rw [hcontents, if_pos rfl]
    unfold bytes?
    rw [hf]
    generalize page.backing = old at hb hlt
    cases hb with
    | uninit target => cases target <;> simp [Target.first, hself]
    | blank => simp [hself]
    | fetched hfetch =>
      obtain ⟨-, hbytes, -⟩ := SwapSpace.fetch_eq_ok hfetch (hlt _ rfl)
      simp [hself, hbytes]
    | file => rfl
  · exact (hcontents k).trans (if_neg (h.ne_free hn hq hk))

theorem view_moved {old new : Nat} (h : Calm W T v) (hp : v.pages s page.va = some page)
    (hf : page.frame = some old) (hnew : (v.frames new).allocated = false) :
    view ((v.leave s old page).seat s new { page with frame := none } true (v.frames old).contents) =
      v.view := by
  have hpages := pages_move v s old page new (v.frames old).contents
  have hcontents := fun k => contents_seat (v.leave s old page) s new k { page with frame := none } true
    (v.frames old).contents
  have hfiles := files_seat (v.leave s old page) s new { page with frame := none } true
    (v.frames old).contents
  have hswap := swap_seat (v.leave s old page) s new { page with frame := none } true
    (v.frames old).contents
  rw [files_leave] at hfiles
  rw [swap_leave] at hswap
  simp only [contents_leave] at hcontents
  generalize (v.leave s old page).seat s new { page with frame := none } true (v.frames old).contents = u
    at hpages hcontents hfiles hswap
  have hunchanged : Unchanged W v.files u.files := by
    rw [hfiles]
    exact .refl _ _
  refine h.view_keep hunchanged hp hpages ?_ (fun t a q k _ hq hk => ?_) fun _ _ k _ _ => by rw [hswap]
  · have hfilled := h.valid.stowed.filled hp (by rw [hf]; rfl)
    rw [bytes?_frame (p := { page with frame := some new }) rfl hfilled, bytes?_frame hf hfilled, hcontents,
      if_pos rfl]
    rfl
  · exact (hcontents k).trans (if_neg (h.ne_free hnew hq hk))

/-- Paging does not show. -/
theorem view_step (h : Calm W T v) (hs : Step v w) : w.view = v.view := by
  have hunchanged := h.unchanged_step hs
  cases hs with
  | serial | handles | unshared | touched =>
    exact h.view_same hunchanged rfl (fun _ _ _ _ _ _ => rfl) fun _ _ _ _ => rfl
  | swap hagrees =>
    refine h.view_same hunchanged rfl (fun _ _ _ _ _ _ => rfl) fun t a k hk => ?_
    exact hagrees.held k ((h.valid.stowed.used k).mpr ⟨t, a, hk⟩)
  | passed hn =>
    refine h.view_same hunchanged rfl (fun t a p k hp hf => ?_) fun _ _ _ _ => rfl
    exact congrArg Frame.contents (Function.update_of_ne (h.ne_free hn hp hf) ..)
  | flushed hp hf hfile hw =>
    obtain ⟨hpages, hframes, -⟩ := hw.same
    refine h.view_same hunchanged hpages (fun _ _ _ _ _ _ => by rw [hframes]) fun _ _ _ _ => ?_
    cases hw <;> rfl
  | flushedShort hp hf hfile hw =>
    cases hw <;> exact h.view_same hunchanged rfl (fun _ _ _ _ _ _ => rfl) fun _ _ _ _ => rfl
  | evicted hp hf hn hb => exact h.view_evicted hp hf hb
  | claimed hp hf hn hlt hfit hb => exact h.view_claimed hp hf hn hb
  | refused hp hf hn hlt hb hr => exact absurd (h.roomy.not_refused hp hlt) hr
  | moved hp hf hw hold hnew hlt hfit => exact h.view_moved hp hf hnew

theorem view_insert {files : FileStore} (h : Calm W T v) (hfiles : Unchanged W files v.files)
    (hc : (Change.insert s page).Clean W T) (ha : Alters v (.insert s page) w) :
    w.view = View.after files v.view (.insert s page) ∧ Unchanged W v.files w.files := by
  cases ha with
  | insert hs hva hp hserial hf hb =>
  have hunchanged : Unchanged W v.files (v.add s page).files := fun file _ =>
    FileStore.contents_retainSource ..
  refine ⟨?_, hunchanged⟩
  rw [h.view_setAt (w := v.add s page) hunchanged rfl (fun _ _ _ _ _ _ _ => rfl) fun _ _ _ _ _ => rfl]
  refine congrArg (setAt v.view s page.va) (congrArg some ?_)
  have hwaits := hc.2.2
  unfold bytes?
  rw [hf]
  generalize page.backing = backing at hb hwaits
  cases hb with
  | zeroed => rfl
  | uninit target source =>
    cases target with
    | file => rfl
    | anonymous =>
      refine congrArg some ?_
      exact (hfiles.trans hunchanged).image_eq fun file hf => hwaits source file rfl hf

theorem view_remove (h : Calm W T v) (ha : Alters v (.remove s page) w) :
    w.view = setAt v.view s page.va none ∧ Unchanged W v.files w.files := by
  cases ha with
  | remove hp =>
  have hunchanged : Unchanged W v.files (v.discard s page).files := fun file _ =>
    FileStore.contents_releaseSource ..
  refine ⟨h.view_setAt hunchanged (pages_discard ..) (fun _ _ _ k _ _ _ => contents_discard ..) ?_,
    hunchanged⟩
  intro t a k _ _
  show (v.swap.freeSlot page.backing.slot?).held k = v.swap.held k
  cases page.backing.slot? <;> rfl

/-- A copy shows what its original does. -/
theorem view_copy {src dst : Nat} (h : Calm W T v) (ha : Alters v (.copy src dst page) w) :
    w.view = setAt v.view dst page.va (v.view src page.va) ∧ Unchanged W v.files w.files := by
  cases ha with
  | @copy _ _ _ backing swap hp hdst hd hfit hb =>
  have hstowed := h.valid.stowed
  have hpages := pages_adopt v page src dst backing swap
  have hcontents := fun k => contents_adopt v k page src dst backing swap
  have hfiles := files_adopt v page src dst backing swap
  have hswap := swap_adopt v page src dst backing swap
  generalize v.adopt src dst page backing swap = w at hpages hcontents hfiles hswap
  have hunchanged : Unchanged W v.files w.files := by
    intro file _
    rw [hfiles]
    exact FileStore.contents_retainSource ..
  have hslot := Stowed.slotAt_eq hp
  have hheld (t a k : Nat) (hk : v.slotAt t a = some k) : w.swap.held k = v.swap.held k := by
    rw [hswap]
    exact hb.held_eq (h.valid.slot_lt hp) hstowed.fits ((hstowed.used k).mpr ⟨t, a, hk⟩)
  refine ⟨?_, hunchanged⟩
  rw [h.view_setAt hunchanged hpages (fun _ _ _ k _ _ _ => hcontents k) fun t a k _ => hheld t a k]
  refine congrArg (setAt v.view dst page.va) ?_
  rw [view, hp, Option.map_some, Option.map_some]
  refine congrArg some ?_
  have hapart := hstowed.apart hp
  have hwaits : ∀ source, page.backing = .uninit .anonymous source → ∀ file, source.file = some file →
      W file := fun source hb file hf => h.waits hp hb hf
  generalize hback : page.backing = old at hb hslot hapart hwaits
  cases hb with
  | @slot source slot copy swap hdup =>
    obtain ⟨-, -, -, -, hcopied⟩ := SwapSpace.duplicate_eq_ok hdup (hstowed.lt_capacity hslot) hstowed.fits
    have hf : page.frame = none := by
      cases hf : page.frame with
      | none => rfl
      | some n => cases hapart (by rw [hf]; rfl)
    unfold bytes?
    rw [hback, hf, hswap]
    exact congrArg some hcopied
  | same hnone =>
    obtain rfl := hback
    refine bytes?_congr (p := page) (fun source hb => ?_) (fun n _ => hcontents n) fun k hk => ?_
    · exact hunchanged.image_eq (hwaits source hb)
    · rw [hnone] at hk
      cases hk

/-- A write shows on its own page only, which no other page shares a frame with. -/
theorem view_write {start : Nat} {bytes : List UInt8} (h : Calm W T v)
    (ha : Alters v (.write s va start bytes) w) :
    w.view = setAt v.view s va ((v.view s va).map fun contents => contents.map (overwrite · start bytes)) ∧
      Unchanged W v.files w.files := by
  obtain ⟨n, page, e, hp, hf, he, hw, hpages, hfiles, hswap, hcontents⟩ := ha.of_write
  have hsound := h.valid.sound
  have hcount := (hsound.exclusive he hw hp).2
  rw [hsound.frame_eq hp hf he] at hcount
  have hunchanged : Unchanged W v.files w.files := by
    rw [hfiles]
    exact .refl _ _
  refine ⟨?_, hunchanged⟩
  rw [h.view_setAt hunchanged (hpages.trans (setAt_eq_self hp).symm) ?_ fun _ _ _ _ _ => by rw [hswap]]
  · refine congrArg (setAt v.view s va) ?_
    have hfilled := h.valid.stowed.filled hp (by rw [hf]; rfl)
    rw [view, hp, Option.map_some, Option.map_some, Option.map_some, bytes?_frame hf hfilled,
      bytes?_frame hf hfilled, hcontents, if_pos rfl]
    split <;> rfl
  · intro t a q k hne hq hk
    refine (hcontents k).trans (if_neg ?_)
    rintro rfl
    obtain ⟨hs, hva⟩ := hsound.alone hcount hp hf hq hk
    exact hne ⟨hs.symm, hva.symm⟩

theorem view_change {c : Change} {files : FileStore} (h : Calm W T v)
    (hfiles : Unchanged W files v.files) (hc : c.Clean W T) (ha : Alters v c w) :
    w.view = View.after files v.view c ∧ Unchanged W v.files w.files := by
  cases c with
  | insert s page => exact h.view_insert hfiles hc ha
  | remove s page => exact h.view_remove ha
  | copy src dst page => exact h.view_copy ha
  | write s va start bytes => exact h.view_write ha
  | spawn | drop =>
    cases ha
    exact ⟨h.view_same (.refl _ _) rfl (fun _ _ _ _ _ _ => rfl) fun _ _ _ _ => rfl, .refl _ _⟩

omit [ReplacementPolicy π] in
theorem view_eq_none (hp : v.pages s va = none) : v.view s va = none := by
  rw [view, hp, Option.map_none]

omit [ReplacementPolicy π] in
theorem view_eq_some (hp : v.pages s va = some page) : v.view s va = some (v.bytes? page) := by
  rw [view, hp, Option.map_some]

theorem possible {c : Change} (ha : Alters v c w) : c.Possible v.view := by
  cases ha with
  | insert hs hva hp => exact view_eq_none hp
  | @remove s page hp =>
    exact ⟨_, view_eq_some hp, bytes?_eq_none_iff.mpr⟩
  | copy hp hdst hd => exact ⟨view_eq_none hd, Option.isSome_iff_exists.mpr ⟨_, view_eq_some hp⟩⟩
  | write record hp => exact Option.isSome_iff_exists.mpr ⟨_, view_eq_some hp⟩
  | spawn | drop => exact trivial

/-- Whatever paging comes in between, the view is changed by the changes and in no other way. -/
theorem view_evolves {cs : List Change} (h : Calm W T v) (hcs : ∀ c ∈ cs, c.Clean W T)
    (he : Evolves cs v w) :
    View.Follows v.files cs v.view w.view ∧ Calm W T w ∧ Unchanged W v.files w.files := by
  induction he with
  | refl => exact ⟨rfl, h, .refl _ _⟩
  | step _ hs ih =>
    obtain ⟨hview, hcalm, hfiles⟩ := ih h hcs
    rw [hcalm.view_step hs]
    exact ⟨hview, hcalm.step hs, hfiles.trans (hcalm.unchanged_step hs)⟩
  | @change cs c u v w _ ha ih =>
    obtain ⟨hbefore, hc⟩ := List.forall_mem_append.mp hcs
    have hc := List.forall_mem_singleton.mp hc
    obtain ⟨hview, hcalm, hfiles⟩ := ih h hbefore
    obtain ⟨hview', hfiles'⟩ := hcalm.view_change hfiles hc ha
    exact ⟨View.follows_append.mpr ⟨_, hview, possible ha, hview'⟩, hcalm.change hc ha,
      hfiles.trans hfiles'⟩

end Calm

end Memory

theorem Backing.supply_congr {backing : Backing} {files : FileStore} {held held' : Nat → PageBytes}
    (h : ∀ k, backing.slot? = some k → held k = held' k) :
    backing.supply files held = backing.supply files held' := by
  cases backing with
  | anonymous source slot =>
    cases slot with
    | none => rfl
    | some k => exact h k rfl
  | uninit | fileBacked => rfl

/-- A page that was out comes in with the bytes that were kept for it. -/
theorem claimPage_supplies {π : Type} [ReplacementPolicy π] {m : Machine π} {s : Nat} {page : Page}
    (h : m.memory.Valid) (hp : m.memory.pages s page.va = some page) (hf : page.frame = none) :
    Attempt.Ends False (claimPage s page) m
      (fun _ after => ∃ n, after.memory.pages s page.va =
          some { page with backing := page.backing.filled, frame := some n } ∧
        Memory.Rests m.memory after.memory ∧
        after.contents n = page.backing.supply after.files m.swap.held)
      fun _ _ => True := by
  refine (claimPage_seats h hp hf).imp ?_ fun _ _ _ => trivial
  rintro _ after ⟨v, n, backing, c, swap, hrests, hvalid, hpv, hheld, hfree, hlt, hfit, hfilled, hafter⟩
  have hcourse := hrests.seat hpv hf hfree hlt hfit hfilled
  have hfiles : after.files = v.files := (congrArg Memory.files hafter).trans (Memory.files_seat ..)
  refine ⟨n, ?_, hafter ▸ hcourse, ?_⟩
  · rw [hafter, ← hfilled.backing_eq]
    exact (congrFun₂ (Memory.pages_seat ..) s page.va).trans setAt_self
  · have hc : after.contents n = c := by
      rw [Machine.contents_eq, hafter]
      exact (Memory.contents_seat ..).trans (if_pos rfl)
    rw [hc, hfiles, hfilled.bytes_eq (hvalid.slot_lt hpv)]
    exact Backing.supply_congr fun k hk => hheld k (h.used_of_slot hp hk)

end DemandPaging
