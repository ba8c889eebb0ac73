import DemandPaging.Machine.Backing
import DemandPaging.Proofs.Outcome

/-! # Storage of bytes

The bytes of a page move between its frame and where they are kept, which is a slot of swap or a file. What
has nothing to do with what is in frames, in swap and in files, and with which pages are dirty, is kept by
all that moves them.
-/
namespace DemandPaging

/-- Whether a report is about bytes that were moved, or could not be. -/
def Event.isStorage : Event → Bool
  | .shortRead .. | .swappedIn .. | .swappedOut .. | .swapFull .. | .shortWriteBack .. => true
  | _ => false

variable {π : Type} {m : Machine π} {source : Source} {s n va : Nat}

/-- Nothing is written back for a page that is clean, and nothing can be for one without a file. Otherwise
the file takes as many bytes as it does, and the page is clean only if these are all. -/
theorem ends_writeBack {stop : Prop} {Q : PUnit → Machine π → Prop} {E : MemoryError → Machine π → Prop}
    (hclean : (m.space s).directory.isDirty va = false → Q ⟨⟩ m)
    (hdetached : (m.space s).directory.isDirty va = true → source.file = none → E .ioFailure m)
    (hwritten : ∀ file count files, (m.space s).directory.isDirty va = true → source.file = some file →
      m.files.writeAt file source.offset ((m.contents n).toList.take source.readBytes) = (count, files) →
      (count = source.readBytes → Q ⟨⟩ (Machine.modifySpace { m with files } s (·.setDirty va false))) ∧
      (count ≠ source.readBytes → E .ioFailure
        (Machine.report { m with files } (.shortWriteBack source.offset count source.readBytes)))) :
    Attempt.Ends stop (writeBack source n s va) m Q E := by
  simp only [writeBack, Attempt.ends_bind, Attempt.ends_get, Attempt.ends_ite, Attempt.ends_pure,
    Bool.not_eq_true]
  refine ⟨fun hdirty => ?_, hclean⟩
  cases hfile : source.file with
  | none => exact hdetached hdirty hfile
  | some file =>
    simp only [Attempt.ends_bind, Attempt.ends_set, Attempt.ends_modify, Attempt.ends_ite,
      Attempt.ends_throw]
    generalize hw : m.files.writeAt file source.offset
      ((m.contents n).toList.take source.readBytes) = written
    obtain ⟨count, files⟩ := written
    obtain ⟨hall, hshort⟩ := hwritten file count files hdirty hfile hw
    exact ⟨hshort, fun hcount => hall (Decidable.of_not_not hcount)⟩

/-- What the bytes of pages, wherever they are, have no part in. -/
structure Machine.Heedless (I : Machine π → Prop) : Prop where
  report : ∀ {m e}, e.isStorage = true → I m → I (m.report e)
  contents : ∀ {m} n c, I m → I (m.setContents n c)
  swap : ∀ {m} swap, I m → I { m with swap }
  written : ∀ {m file position bytes count files},
    m.files.writeAt file position bytes = (count, files) → I m → I { m with files }
  cleaned : ∀ {m} s va, I m → I (m.modifySpace s (·.setDirty va false))

namespace Machine.Heedless
open Attempt
variable {I : Machine π → Prop}

theorem loadSource (hI : Heedless I) (source : Source) :
    Preserves I (loadSource source n : Attempt π Unit) := by
  constructor
  intro m hm
  simp only [DemandPaging.loadSource, ends_bind, ends_get, ends_set, ends_modify, ends_ite, ends_throw]
  exact ⟨fun _ => hI.report rfl (hI.contents _ _ hm), fun _ => hI.contents _ _ (hI.contents _ _ hm)⟩

theorem fetchSlot (hI : Heedless I) (slot : Nat) :
    Preserves I (fetchSlot slot n : Attempt π Unit) := by
  constructor
  intro m hm
  simp only [DemandPaging.fetchSlot, ends_bind, ends_get]
  split
  · trivial
  · rename_i bytes failure swap hfetch
    have hset := hI.swap swap (hI.contents n (overwrite (m.contents n) 0 bytes) hm)
    simp only [ends_bind, ends_set]
    split
    · exact hset
    · exact hI.report rfl hset

theorem storedIn (hI : Heedless I) (answer : Except MemoryError Nat) (swap : SwapSpace) :
    Preserves I (storedIn answer swap : Attempt π Nat) := by
  constructor
  intro m hm
  have hset := hI.swap swap hm
  simp only [DemandPaging.storedIn, ends_bind, ends_modify]
  cases answer with
  | ok slot => exact hI.report rfl hset
  | error e =>
    simp only [ends_bind, ends_modify, ends_ite, ends_throw]
    exact ⟨fun _ => hI.report rfl hset, fun _ => hset⟩

theorem storePage (hI : Heedless I) (contents : PageBytes) :
    Preserves I (storePage contents : Attempt π Nat) :=
  preserves_get.bind fun _ => hI.storedIn ..

theorem duplicateSlot (hI : Heedless I) (slot : Nat) :
    Preserves I (duplicateSlot slot : Attempt π Nat) := by
  refine preserves_get.bind fun m => ?_
  split
  · exact preserves_abort _
  · exact hI.storedIn ..

theorem materialize (hI : Heedless I) (backing : Backing) :
    Preserves I (materialize backing n : Attempt π Backing) := by
  unfold DemandPaging.materialize
  split
  · exact (hI.loadSource _).bind fun _ => by split <;> exact preserves_pure _
  · exact preserves_pure _
  · exact (hI.fetchSlot _).bind fun _ => preserves_pure _
  · exact (hI.loadSource _).bind fun _ => preserves_pure _

theorem writeBack (hI : Heedless I) (source : Source) :
    Preserves I (writeBack source n s va : Attempt π Unit) := by
  constructor
  intro m hm
  refine ends_writeBack (fun _ => hm) (fun _ _ => hm) fun file count files _ _ hw => ?_
  have hset := hI.written hw hm
  exact ⟨fun _ => hI.cleaned s va hset, fun _ => hI.report rfl hset⟩

theorem saveOut (hI : Heedless I) (page : Page) :
    Preserves I (saveOut page n s : Attempt π Backing) := by
  unfold DemandPaging.saveOut
  split
  · exact preserves_get.bind fun _ => (hI.storePage _).bind fun _ => preserves_pure _
  · exact (hI.writeBack _).bind fun _ => preserves_pure _
  · exact preserves_throw _

end Machine.Heedless

end DemandPaging
