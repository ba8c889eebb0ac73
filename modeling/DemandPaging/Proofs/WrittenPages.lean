import Mathlib.Data.List.GetD
import DemandPaging.Proofs.SharedMarks

/-! # Writing to a page of a file

A page that is alone in its frame, and that no other page may come to be written back over, holds what
is written to it: the bytes that it had, with those in their place that went to it.
-/
namespace DemandPaging
open Memory (Change Step)

/-- The bytes of the page at `va`, with those of `new` in their place that go to it from `start` on. -/
def overlay (va start : Nat) (bytes new : List UInt8) : List UInt8 :=
  bytes.mapIdx fun i b => if start ≤ va + i then new.getD (va + i - start) b else b

section Overlay
variable {va start : Nat} {bytes new : List UInt8}

theorem length_overlay : (overlay va start bytes new).length = bytes.length := List.length_mapIdx

theorem overlay_nil : overlay va start bytes [] = bytes := by
  apply List.ext_getElem?
  intro i
  rw [overlay, List.getElem?_mapIdx]
  cases bytes[i]? <;> simp

theorem overlay_append (first rest : List UInt8) : overlay va start bytes (first ++ rest) =
    overlay va (start + first.length) (overlay va start bytes first) rest := by
  apply List.ext_getElem?
  intro i
  simp only [overlay, List.getElem?_mapIdx, Option.map_map]
  congr 1
  funext b
  rcases Nat.lt_or_ge (va + i) (start + first.length) with hlt | hle
  · rw [Function.comp_apply, if_neg (Nat.not_le_of_lt hlt)]
    split
    · rw [List.getD_append _ _ _ _ (by omega)]
    · rfl
  · rw [Function.comp_apply, if_pos hle, if_pos (by omega), if_pos (by omega),
      List.getD_append_right _ _ _ _ (by omega), List.getD_eq_default first _ (by omega), Nat.sub_sub]

/-- What goes to another page does not show. -/
theorem overlay_of_ne (hsize : bytes.length ≤ pageSize) (hva : va % pageSize = 0)
    (hnew : new.length ≤ pageSize - pageOffset start) (hne : pageDown start ≠ va) :
    overlay va start bytes new = bytes := by
  apply List.ext_getElem?
  intro i
  rw [overlay, List.getElem?_mapIdx]
  rcases Nat.lt_or_ge i bytes.length with hi | hi
  · rw [List.getElem?_eq_getElem hi, Option.map_some]
    split
    · rw [List.getD_eq_default]
      simp only [pageDown, pageOffset, pageSize] at hsize hva hnew hne
      omega
    · rfl
  · rw [List.getElem?_eq_none hi, Option.map_none]

/-- The page that is written to has what was written. -/
theorem take_overwrite {c : PageBytes} {size : Nat} (hsize : size ≤ pageSize)
    (hnew : new.length ≤ pageSize - pageOffset start) :
    (overwrite c (pageOffset start) new).toList.take size =
      overlay (pageDown start) start (c.toList.take size) new := by
  have hoff := pageOffset_lt start
  have hdown := pageDown_add_pageOffset start
  simp only [pageSize] at hsize hnew hoff
  have hfit : new.length ≤ c.toList.length - pageOffset start := by rwa [Vector.length_toList]
  apply List.ext_getElem?
  intro i
  rw [overlay, List.getElem?_mapIdx, List.getElem?_take, List.getElem?_take, toList_overwrite,
    List.take_of_length_le hnew, getElem?_splice _ _ _ hfit]
  split
  · rename_i hi
    have hlt : i < c.toList.length := by
      rw [Vector.length_toList]
      omega
    rw [List.getElem?_eq_getElem hlt, Option.map_some]
    by_cases hin : pageOffset start ≤ i ∧ i < pageOffset start + new.length
    · have hat : pageDown start + i - start = i - pageOffset start := by omega
      rw [if_pos hin, if_pos (by omega), hat, List.getD_eq_getElem?_getD,
        List.getElem?_eq_getElem (by omega), Option.getD_some]
    · rw [if_neg hin]
      split
      · rw [List.getD_eq_default _ _ (by omega)]
      · rfl
  · rfl

end Overlay

/-- What the page at `va` has once the operation has written its first `k` bytes. -/
def Operation.puts (s va k : Nat) (bytes : List UInt8) : Operation → List UInt8
  | writeUser t addr new | copyTo t _ addr new => if t = s then overlay va addr bytes (new.take k) else bytes
  | _ => bytes

namespace Memory
variable {π : Type} {v w : Memory π} {written : Nat → Nat → Prop} {s va t : Nat} {source : Source}
  {bytes bytes' : List UInt8}

/-- The page at `va` is there, alone in its frame, and holds these bytes, and no other page may come to
be written back over them. -/
structure Guards (v : Memory π) (written : Nat → Nat → Prop) (s va : Nat) (source : Source)
    (bytes : List UInt8) : Prop where
  sound : v.Sound
  there : (v.pages s va).isSome
  alone : v.Alone s va
  lone : v.Lone written s va source
  holds : v.Holds s va source bytes

namespace Guards
variable [ReplacementPolicy π]

theorem step (h : v.Guards written s va source bytes) (hs : Step v w) : w.Guards written s va source bytes where
  sound := h.sound.step hs
  there := by
    obtain ⟨p, hp⟩ := Option.isSome_iff_exists.mp h.there
    obtain ⟨q, hq, -⟩ := (Evolves.of_step hs).exists_page hp
    rw [hq]
    rfl
  alone := hs.alone h.sound h.alone
  lone := Lone.step h.lone hs
  holds := h.holds.step h.sound hs (fun _ => hs.stays h.sound h.alone)
    (hs.shown_of_apart (Lone.apart h.lone))

theorem insert {page : Page} (h : v.Guards written s va source bytes) (ha : v.Alters (.insert t page) w)
    (hpage : page.isFile = false) : w.Guards written s va source bytes where
  sound := h.sound.evolves (.of_change ha)
  there := by
    obtain ⟨rfl, hnone⟩ := ha.of_insert
    have hne : ¬(s = t ∧ va = page.va) := by
      rintro ⟨rfl, rfl⟩
      have hsome := h.there
      rw [hnone] at hsome
      cases hsome
    exact (congrArg Option.isSome (setAt_of_ne hne)).trans h.there
  alone := ha.alone h.alone nofun
  lone := Lone.change h.lone h.sound ha fun _ => hpage
  holds := h.holds.change h.sound ha trivial (.inl h.there) nofun nofun

theorem write {a start : Nat} {new : List UInt8} (h : v.Guards written s va source bytes)
    (ha : v.Alters (.write t a start new) w) (hin : written t a)
    (hholds : w.Holds s va source bytes') : w.Guards written s va source bytes' where
  sound := h.sound.evolves (.of_change ha)
  there := by
    cases ha
    exact h.there
  alone := ha.alone h.alone nofun
  lone := Lone.change h.lone h.sound ha hin
  holds := hholds

end Guards

end Memory

variable {π : Type} [ReplacementPolicy π] {v w : Memory π} {s va : Nat} {source : Source}
  {bytes : List UInt8}

/-- Chunk by chunk a page holds what was written to it. -/
theorem Wrote.guards {written : Nat → Nat → Prop} {addr : Nat} {new : List UInt8} {cs : List Change}
    (h : Wrote s addr v new cs w) (hg : v.Guards written s va source bytes)
    (hsize : bytes.length ≤ pageSize) (hva : va % pageSize = 0)
    (hin : ∀ i < new.length, written s (pageDown (addr + i))) :
    w.Guards written s va source (overlay va addr bytes new) := by
  induction h generalizing bytes with
  | nil => rwa [overlay_nil]
  | @chunk addr cs rest chunk new v u u' w hcs he ha hpos hlen hw ih =>
    rw [List.length_append] at hin
    have hu : u.Guards written s va source bytes := by
      refine he.keeps (I := fun x => x.Guards written s va source bytes) hg (fun hs _ hx => hx.step hs)
        fun hmem hinsert _ hx => ?_
      cases hcs with
      | same => cases hmem
      | added serial =>
        obtain rfl := List.mem_singleton.mp hmem
        exact hx.insert hinsert rfl
    have hput : u'.Guards written s va source (overlay va addr bytes chunk) := by
      refine hu.write ha (hin 0 (by omega)) ?_
      by_cases hat : pageDown addr = va
      · subst hat
        exact hu.holds.write ha fun c hc => hc ▸ take_overwrite source.readBytes_le hlen
      · rw [overlay_of_ne hsize hva hlen hat]
        refine hu.holds.change hu.sound ha trivial (.inl hu.there) ?_ nofun
        rintro start new' ⟨⟩
        exact hat rfl
    rw [overlay_append]
    refine ih hput (by rwa [length_overlay]) fun i hi => ?_
    rw [Nat.add_assoc]
    exact hin _ (Nat.add_lt_add_left hi _)

/-- What an operation leaves of a page of a file that no other page may come to be written back over,
and that is alone in its frame if it is written to. -/
theorem Operation.Comes.holds_puts {op : Operation} {reply : Reply} (h : op.Comes v w reply)
    (hv : v.Sound) (hva : va % pageSize = 0) (hholds : v.Holds s va source bytes)
    (hsize : bytes.length ≤ pageSize) (hremains : v.Remains w s va)
    (hshared : v.Dirty s va → ¬op.Unshares v s va) (hlone : v.Lone op.Target s va source)
    (halone : op.Target s va → v.Alone s va) : ∃ k, w.Holds s va source (op.puts s va k bytes) := by
  by_cases htarget : op.Target s va
  · cases op with
    | writeUser t addr new | copyTo t esp addr new =>
      obtain ⟨rfl, -⟩ := id htarget
      obtain ⟨k, cs, us, a, u, hwrote, hus, hquiet, -⟩ := h
      have hle := List.length_take_le' k new
      obtain ⟨p, -, hp, -⟩ := id hremains
      have hu := hwrote.guards ⟨hv, by rw [hp]; rfl, halone htarget, hlone, hholds⟩ hsize hva
        fun i hi => ⟨rfl, i, Nat.lt_of_lt_of_le hi hle, rfl⟩
      -- What was begun and undone elsewhere leaves the page alone.
      let S : Memory.Scope := { moves := fun _ _ => False, brings := fun c => c.OfStack s }
      have hundone : Memory.Course S.moves us u w := hquiet
      have hspares : S.Spares u s va source := by
        refine Memory.Scope.spares_of_lone hu.sound hu.lone ?_
        rintro _ (⟨serial, b, -, rfl⟩ | ⟨page, rfl⟩)
        · exact fun _ => rfl
        · trivial
      refine ⟨k, ?_⟩
      rw [Operation.puts, if_pos rfl]
      refine hundone.holds hus.ofStack hu.sound hu.holds (fun x hx => ?_) (fun _ => id) ?_ hspares
      · exact hremains.there hv x (hx.of_later hwrote.course.evolves)
      · rintro start new' (⟨serial, b, -, ⟨⟩⟩ | ⟨page, ⟨⟩⟩)
    | _ => exact htarget.elim
  · have hspares : (op.scope v).Spares v s va source :=
      Memory.Scope.spares_of_lone hv hlone fun _ => Operation.Brings.within
    obtain ⟨cs, hcourse, hbrings⟩ := h.passes
    have hw := hcourse.holds hbrings hv hholds (hremains.there hv)
      (fun hd => not_or.mpr ⟨htarget, hshared hd⟩) (fun _ _ hbrings => htarget hbrings.target) hspares
    refine ⟨0, ?_⟩
    have hnone : op.puts s va 0 bytes = bytes := by
      unfold Operation.puts
      split
      all_goals first
        | rfl
        | rw [List.take_zero, overlay_nil, ite_self]
    rwa [hnone]

end DemandPaging
