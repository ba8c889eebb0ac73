/-! # Stored bytes

Bytes on the way from one store to another are lists. Pages and sectors are stores of a fixed size
that no operation changes.
-/
namespace DemandPaging

/-- `l` without as many elements as `bytes` has. -/
def dropLike {α β : Type} : List β → List α → List α
  | [], l => l
  | _ :: _, [] => []
  | _ :: bytes, _ :: l => dropLike bytes l

theorem dropLike_eq_drop {α β : Type} (bytes : List β) (l : List α) :
    dropLike bytes l = l.drop bytes.length := by
  induction bytes generalizing l with
  | nil => rfl
  | cons b bytes ih => cases l with
    | nil => rfl
    | cons a l => simp [dropLike, ih]

/-- Puts `bytes` in the place of what is at `start`. -/
def splice (l : List UInt8) (start : Nat) (bytes : List UInt8) : List UInt8 :=
  l.take start ++ (bytes ++ dropLike bytes (l.drop start))

/-- The `count` bytes from `start` on, or as many of them as there are. -/
def slice (l : List UInt8) (start count : Nat) : List UInt8 := (l.drop start).take count

theorem length_splice (l : List UInt8) (start : Nat) (bytes : List UInt8)
    (h : bytes.length ≤ l.length - start) : (splice l start bytes).length = l.length := by
  simp only [splice, dropLike_eq_drop, List.length_append, List.length_take, List.length_drop]
  omega

theorem getElem?_splice (l : List UInt8) (start : Nat) (bytes : List UInt8)
    (h : bytes.length ≤ l.length - start) (i : Nat) :
    (splice l start bytes)[i]? =
      if start ≤ i ∧ i < start + bytes.length then bytes[i - start]? else l[i]? := by
  simp only [splice, dropLike_eq_drop]
  by_cases hs : i < (l.take start).length
  · have : i < start := by
      simp only [List.length_take] at hs
      omega
    rw [List.getElem?_append_left hs, if_neg (by omega), List.getElem?_take, if_pos this]
  · rw [List.getElem?_append_right (Nat.le_of_not_lt hs)]
    simp only [List.length_take] at hs ⊢
    by_cases hl : start ≤ l.length
    · rw [Nat.min_eq_left hl] at hs ⊢
      by_cases hb : i < start + bytes.length
      · rw [if_pos (by omega), List.getElem?_append_left (by omega)]
      · rw [if_neg (by omega), List.getElem?_append_right (by omega), List.drop_drop,
          List.getElem?_drop]
        congr 1
        omega
    · have : bytes = [] := List.length_eq_zero_iff.1 (by omega)
      subst this
      rw [if_neg (by simp only [List.length_nil]; omega), List.nil_append, List.length_nil,
        List.drop_zero, List.getElem?_eq_none (by simp only [List.length_drop]; omega),
        List.getElem?_eq_none (by omega)]

/-- The contents of one page or page frame. -/
abbrev PageBytes := Vector UInt8 4096

/-- The contents of one sector of a device. -/
abbrev Sector := Vector UInt8 512

/-- Replaces the bytes of a store from `start` on. What does not fit is dropped. -/
def overwrite {n : Nat} (store : Vector UInt8 n) (start : Nat) (bytes : List UInt8) :
    Vector UInt8 n :=
  ⟨(splice store.toList start (bytes.take (n - start))).toArray, by
    rw [List.size_toArray, length_splice, Vector.length_toList]
    rw [List.length_take, Vector.length_toList]
    exact Nat.min_le_left ..⟩

theorem toList_overwrite {n : Nat} (store : Vector UInt8 n) (start : Nat) (bytes : List UInt8) :
    (overwrite store start bytes).toList = splice store.toList start (bytes.take (n - start)) :=
  rfl

def zeroPage : PageBytes := Vector.replicate 4096 0

def zeroSector : Sector := Vector.replicate 512 0

/-- Zeroes everything from `start` on. -/
def zeroFrom (page : PageBytes) (start : Nat) : PageBytes :=
  overwrite page start (List.replicate (4096 - start) 0)

/-- A sector-sized list of bytes as a sector. -/
def Sector.ofList (bytes : List UInt8) (h : bytes.length = 512) : Sector :=
  ⟨bytes.toArray, by simpa using h⟩

end DemandPaging
