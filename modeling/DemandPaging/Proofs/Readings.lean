import Mathlib.Algebra.GroupWithZero.Nat
import Mathlib.Tactic.Common
import DemandPaging.Bytes
import DemandPaging.Executable.Reader

/-! # What a reader checks

A reader goes through conditions on its input in a fixed order. It succeeds if all of them hold, and
otherwise reports the first that does not, at the place where it was looking. The conditions of a
reader made of others are those of its parts, in turn.
-/
namespace DemandPaging

namespace ByteOrder

theorem value_lt (order : ByteOrder) (bytes : List UInt8) :
    order.value bytes < 256 ^ bytes.length := by
  have little_lt : ∀ bytes : List UInt8, little.value bytes < 256 ^ bytes.length := by
    intro bytes
    induction bytes with
    | nil => decide
    | cons b bytes ih =>
      have := b.toNat_lt
      simp only [value, List.foldr_cons, List.length_cons, Nat.pow_succ] at ih ⊢
      omega
  cases order with
  | little => exact little_lt bytes
  | big =>
    rw [← List.length_reverse, value, List.foldl_eq_foldr_reverse]
    simpa only [value, Nat.add_comm] using little_lt bytes.reverse

/-- The number that is spelled by `width` bytes of `b`. -/
def number (order : ByteOrder) (b : List UInt8) (start width : Nat) : Nat :=
  order.value (slice b start width)

theorem number_lt (order : ByteOrder) {b : List UInt8} {start width : Nat} :
    order.number b start width < 256 ^ width := by
  refine Nat.lt_of_lt_of_le (order.value_lt _) (Nat.pow_le_pow_right (by decide) ?_)
  exact List.length_take_le ..

end ByteOrder

/-- A condition on the input, and what is reported where if it is violated. -/
structure Check where
  holds : Prop
  problem : ReadProblem
  position : Nat

/-- The input has all of the `width` bytes from `start` on. -/
def Check.fits (b : List UInt8) (start width : Nat) : Check :=
  ⟨start + width ≤ b.length, .endOfInput, start⟩

namespace Check
variable {b : List UInt8} {start width : Nat}

theorem dropExactly?_eq_some (h : (fits b start width).holds) :
    dropExactly? width (b.drop start) = some (b.drop (start + width)) := by
  have hlen : width ≤ (b.drop start).length := by
    rw [List.length_drop]
    exact Nat.le_sub_of_add_le' h
  rw [dropExactly?_eq, if_pos hlen, List.drop_drop]

theorem dropExactly?_eq_none (hstart : start ≤ b.length) (h : ¬(fits b start width).holds) :
    dropExactly? width (b.drop start) = none := by
  have hlen : ¬width ≤ (b.drop start).length := by
    rw [List.length_drop]
    exact fun hle => h (Nat.add_le_of_le_sub' hstart hle)
  rw [dropExactly?_eq, if_neg hlen]

end Check

/-- The first condition of a list that is violated. -/
def FirstViolated : List Check → Check → Prop
  | [], _ => False
  | d :: checks, c => ¬d.holds ∧ c = d ∨ d.holds ∧ FirstViolated checks c

namespace FirstViolated
variable {checks more : List Check} {c : Check}

theorem append_iff : FirstViolated (checks ++ more) c ↔
    FirstViolated checks c ∨ (∀ d ∈ checks, d.holds) ∧ FirstViolated more c := by
  induction checks with
  | nil => simp [FirstViolated]
  | cons d checks ih =>
    simp only [List.cons_append, FirstViolated, ih, List.forall_mem_cons]
    tauto

theorem exists_iff : (∃ c, FirstViolated checks c) ↔ ¬∀ d ∈ checks, d.holds := by
  induction checks with
  | nil => simp [FirstViolated]
  | cons d checks ih =>
    by_cases hd : d.holds
    · simp [FirstViolated, hd, ih]
    · simp [FirstViolated, hd]

end FirstViolated

/-- The outcome of reading `b`: a `Q` if all checks are passed, else a report of the first that is
not. -/
structure Judged {α : Type} (b : List UInt8) (checks : List Check) (Q : α → Prop)
    (r : Except ReadFailure α) : Prop where
  passed : (∀ c ∈ checks, c.holds) → ∃ a, r = .ok a ∧ Q a
  failed : ∀ c, FirstViolated checks c → r = .error ⟨c.problem, b.length - c.position⟩

namespace Judged
variable {α β : Type} {b : List UInt8} {checks more : List Check} {Q : α → Prop} {R : β → Prop}
  {r : Except ReadFailure α}

theorem ok {a : α} (h : Q a) : Judged b [] Q (.ok a) := ⟨fun _ => ⟨a, rfl, h⟩, fun _ => False.elim⟩

theorem bind {f : α → Except ReadFailure β} (h : Judged b checks Q r)
    (hf : ∀ a, Q a → Judged b more R (f a)) : Judged b (checks ++ more) R (r >>= f) where
  passed hall := by
    obtain ⟨hfirst, hrest⟩ := List.forall_mem_append.mp hall
    obtain ⟨a, rfl, ha⟩ := h.passed hfirst
    exact (hf a ha).passed hrest
  failed c hc := by
    obtain hc | ⟨hfirst, hc⟩ := FirstViolated.append_iff.mp hc
    · rw [h.failed c hc]
      rfl
    · obtain ⟨a, rfl, ha⟩ := h.passed hfirst
      exact (hf a ha).failed c hc

theorem imp {Q' : α → Prop} (h : Judged b checks Q r) (hQ : ∀ a, Q a → Q' a) :
    Judged b checks Q' r where
  passed hall := by
    obtain ⟨a, hr, ha⟩ := h.passed hall
    exact ⟨a, hr, hQ a ha⟩
  failed := h.failed

/-- What is done with the result in the end checks nothing. -/
theorem bind_ok {f : α → β} (h : Judged b checks Q r) (hf : ∀ a, Q a → R (f a)) :
    Judged b checks R (r >>= fun a => .ok (f a)) := by
  rw [← List.append_nil checks]
  exact h.bind fun a ha => .ok (hf a ha)

theorem of_ok {a : α} (h : Judged b checks Q r) (hr : r = .ok a) :
    (∀ c ∈ checks, c.holds) ∧ Q a := by
  have hall : ∀ c ∈ checks, c.holds := by
    by_contra hno
    obtain ⟨c, hc⟩ := FirstViolated.exists_iff.mpr hno
    cases hr.symm.trans (h.failed c hc)
  obtain ⟨a', hr', ha⟩ := h.passed hall
  cases hr.symm.trans hr'
  exact ⟨hall, ha⟩

theorem error_iff {e : ReadFailure} (h : Judged b checks Q r) :
    r = .error e ↔ ∃ c, FirstViolated checks c ∧ e = ⟨c.problem, b.length - c.position⟩ := by
  constructor
  · intro hr
    have hno : ¬∀ c ∈ checks, c.holds := by
      intro hall
      obtain ⟨a, hr', -⟩ := h.passed hall
      cases hr.symm.trans hr'
    obtain ⟨c, hc⟩ := FirstViolated.exists_iff.mpr hno
    exact ⟨c, hc, Except.error.inj (hr.symm.trans (h.failed c hc))⟩
  · rintro ⟨c, hc, rfl⟩
    exact h.failed c hc

/-- One condition that decides. -/
theorem check {c : Check} (hok : c.holds → ∃ a, r = .ok a ∧ Q a)
    (hno : ¬c.holds → r = .error ⟨c.problem, b.length - c.position⟩) : Judged b [c] Q r where
  passed hall := hok (hall c (by simp))
  failed d hd := by
    obtain ⟨hd, rfl⟩ | ⟨-, hd⟩ := hd
    · exact hno hd
    · exact hd.elim

end Judged

/-- The reader `m`, used at `start`, makes these checks and stops at `stop` with a `Q`. -/
def Parses {α : Type} (b : List UInt8) (start : Nat) (m : Reader α) (checks : List Check)
    (Q : α → Prop) (stop : Nat) : Prop :=
  start ≤ b.length → Judged b checks
    (fun r : α × List UInt8 => Q r.1 ∧ r.2 = b.drop stop ∧ stop ≤ b.length) (m (b.drop start))

namespace Parses
variable {α β : Type} {b : List UInt8} {start middle stop width : Nat} {m : Reader α}
  {checks more : List Check} {Q : α → Prop} {R : β → Prop}

theorem pure {a : α} (h : Q a) : Parses b start (pure a) [] Q start :=
  fun hstart => .ok ⟨h, rfl, hstart⟩

theorem bind {f : α → Reader β} (h : Parses b start m checks Q middle)
    (hf : ∀ a, Q a → Parses b middle (f a) more R stop) :
    Parses b start (m >>= f) (checks ++ more) R stop := by
  intro hstart
  refine (h hstart).bind ?_
  rintro ⟨a, rest⟩ ⟨ha, rfl, hmiddle⟩
  exact hf a ha hmiddle

theorem tag (start : Nat) (expected : List UInt8) : Parses b start (Reader.tag expected)
    [⟨slice b start expected.length = expected, .tag, start⟩] (fun _ => True)
    (start + expected.length) := by
  intro hstart
  have hiff : expected.isPrefixOf (b.drop start) = true ↔
      slice b start expected.length = expected := by
    rw [List.isPrefixOf_iff_prefix, List.prefix_iff_eq_take, slice, eq_comm]
  refine .check (fun h => ⟨((), b.drop (start + expected.length)), ?_, trivial, rfl, ?_⟩) fun h => ?_
  · rw [Reader.tag, if_pos (hiff.mpr h), List.drop_drop]
  · have hlen := congrArg List.length h
    rw [slice, List.length_take, List.length_drop] at hlen
    omega
  · rw [Reader.tag, if_neg (mt hiff.mp h), List.length_drop]

theorem take (start width : Nat) : Parses b start (Reader.take width) [.fits b start width]
    (· = slice b start width) (start + width) := by
  intro hstart
  refine .check (fun h => ⟨(slice b start width, b.drop (start + width)), ?_, rfl, rfl, h⟩)
    fun h => ?_
  · rw [Reader.take, Check.dropExactly?_eq_some h, slice]
  · rw [Reader.take, Check.dropExactly?_eq_none hstart h, List.length_drop, Check.fits]

theorem skip (start width : Nat) : Parses b start (Reader.skip width) [.fits b start width]
    (fun _ => True) (start + width) := by
  intro hstart
  refine .check (fun h => ⟨((), b.drop (start + width)), ?_, trivial, rfl, h⟩) fun h => ?_
  · rw [Reader.skip, Check.dropExactly?_eq_some h]
  · rw [Reader.skip, Check.dropExactly?_eq_none hstart h, List.length_drop, Check.fits]

theorem byte (start : Nat) : Parses b start Reader.byte [.fits b start 1]
    (fun a => a.toNat = ByteOrder.little.number b start 1) (start + 1) := by
  refine (take start 1).bind fun bytes hbytes => .pure ?_
  rw [hbytes]
  exact UInt8.toNat_ofNat_of_lt' (ByteOrder.number_lt .little)

theorem half (order : ByteOrder) (start : Nat) : Parses b start (Reader.half order)
    [.fits b start 2] (fun a => a.toNat = order.number b start 2) (start + 2) := by
  refine (take start 2).bind fun bytes hbytes => .pure ?_
  rw [hbytes]
  exact UInt16.toNat_ofNat_of_lt' (ByteOrder.number_lt order)

theorem word (order : ByteOrder) (start : Nat) : Parses b start (Reader.word order)
    [.fits b start 4] (fun a => a.toNat = order.number b start 4) (start + 4) := by
  refine (take start 4).bind fun bytes hbytes => .pure ?_
  rw [hbytes]
  exact UInt32.toNat_ofNat_of_lt' (ByteOrder.number_lt order)

/-- A field with a list of values is checked for its value after it has been read. -/
theorem oneOf {f : α → Option β} {P : Prop} (h : Parses b start m checks Q stop)
    (hP : ∀ a, Q a → (P ↔ (f a).isSome)) : Parses b start (Reader.oneOf m f)
    (checks ++ [⟨P, .value, start⟩]) (fun k => ∃ a, Q a ∧ f a = some k) stop := by
  intro hstart
  have hbind : Reader.oneOf m f (b.drop start) = m (b.drop start) >>= fun r =>
      (f r.1).elim (.error ⟨.value, (b.drop start).length⟩) fun k => .ok (k, r.2) := by
    rw [Reader.oneOf]
    rcases m (b.drop start) with e | ⟨a, rest⟩
    · rfl
    · show _ = (f a).elim _ _
      cases hf : f a <;> simp [hf]
  rw [hbind]
  refine (h hstart).bind ?_
  rintro ⟨a, rest⟩ ⟨ha, rfl, hstop⟩
  have hsome := hP a ha
  cases hf : f a with
  | some k =>
    rw [hf] at hsome
    exact .check (fun _ => ⟨_, rfl, ⟨a, ha, hf⟩, rfl, hstop⟩) fun hno => absurd (hsome.mpr rfl) hno
  | none =>
    rw [hf] at hsome
    refine .check (fun h => Bool.noConfusion (hsome.mp h)) fun _ => ?_
    rw [List.length_drop, Option.elim_none]

end Parses

end DemandPaging
