import DemandPaging.Proofs.FilePages

/-! # Pages that share their frame with no other

Only a copy of a page for another space makes two pages share a frame. A page of which no copy is made
stays alone in its frame, however it is paged, and never goes from one frame to another.
-/
namespace DemandPaging

namespace Memory
variable {π : Type} {v w : Memory π} {s va n : Nat} {p : Page}

/-- No other page is in the frame of the page at `va`. -/
def Alone (v : Memory π) (s va : Nat) : Prop :=
  ∀ {p q n t a}, v.pages s va = some p → p.frame = some n → v.pages t a = some q → q.frame = some n →
    t = s ∧ a = va

theorem Sound.refcount_of_alone (h : v.Sound) (halone : v.Alone s va) (hp : v.pages s va = some p)
    (hf : p.frame = some n) : (v.frames n).refcount = 1 := by
  have howner : ∀ o ∈ (v.frames n).owners, o.space = s := by
    intro o ho
    obtain ⟨q, hq, -, hg⟩ := h.owner ho
    exact (halone hp hf hq hg).1
  have hdistinct := h.distinct n
  have hmem := h.owned hp hf
  rw [h.counted]
  -- Two owners would be in two spaces.
  generalize (v.frames n).owners = owners at howner hdistinct hmem
  rcases owners with _ | ⟨o, _ | ⟨o', rest⟩⟩
  · cases hmem
  · rfl
  · have hne := (List.pairwise_cons.mp hdistinct).1 o' (List.mem_cons_self ..)
    refine absurd ?_ hne.1
    rw [howner o (List.mem_cons_self ..), howner o' (List.mem_cons_of_mem _ (List.mem_cons_self ..))]

theorem Alone.of_pages (h : v.Alone s va) (hw : w.pages = v.pages) : w.Alone s va := by
  intro p q n t a hp hf hq hg
  rw [hw] at hp hq
  exact h hp hf hq hg

/-- A page that goes to a frame that no page was in is alone there, and so are the others where they
are. -/
theorem Alone.of_setAt {t a : Nat} {x : Option Page} (h : v.Alone s va)
    (hw : w.pages = setAt v.pages t a x)
    (hx : ∀ q k, x = some q → q.frame = some k → ∀ b c r, v.pages b c = some r → r.frame ≠ some k) :
    w.Alone s va := by
  intro p q n b c hp hf hq hg
  rw [hw, setAt_apply] at hp hq
  split at hp
  · rename_i hat
    split at hq
    · rename_i hat'
      exact ⟨hat'.1.trans hat.1.symm, hat'.2.trans hat.2.symm⟩
    · exact absurd hg (hx p n hp hf b c q hq)
  · split at hq
    · exact absurd hf (hx q n hq hg s va p hp)
    · exact h hp hf hq hg

theorem Sound.ne_free (h : v.Sound) (hn : (v.frames n).allocated = false) (s va : Nat) (p : Page)
    (hp : v.pages s va = some p) : p.frame ≠ some n := by
  intro hf
  have hpos := (h.resident_frame hp hf).1
  rw [h.free_iff] at hn
  omega

variable [ReplacementPolicy π]

theorem Step.alone (hs : Step v w) (hv : v.Sound) (h : v.Alone s va) : w.Alone s va := by
  cases hs with
  | serial | handles | swap | passed | unshared | touched => exact h.of_pages rfl
  | flushed _ _ _ hw => exact h.of_pages hw.same.1
  | flushedShort _ _ _ hw => exact h.of_pages hw.same
  | @evicted t k page backing swap hp hf hn hb =>
    apply h.of_setAt (pages_leave v t k { page with backing })
    rintro _ _ ⟨⟩ ⟨⟩
  | @claimed t k page backing c swap hp hf hn hlt hfit hb =>
    apply h.of_setAt (pages_seat v t k { page with backing } page.writable c)
    rintro _ _ ⟨⟩ ⟨⟩
    exact hv.ne_free hn
  | @refused t k page backing c swap hp hf hn hlt hb hr =>
    apply h.of_setAt (show _ = setAt v.pages t page.va _ from rfl)
    rintro _ _ ⟨⟩ hin
    cases hf.symm.trans hin
  | @moved t old new page hp hf hw hold hnew hlt hfit =>
    apply h.of_setAt (pages_move v t old page new (v.frames old).contents)
    rintro _ _ ⟨⟩ ⟨⟩
    exact hv.ne_free hnew

/-- A page that is alone in its frame has no reason to move. -/
theorem Step.stays (hs : Step v w) (hv : v.Sound) (h : v.Alone s va) : Stays v w s va := by
  intro p q n k hp hf hq hg
  rcases hs.resident_cases hp hf hq hg with hsame | ⟨hshared, -⟩
  · exact hsame
  · exact absurd (hv.refcount_of_alone h hp hf) hshared

/-- Only a copy of the page itself shares its frame. -/
theorem Alters.alone {c : Change} (ha : v.Alters c w) (h : v.Alone s va)
    (hc : ∀ src dst page, c = .copy src dst page → src ≠ s ∧ (v.pages s va).isSome) :
    w.Alone s va := by
  cases ha with
  | write | spawn | drop => exact h.of_pages rfl
  | @insert t page hlt hva hnone hserial hf hb =>
    apply h.of_setAt (show _ = setAt v.pages t page.va _ from rfl)
    rintro _ _ ⟨⟩ hin
    cases hf.symm.trans hin
  | @remove t page hp =>
    apply h.of_setAt (pages_discard v t page)
    rintro _ _ ⟨⟩
  | @copy src dst page backing swap hp hdst hnone hfit hb =>
    obtain ⟨hne, hsome⟩ := hc src dst page rfl
    have hpages := pages_adopt v page src dst backing swap
    have hold : ¬(s = dst ∧ va = page.va) := by
      rintro ⟨rfl, rfl⟩
      rw [hnone] at hsome
      cases hsome
    intro p q n t a hp' hf hq hg
    rw [hpages, setAt_of_ne hold] at hp'
    rw [hpages, setAt_apply] at hq
    split at hq
    · obtain rfl := Option.some.inj hq
      exact absurd (h hp' hf hp hg).1 hne
    · exact h hp' hf hq hg

end Memory

end DemandPaging
