import DemandPaging.Proofs.Slots

/-! # Pages over time

A page is known by its serial, which no other page ever has. Once a page is gone from where it was, it
does not come back, so that a page that is found there again was there all the time.
-/
namespace DemandPaging

namespace Memory
variable {π : Type} {u v w : Memory π} {s va serial n : Nat} {page : Page}

/-- The page with this serial is at `va`. -/
def At (v : Memory π) (s va serial : Nat) : Prop := ∃ p, v.pages s va = some p ∧ p.serial = serial

/-- The page with this serial is not at `va`, and no new one will have its serial. -/
structure Gone (v : Memory π) (s va serial : Nat) : Prop where
  issued : serial < v.nextSerial
  absent : ¬v.At s va serial

variable [ReplacementPolicy π]

theorem nextSerial_leave : (v.leave s n page).nextSerial = v.nextSerial := by
  rw [leave]
  rfl

theorem nextSerial_seat {writable : Bool} {c : PageBytes} :
    (v.seat s n page writable c).nextSerial = v.nextSerial := by
  rw [seat]
  rfl

omit [ReplacementPolicy π] in
theorem nextSerial_join : (v.join s n page).nextSerial = v.nextSerial := by
  rw [join]
  rfl

theorem Step.nextSerial_le (hs : Step v w) : v.nextSerial ≤ w.nextSerial := by
  cases hs with
  | serial hn => exact hn
  | handles | swap | passed | refused | unshared | touched => exact Nat.le_refl _
  | flushed _ _ _ hw => cases hw <;> exact Nat.le_refl _
  | flushedShort _ _ _ hw => cases hw <;> exact Nat.le_refl _
  | evicted => exact Nat.le_of_eq nextSerial_leave.symm
  | claimed => exact Nat.le_of_eq nextSerial_seat.symm
  | moved => exact Nat.le_of_eq (nextSerial_seat.trans nextSerial_leave).symm

theorem Alters.nextSerial_le {c : Change} (ha : v.Alters c w) : v.nextSerial ≤ w.nextSerial := by
  cases ha with
  | insert => exact Nat.le_succ _
  | write | spawn | drop => exact Nat.le_refl _
  | @remove s page =>
    show v.nextSerial ≤ (v.quit s page).nextSerial
    unfold quit
    split
    · exact Nat.le_of_eq nextSerial_leave.symm
    · exact Nat.le_refl _
  | copy =>
    unfold adopt
    split
    · rw [nextSerial_join]
      exact Nat.le_succ _
    · exact Nat.le_succ _

/-- A change keeps the page at `va`, puts a new one where there was none, or removes it. -/
theorem Alters.page_cases {c : Change} (ha : v.Alters c w) (s va : Nat) :
    w.pages s va = v.pages s va ∧ (∀ page, c = .remove s page → page.va ≠ va) ∨
      v.pages s va = none ∧ (∃ p, w.pages s va = some p ∧ p.serial = v.nextSerial) ∨
      ∃ page, c = .remove s page ∧ page.va = va ∧ v.pages s va = some page ∧ w.pages s va = none := by
  have hset {t a : Nat} {x : Option Page} (hw : w.pages = setAt v.pages t a x) :
      w.pages s va = v.pages s va ∧ ¬(s = t ∧ va = a) ∨ (s = t ∧ va = a) ∧ w.pages s va = x := by
    rw [hw, setAt_apply]
    split
    · rename_i hat
      exact .inr ⟨hat, rfl⟩
    · rename_i hne
      exact .inl ⟨rfl, hne⟩
  cases ha with
  | write | spawn | drop => exact .inl ⟨rfl, nofun⟩
  | @insert t page hlt hva hnone hserial hf hb =>
    rcases hset (t := t) (a := page.va) rfl with ⟨hsame, -⟩ | ⟨⟨rfl, rfl⟩, hnew⟩
    · exact .inl ⟨hsame, nofun⟩
    · exact .inr (.inl ⟨hnone, page, hnew, hserial⟩)
  | @remove t page hp =>
    rcases hset (pages_discard ..) with ⟨hsame, hne⟩ | ⟨⟨rfl, rfl⟩, hnew⟩
    · refine .inl ⟨hsame, ?_⟩
      rintro _ ⟨⟩ rfl
      exact hne ⟨rfl, rfl⟩
    · exact .inr (.inr ⟨page, rfl, rfl, hp, hnew⟩)
  | @copy src dst page backing swap hp hdst hnone hfit hb =>
    rcases hset (pages_adopt ..) with ⟨hsame, -⟩ | ⟨⟨rfl, rfl⟩, hnew⟩
    · exact .inl ⟨hsame, nofun⟩
    · exact .inr (.inl ⟨hnone, _, hnew, rfl⟩)

theorem Step.at_iff (hs : Step v w) : w.At s va serial ↔ v.At s va serial := by
  have houtline := congrArg (Option.map Prod.fst) (hs.outline_eq s va)
  rw [Option.map_map, Option.map_map] at houtline
  have hserial (u : Memory π) : u.At s va serial ↔
      (u.pages s va).map (Prod.fst ∘ Page.outline) = some serial := by
    rw [Option.map_eq_some_iff]
    rfl
  rw [hserial, hserial, houtline]

namespace Gone

theorem step (h : v.Gone s va serial) (hs : Step v w) : w.Gone s va serial where
  issued := Nat.lt_of_lt_of_le h.issued hs.nextSerial_le
  absent hat := h.absent (hs.at_iff.mp hat)

theorem change {c : Change} (h : v.Gone s va serial) (ha : v.Alters c w) : w.Gone s va serial where
  issued := Nat.lt_of_lt_of_le h.issued ha.nextSerial_le
  absent := by
    rintro ⟨p, hp, rfl⟩
    rcases ha.page_cases s va with ⟨hsame, -⟩ | ⟨-, q, hq, hserial⟩ | ⟨-, -, -, -, hnone⟩
    · exact h.absent ⟨p, hsame ▸ hp, rfl⟩
    · obtain rfl := Option.some.inj (hp.symm.trans hq)
      exact absurd h.issued (Nat.not_lt_of_ge (Nat.le_of_eq hserial.symm))
    · cases hnone.symm.trans hp

theorem evolves {cs : List Change} (h : v.Gone s va serial) (he : Evolves cs v w) :
    w.Gone s va serial :=
  he.keeps (I := fun u => u.Gone s va serial) h (fun hs hgone => hgone.step hs)
    fun _ ha hgone => hgone.change ha

end Gone

/-- A page is where it was, but for how it is paged, or it is gone. -/
theorem Evolves.outline_or_gone {cs : List Change} {p : Page} (he : Evolves cs v w) (hv : v.Sound)
    (hp : v.pages s va = some p) :
    (∃ q, w.pages s va = some q ∧ q.outline = p.outline) ∨ w.Gone s va p.serial := by
  induction he with
  | refl => exact .inl ⟨p, hp, rfl⟩
  | step _ hs ih =>
    rcases ih hv hp with ⟨q, hq, houtline⟩ | hgone
    · obtain ⟨r, hr, hrq⟩ := (of_step hs).exists_page hq
      exact .inl ⟨r, hr, hrq.trans houtline⟩
    · exact .inr (hgone.step hs)
  | @change cs c u u' w he ha ih =>
    rcases ih hv hp with ⟨q, hq, houtline⟩ | hgone
    · have hserial : q.serial = p.serial := congrArg Prod.fst houtline
      have hissued := ((hv.evolves he).kept hq).2.2.2
      rcases ha.page_cases s va with ⟨hsame, -⟩ | ⟨hnone, -⟩ | ⟨-, -, -, -, hnone⟩
      · exact .inl ⟨q, hsame.trans hq, houtline⟩
      · cases hnone.symm.trans hq
      · refine .inr ⟨Nat.lt_of_lt_of_le (hserial ▸ hissued) ha.nextSerial_le, ?_⟩
        rintro ⟨r, hr, -⟩
        cases hnone.symm.trans hr
    · exact .inr (hgone.change ha)

/-- Memory comes past `x` on its way from `v` to `w`. -/
def Between (v w x : Memory π) : Prop := (∃ cs, Evolves cs v x) ∧ ∃ cs, Evolves cs x w

theorem Between.of_later {cs : List Change} {x : Memory π} (he : Evolves cs u v) (h : Between v w x) :
    Between u w x := by
  obtain ⟨⟨_, hvx⟩, hxw⟩ := h
  exact ⟨⟨_, he.trans hvx⟩, hxw⟩

theorem Between.of_earlier {cs : List Change} {x : Memory π} (h : Between u v x) (he : Evolves cs v w) :
    Between u w x := by
  obtain ⟨hux, _, hxv⟩ := h
  exact ⟨hux, _, hxv.trans he⟩

/-- A page that is there before and after was there all the time. -/
theorem Between.exists_page {x : Memory π} {p q : Page} (h : Between v w x) (hv : v.Sound)
    (hp : v.pages s va = some p) (hq : w.pages s va = some q) (hsame : q.serial = p.serial) :
    ∃ r, x.pages s va = some r ∧ r.outline = p.outline := by
  obtain ⟨⟨_, hvx⟩, ⟨_, hxw⟩⟩ := h
  rcases hvx.outline_or_gone hv hp with hpage | hgone
  · exact hpage
  · exact absurd ⟨q, hq, hsame⟩ (hgone.evolves hxw).absent

end Memory

end DemandPaging
