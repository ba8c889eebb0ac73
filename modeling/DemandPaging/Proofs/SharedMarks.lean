import DemandPaging.Proofs.Sealing

/-! # Marks of shared frames

Pages that share a frame are copies of one page, and at most one of them is dirty: its mark is what gets
their bytes to the file. Until then each of them is `Safe` with that page, as long as neither is moved out
of the frame, and the dirty one is not given up with its bytes unsaved. A page of which no copy is dirty
has to hold its bytes itself.
-/
namespace DemandPaging
open Memory (Change Step)

namespace Memory
variable {π : Type} {u v w : Memory π} {b s t va : Nat} {source : Source} {bytes : List UInt8}

/-- The pages at `va` of the two spaces are in one frame. -/
def Together (v : Memory π) (s t va : Nat) : Prop :=
  ∃ p q n, v.pages s va = some p ∧ p.frame = some n ∧ v.pages t va = some q ∧ q.frame = some n

/-- The page of space `t` is in the frame of the page at `va` of space `s`, and is dirty. -/
def Backs (v : Memory π) (t s va : Nat) : Prop := v.Dirty t va ∧ v.Together s t va

theorem Together.symm (h : v.Together s t va) : v.Together t s va := by
  obtain ⟨p, q, n, hp, hf, hq, hg⟩ := h
  exact ⟨q, p, n, hq, hg, hp, hf⟩

theorem Together.trans (h : v.Together b s va) (h' : v.Together s t va) : v.Together b t va := by
  obtain ⟨r, p, n, hr, hrn, hp, hf⟩ := h
  obtain ⟨p', q, k, hp', hk, hq, hg⟩ := h'
  obtain rfl := Option.some.inj (hp.symm.trans hp')
  obtain rfl := Option.some.inj (hf.symm.trans hk)
  exact ⟨r, q, n, hr, hrn, hq, hg⟩

theorem Together.congr (h : v.Together s t va) (hs : w.pages s va = v.pages s va)
    (ht : w.pages t va = v.pages t va) : w.Together s t va := by
  rwa [Together, hs, ht]

/-- A page that goes to a frame that no page was in joins no other there. -/
theorem Together.of_setAt {a : Nat} {x : Option Page} (h : w.Together s t va)
    (hw : w.pages = setAt v.pages b a x)
    (hx : ∀ q k, x = some q → q.frame = some k → ∀ c r, v.pages c a = some r → r.frame ≠ some k) :
    v.Together s t va ∨ s = t := by
  obtain ⟨p, q, n, hp, hf, hq, hg⟩ := h
  rw [hw, setAt_apply] at hp hq
  split at hp
  · rename_i hat
    split at hq
    · rename_i hat'
      exact .inr (hat.1.trans hat'.1.symm)
    · exact absurd hg (hx p n hp hf t q (hat.2 ▸ hq))
  · split at hq
    · rename_i hat
      exact absurd hf (hx q n hq hg s p (hat.2 ▸ hp))
    · exact .inl ⟨p, q, n, hp, hf, hq, hg⟩

/-- A dirty page is resident. -/
theorem Sound.backs_self (hv : v.Sound) (hd : v.Dirty s va) : v.Backs s s va := by
  obtain ⟨e, he, -⟩ := id hd
  obtain ⟨p, hp, hf⟩ := hv.mapped he
  exact ⟨hd, p, p, e.frame, hp, hf, hp, hf⟩

/-- Pages that share a frame are copies of one page, and no two of them are dirty. -/
structure Matched (v : Memory π) : Prop where
  alike : ∀ {s t va p q}, v.Together s t va → v.pages s va = some p → v.pages t va = some q →
    q.isFile = p.isFile ∧ q.source = p.source
  sole : ∀ {s t va}, v.Together s t va → v.Dirty s va → v.Dirty t va → s = t

theorem Matched.backs_unique (h : v.Matched) (hb : v.Backs b s va) (ht : v.Backs t s va) : b = t :=
  h.sole (hb.2.symm.trans ht.2) hb.1 ht.1

/-- The page at `va` of space `s` has these bytes from its file: it holds them itself, and the page of
`t` has nothing to write back, or that page, which is dirty, holds them in the same frame. -/
inductive Safe (v : Memory π) (t s va : Nat) (source : Source) (bytes : List UInt8) : Prop
  | own (h : v.Holds s va source bytes) (hclean : t ≠ s → ¬v.Dirty t va)
  | backed (h : v.Holds t va source bytes) (hbacks : v.Backs t s va)
    (hpage : ∀ {p}, v.pages s va = some p → p.isFile = true ∧ p.source = source)

/-- What a page has while it is resident, and where its bytes are found otherwise: with a dirty page in
its frame, or in the file. -/
structure Carries (v : Memory π) (s va : Nat) (source : Source) (bytes : List UInt8) : Prop where
  page : ∀ {p}, v.pages s va = some p → p.isFile = true ∧ p.source = source
  held : ∀ {p n}, v.pages s va = some p → p.frame = some n →
    (v.frames n).contents.toList.take source.readBytes = bytes
  saved : (∃ t, v.Backs t s va) ∨ source.shown v.files = bytes

theorem Carries.exists_safe (h : v.Carries s va source bytes) (hm : v.Matched) :
    ∃ t, (v.Backs t s va ∨ t = s ∧ ∀ b, ¬v.Backs b s va) ∧ v.Safe t s va source bytes := by
  by_cases hbacked : ∃ t, v.Backs t s va
  · obtain ⟨t, ht⟩ := hbacked
    refine ⟨t, .inl ht, .backed ⟨fun hq => ?_, fun hq hn => ?_, fun hnot => absurd ht.1 hnot⟩ ht h.page⟩
    · obtain ⟨p, _, _, hp, -⟩ := id ht.2
      obtain ⟨hfile, hsource⟩ := hm.alike ht.2 hp hq
      rw [hfile, hsource]
      exact h.page hp
    · obtain ⟨p, q, k, hp, hf, hq', hg⟩ := ht.2
      obtain rfl := Option.some.inj (hq.symm.trans hq')
      obtain rfl := Option.some.inj (hn.symm.trans hg)
      exact h.held hp hf
  · refine ⟨s, .inr ⟨rfl, not_exists.mp hbacked⟩, .own ⟨h.page, h.held, fun _ => ?_⟩ fun hne => absurd rfl hne⟩
    exact h.saved.resolve_left hbacked

theorem Safe.carries (h : v.Safe t s va source bytes) (hv : v.Sound) : v.Carries s va source bytes := by
  cases h with
  | own h hclean =>
    refine ⟨h.page, h.held, ?_⟩
    by_cases hd : v.Dirty s va
    · exact .inl ⟨s, hv.backs_self hd⟩
    · exact .inr (h.saved hd)
  | backed h hbacks hpage =>
    refine ⟨hpage, fun hp hf => ?_, .inl ⟨t, hbacks⟩⟩
    obtain ⟨p, q, n, hp', hf', hq, hg⟩ := hbacks.2
    obtain rfl := Option.some.inj (hp.symm.trans hp')
    obtain rfl := Option.some.inj (hf.symm.trans hf')
    exact h.held hq hg

theorem safe_sealed {f : Nat} : (v.sealed f).Safe t s va source bytes ↔ v.Safe t s va source bytes := by
  constructor
  · rintro (⟨h, hclean⟩ | ⟨h, hbacks, hpage⟩)
    · exact .own (holds_sealed.mp h) hclean
    · exact .backed (holds_sealed.mp h) hbacks hpage
  · rintro (⟨h, hclean⟩ | ⟨h, hbacks, hpage⟩)
    · exact .own (holds_sealed.mpr h) hclean
    · exact .backed (holds_sealed.mpr h) hbacks hpage

/-- The page at `va` is the same before and after. -/
def Remains (v w : Memory π) (s va : Nat) : Prop :=
  ∃ p q, v.pages s va = some p ∧ w.pages s va = some q ∧ q.serial = p.serial

variable [ReplacementPolicy π]

/-- No step brings two pages together. -/
theorem Step.together_of (hs : Step v w) (hv : v.Sound) (h : w.Together s t va) :
    v.Together s t va ∨ s = t := by
  cases hs with
  | serial | handles | swap | passed | unshared | touched => exact .inl h
  | flushed _ _ _ hw => exact .inl (h.congr (by rw [hw.same.1]) (by rw [hw.same.1]))
  | flushedShort _ _ _ hw => exact .inl (h.congr (by rw [hw.same]) (by rw [hw.same]))
  | @evicted b k page backing swap hp hf hn hb =>
    apply h.of_setAt (pages_leave v b k { page with backing })
    rintro _ _ ⟨⟩ ⟨⟩
  | @claimed b k page backing c swap hp hf hn hlt hfit hb =>
    apply h.of_setAt (pages_seat v b k { page with backing } page.writable c)
    rintro _ _ ⟨⟩ ⟨⟩ d
    exact hv.ne_free hn d _
  | @refused b k page backing c swap hp hf hn hlt hb hr =>
    apply h.of_setAt (show _ = setAt v.pages b page.va _ from rfl)
    rintro _ _ ⟨⟩ hin
    cases hf.symm.trans hin
  | @moved b old new page hp hf hw hold hnew hlt hfit =>
    apply h.of_setAt (pages_move v b old page new (v.frames old).contents)
    rintro _ _ ⟨⟩ ⟨⟩ d
    exact hv.ne_free hnew d _

theorem Matched.step (h : v.Matched) (hv : v.Sound) (hs : Step v w) : w.Matched where
  alike htogether hp hq := by
    rcases hs.together_of hv htogether with hbefore | rfl
    · obtain ⟨p, hp', houtline⟩ := hs.exists_of_page hp
      obtain ⟨q, hq', houtline'⟩ := hs.exists_of_page hq
      simp only [Page.outline, Prod.mk.injEq] at houtline houtline'
      obtain ⟨hfile, hsource⟩ := h.alike hbefore hp' hq'
      rw [houtline.2.2.2.1, houtline.2.2.2.2, houtline'.2.2.2.1, houtline'.2.2.2.2]
      exact ⟨hfile, hsource⟩
    · obtain rfl := Option.some.inj (hp.symm.trans hq)
      exact ⟨rfl, rfl⟩
  sole htogether hds hdt := by
    rcases hs.together_of hv htogether with hbefore | heq
    · exact h.sole hbefore (hs.dirty_of hds) (hs.dirty_of hdt)
    · exact heq

/-- Every resident page is where it was before a change, or is the copy of one that is in its frame. -/
theorem Alters.exists_original {c : Change} {p : Page} {n : Nat} (ha : v.Alters c w)
    (hp : w.pages s va = some p) (hf : p.frame = some n) : ∃ b q, v.pages b va = some q ∧
      q.frame = some n ∧ q.isFile = p.isFile ∧ q.source = p.source ∧ ((v.pages s va).isSome → b = s) := by
  have hset {d a : Nat} {x : Option Page} (hw : w.pages = setAt v.pages d a x) :
      v.pages s va = some p ∨ (s = d ∧ va = a) ∧ x = some p := by
    rw [hw, setAt_apply] at hp
    split at hp
    · rename_i hat
      exact .inr ⟨hat, hp⟩
    · exact .inl hp
  have hsame (hp : v.pages s va = some p) : ∃ b q, v.pages b va = some q ∧ q.frame = some n ∧
      q.isFile = p.isFile ∧ q.source = p.source ∧ ((v.pages s va).isSome → b = s) :=
    ⟨s, p, hp, hf, rfl, rfl, fun _ => rfl⟩
  cases ha with
  | write | spawn | drop => exact hsame hp
  | @insert d page hlt hva hnone hserial hout hb =>
    obtain hbefore | ⟨-, ⟨⟩⟩ := hset (show _ = setAt v.pages d page.va _ from rfl)
    · exact hsame hbefore
    · cases hout.symm.trans hf
  | @remove d page hpage =>
    obtain hbefore | ⟨-, ⟨⟩⟩ := hset (pages_discard v d page)
    exact hsame hbefore
  | @copy src dst page backing swap hpage hdst hnone hfit hb =>
    obtain hbefore | ⟨⟨rfl, rfl⟩, ⟨⟩⟩ := hset (pages_adopt v page src dst backing swap)
    · exact hsame hbefore
    · obtain ⟨hsource, hfile⟩ := hb.outline_eq
      refine ⟨src, page, hpage, hf, hfile.symm, hsource.symm, fun hsome => ?_⟩
      rw [hnone] at hsome
      cases hsome

/-- A page that is written to is alone in its frame. -/
theorem Alters.eq_of_write {start : Nat} {new : List UInt8} (ha : v.Alters (.write s va start new) w)
    (hv : v.Sound) (h : v.Together s t va) : s = t := by
  obtain ⟨p, q, n, hp, hf, hq, hg⟩ := h
  cases ha with
  | @write s va k start new page e record hpage hk he hw =>
    obtain rfl := Option.some.inj (hp.symm.trans hpage)
    have hone := (hv.exclusive he hw hp).2
    rw [hv.frame_eq hp hf he] at hone
    exact (hv.alone hone hp hf hq hg).1

theorem Matched.change {c : Change} (h : v.Matched) (hv : v.Sound) (ha : v.Alters c w) : w.Matched where
  alike htogether hp hq := by
    obtain ⟨p', q', n, hp', hf, hq', hg⟩ := htogether
    obtain rfl := Option.some.inj (hp.symm.trans hp')
    obtain rfl := Option.some.inj (hq.symm.trans hq')
    obtain ⟨b, p', hp', hf', hfile, hsource, -⟩ := ha.exists_original hp hf
    obtain ⟨d, q', hq', hg', hfile', hsource', -⟩ := ha.exists_original hq hg
    rw [← hfile, ← hsource, ← hfile', ← hsource']
    exact h.alike ⟨p', q', n, hp', hf', hq', hg'⟩ hp' hq'
  sole {s t va} htogether hds hdt := by
    have hbefore {a : Nat} (hd : w.Dirty a va) :
        (∃ start new, c = .write a va start new) ∨ v.Dirty a va := by
      by_cases hwrite : ∃ start new, c = .write a va start new
      · exact .inl hwrite
      · exact .inr (ha.dirty_before hd fun start new hc => hwrite ⟨start, new, hc⟩)
    -- A page that is dirty afterwards is there before, so that neither of the two is a new copy.
    have hthere {a : Nat} (hd : w.Dirty a va) : (v.pages a va).isSome := by
      rcases hbefore hd with ⟨start, new, rfl⟩ | hdirty
      · cases ha with
        | write record hp => rw [hp]; rfl
      · obtain ⟨-, p, -, -, hp, -⟩ := hv.backs_self hdirty
        rw [hp]
        rfl
    obtain ⟨p, q, n, hp, hf, hq, hg⟩ := htogether
    obtain ⟨b, p', hp', hf', -, -, hb⟩ := ha.exists_original hp hf
    obtain ⟨d, q', hq', hg', -, -, hd⟩ := ha.exists_original hq hg
    obtain rfl := hb (hthere hds)
    obtain rfl := hd (hthere hdt)
    have hold : v.Together b d va := ⟨p', q', n, hp', hf', hq', hg'⟩
    rcases hbefore hds with ⟨start, new, rfl⟩ | hds'
    · exact ha.eq_of_write hv hold
    rcases hbefore hdt with ⟨start, new, rfl⟩ | hdt'
    · exact (ha.eq_of_write hv hold.symm).symm
    · exact h.sole hold hds' hdt'

theorem Matched.evolves {cs : List Change} (h : v.Matched) (hv : v.Sound) (he : Evolves cs v w) :
    w.Matched := by
  refine (he.keeps (I := fun u => u.Matched ∧ u.Sound) ⟨h, hv⟩ ?_ ?_).1
  · exact fun hs ⟨hu, hsound⟩ => ⟨hu.step hsound hs, hsound.step hs⟩
  · exact fun _ ha ⟨hu, hsound⟩ => ⟨hu.change hsound ha, hsound.evolves (.of_change ha)⟩

theorem Backs.step (h : v.Backs t s va) (hv : v.Sound) (hs : Step v w) (hstays : Stays v w s va)
    (hstayt : Stays v w t va) (hd : w.Dirty t va) : w.Backs t s va := by
  obtain ⟨-, p, q, n, hp, hf, hq, hg⟩ := h
  obtain ⟨p', hp', -⟩ := (Evolves.of_step hs).exists_page hp
  obtain ⟨e, he, -⟩ := id hd
  obtain ⟨q', hq', hk⟩ := (hv.step hs).mapped he
  rw [hstayt hq hg hq' hk] at hk
  refine ⟨hd, p', q', n, hp', ?_, hq', hk⟩
  rcases hs.frame_cases hp hf hp' with ⟨-, hone⟩ | ⟨k, hin, -⟩
  · -- Only a page that is alone leaves its frame, and then it is the dirty page itself.
    obtain ⟨rfl, -⟩ := hv.alone hone hp hf hq hg
    obtain rfl := Option.some.inj (hp'.symm.trans hq')
    exact hk
  · rw [hin, hstays hp hf hp' hin]

namespace Safe

/-- A page that is backed goes on being so, or its bytes have come to the file. -/
theorem step (h : v.Safe t s va source bytes) (hv : v.Sound) (hs : Step v w)
    (hstay : v.Dirty s va ∨ v.Dirty t va → Stays v w s va ∧ Stays v w t va)
    (hshown : ¬v.Dirty t va → source.shown w.files = source.shown v.files) :
    w.Safe t s va source bytes := by
  cases h with
  | own h hclean =>
    refine .own (h.step hv hs (fun hd => (hstay (.inl hd)).1) fun hd => hshown ?_) fun hne hd =>
      hclean hne (hs.dirty_of hd)
    by_cases heq : t = s
    · exact heq ▸ hd
    · exact hclean heq
  | backed h hbacks hpage =>
    obtain ⟨hd, p, q, n, hp, hf, hq, hg⟩ := id hbacks
    obtain ⟨hstays, hstayt⟩ := hstay (.inr hd)
    have hafter := h.step hv hs (fun _ => hstayt) fun hnot => absurd hd hnot
    have hpage' {r : Page} (hr : w.pages s va = some r) : r.isFile = true ∧ r.source = source := by
      obtain ⟨p, hp, houtline⟩ := hs.exists_of_page hr
      simp only [Page.outline, Prod.mk.injEq] at houtline
      rw [houtline.2.2.2.1, houtline.2.2.2.2]
      exact hpage hp
    by_cases hd' : w.Dirty t va
    · exact .backed hafter (hbacks.step hv hs hstays hstayt hd') hpage'
    · refine .own ⟨hpage', fun hr hk => ?_, fun _ => hafter.saved hd'⟩ fun _ => hd'
      rw [hs.contents_kept hv hp hf hr hk]
      exact h.held hq hg

theorem change {c : Change} (h : v.Safe t s va source bytes) (hv : v.Sound) (ha : v.Alters c w)
    (hset : c.Settled v) (hbefore : (v.pages s va).isSome) (hafter : (w.pages s va).isSome)
    (hkeep : (w.pages t va).isSome ∨ source.Takes v.files)
    (hwrite : ∀ start new, c ≠ .write s va start new ∧ c ≠ .write t va start new) :
    w.Safe t s va source bytes := by
  have hstill {b : Nat} (hthere : (w.pages b va).isSome) : ∀ page, c = .remove b page → page.va ≠ va := by
    rintro page rfl rfl
    cases ha
    rw [pages_discard, setAt_self] at hthere
    cases hthere
  have hsame {b : Nat} (hin : (v.pages b va).isSome) (hstays : ∀ page, c = .remove b page → page.va ≠ va) :
      w.pages b va = v.pages b va := by
    rcases ha.page_cases b va with ⟨hsame, -⟩ | ⟨hnone, -⟩ | ⟨page, hc, hva, -⟩
    · exact hsame
    · rw [hnone] at hin
      cases hin
    · exact absurd hva (hstays page hc)
  cases h with
  | own h hclean =>
    refine .own (h.change hv ha hset (.inl hbefore) (fun start new => (hwrite start new).1) ?_) ?_
    · exact fun page hc hva => absurd hva (hstill hafter page hc)
    · exact fun hne hd => hclean hne (ha.dirty_before hd fun start new => (hwrite start new).2)
  | backed h hbacks hpage =>
    have hin : (v.pages t va).isSome := by
      obtain ⟨-, -, q, -, -, -, hq, -⟩ := hbacks
      rw [hq]
      rfl
    -- A dirty page is not given up while its file takes all its bytes.
    have hstays : ∀ page, c = .remove t page → page.va ≠ va := by
      rcases hkeep with hthere | htakes
      · exact hstill hthere
      · rintro page rfl rfl
        have hp : v.pages t page.va = some page := by
          cases ha
          assumption
        obtain ⟨hfile, rfl⟩ := h.page hp
        exact hset hfile hbacks.1 htakes
    have hheld := h.change hv ha hset (.inl hin) (fun start new => (hwrite start new).2)
      fun page hc hva => absurd hva (hstays page hc)
    refine .backed hheld ⟨ha.dirty_of hv hbacks.1 hstays, ?_⟩ fun hp => ?_
    · exact hbacks.2.congr (hsame hbefore (hstill hafter)) (hsame hin hstays)
    · exact hpage (hsame hbefore (hstill hafter) ▸ hp)

end Safe

theorem Remains.there (h : Remains v w s va) (hv : v.Sound) (x : Memory π) (hx : Between v w x) :
    (x.pages s va).isSome := by
  obtain ⟨p, q, hp, hq, hsame⟩ := h
  obtain ⟨r, hr, -⟩ := hx.exists_page hv hp hq hsame
  exact Option.isSome_iff_exists.mpr ⟨r, hr⟩

/-- On its way from `v` to `w` within the scope memory does not part the page at `va` of space `s` from
its bytes: it is there all the time, and while the page of space `t` backs it neither is moved, nor is
that page given up before its bytes are in the file. -/
structure Scope.Secures (S : Scope) (v w : Memory π) (t s va : Nat) (source : Source) : Prop where
  there : ∀ x, Between v w x → (x.pages s va).isSome
  kept : (∀ x, Between v w x → (x.pages t va).isSome) ∨ source.Takes v.files
  stays : v.Dirty s va ∨ v.Dirty t va → ¬S.moves s va ∧ ¬S.moves t va
  unwritten : ∀ start new, ¬S.brings (.write s va start new) ∧ ¬S.brings (.write t va start new)
  spares : S.Spares v t va source

theorem Course.dirty_before {moves : Nat → Nat → Prop} {cs : List Change} (h : Course moves cs v w)
    (hd : w.Dirty s va) (hwrite : ∀ start new, Change.write s va start new ∉ cs) : v.Dirty s va := by
  induction h with
  | refl => exact hd
  | step _ hs _ ih => exact ih (hs.dirty_of hd) hwrite
  | change _ ha _ ih =>
    have hlast := ha.dirty_before hd fun start new hc =>
      hwrite start new (List.mem_append_right _ (hc ▸ List.mem_singleton_self _))
    exact ih hlast fun start new hmem => hwrite start new (List.mem_append_left _ hmem)

theorem Course.takes {moves : Nat → Nat → Prop} {cs : List Change} (h : Course moves cs v w)
    (htakes : source.Takes v.files) : source.Takes w.files := by
  obtain ⟨f, hf, hlimit, hle⟩ := htakes
  exact ⟨f, hf, (congrArg Prod.snd (h.transferLimits_eq f)).trans hlimit, h.length_eq f ▸ hle⟩

namespace Scope.Secures
variable {S : Scope}

theorem first (h : S.Secures v w t s va source) {cs : List Change} (he : Evolves cs u w) :
    S.Secures v u t s va source where
  there x hx := h.there x (hx.of_earlier he)
  kept := h.kept.imp_left fun hin x hx => hin x (hx.of_earlier he)
  stays := h.stays
  unwritten := h.unwritten
  spares := h.spares

theorem rest (h : S.Secures v w t s va source) (hp : S.Passes v u) : S.Secures u w t s va source where
  there x hx := by
    obtain ⟨_, he⟩ := hp.evolves
    exact h.there x (hx.of_later he)
  kept := by
    obtain ⟨cs, hcourse, -⟩ := hp
    exact h.kept.imp (fun hin x hx => hin x (hx.of_later hcourse.evolves)) hcourse.takes
  stays hd := by
    obtain ⟨cs, hcourse, hcs⟩ := hp
    refine h.stays (hd.imp (fun hds => hcourse.dirty_before hds ?_) fun hdt => hcourse.dirty_before hdt ?_)
    · exact fun start new hmem => (h.unwritten start new).1 (hcs _ hmem)
    · exact fun start new hmem => (h.unwritten start new).2 (hcs _ hmem)
  unwritten := h.unwritten
  spares := h.spares.later hp

end Scope.Secures

/-- A page that is safe stays so. -/
theorem Course.safe {S : Scope} {cs : List Change} (h : Course S.moves cs v w)
    (hcs : ∀ c ∈ cs, S.brings c) (hv : v.Sound) (hsafe : v.Safe t s va source bytes)
    (hsecure : S.Secures v w t s va source) : w.Safe t s va source bytes := by
  induction h with
  | refl => exact hsafe
  | @step cs v u w hbefore hs hk ih =>
    have hu := ih hcs hv hsafe (hsecure.first (.of_step hs))
    have hlast := hsecure.rest ⟨cs, hbefore, hcs⟩
    refine hu.step (hv.evolves hbefore.evolves) hs (fun hd => ?_) (hlast.spares u w (.refl u) hs)
    obtain ⟨hs, ht⟩ := hlast.stays hd
    exact ⟨hk.stays hs, hk.stays ht⟩
  | @change cs c v u w hbefore ha hset ih =>
    obtain ⟨hcs, hc⟩ := List.forall_mem_append.mp hcs
    have hu := ih hcs hv hsafe (hsecure.first (.of_change ha))
    have hlast := hsecure.rest ⟨cs, hbefore, hcs⟩
    have hbefore' := hlast.there u ⟨⟨_, .refl u⟩, _, .of_change ha⟩
    have hafter' := hlast.there w ⟨⟨_, .of_change ha⟩, _, .refl w⟩
    refine hu.change (hv.evolves hbefore.evolves) ha hset hbefore' hafter' ?_ fun start new => ?_
    · exact hlast.kept.imp_left fun hin => hin w ⟨⟨_, .of_change ha⟩, _, .refl w⟩
    · have hbrings := hc c (List.mem_singleton_self c)
      exact ⟨fun heq => (hlast.unwritten start new).1 (heq ▸ hbrings),
        fun heq => (hlast.unwritten start new).2 (heq ▸ hbrings)⟩

/-- A page that is there all the time, and is not written to, goes on holding its bytes, unless it is
moved while it is dirty, where its bytes in the file are spared. -/
theorem Course.holds {S : Scope} {cs : List Change} (h : Course S.moves cs v w)
    (hcs : ∀ c ∈ cs, S.brings c) (hv : v.Sound) (hholds : v.Holds s va source bytes)
    (hthere : ∀ x, Between v w x → (x.pages s va).isSome) (hstay : v.Dirty s va → ¬S.moves s va)
    (hwrite : ∀ start new, ¬S.brings (.write s va start new)) (hspares : S.Spares v s va source) :
    w.Holds s va source bytes := by
  have hsecure : S.Secures v w s s va source :=
    { there := hthere
      kept := .inl hthere
      stays := fun hd => and_self_iff.mpr (hstay (or_self_iff.mp hd))
      unwritten := fun start new => and_self_iff.mpr (hwrite start new)
      spares := hspares }
  cases h.safe hcs hv (.own hholds fun hne => absurd rfl hne) hsecure with
  | own hafter => exact hafter
  | backed hafter => exact hafter

end Memory
end DemandPaging
