import DemandPaging.Machine.Basic

/-! # Outcomes of operations

`Ends` says what an operation run from a machine answers and leaves behind. One rule for each way to
build an operation turns a statement about a program into one about the machines between its parts,
so that an operation is opened once, and later proofs use what was proved of it. `Preserves` says that
an operation keeps something however it ends, and has such rules as well.
-/
namespace DemandPaging

variable {π ε α β : Type}

/-- Run from `m`, the operation ends with an answer and a machine that satisfy `Q`. It may abort only
if `stop` holds. -/
def Run.Ends (stop : Prop) (x : Run π α) (m : Machine π) (Q : α → Machine π → Prop) : Prop :=
  match x m with
  | .ok a after => Q a after
  | .error _ _ => stop

/-- The same of an attempt: `Q` is about its answer, `E` about its error. -/
def Attempt.Ends (stop : Prop) (x : ExceptT ε (Run π) α) (m : Machine π) (Q : α → Machine π → Prop)
    (E : ε → Machine π → Prop) : Prop :=
  match x m with
  | .ok (.ok a) after => Q a after
  | .ok (.error e) after => E e after
  | .error _ _ => stop

variable {stop : Prop} {m : Machine π}

namespace Run
variable {Q : α → Machine π → Prop}

theorem Ends.imp {Q' : α → Machine π → Prop} {x : Run π α} (h : Ends stop x m Q)
    (hq : ∀ a after, Q a after → Q' a after) : Ends stop x m Q' := by
  unfold Ends at h ⊢
  split at h
  · exact hq _ _ h
  · exact h

/-- Where nothing may abort, nothing does. -/
theorem Ends.weaken {stop' : Prop} {x : Run π α} (h : Ends stop x m Q) (hs : stop → stop') :
    Ends stop' x m Q := by
  unfold Ends at h ⊢
  split at h
  · exact h
  · exact hs h

/-- Two statements about one operation. -/
theorem Ends.and {Q' : α → Machine π → Prop} {x : Run π α} (h : Ends stop x m Q)
    (h' : Ends True x m Q') : Ends stop x m fun a after => Q a after ∧ Q' a after := by
  unfold Ends at h h' ⊢
  split at h
  · rename_i hx
    rw [hx] at h'
    exact ⟨h, h'⟩
  · exact h

theorem Ends.of_ok {x : Run π α} {a : α} {after : Machine π} (h : Ends stop x m Q)
    (hx : x m = .ok a after) : Q a after := by
  simpa only [Ends, hx] using h

theorem Ends.answers {x : Run π α} (h : Ends stop x m Q) (hs : ¬stop) :
    ∃ a after, x m = .ok a after := by
  unfold Ends at h
  split at h
  · rename_i a after hx
    exact ⟨a, after, hx⟩
  · exact absurd h hs

/-- Nothing is said of an operation that may abort and end in any way. -/
theorem ends_true {x : Run π α} : Ends True x m fun _ _ => True := by
  unfold Ends
  split <;> trivial

/-- Two operations that go on alike from where a first one ends. -/
theorem Ends.bind_congr {x : Run π β} {f g : β → Run π α}
    (h : Ends stop x m fun b after => f b after = g b after) : (x >>= f) m = (x >>= g) m := by
  simp only [bind, EStateM.bind]
  unfold Ends at h
  split at h
  · rename_i hx
    simpa only [hx] using h
  · rename_i hx
    simp only [hx]

/-- What two operations that end alike are followed by does not tell them apart. -/
theorem bind_congr_left {x y : Run π β} (f : β → Run π α) (h : x m = y m) : (x >>= f) m = (y >>= f) m := by
  simp only [bind, EStateM.bind, h]

/-- An operation goes on from where a first one has ended. -/
theorem bind_of_ok {x : Run π β} {f : β → Run π α} {b : β} {after : Machine π} (hx : x m = .ok b after) :
    (x >>= f) m = f b after := by
  simp only [bind, EStateM.bind, hx]

theorem ends_pure {a : α} : Ends stop (pure a : Run π α) m Q ↔ Q a m := Iff.rfl

theorem ends_bind {x : Run π β} {f : β → Run π α} :
    Ends stop (x >>= f) m Q ↔ Ends stop x m fun b m => Ends stop (f b) m Q := by
  simp only [Ends, bind, EStateM.bind]
  cases x m <;> rfl

theorem ends_map {x : Run π β} {f : β → α} :
    Ends stop (f <$> x) m Q ↔ Ends stop x m fun b m => Q (f b) m := by
  simp only [Ends, Functor.map, EStateM.map]
  cases x m <;> rfl

theorem ends_get {Q : Machine π → Machine π → Prop} : Ends stop (get : Run π _) m Q ↔ Q m m := Iff.rfl

theorem ends_set {Q : PUnit → Machine π → Prop} {after : Machine π} :
    Ends stop (set after : Run π _) m Q ↔ Q ⟨⟩ after := Iff.rfl

theorem ends_modify {Q : PUnit → Machine π → Prop} {f : Machine π → Machine π} :
    Ends stop (modify f : Run π _) m Q ↔ Q ⟨⟩ (f m) := Iff.rfl

theorem ends_abort {a : Abort} : Ends stop (abort a : Run π α) m Q ↔ stop := Iff.rfl

theorem ends_ite {c : Prop} [Decidable c] {x y : Run π α} :
    Ends stop (if c then x else y) m Q ↔ (c → Ends stop x m Q) ∧ (¬c → Ends stop y m Q) := by
  split <;> simp_all

theorem ends_run {x : ExceptT ε (Run π) α} {Q : Except ε α → Machine π → Prop} :
    Ends stop x.run m Q ↔
      Attempt.Ends stop x m (fun a m => Q (.ok a) m) (fun e m => Q (.error e) m) := by
  simp only [Ends, Attempt.Ends, ExceptT.run]
  rcases x m with ⟨_ | _, _⟩ | _ <;> rfl

end Run

namespace Attempt
variable {Q : α → Machine π → Prop} {E : ε → Machine π → Prop}

theorem Ends.imp {Q' : α → Machine π → Prop} {E' : ε → Machine π → Prop}
    {x : ExceptT ε (Run π) α} (h : Ends stop x m Q E) (hq : ∀ a after, Q a after → Q' a after)
    (he : ∀ e after, E e after → E' e after) : Ends stop x m Q' E' := by
  unfold Ends at h ⊢
  split at h
  · exact hq _ _ h
  · exact he _ _ h
  · exact h

theorem Ends.weaken {stop' : Prop} {x : ExceptT ε (Run π) α} (h : Ends stop x m Q E)
    (hs : stop → stop') : Ends stop' x m Q E := by
  unfold Ends at h ⊢
  split at h
  · exact h
  · exact h
  · exact hs h

theorem Ends.and {Q' : α → Machine π → Prop} {E' : ε → Machine π → Prop} {x : ExceptT ε (Run π) α}
    (h : Ends stop x m Q E) (h' : Ends True x m Q' E') :
    Ends stop x m (fun a after => Q a after ∧ Q' a after) fun e after => E e after ∧ E' e after := by
  unfold Ends at h h' ⊢
  split at h
  · rename_i hx
    rw [hx] at h'
    exact ⟨h, h'⟩
  · rename_i hx
    rw [hx] at h'
    exact ⟨h, h'⟩
  · exact h

theorem Ends.of_ok {x : ExceptT ε (Run π) α} {a : α} {after : Machine π} (h : Ends stop x m Q E)
    (hx : x m = .ok (.ok a) after) : Q a after := by
  simpa only [Ends, hx] using h

theorem Ends.of_error {x : ExceptT ε (Run π) α} {e : ε} {after : Machine π} (h : Ends stop x m Q E)
    (hx : x m = .ok (.error e) after) : E e after := by
  simpa only [Ends, hx] using h

/-- What ends so has been run. -/
theorem Ends.answered {x : ExceptT ε (Run π) α} (h : Ends stop x m Q E) :
    Ends stop x m (fun a after => x m = .ok (.ok a) after ∧ Q a after)
      fun e after => x m = .ok (.error e) after ∧ E e after := by
  unfold Ends at h ⊢
  split at h
  · rename_i hx
    exact ⟨hx, h⟩
  · rename_i hx
    exact ⟨hx, h⟩
  · exact h

/-- What can neither fail nor abort succeeds. -/
theorem Ends.succeeds {x : ExceptT ε (Run π) α} (h : Ends False x m Q fun _ _ => False) :
    ∃ a after, x m = .ok (.ok a) after ∧ Q a after := by
  unfold Ends at h
  split at h
  · rename_i a after hx
    exact ⟨a, after, hx, h⟩
  · exact h.elim
  · exact h.elim

theorem Ends.bind_congr {x : ExceptT ε (Run π) β} {f g : β → ExceptT ε (Run π) α}
    (h : Ends stop x m (fun b after => f b after = g b after) E) : (x >>= f) m = (x >>= g) m := by
  simp only [bind, ExceptT.bind, ExceptT.mk, EStateM.bind]
  unfold Ends at h
  split at h
  · rename_i hx
    simpa only [hx, ExceptT.bindCont] using h
  · rename_i hx
    simp only [hx, ExceptT.bindCont]
  · rename_i hx
    simp only [hx]

theorem bind_of_ok {x : ExceptT ε (Run π) β} {f : β → ExceptT ε (Run π) α} {b : β} {after : Machine π}
    (hx : x m = .ok (.ok b) after) : (x >>= f) m = f b after := by
  simp only [bind, ExceptT.bind, ExceptT.mk, EStateM.bind, hx, ExceptT.bindCont]

theorem bind_of_error {x : ExceptT ε (Run π) β} {f : β → ExceptT ε (Run π) α} {e : ε} {after : Machine π}
    (hx : x m = .ok (.error e) after) : (x >>= f) m = .ok (.error e) after := by
  simp only [bind, ExceptT.bind, ExceptT.mk, EStateM.bind, hx, ExceptT.bindCont]
  rfl

theorem ends_pure {a : α} : Ends stop (pure a : ExceptT ε (Run π) α) m Q E ↔ Q a m := Iff.rfl

theorem ends_bind {x : ExceptT ε (Run π) β} {f : β → ExceptT ε (Run π) α} :
    Ends stop (x >>= f) m Q E ↔ Ends stop x m (fun b m => Ends stop (f b) m Q E) E := by
  simp only [Ends, bind, ExceptT.bind, ExceptT.mk, EStateM.bind, ExceptT.bindCont]
  rcases x m with ⟨_ | _, _⟩ | _ <;> rfl

theorem ends_map {x : ExceptT ε (Run π) β} {f : β → α} :
    Ends stop (f <$> x) m Q E ↔ Ends stop x m (fun b m => Q (f b) m) E := by
  simp only [Ends, Functor.map, ExceptT.map, ExceptT.mk, EStateM.bind, bind]
  rcases x m with ⟨_ | _, _⟩ | _ <;> rfl

theorem ends_discard {x : ExceptT ε (Run π) β} {Q : PUnit → Machine π → Prop} :
    Ends stop (discard x) m Q E ↔ Ends stop x m (fun _ m => Q ⟨⟩ m) E :=
  ends_map

/-- A step that cannot be refused, as part of an attempt. -/
theorem ends_lift {x : Run π α} : Ends stop (liftM x : ExceptT ε (Run π) α) m Q E ↔ Run.Ends stop x m Q := by
  simp only [Ends, Run.Ends, liftM, monadLift, MonadLift.monadLift, ExceptT.lift, ExceptT.mk,
    Functor.map, EStateM.map]
  cases x m <;> rfl

theorem ends_adapt {ε' : Type} {f : ε' → ε} {x : ExceptT ε' (Run π) α} :
    Ends stop (ExceptT.adapt f x) m Q E ↔ Ends stop x m Q fun e m => E (f e) m := by
  have hadapt : ExceptT.adapt f x m = EStateM.map (Except.mapError f) x m := rfl
  simp only [Ends, hadapt, EStateM.map]
  rcases x m with ⟨_ | _, _⟩ | _ <;> rfl

theorem ends_throw {e : ε} : Ends stop (throw e : ExceptT ε (Run π) α) m Q E ↔ E e m := Iff.rfl

theorem ends_tryCatch {x : ExceptT ε (Run π) α} {handle : ε → ExceptT ε (Run π) α} :
    Ends stop (tryCatch x handle) m Q E ↔
      Ends stop x m Q (fun e m => Ends stop (handle e) m Q E) := by
  simp only [Ends, tryCatch, tryCatchThe, MonadExceptOf.tryCatch, ExceptT.tryCatch, ExceptT.mk, bind,
    EStateM.bind]
  rcases x m with ⟨_ | _, _⟩ | _ <;> rfl

theorem ends_get {Q : Machine π → Machine π → Prop} : Ends stop (get : ExceptT ε (Run π) _) m Q E ↔ Q m m :=
  Iff.rfl

theorem ends_set {Q : PUnit → Machine π → Prop} {after : Machine π} :
    Ends stop (set after : ExceptT ε (Run π) _) m Q E ↔ Q ⟨⟩ after := Iff.rfl

theorem ends_modify {Q : PUnit → Machine π → Prop} {f : Machine π → Machine π} :
    Ends stop (modify f : ExceptT ε (Run π) _) m Q E ↔ Q ⟨⟩ (f m) := Iff.rfl

theorem ends_modifyGet {f : Machine π → α × Machine π} :
    Ends stop (modifyGet f : ExceptT ε (Run π) _) m Q E ↔ Q (f m).1 (f m).2 := Iff.rfl

theorem ends_ite {c : Prop} [Decidable c] {x y : ExceptT ε (Run π) α} :
    Ends stop (if c then x else y) m Q E ↔ (c → Ends stop x m Q E) ∧ (¬c → Ends stop y m Q E) := by
  split <;> simp_all

end Attempt

/-! ## What operations preserve -/

namespace Run
variable {I : Machine π → Prop}

/-- However the operation ends, it leaves a machine of which `I` holds. -/
abbrev Leaves (I : Machine π → Prop) (x : Run π α) (m : Machine π) : Prop :=
  Ends True x m fun _ after => I after

/-- From a machine of which `I` holds the operation leaves one of which it holds. -/
structure Preserves (I : Machine π → Prop) (x : Run π α) : Prop where
  ends : ∀ m, I m → Leaves I x m

theorem preserves_pure (a : α) : Preserves I (pure a : Run π α) := ⟨fun _ hm => hm⟩

theorem preserves_get : Preserves I (get : Run π _) := ⟨fun _ hm => hm⟩

theorem preserves_abort (a : Abort) : Preserves I (abort a : Run π α) := ⟨fun _ _ => trivial⟩

theorem preserves_modify {f : Machine π → Machine π} (hf : ∀ m, I m → I (f m)) :
    Preserves I (modify f : Run π _) := ⟨fun m hm => hf m hm⟩

theorem Preserves.bind {x : Run π β} {f : β → Run π α} (hx : Preserves I x)
    (hf : ∀ b, Preserves I (f b)) : Preserves I (x >>= f) := by
  constructor
  intro m hm
  apply ends_bind.mpr
  exact (hx.ends m hm).imp fun b after hafter => (hf b).ends after hafter

end Run

namespace Attempt
variable {I : Machine π → Prop}

/-- The same of an attempt. -/
abbrev Leaves (I : Machine π → Prop) (x : ExceptT ε (Run π) α) (m : Machine π) : Prop :=
  Ends True x m (fun _ after => I after) fun _ after => I after

structure Preserves (I : Machine π → Prop) (x : ExceptT ε (Run π) α) : Prop where
  ends : ∀ m, I m → Leaves I x m

theorem preserves_pure (a : α) : Preserves I (pure a : ExceptT ε (Run π) α) := ⟨fun _ hm => hm⟩

theorem preserves_get : Preserves I (get : ExceptT ε (Run π) _) := ⟨fun _ hm => hm⟩

theorem preserves_throw (e : ε) : Preserves I (throw e : ExceptT ε (Run π) α) := ⟨fun _ hm => hm⟩

theorem preserves_abort (a : Abort) :
    Preserves I (abort a : Run π (Except ε α)) := ⟨fun _ _ => trivial⟩

theorem preserves_modify {f : Machine π → Machine π} (hf : ∀ m, I m → I (f m)) :
    Preserves I (modify f : ExceptT ε (Run π) _) := ⟨fun m hm => hf m hm⟩

theorem preserves_modifyGet {f : Machine π → α × Machine π} (hf : ∀ m, I m → I (f m).2) :
    Preserves I (modifyGet f : ExceptT ε (Run π) α) := ⟨fun m hm => hf m hm⟩

theorem preserves_lift {x : Run π α} (hx : Run.Preserves I x) :
    Preserves I (liftM x : ExceptT ε (Run π) α) := by
  constructor
  intro m hm
  apply ends_lift.mpr
  exact hx.ends m hm

theorem Preserves.bind {x : ExceptT ε (Run π) β} {f : β → ExceptT ε (Run π) α} (hx : Preserves I x)
    (hf : ∀ b, Preserves I (f b)) : Preserves I (x >>= f) := by
  constructor
  intro m hm
  apply ends_bind.mpr
  exact (hx.ends m hm).imp (fun b after hafter => (hf b).ends after hafter) fun _ _ hafter => hafter

theorem Preserves.tryCatch {x : ExceptT ε (Run π) α} {handle : ε → ExceptT ε (Run π) α}
    (hx : Preserves I x) (hhandle : ∀ e, Preserves I (handle e)) :
    Preserves I (tryCatch x handle) := by
  constructor
  intro m hm
  apply ends_tryCatch.mpr
  exact (hx.ends m hm).imp (fun _ _ hafter => hafter) fun e after hafter => (hhandle e).ends after hafter

theorem Preserves.adapt {ε' : Type} {f : ε' → ε} {x : ExceptT ε' (Run π) α} (hx : Preserves I x) :
    Preserves I (ExceptT.adapt f x) := by
  constructor
  intro m hm
  apply ends_adapt.mpr
  exact hx.ends m hm

theorem Preserves.discard {x : ExceptT ε (Run π) α} (hx : Preserves I x) :
    Preserves I (discard x) := by
  constructor
  intro m hm
  apply ends_discard.mpr
  exact hx.ends m hm

theorem Preserves.run {x : ExceptT ε (Run π) α} (hx : Preserves I x) : Run.Preserves I x.run := by
  constructor
  intro m hm
  apply Run.ends_run.mpr
  exact hx.ends m hm

end Attempt

end DemandPaging
