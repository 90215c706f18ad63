import Mathlib.Data.List.Forall2

/-!
# Actions that may give up

Stores, type spaces and tables are all changed by actions that may give up. `Ensures` says what such
an action leads to from one state: with `mayStop := True` only if it does not give up, with
`mayStop := False` also that it does not. The rules follow the way in which actions are put
together.
-/

set_option autoImplicit false

namespace PythonTypes

theorem get_bind_apply {m : Type → Type} [Monad m] [LawfulMonad m] {σ α : Type}
    (f : σ → StateT σ m α) (s : σ) : (get >>= f) s = f s s := pure_bind (s, s) _

theorem bind_apply_of_eq {σ α β : Type} {action : StateM σ α} {s s' : σ} {a : α}
    (h : action s = (a, s')) (f : α → StateM σ β) : (action >>= f) s = f a s' := by
  show f (action s).1 (action s).2 = _
  rw [h]

theorem modify_apply {m : Type → Type} [Monad m] {σ : Type} (f : σ → σ) (s : σ) :
    (modify f : StateT σ m PUnit) s = pure (⟨⟩, f s) := rfl

/-- Started in `s`, the action gives an answer and leaves a state with property `Q`; unless it gives
up, which it does only if `mayStop`. -/
def Ensures {σ α : Type} (mayStop : Prop) (s : σ) (action : StateT σ Option α) (Q : α → σ → Prop) : Prop :=
  match action s with
  | none => mayStop
  | some (a, s') => Q a s'

namespace Ensures

variable {σ α β : Type} {mayStop : Prop} {s : σ}
variable {action : StateT σ Option α} {Q P : α → σ → Prop} {a : α} {s' : σ} {f : PUnit → StateT σ Option β}

theorem of_eq_some (h : action s = some (a, s')) (hQ : Q a s') : Ensures mayStop s action Q := by
  unfold Ensures
  rw [h]
  exact hQ

theorem apply_some (h : Ensures mayStop s action Q) {a : α} {s' : σ} (haction : action s = some (a, s')) : Q a s' := by
  simp_all [Ensures]

theorem exists_eq_some (h : Ensures False s action Q) : ∃ a s', action s = some (a, s') ∧ Q a s' := by
  grind [Ensures]

theorem isSome (h : Ensures False s action Q) : (action s).isSome := by
  obtain ⟨a, s', heq, -⟩ := exists_eq_some h
  rw [heq]
  rfl

theorem weaken {mayStop' : Prop} (hstop : mayStop → mayStop') (h : Ensures mayStop s action Q) :
    Ensures mayStop' s action Q := by
  grind [Ensures]

theorem anything (action : StateT σ Option α) : Ensures True s action fun _ _ => True := by
  unfold Ensures
  split <;> trivial

theorem assuming {p : Prop} (h : p → Ensures True s action Q) : Ensures True s action fun a s' => p → Q a s' := by
  grind [Ensures]

theorem pure (h : Q a s) : Ensures mayStop s (Pure.pure a) Q := h

theorem bind {f : α → StateT σ Option β} {Q : β → σ → Prop}
    (h : Ensures mayStop s action P) (hf : ∀ a s', P a s' → Ensures mayStop s' (f a) Q) :
    Ensures mayStop s (action >>= f) Q := by
  have hbind : (action >>= f) s = (action s).bind fun r => f r.1 r.2 := rfl
  grind [Ensures]

theorem imp (h : Ensures mayStop s action P) (hPQ : ∀ a s', P a s' → Q a s') : Ensures mayStop s action Q := by
  grind [Ensures]

theorem and (h : Ensures mayStop s action P) (h' : Ensures mayStop s action Q) :
    Ensures mayStop s action fun a s' => P a s' ∧ Q a s' := by
  grind [Ensures]

theorem map {f : α → β} {Q : β → σ → Prop}
    (h : Ensures mayStop s action fun a s' => Q (f a) s') : Ensures mayStop s (f <$> action) Q := by
  grind [map_eq_pure_bind, bind, pure]

theorem get_bind {f : σ → StateT σ Option β} {Q : β → σ → Prop} (h : Ensures mayStop s (f s) Q) :
    Ensures mayStop s (get >>= f) Q := h

theorem modify_bind {g : σ → σ} {Q : β → σ → Prop}
    (h : Ensures mayStop (g s) (f ⟨⟩) Q) : Ensures mayStop s (modify g >>= f) Q := h

theorem set_bind {Q : β → σ → Prop} (h : Ensures mayStop s' (f ⟨⟩) Q) :
    Ensures mayStop s (set s' >>= f) Q := h

/-- Actions on each of several values, one after the other. `R` is what each of them does to the
state, and what holds of a value and its answer has to stay true. -/
theorem forall₂_mapM {ι : Type} {R : σ → σ → Prop} (hrefl : ∀ s, R s s) (htrans : ∀ {s1 s2 s3}, R s1 s2 → R s2 s3 → R s1 s3)
    {Q : ι → α → σ → Prop} {f : ι → StateT σ Option α} (xs : List ι)
    (hstays : ∀ x ∈ xs, ∀ a s1 s2, R s s1 → R s1 s2 → Q x a s1 → Q x a s2)
    (h : ∀ x ∈ xs, ∀ s', R s s' → Ensures mayStop s' (f x) fun a s'' => R s' s'' ∧ Q x a s'') :
    Ensures mayStop s (xs.mapM f) fun as s' => R s s' ∧ List.Forall₂ (fun x a => Q x a s') xs as := by
  induction xs generalizing s with
  | nil => exact .pure ⟨hrefl s, .nil⟩
  | cons x rest ih =>
    rw [List.mapM_cons]
    refine (h x (by simp) s (hrefl s)).bind fun a s1 ha => ?_
    refine (ih (fun y hy b s2 s3 h2 h3 => hstays y (by simp [hy]) b s2 s3 (htrans ha.1 h2) h3)
      fun y hy s2 h2 => h y (by simp [hy]) s2 (htrans ha.1 h2)).bind fun as s2 has => ?_
    exact .pure ⟨htrans ha.1 has.1, .cons (hstays x (by simp) a s1 s2 ha.1 has.1 ha.2) has.2⟩

end Ensures

end PythonTypes
