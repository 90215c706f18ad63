import PythonTypes.Proofs.Table.Action

/-!
# Look-ups that meet no import cycle

Look-ups that give up where they meet an import cycle agree with those that never do, as long as
they do not give up (`perform_of_straight`), so what is proved of `withCycle` for any `cycle` holds
of both.
-/

set_option autoImplicit false

namespace PythonTypes

namespace Query

/-- Gives the same answer and table as `query'` unless it gives up. -/
def Below {α : Type} (query query' : Query α) : Prop := ∀ t r, query t = some r → query' t = some r

namespace Below

variable {α β : Type}

theorem refl (query : Query α) : query.Below query := fun _ _ h => h

theorem tooDeep (query : Query α) : Query.tooDeep.Below query := fun _ _ h => by cases h

theorem bind {query query' : Query α} {f f' : α → Query β} (h : query.Below query')
    (hf : ∀ a, (f a).Below (f' a)) : (query >>= f).Below (query' >>= f') := by
  intro t r hr
  change (query t).bind (fun p => f p.1 p.2) = some r at hr
  change (query' t).bind (fun p => f' p.1 p.2) = some r
  obtain ⟨p, hp, hpr⟩ := Option.bind_eq_some_iff.1 hr
  rw [h t p hp]
  exact hf p.1 p.2 r hpr

theorem get_bind {f f' : Table → Query β} (hf : ∀ t, (f t).Below (f' t)) : Below (get >>= f) (get >>= f') :=
  fun t r hr => hf t t r hr

end Below

end Query

theorem Table.below_resolveLazyStep {typeAt typeAt' : String → Query TypeId}
    (htype : ∀ path, (typeAt path).Below (typeAt' path))
    (lazy : TypeId) : (resolveLazyStep typeAt lazy).Below (resolveLazyStep typeAt' lazy) := by
  unfold resolveLazyStep
  refine .get_bind fun t => ?_
  dsimp only
  split
  · exact .refl _
  · grind [Query.Below.refl, Query.Below.bind]
  · exact .refl _

namespace Lookups

open Query

theorem compatible_below : Compatible fun _ query query' => query.Below query' where
  pure _ := .refl _
  tooDeep := .refl _
  bind := .bind
  get_bind := .get_bind
  canonical _ := .refl _
  unionOf _ := .refl _
  instanceOf _ := .refl _
  loadModule _ := .refl _
  setModuleMember _ _ _ := .refl _
  unresolvedImport _ := .refl _
  typeStep := Compatible.typeStep_of_remember (R := fun _ query query' => query.Below query')
    (fun _ => .refl _) .bind .get_bind fun _ _ => .refl _
  resolveLazyStep := Table.below_resolveLazyStep

/-- The look-ups that give up where they meet an import cycle. -/
def straight : Lookups := withCycle Query.tooDeep

/-- Where giving up at import cycles still answers, never giving up answers the same. -/
theorem straight_below_ofTable : straight.Related (fun _ query query' => query.Below query') ofTable :=
  withCycle_unknown ▸ withCycle_related compatible_below (.tooDeep _)

/-- An action that meets no import cycle does not depend on what cycles are answered with. -/
theorem perform_of_straight {a : TableAction} {t t' : Table} (h : straight.ask a t = some ((), t')) : a.perform t = t' := by
  have hask : (straight.ask a).Below (ofTable.ask a) := by
    by_cases ha : a.IsQuery
    · exact straight_below_ofTable.ask compatible_below ha
    · rw [ask_of_not_isQuery straight ha, ask_of_not_isQuery ofTable ha]
      exact .refl _
  rw [perform_eq_ask, hask t _ h]
  rfl

end Lookups

namespace TableAction

/-- The action meets no import cycle. -/
def Straight (t : Table) (a : TableAction) : Prop := (Lookups.straight.ask a t).isSome

instance (t : Table) (a : TableAction) : Decidable (a.Straight t) := inferInstanceAs (Decidable (_ = true))

end TableAction

namespace Table

/-- Actions that meet no import cycle, one after the other. -/
def StraightAll (t : Table) : List TableAction → Prop
  | [] => True
  | a :: rest => a.Straight t ∧ (a.perform t).StraightAll rest

instance (t : Table) : (as : List TableAction) → Decidable (t.StraightAll as)
  | [] => inferInstanceAs (Decidable True)
  | a :: rest =>
    have : Decidable ((a.perform t).StraightAll rest) := instDecidableStraightAll (a.perform t) rest
    inferInstanceAs (Decidable (a.Straight t ∧ (a.perform t).StraightAll rest))

end Table

end PythonTypes
