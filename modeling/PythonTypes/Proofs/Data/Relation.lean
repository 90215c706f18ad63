import Mathlib.Data.Fintype.Card

/-!
# Relations between finitely many elements
-/

set_option autoImplicit false

namespace PythonTypes

/-- There is no way back for ever along steps to elements to which no step leads back. -/
theorem wellFounded_precedes {ι α : Type} [Finite ι] (f : ι → α) (R : α → α → Prop) :
    WellFounded fun i j => Relation.TransGen R (f i) (f j) ∧ ¬ Relation.TransGen R (f j) (f j) := by
  have htrans : IsTrans ι fun i j => Relation.TransGen R (f i) (f j) ∧ ¬ Relation.TransGen R (f j) (f j) :=
    ⟨fun _ _ _ h h' => ⟨h.1.trans h'.1, h'.2⟩⟩
  have hirrefl : Std.Irrefl fun i j => Relation.TransGen R (f i) (f j) ∧ ¬ Relation.TransGen R (f j) (f j) :=
    ⟨fun _ h => h.2 h.1⟩
  exact Finite.wellFounded_of_trans_of_irrefl _

end PythonTypes
