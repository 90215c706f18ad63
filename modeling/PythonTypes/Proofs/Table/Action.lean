import PythonTypes.Proofs.Table.Frame
import PythonTypes.Proofs.Types.Action

/-!
# Runs of a table

`TableAction` is anything that can be done with a table. Whatever is done, a path leads for
good where it once led, and following it again changes nothing (`getType_settled_for_good`).
-/

set_option autoImplicit false

namespace PythonTypes

/-- Anything that can be done with a table. -/
inductive TableAction where
  | addModule (m : ModuleDescriptor)
  | convert (modulePath : String) (origin : Origin) (d : Descriptor)
  | getType (path : String)
  | resolveLazy (id : TypeId)
  | resolved (id : TypeId)
  | resolveUnion (id : TypeId)
  | resolvedRef (ref : TypeRef)
  | member (id : TypeId) (name : String)
  | hasMember (id : TypeId) (name : String)
  | builtinInstance (name : String)
  | importModule (path : String)
  | importFrom (modulePath name : String)
  | importSibling (package name : String)
  /-- An action on the types alone. -/
  | onStore (a : StoreAction)

namespace TableAction

/-- The table after an action. -/
def perform : TableAction → Table → Table
  | addModule m, t => t.addModule m
  | convert modulePath origin d, t => (Table.convert modulePath origin d t).2
  | getType path, t => (Table.getType path t).2
  | resolveLazy id, t => (Table.resolveLazy id t).2
  | resolved id, t => (Table.resolved id t).2
  | resolveUnion id, t => (Table.resolveUnion id t).2
  | resolvedRef ref, t => (Table.resolvedRef ref t).2
  | member id name, t => (Table.member id name t).2
  | hasMember id name, t => (Table.hasMember id name t).2
  | builtinInstance name, t => (Table.builtinInstance name t).2
  | importModule path, t => (Table.importModule path t).2
  | importFrom modulePath name, t => (Table.importFrom modulePath name t).2
  | importSibling package name, t => (Table.importSibling package name t).2
  | onStore (.resolveLazy lazy target), t => (Table.resolveWith lazy target t).2
  | onStore a, t => { t with space := { t.space with store := a.perform t.store } }

/-- Whether an action asks something of the table. -/
def IsQuery : TableAction → Prop
  | addModule _ | convert _ _ _ | onStore _ => False
  | _ => True

end TableAction

namespace Lookups

open Query

/-- An action on a table, with these look-ups. -/
def ask (q : Lookups) : TableAction → Query Unit
  | .getType path => do let _ ← q.getType path
  | .resolveLazy id => do let _ ← q.resolveLazy id
  | .resolved id => do let _ ← q.resolved id
  | .resolveUnion id => do let _ ← q.resolveUnion id
  | .resolvedRef ref => do let _ ← q.resolvedRef ref
  | .member id name => do let _ ← q.member id name
  | .hasMember id name => do let _ ← q.hasMember id name
  | .builtinInstance name => do let _ ← q.builtinInstance name
  | .importModule path => do let _ ← q.importModule path
  | .importFrom modulePath name => do let _ ← q.importFrom modulePath name
  | .importSibling package name => do let _ ← q.importSibling package name
  | a => modify a.perform

theorem ask_of_not_isQuery (q : Lookups) {a : TableAction} (ha : ¬ a.IsQuery) : q.ask a = modify a.perform := by
  cases a with
  | addModule m | convert modulePath origin d | onStore a => rfl
  | _ => exact absurd trivial ha

theorem perform_eq_ask (a : TableAction) (t : Table) : a.perform t = ((ofTable.ask a t).getD ((), t)).2 := by
  have hanswer : ∀ {α : Type} (query : Query α) (default : α),
      (query.answer default t).2 = (((do let _ ← query : Query Unit) t).getD ((), t)).2 := by
    intro α query default
    unfold Query.answer
    show _ = (((query t).bind fun r => some ((), r.2)).getD ((), t)).2
    cases query t <;> rfl
  cases a with
  | hasMember id name =>
    rw [ask, hasMember_ofTable]
    exact hanswer _ _
  | addModule m | convert modulePath origin d | onStore a => rfl
  | _ => exact hanswer _ _

theorem Related.ask {R : (α : Type) → Query α → Query α → Prop} (h : Compatible R) {q q' : Lookups}
    (hq : Related R q q') {a : TableAction} (ha : a.IsQuery) : R Unit (q.ask a) (q'.ask a) := by
  cases a with
  | addModule m | convert modulePath origin d | onStore a => exact ha.elim
  | getType path => exact h.bind (hq.getType path) fun _ => h.pure _
  | resolveLazy id => exact h.bind (hq.resolveLazy id) fun _ => h.pure _
  | resolved id => exact h.bind (hq.resolved id) fun _ => h.pure _
  | resolveUnion id => exact h.bind (hq.resolveUnion id) fun _ => h.pure _
  | resolvedRef ref => exact h.bind (hq.resolvedRef h ref) fun _ => h.pure _
  | member id name => exact h.bind (hq.member id name) fun _ => h.pure _
  | hasMember id name => exact h.bind (hq.hasMember h id name) fun _ => h.pure _
  | builtinInstance name => exact h.bind (hq.builtinInstance h name) fun _ => h.pure _
  | importModule path => exact h.bind (hq.importModule h path) fun _ => h.pure _
  | importFrom modulePath name => exact h.bind (hq.importFrom h modulePath name) fun _ => h.pure _
  | importSibling package name => exact h.bind (hq.importSibling h package name) fun _ => h.pure _

end Lookups

namespace TableAction

open Query Table

theorem remembers_perform (a : TableAction) (t : Table) : t.Remembers (a.perform t) := by
  have hquery : a.IsQuery → t.Remembers (a.perform t) := by
    intro ha
    rw [Lookups.perform_eq_ask]
    exact (((Lookups.ofTable_related compatible_keeps).ask compatible_keeps ha).answer () t).toRemembers
  cases a with
  | addModule m =>
    show t.Remembers (t.addModule m)
    unfold Table.addModule
    grind [Remembers.of_eq]
  | convert modulePath origin d => exact ((Keeps.onSpace _).answer _ t).toRemembers
  | onStore a => cases a <;> exact .of_eq rfl rfl
  | _ => exact hquery trivial

end TableAction

namespace Table

/-- The table after several actions. -/
def performAll (t : Table) : List TableAction → Table
  | [] => t
  | a :: rest => (a.perform t).performAll rest

theorem remembers_performAll (t : Table) (as : List TableAction) : t.Remembers (t.performAll as) := by
  induction as generalizing t with
  | nil => exact .of_eq rfl rfl
  | cons a rest ih => exact (a.remembers_perform t).trans (ih (a.perform t))

/-- Once a path has led to something that is not unknown, it leads there after whatever else is
done, and following it again changes nothing. -/
theorem getType_settled_for_good {t t' : Table} {path : String} {id : TypeId}
    (hget : Query.getType path t = some (id, t')) (hid : id ≠ .unknown) (as : List TableAction) :
    Query.getType path (t'.performAll as) = some (id, t'.performAll as) := by
  have hsettled : t'.Settled path id := ((ensures_getType path t).apply_some hget).2 hid
  exact getType_of_settled ((t'.remembers_performAll as).settled hsettled)

/-- Two names that are imported from each other, one of which is also a submodule: the look-up of
`p.x` meets itself. -/
def importedInTurn : Project :=
  (((({} : Project).addModule (ModuleDescriptor.addMember (.ofPath "p")
    (.ofVariable { name := "x", path := "q.y" }))).addModule
    (ModuleDescriptor.addMember (.ofPath "q") (.ofVariable { name := "y", path := "p.x" }))).addModule (.ofPath "p.x"))

theorem getType_settled_for_good_importedInTurn :
    ∃ t' id, Query.getType "p.x" (create importedInTurn {} {}) = some (id, t') ∧ id ≠ .unknown ∧
      Query.getType "p.x" (t'.performAll [.getType "q.y", .addModule (.ofPath "p.x"), .importFrom "p" "x"]) =
        some (id, t'.performAll [.getType "q.y", .addModule (.ofPath "p.x"), .importFrom "p" "x"]) := by
  have hget : (Query.getType "p.x" (create importedInTurn {} {})).map Prod.fst = some ⟨6⟩ := by decide +kernel
  obtain ⟨⟨id, t'⟩, hresult, hid⟩ := Option.map_eq_some_iff.1 hget
  have hid : id ≠ .unknown := by
    cases hid
    decide
  exact ⟨t', id, hresult, hid, getType_settled_for_good hresult hid _⟩

end Table

end PythonTypes
