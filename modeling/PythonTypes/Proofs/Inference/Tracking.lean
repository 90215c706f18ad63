import PythonTypes.Inference.File
import PythonTypes.Proofs.Flow.Effects
import PythonTypes.Proofs.Inference.Bindings
import PythonTypes.Tree.Bind

/-!
# Which variables get a type

A variable is tracked in a body if every one of its bindings is an assignment or a loop of that
body, or its declaration as a parameter. Propagation gives types to tracked variables only.
Inference along control flow starts from the declared parameters whether they are tracked or not,
and so gives a type to every parameter, and to no other variable that is not tracked
(`typed_untracked_iff`).
-/

set_option autoImplicit false

namespace PythonTypes

theorem OrderedMap.isSome_get?_insertAll {α β : Type} [DecidableEq α] (pairs : List (α × β)) (m : OrderedMap α β) (k : α) :
    ((m.insertAll pairs).get? k).isSome ↔ (m.get? k).isSome ∨ k ∈ pairs.map Prod.fst := by
  induction pairs generalizing m with
  | nil => simp [insertAll]
  | cons p rest ih =>
    have hrest : ((m.insertAll (p :: rest)).get? k).isSome ↔ ((m.insert p.1 p.2).get? k).isSome ∨ k ∈ rest.map Prod.fst :=
      ih (m.insert p.1 p.2)
    grind [get?_insert]

theorem OrderedMap.exists_mem_entries_iff {α β : Type} [DecidableEq α] (m : OrderedMap α β)
    (k : α) : (∃ v, (k, v) ∈ m.entries) ↔ (m.get? k).isSome := by
  rw [Option.isSome_iff_exists]
  exact exists_congr fun v => (m.get?_eq_some_iff k v).symm

/-- Whether a binding is one that inference follows: as a parameter, or by an assignment or a loop
of the body. -/
def Usage.IsFollowed (stmts : List Stmt) (u : Usage) : Prop :=
  u.kind = .parameter ∨
    u.kind ∈ [.assignment, .compoundAssignment, .loopTarget] ∧
      ∃ target ∈ (Stmt.flatten stmts).flatMap Tree.assignedTargets, u.expr = some target.id

theorem Tree.isFollowed_of_isTrackedUse {stmts : List Stmt} {u : Usage}
    (h : Tree.isTrackedUse (((Stmt.flatten stmts).flatMap Tree.assignedTargets).map Expr.id) u =
      true) : u.IsFollowed stmts := by
  obtain ⟨expr, kind⟩ := u
  have hexpr : ∀ {ids : List ExprId}, expr.any ids.contains = true → ∃ id ∈ ids, expr = some id := by
    intro ids hany
    cases expr with
    | none => cases hany
    | some id => exact ⟨id, by simpa using hany, rfl⟩
  unfold Usage.IsFollowed
  cases kind with
  | parameter => exact .inl rfl
  | assignment | compoundAssignment | loopTarget =>
    obtain ⟨id, hid, rfl⟩ := hexpr h
    grind
  | _ => cases h

namespace FlowSensitive

open Typing

variable {c : Setting} {members : OrderedMap ExprId TypeId}
variable {s : Typing}

/-- Every variable in the bindings is tracked. -/
def Setting.TracksAll (c : Setting) (bindings : List Binding) : Prop :=
  ∀ symbol ∈ bindings.filterMap Binding.symbol, symbol ∈ c.body.tracked

/-- Every binding on record is one of a tracked variable. -/
def Setting.Records (c : Setting) (s : Typing) : Prop := c.TracksAll s.bindings.toList

theorem Setting.Records.transfer (h : c.Records s) (block : Block) (state : TypeState) :
    c.Records (transfer c members block state s).2 := by
  obtain ⟨bindings, hsymbols, -, -, hbindings⟩ := executes_transfer (c := c) block state s
  unfold Setting.Records Setting.TracksAll at h ⊢
  rw [hbindings, List.filterMap_append]
  intro symbol hsymbol
  rcases List.mem_append.1 hsymbol with hold | hnew
  · exact h symbol hold
  · split at hnew
    · rw [hsymbols] at hnew
      exact Setting.tracked_of_mem_symbolsOf hnew
    · cases hnew

section

variable (h : c.Records s) (g : FlowGraph) (maxIterations : Nat)

include h g

theorem Setting.Records.solve : c.Records ((analysis c members).solve g maxIterations s).2 :=
  (analysis c members).solve_state g c.Records (fun _ _ h => h)
    (fun _ block state _ h => h.transfer block state) maxIterations h

theorem Setting.Records.replay (before : OrderedMap BlockId TypeState)
    (order : List BlockId) : c.Records (replay c members g before order s).2 := by
  induction order generalizing s with
  | nil => exact h
  | cons b rest ih =>
    unfold FlowSensitive.replay
    cases g.block? b with
    | none => exact ih h
    | some block =>
      cases before.get? b with
      | none => exact ih h
      | some state => exact ih (h.transfer block state)

theorem Setting.Records.pass (f : Findings) :
    c.TracksAll (pass c g maxIterations f s).1.bindings ∧ c.Records (pass c g maxIterations f s).2 := by
  have hsolved : c.Records ((analysis c f.members).solve g maxIterations s).2 := h.solve g maxIterations
  have hstart : c.Records { ((analysis c f.members).solve g maxIterations s).2 with members := #[], recording := true } :=
    hsolved
  have hreplayed : c.Records (FlowSensitive.replay c f.members g ((analysis c f.members).solve g maxIterations s).1.before
      g.reversePostorder { ((analysis c f.members).solve g maxIterations s).2 with members := #[], recording := true }).2 :=
    hstart.replay g _ _
  have hempty : c.TracksAll [] := by rintro _ ⟨⟩
  exact ⟨hreplayed, hempty⟩

theorem Setting.Records.passes (maxIterations count : Nat) {f : Findings}
    (hf : c.TracksAll f.bindings) : c.TracksAll (passes c g maxIterations count f s).1.bindings := by
  induction count generalizing f s with
  | zero => exact hf
  | succ count ih =>
    obtain ⟨hbindings, hrecords⟩ := h.pass g maxIterations f
    exact ih hrecords hbindings

end

theorem isSome_get?_summarize (bindings : List Binding) (state : TypeState) (store : TypeStore)
    (symbol : SymbolId) : ((summarize state bindings store).1.get? symbol).isSome ↔
      (state.get? symbol).isSome ∨ symbol ∈ bindings.filterMap Binding.symbol := by
  induction bindings generalizing state store with
  | nil =>
    show (state.get? symbol).isSome ↔ _
    simp
  | cons b rest ih =>
    unfold summarize at ih ⊢
    rw [List.foldlM_cons]
    cases hb : b.symbol with
    | none =>
      simp_all
    | some x =>
      have hfirst : ((state.joinOne x b.type store).1.get? symbol).isSome ↔ (state.get? symbol).isSome ∨ symbol = x := by
        obtain ⟨t, ht⟩ : ∃ t, (state.joinOne x b.type store).1 = state.set x t := by
          unfold TypeState.joinOne
          cases state.get? x with
          | none => exact ⟨b.type, rfl⟩
          | some old => exact ⟨(TypeStore.union old b.type store).1, rfl⟩
        rw [ht]
        show ((state.types.insert x t).get? symbol).isSome ↔ (state.types.get? symbol).isSome ∨ _
        rw [OrderedMap.get?_insert]
        split <;> simp_all
      rw [List.filterMap_cons_some hb, List.mem_cons, ← or_assoc, ← hfirst]
      exact ih (state.joinOne x b.type store).1 (state.joinOne x b.type store).2

theorem infer_symbolTypes (c : Setting) (g : FlowGraph) (count maxIterations : Nat) (s : Typing) :
    (infer c g count maxIterations s).1.symbolTypes =
      (summarize c.initial (passes c g maxIterations (max count 1) { members := c.known.members } s).1.bindings
        (passes c g maxIterations (max count 1) { members := c.known.members } s).2.table.store).1.types.entries :=
  rfl

/-- Along control flow, a variable that is not tracked gets a type if and only if it is a declared
parameter. -/
theorem typed_iff_of_not_tracked (c : Setting) (g : FlowGraph) (count maxIterations : Nat) (hs : s.bindings = #[])
    {symbol : SymbolId} (hsymbol : symbol ∉ c.body.tracked) :
    (∃ t, (symbol, t) ∈ (infer c g count maxIterations s).1.symbolTypes) ↔ symbol ∈ c.body.parameters.map Prod.fst := by
  have htracks : c.TracksAll (passes c g maxIterations (max count 1) { members := c.known.members } s).1.bindings := by
    have hrecords : c.Records s := by
      unfold Setting.Records
      rw [hs]
      rintro _ ⟨⟩
    exact hrecords.passes g maxIterations (max count 1) (by rintro _ ⟨⟩)
  rw [infer_symbolTypes, OrderedMap.exists_mem_entries_iff]
  refine (isSome_get?_summarize _ _ _ symbol).trans ?_
  rw [or_iff_left fun hbound => hsymbol (htracks symbol hbound)]
  show (OrderedMap.get? (.insertAll _ _) symbol).isSome ↔ _
  rw [OrderedMap.isSome_get?_insertAll, OrderedMap.get?_empty]
  simp

end FlowSensitive

/-- Propagation gives types to tracked variables only. Inference along control flow gives types to
those that are not tracked if and only if they are declared parameters. Every binding of a
tracked variable is one that inference follows, so one that is also bound in another way is not
tracked. -/
theorem typed_untracked_iff (tree : Tree) (known : Knowledge) (name : String) (stmts : List Stmt) (candidates : List SymbolId)
    (parameters : List (SymbolId × TypeId)) (table : Table) (g : FlowGraph) (count maxIterations : Nat) :
    let body : Body := { name, stmts, tracked := tree.trackedSymbols candidates stmts, parameters }
    let propagated := (Propagation.infer (.ofBody tree known body) maxIterations { table }).1
    let flowing := (FlowSensitive.infer { tree, known, body } g count maxIterations { table }).1
    (∀ symbol t, (symbol, t) ∈ propagated.symbolTypes → symbol ∈ body.tracked) ∧
    (∀ symbol, ((∃ t, (symbol, t) ∈ flowing.symbolTypes) ∧ symbol ∉ body.tracked) ↔
      symbol ∈ parameters.map Prod.fst ∧ symbol ∉ body.tracked) ∧
    ∀ symbol ∈ body.tracked, ∀ u ∈ (tree.symbol symbol).bindings, u.IsFollowed stmts := by
  intro body propagated flowing
  refine ⟨fun symbol t ht => ?_, fun symbol => ?_, fun symbol hsymbol u hu => ?_⟩
  · have htracked : body.tracked.contains symbol = true := (List.mem_filter.1 ht).2
    simpa using htracked
  · exact and_congr_left fun hsymbol => FlowSensitive.typed_iff_of_not_tracked _ g count maxIterations rfl hsymbol
  · have htracked := (List.mem_filter.1 hsymbol).2
    unfold Tree.isTracked at htracked
    simp only [Bool.and_eq_true, List.all_eq_true] at htracked
    exact Tree.isFollowed_of_isTrackedUse (htracked.2 u hu)

/-- The first function of a module and its control flow graph. -/
def Tree.firstFunction? (t : Tree) (parameters : List (SymbolId × TypeId)) : Option (Body × FlowGraph) :=
  match t.functionDefs with
  | .functionDef _ header stmts :: _ =>
    (FlowGraph.ofBody stmts).toOption.map fun g => (t.functionBody header stmts parameters, g)
  | _ => none

/-- A function whose parameter is bound again by a `with`. -/
def reboundParameter : Source.Module where
  path := "m"
  body := [.functionDef { name := "f", parameters := [{ name := "p" }] }
    [.withStmt [{ context := .string "c", target := some "p" }] [.passStmt]]]

/-- The parameter is not tracked. It gets a type along control flow, but none by propagation. -/
theorem typed_untracked_reboundParameter :
    ∃ body g, reboundParameter.bind.firstFunction? [(⟨1⟩, ⟨1⟩)] = some (body, g) ∧ body.tracked = [] ∧
      (FlowSensitive.infer { tree := reboundParameter.bind, known := {}, body } g 2 10
        { table := Table.create {} {} {} }).1.symbolTypes = [(⟨1⟩, ⟨1⟩)] ∧
      (Propagation.infer (.ofBody reboundParameter.bind {} body) 10
        { table := Table.create {} {} {} }).1.symbolTypes = [] := by
  have hall : (reboundParameter.bind.firstFunction? [(⟨1⟩, ⟨1⟩)]).map (fun (body, g) =>
      (body.tracked,
        (FlowSensitive.infer { tree := reboundParameter.bind, known := {}, body } g 2 10
          { table := Table.create {} {} {} }).1.symbolTypes,
        (Propagation.infer (.ofBody reboundParameter.bind {} body) 10
          { table := Table.create {} {} {} }).1.symbolTypes)) = some ([], [(⟨1⟩, ⟨1⟩)], []) := by
    decide +kernel
  obtain ⟨⟨body, g⟩, hbody, hresults⟩ := Option.map_eq_some_iff.1 hall
  simp only [Prod.mk.injEq] at hresults
  exact ⟨body, g, hbody, hresults⟩

end PythonTypes
