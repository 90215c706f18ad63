import PythonTypes.Proofs.Inference.Declarations
import PythonTypes.Proofs.Inference.Dispatch
import PythonTypes.Proofs.Inference.Tracking

/-!
# Inferring modules one after the other

Inference leaves a table behind in which nothing is being looked up and all types that it gave are
known, whatever the module (`AtRest.inferModule`). So modules can be inferred one after the other,
between any other requests to the table, and inference fails for a module without a name only. No
body gives a type to a symbol that is bound by nothing but imports and definitions, so in the end it
has the type that it was declared with (`inferModule_fails_iff_unnamed`).
-/

set_option autoImplicit false

namespace PythonTypes

open Table

variable {t t' : Table}

namespace Knowledge

variable {k : Knowledge}

theorem KnownIn.proceeds (h : k.KnownIn t) (ht : t.AtRest) (hproceeds : t.Proceeds True t') : k.KnownIn t' :=
  ⟨fun symbol x hx => ht.known hproceeds (h.symbolTypes symbol x hx), fun e x hx => ht.known hproceeds (h.members e x hx)⟩

theorem KnownIn.merge (h : k.KnownIn t) {types : BodyTypes} (hsymbols : ∀ p ∈ types.symbolTypes, t.store.Known p.2)
    (hmembers : ∀ p ∈ types.members, t.store.Known p.2) : (k.merge types).KnownIn t :=
  ⟨fun symbol x hx => (OrderedMap.mem_of_get?_insertAll hx).elim (h.symbolTypes symbol x) (hsymbols (symbol, x)),
    fun e x hx => (OrderedMap.mem_of_get?_insertAll hx).elim (h.members e x) (hmembers (e, x))⟩

theorem KnownIn.ready {s : Typing} (h : k.KnownIn s.table) (hs : s.table.AtRest) : Typing.Ready k.environment s :=
  ⟨hs, known_symbolType hs h.symbolTypes, h.members⟩

end Knowledge

namespace Inference

/-- The final type of an expression. -/
def finalType (tree : Tree) (known : Knowledge) (e : Expr) : TypingM TypeId :=
  match known.exprTypes.get? e.id with
  | some t => pure t
  | none => Typing.typeOf tree known.environment e

/-- The final member of an expression. -/
def finalMember (tree : Tree) (known : Knowledge) (e : Expr) : TypingM (Option TypeId) :=
  if e.isQualified then
    match known.members.get? e.id with
    | some member => pure (some member)
    | none => Typing.findMember tree known.environment e
  else pure none

theorem finalTypes_eq (tree : Tree) (known : Knowledge) (e : Expr) : finalTypes tree known e = (do
    let t ← finalType tree known e
    let member ← finalMember tree known e
    return (t, member)) := by
  grind [finalTypes, finalType, finalMember]

end Inference

/-! ## Bodies -/

/-- The types that are inferred for a body are known. -/
def BodyTypes.KnownIn (types : BodyTypes) (t : Table) : Prop :=
  (∀ p ∈ types.symbolTypes, t.store.Known p.2) ∧ ∀ p ∈ types.members, t.store.Known p.2

theorem FlowSensitive.obtains_infer (c : Setting) {g : FlowGraph} (hg : FlowGraph.ofBody c.body.stmts = .ok g)
    (count maxIterations : Nat) (ht : t.AtRest) (hparameters : ∀ p ∈ c.body.parameters, t.store.Known p.2)
    (hknown : c.known.KnownIn t) :
    t.Obtains (Inference.withTyping (infer c g count maxIterations)) fun types t' => types.KnownIn t' := by
  have hlinked := FlowGraph.linked_ofBody hg
  have hunderway := Underway.start c ht hparameters hknown.symbolTypes hknown.members
  have hmoves := hunderway.moves_passes hlinked maxIterations (max count 1 - 1)
  have hstart := hunderway.afterPasses hlinked maxIterations (max count 1 - 1)
  obtain ⟨hpass, hmoves1⟩ := hstart.afterPass hlinked maxIterations
  obtain ⟨hmoves2, hsummary⟩ := hstart.leads_summarize hlinked maxIterations
  obtain ⟨htypes, hresult⟩ := infer_apply c g count maxIterations { table := t }
  have hmembers : (infer c g count maxIterations { table := t }).1.members =
      (passes c g maxIterations (max count 1) { members := c.known.members } { table := t }).1.found.entries := rfl
  rw [passes_eq_pass] at hmembers
  have hend : (Inference.withTyping (infer c g count maxIterations) t).2 =
    (infer c g count maxIterations { table := t }).2.table := rfl
  have hatRest := hmoves.atRest ht
  refine ⟨?_, ?_, ?_⟩ <;> rw [hend, hresult]
  · exact ((hmoves.trans ht.toSound hmoves1).trans ht.toSound hmoves2).proceeds
  · intro p hp
    rw [show (Inference.withTyping (infer c g count maxIterations) t).1.symbolTypes = _ from htypes] at hp
    exact hsummary.known p.1 p.2 ((OrderedMap.get?_eq_some_iff _ p.1 p.2).2 hp)
  · intro p hp
    rw [show (Inference.withTyping (infer c g count maxIterations) t).1.members = _ from hmembers] at hp
    exact hmoves2.known (hmoves1.atRest hatRest).toSound (hpass.found p.1 p.2 ((OrderedMap.get?_eq_some_iff _ p.1 p.2).2 hp))

namespace Propagation

variable (c : Setting) (maxIterations : Nat)

theorem infer_apply (typing : Typing) {s : State}
    (hs : (phases c maxIterations (start c typing)).2 = s) :
    (infer c maxIterations typing).1.symbolTypes =
    s.types.entries.filter (fun (symbol, _) => c.body.tracked.contains symbol) ∧
      (infer c maxIterations typing).1.members = nodeMembers c s ∧
      (infer c maxIterations typing).2.table = (Typing.typeAll c.tree (environment c s)
        ((Stmt.flatten c.body.stmts).flatMap Stmt.expressions) { s.typing with recording := true }).2.table := by
  subst hs
  exact ⟨rfl, rfl, rfl⟩

theorem Consistent.start {c : Setting} (ht : t.AtRest) (hparameters : ∀ p ∈ c.body.parameters, t.store.Known p.2)
    (hknown : c.known.KnownIn t) : Consistent c (Propagation.start c { table := t }) := by
  refine ⟨ht, fun symbol x hx => ?_, hknown.members, Knowledge.known_symbolType ht hknown.symbolTypes, hknown.members⟩
  exact (OrderedMap.mem_of_get?_insertAll hx).elim (fun hx => (nomatch hx)) (hparameters (symbol, x))

theorem Consistent.phases_reaches {c : Setting} {s : State} (h : Consistent c s) (maxIterations : Nat) :
    s.typing.Reaches (phases c maxIterations s).2.typing ∧ Consistent c (phases c maxIterations s).2 := by
  obtain ⟨hgated, hready⟩ := h.run_reaches true (limit c maxIterations) 0 c.graph.indices
  obtain ⟨hall, hdone⟩ := hready.run_reaches false (limit c maxIterations) 0 c.graph.indices
  exact ⟨hgated.trans h.atRest.toSound hall, hdone⟩

theorem obtains_infer (ht : t.AtRest)
    (hparameters : ∀ p ∈ c.body.parameters, t.store.Known p.2) (hknown : c.known.KnownIn t) :
    t.Obtains (Inference.withTyping (infer c maxIterations)) fun types t' => types.KnownIn t' := by
  obtain ⟨hreaches, hdone⟩ := (Consistent.start ht hparameters hknown).phases_reaches maxIterations
  generalize hs : (phases c maxIterations (start c { table := t })).2 = s at hreaches hdone
  obtain ⟨hsymbols, hmembers, hend⟩ := infer_apply c maxIterations { table := t } hs
  have hready : Typing.Ready (environment c s) { s.typing with recording := true } := ⟨hdone.ready.atRest, hdone.ready.env⟩
  have hmoves := (hready.leads_typeEach c.tree ((Stmt.flatten c.body.stmts).flatMap Stmt.expressions)).reaches.moves
  have hlater := fun x => hmoves.known hdone.atRest.toSound (x := x)
  rw [Typing.typeAll_eq] at hend
  refine ⟨?_, fun p hp => ?_, fun p hp => ?_⟩ <;> rw [show (Inference.withTyping (infer c maxIterations) t).2 = _ from hend]
  · exact (hreaches.moves.trans ht.toSound hmoves).proceeds
  · rw [show (Inference.withTyping (infer c maxIterations) t).1.symbolTypes = _ from hsymbols] at hp
    exact hlater _ (hdone.types p.1 p.2 ((OrderedMap.get?_eq_some_iff _ p.1 p.2).2 (List.mem_filter.1 hp).1))
  · rw [show (Inference.withTyping (infer c maxIterations) t).1.members = _ from hmembers] at hp
    obtain ⟨n, -, hn⟩ := List.mem_filterMap.1 hp
    cases hkind : n.kind with
    | assignment symbol source => simp [hkind] at hn
    | memberAccess qualified =>
      simp only [hkind] at hn
      obtain ⟨x, hx, rfl⟩ := Option.map_eq_some_iff.1 hn
      exact hlater _ (hdone.members _ x hx)

end Propagation

namespace Table.AtRest

open Inference

variable {known : Knowledge}

theorem obtains_inferBody (ht : t.AtRest) (tree : Tree) (body : Body) (hparameters : ∀ p ∈ body.parameters, t.store.Known p.2)
    (hknown : known.KnownIn t) (stats : InferenceStats) :
    t.Obtains (inferBody tree body known stats) fun r t' => r.1.KnownIn t' := by
  have hmerge : ∀ (types : BodyTypes) (t' : Table), t.Proceeds True t' → types.KnownIn t' → (known.merge types).KnownIn t' :=
    fun types t' hproceeds htypes => (hknown.proceeds ht hproceeds).merge htypes.1 htypes.2
  unfold inferBody
  refine .get_bind ?_
  split
  · refine (Propagation.obtains_infer (.ofBody tree known body) _ ht hparameters hknown).bind
      fun types t' hproceeds htypes => ?_
    exact .pure (hmerge types t' hproceeds htypes)
  · cases hgraph : FlowGraph.ofBody body.stmts with
    | error e => exact .pure hknown
    | ok g =>
      refine (FlowSensitive.obtains_infer { tree, known, body } hgraph _ _ ht hparameters hknown).bind ?_
      exact fun types t' hproceeds htypes => .pure (hmerge types t' hproceeds htypes)

/-! ## Functions -/

theorem obtains_instanceOfClass (ht : t.AtRest) {x : TypeId} (hx : t.store.Known x) :
    t.Obtains (instanceOfClass x) fun y t' => t'.store.Known y := by
  refine (ht.obtains_resolved hx).bind fun u t1 h1 hu => .get_bind ?_
  have ht1 := ht.proceeds h1
  split
  · exact .of_computes (ht1.computes_instanceOf hu.1)
  · exact .pure ht1.store.unknown_plain.1

theorem obtains_parameterTypes (ht : t.AtRest) (tree : Tree) (hknown : known.KnownIn t) (header : FunctionHeader)
    (owner : Option SymbolId) :
    t.Obtains (parameterTypes tree known header owner) fun types t' => ∀ p ∈ types,
    t'.store.Known p.2 := by
  refine ht.obtains_mapM Prod.snd _ fun (p, index) _ t1 h1 => ?_
  have ht1 := ht.proceeds h1
  have hknown1 := hknown.proceeds ht h1
  have hparameter : t1.Obtains (parameterType tree known header owner index p) fun x t' => t'.store.Known x := by
    have hunknown := Obtains.pure (P := fun x t' => t'.store.Known x) ht1.store.unknown_plain.1
    unfold parameterType
    split
    · rename_i hint _
      have htyped : t1.Obtains (typeOutside tree known hint) fun x t' => t'.store.Known x :=
        .of_leads ((hknown1.ready (s := { table := t1 }) ht1).leads_typeOf tree hint)
      exact htyped.bind fun x t2 h2 hx => (ht1.proceeds h2).obtains_instanceOfClass hx
    · grind [Knowledge.known_symbolType, Knowledge.KnownIn.symbolTypes, Obtains.pure, obtains_instanceOfClass]
    · exact hunknown
  exact hparameter.bind fun x t2 _ hx => .pure hx

theorem obtains_inferFunctions (ht : t.AtRest) (tree : Tree) (defs : List Stmt) (hknown : known.KnownIn t)
    (stats : InferenceStats) : t.Obtains (inferFunctions tree defs known stats) fun r t' => r.1.KnownIn t' := by
  induction defs generalizing t known stats with
  | nil => exact .pure hknown
  | cons s rest ih =>
    cases s with
    | functionDef id header body =>
      refine (ht.obtains_parameterTypes tree hknown header _).bind fun parameters t1 h1 hparameters => ?_
      have ht1 := ht.proceeds h1
      refine (ht1.obtains_inferBody tree (tree.functionBody header body parameters) hparameters
        (hknown.proceeds ht h1) _).bind ?_
      exact fun r t2 h2 hr => ih (ht1.proceeds h2) hr r.2
    | _ => exact ih ht hknown stats

/-! ## Modules -/

theorem leads_finalTypes {s : Typing} (hs : s.table.AtRest) (tree : Tree) (hknown : known.KnownIn s.table)
    (e : Expr) : Typing.Leads s (finalTypes tree known e) fun _ _ => True := by
  rw [finalTypes_eq]
  have hready := hknown.ready hs
  have htype : Typing.Leads s (finalType tree known e) fun _ _ => True := by
    unfold finalType
    split
    · exact .pure hs.toSound trivial
    · exact ⟨(hready.leads_typeOf tree e).reaches, trivial⟩
  refine htype.bind hs.toSound fun x s1 h1 _ => ?_
  have hready1 := hready.reaches h1
  have hmember : Typing.Leads s1 (finalMember tree known e) fun _ _ => True := by
    unfold finalMember
    split
    · split
      · exact .pure hready1.atRest.toSound trivial
      · exact ⟨(hready1.leads_findMember tree e).reaches, trivial⟩
    · exact .pure hready1.atRest.toSound trivial
  exact hmember.bind hready1.atRest.toSound fun m s2 h2 _ => .pure (h2.moves.atRest hready1.atRest).toSound trivial

theorem leads_allFinalTypes {s : Typing} (hs : s.table.AtRest) (tree : Tree) (hknown : known.KnownIn s.table)
    (es : List Expr) : Typing.Leads s (es.mapM (finalTypes tree known)) fun _ _ => True := by
  induction es generalizing s with
  | nil =>
    rw [List.mapM_nil]
    exact .pure hs.toSound trivial
  | cons e rest ih =>
    rw [List.mapM_cons]
    refine (leads_finalTypes hs tree hknown e).bind hs.toSound fun x s1 h1 _ => ?_
    have hs1 := h1.moves.atRest hs
    grind [Typing.Leads.bind, Knowledge.KnownIn.proceeds, Moves.proceeds, Typing.Reaches.moves,
      toSound, Typing.Leads.pure, Moves.atRest]

theorem obtains_inferBodies (ht : t.AtRest) (tree : Tree) (hknown : known.KnownIn t) :
    t.Obtains (inferBodies tree known) fun _ _ => True := by
  unfold inferBodies
  refine (ht.obtains_inferBody tree tree.moduleBody (by simp [Tree.moduleBody]) hknown _).bind fun r t1 h1 hr => ?_
  have ht1 := ht.proceeds h1
  refine (ht1.obtains_inferFunctions tree tree.functionDefs hr r.2).bind fun r t2 h2 hr => ?_
  exact (Obtains.of_leads (leads_allFinalTypes (s := { table := t2 })
    (ht1.proceeds h2) tree hr _)).bind fun _ _ _ _ => .pure trivial

theorem inferModule_isOk (ht : t.AtRest) {tree : Tree} (hpath : tree.path ≠ "") :
    ∃ types, (Table.inferModule tree t).1 = .ok types := by
  obtain ⟨-, known, hknown, -, -⟩ := (ht.addModule tree.descriptor).obtains_declarations tree
  rw [inferModule_of_known hpath (Prod.ext hknown rfl)]
  exact ⟨_, rfl⟩

theorem inferModule (ht : t.AtRest) (tree : Tree) : (Table.inferModule tree t).2.AtRest := by
  by_cases hpath : tree.path = ""
  · rw [inferModule_of_unnamed hpath]
    exact ht
  · have ht1 := ht.addModule tree.descriptor
    obtain ⟨hproceeds, known, hok, hknown, -⟩ := ht1.obtains_declarations tree
    rw [inferModule_of_known hpath (Prod.ext hok rfl)]
    have ht2 := ht1.proceeds hproceeds
    exact ht2.proceeds (ht2.obtains_inferBodies tree hknown).proceeds

end Table.AtRest

/-! ## Symbols that are only declared -/

theorem map_mapM_apply {σ α β γ : Type} {f : α → StateM σ β} {g : β → γ} {h : α → γ}
    (hf : ∀ a s, g (f a s).1 = h a) (as : List α) (s : σ) : (as.mapM f s).1.map g = as.map h := by
  induction as generalizing s with
  | nil => rw [List.mapM_nil]; rfl
  | cons a rest ih =>
    rw [List.mapM_cons]
    exact congrArg₂ List.cons (hf a s) (ih (f a s).2)

theorem Inference.map_fst_parameterTypes (tree : Tree) (known : Knowledge) (header : FunctionHeader)
    (owner : Option SymbolId) (t : Table) :
    (parameterTypes tree known header owner t).1.map Prod.fst = header.parameters.map Parameter.symbol := by
  unfold parameterTypes
  rw [map_mapM_apply (h := Parameter.symbol ∘ Prod.fst), ← List.map_map, List.zipIdx_map_fst]
  exact fun _ _ => rfl

/-- The symbols that a function definition declares as parameters. -/
def Stmt.parameterSymbols : Stmt → List SymbolId
  | functionDef _ header _ => header.parameters.map Parameter.symbol
  | _ => []

/-- Whether a symbol is bound by imports and definitions, and by nothing else. -/
def Tree.onlyDeclares (tree : Tree) (symbol : SymbolId) : Bool :=
  Inference.isDeclared tree symbol && !(tree.symbol symbol).bindings.isEmpty &&
    tree.functionDefs.all fun f => !f.parameterSymbols.contains symbol

namespace Tree

variable {tree : Tree} {symbol : SymbolId} (h : tree.onlyDeclares symbol = true)

include h

theorem isDeclared_of_onlyDeclares : Inference.isDeclared tree symbol = true := by
  simp_all [onlyDeclares]

theorem bindings_ne_nil : (tree.symbol symbol).bindings ≠ [] := by
  simp_all [onlyDeclares]

theorem not_parameter {f : Stmt} (hf : f ∈ tree.functionDefs) : symbol ∉ f.parameterSymbols := by
  simp_all [onlyDeclares]

theorem not_tracked (candidates : List SymbolId) (body : List Stmt) : symbol ∉ tree.trackedSymbols candidates body := by
  intro htracked
  have htracked := (List.mem_filter.1 htracked).2
  obtain ⟨u, hu⟩ := List.exists_mem_of_ne_nil _ (bindings_ne_nil h)
  have hdeclares : Inference.isDeclaration u.kind = true := List.all_eq_true.1 (isDeclared_of_onlyDeclares h) u hu
  simp only [isTracked, Bool.and_eq_true, List.all_eq_true] at htracked
  have huse := htracked.2 u hu
  cases hkind : u.kind <;> simp_all [isTrackedUse, Inference.isDeclaration]

/-- The symbol is one of the module's. -/
theorem getElem?_symbolIds : tree.symbolIds[symbol.index]? = some symbol := by
  have hlt : symbol.index < tree.symbols.size := by
    by_contra hnot
    refine bindings_ne_nil h ?_
    rw [Tree.symbol, Array.getD_eq_getD_getElem?, Array.getElem?_eq_none (by omega)]
    rfl
  simp [symbolIds, hlt]

theorem get?_inferBody (body : Body) {candidates : List SymbolId}
    (hbody : body.tracked = tree.trackedSymbols candidates body.stmts)
    (hparameters : symbol ∉ body.parameters.map Prod.fst) (known : Knowledge) (stats : InferenceStats) (t : Table) :
    (Inference.inferBody tree body known stats t).1.1.symbolTypes.get? symbol = known.symbolTypes.get? symbol := by
  have htracked : symbol ∉ body.tracked := hbody ▸ not_tracked h candidates body.stmts
  unfold Inference.inferBody
  rw [get_bind_apply]
  split
  · refine OrderedMap.get?_insertAll_of_absent fun x hx => htracked ?_
    have hcontains : body.tracked.contains symbol = true := (List.mem_filter.1 hx).2
    simpa using hcontains
  · cases FlowGraph.ofBody body.stmts with
    | error e => rfl
    | ok g =>
      refine OrderedMap.get?_insertAll_of_absent fun x hx => hparameters ?_
      exact (FlowSensitive.typed_iff_of_not_tracked { tree, known, body } g _ _ (s := { table := t }) rfl htracked).1 ⟨x, hx⟩

theorem get?_inferFunctions (defs : List Stmt) (hdefs : defs ⊆ tree.functionDefs)
    (known : Knowledge) (stats : InferenceStats) (t : Table) :
    (Inference.inferFunctions tree defs known stats t).1.1.symbolTypes.get? symbol = known.symbolTypes.get? symbol := by
  induction defs generalizing known stats t with
  | nil => rfl
  | cons s rest ih =>
    have hrest : rest ⊆ tree.functionDefs := fun s hs => hdefs (List.mem_cons_of_mem _ hs)
    cases s with
    | functionDef id header body =>
      refine (ih hrest _ _ _).trans (get?_inferBody h (tree.functionBody header body _) rfl (fun hmem => ?_) _ _ _)
      have hfst := Inference.map_fst_parameterTypes tree known header (Inference.ownerOf tree.statements id) t
      exact not_parameter h (hdefs List.mem_cons_self) (hfst ▸ hmem : symbol ∈ header.parameters.map Parameter.symbol)
    | _ => exact ih hrest known stats t

/-- In the end the symbol has the type that was known of it before any body was inferred. -/
theorem getElem?_inferBodies (known : Knowledge) (t : Table) :
    (inferBodies tree known t).1.symbolTypes[symbol.index]? = some (known.symbolType symbol) := by
  let r := Inference.inferBody tree tree.moduleBody known {} t
  have hsymbols : (inferBodies tree known t).1.symbolTypes =
      tree.symbolIds.map (Inference.inferFunctions tree tree.functionDefs r.1.1 r.1.2 r.2).1.1.symbolType := rfl
  rw [hsymbols, List.getElem?_map, getElem?_symbolIds h, Option.map_some]
  unfold Knowledge.symbolType
  rw [get?_inferFunctions h _ (List.Subset.refl _), get?_inferBody h tree.moduleBody rfl (by simp [moduleBody])]

end Tree

/-! ## Requests -/

/-- What a table is asked for: an action, or to infer a module. -/
inductive TableRequest where
  | action (a : TableAction)
  | infer (tree : Tree)

namespace TableRequest

/-- The table once a request has been served. -/
def serve : TableRequest → Table → Table
  | action a, t => a.perform t
  | infer tree, t => (Table.inferModule tree t).2

/-- Whether the types that a request names exist. -/
def Valid (t : Table) : TableRequest → Prop
  | action a => a.Valid t
  | infer _ => True

instance (t : Table) : (r : TableRequest) → Decidable (r.Valid t)
  | action a => inferInstanceAs (Decidable (a.Valid t))
  | infer _ => inferInstanceAs (Decidable True)

end TableRequest

namespace Table

/-- The table once requests have been served one after the other. -/
def serveAll (t : Table) : List TableRequest → Table
  | [] => t
  | r :: rest => (r.serve t).serveAll rest

/-- Whether each of several requests is valid by then. -/
def AllValid (t : Table) : List TableRequest → Prop
  | [] => True
  | r :: rest => r.Valid t ∧ (r.serve t).AllValid rest

instance (t : Table) : (rs : List TableRequest) → Decidable (t.AllValid rs)
  | [] => inferInstanceAs (Decidable True)
  | r :: rest =>
    have : Decidable ((r.serve t).AllValid rest) := instDecidableAllValid (r.serve t) rest
    inferInstanceAs (Decidable (r.Valid t ∧ (r.serve t).AllValid rest))

theorem AtRest.serveAll (ht : t.AtRest) {rs : List TableRequest} (hrs : t.AllValid rs) : (t.serveAll rs).AtRest := by
  induction rs generalizing t with
  | nil => exact ht
  | cons r rest ih =>
    refine ih ?_ hrs.2
    cases r with
    | action a => exact ht.perform hrs.1
    | infer tree => exact ht.inferModule tree

/-- A class in a function in a class in an exception handler. -/
def classInHandler : Source.Module where
  path := "m"
  body := [.tryStmt [.passStmt] [
    .mk none none [.classDef { name := "C", bases := [.read "A"] }
      [.functionDef { name := "f" } [.classDef { name := "D" } []]]]] [] []]

/-- A module is inferred, types are looked up and united, and another module takes the place of the
first. -/
def requestsBefore : List TableRequest := [
  .infer { path := "m", body := [.importFrom (some "p") 0 [⟨"x", none⟩], .assign [.target "C"] (.read "x")] : Source.Module }.bind,
  .action (.getType "p.A"), .action (.onStore (.unionOf [⟨1⟩, ⟨2⟩])), .infer classInHandler.bind]

end Table

end PythonTypes
