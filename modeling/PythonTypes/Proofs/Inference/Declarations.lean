import PythonTypes.Inference.File
import PythonTypes.Proofs.Inference.Summary

/-!
# What a module declares

Before its bodies are inferred, a module is asked for the types of its imports, its definitions and
the builtin names that it uses. None of these questions fails: a definition has the type that its
path leads to, and if that is unknown, the type of its descriptor, which is a function or a class
(`AtRest.obtains_definitionType`). So all declarations of a module get known types, and a symbol
that is only declared gets a type that includes them (`AtRest.obtains_declarations`).
-/

set_option autoImplicit false

namespace PythonTypes

/-- The type of a definition that its path does not lead to. -/
def Inference.convertDefinition (tree : Tree) (d : Descriptor) : TableM (Except ConversionError TypeId) := do
  match ← Table.convert tree.path .project d with
  | .error e => return .error e
  | .ok x => return .ok (← Table.resolved x)

namespace Table

open TypeStore

namespace Obtains

variable {α : Type} {t : Table} {P : α → Table → Prop}

theorem of_computes {action : TableM TypeId} (h : t.Computes action) : t.Obtains action fun x t' => t'.store.Known x :=
  of_asks h.asks

theorem of_leads {action : TypingM α} (h : Typing.Leads { table := t } action P) :
    t.Obtains (Inference.withTyping action) P :=
  ⟨h.reaches.moves.proceeds, h.answer⟩

end Obtains

namespace AtRest

variable {t t' t1 t2 : Table}
variable {d : Descriptor}

section

variable (ht : t.AtRest) (tree : Tree) (path : String)

include ht

theorem obtains_mapM {ι α : Type} {f : ι → TableM α} (type : α → TypeId) (xs : List ι)
    (hf : ∀ x ∈ xs, ∀ t' : Table, t.Proceeds True t' → t'.Obtains (f x) fun a t'' => t''.store.Known (type a)) :
    t.Obtains (xs.mapM f) fun as t' => ∀ a ∈ as, t'.store.Known (type a) := by
  obtain ⟨hproceeds, hall⟩ := Obtains.mapM (P := fun _ a t' => t'.store.Known (type a)) xs
    (fun _ _ _ _ h1 h2 hknown => (ht.proceeds h1).known h2 hknown) hf
  exact ⟨hproceeds, fun a ha => ((exists_of_forall₂ hall).2 a ha).elim fun _ hx => hx.2⟩

/-! ## Definitions -/

theorem obtains_getType : t.Obtains (Table.getType path) fun id t' => t'.store.Plain id :=
  .of_finds ((Lookups.sound_ofTable.getType path ht.toSound).imp ht.toSound fun _ _ _ _ h => h.1) _

theorem obtains_convert (modulePath : String) (origin : Origin) (hd : d.isDefinition = true) :
    t.Obtains (Table.convert modulePath origin d) fun r t' => ∃ x, r = .ok x ∧ t'.store.Final x ∧
    t'.store.isUnknown x = false := by
  exact .of_ensures (onSpace_of_adds (Descriptor.adds_definition { modulePath, origin } hd (U := d.paths.toFinset)
    (fun _ hpath => List.mem_toFinset.2 hpath) ht.spaceSound)) _

theorem obtains_convertDefinition (hd : d.isDefinition = true) :
    t.Obtains (Inference.convertDefinition tree d) fun r t' =>
      ∃ x, r = .ok x ∧ t'.store.Known x ∧ t'.store.isUnknown x = false := by
  refine (ht.obtains_convert tree.path .project hd).bind fun r t1 h1 hr => ?_
  obtain ⟨x, rfl, hfinal, hunknown⟩ := hr
  have ht1 := ht.proceeds h1
  refine (ht1.obtains_resolved hfinal.1.1).bind fun u t2 h2 hu => .pure ⟨u, rfl, hu.1.1, ?_⟩
  have hretains := ht1.retains h2
  rw [hu.2.eq_of_final (hfinal.retains hretains), hretains.isUnknown_form hfinal.1.1]
  exact hunknown

theorem obtains_definitionType (symbol : SymbolId) (hd : d.isDefinition = true) :
    t.Obtains (Inference.definitionType tree symbol d) fun r t' =>
      ∃ x, r = .ok x ∧ t'.store.Known x ∧ t'.store.isUnknown x = false := by
  unfold Inference.definitionType
  split
  · exact ht.obtains_convertDefinition tree hd
  · rename_i path _
    refine (ht.obtains_getType path).bind fun x t1 h1 hx => .get_bind ?_
    split
    · exact (ht.proceeds h1).obtains_convertDefinition tree hd
    · rename_i hunknown
      exact .pure ⟨x, rfl, hx.1, by simpa using hunknown⟩

/-! ## Imports -/

theorem obtains_importModule : t.Obtains (Table.importModule path) fun x t' => t'.store.Known x :=
  .of_finds (Lookups.sound_ofTable.importModule ht.toSound path) _

theorem obtains_importedModule (n : ImportedName) : t.Obtains (Inference.importedModule n) fun x t' => t'.store.Known x := by
  refine (ht.obtains_importModule n.name).bind fun x t1 h1 hx => ?_
  cases n.rename with
  | some _ => exact .pure hx
  | none => exact (ht.proceeds h1).obtains_importModule _

theorem obtains_importedMember (source : Option String) (level : Nat) (n : ImportedName) :
    t.Obtains (Inference.importedMember tree source level n) fun x t' => t'.store.Known x := by
  unfold Inference.importedMember
  dsimp only
  split
  · exact .of_finds (Lookups.sound_ofTable.importSibling ht.toSound _ _) _
  · exact .of_finds (Lookups.sound_ofTable.importFrom ht.toSound _ _) _

end

end AtRest

end Table

/-! ## Statements -/

/-- The symbol that a definition defines, and its descriptor. -/
def Tree.definition? (tree : Tree) : Stmt → Option (SymbolId × Descriptor)
  | .functionDef _ header _ => some (header.symbol, tree.functionDescriptor header)
  | .classDef _ header body => some (header.symbol, tree.classDescriptor header body)
  | _ => none

theorem Tree.isDefinition_of_definition? {tree : Tree} {s : Stmt} {symbol : SymbolId}
    {d : Descriptor} (h : tree.definition? s = some (symbol, d)) : d.isDefinition = true := by
  cases s <;> cases h <;> rfl

namespace Inference

variable (tree : Tree)

/-- The types that a statement binds by an import or a definition. -/
def declaredBy (tree : Tree) : Stmt → TableM (Except InferenceError (List (SymbolId × TypeId)))
  | .importStmt _ names => do
    let types ← names.mapM importedModule
    pure (.ok ((names.map ImportedName.symbol).zip types))
  | .importFrom _ source level names => do
    let types ← names.mapM (importedMember tree source level)
    pure (.ok ((names.map ImportedName.symbol).zip types))
  | .functionDef _ header _ => do
    match ← definitionType tree header.symbol (tree.functionDescriptor header) with
    | .ok t => pure (.ok [(header.symbol, t)])
    | .error e => pure (.error (.conversion "function" header.name e))
  | .classDef _ header body => do
    match ← definitionType tree header.symbol (tree.classDescriptor header body) with
    | .ok t => pure (.ok [(header.symbol, t)])
    | .error e => pure (.error (.conversion "class" header.name e))
  | _ => pure (.ok [])

theorem declaredTypes_cons (s : Stmt) (rest : List Stmt) :
    declaredTypes tree (s :: rest) = (do
      match ← declaredBy tree s with
      | .error e => return .error e
      | .ok own =>
        match ← declaredTypes tree rest with
        | .error e => return .error e
        | .ok rest => return .ok (own ++ rest)) := by
  cases s with
  | functionDef id header body | classDef id header body =>
    rw [declaredTypes, declaredBy, bind_assoc]
    refine bind_congr fun r => ?_
    cases r <;> rfl
  | _ => rfl

theorem declaredTypes_cons_apply (s : Stmt) (rest : List Stmt) (t : Table) :
    declaredTypes tree (s :: rest) t = match declaredBy tree s t with
      | (.error e, t') => (.error e, t')
      | (.ok own, t') => ((declaredTypes tree rest t').1.map (own ++ ·), (declaredTypes tree rest t').2) := by
  have hrest : ∀ own (r : Except InferenceError (List (SymbolId × TypeId)) × Table),
      (match r.1 with
        | .error e => return .error e
        | .ok rest => return .ok (own ++ rest) : TableM (Except InferenceError _)) r.2 = (r.1.map (own ++ ·), r.2) := by
    rintro own ⟨_ | _, _⟩ <;> rfl
  rw [declaredTypes_cons]
  show (match (declaredBy tree s t).1 with | .error _ => _ | .ok _ => _ : TableM (Except InferenceError _)) (declaredBy tree s t).2 = _
  rcases declaredBy tree s t with ⟨_ | own, t'⟩
  · rfl
  · exact hrest own (declaredTypes tree rest t')

theorem declaredTypes_append (xs ys : List Stmt) {t t' : Table} {ds : List (SymbolId × TypeId)}
    (h : declaredTypes tree xs t = (.ok ds, t')) :
    declaredTypes tree (xs ++ ys) t = ((declaredTypes tree ys t').1.map (ds ++ ·), (declaredTypes tree ys t').2) := by
  induction xs generalizing t ds with
  | nil =>
    obtain ⟨hds, rfl⟩ := Prod.mk.inj h
    rw [← Except.ok.inj hds]
    show declaredTypes tree ys t = _
    rcases declaredTypes tree ys t with ⟨_ | _, _⟩ <;> rfl
  | cons s rest ih =>
    rw [declaredTypes_cons_apply] at h
    rw [List.cons_append, declaredTypes_cons_apply]
    rcases hown : declaredBy tree s t with ⟨_ | own, t1⟩ <;> rw [hown] at h
    · cases h
    · obtain ⟨hds, ht'⟩ := Prod.mk.inj h
      obtain ⟨es, hes, rfl⟩ : ∃ es, (declaredTypes tree rest t1).1 = .ok es ∧ own ++ es = ds := by
        rcases hrest : (declaredTypes tree rest t1).1 with _ | es <;> rw [hrest] at hds
        · cases hds
        · exact ⟨es, rfl, Except.ok.inj hds⟩
      have hrest := ih (Prod.ext hes ht' : declaredTypes tree rest t1 = (.ok es, t'))
      dsimp only
      rw [hrest]
      rcases declaredTypes tree ys t' with ⟨_ | _, _⟩ <;> simp [Except.map]

theorem declaredBy_of_definition {tree : Tree} {s : Stmt} {symbol : SymbolId} {d : Descriptor}
    (hs : tree.definition? s = some (symbol, d)) {t t' : Table} {x : TypeId}
    (h : definitionType tree symbol d t = (.ok x, t')) :
    declaredBy tree s t = (.ok [(symbol, x)], t') := by
  have hbind : ∀ what name, (do
      match ← definitionType tree symbol d with
      | .ok t => pure (.ok [(symbol, t)])
      | .error e => pure (.error (.conversion what name e)) : TableM (Except InferenceError (List (SymbolId × TypeId)))) t =
        (.ok [(symbol, x)], t') := by
    intro what name
    show (match (definitionType tree symbol d t).1 with | .ok _ => _ | .error _ => _ : TableM (Except InferenceError _))
      (definitionType tree symbol d t).2 = _
    rw [h]
    rfl
  cases s with
  | functionDef id header body =>
    cases hs
    exact hbind "function" header.name
  | classDef id header body =>
    cases hs
    exact hbind "class" header.name
  | _ => cases hs

theorem uniteDeclared_eq (types : List (SymbolId × TypeId)) : uniteDeclared tree types =
    FlowSensitive.summarize .bottom ((types.filter fun p => isDeclared tree p.1).map fun p => ⟨⟨0⟩, some p.1, p.2⟩) := by
  unfold uniteDeclared FlowSensitive.summarize
  rw [List.foldlM_map]

end Inference

namespace Table.AtRest

open Inference

variable {t : Table}

section

variable (ht : t.AtRest) (tree : Tree)

include ht tree

theorem obtains_declaredBy (s : Stmt) :
    t.Obtains (declaredBy tree s) fun r t' => ∃ own, r = .ok own ∧ ∀ p ∈ own, t'.store.Known p.2 := by
  have hzip : ∀ (names : List ImportedName) (xs : List TypeId) (t' : Table), (∀ x ∈ xs, t'.store.Known x) →
      ∀ p ∈ (names.map ImportedName.symbol).zip xs, t'.store.Known p.2 :=
    fun names xs t' hxs p hp => hxs p.2 (List.of_mem_zip hp).2
  have hdefinition : ∀ {symbol d}, tree.definition? s = some (symbol, d) →
      t.Obtains (declaredBy tree s) fun r t' => ∃ own, r = .ok own ∧ ∀ p ∈ own, t'.store.Known p.2 := by
    intro symbol d hs
    obtain ⟨hproceeds, x, hok, hknown, -⟩ := ht.obtains_definitionType tree symbol (Tree.isDefinition_of_definition? hs)
    have hdeclared := declaredBy_of_definition hs (t := t) (x := x) (Prod.ext hok rfl)
    refine ⟨?_, ?_⟩ <;> rw [hdeclared]
    · exact hproceeds
    · exact ⟨_, rfl, by simpa using hknown⟩
  cases s with
  | importStmt id names =>
    refine (ht.obtains_mapM (fun x => x) names fun n _ t' h' => (ht.proceeds h').obtains_importedModule n).bind ?_
    exact fun xs t' _ hxs => .pure ⟨_, rfl, hzip names xs t' hxs⟩
  | importFrom id source level names =>
    refine (ht.obtains_mapM (fun x => x) names
      fun n _ t' h' => (ht.proceeds h').obtains_importedMember tree source level n).bind ?_
    exact fun xs t' _ hxs => .pure ⟨_, rfl, hzip names xs t' hxs⟩
  | functionDef id header body | classDef id header body => exact hdefinition rfl
  | _ => exact .pure ⟨[], rfl, by simp⟩

theorem obtains_declaredTypes (ss : List Stmt) :
    t.Obtains (declaredTypes tree ss) fun r t' => ∃ declared, r = .ok declared ∧ ∀ p ∈ declared, t'.store.Known p.2 := by
  induction ss generalizing t with
  | nil => exact .pure ⟨[], rfl, by simp⟩
  | cons s rest ih =>
    rw [declaredTypes_cons]
    refine (ht.obtains_declaredBy tree s).bind fun r t1 h1 hr => ?_
    obtain ⟨own, rfl, hown⟩ := hr
    have ht1 := ht.proceeds h1
    grind [Obtains.bind, Obtains.pure, known]

/-- Wherever a definition stands, it obtains a type that is not unknown, and this is what it
declares. -/
theorem exists_definitionType (before after : List Stmt) {s : Stmt} {symbol : SymbolId}
    {d : Descriptor} (hs : tree.definition? s = some (symbol, d)) :
    let there := (declaredTypes tree before t).2
    ∃ x, (definitionType tree symbol d there).1 = .ok x ∧ (definitionType tree symbol d there).2.store.isUnknown x = false ∧
      ∃ declared, (declaredTypes tree (before ++ s :: after) t).1 = .ok declared ∧ (symbol, x) ∈ declared := by
  intro there
  obtain ⟨hproceeds, ds, hds, -⟩ := ht.obtains_declaredTypes tree before
  have hthere : there.AtRest := ht.proceeds hproceeds
  obtain ⟨hproceeds', x, hok, -, hunknown⟩ := hthere.obtains_definitionType tree symbol (Tree.isDefinition_of_definition? hs)
  have hbefore : declaredTypes tree before t = (.ok ds, there) := Prod.ext hds rfl
  have hown := declaredBy_of_definition hs (t := there) (x := x) (Prod.ext hok rfl)
  obtain ⟨-, es, hes, -⟩ := (hthere.proceeds hproceeds').obtains_declaredTypes tree after
  refine ⟨x, hok, hunknown, ds ++ ([(symbol, x)] ++ es), ?_, by simp⟩
  rw [declaredTypes_append tree before (s :: after) hbefore, declaredTypes_cons_apply, hown]
  simp only [hes]
  rfl

/-! ## Declarations as a whole -/

theorem obtains_builtinTypes : t.Obtains (builtinTypes tree) fun types t' => ∀ p ∈ types, t'.store.Known p.2 := by
  refine ht.obtains_mapM Prod.snd _ fun symbol _ t1 h1 => .get_bind ?_
  have ht1 := ht.proceeds h1
  have hroot : t1.store.Known t1.root := (TypeStore.plain_of_isModule ht1.root).1
  refine (Obtains.of_asks (ht1.repeats_member hroot (tree.symbol symbol).name).asks).bind fun r t2 h2 hr => .pure ?_
  cases r with
  | none => exact (ht1.proceeds h2).store.unknown_plain.1
  | some x => exact hr.1

/-- A symbol that is only declared gets a type that includes all that it is declared as. -/
theorem obtains_uniteDeclared {types : List (SymbolId × TypeId)} (htypes : ∀ p ∈ types, t.store.Known p.2) :
    t.Obtains (onStore (uniteDeclared tree types)) fun state t' =>
      state.IncludesAll (fun symbol x => (symbol, x) ∈ types ∧ isDeclared tree symbol = true) t' := by
  have hbottom : TypeState.bottom.IncludesAll (fun _ _ => False) t := ⟨fun _ _ hx => (nomatch hx), fun _ _ hx => hx.elim⟩
  have hleads := FlowSensitive.includesAll_summarize (s := { table := t }) ht
    ((types.filter fun p => isDeclared tree p.1).map fun p => ⟨⟨0⟩, some p.1, p.2⟩) ?_ hbottom
  · rw [← uniteDeclared_eq] at hleads
    exact ⟨hleads.reaches.moves.proceeds, hleads.answer.of_imp fun symbol x hx =>
      .inr ⟨⟨⟨0⟩, some symbol, x⟩, by simp [hx], rfl, rfl⟩⟩
  · intro b hb
    obtain ⟨p, hp, rfl⟩ := List.mem_map.1 hb
    exact htypes p (List.mem_filter.1 hp).1

end

end Table.AtRest

/-- Every type that is inferred for a symbol or a member is known. -/
structure Knowledge.KnownIn (k : Knowledge) (t : Table) : Prop where
  symbolTypes : ∀ symbol x, k.symbolTypes.get? symbol = some x → t.store.Known x
  members : ∀ e x, k.members.get? e = some x → t.store.Known x

/-- The declarations of a module never fail, and get known types. What is known of a symbol that is
only declared includes the types that it is declared as. -/
theorem Table.AtRest.obtains_declarations {t : Table} (ht : t.AtRest) (tree : Tree) :
    t.Obtains (Inference.declarations tree) fun r t' => ∃ known, r = .ok known ∧ known.KnownIn t' ∧
      ∃ declared, (Inference.declaredTypes tree (tree.statements.map Prod.fst) t).1 = .ok declared ∧
        ∀ symbol x, (symbol, x) ∈ declared → Inference.isDeclared tree symbol = true →
          ∃ y, known.symbolTypes.get? symbol = some y ∧ t'.store.Includes y x := by
  unfold Inference.declarations
  obtain ⟨h1, declared, hok, hdeclared⟩ := ht.obtains_declaredTypes tree (tree.statements.map Prod.fst)
  refine Obtains.bind (P := fun r t1 => r = .ok declared ∧ ∀ p ∈ declared, t1.store.Known p.2)
    ⟨h1, hok, hdeclared⟩ fun r t1 h1 hr => ?_
  obtain ⟨rfl, hdeclared⟩ := hr
  have ht1 := ht.proceeds h1
  refine (ht1.obtains_builtinTypes tree).bind fun builtins t2 h2 hbuiltins => ?_
  have hall : ∀ p ∈ declared ++ builtins, t2.store.Known p.2 := fun p hp =>
    (List.mem_append.1 hp).elim (fun hp => ht1.known h2 (hdeclared p hp)) (hbuiltins p)
  refine ((ht1.proceeds h2).obtains_uniteDeclared tree hall).bind fun state t3 _ hstate =>
    .pure ⟨_, rfl, ⟨hstate.known, ?_⟩, declared,
    hok, fun symbol x hx hsymbol => (hstate.includes symbol x ⟨List.mem_append_left _ hx, hsymbol⟩).2⟩
  intro e x hx
  cases hx

end PythonTypes
