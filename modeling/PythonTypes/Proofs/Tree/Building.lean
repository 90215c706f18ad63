import PythonTypes.Tree.Builder
import PythonTypes.Proofs.Data.Ensures
import PythonTypes.Proofs.Data.OrderedMap
import Mathlib.Data.List.Nodup

/-!
# What a builder keeps in order

`Building` says what holds of a builder between two operations. Its names carry symbols that exist,
apart from the names that are read and still wait for `finish`; a use of a symbol that carries an
expression carries a name of that symbol; the parts of an expression come before it; and no symbol
belongs to two functions, to two open scopes, or to one of each. Each elementary step of building
keeps this order.
-/

set_option autoImplicit false

namespace PythonTypes

/-- Whether an expression is a name. -/
def Expr.isName : Expr → Bool
  | name .. => true
  | _ => false

/-- The symbols of the scope of the function that a statement defines. -/
def Stmt.locals? : Stmt → Option (List SymbolId)
  | functionDef _ header _ => some header.locals
  | _ => none

namespace Builder

variable {k : ScopeId} {name : String} {s : SymbolId} {id : ExprId} {f : Scope → Scope}

/-! ## What is looked at -/

/-- The symbol that an expression is bound to. -/
def symbolAt (b : Builder) (id : ExprId) : Option SymbolId := b.bindings.getD id.index none

/-- The uses of a symbol. -/
def usages (b : Builder) (s : SymbolId) : List Usage := (b.symbols.getD s.index default).usages

/-- The expression with the id is a name. -/
def HasName (b : Builder) (id : ExprId) : Prop := ∃ e, b.exprs[id.index]? = some e ∧ e.isName

/-- The names that are read, in order of creation. -/
def readIds (b : Builder) : List ExprId := b.reads.toList.map PendingRead.expr

/-- The symbols bound in a scope. -/
def symbolsOf (b : Builder) (k : ScopeId) : List SymbolId := (b.scope k).bindings.values

/-- The symbols of each function that is built. -/
def locals (b : Builder) : List (List SymbolId) := b.stmts.toList.filterMap Stmt.locals?

/-- The symbols of the functions that are built, and of the scopes that are open. -/
def owned (b : Builder) : List SymbolId := b.locals.flatten ++ (b.active.map b.symbolsOf).flatten

/-- Names and the uses of symbols agree, where the names `pending` have no symbol yet. -/
structure Names (b : Builder) (pending : List ExprId) : Prop where
  size_eq : b.bindings.size = b.exprs.size
  id_eq : ∀ (i : Nat) (e : Expr), b.exprs[i]? = some e → e.id = ⟨i⟩
  children : ∀ e ∈ b.exprs, ∀ c ∈ e.children, c ∈ b.exprs ∧ c.id.index < e.id.index
  bound : ∀ id s, b.symbolAt id = some s → b.HasName id ∧ s.index < b.symbols.size
  unbound : ∀ id, b.HasName id → b.symbolAt id = none → id ∈ pending
  waiting : ∀ id ∈ pending, b.HasName id ∧ b.symbolAt id = none
  nodup : pending.Nodup
  usages : ∀ s, ∀ u ∈ b.usages s, ∀ id, u.expr = some id → b.symbolAt id = some s

/-- Scopes bind symbols that exist and share none, nor do the functions that are built share any
with the scopes that are open. A name that is declared global is bound in the module. -/
structure Scopes (b : Builder) : Prop where
  module : moduleScope ∈ b.active
  kind : (b.scope moduleScope).kind = .ofModule
  opened : ∀ k ∈ b.active, k.index < b.scopes.size
  nodup : b.active.Nodup
  symbols : ∀ k, ∀ s ∈ b.symbolsOf k, s.index < b.symbols.size
  builtins : ∀ name s, b.builtins.get? name = some s → s.index < b.symbols.size
  locals : ∀ l ∈ b.locals, ∀ s ∈ l, s.index < b.symbols.size
  owned : b.owned.Nodup
  apart : ∀ k k', ∀ s ∈ b.symbolsOf k, s ∈ b.symbolsOf k' → k = k'
  globals : ∀ k, ∀ name ∈ (b.scope k).globals, (b.scope moduleScope).bindings.contains name

/-- What holds between two operations. -/
structure Building (b : Builder) : Prop where
  names : b.Names b.readIds
  scopes : b.Scopes

variable {b b' : Builder} {pending : List ExprId}

theorem HasName.lt (h : b.HasName id) : id.index < b.exprs.size := by
  grind [HasName]

/-! ## Names -/

theorem symbolAt_addExpr (h : b.bindings.size = b.exprs.size) (make : ExprId → Expr)
    (symbol : Option SymbolId) (id : ExprId) :
    (addExpr make symbol b).2.symbolAt id = if id.index = b.exprs.size then symbol else b.symbolAt id := by
  show (b.bindings.push symbol).getD id.index none = _
  rw [Array.getD_eq_getD_getElem?, Array.getElem?_push, h]
  split
  · rfl
  · rw [symbolAt, Array.getD_eq_getD_getElem?]

theorem hasName_addExpr (b : Builder) (make : ExprId → Expr) (symbol : Option SymbolId) (id : ExprId) :
    (addExpr make symbol b).2.HasName id ↔ id.index = b.exprs.size ∧ (make ⟨b.exprs.size⟩).isName ∨ b.HasName id := by
  show (∃ e, (b.exprs.push _)[id.index]? = some e ∧ e.isName) ↔ _
  grind [HasName]

/-- The builder with a symbol for a name. -/
def withBinding (b : Builder) (id : ExprId) (s : SymbolId) : Builder :=
  { b with bindings := b.bindings.setIfInBounds id.index (some s) }

theorem symbolAt_withBinding (h : id.index < b.bindings.size) (s : SymbolId) (id' : ExprId) :
    (b.withBinding id s).symbolAt id' = if id' = id then some s else b.symbolAt id' := by
  show (b.bindings.setIfInBounds id.index (some s)).getD id'.index none = _
  rw [Array.getD_eq_getD_getElem?, Array.getElem?_setIfInBounds, if_pos h]
  by_cases heq : id' = id
  · rw [heq, if_pos rfl, if_pos rfl]
    rfl
  · rw [if_neg heq, if_neg fun hindex => heq (congrArg ExprId.mk hindex.symm), symbolAt, Array.getD_eq_getD_getElem?]

theorem mem_usages_modify {s' : SymbolId} {f : Symbol → Symbol} {u : Usage}
    (h : u ∈ usages { b with symbols := b.symbols.modify s.index f } s') :
    u ∈ b.usages s' ∨ s' = s ∧ u ∈ (f (b.symbols.getD s.index default)).usages := by
  unfold usages at h
  rw [Array.getD_eq_getD_getElem?, Array.getElem?_modify] at h
  split at h
  · rename_i heq
    cases hs : b.symbols[s'.index]? with
    | none =>
      rw [hs] at h
      cases h
    | some data =>
      rw [hs] at h
      right
      rw [Array.getD_eq_getD_getElem?, heq, hs]
      exact ⟨congrArg SymbolId.mk heq.symm, h⟩
  · simp_all [usages]

namespace Names

theorem grows (h : b.Names pending) (hexprs : b'.exprs = b.exprs) (hbindings : b'.bindings = b.bindings)
    (hsize : b.symbols.size ≤ b'.symbols.size)
    (husages : ∀ s, ∀ u ∈ b'.usages s, ∀ id, u.expr = some id → u ∈ b.usages s ∨
      b.symbolAt id = some s) : b'.Names pending := by
  have hsymbol : ∀ id, b'.symbolAt id = b.symbolAt id := fun id => by rw [symbolAt, symbolAt, hbindings]
  have hname : ∀ id, b'.HasName id ↔ b.HasName id := fun id => by rw [HasName, HasName, hexprs]
  constructor
  case nodup => exact h.nodup
  case size_eq =>
    rw [hexprs, hbindings]
    exact h.size_eq
  case id_eq =>
    rw [hexprs]
    exact h.id_eq
  case children =>
    rw [hexprs]
    exact h.children
  case bound =>
    intro id s hs
    obtain ⟨hid, hlt⟩ := h.bound id s ((hsymbol id).symm.trans hs)
    exact ⟨(hname id).2 hid, Nat.lt_of_lt_of_le hlt hsize⟩
  case unbound =>
    grind [unbound]
  case waiting =>
    grind [waiting]
  case usages =>
    grind [usages]

theorem addExpr (h : b.Names pending) {make : ExprId → Expr} {symbol : Option SymbolId} (hid : ∀ id, (make id).id = id)
    (hchildren : ∀ id, ∀ c ∈ (make id).children, c ∈ b.exprs)
    (hsymbol : ∀ s, symbol = some s → (∀ id, (make id).isName) ∧ s.index < b.symbols.size) : (addExpr make symbol b).2.Names
      (pending ++ if (make ⟨b.exprs.size⟩).isName ∧ symbol = none then [⟨b.exprs.size⟩] else []) := by
  have hat := symbolAt_addExpr h.size_eq make symbol
  have hname := b.hasName_addExpr make symbol
  -- No earlier name has the index of the new expression, so nothing said about one changes.
  have hold : ∀ id, b.HasName id → id.index ≠ b.exprs.size := fun id hid => Nat.ne_of_lt hid.lt
  constructor
  case size_eq =>
    show (b.bindings.push symbol).size = (b.exprs.push _).size
    grind [size_eq]
  case id_eq =>
    intro i e he
    rcases Array.getElem?_push.symm.trans he |> ite_eq_iff.1 with ⟨hi, he⟩ | ⟨-, he⟩
    · rw [← Option.some.inj he, hid, hi]
    · exact h.id_eq i e he
  case children =>
    intro e he c hc
    rcases Array.mem_push.1 he with he | rfl
    · exact ⟨Array.mem_push_of_mem _ (h.children e he c hc).1, (h.children e he c hc).2⟩
    · have hmem := hchildren _ c hc
      obtain ⟨i, hi⟩ := Array.mem_iff_getElem?.1 hmem
      refine ⟨Array.mem_push_of_mem _ hmem, ?_⟩
      rw [h.id_eq i c hi, hid]
      exact (Array.getElem?_eq_some_iff.1 hi).1
  case bound =>
    intro id s hs
    rw [hat] at hs
    rw [hname]
    split at hs
    · rename_i heq
      exact ⟨.inl ⟨heq, (hsymbol s hs).1 _⟩, (hsymbol s hs).2⟩
    · exact ⟨.inr (h.bound id s hs).1, (h.bound id s hs).2⟩
  case unbound =>
    intro id hid' hnone
    rw [hat] at hnone
    rw [List.mem_append]
    rcases (hname id).1 hid' with ⟨heq, hisName⟩ | hid'
    · rw [if_pos heq] at hnone
      right
      rw [if_pos ⟨hisName, hnone⟩, List.mem_singleton, ← heq]
    · grind [unbound]
  case waiting =>
    grind [waiting]
  case nodup =>
    grind [nodup, waiting]
  case usages =>
    intro s u hu id hid'
    have hbound := h.usages s u hu id hid'
    grind [bound]

theorem withBinding {id : ExprId} (h : b.Names (id :: pending)) (hs : s.index < b.symbols.size) :
    (b.withBinding id s).Names pending := by
  obtain ⟨hname, hnone⟩ := h.waiting id List.mem_cons_self
  have hat := symbolAt_withBinding (h.size_eq ▸ hname.lt) s
  constructor
  case size_eq => exact (Array.size_setIfInBounds ..).trans h.size_eq
  case id_eq => exact h.id_eq
  case children => exact h.children
  case nodup => exact (List.nodup_cons.1 h.nodup).2
  case bound =>
    intro id' s' hs'
    rw [hat] at hs'
    split at hs'
    · rename_i heq
      rw [heq, ← Option.some.inj hs']
      exact ⟨hname, hs⟩
    · exact h.bound id' s' hs'
  case unbound =>
    intro id' hid' hnone'
    rw [hat] at hnone'
    split at hnone'
    · cases hnone'
    · rename_i hne
      exact (List.mem_cons.1 (h.unbound id' hid' hnone')).resolve_left hne
  case waiting =>
    intro id' hid'
    have hne : id' ≠ id := fun heq => (List.nodup_cons.1 h.nodup).1 (heq ▸ hid')
    rw [hat, if_neg hne]
    exact h.waiting id' (List.mem_cons_of_mem _ hid')
  case usages =>
    intro s' u hu id' hid'
    have hbound := h.usages s' u hu id' hid'
    grind

theorem use (h : b.Names pending) {expr : Option ExprId} (hexpr : ∀ id, expr = some id → b.symbolAt id = some s)
    (kind : UsageKind) : (use s expr kind b).2.Names pending := by
  refine h.grows rfl rfl (Nat.le_of_eq Array.size_modify.symm) fun s' u hu id hid => ?_
  rcases mem_usages_modify hu with hu | ⟨rfl, hu⟩
  · exact .inl hu
  · rcases List.mem_append.1 hu with hu | hu
    · exact .inl hu
    · simp_all

end Names

/-! ## Scopes -/

namespace Scopes

theorem grows (h : b.Scopes) (hactive : b'.active = b.active) (hscopes : b'.scopes = b.scopes)
    (hbuiltins : b'.builtins = b.builtins)
    (hlocals : b'.locals = b.locals) (hsize : b.symbols.size ≤ b'.symbols.size) : b'.Scopes := by
  have hscope : b'.scope = b.scope := funext fun k => by rw [scope, scope, hscopes]
  have hsymbolsOf : b'.symbolsOf = b.symbolsOf := funext fun k => by rw [symbolsOf, symbolsOf, hscope]
  constructor
  case module =>
    rw [hactive]
    exact h.module
  case kind => exact hscope ▸ h.kind
  case opened =>
    rw [hactive, hscopes]
    exact h.opened
  case nodup =>
    rw [hactive]
    exact h.nodup
  case symbols =>
    rw [hsymbolsOf]
    exact fun k s hs => Nat.lt_of_lt_of_le (h.symbols k s hs) hsize
  case builtins =>
    rw [hbuiltins]
    exact fun name s hs => Nat.lt_of_lt_of_le (h.builtins name s hs) hsize
  case locals =>
    rw [hlocals]
    exact fun l hl s hs => Nat.lt_of_lt_of_le (h.locals l hl s hs) hsize
  case owned =>
    unfold Builder.owned
    rw [hlocals, hactive, hsymbolsOf]
    exact h.owned
  case apart => exact hsymbolsOf ▸ h.apart
  case globals => exact hscope ▸ h.globals

theorem use (h : b.Scopes) (s : SymbolId) (expr : Option ExprId) (kind : UsageKind) : (use s expr kind b).2.Scopes :=
  h.grows rfl rfl rfl rfl (Nat.le_of_eq Array.size_modify.symm)

theorem close (h : b.Scopes) {rest : List ScopeId} (hactive : b.active = k :: rest) (hmodule : moduleScope ∈ rest)
    (hactive' : b'.active = rest) (hscopes : b'.scopes = b.scopes) (hsymbols : b'.symbols = b.symbols)
    (hbuiltins : b'.builtins = b.builtins)
    (hlocals : b'.locals = b.locals ∨ b'.locals = b.locals ++ [b.symbolsOf k]) : b'.Scopes := by
  have hscope : b'.scope = b.scope := funext fun k => by rw [scope, scope, hscopes]
  have hsymbolsOf : b'.symbolsOf = b.symbolsOf := funext fun k => by rw [symbolsOf, symbolsOf, hscope]
  have howned : b.owned = b.locals.flatten ++ (b.symbolsOf k ++ (rest.map b.symbolsOf).flatten) := by
    rw [Builder.owned, hactive]
    rfl
  -- What the scope owned goes to the function that is built, or to nobody.
  have hsub : b'.owned.Sublist b.owned := by
    rw [howned, Builder.owned, hactive', hsymbolsOf]
    rcases hlocals with hlocals | hlocals
    · rw [hlocals]
      exact (List.sublist_append_right _ _).append_left _
    · rw [hlocals, List.flatten_append, List.append_assoc, List.flatten_singleton]
  constructor
  case module => exact hactive' ▸ hmodule
  case kind => exact hscope ▸ h.kind
  case owned => exact hsub.nodup h.owned
  case apart => exact hsymbolsOf ▸ h.apart
  case globals => exact hscope ▸ h.globals
  case opened =>
    simp_all [opened]
  case nodup =>
    grind [nodup]
  case symbols =>
    rw [hsymbolsOf, hsymbols]
    exact h.symbols
  case builtins =>
    rw [hbuiltins, hsymbols]
    exact h.builtins
  case locals =>
    intro l hl s hs
    rw [hsymbols]
    rcases hlocals with hlocals | hlocals <;> rw [hlocals] at hl
    · exact h.locals l hl s hs
    · rcases List.mem_append.1 hl with hl | hl
      · exact h.locals l hl s hs
      · rw [List.mem_singleton.1 hl] at hs
        exact h.symbols k s hs

theorem owned_lt (h : b.Scopes) (hs : s ∈ b.owned) : s.index < b.symbols.size := by
  rcases List.mem_append.1 hs with hs | hs
  · obtain ⟨l, hl, hs⟩ := List.mem_flatten.1 hs
    exact h.locals l hl s hs
  · obtain ⟨l, hl, hs⟩ := List.mem_flatten.1 hs
    obtain ⟨k, -, rfl⟩ := List.mem_map.1 hl
    exact h.symbols k s hs

end Scopes

/-! ## One operation at a time -/

/-- The builder with a new symbol for a name of a scope. -/
def withSymbol (b : Builder) (k : ScopeId) (name : String) (kind : SymbolKind) : Builder :=
  { b with
    symbols := b.symbols.push { name, kind, path := (b.scope k).path.map fun path => path ++ "." ++ name }
    scopes := b.scopes.modify k.index fun s => { s with bindings := s.bindings.insert name ⟨b.symbols.size⟩ } }

/-- The builder in which a scope declares a name global. -/
def redirect (b : Builder) (k : ScopeId) (name : String) : Builder :=
  { b with scopes := b.scopes.modify k.index fun s => { s with globals := name :: s.globals } }

/-- The builder inside a new scope. -/
def enter (b : Builder) (kind : ScopeKind) (path : Option String) : Builder :=
  { b with scopes := b.scopes.push { kind, path }, active := ⟨b.scopes.size⟩ :: b.active }

/-- The builder outside its innermost scope. -/
def leave (b : Builder) : Builder := { b with active := b.active.tail }

theorem bindIn_of_bound (h : (b.scope k).bindings.get? name = some s) (kind : SymbolKind) :
    bindIn k name kind b = (s, b) := by
  unfold bindIn
  rw [get_bind_apply, h]
  rfl

theorem bindIn_of_absent (h : (b.scope k).bindings.get? name = none) (kind : SymbolKind) :
    bindIn k name kind b = (⟨b.symbols.size⟩, b.withSymbol k name kind) := by
  unfold bindIn
  rw [get_bind_apply, h]
  rfl

/-- The builder moves on in order: the same scopes are open, and the names `created` are the ones
read meanwhile. -/
structure Advances (b : Builder) (created : List ExprId) (b' : Builder) : Prop where
  building : b'.Building
  active_eq : b'.active = b.active
  readIds_eq : b'.readIds = b.readIds ++ created
  reads : ∀ r ∈ b.reads, r ∈ b'.reads
  builtins_eq : b'.builtins = b.builtins

theorem Advances.of_eq (h : b'.Building) (hactive : b'.active = b.active)
    (hreads : b'.reads = b.reads) (hbuiltins : b'.builtins = b.builtins) : b.Advances [] b' :=
  ⟨h, hactive, by rw [readIds, readIds, hreads, List.append_nil], fun _ hr => hreads ▸ hr, hbuiltins⟩

theorem Advances.refl (h : b.Building) : b.Advances [] b := .of_eq h rfl rfl rfl

/-- The names that are read in two stretches are read in this order. -/
theorem Advances.trans {b1 b2 : Builder} {xs ys : List ExprId} (h : b.Advances xs b1)
    (h' : b1.Advances ys b2) : b.Advances (xs ++ ys) b2 :=
  ⟨h'.building, h'.active_eq.trans h.active_eq, by rw [h'.readIds_eq, h.readIds_eq, List.append_assoc],
    fun r hr => h'.reads r (h.reads r hr), h'.builtins_eq.trans h.builtins_eq⟩

theorem usages_newSymbol (name : String) (kind : SymbolKind) (path : Option String) (s : SymbolId) :
    (newSymbol name kind path b).2.usages s = b.usages s := by
  show Symbol.usages ((b.symbols.push _).getD _ _) = Symbol.usages _
  rw [Array.getD_eq_getD_getElem?, Array.getElem?_push, Array.getD_eq_getD_getElem?]
  split
  · rename_i heq
    rw [heq, Array.getElem?_eq_none (Nat.le_refl _)]
    rfl
  · rfl

theorem scope_modify (k k' : ScopeId) : scope { b with scopes := b.scopes.modify k.index f } k' =
    if k' = k ∧ k.index < b.scopes.size then f (b.scope k') else b.scope k' := by
  unfold scope
  simp only [Array.getD_eq_getD_getElem?, Array.getElem?_modify]
  by_cases heq : k' = k
  · by_cases hk : k.index < b.scopes.size <;> simp [heq, hk]
  · rw [if_neg fun hindex => heq (congrArg ScopeId.mk hindex.symm), if_neg fun h => heq h.1]

theorem scope_enter (b : Builder) (kind : ScopeKind) (path : Option String) (k : ScopeId) :
    (b.enter kind path).scope k = if k.index = b.scopes.size then { kind, path } else b.scope k := by
  show (b.scopes.push _).getD _ _ = _
  rw [Array.getD_eq_getD_getElem?, Array.getElem?_push]
  split
  · rfl
  · rw [scope, Array.getD_eq_getD_getElem?]

theorem symbolsOf_modify (hk : k.index < b.scopes.size) (k' : ScopeId) :
    symbolsOf { b with scopes := b.scopes.modify k.index f } k' =
      if k' = k then (f (b.scope k)).bindings.values else b.symbolsOf k' := by
  rw [symbolsOf, scope_modify]
  by_cases heq : k' = k
  · simp [heq, hk]
  · rw [if_neg fun h => heq h.1, if_neg heq, symbolsOf]

theorem symbolsOf_withSymbol (hk : k.index < b.scopes.size)
    (hname : (b.scope k).bindings.get? name = none) (kind : SymbolKind) (k' : ScopeId) :
    (b.withSymbol k name kind).symbolsOf k' =
      if k' = k then b.symbolsOf k ++ [⟨b.symbols.size⟩] else b.symbolsOf k' := by
  have hvalues := OrderedMap.values_insert_of_absent hname ⟨b.symbols.size⟩
  rw [← symbolsOf] at hvalues
  rw [← hvalues]
  exact symbolsOf_modify hk k'

theorem scope_withSymbol (b : Builder) (k : ScopeId) (name : String) (kind : SymbolKind)
    (k' : ScopeId) : (b.withSymbol k name kind).scope k' = if k' = k ∧ k.index < b.scopes.size
      then { b.scope k' with bindings := (b.scope k').bindings.insert name ⟨b.symbols.size⟩ } else
        b.scope k' := scope_modify k k'

theorem contains_bindIn (hk : k.index < b.scopes.size) (name : String) (kind : SymbolKind) :
    ((bindIn k name kind b).2.scope k).bindings.contains name := by
  rw [OrderedMap.contains]
  cases hname : (b.scope k).bindings.get? name with
  | none => rw [bindIn_of_absent hname, scope_withSymbol, if_pos ⟨rfl, hk⟩, OrderedMap.get?_insert_self, Option.isSome_some]
  | some s => rw [bindIn_of_bound hname, hname, Option.isSome_some]

theorem locals_addStmt (b : Builder) (make : StmtId → Stmt) :
    (addStmt make b).2.locals = b.locals ++ (make ⟨b.stmts.size⟩).locals?.toList := by
  show (b.stmts.push _).toList.filterMap Stmt.locals? = _
  grind [locals]

theorem flatten_map_perm {ks : List ScopeId} (hks : ks.Nodup) (hk : k ∈ ks) {f g : ScopeId → List SymbolId}
    (hsame : ∀ k', k' ≠ k → g k' = f k') (hnew : g k = f k ++ [s]) : (ks.map g).flatten.Perm (s :: (ks.map f).flatten) := by
  induction ks with
  | nil => cases hk
  | cons k' rest ih =>
    obtain ⟨hk', hrest⟩ := List.nodup_cons.1 hks
    simp only [List.map_cons, List.flatten_cons]
    by_cases heq : k' = k
    · grind [List.map_congr_left]
    · grind

/-- A builder starts in order. -/
theorem building_start (path : String) (isPackage : Bool) : (start path isPackage).Building := by
  have hexprs : ∀ i : Nat, (start path isPackage).exprs[i]? = none := fun i => Array.getElem?_empty
  have husages : ∀ s, (start path isPackage).usages s = [] := fun s => rfl
  have hscope : ∀ k, ((start path isPackage).scope k).bindings = ∅ ∧ ((start path isPackage).scope k).globals = [] := by
    rintro ⟨_ | i⟩ <;> exact ⟨rfl, rfl⟩
  have hsymbolsOf : ∀ k, (start path isPackage).symbolsOf k = [] := fun k => congrArg OrderedMap.values (hscope k).1
  refine ⟨?names, ?scopes⟩
  case names =>
    constructor
    case size_eq => rfl
    case id_eq =>
      simp_all
    case children => exact fun e he => absurd he (Array.not_mem_empty e)
    case bound =>
      intro id s hs
      cases hs
    case unbound =>
      rintro id ⟨e, he, -⟩ _
      rw [hexprs] at he
      cases he
    case waiting => exact fun id hid => absurd hid List.not_mem_nil
    case nodup => exact List.nodup_nil
    case usages =>
      simp_all
  case scopes =>
    constructor
    case module => exact List.mem_cons_self
    case kind => rfl
    case apart =>
      simp_all
    case globals =>
      simp_all
    case opened =>
      intro k hk
      rw [List.mem_singleton.1 hk]
      exact Nat.one_pos
    case nodup => exact List.nodup_singleton _
    case symbols =>
      simp_all
    case builtins =>
      intro name s hs
      cases hs
    case locals => exact fun l hl => absurd hl List.not_mem_nil
    case owned =>
      show ([] ++ [(start path isPackage).symbolsOf moduleScope].flatten).Nodup
      rw [hsymbolsOf]
      exact List.nodup_nil

namespace Building

variable {make : StmtId → Stmt}

section

variable (h : b.Building)

include h

theorem use {expr : Option ExprId} (hexpr : ∀ id, expr = some id → b.symbolAt id = some s)
    (kind : UsageKind) : (use s expr kind b).2.Building := ⟨h.names.use hexpr kind, h.scopes.use s expr kind⟩

theorem withSymbol (hk : k ∈ b.active)
    (hname : (b.scope k).bindings.get? name = none) (kind : SymbolKind) : (b.withSymbol k name kind).Building := by
  have hlt := h.scopes.opened k hk
  have hsymbolsOf := symbolsOf_withSymbol hlt hname kind
  have hsize : (b.withSymbol k name kind).symbols.size = b.symbols.size + 1 := Array.size_push _
  have hmore : ∀ s : SymbolId, s.index < b.symbols.size →
    s.index < (b.withSymbol k name kind).symbols.size := fun s hs => by omega
  have hsame : ∀ k', ((b.withSymbol k name kind).scope k').kind = (b.scope k').kind ∧
      ((b.withSymbol k name kind).scope k').globals = (b.scope k').globals := by
    intro k'
    rw [scope_withSymbol]
    split <;> exact ⟨rfl, rfl⟩
  -- The scope may be the module's while others are open in front of it, so this is a permutation
  -- only.
  have howned : (b.withSymbol k name kind).owned.Perm (⟨b.symbols.size⟩ :: b.owned) := by
    have hopen := flatten_map_perm h.scopes.nodup hk (fun k' hne => (hsymbolsOf k').trans (if_neg hne))
      ((hsymbolsOf k).trans (if_pos rfl))
    exact (hopen.append_left b.locals.flatten).trans List.perm_middle
  refine ⟨h.names.grows rfl rfl (by omega) fun s u hu id _ => .inl (usages_newSymbol name kind _ s ▸ hu), ?_⟩
  constructor
  case module => exact h.scopes.module
  case kind => exact (hsame _).1.trans h.scopes.kind
  case apart =>
    have hfresh : ∀ k', ⟨b.symbols.size⟩ ∉ b.symbolsOf k' := fun k' hs => Nat.lt_irrefl _ (h.scopes.symbols k' _ hs)
    have hapart := h.scopes.apart
    grind
  case globals =>
    intro k' n hn
    have hbound := h.scopes.globals k' n ((hsame k').2 ▸ hn)
    rw [scope_withSymbol]
    split
    · rw [OrderedMap.contains, OrderedMap.get?_insert]
      split
      · rfl
      · exact hbound
    · exact hbound
  case opened =>
    intro k' hk'
    show k'.index < (b.scopes.modify _ _).size
    rw [Array.size_modify]
    exact h.scopes.opened k' hk'
  case nodup => exact h.scopes.nodup
  case symbols =>
    grind [Scopes.symbols, scopes]
  case builtins => exact fun name s hs => hmore s (h.scopes.builtins name s hs)
  case locals => exact fun l hl s hs => hmore s (h.scopes.locals l hl s hs)
  case owned =>
    have hfresh : (⟨b.symbols.size⟩ : SymbolId) ∉ b.owned := fun hmem => Nat.lt_irrefl _ (h.scopes.owned_lt hmem)
    exact howned.nodup_iff.2 (List.nodup_cons.2 ⟨hfresh, h.scopes.owned⟩)

theorem bindIn (hk : k ∈ b.active) (name : String) (kind : SymbolKind) :
    b.Advances [] (bindIn k name kind b).2 ∧ (bindIn k name kind b).1.index < (bindIn k name kind b).2.symbols.size := by
  cases hname : (b.scope k).bindings.get? name with
  | none =>
    rw [bindIn_of_absent hname]
    exact ⟨.of_eq (h.withSymbol hk hname kind) rfl rfl rfl, Nat.lt_of_lt_of_eq (Nat.lt_succ_self _) (Array.size_push _).symm⟩
  | some s =>
    rw [bindIn_of_bound hname]
    exact ⟨.refl h, h.scopes.symbols k s (OrderedMap.mem_values_iff.2 ⟨name, hname⟩)⟩

theorem currentScope_mem : b.currentScope ∈ b.active := by
  have hmodule := h.scopes.module
  unfold currentScope
  cases hactive : b.active with
  | nil =>
    rw [hactive] at hmodule
    cases hmodule
  | cons k rest => exact List.mem_cons_self

theorem bind (name : String) (kind : SymbolKind) :
    b.Advances [] (bind name kind b).2 ∧ (bind name kind b).1.index < (bind name kind b).2.symbols.size := by
  refine h.bindIn ?_ name kind
  split
  · exact h.scopes.module
  · exact h.currentScope_mem

theorem addExpr {make : ExprId → Expr} {symbol : Option SymbolId} (hid : ∀ id, (make id).id = id)
    (hchildren : ∀ id, ∀ c ∈ (make id).children, c ∈ b.exprs)
    (hsymbol : ∀ s, symbol = some s → (∀ id, (make id).isName) ∧ s.index < b.symbols.size)
    (hname : (make ⟨b.exprs.size⟩).isName → symbol ≠ none) : b.Advances [] (addExpr make symbol b).2 := by
  refine ⟨⟨?_, h.scopes.grows rfl rfl rfl rfl (Nat.le_refl _)⟩, rfl, (List.append_nil _).symm, fun _ hr => hr, rfl⟩
  have hnames := h.names.addExpr hid hchildren hsymbol
  rwa [if_neg fun hread => hname hread.1 hread.2, List.append_nil] at hnames

theorem addStmt (hmake : (make ⟨b.stmts.size⟩).locals? = none) : b.Advances [] (addStmt make b).2 := by
  have hlocals : (Builder.addStmt make b).2.locals = b.locals := by
    rw [locals_addStmt, hmake, Option.toList_none, List.append_nil]
  exact .of_eq ⟨h.names.grows rfl rfl (Nat.le_refl _) fun s u hu id _ => .inl hu,
    h.scopes.grows rfl rfl rfl hlocals (Nat.le_refl _)⟩ rfl rfl rfl

theorem read (name : String) : b.Advances [(read name b).1.id] (read name b).2 := by
  have hadded : (Builder.addExpr (fun id => .name id name) none b).2.Names (b.readIds ++ [⟨b.exprs.size⟩]) :=
    h.names.addExpr (fun _ => rfl) (fun _ _ hc => nomatch hc) fun _ hs => nomatch hs
  have hnames : (Builder.read name b).2.Names (b.readIds ++ [⟨b.exprs.size⟩]) :=
    hadded.grows rfl rfl (Nat.le_refl _) fun s u hu id _ => .inl hu
  have hreadIds : (Builder.read name b).2.readIds = b.readIds ++ [⟨b.exprs.size⟩] := by
    show ((b.reads.push _).toList.map PendingRead.expr) = _
    rw [Array.toList_push, List.map_append]
    rfl
  exact ⟨⟨hreadIds ▸ hnames, h.scopes.grows rfl rfl rfl rfl (Nat.le_refl _)⟩, rfl, hreadIds,
    fun _ hr => Array.mem_push_of_mem _ hr, rfl⟩

theorem redirect (k : ScopeId) (hname : (b.scope moduleScope).bindings.contains name) :
    b.Advances [] (b.redirect k name) := by
  have hscope : ∀ k', (b.redirect k name).scope k' = if k' = k ∧ k.index < b.scopes.size
      then { b.scope k' with globals := name :: (b.scope k').globals } else b.scope k' := scope_modify k
  have hsame : ∀ k', ((b.redirect k name).scope k').kind = (b.scope k').kind ∧
      ((b.redirect k name).scope k').bindings = (b.scope k').bindings := by
    intro k'
    rw [hscope]
    split <;> exact ⟨rfl, rfl⟩
  have hsymbolsOf : (b.redirect k name).symbolsOf = b.symbolsOf := funext fun k' => congrArg OrderedMap.values (hsame k').2
  refine .of_eq ⟨h.names.grows rfl rfl (Nat.le_refl _) fun s u hu id _ => .inl hu, ?_⟩ rfl rfl rfl
  refine { h.scopes with
    kind := (hsame _).1.trans h.scopes.kind
    opened := fun k' hk' => ?_
    symbols := hsymbolsOf ▸ h.scopes.symbols
    owned := ?_
    apart := hsymbolsOf ▸ h.scopes.apart
    globals := fun k' n hn => ?_ }
  · exact Nat.lt_of_lt_of_eq (h.scopes.opened k' hk') Array.size_modify.symm
  · rw [owned, hsymbolsOf]
    exact h.scopes.owned
  · rw [(hsame _).2]
    rw [hscope] at hn
    split at hn
    · rcases List.mem_cons.1 hn with rfl | hn
      · exact hname
      · exact h.scopes.globals k' n hn
    · exact h.scopes.globals k' n hn

/-! ### Scopes that open and close -/

theorem enter (kind : ScopeKind) (path : Option String) : (b.enter kind path).Building := by
  have hnew : b.symbolsOf ⟨b.scopes.size⟩ = [] := by
    rw [symbolsOf, scope, Array.getD_eq_getD_getElem?, Array.getElem?_eq_none (Nat.le_refl _)]
    rfl
  have hsymbolsOf : (b.enter kind path).symbolsOf = b.symbolsOf := by
    funext k
    rw [symbolsOf, scope_enter]
    split
    · rename_i heq
      exact (heq ▸ hnew).symm
    · rfl
  have hopened : ∀ k ∈ b.active, k ≠ ⟨b.scopes.size⟩ := by
    rintro k hk rfl
    exact Nat.lt_irrefl _ (h.scopes.opened _ hk)
  have hmodule : (b.enter kind path).scope moduleScope = b.scope moduleScope :=
    (scope_enter b kind path _).trans (if_neg (Nat.ne_of_lt (h.scopes.opened _ h.scopes.module)))
  refine ⟨h.names.grows rfl rfl (Nat.le_refl _) fun s u hu id _ => .inl hu, ?_⟩
  constructor
  case module => exact List.mem_cons_of_mem _ h.scopes.module
  case opened =>
    intro k hk
    show k.index < (b.scopes.push _).size
    rw [Array.size_push]
    rcases List.mem_cons.1 hk with rfl | hk
    · exact Nat.lt_succ_self _
    · exact Nat.lt_succ_of_lt (h.scopes.opened k hk)
  case nodup => exact List.nodup_cons.2 ⟨fun hmem => hopened _ hmem rfl, h.scopes.nodup⟩
  case symbols => exact hsymbolsOf ▸ h.scopes.symbols
  case builtins => exact h.scopes.builtins
  case locals => exact h.scopes.locals
  case kind => exact hmodule ▸ h.scopes.kind
  case apart => exact hsymbolsOf ▸ h.scopes.apart
  case globals =>
    intro k name hname
    rw [hmodule]
    rw [scope_enter] at hname
    split at hname
    · cases hname
    · exact h.scopes.globals k name hname
  case owned =>
    show (b.locals.flatten ++ (_ :: b.active.map (b.enter kind path).symbolsOf).flatten).Nodup
    rw [hsymbolsOf, hnew]
    exact h.scopes.owned

theorem close {rest : List ScopeId} (hactive : b.active = k :: rest) (hmodule : moduleScope ∈ rest)
    (hmake : (make ⟨b.stmts.size⟩).locals? = none ∨ (make ⟨b.stmts.size⟩).locals? = some (b.symbolsOf k)) :
    (Builder.addStmt make b.leave).2.Building := by
  refine ⟨h.names.grows rfl rfl (Nat.le_refl _) fun s u hu id _ => .inl hu,
    h.scopes.close hactive hmodule (congrArg List.tail hactive) rfl rfl rfl ?_⟩
  have hlocals : (Builder.addStmt make b.leave).2.locals = b.locals ++ (make ⟨b.stmts.size⟩).locals?.toList :=
    locals_addStmt b.leave make
  simp_all

end

end Building

end Builder

end PythonTypes
