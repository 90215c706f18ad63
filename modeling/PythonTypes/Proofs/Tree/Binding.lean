import PythonTypes.Proofs.Tree.Numbering
import Mathlib.Data.List.Count

/-!
# Bound trees

The names, symbols and scopes of a finished tree agree. `Tree.Bound` says what this means, and
`Builder.bound_finish` that it holds of the tree that any sequence of calls ends with. When
building ends, the names that are read are given their symbols one after another: `Resolves` says
what this leaves alone, which uses it adds, and what each name refers to.
-/

set_option autoImplicit false

namespace PythonTypes

/-- Names, symbols and scopes of a tree agree, where the names `reads` were created to be read. -/
structure Tree.Bound (t : Tree) (reads : List ExprId) : Prop where
  /-- The id of an expression is its place. -/
  id_eq : ∀ (i : Nat) (e : Expr), t.exprs[i]? = some e → e.id = ⟨i⟩
  /-- Every name has a symbol. -/
  names : ∀ e ∈ t.exprs, e.isName → ∃ s, t.symbolOf? e = some s ∧ s.index < t.symbols.size
  /-- A use that carries an expression carries a name of the symbol that is used. -/
  usages : ∀ s, ∀ u ∈ (t.symbol s).usages, ∀ id, u.expr = some id →
    ∃ e, t.exprs[id.index]? = some e ∧ e.isName ∧ t.symbolOf? e = some s
  /-- A name that is read is one use of one symbol as such. -/
  reads : ∀ id ∈ reads, (t.symbols.toList.flatMap Symbol.usages).count ⟨some id, .read⟩ = 1
  /-- The parts of an expression come before it. -/
  children : ∀ e ∈ t.exprs, ∀ c ∈ e.children, c ∈ t.exprs ∧ c.id.index < e.id.index
  /-- No scope of the module or of a function lists a symbol twice. -/
  nodup : ∀ symbols ∈ t.moduleSymbols :: t.stmts.toList.filterMap Stmt.locals?, symbols.Nodup
  /-- No two of these scopes list the same symbol. -/
  disjoint : (t.moduleSymbols :: t.stmts.toList.filterMap Stmt.locals?).Pairwise List.Disjoint

theorem Tree.symbolOf?_of_isName (t : Tree) {e : Expr} (h : e.isName) : t.symbolOf? e = t.bindings.getD e.id.index none := by
  cases e with
  | name id text => rfl
  | _ => cases h

namespace Builder

variable {b b' : Builder} {pending : List ExprId}
variable {name : String} {s : SymbolId}

/-- All uses of symbols. -/
def allUsages (b : Builder) : List Usage := b.symbols.toList.flatMap Symbol.usages

/-- The builtins are symbols of their names, and none of the first `n` symbols. -/
def BuiltinsFrom (b : Builder) (n : Nat) : Prop :=
  n ≤ b.symbols.size ∧ ∀ name s, b.builtins.get? name = some s →
    n ≤ s.index ∧ ∃ data, b.symbols[s.index]? = some data ∧ data.kind = .builtin ∧ data.name = name

/-- Reads are given the symbols that their names refer to, or builtins: each is used once more, and
the rest of the tree stays as it is. -/
structure Resolves (b : Builder) (rs : List PendingRead) (b' : Builder) : Prop where
  exprs_eq : b'.exprs = b.exprs
  stmts_eq : b'.stmts = b.stmts
  scopes_eq : b'.scopes = b.scopes
  usages_perm : b'.allUsages.Perm ((rs.map PendingRead.expr).map (⟨some ·, .read⟩) ++ b.allUsages)
  kept : ∀ id, id ∉ rs.map PendingRead.expr → b'.symbolAt id = b.symbolAt id
  builtins : ∀ name s, b.builtins.get? name = some s → b'.builtins.get? name = some s
  builtinsFrom : ∀ n, b.BuiltinsFrom n → b'.BuiltinsFrom n
  settled : ∀ r ∈ rs, ∃ s, b'.symbolAt r.expr = some s ∧ (b.lookup r.name true r.scopes).or (b'.builtins.get? r.name) = some s

theorem Resolves.refl (b : Builder) : b.Resolves [] b :=
  ⟨rfl, rfl, rfl, .refl _, fun _ _ => rfl, fun _ _ => id, fun _ => id, fun _ hr => nomatch hr⟩

theorem lookup_congr (h : b'.scopes = b.scopes) (name : String) (innermost : Bool)
    (ks : List ScopeId) : b'.lookup name innermost ks = b.lookup name innermost ks := by
  have hscope : b'.scope = b.scope := funext fun k => by rw [scope, scope, h]
  induction ks generalizing innermost with
  | nil => rfl
  | cons k outer ih => rw [lookup, lookup, hscope, ih]

theorem Resolves.trans {b1 b2 : Builder} {xs ys : List PendingRead} (h : b.Resolves xs b1) (h' : b1.Resolves ys b2)
    (hapart : ∀ r ∈ xs, r.expr ∉ ys.map PendingRead.expr) : b.Resolves (xs ++ ys) b2 := by
  refine ⟨h'.exprs_eq.trans h.exprs_eq, h'.stmts_eq.trans h.stmts_eq, h'.scopes_eq.trans h.scopes_eq, ?_, fun id hid => ?_,
    fun name s hs => h'.builtins name s (h.builtins name s hs),
      fun n hn => h'.builtinsFrom n (h.builtinsFrom n hn), fun r hr => ?_⟩
  · rw [List.map_append, List.map_append, List.append_assoc]
    exact (h'.usages_perm.trans (h.usages_perm.append_left _)).trans (List.perm_append_comm_assoc _ _ _)
  · rw [List.map_append, List.mem_append, not_or] at hid
    exact (h'.kept id hid.2).trans (h.kept id hid.1)
  · rcases List.mem_append.1 hr with hr | hr
    · obtain ⟨s, hs, hrefers⟩ := h.settled r hr
      refine ⟨s, (h'.kept r.expr (hapart r hr)).trans hs, Option.or_eq_some_iff.2 ?_⟩
      exact (Option.or_eq_some_iff.1 hrefers).imp_right fun hnone => ⟨hnone.1, h'.builtins _ s hnone.2⟩
    · obtain ⟨s, hs, hrefers⟩ := h'.settled r hr
      exact ⟨s, hs, lookup_congr h.scopes_eq r.name true r.scopes ▸ hrefers⟩

theorem flatMap_modify_perm {f : Symbol → Symbol} {u : Usage}
    (hf : ∀ s, (f s).usages = s.usages ++ [u]) (ss : List Symbol) {i : Nat}
    (hi : i < ss.length) : ((ss.modify i f).flatMap Symbol.usages).Perm (u :: ss.flatMap Symbol.usages) := by
  induction ss generalizing i with
  | nil => cases hi
  | cons s rest ih =>
    grind

theorem allUsages_use (hs : s.index < b.symbols.size) (expr : Option ExprId) (kind : UsageKind) :
    (use s expr kind b).2.allUsages.Perm (⟨expr, kind⟩ :: b.allUsages) := by
  show ((b.symbols.modify s.index _).toList.flatMap Symbol.usages).Perm _
  rw [Array.toList_modify]
  exact flatMap_modify_perm (fun _ => rfl) _ hs

theorem allUsages_newSymbol (b : Builder) (name : String) (kind : SymbolKind)
    (path : Option String) : (newSymbol name kind path b).2.allUsages = b.allUsages := by
  show ((b.symbols.push _).toList.flatMap Symbol.usages) = _
  rw [Array.toList_push, List.flatMap_append]
  exact List.append_nil _

theorem mem_symbolsOf_of_lookup {innermost : Bool} {ks : List ScopeId}
    (h : b.lookup name innermost ks = some s) : ∃ k, s ∈ b.symbolsOf k := by
  induction ks generalizing innermost with
  | nil => cases h
  | cons k outer ih =>
    unfold lookup at h
    simp only at h
    split at h
    · exact ih h
    · split at h
      · exact ⟨moduleScope, OrderedMap.mem_values_iff.2 ⟨name, h⟩⟩
      · split at h
        · rename_i hget
          exact ⟨k, OrderedMap.mem_values_iff.2 ⟨name, Option.some.inj h ▸ hget⟩⟩
        · exact ih h

/-! ## One read -/

/-- The answer is a symbol that exists, and what was looked up or else the builtin; names wait as
before, and nothing is used. -/
structure Refers (b : Builder) (pending : List ExprId) (name : String) (found : Option SymbolId)
    (answer : SymbolId × Builder) : Prop where
  names : answer.2.Names pending
  scopes : answer.2.Scopes
  resolves : b.Resolves [] answer.2
  known : answer.1.index < answer.2.symbols.size
  answer_eq : found.or (answer.2.builtins.get? name) = some answer.1

/-- The builder with a new symbol for a name that is bound nowhere. -/
def withBuiltin (b : Builder) (name : String) : Builder :=
  { b with
    symbols := b.symbols.push { name, kind := .builtin, path := some name }
    builtins := b.builtins.insert name ⟨b.symbols.size⟩ }

theorem builtin_of_known (h : b.builtins.get? name = some s) : builtin name b = (s, b) := by
  unfold builtin
  rw [get_bind_apply, h]
  rfl

theorem builtin_of_new (h : b.builtins.get? name = none) : builtin name b = (⟨b.symbols.size⟩, b.withBuiltin name) := by
  unfold builtin
  rw [get_bind_apply, h]
  rfl

theorem Scopes.withBuiltin (h : b.Scopes) (name : String) : (b.withBuiltin name).Scopes := by
  have hsize : (b.withBuiltin name).symbols.size = b.symbols.size + 1 := Array.size_push _
  have hmore : ∀ s : SymbolId, s.index < b.symbols.size → s.index < (b.withBuiltin name).symbols.size := fun s hs => by omega
  refine { h with
    symbols := fun k s hs => hmore s (h.symbols k s hs)
    builtins := fun name' s hs => ?_
    locals := fun l hl s hs => hmore s (h.locals l hl s hs) }
  rcases OrderedMap.get?_insert_cases hs with ⟨-, rfl⟩ | hs
  · rw [hsize]
    exact Nat.lt_succ_self _
  · exact hmore s (h.builtins name' s hs)

theorem BuiltinsFrom.withBuiltin {n : Nat} (h : b.BuiltinsFrom n) (name : String) : (b.withBuiltin name).BuiltinsFrom n := by
  refine ⟨Nat.le_trans h.1
    (Nat.le_of_lt (Nat.lt_of_lt_of_eq (Nat.lt_succ_self _) (Array.size_push _).symm)),
    fun name' s hs => ?_⟩
  rcases OrderedMap.get?_insert_cases hs with ⟨rfl, rfl⟩ | hs
  · exact ⟨h.1, _, Array.getElem?_push_size, rfl, rfl⟩
  · obtain ⟨hn, data, hdata, hbuiltin⟩ := h.2 name' s hs
    have hlt : s.index < b.symbols.size := (Array.getElem?_eq_some_iff.1 hdata).1
    exact ⟨hn, data, by rw [Builder.withBuiltin, Array.getElem?_push, if_neg (Nat.ne_of_lt hlt), hdata], hbuiltin⟩

theorem BuiltinsFrom.use {n : Nat} (h : b.BuiltinsFrom n) (symbol : SymbolId) (expr : Option ExprId)
    (kind : UsageKind) : (use symbol expr kind b).2.BuiltinsFrom n := by
  refine ⟨Nat.le_trans h.1 (Nat.le_of_eq Array.size_modify.symm), fun name s hs => ?_⟩
  obtain ⟨hn, data, hdata, hbuiltin⟩ := h.2 name s hs
  refine ⟨hn, ?_⟩
  show ∃ data, (b.symbols.modify _ _)[s.index]? = some data ∧ _
  rw [Array.getElem?_modify, hdata]
  split
  · exact ⟨_, rfl, hbuiltin⟩
  · exact ⟨data, rfl, hbuiltin⟩

theorem refers_builtin (hn : b.Names pending) (hs : b.Scopes) (name : String) :
    b.Refers pending name none (builtin name b) := by
  cases hname : b.builtins.get? name with
  | some s =>
    rw [builtin_of_known hname]
    exact ⟨hn, hs, .refl b, hs.builtins name s hname, hname⟩
  | none =>
    have hsize : (b.withBuiltin name).symbols.size = b.symbols.size + 1 := Array.size_push _
    have hnames : (b.withBuiltin name).Names pending :=
      hn.grows rfl rfl (by omega) fun s u hu id _ => .inl (usages_newSymbol name .builtin (some name) s ▸ hu)
    rw [builtin_of_new hname]
    refine ⟨hnames, hs.withBuiltin name, ?_, hsize ▸ Nat.lt_succ_self _, OrderedMap.get?_insert_self _ _ _⟩
    exact ⟨rfl, rfl, rfl, .of_eq (b.allUsages_newSymbol name .builtin (some name)), fun _ _ => rfl,
      fun name s hs => OrderedMap.get?_insert_of_absent hname hs, fun n hn => hn.withBuiltin name, fun _ hr => nomatch hr⟩

/-- The symbol that a read refers to. -/
def refer (r : PendingRead) : BuildM SymbolId := do
  match (← get).lookup r.name true r.scopes with
  | some symbol => pure symbol
  | none => builtin r.name

theorem refers_refer (hn : b.Names pending) (hs : b.Scopes) (r : PendingRead) :
    b.Refers pending r.name (b.lookup r.name true r.scopes) (refer r b) := by
  unfold refer
  rw [get_bind_apply]
  cases hlookup : b.lookup r.name true r.scopes with
  | some s =>
    obtain ⟨k, hk⟩ := mem_symbolsOf_of_lookup hlookup
    exact ⟨hn, hs, .refl b, hs.symbols k s hk, rfl⟩
  | none => exact refers_builtin hn hs r.name

theorem resolveRead_apply (r : PendingRead) (b : Builder) :
    resolveRead r b = use (refer r b).1 (some r.expr) .read ((refer r b).2.withBinding r.expr (refer r b).1) := by
  unfold resolveRead refer
  rw [get_bind_apply, get_bind_apply]
  cases b.lookup r.name true r.scopes <;> rfl

theorem resolveRead_sound {r : PendingRead} (hn : b.Names (r.expr :: pending)) (hs : b.Scopes) :
    (resolveRead r b).2.Names pending ∧ (resolveRead r b).2.Scopes ∧ b.Resolves [r] (resolveRead r b).2 := by
  rw [resolveRead_apply]
  obtain ⟨hnames, hscopes, hresolves, hknown, hrefers⟩ := refers_refer hn hs r
  generalize refer r b = answer at *
  obtain ⟨s, b1⟩ := answer
  have hlt : r.expr.index < b1.bindings.size := hnames.size_eq ▸ (hnames.waiting _ List.mem_cons_self).1.lt
  have hsymbolAt := symbolAt_withBinding hlt s
  have hbound : (b1.withBinding r.expr s).symbolAt r.expr = some s := (hsymbolAt r.expr).trans (if_pos rfl)
  have hscopes' : (b1.withBinding r.expr s).Scopes := hscopes.grows rfl rfl rfl rfl (Nat.le_refl _)
  refine ⟨(hnames.withBinding hknown).use (fun id hid => Option.some.inj hid ▸ hbound) .read, hscopes'.use _ _ _, ?_⟩
  refine hresolves.trans ?_ fun _ hr => nomatch hr
  refine ⟨rfl, rfl, rfl, allUsages_use hknown (some r.expr) .read, fun id hid => ?_, fun _ _ => id,
    fun n hn => .use hn _ _ _, fun r' hr' => ?_⟩
  · exact (hsymbolAt id).trans (if_neg fun heq : id = r.expr => hid (heq ▸ List.mem_singleton_self _))
  · obtain rfl := List.mem_singleton.1 hr'
    exact ⟨s, hbound, lookup_congr hresolves.scopes_eq _ _ _ ▸ hrefers⟩

/-! ## All reads -/

/-- The builder after reads are resolved one after another. -/
def resolveAll (rs : List PendingRead) (b : Builder) : Builder := rs.foldl (fun b r => (resolveRead r b).2) b

theorem resolveAll_sound {rs : List PendingRead} (hn : b.Names (rs.map PendingRead.expr))
    (hs : b.Scopes) : (resolveAll rs b).Names [] ∧ b.Resolves rs (resolveAll rs b) := by
  induction rs generalizing b with
  | nil => exact ⟨hn, .refl b⟩
  | cons r rest ih =>
    obtain ⟨hnames, hscopes, hresolves⟩ := resolveRead_sound hn hs
    obtain ⟨hend, hresolves'⟩ := ih hnames hscopes
    exact ⟨hend, hresolves.trans hresolves' fun r' hr' => List.mem_singleton.1 hr' ▸ (List.nodup_cons.1 hn.nodup).1⟩

/-- The tree of what is built. -/
def tree (b : Builder) (body : List Stmt) : Tree :=
  { path := b.path, package := b.package, body, exprs := b.exprs, stmts := b.stmts, symbols := b.symbols, bindings := b.bindings
    moduleSymbols := b.symbolsOf moduleScope }

theorem forIn_resolveRead (rs : List PendingRead) (b : Builder) : (ForIn.forIn rs PUnit.unit (fun r _ => do
    resolveRead r
    pure (ForInStep.yield PUnit.unit)) : BuildM PUnit) b = (PUnit.unit, resolveAll rs b) := by
  induction rs generalizing b with
  | nil => rfl
  | cons r rest ih =>
    rw [List.forIn_cons]
    exact ih (resolveRead r b).2

theorem finish_apply (body : List Stmt) (b : Builder) : (finish body b).1 = (resolveAll b.reads.toList b).tree body := by
  unfold finish
  simp only [← Array.forIn_toList]
  exact congrArg (fun p => p.2.tree body) (forIn_resolveRead b.reads.toList b)

theorem Names.count_waiting (h : b.Names pending) {id : ExprId} (hid : id ∈ pending)
    (kind : UsageKind) : b.allUsages.count ⟨some id, kind⟩ = 0 := by
  refine List.count_eq_zero.2 fun hmem => ?_
  obtain ⟨data, hdata, hu⟩ := List.mem_flatMap.1 hmem
  obtain ⟨i, hi⟩ := Array.mem_iff_getElem?.1 (Array.mem_toList_iff.1 hdata)
  have husage : (⟨some id, kind⟩ : Usage) ∈ b.usages ⟨i⟩ := by
    rw [Builder.usages, Array.getD_eq_getD_getElem?, hi]
    exact hu
  have hbound := h.usages ⟨i⟩ _ husage id rfl
  rw [(h.waiting id hid).2] at hbound
  cases hbound

theorem bound_tree (h : b.Names []) (hsymbols : (b.symbolsOf moduleScope :: b.locals).flatten.Nodup) {reads : List ExprId}
    (hreads : ∀ id ∈ reads, b.allUsages.count ⟨some id, .read⟩ = 1) (body : List Stmt) : (b.tree body).Bound reads := by
  have hsymbolOf : ∀ e : Expr, e.isName → (b.tree body).symbolOf? e = b.symbolAt e.id :=
    fun e he => Tree.symbolOf?_of_isName _ he
  obtain ⟨hnodup, hdisjoint⟩ := List.nodup_flatten.1 hsymbols
  constructor
  case id_eq => exact h.id_eq
  case names =>
    intro e he hname
    obtain ⟨i, hi⟩ := Array.mem_iff_getElem?.1 he
    have hplace : b.HasName e.id := ⟨e, (h.id_eq i e hi).symm ▸ hi, hname⟩
    rw [hsymbolOf e hname]
    cases hs : b.symbolAt e.id with
    | none => exact absurd (h.unbound _ hplace hs) List.not_mem_nil
    | some s => exact ⟨s, rfl, (h.bound _ s hs).2⟩
  case usages =>
    intro s u hu id hid
    have hbound := h.usages s u hu id hid
    obtain ⟨⟨e, he, hname⟩, -⟩ := h.bound id s hbound
    refine ⟨e, he, hname, ?_⟩
    rw [hsymbolOf e hname, h.id_eq _ e he]
    exact hbound
  case reads => exact hreads
  case children => exact h.children
  case nodup => exact hnodup
  case disjoint => exact hdisjoint

theorem Building.finish (h : b.Building) (hactive : b.active = [moduleScope]) (body : List Stmt) :
    (finish body b).1.Bound b.readIds := by
  obtain ⟨hn, hresolves⟩ := resolveAll_sound h.names h.scopes
  rw [finish_apply]
  refine bound_tree hn ?_ (fun id hid => ?_) body
  -- Only the module's scope is open, so its symbols and those of the functions are all that scopes
  -- own.
  · have hlocals : (resolveAll b.reads.toList b).locals = b.locals := by rw [locals, locals, hresolves.stmts_eq]
    have hmodule : (resolveAll b.reads.toList b).symbolsOf moduleScope = b.symbolsOf moduleScope := by
      rw [symbolsOf, symbolsOf, scope, scope, hresolves.scopes_eq]
    have howned : b.owned = b.locals.flatten ++ b.symbolsOf moduleScope := by
      rw [owned, hactive, List.map_singleton, List.flatten_singleton]
    rw [hlocals, hmodule, List.flatten_cons]
    exact List.perm_append_comm.nodup_iff.1 (howned ▸ h.scopes.owned)
  -- A name that waited had no use, and is resolved once.
  · have hinjective : Function.Injective fun id : ExprId => (⟨some id, .read⟩ : Usage) := fun x y hxy => by
      simpa using hxy
    rw [hresolves.usages_perm.count_eq, List.count_append, h.names.count_waiting hid, Nat.add_zero]
    exact (List.count_map_of_injective _ _ hinjective id).trans (List.count_eq_one_of_mem h.names.nodup hid)

/-- Names, symbols and scopes agree in the tree that any sequence of calls ends with. -/
theorem bound_finish {path : String} {isPackage : Bool} {created : List ExprId} (h : Calls (start path isPackage) created b)
    (body : List Stmt) : (finish body b).1.Bound created := by
  obtain ⟨hbuilding, hactive, hreads⟩ := h.advances (building_start path isPackage)
  have hcreated : b.readIds = created := hreads
  rw [← hcreated]
  exact hbuilding.finish hactive body

/-- A function redirects `x` to the module and reads a function that follows, a class reads a name
of the function around it, and the function reads a name that only the class has. -/
def readsAcrossScopes : Source.Module where
  path := "m"
  body := [
    .assign [.target "x"] (.integer 0),
    .functionDef { name := "f", parameters := [{ name := "p", default := some (.read "x") }] } [
      .globalStmt ["x"],
      .compound (.target "x") .add (.read "p"),
      .assign [.target "y"] (.call (.read "g") [.read "y"]),
      .classDef { name := "C" } [.assign [.target "z"] (.read "y")],
      .returnStmt (some (.read "z"))],
    .functionDef { name := "g" } [.tryStmt [.passStmt] [.mk (some (.read "E")) (some "x") []] [] []]]

theorem bound_finish_readsAcrossScopes :
    Calls (start readsAcrossScopes.path readsAcrossScopes.isPackage)
    [⟨2⟩, ⟨4⟩, ⟨6⟩, ⟨7⟩, ⟨10⟩, ⟨11⟩, ⟨12⟩] readsAcrossScopes.built.2 ∧
      readsAcrossScopes.bind.Bound [⟨2⟩, ⟨4⟩, ⟨6⟩, ⟨7⟩, ⟨10⟩, ⟨11⟩, ⟨12⟩] := by
  have hreads : readsAcrossScopes.built.2.readIds = [⟨2⟩, ⟨4⟩, ⟨6⟩, ⟨7⟩, ⟨10⟩, ⟨11⟩, ⟨12⟩] := by decide +kernel
  have hcalls := readsAcrossScopes.calls_built
  rw [hreads] at hcalls
  refine ⟨hcalls, ?_⟩
  rw [readsAcrossScopes.bind_eq]
  exact bound_finish hcalls _

end Builder

end PythonTypes
