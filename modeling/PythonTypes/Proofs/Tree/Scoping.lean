import PythonTypes.Proofs.Tree.Binding

/-!
# What reads refer to

A read refers to what its name is bound to, once everything is built, in the first scope around it
that has the name, where a class counts only for what stands in it directly. If no scope has the
name then the read refers to the one builtin of that name. Bindings that are made after the read
count as well (`reads_resolve_by_scope`).
-/

set_option autoImplicit false

namespace PythonTypes.Builder

variable {b b' : Builder} {k : ScopeId} {name : String} {r : PendingRead} {s : SymbolId}

/-- Calls that lead from one builder to another make the read `r`, inside the scopes that are open
there. -/
inductive Reads : Builder → PendingRead → Builder → Prop where
  | here (b : Builder) (name : String) : Reads b ⟨(read name b).1.id, name, b.active⟩ (read name b).2
  | before {b₁ b₂ b₃ : Builder} {created : List ExprId} {r : PendingRead} : Calls b₁ created b₂ →
      Reads b₂ r b₃ → Reads b₁ r b₃
  | after {b₁ b₂ b₃ : Builder} {created : List ExprId} {r : PendingRead} : Reads b₁ r b₂ → Calls b₂ created b₃ → Reads b₁ r b₃
  | functionDef (b : Builder) (name : String) (decorators : List Expr) (isAsync : Bool) {content : BuildM FunctionContent}
      {r : PendingRead} : Reads (b.inFunction name) r (content (b.inFunction name)).2 →
      Reads b r (functionDef name decorators isAsync content b).2
  | classDef (b : Builder) (name : String) (bases decorators : List Expr) {content : BuildM (List Stmt)} {r : PendingRead} :
      Reads (b.inClass name) r (content (b.inClass name)).2 → Reads b r (classDef name bases decorators content b).2

theorem Reads.exists_calls (h : Reads b r b') : ∃ created, Calls b created b' ∧ (b.Building → r ∈ b'.reads) := by
  induction h with
  | here b name => exact ⟨_, .read b name, fun _ => Array.mem_push_self⟩
  | before hcalls _ ih =>
    obtain ⟨_, h, hr⟩ := ih
    exact ⟨_, .trans hcalls h, fun hb => hr (hcalls.advances hb).building⟩
  | after _ hcalls ih =>
    obtain ⟨_, h, hr⟩ := ih
    exact ⟨_, .trans h hcalls, fun hb => (hcalls.advances (h.advances hb).building).reads _ (hr hb)⟩
  | functionDef b name decorators isAsync _ ih =>
    obtain ⟨_, h, hr⟩ := ih
    exact ⟨_, .functionDef b name decorators isAsync h, fun hb => hr ((Quiet.declare name _ _ b hb).building.enter _ _)⟩
  | classDef b name bases decorators _ ih =>
    obtain ⟨_, h, hr⟩ := ih
    exact ⟨_, .classDef b name bases decorators h, fun hb => hr ((Quiet.declare name _ _ b hb).building.enter _ _)⟩

/-! ## Looking names up -/

/-- The scopes that count for a read inside the given ones: the innermost, and those around it that
are no classes. -/
def visible (b : Builder) (ks : List ScopeId) : List ScopeId :=
  ks.take 1 ++ (ks.drop 1).filter fun k => (b.scope k).kind ≠ .ofClass

/-- Whether a scope declares the name global or binds it. -/
def has (b : Builder) (name : String) (k : ScopeId) : Bool :=
  (b.scope k).globals.contains name || (b.scope k).bindings.contains name

/-- What a scope that has the name binds it to, or the module if it is declared global there. -/
def meaning? (b : Builder) (name : String) (k : ScopeId) : Option SymbolId :=
  (b.scope (if (b.scope k).globals.contains name then moduleScope else k)).bindings.get? name

theorem lookup_cons {innermost : Bool} (h : (b.scope k).kind = .ofClass → innermost = true) (outer : List ScopeId) :
    b.lookup name innermost (k :: outer) = if b.has name k then b.meaning? name k else b.lookup name false outer := by
  have hcounts : ¬ ((b.scope k).kind = .ofClass ∧ innermost = false) := fun hskip => by simp_all
  rw [lookup, if_neg hcounts, has, meaning?, OrderedMap.contains]
  cases (b.scope k).globals.contains name with
  | true => rfl
  | false => cases hget : (b.scope k).bindings.get? name <;> simp [hget]

theorem lookup_outer (b : Builder) (name : String) (ks : List ScopeId) :
    b.lookup name false ks =
    ((ks.filter fun k => (b.scope k).kind ≠ .ofClass).find? (b.has name)).bind
    (b.meaning? name) := by
  induction ks with
  | nil => rfl
  | cons k outer ih =>
    by_cases hclass : (b.scope k).kind = .ofClass
    · rw [lookup, if_pos ⟨hclass, rfl⟩, ih, List.filter_cons_of_neg (by simp [hclass])]
    · rw [lookup_cons fun h => absurd h hclass, List.filter_cons_of_pos (by simp [hclass]), List.find?_cons, ih]
      cases b.has name k <;> rfl

theorem lookup_eq (b : Builder) (name : String) (ks : List ScopeId) :
    b.lookup name true ks = ((b.visible ks).find? (b.has name)).bind (b.meaning? name) := by
  cases ks with
  | nil => rfl
  | cons k outer =>
    rw [lookup_cons fun _ => rfl, lookup_outer, visible, List.take_succ_cons, List.take_zero,
      List.singleton_append, List.find?_cons, List.drop_succ_cons, List.drop_zero]
    cases b.has name k <;> rfl

theorem Scopes.exists_meaning (h : b.Scopes) (hk : b.has name k) : ∃ s, b.meaning? name k = some s := by
  refine Option.isSome_iff_exists.1 ?_
  rw [has] at hk
  rw [meaning?]
  split
  · rename_i hglobal
    exact h.globals k name (List.contains_iff_mem.1 hglobal)
  · simp_all [OrderedMap.contains]

theorem Scopes.innermost_of_class (h : b.Scopes) {ks : List ScopeId} (hk : k ∈ b.visible ks) (hs : b.meaning? name k = some s)
    {c : ScopeId} (hclass : (b.scope c).kind = .ofClass) (hc : s ∈ b.symbolsOf c) : ks.head? = some c := by
  have howner := h.apart _ c s (OrderedMap.mem_values_iff.2 ⟨name, hs⟩) hc
  split at howner
  · rw [← howner, h.kind] at hclass
    cases hclass
  · subst howner
    cases ks with
    | nil => cases hk
    | cons k' outer => simp_all [visible]

/-! ## Resolving reads -/

/-- Whatever calls build a module, every read refers to what its name means in the first scope
around it that has the name in the end, and to the one builtin of that name if there is none. The
classes around a read do not count unless it stands directly in one, and a symbol of a class is what
names refer to that stand directly in it. -/
theorem reads_resolve_by_scope (path : String) (isPackage : Bool) (b : Builder) (body : List Stmt) :
    ∃ builtinOf : String → SymbolId, ∀ r, Reads (start path isPackage) r b →
      let t := (finish body b).1
      ∃ s, t.symbolOf? (.name r.expr r.name) = some s ∧
        (match (b.visible r.scopes).find? (b.has r.name) with
          | some k => b.meaning? r.name k = some s
          | none =>
            s = builtinOf r.name ∧ (t.symbol s).kind = .builtin ∧ (t.symbol s).name = r.name ∧ ∀ k,
              s ∉ b.symbolsOf k) ∧
        ∀ c, (b.scope c).kind = .ofClass → s ∈ b.symbolsOf c → r.scopes.head? = some c := by
  rw [finish_apply]
  generalize hb' : resolveAll b.reads.toList b = b'
  refine ⟨fun name => (b'.builtins.get? name).getD ⟨0⟩, fun r hr => ?_⟩
  obtain ⟨_, hcalls, hreads⟩ := hr.exists_calls
  have hstart := building_start path isPackage
  obtain ⟨⟨hnames, hscopes⟩, -, -, -, hbuiltins⟩ := hcalls.advances hstart
  have hresolves : b.Resolves b.reads.toList b' := hb' ▸ (resolveAll_sound hnames hscopes).2
  obtain ⟨s, hs, hrefers⟩ := hresolves.settled r (Array.mem_toList_iff.2 (hreads hstart))
  rw [lookup_eq] at hrefers
  refine ⟨s, hs, ?_⟩
  cases hfind : (b.visible r.scopes).find? (b.has r.name) with
  | some k =>
    obtain ⟨s', hs'⟩ := hscopes.exists_meaning (List.find?_some hfind)
    rw [hfind, Option.bind_some, hs'] at hrefers
    obtain rfl : s' = s := Option.some.inj hrefers
    exact ⟨hs', fun c hclass hc => hscopes.innermost_of_class (List.mem_of_find?_eq_some hfind) hs' hclass hc⟩
  | none =>
    rw [hfind] at hrefers
    have hfrom := hresolves.builtinsFrom b.symbols.size ⟨Nat.le_refl _, by simp [hbuiltins, start]⟩
    obtain ⟨hnew, data, hdata, hkind, hname⟩ := hfrom.2 r.name s hrefers
    have hsymbol : (b'.tree body).symbol s = data := by
      rw [Tree.symbol, tree, Array.getD_eq_getD_getElem?, hdata, Option.getD_some]
    have hnot : ∀ k, s ∉ b.symbolsOf k := fun k hk => absurd (hscopes.symbols k s hk) (Nat.not_lt.2 hnew)
    have hbuiltin : s = (b'.builtins.get? r.name).getD ⟨0⟩ := (congrArg (·.getD ⟨0⟩) hrefers).symm
    exact ⟨⟨hbuiltin, hsymbol ▸ hkind, hsymbol ▸ hname, hnot⟩, fun c _ hc => absurd hc (hnot c)⟩

/-- A method that reads `x`. -/
def readsName : BuildM FunctionContent := fun b => (⟨[], none, []⟩, (read "x" b).2)

/-- A class that binds `x`, with the method. -/
def hidesName : BuildM (List Stmt) := fun b => ([], (functionDef "f" [] false readsName (target "x" b).2).2)

/-- The module binds `x` behind the class, and this is what the method reads. -/
theorem reads_resolve_by_scope_hidesName :
    let b := (target "x" (classDef "C" [] [] hidesName (start "m" false)).2).2
    Reads (start "m" false) ⟨⟨1⟩, "x", [⟨2⟩, ⟨1⟩, ⟨0⟩]⟩ b ∧
      (finish [] b).1.symbolOf? (.name ⟨1⟩ "x") = some ⟨3⟩ ∧ ⟨3⟩ ∈ b.symbolsOf moduleScope := by
  intro b
  let inner := (target "x" ((start "m" false).inClass "C")).2.inFunction "f"
  have hmethod : Reads inner ⟨(read "x" inner).1.id, "x", inner.active⟩ (readsName inner).2 := .here inner "x"
  have hclass : Reads ((start "m" false).inClass "C") _ (hidesName ((start "m" false).inClass "C")).2 :=
    .before (.target _ "x") (.functionDef _ "f" [] false hmethod)
  have hreads : Reads (start "m" false) ⟨(read "x" inner).1.id, "x", inner.active⟩ b :=
    .after (.classDef _ "C" [] [] hclass) (.target _ "x")
  rw [show (read "x" inner).1.id = ⟨1⟩ by decide +kernel, show inner.active = [⟨2⟩, ⟨1⟩, ⟨0⟩] by decide +kernel] at hreads
  obtain ⟨_, hresolve⟩ := reads_resolve_by_scope "m" false b []
  obtain ⟨s, hs, hfound, -⟩ := hresolve _ hreads
  have hfind : (b.visible [⟨2⟩, ⟨1⟩, ⟨0⟩]).find? (b.has "x") = some moduleScope := by decide +kernel
  have hmeaning : b.meaning? "x" moduleScope = some ⟨3⟩ := by decide +kernel
  rw [hfind] at hfound
  obtain rfl : s = ⟨3⟩ := Option.some.inj (hfound.symm.trans hmeaning)
  exact ⟨hreads, hs, by decide +kernel⟩

end PythonTypes.Builder
