import PythonTypes.Inference.Dependency
import PythonTypes.Inference.Typing
import PythonTypes.Proofs.Table.Operation

/-!
# Typing expressions, again

To type an expression is to type its parts and to settle its type from theirs (`typeOf_eq`). Each of
these steps moves the table on, and gives a known type. If nothing is resolved meanwhile, an
expression that is neither a name nor a member access gets the same type whenever the parts that
count get the same types (`typeOf_agree`); in particular, an expression that is typed again in the
same environment gets the same type again (`typeOf_again`).
-/

set_option autoImplicit false

namespace PythonTypes

namespace Expr

theorem induction_children {P : Expr → Prop} (h : ∀ e, (∀ c ∈ e.children, P c) → P e) (e : Expr) : P e := by
  have hweight : ∀ {es : List Expr} {c : Expr}, c ∈ es → c.weight ≤ weightAll es := by
    intro es c hc
    induction es with
    | nil => cases hc
    | cons x rest ih =>
      grind [weightAll]
  have hall : ∀ n e, weight e < n → P e := by
    intro n
    induction n with
    | zero =>
      intro e he
      omega
    | succ n ih =>
      grind [weight_eq_children]
  exact hall (e.weight + 1) e (by omega)

/-- The positions of the parts whose types count for the type of an expression. -/
def operands : Expr → List Nat
  | .qualified .. => [0]
  | .call .. => [0]
  | .binary .. => [0, 1]
  | .unary .. => [0]
  | .conditional .. => [1, 2]
  | .subscript .. => [0]
  | .await .. => [0]
  | .paren .. => [0]
  | _ => []

/-- A name or a member access. -/
def isLeaf : Expr → Bool
  | .name .. => true
  | .qualified .. => true
  | _ => false

end Expr

/-- Every type that the environment gives is known. -/
structure Environment.KnownIn (env : Environment) (t : Table) : Prop where
  symbolType : ∀ symbol, t.store.Known (env.symbolType symbol)
  member : ∀ e x, env.member? e = some x → t.store.Known x

theorem Knowledge.known_symbolType {k : Knowledge} {t : Table} (ht : t.AtRest)
    (h : ∀ symbol x, k.symbolTypes.get? symbol = some x → t.store.Known x) (symbol : SymbolId) :
    t.store.Known (k.symbolType symbol) := by
  unfold symbolType
  cases hget : k.symbolTypes.get? symbol with
  | none => exact ht.store.unknown_plain.1
  | some x => exact h symbol x hget

namespace Typing

variable {α β : Type} {s s' s'' r : Typing} {env env' : Environment} {tree : Tree}
variable {e : Expr} {ts : List TypeId} {σ σ' : Typing} {q : TypeId} {id : ExprId} {name : String}

/-- Every type on record is known. -/
structure KnownRecord (s : Typing) : Prop where
  members : ∀ e x, (e, some x) ∈ s.members.toList → s.table.store.Known x
  bindings : ∀ b ∈ s.bindings.toList, s.table.store.Known b.type

theorem KnownRecord.moves (h : s.KnownRecord) (hs : s.table.Sound) (hmoves : s.table.Moves s'.table)
    (hmembers : s'.members = s.members) (hbindings : s'.bindings = s.bindings) : s'.KnownRecord := by
  refine ⟨fun e x hx => ?_, fun b hb => ?_⟩
  · grind [Table.Moves.known, members]
  · grind [Table.Moves.known, bindings]

/-- The table moves on, and the members that are found are recorded behind the others. -/
structure Reaches (s s' : Typing) : Prop where
  moves : s.table.Moves s'.table
  members : s.members.toList <+: s'.members.toList
  record : s.table.Sound → s.KnownRecord → s'.KnownRecord

theorem Reaches.of_moves (h : s.table.Moves s'.table) (hmembers : s'.members = s.members)
    (hbindings : s'.bindings = s.bindings) : s.Reaches s' :=
  ⟨h, by rw [hmembers], fun hs hknown => hknown.moves hs h hmembers hbindings⟩

theorem Reaches.refl (hs : s.table.Sound) : s.Reaches s := .of_moves (.refl hs) rfl rfl

theorem Reaches.trans (h : s.Reaches s') (hs : s.table.Sound) (h' : s'.Reaches s'') : s.Reaches s'' :=
  ⟨h.moves.trans hs h'.moves, h.members.trans h'.members,
    fun hs hknown => h'.record (h.moves.proceeds.carries hs).1 (h.record hs hknown)⟩

/-- What was recorded between two points. -/
def found (s s' : Typing) : List (ExprId × Option TypeId) := s'.members.toList.drop s.members.size

theorem Reaches.members_eq (h : s.Reaches s') : s'.members.toList = s.members.toList ++ found s s' := by
  obtain ⟨rest, hrest⟩ := h.members
  grind [found]

/-- Ready for typing in an environment. -/
structure Ready (env : Environment) (s : Typing) : Prop where
  atRest : s.table.AtRest
  env : env.KnownIn s.table

theorem Ready.reaches (h : Ready env s) (h' : s.Reaches s') : Ready env s' :=
  ⟨h'.moves.atRest h.atRest, fun symbol => h'.moves.known h.atRest.toSound (h.env.symbolType symbol),
    fun e x hx => h'.moves.known h.atRest.toSound (h.env.member e x hx)⟩

theorem recorded_state (e : ExprId) (action : TypingM TypeId) (s : Typing) :
    (recorded e action s).2.table = (action s).2.table ∧ (recorded e action s).2.members = (action s).2.members ∧
      (recorded e action s).2.bindings = (action s).2.bindings := by
  show (if (action s).2.recording then _ else (action s).2 : Typing).table = _ ∧
    (if (action s).2.recording then _ else (action s).2 : Typing).members = _ ∧
      (if (action s).2.recording then _ else (action s).2 : Typing).bindings = _
  split <;> exact ⟨rfl, rfl, rfl⟩

theorem reaches_recorded {e : ExprId} {action : TypingM TypeId} (hs : (action s).2.table.Sound) :
    (action s).2.Reaches (recorded e action s).2 := by
  grind [recorded_state, Reaches.of_moves, Table.Moves.refl]

/-- The action moves on to a point at which its answer has a property. -/
structure Leads (s : Typing) (action : TypingM α) (Q : α → Table → Prop) : Prop where
  reaches : s.Reaches (action s).2
  answer : Q (action s).1 (action s).2.table

namespace Leads

theorem pure {a : α} {Q : α → Table → Prop} (hs : s.table.Sound) (ha : Q a s.table) :
    Leads s (Pure.pure a) Q := ⟨.refl hs, ha⟩

theorem bind {action : TypingM α} {f : α → TypingM β} {P : α → Table → Prop} {Q : β → Table → Prop} (hs : s.table.Sound)
    (h : Leads s action P) (hf : ∀ a s', s.Reaches s' → P a s'.table → Leads s' (f a) Q) : Leads s (action >>= f) Q :=
  have hnext := hf _ _ h.reaches h.answer
  ⟨h.reaches.trans hs hnext.reaches, hnext.answer⟩

theorem get_bind {f : Typing → TypingM β} {Q : β → Table → Prop} (h : Leads s (f s) Q) :
    Leads s (get >>= f) Q := ⟨h.reaches, h.answer⟩

theorem onTable {action : TableM α} {Q : α → Table → Prop} (h : s.table.Repeats (liftM action) (liftM action) Q) :
    Leads s (Typing.onTable action) Q := ⟨.of_moves h.moves rfl rfl, h.run.2.1⟩

theorem computes {action : TableM TypeId} (h : s.table.Computes action) :
    Leads s (Typing.onTable action) fun x t => t.store.Known x := onTable h

theorem recorded (e : ExprId) {action : TypingM TypeId} {Q : TypeId → Table → Prop}
    (hs : s.table.Sound) (h : Leads s action Q) : Leads s (Typing.recorded e action) Q := by
  refine ⟨h.reaches.trans hs (reaches_recorded (h.reaches.moves.proceeds.carries hs).1), ?_⟩
  rw [(recorded_state e action s).1]
  exact h.answer

end Leads

/-! ## One step after the parts -/

/-- The type of an expression whose parts have the given types. -/
def settle (tree : Tree) (env : Environment) : Expr → List TypeId → TypingM TypeId
  | .name id _, _ => return ((tree.bindings.getD id.index none).map env.symbolType).getD .unknown
  | .qualified id _ name, ts => do
    let found ← memberOf (ts.getD 0 .unknown) name
    memberType env id found
  | .call _ _ _, ts => onTable (Table.callResult (ts.getD 0 .unknown))
  | .string _ _, _ => onTable (Table.builtinInstance "str")
  | .integer _ _, _ => onTable (Table.builtinInstance "int")
  | .decimal _ _, _ => onTable (Table.builtinInstance "float")
  | .boolean _ _, _ => onTable (Table.builtinInstance "bool")
  | .noneLiteral _, _ => onTable (Table.builtinInstance "NoneType")
  | .binary _ op _ _, ts => onTable (Table.binaryResult op (ts.getD 0 .unknown) (ts.getD 1 .unknown))
  | .unary _ .not _, _ => onTable (Table.builtinInstance "bool")
  | .unary _ _ _, ts => return ts.getD 0 .unknown
  | .conditional _ _ _ _, ts => onTable (Table.onStore (TypeStore.union (ts.getD 1 .unknown) (ts.getD 2 .unknown)))
  | .display _ kind _, _ => onTable (Table.builtinInstance kind.className)
  | .subscript _ _ _, ts => onTable (Table.methodResult (ts.getD 0 .unknown) "__getitem__")
  | .await _ _, _ => return .unknown
  | .paren _ _, ts => return ts.getD 0 .unknown

/-- The types of expressions, from left to right. -/
def typeEach (tree : Tree) (env : Environment) (es : List Expr) : TypingM (List TypeId) := es.mapM (typeOf tree env)

theorem typeAll_eq (es : List Expr) : typeAll tree env es = (do let _ ← typeEach tree env es) := by
  unfold typeEach
  induction es with
  | nil => rfl
  | cons e rest ih =>
    rw [typeAll, ih, List.mapM_cons]
    rfl

theorem typeOf_eq (e : Expr) :
    typeOf tree env e = recorded e.id (do let ts ← typeEach tree env e.children; settle tree env e ts) := by
  cases e with
  | unary id op operand => cases op <;> simp [typeOf, typeEach, settle, Expr.children, Expr.id]
  | _ => simp [typeOf, typeAll_eq, typeEach, settle, Expr.children, Expr.id]

theorem settle_congr {us : List TypeId} (h : ∀ i ∈ e.operands, us.getD i .unknown = ts.getD i .unknown) :
    settle tree env e us = settle tree env e ts := by
  cases e with
  | unary id op operand => cases op <;> simp_all [settle, Expr.operands]
  | _ => simp_all [settle, Expr.operands]

theorem settle_env (he : e.isLeaf = false) (ts : List TypeId) : settle tree env' e ts = settle tree env e ts := by
  cases e with
  | name id text => cases he
  | qualified id qualifier name => cases he
  | unary id op operand => cases op <;> rfl
  | _ => rfl

section

variable (hs : Ready env s)

include hs

theorem Ready.leads_memberOf (hq : s.table.store.Known q) (name : String) :
    Leads s (memberOf q name) fun r t => ∀ x, r = some x → t.store.Known x := by
  refine .get_bind ?_
  split
  · exact .pure hs.atRest.toSound (by simp)
  · refine .onTable ((hs.atRest.repeats_member hq name).imp ?_)
    rintro _ t h x rfl
    exact h.1

theorem Ready.leads_memberType (e : ExprId) {found : Option TypeId}
    (hfound : ∀ x, found = some x → s.table.store.Known x) : Leads s (memberType env e found) fun x t => t.store.Known x := by
  have hrecord : Leads s (recordMember e found) fun _ t => t = s.table := by
    refine ⟨⟨.refl hs.atRest.toSound, ?_, fun _ hknown => ⟨fun e' x hx => ?_, hknown.bindings⟩⟩, rfl⟩
    · show s.members.toList <+: (s.members.push (e, found)).toList
      simp
    · rw [show (recordMember e found s).2.members = s.members.push (e, found) from rfl, Array.toList_push] at hx
      rcases List.mem_append.1 hx with hx | hx
      · exact hknown.members e' x hx
      · exact hfound x (Prod.mk.inj (List.mem_singleton.1 hx)).2.symm
  refine hrecord.bind hs.atRest.toSound fun _ s' hreaches htable => ?_
  have hs' := hs.reaches hreaches
  cases hmember : found.or (env.member? e) with
  | none => exact .pure hs'.atRest.toSound hs'.atRest.store.unknown_plain.1
  | some x =>
    refine .computes (hs'.atRest.computes_resolved ?_)
    rcases Option.or_eq_some_iff.1 hmember with h | ⟨-, h⟩
    · rw [htable]
      exact hfound x h
    · exact hs'.env.member e x h

/-- The type of an expression that is neither a name nor a member access is one that is known
already, or the table computes it. -/
theorem Ready.settle_eq (tree : Tree) (he : e.isLeaf = false) (hts : ∀ i, s.table.store.Known (ts.getD i .unknown)) :
    (∃ x, settle tree env e ts = pure x ∧ s.table.store.Known x) ∨
      ∃ action, settle tree env e ts = onTable action ∧ s.table.Computes action := by
  have hbuiltin := fun name => hs.atRest.computes_builtinInstance name
  cases e with
  | name id text => cases he
  | qualified id qualifier name => cases he
  | call id callee arguments => exact .inr ⟨_, rfl, hs.atRest.computes_callResult (hts 0)⟩
  | binary id op left right => exact .inr ⟨_, rfl, hs.atRest.computes_binaryResult op (hts 0) (hts 1)⟩
  | unary id op operand =>
    cases op with
    | not => exact .inr ⟨_, rfl, hbuiltin "bool"⟩
    | _ => exact .inl ⟨_, rfl, hts 0⟩
  | conditional id test thenValue elseValue => exact .inr ⟨_, rfl, hs.atRest.computes_union (hts 1) (hts 2)⟩
  | subscript id value index => exact .inr ⟨_, rfl, hs.atRest.computes_methodResult (hts 0) _⟩
  | await id operand => exact .inl ⟨_, rfl, hs.atRest.store.unknown_plain.1⟩
  | paren id inner => exact .inl ⟨_, rfl, hts 0⟩
  | _ => exact .inr ⟨_, rfl, hbuiltin _⟩

theorem Ready.leads_settle (tree : Tree) (e : Expr) (hts : ∀ i, s.table.store.Known (ts.getD i .unknown)) :
    Leads s (settle tree env e ts) fun x t => t.store.Known x := by
  by_cases he : e.isLeaf = false
  · rcases hs.settle_eq tree he hts with ⟨x, heq, hx⟩ | ⟨action, heq, haction⟩ <;> rw [heq]
    · exact .pure hs.atRest.toSound hx
    · exact .computes haction
  cases e with
  | name id text =>
    refine .pure hs.atRest.toSound ?_
    cases tree.bindings.getD id.index none with
    | none => exact hs.atRest.store.unknown_plain.1
    | some symbol => exact hs.env.symbolType symbol
  | qualified id qualifier name =>
    exact (hs.leads_memberOf (hts 0) name).bind hs.atRest.toSound fun found s' hreaches hfound =>
      (hs.reaches hreaches).leads_memberType id hfound
  | _ => exact absurd rfl he

theorem Ready.leads_each {es : List Expr}
    (h : ∀ e ∈ es, ∀ s, Ready env s → Leads s (typeOf tree env e) fun x t => t.store.Known x) :
    Leads s (typeEach tree env es) fun ts t => ∀ i, t.store.Known (ts.getD i .unknown) := by
  unfold typeEach
  induction es generalizing s with
  | nil =>
    rw [List.mapM_nil]
    exact .pure hs.atRest.toSound fun i => by simpa using hs.atRest.store.unknown_plain.1
  | cons e rest ih =>
    rw [List.mapM_cons]
    refine (h e (by simp) s hs).bind hs.atRest.toSound fun x s1 h1 hx => ?_
    have hs1 := hs.reaches h1
    refine (ih hs1 fun e he => h e (by simp [he])).bind hs1.atRest.toSound fun xs s2 h2 hxs => ?_
    refine .pure (hs1.reaches h2).atRest.toSound fun i => ?_
    cases i with
    | zero => exact h2.moves.known hs1.atRest.toSound hx
    | succ i => exact hxs i

theorem Ready.leads_typeOf (tree : Tree) (e : Expr) : Leads s (typeOf tree env e) fun x t => t.store.Known x := by
  induction e using Expr.induction_children generalizing s with
  | h e ih =>
    rw [typeOf_eq]
    refine .recorded e.id hs.atRest.toSound
      ((hs.leads_each fun c hc s hs => ih c hc hs).bind hs.atRest.toSound fun ts s' hreaches hts => ?_)
    exact (hs.reaches hreaches).leads_settle tree e hts

theorem Ready.leads_typeEach (tree : Tree) (es : List Expr) :
    Leads s (typeEach tree env es) fun ts t => ∀ i, t.store.Known (ts.getD i .unknown) :=
  hs.leads_each fun e _ _ hs => hs.leads_typeOf tree e

end

/-! ## Two runs -/

/-- The step from `σ` to `σ'` is a stage of the way from `s` to `s'`. -/
structure Stage (s s' σ σ' : Typing) : Prop where
  before : s.Reaches σ
  within : σ.Reaches σ'
  after : σ'.Reaches s'

theorem Stage.trans {τ τ' : Typing} (h : Stage s s' σ σ') (hs : s.table.AtRest) (h' : Stage σ σ' τ τ') : Stage s s' τ τ' := by
  have hσ := h.before.moves.atRest hs
  have hτ := h'.before.moves.atRest hσ
  exact ⟨h.before.trans hs.toSound h'.before, h'.within, h'.after.trans (h'.within.moves.atRest hτ).toSound h.after⟩

theorem Stage.found_subset (h : Stage s s' σ σ') : found σ σ' ⊆ found s s' := by
  grind [before, after, found, Reaches.members_eq, within]

/-- Nothing but new types on the way from `s` to `s'`, from there to `r` and on to `r'`. -/
structure Undisturbed (s s' r r' : Typing) : Prop where
  first : s.table.Calm s'.table
  between : s'.table.Calm r.table
  second : r.table.Calm r'.table

theorem Undisturbed.parts {r' ρ ρ' : Typing} (h : Undisturbed s s' r r') (hs : s.table.AtRest) (hr : r.table.AtRest)
    (hpart : Stage s s' σ σ') (hpart' : Stage r r' ρ ρ') : Undisturbed σ σ' ρ ρ' := by
  have hsplit : ∀ {s s' σ σ' : Typing}, s.table.AtRest → Stage s s' σ σ' → s.table.Calm s'.table →
      s.table.Calm σ.table ∧ σ.table.Calm σ'.table ∧ σ'.table.Calm s'.table := by
    intro s s' σ σ' hs h hcalm
    have hσ := h.before.moves.atRest hs
    obtain ⟨h1, h2⟩ := h.before.moves.calm_parts hs.toSound (h.within.moves.trans hσ.toSound h.after.moves) hcalm
    exact ⟨h1, h.within.moves.calm_parts hσ.toSound h.after.moves h2⟩
  obtain ⟨-, hfirst, hafter⟩ := hsplit hs hpart h.first
  obtain ⟨hbefore, hsecond, -⟩ := hsplit hr hpart' h.second
  exact ⟨hfirst, (hafter.trans h.between).trans hbefore, hsecond⟩

theorem memberOf_apply (q : TypeId) (name : String) (s : Typing) :
    memberOf q name s = if s.table.store.isUnknown q then (none, s) else onTable (Table.member q name) s := by
  show (if s.table.store.isUnknown q then Pure.pure none else onTable (Table.member q name) : TypingM (Option TypeId)) s = _
  split <;> rfl

theorem Ready.memberOf_again (hs : Ready env s) (hq : s.table.store.Known q) (name : String)
    (h : Undisturbed s (memberOf q name s).2 r (memberOf q name r).2) : (memberOf q name r).1 = (memberOf q name s).1 := by
  have hunknown := ((h.first.trans h.between).carries hs.atRest.toSound).2.retains.isUnknown_form hq
  obtain ⟨hcalm, hr, -⟩ := h
  rw [memberOf_apply] at hcalm hr ⊢
  rw [memberOf_apply, hunknown]
  split
  · rfl
  · rename_i hknown
    rw [if_neg hknown] at hcalm hr
    exact (hs.atRest.repeats_member hq name).same hcalm hr

theorem memberType_apply (e : ExprId) (f : Option TypeId) (s : Typing) :
    memberType env e f s = match f.or (env.member? e) with
      | some x => onTable (Table.resolved x) { s with members := s.members.push (e, f) }
      | none => (.unknown, { s with members := s.members.push (e, f) }) := by
  unfold memberType
  cases f.or (env.member? e) <;> rfl

theorem members_memberType (e : ExprId) (f : Option TypeId) (s : Typing) :
    (memberType env e f s).2.members = s.members.push (e, f) := by
  rw [memberType_apply]
  cases f.or (env.member? e) <;> rfl

theorem Ready.memberType_again (hs : Ready env s) (e : ExprId) {f g : Option TypeId}
    (hf : ∀ x, f = some x → s.table.store.Known x)
    (hsame : g.or (env'.member? e) = f.or (env.member? e))
    (h : Undisturbed s (memberType env e f s).2 r (memberType env' e g r).2) :
    (memberType env' e g r).1 = (memberType env e f s).1 := by
  obtain ⟨hcalm, hr, -⟩ := h
  rw [memberType_apply] at hcalm hr ⊢
  rw [memberType_apply, hsame]
  cases hmember : f.or (env.member? e) with
  | none => rfl
  | some x =>
    rw [hmember] at hcalm hr
    have hx : s.table.store.Known x := by
      rcases Option.or_eq_some_iff.1 hmember with h | ⟨-, h⟩
      · exact hf x h
      · exact hs.env.member e x h
    exact (hs.atRest.computes_resolved hx).same hcalm hr

theorem Ready.settle_again (hs : Ready env s) (he : e.isLeaf = false) (hts : ∀ i, s.table.store.Known (ts.getD i .unknown))
    (h : Undisturbed s (settle tree env e ts s).2 r (settle tree env e ts r).2) :
    (settle tree env e ts r).1 = (settle tree env e ts s).1 := by
  rcases hs.settle_eq tree he hts with ⟨x, heq, -⟩ | ⟨action, heq, haction⟩ <;> rw [heq] at h ⊢
  · rfl
  · exact haction.same h.first h.between

theorem typeEach_cons (tree : Tree) (env : Environment) (e : Expr) (rest : List Expr) (s : Typing) :
    typeEach tree env (e :: rest) s =
      ((typeOf tree env e s).1 :: (typeEach tree env rest (typeOf tree env e s).2).1,
        (typeEach tree env rest (typeOf tree env e s).2).2) := by
  unfold typeEach
  rw [List.mapM_cons]
  rfl

/-- The parts at the positions with a property get the same types in two runs if each of them does
when its turn comes. -/
theorem Ready.typeEach_agree (hs : Ready env s) (hr : Ready env' r) (es : List Expr) {P : Nat → Prop}
    (h : ∀ i e, es[i]? = some e → P i → ∀ σ ρ, Ready env σ → Ready env' ρ →
      Stage s (typeEach tree env es s).2 σ (typeOf tree env e σ).2 →
        Stage r (typeEach tree env' es r).2 ρ (typeOf tree env' e ρ).2 →
      (typeOf tree env' e ρ).1 = (typeOf tree env e σ).1) (i : Nat) (hi : P i) :
    (typeEach tree env' es r).1.getD i .unknown = (typeEach tree env es s).1.getD i .unknown := by
  induction es generalizing s r P i with
  | nil => rfl
  | cons e rest ih =>
    have hfirst := hs.leads_typeOf tree e
    have hfirst' := hr.leads_typeOf tree e
    have hs1 := hs.reaches hfirst.reaches
    have hr1 := hr.reaches hfirst'.reaches
    simp only [typeEach_cons] at h ⊢
    cases i with
    | zero =>
      exact h 0 e rfl hi s r hs hr ⟨.refl hs.atRest.toSound, hfirst.reaches, (hs1.leads_typeEach tree rest).reaches⟩
        ⟨.refl hr.atRest.toSound, hfirst'.reaches, (hr1.leads_typeEach tree rest).reaches⟩
    | succ i =>
      refine ih (P := fun i => P (i + 1)) hs1 hr1 (fun j c hc hj σ ρ hσ hρ hpart hpart' => ?_) i hi
      exact h (j + 1) c hc hj σ ρ hσ hρ ⟨hfirst.reaches.trans hs.atRest.toSound hpart.before, hpart.within, hpart.after⟩
        ⟨hfirst'.reaches.trans hr.atRest.toSound hpart'.before, hpart'.within, hpart'.after⟩

theorem Ready.typeOf_parts (hs : Ready env s) (tree : Tree) (e : Expr) :
    ∃ ts s1, typeEach tree env e.children s = (ts, s1) ∧ Ready env s1 ∧ (∀ i, s1.table.store.Known (ts.getD i .unknown)) ∧
      Stage s (typeOf tree env e s).2 s s1 ∧ Stage s (typeOf tree env e s).2 s1 (settle tree env e ts s1).2 ∧
      (typeOf tree env e s).1 = (settle tree env e ts s1).1 := by
  have heach := hs.leads_typeEach tree e.children
  have hs1 := hs.reaches heach.reaches
  have hsettle := hs1.leads_settle tree e heach.answer
  have hrecorded := reaches_recorded (e := e.id) (hs1.reaches hsettle.reaches).atRest.toSound
  refine ⟨_, _, rfl, hs1, heach.answer, ?_⟩
  rw [typeOf_eq]
  exact ⟨⟨.refl hs.atRest.toSound, heach.reaches, hsettle.reaches.trans hs1.atRest.toSound hrecorded⟩,
    ⟨heach.reaches, hsettle.reaches, hrecorded⟩, rfl⟩

/-- If there are only new types, an expression that is neither a name nor a member access gets the
same type in two runs whenever the parts that count do. -/
theorem Ready.typeOf_agree (hs : Ready env s) (hr : Ready env' r) (he : e.isLeaf = false)
    (hquiet : Undisturbed s (typeOf tree env e s).2 r (typeOf tree env' e r).2)
    (h : ∀ i ∈ e.operands, ∀ c, e.children[i]? = some c → ∀ σ ρ, Ready env σ → Ready env' ρ →
      Stage s (typeOf tree env e s).2 σ (typeOf tree env c σ).2 →
        Stage r (typeOf tree env' e r).2 ρ (typeOf tree env' c ρ).2 →
      (typeOf tree env' c ρ).1 = (typeOf tree env c σ).1) : (typeOf tree env' e r).1 = (typeOf tree env e s).1 := by
  obtain ⟨ts, s1, heach, hs1, hts, hparts, hsettle, htype⟩ := hs.typeOf_parts tree e
  obtain ⟨us, r1, heach', hr1, -, hparts', hsettle', htype'⟩ := hr.typeOf_parts tree e
  have hsame : ∀ i ∈ e.operands, us.getD i .unknown = ts.getD i .unknown := by
    have hagree := hs.typeEach_agree hr e.children (P := (· ∈ e.operands)) fun i c hc hi σ ρ hσ hρ hpart hpart' => by
      rw [heach] at hpart
      grind [Stage.trans, atRest]
    rw [heach, heach'] at hagree
    exact hagree
  have hquiet1 := hquiet.parts hs.atRest hr.atRest hsettle hsettle'
  have haction : settle tree env' e us = settle tree env e ts := (settle_congr hsame).trans (settle_env he ts)
  rw [haction] at hquiet1 htype'
  grind [settle_again]

/-! ## Member accesses -/

theorem typeOf_qualified (id : ExprId) (q : Expr) (name : String) :
    typeOf tree env (.qualified id q name) = recorded id (do
      let f ← findMember tree env (.qualified id q name)
      memberType env id f) := by
  simp [typeOf, findMember]

section

variable (hs : Ready env s)

include hs

theorem Ready.leads_findMember (tree : Tree) (e : Expr) :
    Leads s (findMember tree env e) fun r t => ∀ x, r = some x → t.store.Known x := by
  unfold findMember
  split
  · exact (hs.leads_typeOf tree _).bind hs.atRest.toSound fun t s' hreaches ht => (hs.reaches hreaches).leads_memberOf ht _
  · exact .pure hs.atRest.toSound (by simp)

theorem Ready.qualified_parts (tree : Tree) (id : ExprId) (q : Expr) (name : String) :
    ∃ f s1, findMember tree env (.qualified id q name) s = (f, s1) ∧ Ready env s1 ∧
    (∀ x, f = some x → s1.table.store.Known x) ∧
      Stage s (typeOf tree env (.qualified id q name) s).2 s s1 ∧
      Stage s (typeOf tree env (.qualified id q name) s).2 s1 (memberType env id f s1).2 ∧
      (id, f) ∈ found s (typeOf tree env (.qualified id q name) s).2 ∧
      (typeOf tree env (.qualified id q name) s).1 = (memberType env id f s1).1 := by
  obtain ⟨f, s1, hrun⟩ : ∃ f s1, findMember tree env (.qualified id q name) s = (f, s1) := ⟨_, _, rfl⟩
  obtain ⟨hreaches, hf⟩ := hs.leads_findMember tree (.qualified id q name)
  rw [hrun] at hreaches hf
  have hs1 := hs.reaches hreaches
  have hmember := hs1.leads_memberType id hf
  have hrecorded := reaches_recorded (e := id) (hs1.reaches hmember.reaches).atRest.toSound
  have htyped : typeOf tree env (.qualified id q name) s = recorded id (memberType env id f) s1 := by
    rw [typeOf_qualified]
    show recorded id (memberType env id (findMember tree env (.qualified id q name) s).1)
      (findMember tree env (.qualified id q name) s).2 = _
    rw [hrun]
  rw [htyped]
  have hpart : Stage s (recorded id (memberType env id f) s1).2 s1 (memberType env id f s1).2 :=
    ⟨hreaches, hmember.reaches, hrecorded⟩
  refine ⟨f, s1, hrun, hs1, hf, ?_, hpart, hpart.found_subset ?_, rfl⟩
  · exact ⟨.refl hs.atRest.toSound, hreaches, hmember.reaches.trans hs1.atRest.toSound hrecorded⟩
  · unfold found
    rw [members_memberType]
    simp

theorem Ready.findMember_parts (tree : Tree) (id : ExprId) (q : Expr) (name : String) :
    Stage s (findMember tree env (.qualified id q name) s).2 s (typeOf tree env q s).2 ∧
      Stage s (findMember tree env (.qualified id q name) s).2 (typeOf tree env q s).2
        (memberOf (typeOf tree env q s).1 name (typeOf tree env q s).2).2 := by
  have hq := hs.leads_typeOf tree q
  have hs1 := hs.reaches hq.reaches
  have hmember := hs1.leads_memberOf hq.answer name
  exact ⟨⟨.refl hs.atRest.toSound, hq.reaches, hmember.reaches⟩,
    ⟨hq.reaches, hmember.reaches, .refl (hs1.reaches hmember.reaches).atRest.toSound⟩⟩

theorem Ready.findMember_agree (hr : Ready env' r) {q : Expr}
    (h : Undisturbed s (findMember tree env (.qualified id q name) s).2 r (findMember tree env' (.qualified id q name) r).2)
    (hsame : (typeOf tree env' q r).1 = (typeOf tree env q s).1) :
    (findMember tree env' (.qualified id q name) r).1 = (findMember tree env (.qualified id q name) s).1 := by
  have hquiet := h.parts hs.atRest hr.atRest (hs.findMember_parts tree id q name).2 (hr.findMember_parts tree id q name).2
  have hq := hs.leads_typeOf tree q
  show (memberOf (typeOf tree env' q r).1 name (typeOf tree env' q r).2).1 = _
  rw [hsame] at hquiet ⊢
  exact (hs.reaches hq.reaches).memberOf_again hq.answer name hquiet

theorem Ready.qualified_agree (hr : Ready env' r) {q : Expr}
    (h : Undisturbed s (typeOf tree env (.qualified id q name) s).2 r (typeOf tree env' (.qualified id q name) r).2)
    (hsame : Undisturbed s (findMember tree env (.qualified id q name) s).2 r
      (findMember tree env' (.qualified id q name) r).2 →
      (findMember tree env' (.qualified id q name) r).1.or (env'.member? id) =
        (findMember tree env (.qualified id q name) s).1.or (env.member? id)) :
    (typeOf tree env' (.qualified id q name) r).1 = (typeOf tree env (.qualified id q name) s).1 := by
  obtain ⟨f, s1, hfind, hs1, hf, hpart, hmember, -, htype⟩ := hs.qualified_parts tree id q name
  obtain ⟨g, r1, hfind', hr1, -, hpart', hmember', -, htype'⟩ := hr.qualified_parts tree id q name
  grind [memberType_again, Undisturbed.parts, atRest]

/-- An expression that is typed again in the same environment gets the same type. -/
theorem Ready.typeOf_again (hr : Ready env r) (e : Expr)
    (h : Undisturbed s (typeOf tree env e s).2 r (typeOf tree env e r).2) :
    (typeOf tree env e r).1 = (typeOf tree env e s).1 := by
  induction e using Expr.induction_children generalizing s r with
  | h e ih =>
    by_cases he : e.isLeaf = false
    · grind [typeOf_agree, Undisturbed.parts, atRest]
    · cases e with
      | name id text => rfl
      | qualified id q name =>
        refine hs.qualified_agree hr h fun hfind => ?_
        have hquiet := hfind.parts hs.atRest hr.atRest (hs.findMember_parts tree id q name).1
          (hr.findMember_parts tree id q name).1
        grind [Expr.children, findMember_agree]
      | _ => exact absurd rfl he

end

end Typing

end PythonTypes
