import PythonTypes.Inference.FlowSensitive
import PythonTypes.Proofs.Data.OrderedMap

/-!
# What a block binds

Typing an expression binds nothing. An element of a block binds its targets, and the state behind a
block is the state before it with these bindings made one after the other. While types are recorded,
the record has exactly those bindings (`executes_transfer`). Which variables they bind depends on
the block alone.
-/

set_option autoImplicit false

namespace PythonTypes

/-- The state with a binding made. -/
def Binding.applyTo (state : TypeState) (b : Binding) : TypeState :=
  match b.symbol with
  | some symbol => state.set symbol b.type
  | none => state

/-- After some bindings, a variable has the type of one of them, or else none of them binds it and
it is what it was. -/
theorem Binding.get?_foldl_applyTo (bindings : List Binding) (state : TypeState) {symbol : SymbolId}
    {t : TypeId} (h : (bindings.foldl Binding.applyTo state).get? symbol = some t) :
    (symbol ∉ bindings.filterMap Binding.symbol ∧ state.get? symbol = some t) ∨
      ∃ b ∈ bindings, b.symbol = some symbol ∧ b.type = t := by
  induction bindings generalizing state with
  | nil => exact .inl ⟨by simp, h⟩
  | cons b rest ih =>
    rcases ih (b.applyTo state) h with ⟨hrest, hget⟩ | ⟨b', hb', hbound⟩
    · unfold Binding.applyTo at hget
      cases hb : b.symbol with
      | none =>
        simp_all
      | some x =>
        have hget : (state.types.insert x b.type).get? symbol = some t := by rwa [hb] at hget
        rw [OrderedMap.get?_insert] at hget
        split at hget
        · simp_all
        · rename_i hx
          exact .inl ⟨by simp [List.filterMap_cons_some hb, hx, hrest], hget⟩
    · exact .inr ⟨b', by simp [hb'], hbound⟩

namespace Typing

variable {α β : Type}

/-- The action binds nothing, and neither starts nor stops recording. -/
def BindsNothing (action : TypingM α) : Prop :=
  ∀ s, (action s).2.bindings = s.bindings ∧ (action s).2.recording = s.recording

namespace BindsNothing

theorem pure (a : α) : BindsNothing (Pure.pure a : TypingM α) := fun _ => ⟨rfl, rfl⟩

theorem bind {action : TypingM α} {f : α → TypingM β} (h : BindsNothing action)
    (hf : ∀ a, BindsNothing (f a)) : BindsNothing (action >>= f) := fun s =>
  ⟨(hf _ _).1.trans (h s).1, (hf _ _).2.trans (h s).2⟩

theorem onTable (action : TableM α) : BindsNothing (Typing.onTable action) := fun _ => ⟨rfl, rfl⟩

theorem recordType (e : ExprId) (t : TypeId) : BindsNothing (Typing.recordType e t) := by
  intro s
  show (if s.recording then _ else s : Typing).bindings = _ ∧ (if s.recording then _ else s : Typing).recording = _
  split <;> exact ⟨rfl, rfl⟩

theorem recorded {e : ExprId} {action : TypingM TypeId} (h : BindsNothing action) : BindsNothing (Typing.recorded e action) :=
  h.bind fun t => (recordType e t).bind fun _ => pure t

theorem memberOf (qualifier : TypeId) (name : String) : BindsNothing (Typing.memberOf qualifier name) := by
  intro s
  show ((if s.table.store.isUnknown qualifier then _ else _ : TypingM (Option TypeId)) s).2.bindings = _ ∧
    ((if s.table.store.isUnknown qualifier then _ else _ : TypingM (Option TypeId)) s).2.recording = _
  split <;> exact ⟨rfl, rfl⟩

theorem memberType (env : Environment) (e : ExprId) (found : Option TypeId) :
    BindsNothing (Typing.memberType env e found) := by
  have hrecord : BindsNothing (recordMember e found) := fun _ => ⟨rfl, rfl⟩
  refine hrecord.bind fun _ => ?_
  cases found.or (env.member? e) with
  | some member => exact onTable _
  | none => exact pure _

mutual

theorem typeOf (tree : Tree) (env : Environment) : (e : Expr) → BindsNothing (Typing.typeOf tree env e)
  | .name _ _ => recorded (pure _)
  | .qualified id qualifier name =>
    recorded ((typeOf tree env qualifier).bind fun t => (memberOf t name).bind fun found => memberType env id found)
  | .call _ callee arguments =>
    recorded ((typeOf tree env callee).bind fun _ => (typeAll tree env arguments).bind fun _ => onTable _)
  | .string _ _ => recorded (onTable _)
  | .integer _ _ => recorded (onTable _)
  | .decimal _ _ => recorded (onTable _)
  | .boolean _ _ => recorded (onTable _)
  | .noneLiteral _ => recorded (onTable _)
  | .binary _ _ left right => recorded ((typeOf tree env left).bind fun _ => (typeOf tree env right).bind fun _ => onTable _)
  | .unary _ op operand =>
    recorded ((typeOf tree env operand).bind fun t => match op with
      | .not => onTable _
      | .neg => pure t
      | .pos => pure t)
  | .conditional _ test thenValue elseValue =>
    recorded ((typeOf tree env test).bind fun _ => (typeOf tree env thenValue).bind fun _ =>
      (typeOf tree env elseValue).bind fun _ => onTable _)
  | .display _ _ items => recorded ((typeAll tree env items).bind fun _ => onTable _)
  | .subscript _ value index =>
    recorded ((typeOf tree env value).bind fun _ => (typeOf tree env index).bind fun _ => onTable _)
  | .await _ operand => recorded ((typeOf tree env operand).bind fun _ => pure _)
  | .paren _ inner => recorded (typeOf tree env inner)

theorem typeAll (tree : Tree) (env : Environment) : (es : List Expr) → BindsNothing (Typing.typeAll tree env es)
  | [] => pure _
  | e :: rest => (typeOf tree env e).bind fun _ => typeAll tree env rest

end

end BindsNothing

end Typing

/-- What an element of a block assigns to. -/
def Element.targets : Element → List Expr
  | .stmt (.assign _ targets _) => targets
  | .stmt (.annotated _ target _ (some _)) => [target]
  | .stmt (.compound _ target _ _) => [target]
  | .stmt _ => []
  | .condition _ => []
  | .loopTarget target _ => [target]
  | .withItem item => item.target.toList

namespace FlowSensitive

open Typing

variable (block : Block)

/-- The tracked variables among the targets. -/
def Setting.symbolsOf (c : Setting) (targets : List Expr) : List SymbolId :=
  (targets.filterMap c.tree.symbolOf?).filter c.body.tracked.contains

/-- The tracked variables that a block binds. -/
def Setting.boundBy (c : Setting) (block : Block) : List SymbolId := c.symbolsOf (block.elements.flatMap Element.targets)

theorem Setting.symbolsOf_flatMap {α : Type} (c : Setting) (targets : α → List Expr) (as : List α) :
    c.symbolsOf (as.flatMap targets) = as.flatMap fun a => c.symbolsOf (targets a) := by
  unfold symbolsOf
  induction as with
  | nil => rfl
  | cons a rest ih => simp_all

theorem Setting.tracked_of_mem_symbolsOf {c : Setting} {targets : List Expr} {symbol : SymbolId}
    (h : symbol ∈ c.symbolsOf targets) : symbol ∈ c.body.tracked := by
  simpa using (List.mem_filter.1 h).2

/-- The action leads from `state` to the state with bindings of the given variables made, and
records these if types are recorded. -/
def Executes (state : TypeState) (symbols : List SymbolId) (action : TypingM TypeState) : Prop :=
  ∀ s, ∃ bindings : List Binding, bindings.filterMap Binding.symbol = symbols ∧
    (action s).1 = bindings.foldl Binding.applyTo state ∧ (action s).2.recording = s.recording ∧
    (action s).2.bindings.toList = s.bindings.toList ++ if s.recording then bindings else []

namespace Executes

variable {α : Type} {state : TypeState} {symbols symbols' : List SymbolId}

theorem pure (state : TypeState) : Executes state [] (Pure.pure state) := by
  intro s
  refine ⟨[], rfl, rfl, rfl, ?_⟩
  show s.bindings.toList = _
  simp

theorem after {action : TypingM α} {f : α → TypingM TypeState} (h : BindsNothing action)
    (hf : ∀ a, Executes state symbols (f a)) : Executes state symbols (action >>= f) := by
  intro s
  obtain ⟨bindings, hsymbols, hstate, hrecording, hbindings⟩ := hf (action s).1 (action s).2
  refine ⟨bindings, hsymbols, hstate, hrecording.trans (h s).2, hbindings.trans ?_⟩
  rw [(h s).1, (h s).2]

theorem bind {action : TypingM TypeState} {f : TypeState → TypingM TypeState} (h : Executes state symbols action)
    (hf : ∀ state', Executes state' symbols' (f state')) : Executes state (symbols ++ symbols') (action >>= f) := by
  intro s
  obtain ⟨first, hsymbols, hstate, hrecording, hbindings⟩ := h s
  obtain ⟨second, hsymbols', hstate', hrecording', hbindings'⟩ := hf (action s).1 (action s).2
  refine ⟨first ++ second, ?_, ?_, hrecording'.trans hrecording, hbindings'.trans ?_⟩
  · rw [List.filterMap_append, hsymbols, hsymbols']
  · rw [List.foldl_append, ← hstate]
    exact hstate'
  · grind

theorem foldlM {f : TypeState → α → TypingM TypeState} {bound : α → List SymbolId}
    (h : ∀ state a, Executes state (bound a) (f state a)) (as : List α) (state : TypeState) :
    Executes state (as.flatMap bound) (as.foldlM f state) := by
  induction as generalizing state with
  | nil => exact pure state
  | cons a rest ih =>
    grind [bind]

end Executes

variable {c : Setting} {members : OrderedMap ExprId TypeId}

theorem bindsNothing_eval (state : TypeState) (e : Expr) : BindsNothing (eval c members state e) := .typeOf _ _ e

theorem executes_eval (state : TypeState) (e : Expr) : Executes state [] (do
    let _ ← eval c members state e
    return state) :=
  .after (bindsNothing_eval state e) fun _ => .pure state

/-- The binding of a name. -/
def Setting.binding (c : Setting) (id : ExprId) (text : String) (t : TypeId) : Binding :=
  ⟨id, (c.tree.symbolOf? (.name id text)).filter c.body.tracked.contains, t⟩

theorem bind_name (state : TypeState) (id : ExprId) (text : String) (t : TypeId) (s : Typing) :
    bind c members state (.name id text) t s =
      ((c.binding id text t).applyTo state, (recordBinding (c.binding id text t) s).2) := by
  unfold bind Setting.binding
  dsimp only
  cases (c.tree.symbolOf? (.name id text)).filter c.body.tracked.contains <;> rfl

theorem executes_bind (state : TypeState) (target : Expr) (t : TypeId) :
    Executes state (c.symbolsOf [target]) (bind c members state target t) := by
  cases target with
  | name id text =>
    intro s
    have hsymbols : c.symbolsOf [.name id text] = (c.binding id text t).symbol.toList := by
      unfold Setting.symbolsOf Setting.binding
      cases hid : c.tree.symbolOf? (.name id text) with
      | none => simp [hid]
      | some x => cases htracked : c.body.tracked.contains x <;> simp_all [Option.filter]
    have hrecord : (recordBinding (c.binding id text t) s).2 =
        if s.recording then { s with bindings := s.bindings.push (c.binding id text t) } else s := rfl
    refine ⟨[c.binding id text t], ?_, ?_⟩
    · grind
    · grind [bind_name]
  | _ => exact executes_eval state _

theorem executes_applyStmt (state : TypeState) (s : Stmt) :
    Executes state (c.symbolsOf (Element.targets (.stmt s))) (applyStmt c members state s) := by
  cases s with
  | assign _ targets value =>
    refine .after (bindsNothing_eval state value) fun t => ?_
    have htargets : Executes state _ (targets.foldlM (fun state target => bind c members state target t) state) :=
      .foldlM (fun state target => executes_bind state target t) targets state
    rwa [← c.symbolsOf_flatMap, List.flatMap_singleton'] at htargets
  | annotated _ target _ value =>
    cases value with
    | none => exact .pure state
    | some value => exact .after (bindsNothing_eval state value) fun t => executes_bind state target t
  | compound _ target op value =>
    exact .after (bindsNothing_eval state target) fun _ => .after (bindsNothing_eval state value) fun _ =>
      .after (.onTable _) fun t => executes_bind state target t
  | exprStmt _ e => exact executes_eval state e
  | returnStmt _ value =>
    cases value with
    | none => exact .pure state
    | some e => exact executes_eval state e
  | raiseStmt _ exception =>
    cases exception with
    | none => exact .pure state
    | some e => exact executes_eval state e
  | _ => exact .pure state

theorem executes_apply (state : TypeState) (e : Element) :
    Executes state (c.symbolsOf e.targets) (apply c members state e) := by
  cases e with
  | stmt s => exact executes_applyStmt state s
  | condition test => exact executes_eval state test
  | loopTarget target iter =>
    exact .after (bindsNothing_eval state iter) fun _ => .after (.onTable _) fun t => executes_bind state target t
  | withItem item =>
    obtain ⟨context, target⟩ := item
    refine .after (bindsNothing_eval state context) fun _ => ?_
    cases target with
    | none => exact .pure state
    | some target => exact executes_bind state target .unknown

theorem executes_transfer (state : TypeState) : Executes state (c.boundBy block) (transfer c members block state) := by
  unfold Setting.boundBy
  rw [c.symbolsOf_flatMap]
  exact .foldlM executes_apply block.elements state

/-- Behind a block, a variable that the block does not bind is what it was, and one that it binds
has the type of one of the bindings, which are on record if types are recorded. -/
theorem transfer_cases (state : TypeState) (s : Typing) {symbol : SymbolId} {t : TypeId}
    (h : (transfer c members block state s).1.get? symbol = some t) :
    (symbol ∉ c.boundBy block ∧ state.get? symbol = some t) ∨
      (symbol ∈ c.boundBy block ∧ (s.recording = true →
        ∃ b ∈ (transfer c members block state s).2.bindings.toList, b.symbol = some symbol ∧ b.type = t)) := by
  obtain ⟨bindings, hsymbols, hstate, -, hbindings⟩ := executes_transfer (c := c) block state s
  rw [hstate] at h
  grind [Binding.get?_foldl_applyTo]

end FlowSensitive

end PythonTypes
