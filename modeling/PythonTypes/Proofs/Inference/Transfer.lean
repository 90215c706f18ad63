import PythonTypes.Proofs.Inference.Bindings
import PythonTypes.Proofs.Inference.Evaluation

/-!
# Evaluating a block again

A block leads from one state of types to another. If nothing is resolved meanwhile, it leads to the
same state whenever it is evaluated from the same one (`retraces_transfer`), whether its bindings
are recorded or not.
-/

set_option autoImplicit false

namespace PythonTypes

namespace Typing

variable {α β : Type} {s r : Typing} {env : Environment}

/-- The action moves on to a point at which its answer has a property, and later on it does so
again. If nothing is resolved meanwhile, it gives the same answer again. -/
structure Retraces (s : Typing) (action : TypingM α) (Q : α → Table → Prop) : Prop where
  leads : Leads s action Q
  later : ∀ r, s.table.Calm r.table → Leads r action Q
  again : ∀ r, Undisturbed s (action s).2 r (action r).2 → (action r).1 = (action s).1

theorem Undisturbed.calm {s' r' : Typing} (h : Undisturbed s s' r r') : s.table.Calm r.table := h.first.trans h.between

namespace Retraces

variable {Q P : α → Table → Prop} {action : TypingM α}

theorem pure {a : α} (hs : s.table.Sound) (ha : ∀ t, s.table.Calm t → Q a t) : Retraces s (Pure.pure a) Q :=
  ⟨.pure hs (ha _ (.refl hs)), fun _ hcalm => .pure (hcalm.carries hs).1 (ha _ hcalm), fun _ _ => rfl⟩

/-- Actions that retrace their steps do so one after the other. -/
theorem bind {f : α → TypingM β} {Q : β → Table → Prop} (hs : s.table.AtRest)
    (h : Retraces s action P) (hf : ∀ a s', s.table.Moves s'.table → P a s'.table → Retraces s' (f a) Q) :
    Retraces s (action >>= f) Q := by
  have hmoves : ∀ {r : Typing}, s.table.Calm r.table → s.table.Moves (action r).2.table := fun hcalm =>
    (Table.Moves.of_calm hcalm).trans hs.toSound (h.later _ hcalm).reaches.moves
  have hstages : ∀ {r : Typing}, s.table.Calm r.table → Stage r ((action >>= f) r).2 r (action r).2 ∧
      Stage r ((action >>= f) r).2 (action r).2 (f (action r).1 (action r).2).2 := by
    intro r hcalm
    have hr := hs.calm hcalm
    have hfirst := (h.later r hcalm).reaches
    have hsecond := (hf _ _ (hmoves hcalm) (h.later r hcalm).answer).leads.reaches
    have hr1 := hfirst.moves.atRest hr
    exact ⟨⟨.refl hr.toSound, hfirst, hsecond⟩, ⟨hfirst, hsecond, .refl (hsecond.moves.atRest hr1).toSound⟩⟩
  refine ⟨h.leads.bind hs.toSound fun a s' hreaches ha => (hf a s' hreaches.moves ha).leads,
    fun r hcalm => ?_, fun r hquiet => ?_⟩
  · have hr := hs.calm hcalm
    refine (h.later r hcalm).bind hr.toSound fun a r' hreaches ha => (hf a r' ?_ ha).leads
    exact (Table.Moves.of_calm hcalm).trans hs.toSound hreaches.moves
  · have hcalm := hquiet.calm
    have hself : s.table.Calm s.table := .refl hs.toSound
    have hr := hs.calm hcalm
    have hsame := h.again r (hquiet.parts hs hr (hstages hself).1 (hstages hcalm).1)
    have hrest := hquiet.parts hs hr (hstages hself).2 (hstages hcalm).2
    show (f (action r).1 (action r).2).1 = (f (action s).1 (action s).2).1
    rw [hsame] at hrest ⊢
    exact (hf _ _ (hmoves hself) (h.later s hself).answer).again _ hrest

theorem imp (h : Retraces s action P) (hPQ : ∀ a t, P a t → Q a t) : Retraces s action Q :=
  ⟨⟨h.leads.reaches, hPQ _ _ h.leads.answer⟩, fun r hcalm =>
    ⟨(h.later r hcalm).reaches, hPQ _ _ (h.later r hcalm).answer⟩, h.again⟩

theorem keep {I : Table → Prop} (hs : s.table.Sound) (h : Retraces s action Q)
    (hI : ∀ t, s.table.Moves t → I t) : Retraces s action fun a t => Q a t ∧ I t := by
  have hlater : ∀ r : Typing, s.table.Calm r.table → Leads r action fun a t => Q a t ∧ I t := fun r hcalm =>
    have hleads := h.later r hcalm
    ⟨hleads.reaches, hleads.answer, hI _ ((Table.Moves.of_calm hcalm).trans hs hleads.reaches.moves)⟩
  exact ⟨hlater s (.refl hs), hlater, h.again⟩

theorem foldlM {f : β → α → TypingM β} {Q : β → Table → Prop} (hrest : ∀ b t, Q b t → t.AtRest)
    (hQ : ∀ b t t', t.Moves t' → Q b t → Q b t')
    (hf : ∀ (s : Typing) b a, Q b s.table → Retraces s (f b a) Q) (as : List α) {b : β}
    (hb : Q b s.table) : Retraces s (as.foldlM f b) Q := by
  have hs := hrest b s.table hb
  induction as generalizing s b with
  | nil => exact .pure hs.toSound fun t hcalm => hQ b _ t (.of_calm hcalm) hb
  | cons a rest ih =>
    grind [bind]

end Retraces

theorem Ready.calm (h : Ready env s) (hcalm : s.table.Calm r.table) : Ready env r := by
  have hmoves := Table.Moves.of_calm hcalm
  exact ⟨hmoves.atRest h.atRest, fun symbol => hmoves.known h.atRest.toSound (h.env.symbolType symbol),
    fun e x hx => hmoves.known h.atRest.toSound (h.env.member e x hx)⟩

theorem Ready.retraces_typeOf (h : Ready env s) (tree : Tree) (e : Expr) :
    Retraces s (typeOf tree env e) fun x t => t.store.Known x :=
  ⟨h.leads_typeOf tree e, fun _ hcalm => (h.calm hcalm).leads_typeOf tree e,
    fun _ hquiet => h.typeOf_again (h.calm hquiet.calm) e hquiet⟩

theorem reaches_recordBinding (hs : s.table.Sound) (b : Binding) (hb : s.table.store.Known b.type) :
    s.Reaches (recordBinding b s).2 := by
  have hrecord : (recordBinding b s).2 = if s.recording then { s with bindings := s.bindings.push b } else s := rfl
  rw [hrecord]
  split
  · refine ⟨.refl hs, List.prefix_refl _, fun _ hknown => ⟨hknown.members, fun b' hb' => ?_⟩⟩
    grind [KnownRecord.bindings]
  · exact .refl hs

theorem retraces_computes (hs : s.table.AtRest) {action : TableM TypeId} (xs : List TypeId)
    (hxs : ∀ x ∈ xs, s.table.store.Known x)
    (h : ∀ t : Table, t.AtRest → (∀ x ∈ xs, t.store.Known x) → t.Computes action) :
    Retraces s (onTable action) fun x t => t.store.Known x := by
  have hcomputes := h s.table hs hxs
  refine ⟨.computes hcomputes, fun r hcalm =>
    .computes (h r.table (hs.calm hcalm) fun x hx => hcalm.grows.known (hxs x hx)), ?_⟩
  exact fun r hquiet => hcomputes.same hquiet.first hquiet.between

end Typing

/-- Every type in the state is known. -/
def TypeState.KnownIn (state : TypeState) (t : Table) : Prop := ∀ symbol x, state.get? symbol = some x → t.store.Known x

theorem TypeState.KnownIn.set {state : TypeState} {t : Table} (h : state.KnownIn t)
    (symbol : SymbolId) {x : TypeId} (hx : t.store.Known x) : (state.set symbol x).KnownIn t := by
  intro symbol' y hy
  rcases OrderedMap.get?_insert_cases hy with ⟨-, rfl⟩ | hy
  · exact hx
  · exact h symbol' y hy

namespace FlowSensitive

open Typing

variable {c : Setting} {members : OrderedMap ExprId TypeId} {state : TypeState} {s : Typing} {t t' : Table}

/-- No look-up is under way, and every type that is known beforehand or in the state is known to the
table. -/
structure Prepared (c : Setting) (members : OrderedMap ExprId TypeId) (state : TypeState) (t : Table) : Prop where
  atRest : t.AtRest
  symbolTypes : ∀ symbol, t.store.Known (c.known.symbolType symbol)
  members : ∀ e x, members.get? e = some x → t.store.Known x
  state : state.KnownIn t

namespace Prepared

theorem moves (h : Prepared c members state t) (hmoves : t.Moves t') : Prepared c members state t' := by
  have hknown := fun x => hmoves.known h.atRest.toSound (x := x)
  exact ⟨hmoves.atRest h.atRest, fun symbol => hknown _ (h.symbolTypes symbol), fun e x hx =>
    hknown x (h.members e x hx), fun symbol x hx => hknown x (h.state symbol x hx)⟩

theorem withState (h : Prepared c members state t) {state' : TypeState}
    (hstate : state'.KnownIn t) : Prepared c members state' t := { h with state := hstate }

theorem applyTo (h : Prepared c members state t) (b : Binding) (hb : t.store.Known b.type) :
    Prepared c members (b.applyTo state) t := by
  grind [Binding.applyTo, withState, TypeState.KnownIn.set, state]

variable (h : Prepared c members state s.table)
include h

theorem ready : Ready (c.environment members state) s := by
  refine ⟨h.atRest, fun symbol => ?_, h.members⟩
  show s.table.store.Known (if _ then _ else _)
  split
  · cases hget : state.get? symbol with
    | none => exact h.atRest.store.unknown_plain.1
    | some x => exact h.state symbol x hget
  · exact h.symbolTypes symbol

theorem retraces_pure : Retraces s (pure state) (Prepared c members) :=
  .pure h.atRest.toSound fun _ hcalm => h.moves (.of_calm hcalm)

theorem retraces_eval (e : Expr) :
    Retraces s (eval c members state e) fun x t => t.store.Known x := h.ready.retraces_typeOf c.tree e

theorem retraces_evalOnly (e : Expr) : Retraces s (do
    let _ ← eval c members state e
    return state) (Prepared c members) :=
  (h.retraces_eval e).bind h.atRest fun _ _ hmoves _ => (h.moves hmoves).retraces_pure

theorem retraces_bind (target : Expr) {x : TypeId} (hx : s.table.store.Known x) :
    Retraces s (bind c members state target x) (Prepared c members) := by
  cases target with
  | name id text =>
    have hleads : ∀ r : Typing, s.table.Calm r.table →
        Leads r (bind c members state (.name id text) x) (Prepared c members) := by
      intro r hcalm
      have hr := h.moves (.of_calm hcalm)
      have hreaches := reaches_recordBinding hr.atRest.toSound (c.binding id text x) (hcalm.grows.known hx)
      refine ⟨?_, ?_⟩ <;> rw [bind_name]
      · exact hreaches
      · exact (hr.moves hreaches.moves).applyTo _ (hreaches.moves.known hr.atRest.toSound (hcalm.grows.known hx))
    exact ⟨hleads s (.refl h.atRest.toSound), hleads, fun r _ => by rw [bind_name, bind_name]⟩
  | _ => exact h.retraces_evalOnly _

theorem retraces_bindAll (targets : List Expr) {x : TypeId} (hx : s.table.store.Known x) :
    Retraces s (targets.foldlM (fun state target => bind c members state target x) state) (Prepared c members) := by
  refine (Retraces.foldlM (Q := fun state t => Prepared c members state t ∧ t.store.Known x) (fun _ _ h => h.1.atRest)
    (fun _ _ _ hmoves h => ⟨h.1.moves hmoves, hmoves.known h.1.atRest.toSound h.2⟩) ?_ targets ⟨h, hx⟩).imp fun _ _ h => h.1
  intro s state target h
  exact (h.1.retraces_bind target h.2).keep h.1.atRest.toSound fun t hmoves => hmoves.known h.1.atRest.toSound h.2

theorem retraces_applyStmt (stmt : Stmt) :
    Retraces s (applyStmt c members state stmt) (Prepared c members) := by
  cases stmt with
  | assign id targets value =>
    exact (h.retraces_eval value).bind h.atRest fun x s' hmoves hx => (h.moves hmoves).retraces_bindAll targets hx
  | annotated id target hint value =>
    cases value with
    | none => exact h.retraces_pure
    | some value => exact (h.retraces_eval value).bind h.atRest fun x s' hmoves hx => (h.moves hmoves).retraces_bind target hx
  | compound id target op value =>
    refine (h.retraces_eval target).bind h.atRest fun x s1 hmoves1 hx => ?_
    have h1 := h.moves hmoves1
    refine (h1.retraces_eval value).bind h1.atRest fun y s2 hmoves2 hy => ?_
    have h2 := h1.moves hmoves2
    refine (retraces_computes h2.atRest [x, y] ?_ ?_).bind h2.atRest fun z s3 hmoves3 hz =>
      (h2.moves hmoves3).retraces_bind target hz
    · simp [hy, hmoves2.known h1.atRest.toSound hx]
    · grind [Table.AtRest.computes_binaryResult]
  | exprStmt id e => exact h.retraces_evalOnly e
  | returnStmt id value =>
    cases value with
    | none => exact h.retraces_pure
    | some e => exact h.retraces_evalOnly e
  | raiseStmt id exception =>
    cases exception with
    | none => exact h.retraces_pure
    | some e => exact h.retraces_evalOnly e
  | _ => exact h.retraces_pure

theorem retraces_apply (e : Element) :
    Retraces s (apply c members state e) (Prepared c members) := by
  cases e with
  | stmt stmt => exact h.retraces_applyStmt stmt
  | condition test => exact h.retraces_evalOnly test
  | loopTarget target iter =>
    refine (h.retraces_eval iter).bind h.atRest fun x s1 hmoves1 hx => ?_
    have h1 := h.moves hmoves1
    refine (retraces_computes h1.atRest [x] ?_ ?_).bind h1.atRest fun y s2 hmoves2 hy =>
      (h1.moves hmoves2).retraces_bind target hy
    · simp [hx]
    · grind [Table.AtRest.computes_iterationType]
  | withItem item =>
    obtain ⟨context, target⟩ := item
    refine (h.retraces_eval context).bind h.atRest fun _ s1 hmoves1 _ => ?_
    have h1 := h.moves hmoves1
    cases target with
    | none => exact h1.retraces_pure
    | some target => exact h1.retraces_bind target h1.atRest.store.unknown_plain.1

/-- Passing through a block once more gives the same state unless types were resolved meanwhile. -/
theorem retraces_transfer (block : Block) :
    Retraces s (transfer c members block state) (Prepared c members) :=
  .foldlM (fun _ _ h => h.atRest) (fun _ _ _ hmoves h => h.moves hmoves) (fun _ _ e h => h.retraces_apply e) block.elements h

end Prepared

end FlowSensitive

end PythonTypes
