import PythonTypes.Proofs.Data.Relation
import PythonTypes.Proofs.Flow.Effects
import PythonTypes.Proofs.Flow.Shape
import PythonTypes.Proofs.Inference.Transfer
import PythonTypes.Proofs.Types.Inclusion

/-!
# The facts of a solved body

The solver joins the types that meet at a block and evaluates the block from there. What a variable
is behind a block is joined from what it is on entry and from what blocks that bind it have left
behind at some time (`Facts.origins`), and as long as nothing is resolved, every block that is not
due is justified by the facts of the moment (`Facts.justified`).

When nothing is due any more, a way back from a block through blocks that do not bind
the variable ends on entry, at a block that binds it, or in a cycle. Only what has gone into such a
cycle may be older than the facts of the moment (`Facts.includes`).
-/

set_option autoImplicit false

namespace PythonTypes

variable {P : SymbolId → TypeId → Prop} {state : TypeState} {t : Table}

/-- The state binds variables to nothing but what is joined from types with a property. -/
def TypeState.JoinsFrom (state : TypeState) (P : SymbolId → TypeId → Prop) (t : Table) : Prop :=
  ∀ symbol x, state.get? symbol = some x → t.store.JoinOf (P symbol) x

section

variable (h : state.JoinsFrom P t)

include h

theorem TypeState.JoinsFrom.grows {t' : Table}
    (hgrows : t.store.Grows t'.store) : state.JoinsFrom P t' := fun symbol x hx => (h symbol x hx).grows hgrows

theorem TypeState.JoinsFrom.imp {Q : SymbolId → TypeId → Prop}
    (hPQ : ∀ symbol x, P symbol x → Q symbol x) : state.JoinsFrom Q t := fun symbol x hx => (h symbol x hx).imp (hPQ symbol)

theorem TypeState.JoinsFrom.knownIn : state.KnownIn t := fun symbol x hx => (h symbol x hx).known

theorem TypeState.JoinsFrom.set
    {symbol : SymbolId} {x : TypeId} (hx : t.store.JoinOf (P symbol) x) : (state.set symbol x).JoinsFrom P t := by
  intro symbol' y hy
  rcases OrderedMap.get?_insert_cases hy with ⟨rfl, rfl⟩ | hy
  · exact hx
  · exact h symbol' y hy

end

namespace Typing

variable {α : Type} {s : Typing}

theorem joinOne_cases (state : TypeState) (symbol : SymbolId) (x : TypeId) (s : Typing) :
    (state.get? symbol = none ∧ onTable (Table.onStore (state.joinOne symbol x)) s = (state.set symbol x, s)) ∨
      ∃ old, state.get? symbol = some old ∧ onTable (Table.onStore (state.joinOne symbol x)) s =
        (state.set symbol (onTable (Table.onStore (TypeStore.union old x)) s).1,
          (onTable (Table.onStore (TypeStore.union old x)) s).2) := by
  unfold TypeState.joinOne
  cases state.get? symbol with
  | none => exact .inl ⟨rfl, rfl⟩
  | some old => exact .inr ⟨old, rfl, rfl⟩

theorem leads_joinOne (hs : s.table.AtRest) (hstate : state.JoinsFrom P s.table) {symbol : SymbolId} {x : TypeId}
    (hx : s.table.store.Known x) (hP : P symbol x) :
    Leads s (onTable (Table.onStore (state.joinOne symbol x))) fun state t => state.JoinsFrom P t := by
  rcases joinOne_cases state symbol x s with ⟨-, hjoin⟩ | ⟨old, hget, hjoin⟩
  · refine ⟨?_, ?_⟩ <;> rw [hjoin]
    · exact .refl hs.toSound
    · exact hstate.set (.of_mem hx hP)
  · have hold := hstate symbol old hget
    refine ⟨?_, ?_⟩ <;> rw [hjoin]
    · exact (Leads.computes (hs.computes_union hold.known hx)).reaches
    · have hgrows : s.table.store.Grows (onTable (Table.onStore (TypeStore.union old x)) s).2.table.store :=
        (TypeStore.union_sound hs.store.wellFormed hold.known hx).2.1
      exact (hstate.grows hgrows).set (hold.union hs.store.good (.of_mem hx hP))

theorem onStore_bind {β : Type} (action : StoreM α) (f : α → StoreM β) :
    onTable (Table.onStore (action >>= f)) = (do let a ← onTable (Table.onStore action); onTable (Table.onStore (f a))) := rfl

theorem leads_foldlM {f : TypeState → α → StoreM TypeState} {Q : TypeState → Table → Prop} (hs : s.table.AtRest) (as : List α)
    (hstate : Q state s.table)
    (hf : ∀ a ∈ as, ∀ state (s' : Typing), s.table.Moves s'.table → Q state s'.table →
      Leads s' (onTable (Table.onStore (f state a))) Q) :
    Leads s (onTable (Table.onStore (as.foldlM f state))) Q := by
  induction as generalizing s state with
  | nil => exact ⟨.refl hs.toSound, hstate⟩
  | cons a rest ih =>
    rw [List.foldlM_cons, onStore_bind]
    refine (hf a (by simp) state s (.refl hs.toSound) hstate).bind hs.toSound fun state' s' hreaches hstate' => ?_
    exact ih (hreaches.moves.atRest hs) hstate' fun b hb state'' s'' hmoves hstate'' =>
      hf b (by simp [hb]) state'' s'' (hreaches.moves.trans hs.toSound hmoves) hstate''

theorem leads_joinAll (hs : s.table.AtRest) (states : List TypeState) (hknown : ∀ state ∈ states, state.KnownIn s.table) :
    Leads s (onTable (Table.onStore (TypeState.joinAll states))) fun state t =>
      state.JoinsFrom (fun symbol x => ∃ state ∈ states, state.get? symbol = some x) t := by
  refine leads_foldlM hs states (fun symbol x hx => (nomatch hx)) fun state hstate joined s1 hmoves1 hjoined => ?_
  refine leads_foldlM (hmoves1.atRest hs) state.types.entries hjoined fun entry hentry joined' s2 hmoves2 hjoined' => ?_
  obtain ⟨symbol, x⟩ := entry
  have hget : state.get? symbol = some x := (state.types.get?_eq_some_iff symbol x).2 hentry
  have hmoves := hmoves1.trans hs.toSound hmoves2
  exact leads_joinOne (hmoves.atRest hs) hjoined'
    (hmoves.known hs.toSound (hknown state hstate symbol x hget)) ⟨state, hstate, hget⟩

end Typing

namespace Solution

variable {φ : Type} [BEq φ] {solution : Solution φ} {b p : BlockId} {block : Block} {x y fact : φ}

theorem after_record (h : (solution.record b block x y).after.get? p = some fact) :
    p = b ∧ fact = y ∨ solution.after.get? p = some fact := by
  rcases record_cases solution b block x y with ⟨old, -, -, hrecord⟩ | ⟨-, hrecord⟩ <;> rw [hrecord] at h
  · exact .inr h
  · exact OrderedMap.get?_insert_cases h

theorem before_record (h : (solution.record b block x y).before.get? p = some fact) :
    p = b ∧ fact = x ∨ solution.before.get? p = some fact := by
  rcases record_cases solution b block x y with ⟨old, -, -, hrecord⟩ | ⟨-, hrecord⟩ <;>
    rw [hrecord] at h <;> exact OrderedMap.get?_insert_cases h

end Solution

namespace FlowSensitive

open Typing

/-! ## Where a value may come from -/

/-- Whether a block binds a variable. -/
def Setting.Binds (c : Setting) (g : FlowGraph) (symbol : SymbolId) (b : BlockId) : Prop :=
  ∃ block, g.block? b = some block ∧ symbol ∈ c.boundBy block

instance (c : Setting) (g : FlowGraph) (symbol : SymbolId) (b : BlockId) : Decidable (c.Binds g symbol b) :=
  decidable_of_iff (∃ block ∈ (g.block? b).toList, symbol ∈ c.boundBy block) (by simp [Setting.Binds])

/-- Control may go from one block to another one that does not bind the variable. -/
def Setting.Passes (c : Setting) (g : FlowGraph) (symbol : SymbolId) (p q : BlockId) : Prop :=
  q ∈ g.successors p ∧ ¬ c.Binds g symbol q

instance (c : Setting) (g : FlowGraph) (symbol : SymbolId) (p q : BlockId) : Decidable (c.Passes g symbol p q) :=
  inferInstanceAs (Decidable (_ ∧ _))

/-- What a variable is behind one block it may still be before another one. -/
def Setting.LeadsTo (c : Setting) (g : FlowGraph) (symbol : SymbolId) (p b : BlockId) : Prop :=
  ∃ q, Relation.ReflTransGen (c.Passes g symbol) p q ∧ b ∈ g.successors q

/-- What a variable is bound to by one block may go round in a cycle of blocks that do not bind it,
and from there come before another one. -/
def Setting.MayCirculate (c : Setting) (g : FlowGraph) (symbol : SymbolId) (p b : BlockId) : Prop :=
  c.Binds g symbol p ∧ ∃ q, Relation.TransGen (c.Passes g symbol) p q ∧
    Relation.TransGen (c.Passes g symbol) q q ∧ c.LeadsTo g symbol q b

/-- The type is what the variable is on entry, or it has been seen behind a block that binds
the variable and from which it may have come. -/
def Setting.Origin (c : Setting) (g : FlowGraph) (seen : BlockId → SymbolId → TypeId → Prop)
    (comes : SymbolId → BlockId → Prop) (symbol : SymbolId) (t : TypeId) : Prop :=
  c.initial.get? symbol = some t ∨ ∃ p, g.Reachable p ∧ c.Binds g symbol p ∧ comes symbol p ∧ seen p symbol t

theorem Setting.Origin.imp {c : Setting} {g : FlowGraph} {seen : BlockId → SymbolId → TypeId → Prop}
    {comes comes' : SymbolId → BlockId → Prop} {symbol : SymbolId} {t : TypeId} (h : c.Origin g seen comes symbol t)
    (hcomes : ∀ p, comes symbol p → comes' symbol p) : c.Origin g seen comes' symbol t :=
  h.imp_right fun ⟨p, hreach, hbinds, hp, hseen⟩ => ⟨p, hreach, hbinds, hcomes p hp, hseen⟩

/-! ## The facts of the solver -/

/-- If there are only new types from the first table to the last, the fact before a block is joined
from the facts that meet at it, and evaluating the block from there, at some point on the way, gave
the fact behind it. -/
def Justifies (c : Setting) (members : OrderedMap ExprId TypeId) (first last : Table) (_ : BlockId)
    (block : Block) (facts : List TypeState) (before after : TypeState) : Prop :=
  first.Calm last → before.JoinsFrom (fun symbol x => ∃ fact ∈ facts, fact.get? symbol = some x) last ∧
    ∃ r : Typing, Prepared c members before r.table ∧ (transfer c members block before r).2.table.Moves last ∧
      first.Moves r.table ∧ ∀ symbol, after.get? symbol = (transfer c members block before r).1.get? symbol

/-- What holds of the facts between evaluations, where `seen` tells what has been seen behind
blocks. -/
structure Facts (c : Setting) (members : OrderedMap ExprId TypeId) (g : FlowGraph) (seen : BlockId → SymbolId → TypeId → Prop)
    (first : Table) (solution : Solution TypeState) (s : Typing) : Prop where
  moves : first.Moves s.table
  after_known : ∀ b fact, solution.after.get? b = some fact → fact.KnownIn s.table
  before_known : ∀ b fact, solution.before.get? b = some fact → fact.KnownIn s.table
  origins : first.Calm s.table → ∀ b fact, solution.after.get? b = some fact →
    fact.JoinsFrom (c.Origin g seen fun symbol p => Relation.ReflTransGen (c.Passes g symbol) p b) s.table
  justified : (analysis c members).Justified g (Justifies c members first s.table) solution

variable {c : Setting} {members : OrderedMap ExprId TypeId} {g : FlowGraph} {seen : BlockId → SymbolId → TypeId → Prop}
  {first : Table} {solution : Solution TypeState} {s : Typing} {b : BlockId} {block : Block}

theorem Justifies.moves {t' : Table} {facts : List TypeState} {before after : TypeState}
    (h : Justifies c members first t b block facts before after) (hfirst : first.Sound)
    (hmoves : first.Moves t) (hmoves' : t.Moves t') :
    Justifies c members first t' b block facts before after := by
  intro hcalm
  obtain ⟨hcalm1, hcalm2⟩ := hmoves.calm_parts hfirst hmoves' hcalm
  obtain ⟨hbefore, r, hprepared, htransfer, hr, hafter⟩ := h hcalm1
  have hsound := ((hprepared.retraces_transfer block).leads.reaches.moves.atRest hprepared.atRest).toSound
  exact ⟨hbefore.grows hcalm2.grows, r, hprepared, htransfer.trans hsound hmoves', hr, hafter⟩

theorem evaluate_apply (hb : g.block? b = some block) (solution : Solution TypeState) (s : Typing) :
    (analysis c members).evaluate g solution b s =
      let r := (analysis c members).factBefore solution b block s
      let r' := transfer c members block r.1 r.2
      (solution.record b block r.1 r'.1, r'.2) := by
  unfold Analysis.evaluate
  rw [hb]
  rfl

theorem leads_factBefore (hs : s.table.AtRest)
    (hknown : ∀ fact ∈ (analysis c members).incoming solution b block, fact.KnownIn s.table) :
    Leads s ((analysis c members).factBefore solution b block) fun before t =>
      before.JoinsFrom (fun symbol x => ∃ fact ∈ (analysis c members).incoming solution b block,
        fact.get? symbol = some x) t := by
  unfold Analysis.factBefore
  cases hfacts : (analysis c members).incoming solution b block with
  | nil => exact .pure hs.toSound fun symbol x hx => (nomatch hx)
  | cons fact rest => exact leads_joinAll hs _ (hfacts ▸ hknown)

theorem incoming_cases (hlinked : g.Linked) (hb : g.block? b = some block) {fact : TypeState}
    (hfact : fact ∈ (analysis c members).incoming solution b block) :
    fact = c.initial ∨ ∃ p, b ∈ g.successors p ∧ solution.after.get? p = some fact := by
  unfold Analysis.incoming at hfact
  rcases List.mem_append.1 hfact with hfact | hfact
  · obtain ⟨p, hp, hget⟩ := List.mem_filterMap.1 hfact
    refine .inr ⟨p, (hlinked p b).2 ?_, hget⟩
    rwa [FlowGraph.predecessors_eq, hb]
  · split at hfact
    · exact .inl (List.mem_singleton.1 hfact)
    · cases hfact

namespace Facts

variable {fact before : TypeState} {rest : List BlockId}

theorem start (hfirst : s.table.Sound) : Facts c members g seen s.table ((analysis c members).start g) s := by
  have hafter : ∀ b fact, ((analysis c members).start g).after.get? b = some fact → fact = .bottom := by
    intro b fact hfact
    unfold Analysis.start at hfact
    rw [OrderedMap.get?_ofList_const] at hfact
    split at hfact
    · exact (Option.some.inj hfact).symm
    · cases hfact
  have hnone : ∀ {b fact symbol x}, ((analysis c members).start g).after.get? b = some fact → fact.get? symbol ≠ some x :=
    fun hfact hx => (nomatch hafter _ _ hfact ▸ hx)
  exact ⟨.refl hfirst, fun _ _ hfact _ _ hx => absurd hx (hnone hfact), fun _ _ hfact =>
    (nomatch hfact), fun _ _ _ hfact _ _ hx => absurd hx (hnone hfact), .start _ _ _⟩

theorem origins_behind (hreach : g.Reachable b) (hb : g.block? b = some block) (hprepared : Prepared c members before s.table)
    (hbefore : before.JoinsFrom (c.Origin g seen fun symbol p => c.LeadsTo g symbol p b)
      (transfer c members block before s).2.table)
    (hseen : ∀ symbol u, (transfer c members block before s).1.get? symbol = some u → seen b symbol u) :
    (transfer c members block before s).1.JoinsFrom
      (c.Origin g seen fun symbol p => Relation.ReflTransGen (c.Passes g symbol) p b)
        (transfer c members block before s).2.table := by
  intro symbol x hx
  rcases transfer_cases block before s hx with ⟨hfree, hget⟩ | ⟨hbound, -⟩
  · have hpasses : ¬ c.Binds g symbol b := by
      rintro ⟨block', hb', hbound⟩
      obtain rfl := Option.some.inj (hb.symm.trans hb')
      exact hfree hbound
    refine (hbefore symbol x hget).imp fun u horigin => horigin.imp fun p ⟨q, hpq, hedge⟩ => ?_
    exact hpq.tail ⟨hedge, hpasses⟩
  · have hknown := (hprepared.retraces_transfer block).leads.answer.state symbol x hx
    exact .of_mem hknown (.inr ⟨b, hreach, ⟨block, hb, hbound⟩, .refl, hseen symbol x hx⟩)

section

variable (h : Facts c members g seen first solution s) (hfirst : Prepared c members c.initial first) (hlinked : g.Linked)

include h hfirst hlinked

theorem incoming_known (hb : g.block? b = some block)
    (hfact : fact ∈ (analysis c members).incoming solution b block) : fact.KnownIn s.table := by
  rcases incoming_cases hlinked hb hfact with rfl | ⟨p, -, hp⟩
  · exact (hfirst.moves h.moves).state
  · exact h.after_known p fact hp

theorem incoming_origins (hb : g.block? b = some block) (hcalm : first.Calm s.table)
    (hfact : fact ∈ (analysis c members).incoming solution b block) :
    fact.JoinsFrom (c.Origin g seen fun symbol p => c.LeadsTo g symbol p b) s.table := by
  rcases incoming_cases hlinked hb hfact with rfl | ⟨p, hedge, hp⟩
  · exact fun symbol x hx => .of_mem ((hfirst.moves h.moves).state symbol x hx) (.inl hx)
  · exact (h.origins hcalm p fact hp).imp fun symbol x horigin => horigin.imp fun q hq => ⟨p, hq, hedge⟩

theorem record (hqueue : solution.queue = b :: rest) (hb : g.block? b = some block) {s1 : Typing}
    (hmoves1 : s.table.Moves s1.table)
    (hbefore : before.JoinsFrom
      (fun symbol x => ∃ fact ∈ (analysis c members).incoming solution b block,
      fact.get? symbol = some x)
      s1.table) (iterations : Nat) :
    let r := transfer c members block before s1
    let solution' := Solution.record { solution with queue := rest, iterations } b block before r.1
    (∀ p fact symbol u, solution'.after.get? p = some fact → fact.get? symbol = some u → seen p symbol u) →
      Facts c members g seen first solution' r.2 := by
  intro r solution' hseen
  have hsound := hfirst.atRest.toSound
  have hs := h.moves.atRest hfirst.atRest
  have hmoves01 := h.moves.trans hsound hmoves1
  have hprepared : Prepared c members before s1.table := (hfirst.moves hmoves01).withState hbefore.knownIn
  have hleads := (hprepared.retraces_transfer block).leads
  have hmoves2 : s1.table.Moves r.2.table := hleads.reaches.moves
  have hmoves := hmoves1.trans hs.toSound hmoves2
  have hgrows : first.Calm r.2.table → s1.table.store.Grows r.2.table.store := fun hcalm =>
    (hmoves01.calm_parts hsound hmoves2 hcalm).2.grows
  have hknown : ∀ {fact : TypeState}, fact.KnownIn s.table → fact.KnownIn r.2.table := fun hfact symbol x hx =>
    hmoves.known hs.toSound (hfact symbol x hx)
  refine ⟨h.moves.trans hsound hmoves, fun p fact hfact => ?_, fun p fact hfact => ?_, fun hcalm p fact hfact => ?_, ?_⟩
  · rcases Solution.after_record hfact with ⟨-, rfl⟩ | hfact
    · exact hleads.answer.state
    · exact hknown (h.after_known p fact hfact)
  · rcases Solution.before_record hfact with ⟨-, rfl⟩ | hfact
    · exact (hprepared.moves hmoves2).state
    · exact hknown (h.before_known p fact hfact)
  · obtain ⟨hcalm1, hcalm2⟩ := h.moves.calm_parts hsound hmoves hcalm
    rcases Solution.after_record hfact with ⟨rfl, rfl⟩ | hold
    · refine origins_behind (h.justified.queued p (by simp [hqueue])) hb hprepared ?_
        fun symbol u hu => hseen p _ symbol u hfact hu
      intro symbol x hx
      refine ((hbefore symbol x hx).grows (hgrows hcalm)).bind fun u ⟨fact, hmem, hu⟩ => ?_
      exact (h.incoming_origins hfirst hlinked hb hcalm1 hmem symbol u hu).grows hcalm2.grows
    · exact (h.origins hcalm1 p fact hold).grows hcalm2.grows
  · refine (h.justified.mono fun _ _ _ _ _ hj => hj.moves hsound h.moves hmoves).record
      hlinked.symmetric hqueue hb ?_ ?_ iterations
    · exact fun hcalm =>
        ⟨hbefore.grows (hgrows hcalm), s1, hprepared,
        .refl (hmoves2.atRest hprepared.atRest).toSound, hmoves01, fun _ => rfl⟩
    · exact fun old hsame hcalm =>
        ⟨hbefore.grows (hgrows hcalm), s1, hprepared,
        .refl (hmoves2.atRest hprepared.atRest).toSound,
        hmoves01, fun symbol => OrderedMap.get?_of_sameBindings hsame symbol⟩

theorem evaluate (hqueue : solution.queue = b :: rest) :
    let r := (analysis c members).evaluate g { solution with queue := rest, iterations := solution.iterations + 1 } b s
    (∀ p fact symbol u, r.1.after.get? p = some fact → fact.get? symbol = some u → seen p symbol u) →
      Facts c members g seen first r.1 r.2 := by
  intro r hseen
  cases hb : g.block? b with
  | none =>
    have hr : r = ({ solution with queue := rest, iterations := solution.iterations + 1 }, s) := by
      show (analysis c members).evaluate g _ b s = _
      unfold Analysis.evaluate
      rw [hb]
      rfl
    rw [hr]
    exact ⟨h.moves, h.after_known, h.before_known, h.origins, h.justified.skip hqueue hb _⟩
  | some block =>
    have hbefore := leads_factBefore (h.moves.atRest hfirst.atRest) fun _ => h.incoming_known hfirst hlinked hb
    have hr : r = _ := evaluate_apply hb _ s
    rw [hr] at hseen ⊢
    exact h.record hfirst hlinked hqueue hb hbefore.reaches.moves hbefore.answer _ hseen

end

end Facts

/-- Whether some evaluation of the solver left the variable bound to the type behind the block. -/
def Setting.LeavesBehind (c : Setting) (members : OrderedMap ExprId TypeId) (g : FlowGraph)
    (maxIterations : Nat) (s : Typing) (p : BlockId) (symbol : SymbolId) (t : TypeId) : Prop :=
  ∃ solution ∈ (analysis c members).trace g maxIterations ((analysis c members).start g) s,
    ∃ fact, solution.after.get? p = some fact ∧ fact.get? symbol = some t

namespace Facts

theorem solve (hs : Prepared c members c.initial s.table) (hlinked : g.Linked) (maxIterations : Nat) :
    ∃ last, Facts c members g (c.LeavesBehind members g maxIterations s) s.table last
    ((analysis c members).solve g maxIterations s).2 ∧
      ((analysis c members).solve g maxIterations s).1.before = last.before ∧
      (((analysis c members).solve g maxIterations s).1 = last ∧ last.queue = [] ∨
        ((analysis c members).solve g maxIterations s).1.converged = false) := by
  refine (analysis c members).run_keeps g (Facts c members g (c.LeavesBehind members g maxIterations s) s.table)
    (fun solution => ∀ p fact symbol u, solution.after.get? p = some fact → fact.get? symbol = some u →
      c.LeavesBehind members g maxIterations s p symbol u) (fun solution b rest s' hqueue h => ?_) maxIterations _ s
    (start hs.atRest.toSound) fun solution hmem p fact symbol u hfact hu => ⟨solution, hmem, fact, hfact, hu⟩
  exact h.evaluate hs hlinked hqueue

variable {symbol : SymbolId} {before : TypeState} {u : TypeId}

section

variable (h : Facts c members g seen first solution s) (hqueue : solution.queue = [])

include h hqueue

/-- When nothing is due any more, the facts of every block are justified, at whatever later
table. -/
theorem settled (hfirst : first.Sound)
    (hmoves : s.table.Moves t) (hreach : g.Reachable b) (hb : g.block? b = some block) :
    ∃ before after, solution.before.get? b = some before ∧ solution.after.get? b = some after ∧
      Justifies c members first t b block ((analysis c members).incoming solution b block) before after := by
  obtain ⟨before, after, hbefore, hafter, hjustified⟩ := h.justified.settled b block hreach hb (by simp [hqueue])
  exact ⟨before, after, hbefore, hafter, hjustified.moves hfirst h.moves hmoves⟩

/-- A type that includes what a variable is on entry, what the blocks bind it to in the end, and
what has been seen of it that may circulate before a block, includes what the variable is before
that block in the end. -/
theorem includes (hfirst : first.AtRest) (hlinked : g.Linked)
    (hexists : ∀ b, g.Reachable b → ∃ block, g.block? b = some block) (hmoves : s.table.Moves t) (hcalm : first.Calm t)
    {x : TypeId} (hinitial : ∀ u, c.initial.get? symbol = some u → t.store.Includes x u)
    (hbound : ∀ p fact u, c.Binds g symbol p → solution.after.get? p = some fact →
      fact.get? symbol = some u → t.store.Includes x u)
    (hcirculates : ∀ p u, c.MayCirculate g symbol p b → seen p symbol u → t.store.Includes x u)
    (hreach : g.Reachable b) (hbefore : solution.before.get? b = some before)
    (hu : before.get? symbol = some u) : t.store.Includes x u := by
  have hgood := (hfirst.calm hcalm).store.good
  -- Before a block it includes what it includes behind all blocks that lead there.
  have hbefore_of : ∀ {q : BlockId} {before : TypeState} {u : TypeId}, g.Reachable q → solution.before.get? q = some before →
      before.get? symbol = some u → (∀ p fact u, q ∈ g.successors p → solution.after.get? p = some fact →
        fact.get? symbol = some u → t.store.Includes x u) → t.store.Includes x u := by
    intro q before u hq hbefore hu hall
    obtain ⟨block, hblock⟩ := hexists q hq
    obtain ⟨before', after, hbefore', -, hjustified⟩ := h.settled hqueue hfirst.toSound hmoves hq hblock
    obtain rfl := Option.some.inj (hbefore.symm.trans hbefore')
    refine ((hjustified hcalm).1 symbol u hu).least t.store (.refl _) hgood x fun v ⟨fact, hfact, hv⟩ => ?_
    rcases incoming_cases hlinked hblock hfact with rfl | ⟨p, hedge, hp⟩
    · exact hinitial v hv
    · exact hall p fact v hedge hp hv
  -- Behind blocks by induction along the blocks that lead there, unless they lie on a cycle.
  have hbehind : ∀ i : Fin g.blocks.size, c.LeadsTo g symbol ⟨i⟩ b → ∀ fact u, solution.after.get? ⟨i⟩ = some fact →
      fact.get? symbol = some u → t.store.Includes x u := by
    intro i
    induction i using (wellFounded_precedes (fun i : Fin g.blocks.size => ⟨i⟩) (c.Passes g symbol)).induction with
    | _ i ih =>
      intro hleads fact u hfact hu
      by_cases hbinds : c.Binds g symbol ⟨i⟩
      · exact hbound _ fact u hbinds hfact hu
      by_cases hcycle : Relation.TransGen (c.Passes g symbol) ⟨i⟩ ⟨i⟩
      · obtain ⟨hcalm1, hcalm2⟩ := h.moves.calm_parts hfirst.toSound hmoves hcalm
        refine (h.origins hcalm1 ⟨i⟩ fact hfact symbol u hu).least t.store hcalm2.grows hgood x fun v horigin => ?_
        rcases horigin with hv | ⟨p, -, hp, hpi, hseen⟩
        · exact hinitial v hv
        · exact hcirculates p v ⟨hp, ⟨i⟩, .trans_right hpi hcycle, hcycle, hleads⟩ hseen
      · have hreach : g.Reachable ⟨i⟩ := (h.justified.after_iff _).1 (by rw [hfact]; rfl)
        obtain ⟨block, hblock⟩ := hexists _ hreach
        obtain ⟨before, after, hbefore, hafter, hjustified⟩ := h.settled hqueue hfirst.toSound hmoves hreach hblock
        obtain rfl := Option.some.inj (hfact.symm.trans hafter)
        obtain ⟨-, r, -, -, -, hsame⟩ := hjustified hcalm
        rw [hsame] at hu
        rcases transfer_cases block before r hu with ⟨-, hu⟩ | ⟨hbound, -⟩
        · refine hbefore_of hreach hbefore hu fun p fact v hedge hp hv => ?_
          have hpasses : c.Passes g symbol p ⟨i⟩ := ⟨hedge, hbinds⟩
          obtain ⟨q, hq, hqb⟩ := hleads
          exact ih ⟨p.index, FlowGraph.has_of_successor hedge⟩ ⟨.single hpasses, hcycle⟩
            ⟨q, .head hpasses hq, hqb⟩ fact v hp hv
        · exact absurd ⟨block, hblock, hbound⟩ hbinds
  refine hbefore_of hreach hbefore hu fun p fact v hedge hp hv => ?_
  exact hbehind ⟨p.index, FlowGraph.has_of_successor hedge⟩ ⟨p, .refl, hedge⟩ fact v hp hv

theorem exists_origin
    (hfirst : Prepared c members c.initial first) (hlinked : g.Linked) (hcalm : first.Calm s.table) (hreach : g.Reachable b)
    (hb : g.block? b = some block) (hbefore : solution.before.get? b = some before) (hu : before.get? symbol = some u) :
    (∃ v, c.initial.get? symbol = some v) ∨ ∃ p, g.Reachable p ∧ c.Binds g symbol p := by
  have hs := h.moves.atRest hfirst.atRest
  obtain ⟨before', after, hbefore', -, hjustified⟩ := h.settled hqueue hfirst.atRest.toSound (.refl hs.toSound) hreach hb
  obtain rfl := Option.some.inj (hbefore.symm.trans hbefore')
  obtain ⟨v, fact, hfact, hv⟩ := ((hjustified hcalm).1 symbol u hu).exists_part
  obtain ⟨w, horigin⟩ := (h.incoming_origins hfirst hlinked hb hcalm hfact symbol v hv).exists_part
  rcases horigin with hw | ⟨p, hp, hbinds, -⟩
  · exact .inl ⟨w, hw⟩
  · exact .inr ⟨p, hp, hbinds⟩

end

end Facts

end FlowSensitive

end PythonTypes
