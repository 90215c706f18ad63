import PythonTypes.Proofs.Inference.Propagation
import PythonTypes.Proofs.Inference.Solution

/-!
# Summaries of variables

Once a body is solved, its blocks are replayed, and the summary of a variable is the union of what
it is bound to in the replay. If nothing is resolved during the last pass, the replay binds
the variable to what the blocks have left behind in the solution (`Facts.on_record`), and so the
summary covers what the variable is before any block, provided that it includes what may still
circulate in cycles of blocks that do not bind the variable (`symbolTypes_cover_facts`).

Where an earlier value circulates, where a type is resolved meanwhile, or where a lazy type is
compared without what it stands for, the summary may miss a fact (`symbolTypes_miss_facts`).
-/

set_option autoImplicit false

namespace PythonTypes

variable {P : SymbolId → TypeId → Prop} {state : TypeState} {t : Table}

/-- The state binds variables to known types, and every variable to a type that includes those it is
to include. -/
structure TypeState.IncludesAll (state : TypeState) (P : SymbolId → TypeId → Prop) (t : Table) : Prop where
  known : state.KnownIn t
  includes : ∀ symbol x, P symbol x → t.store.Known x ∧ ∃ y, state.get? symbol = some y ∧ t.store.Includes y x

theorem TypeState.IncludesAll.grows {t' : Table} (h : state.IncludesAll P t)
    (ht : t.store.WellFormed) (hgrows : t.store.Grows t'.store) : state.IncludesAll P t' := by
  refine ⟨fun symbol x hx => hgrows.known (h.known symbol x hx), fun symbol x hx => ?_⟩
  obtain ⟨hknown, y, hy, hincludes⟩ := h.includes symbol x hx
  exact ⟨hgrows.known hknown, y, hy, hincludes.grows ht hgrows (h.known symbol y hy) hknown⟩

theorem TypeState.IncludesAll.of_imp {Q : SymbolId → TypeId → Prop} (h : state.IncludesAll P t)
    (hQP : ∀ symbol x, Q symbol x → P symbol x) : state.IncludesAll Q t :=
  ⟨h.known, fun symbol x hx => h.includes symbol x (hQP symbol x hx)⟩

theorem TypeState.IncludesAll.set (h : state.IncludesAll P t)
    (ht : t.store.Good) {symbol : SymbolId} {x y : TypeId} (hx : t.store.Known x)
    (hy : t.store.Known y) (hincludes : t.store.Includes y x)
    (hold : ∀ z, state.get? symbol = some z → t.store.Includes y z) :
    (state.set symbol y).IncludesAll (fun symbol' z => P symbol' z ∨ symbol' = symbol ∧ z = x) t := by
  have hget : ∀ symbol', (state.set symbol y).get? symbol' = if symbol' = symbol then some y else
      state.get? symbol' := fun symbol' =>
    OrderedMap.get?_insert _ _ _ _
  refine ⟨h.known.set symbol hy, fun symbol' z hz => ?_⟩
  rcases hz with hz | ⟨rfl, rfl⟩
  · obtain ⟨hknown, w, hw, hwz⟩ := h.includes symbol' z hz
    grind [TypeStore.Includes.trans]
  · simp_all

namespace FlowSensitive

open Typing

variable {c : Setting} {members : OrderedMap ExprId TypeId} {g : FlowGraph} {s : Typing}
variable {symbol : SymbolId}

theorem includesAll_joinOne (hs : s.table.AtRest) (hstate : state.IncludesAll P s.table) (symbol : SymbolId)
    {x : TypeId} (hx : s.table.store.Known x) : Leads s (onTable (Table.onStore (state.joinOne symbol x)))
      fun state => state.IncludesAll fun symbol' z => P symbol' z ∨ symbol' = symbol ∧ z = x := by
  rcases joinOne_cases state symbol x s with ⟨hget, hjoin⟩ | ⟨old, hget, hjoin⟩
  · refine ⟨?_, ?_⟩ <;> rw [hjoin]
    · exact .refl hs.toSound
    · exact hstate.set hs.store.good hx hx (.refl _ x) fun z hz => by simp [hget] at hz
  · have hold := hstate.known symbol old hget
    have hleads := Leads.computes (hs.computes_union hold hx)
    refine ⟨?_, ?_⟩ <;> rw [hjoin]
    · exact hleads.reaches
    · have hgrows : s.table.store.Grows (onTable (Table.onStore (TypeStore.union old x)) s).2.table.store :=
        (TypeStore.union_sound hs.store.wellFormed hold hx).2.1
      have hgood := (hleads.reaches.moves.atRest hs).store.good
      obtain ⟨hincludes, hincludes'⟩ := hs.store.good.includes_union hgood hold hx
      refine (hstate.grows hs.store.wellFormed hgrows).set hgood (hgrows.known hx) hleads.answer hincludes' fun z hz => ?_
      obtain rfl := Option.some.inj (hget.symm.trans hz)
      exact hincludes

theorem includesAll_summarize (hs : s.table.AtRest) (bindings : List Binding)
    (hbindings : ∀ b ∈ bindings, s.table.store.Known b.type)
    (hstate : state.IncludesAll P s.table) : Leads s (onTable (Table.onStore (summarize state bindings)))
      fun summary => summary.IncludesAll fun symbol z => P symbol z ∨ ∃ b ∈ bindings,
        b.symbol = some symbol ∧ b.type = z := by
  induction bindings generalizing s state P with
  | nil => exact ⟨.refl hs.toSound, hstate.of_imp fun symbol z hz => by simpa using hz⟩
  | cons b rest ih =>
    have hrest : ∀ {s' : Typing}, s.table.Moves s'.table → ∀ b ∈ rest, s'.table.store.Known b.type := fun hmoves b hb =>
      hmoves.known hs.toSound (hbindings b (by simp [hb]))
    cases hb : b.symbol with
    | none =>
      have hskip : summarize state (b :: rest) = summarize state rest := by
        unfold summarize
        rw [List.foldlM_cons, hb]
        rfl
      rw [hskip]
      have hleads := ih hs (hrest (.refl hs.toSound)) hstate
      exact ⟨hleads.reaches, hleads.answer.of_imp fun symbol z hz => by simpa [hb] using hz⟩
    | some x =>
      have hjoin : summarize state (b :: rest) = (do summarize (← state.joinOne x b.type) rest) := by
        unfold summarize
        rw [List.foldlM_cons, hb]
      rw [hjoin, onStore_bind]
      refine (includesAll_joinOne hs hstate x (hbindings b (by simp))).bind hs.toSound fun state' s' hreaches hstate' => ?_
      grind [Table.Moves.atRest, Reaches.moves]

/-! ## The replay -/

/-- At some point between `s` and `s'` the block was evaluated from the state, and its bindings were
put on record. -/
def Replayed (c : Setting) (members : OrderedMap ExprId TypeId) (block : Block) (state : TypeState) (s s' : Typing) : Prop :=
  ∃ r : Typing, s.table.Moves r.table ∧ r.recording = true ∧ (transfer c members block state r).2.table.Moves s'.table ∧
    (transfer c members block state r).2.bindings.toList ⊆ s'.bindings.toList

theorem recording_transfer (block : Block) (state : TypeState) (s : Typing) :
    (transfer c members block state s).2.recording = s.recording ∧
      s.bindings.toList ⊆ (transfer c members block state s).2.bindings.toList := by
  obtain ⟨bindings, -, -, hrecording, hbindings⟩ := executes_transfer (c := c) block state s
  rw [hbindings]
  exact ⟨hrecording, List.subset_append_left _ _⟩

theorem replay_cases (before : OrderedMap BlockId TypeState) (b : BlockId) (rest : List BlockId) (s : Typing) :
    (∃ block state, g.block? b = some block ∧ before.get? b = some state ∧
      replay c members g before (b :: rest) s = replay c members g before rest (transfer c members block state s).2) ∨
    ((∀ block state, g.block? b = some block → before.get? b ≠ some state) ∧
      replay c members g before (b :: rest) s = replay c members g before rest s) := by
  rw [replay]
  cases g.block? b with
  | none => simp
  | some block =>
    cases before.get? b with
    | none => simp
    | some state => exact .inl ⟨block, state, rfl, rfl, rfl⟩

theorem replay_replayed {before : OrderedMap BlockId TypeState} (order : List BlockId)
    (hs : Prepared c members .bottom s.table)
    (hbefore : ∀ b state, before.get? b = some state → state.KnownIn s.table) (hrecording : s.recording = true) :
    s.Reaches (replay c members g before order s).2 ∧
    s.bindings.toList ⊆ (replay c members g before order s).2.bindings.toList ∧
      ∀ b ∈ order, ∀ block state, g.block? b = some block → before.get? b = some state →
        Replayed c members block state s (replay c members g before order s).2 := by
  have hsound := hs.atRest.toSound
  induction order generalizing s with
  | nil => exact ⟨.refl hsound, fun _ hb => hb, fun b hb => (nomatch hb)⟩
  | cons b rest ih =>
    rcases replay_cases before b rest s with ⟨block, state, hb, hstate, hreplay⟩ | ⟨hnone, hreplay⟩ <;> rw [hreplay]
    · have hprepared := hs.withState (hbefore b state hstate)
      have hreaches := (hprepared.retraces_transfer block).leads.reaches
      have hs1 := hs.moves hreaches.moves
      have hknown := fun b' state' (hstate' : before.get? b' = some state') symbol x hx =>
        hreaches.moves.known hsound (hbefore b' state' hstate' symbol x hx)
      obtain ⟨hrecording1, hbindings1⟩ : (transfer c members block state s).2.recording = s.recording ∧ _ :=
        recording_transfer block state s
      obtain ⟨hreaches', hbindings, hall⟩ := ih hs1 hknown (hrecording1.trans hrecording) hs1.atRest.toSound
      refine ⟨hreaches.trans hsound hreaches', List.Subset.trans hbindings1 hbindings,
        fun b' hb' block' state' hblock' hstate' => ?_⟩
      rcases List.mem_cons.1 hb' with rfl | hb'
      · obtain rfl := Option.some.inj (hb.symm.trans hblock')
        obtain rfl := Option.some.inj (hstate.symm.trans hstate')
        exact ⟨s, .refl hsound, hrecording, hreaches'.moves, hbindings⟩
      · obtain ⟨r, hr, hrest⟩ := hall b' hb' block' state' hblock' hstate'
        exact ⟨r, hreaches.moves.trans hsound hr, hrest⟩
    · grind

theorem Replayed.exists_binding {block : Block} {s' : Typing} (h : Replayed c members block state s s')
    (hbound : symbol ∈ c.boundBy block) : ∃ b ∈ s'.bindings.toList, b.symbol = some symbol := by
  obtain ⟨r, -, hrecording, -, hsub⟩ := h
  have hexecutes : Executes state (c.boundBy block) (transfer c members block state) := executes_transfer block state
  obtain ⟨bindings, hsymbols, -, -, hbindings⟩ := hexecutes r
  grind

/-- If nothing is resolved, a replay binds variables to what the solver found behind the blocks in
the end. -/
theorem Facts.on_record {seen : BlockId → SymbolId → TypeId → Prop} {first : Table} {solution : Solution TypeState}
    (h : Facts c members g seen first solution s) (hqueue : solution.queue = []) (hfirst : Prepared c members c.initial first)
    {s1 s2 : Typing} (hmoves1 : s.table.Moves s1.table)
    (hreplayed : ∀ b block state, g.Reachable b → g.block? b = some block →
      solution.before.get? b = some state → Replayed c members block state s1 s2) (hmoves2 : s2.table.Moves t)
    (hcalm : first.Calm t) {p : BlockId} (hbinds : c.Binds g symbol p) {fact : TypeState}
    {u : TypeId} (hfact : solution.after.get? p = some fact) (hu : fact.get? symbol = some u) :
    ∃ b ∈ s2.bindings.toList, b.symbol = some symbol ∧ b.type = u := by
  obtain ⟨block, hblock, hbound⟩ := hbinds
  have hreach : g.Reachable p := (h.justified.after_iff p).1 (by rw [hfact]; rfl)
  have hsound := hfirst.atRest.toSound
  have hs := hfirst.moves h.moves
  obtain ⟨before, after, hbefore, hafter, hjustified⟩ := h.settled hqueue hsound (.refl hs.atRest.toSound) hreach hblock
  obtain rfl := Option.some.inj (hfact.symm.trans hafter)
  obtain ⟨r', hmoves', hrecording, htransfer', hsub⟩ := hreplayed p block before hreach hblock hbefore
  have hmoves_r' := hmoves1.trans hs.atRest.toSound hmoves'
  have hprepared' : Prepared c members before r'.table := (hs.withState (h.before_known p before hbefore)).moves hmoves_r'
  have hleads' := (hprepared'.retraces_transfer block).leads.reaches.moves
  have hend := htransfer'.trans (hleads'.atRest hprepared'.atRest).toSound hmoves2
  have hmoves_t := hleads'.trans hprepared'.atRest.toSound hend
  obtain ⟨hcalm_s, hcalm_t⟩ := h.moves.calm_parts hsound (hmoves_r'.trans hs.atRest.toSound hmoves_t) hcalm
  obtain ⟨hcalm_r', hcalm_t⟩ := hmoves_r'.calm_parts hs.atRest.toSound hmoves_t hcalm_t
  -- The evaluation that gave the fact in the solver, with nothing resolved from there on.
  obtain ⟨-, r, hprepared, htransfer, hr, hsame⟩ := hjustified hcalm_s
  have hleads := (hprepared.retraces_transfer block).leads.reaches.moves
  have hsound_r := hprepared.atRest.toSound
  obtain ⟨-, hcalm_rs⟩ := hr.calm_parts hsound (hleads.trans hsound_r htransfer) hcalm_s
  obtain ⟨hcalm_within, hcalm_after⟩ := hleads.calm_parts hsound_r htransfer hcalm_rs
  have hagain := (hprepared.retraces_transfer block).again r'
    ⟨hcalm_within, hcalm_after.trans hcalm_r', (hleads'.calm_parts hprepared'.atRest.toSound hend hcalm_t).1⟩
  rw [hsame, ← hagain] at hu
  rcases transfer_cases block before r' hu with ⟨hfree, -⟩ | ⟨-, hrecord⟩
  · exact absurd hbound hfree
  · grind

/-! ## Passes -/

/-- The solution that a pass finds, and the state in which it replays the blocks. -/
def solved (c : Setting) (g : FlowGraph) (maxIterations : Nat) (f : Findings) (s : Typing) : Solution TypeState × Typing :=
  let r := (analysis c f.members).solve g maxIterations s
  (r.1, { r.2 with members := #[], recording := true })

/-- The state at the end of the replay of a pass. -/
def replayed (c : Setting) (g : FlowGraph) (maxIterations : Nat) (f : Findings) (s : Typing) : Typing :=
  let r := solved c g maxIterations f s
  (replay c f.members g r.1.before g.reversePostorder r.2).2

/-- The members that a pass finds. -/
def newMembers (s : Typing) : List (ExprId × TypeId) := s.members.toList.filterMap fun (e, member) => member.map (e, ·)

theorem pass_apply (c : Setting) (g : FlowGraph) (maxIterations : Nat) (f : Findings) (s : Typing) :
    let r := replayed c g maxIterations f s
    (pass c g maxIterations f s).1.members = f.members.insertAll (newMembers r) ∧
      (pass c g maxIterations f s).1.found = f.found.insertAll (newMembers r) ∧
      (pass c g maxIterations f s).1.bindings = r.bindings.toList ∧
      (pass c g maxIterations f s).2 = { r with recording := false, types := #[], members := #[], bindings := #[] } :=
  ⟨rfl, rfl, rfl, rfl⟩

/-- Between passes, all types found so far are known, and no binding is on record. -/
structure Underway (c : Setting) (f : Findings) (s : Typing) : Prop where
  prepared : Prepared c f.members c.initial s.table
  found : ∀ e x, f.found.get? e = some x → s.table.store.Known x
  bindings : s.bindings = #[]
  recording : s.recording = false

namespace Underway

variable {f : Findings} {maxIterations : Nat}

theorem solve_record (h : Underway c f s) (g : FlowGraph) (maxIterations : Nat) :
    (solved c g maxIterations f s).2.bindings = #[] := by
  refine ((analysis c f.members).solve_state g (fun s => s.bindings = #[] ∧ s.recording = false)
    (fun _ _ hs => hs) ?_ maxIterations ⟨h.bindings, h.recording⟩).1
  intro b block state s ⟨hbindings, hrecording⟩
  have hexecutes : Executes state (c.boundBy block) (transfer c f.members block state) := executes_transfer block state
  obtain ⟨bindings, -, -, hrecording', hbindings'⟩ := hexecutes s
  refine ⟨?_, hrecording'.trans hrecording⟩
  rw [hrecording, hbindings] at hbindings'
  exact Array.toList_inj.1 hbindings'

section

variable (h : Underway c f s) (hlinked : g.Linked)

include h hlinked

theorem facts (maxIterations : Nat) :
    ∃ last, Facts c f.members g (c.LeavesBehind f.members g maxIterations s) s.table last (solved c g maxIterations f s).2 ∧
      (solved c g maxIterations f s).1.before = last.before ∧
      ((solved c g maxIterations f s).1 = last ∧ last.queue = [] ∨ (solved c g maxIterations f s).1.converged = false) := by
  obtain ⟨last, hfacts, hend⟩ := Facts.solve h.prepared hlinked maxIterations
  exact ⟨last, ⟨hfacts.moves, hfacts.after_known, hfacts.before_known, hfacts.origins, hfacts.justified⟩, hend⟩

theorem replays (maxIterations : Nat) : (solved c g maxIterations f s).2.table.Moves (replayed c g maxIterations f s).table ∧
      (replayed c g maxIterations f s).KnownRecord ∧
      ∀ b block state, g.Reachable b → g.block? b = some block → (solved c g maxIterations f s).1.before.get? b = some state →
        Replayed c f.members block state (solved c g maxIterations f s).2 (replayed c g maxIterations f s) := by
  obtain ⟨last, hfacts, hbefore, -⟩ := h.facts hlinked maxIterations
  have hprepared := h.prepared.moves hfacts.moves
  have hknown : ∀ b state, (solved c g maxIterations f s).1.before.get? b = some state →
      state.KnownIn (solved c g maxIterations f s).2.table := fun b state hstate =>
        hfacts.before_known b state (hbefore ▸ hstate)
  have hbottom : Prepared c f.members .bottom (solved c g maxIterations f s).2.table :=
    hprepared.withState fun symbol x hx => (nomatch hx)
  obtain ⟨hreaches, -, hall⟩ := replay_replayed (g := g) g.reversePostorder hbottom hknown rfl
  refine ⟨hreaches.moves, hreaches.record hprepared.atRest.toSound ⟨fun e x hx => (nomatch hx), fun b hb => ?_⟩,
    fun b block state hb => hall b ((g.mem_reversePostorder_iff b).2 hb) block state⟩
  rw [h.solve_record] at hb
  cases hb

theorem afterPass (maxIterations : Nat) : Underway c (pass c g maxIterations f s).1 (pass c g maxIterations f s).2 ∧
      s.table.Moves (pass c g maxIterations f s).2.table := by
  obtain ⟨hmembers, hfound, -, hstate⟩ := pass_apply c g maxIterations f s
  obtain ⟨last, hfacts, -⟩ := h.facts hlinked maxIterations
  obtain ⟨hmoves, hrecord, -⟩ := h.replays hlinked maxIterations
  have hmoves_all := hfacts.moves.trans h.prepared.atRest.toSound hmoves
  have hprepared := h.prepared.moves hmoves_all
  have hnew : ∀ e x, (e, x) ∈ newMembers (replayed c g maxIterations f s) →
      (replayed c g maxIterations f s).table.store.Known x := by
    intro e x hx
    obtain ⟨⟨e', member⟩, hmem, hmember⟩ := List.mem_filterMap.1 hx
    obtain ⟨y, rfl, hpair⟩ := Option.map_eq_some_iff.1 hmember
    cases hpair
    exact hrecord.members e x hmem
  rw [hstate]
  refine ⟨⟨⟨hprepared.atRest, hprepared.symbolTypes, fun e x hx => ?_, hprepared.state⟩,
    fun e x hx => ?_, rfl, rfl⟩, hmoves_all⟩
  · rw [hmembers] at hx
    exact (OrderedMap.mem_of_get?_insertAll hx).elim (hprepared.members e x) (hnew e x)
  · rw [hfound] at hx
    exact (OrderedMap.mem_of_get?_insertAll hx).elim
      (fun hx => hmoves_all.known h.prepared.atRest.toSound (h.found e x hx)) (hnew e x)

theorem afterPasses (maxIterations count : Nat) :
    Underway c (passes c g maxIterations count f s).1 (passes c g maxIterations count f s).2 := by
  induction count generalizing f s with
  | zero => exact h
  | succ count ih => exact ih (h.afterPass hlinked maxIterations).1

theorem moves_passes (maxIterations count : Nat) : s.table.Moves (passes c g maxIterations count f s).2.table := by
  induction count generalizing f s with
  | zero => exact .refl h.prepared.atRest.toSound
  | succ count ih =>
    obtain ⟨hnext, hmoves⟩ := h.afterPass hlinked maxIterations
    exact hmoves.trans h.prepared.atRest.toSound (ih hnext)

end

end Underway

/-! ## Inference -/

/-- What the passes before the last one have found, and the state in which the last one starts. -/
def beforeLastPass (c : Setting) (g : FlowGraph) (count maxIterations : Nat) (s : Typing) : Findings × Typing :=
  passes c g maxIterations (max count 1 - 1) { members := c.known.members } s

theorem passes_succ (c : Setting) (g : FlowGraph) (maxIterations count : Nat) (f : Findings)
    (s : Typing) : passes c g maxIterations (count + 1) f s =
      pass c g maxIterations (passes c g maxIterations count f s).1 (passes c g maxIterations count f s).2 := by
  have hfirst : ∀ count f s, passes c g maxIterations (count + 1) f s =
      passes c g maxIterations count (pass c g maxIterations f s).1 (pass c g maxIterations f s).2 := fun _ _ _ => rfl
  induction count generalizing f s with
  | zero => rfl
  | succ count ih => rw [hfirst (count + 1), ih, hfirst count]

/-- The summary at the end of a pass, and the state in which inference would end with it. -/
def summarized (c : Setting) (g : FlowGraph) (maxIterations : Nat) (f : Findings) (s : Typing) : TypeState × Typing :=
  let last := pass c g maxIterations f s
  onTable (Table.onStore (summarize c.initial last.1.bindings)) last.2

theorem passes_eq_pass (c : Setting) (g : FlowGraph) (count maxIterations : Nat) (s : Typing) :
    let start := beforeLastPass c g count maxIterations s
    passes c g maxIterations (max count 1) { members := c.known.members } s = pass c g maxIterations start.1 start.2 := by
  have hcount : max count 1 = max count 1 - 1 + 1 := by omega
  rw [hcount]
  exact passes_succ c g maxIterations (max count 1 - 1) { members := c.known.members } s

theorem infer_apply (c : Setting) (g : FlowGraph) (count maxIterations : Nat) (s : Typing) :
    let start := beforeLastPass c g count maxIterations s
    let summary := summarized c g maxIterations start.1 start.2
    (infer c g count maxIterations s).1.symbolTypes = summary.1.types.entries ∧
    (infer c g count maxIterations s).2 = summary.2 := by
  have hinfer : ∀ p, passes c g maxIterations (max count 1) { members := c.known.members } s = p →
      (infer c g count maxIterations s).1.symbolTypes =
        (onTable (Table.onStore (summarize c.initial p.1.bindings)) p.2).1.types.entries ∧
        (infer c g count maxIterations s).2 = (onTable (Table.onStore (summarize c.initial p.1.bindings)) p.2).2 := by
    rintro _ rfl
    exact ⟨rfl, rfl⟩
  exact hinfer _ (passes_eq_pass c g count maxIterations s)

theorem Underway.start (c : Setting) {table : Table} (htable : table.AtRest)
    (hparameters : ∀ p ∈ c.body.parameters, table.store.Known p.2)
    (hsymbols : ∀ symbol x, c.known.symbolTypes.get? symbol = some x → table.store.Known x)
    (hmembers : ∀ e x, c.known.members.get? e = some x → table.store.Known x) :
    Underway c { members := c.known.members } { table } := by
  refine ⟨⟨htable, Knowledge.known_symbolType htable hsymbols, hmembers, fun symbol x hx => ?_⟩,
    fun e x hx => (nomatch hx), rfl, rfl⟩
  rcases OrderedMap.mem_of_get?_insertAll hx with hx | hx
  · cases hx
  · exact hparameters (symbol, x) hx

namespace Underway

variable {f : Findings}

theorem leads_summarize (h : Underway c f s) (hlinked : g.Linked) (maxIterations : Nat) :
    let r := replayed c g maxIterations f s
    let summary := summarized c g maxIterations f s
    r.table.Moves summary.2.table ∧ summary.1.IncludesAll (fun symbol x => c.initial.get? symbol = some x ∨
      ∃ b ∈ r.bindings.toList, b.symbol = some symbol ∧ b.type = x) summary.2.table := by
  obtain ⟨-, hrecord, -⟩ := h.replays hlinked maxIterations
  obtain ⟨hunderway, -⟩ := h.afterPass hlinked maxIterations
  have hstate := hunderway.prepared.state
  have hinitial : c.initial.IncludesAll (fun symbol x => c.initial.get? symbol = some x)
      (pass c g maxIterations f s).2.table :=
    ⟨hstate, fun symbol x hx => ⟨hstate symbol x hx, x, hx, .refl _ x⟩⟩
  have hleads :=
    includesAll_summarize hunderway.prepared.atRest (pass c g maxIterations f s).1.bindings
    hrecord.bindings hinitial
  exact ⟨hleads.reaches.moves, hleads.answer⟩

/-- If nothing is resolved during a pass that converges, the summary covers what the variables are
before blocks, provided that it includes what may circulate there. -/
theorem summary_covers (h : Underway c f s) (hlinked : g.Linked)
    (hexists : ∀ b, g.Reachable b → ∃ block, g.block? b = some block) (maxIterations : Nat) :
    let solution := (solved c g maxIterations f s).1
    let summary := summarized c g maxIterations f s
    solution.converged = true → ¬ s.table.Stirs summary.2.table →
      ∀ b state symbol t, g.Reachable b → solution.before.get? b = some state → state.get? symbol =
        some t → ∃ whole, summary.1.get? symbol = some whole ∧
          ((∀ p u, c.MayCirculate g symbol p b → c.LeavesBehind f.members g maxIterations s p symbol u →
            summary.2.table.store.Includes whole u) →
              summary.2.table.store.Includes whole t ∧ summary.2.table.store.CoversFollowed whole t) := by
  intro solution summary hconverged hquiet b state symbol t hreach hstate ht
  obtain ⟨last, hfacts, -, hend⟩ := h.facts hlinked maxIterations
  obtain ⟨rfl, hqueue⟩ : solution = last ∧ last.queue = [] := hend.resolve_right (by simp [solution, hconverged])
  obtain ⟨hmoves, -, hreplayed⟩ := h.replays hlinked maxIterations
  obtain ⟨hmoves', hincludes⟩ := h.leads_summarize hlinked maxIterations
  have hsound := h.prepared.atRest.toSound
  have hsolved := hfacts.moves.atRest h.prepared.atRest
  have hmoves_end := hmoves.trans hsolved.toSound hmoves'
  have hcalm := (hfacts.moves.trans hsound hmoves_end).calm hquiet
  have hcalm_solved := (hfacts.moves.calm_parts hsound hmoves_end hcalm).1
  -- The variable is in the summary because it is bound on entry or by a block that is replayed.
  obtain ⟨whole, hwhole⟩ : ∃ whole, summary.1.get? symbol = some whole := by
    obtain ⟨block, hblock⟩ := hexists b hreach
    rcases hfacts.exists_origin hqueue h.prepared hlinked hcalm_solved hreach hblock hstate ht with
      ⟨v, hv⟩ | ⟨p, hp, block, hblock, hbound⟩
    · obtain ⟨-, whole, hwhole, -⟩ := hincludes.includes symbol v (.inl hv)
      exact ⟨whole, hwhole⟩
    · obtain ⟨before, -, hbefore, -⟩ := hfacts.settled hqueue hsound (.refl hsolved.toSound) hp hblock
      obtain ⟨x, hx, hsymbol⟩ := (hreplayed p block before hp hblock hbefore).exists_binding hbound
      obtain ⟨-, whole, hwhole, -⟩ := hincludes.includes symbol x.type (.inr ⟨x, hx, hsymbol, rfl⟩)
      exact ⟨whole, hwhole⟩
  have hall : ∀ u, (c.initial.get? symbol = some u ∨ ∃ x ∈ (replayed c g maxIterations f s).bindings.toList,
      x.symbol = some symbol ∧ x.type = u) → summary.2.table.store.Includes whole u := by
    intro u hu
    obtain ⟨-, whole', hwhole', hu⟩ := hincludes.includes symbol u hu
    obtain rfl := Option.some.inj (hwhole.symm.trans hwhole')
    exact hu
  refine ⟨whole, hwhole, fun hcirculates => ?_⟩
  have hcovered := hfacts.includes hqueue h.prepared.atRest hlinked hexists hmoves_end hcalm (fun u hu => hall u (.inl hu))
    (fun p fact u hbinds hfact hu =>
      hall u
      (.inr (hfacts.on_record hqueue h.prepared (.refl hsolved.toSound) hreplayed hmoves' hcalm
      hbinds hfact hu))) hcirculates hreach hstate ht
  have hknown := hmoves_end.known hsolved.toSound (hfacts.before_known b state hstate symbol t ht)
  exact ⟨hcovered, hcovered.coversFollowed (hmoves_end.atRest hsolved).store.good
    (hincludes.known symbol whole hwhole) hknown⟩

end Underway

/-- The summary of a variable covers what the variable is before the blocks of the body, except for
what may have circulated in a loop since its binding has changed. -/
theorem symbolTypes_cover_facts (c : Setting) {g : FlowGraph}
    (hg : FlowGraph.ofBody c.body.stmts = .ok g) (count maxIterations : Nat)
    {table : Table} (htable : table.AtRest) (hparameters : ∀ p ∈ c.body.parameters, table.store.Known p.2)
    (hsymbols : ∀ symbol x, c.known.symbolTypes.get? symbol = some x → table.store.Known x)
    (hmembers : ∀ e x, c.known.members.get? e = some x → table.store.Known x) :
    let start := beforeLastPass c g count maxIterations { table }
    let solution := ((analysis c start.1.members).solve g maxIterations start.2).1
    let result := infer c g count maxIterations { table }
    solution.converged = true → ¬ start.2.table.Stirs result.2.table →
      ∀ b state symbol t, g.Reachable b → solution.before.get? b = some state → state.get? symbol =
        some t → ∃ whole, (symbol, whole) ∈ result.1.symbolTypes ∧
          ((∀ p u, c.MayCirculate g symbol p b → c.LeavesBehind start.1.members g maxIterations start.2 p symbol u →
            result.2.table.store.Includes whole u) →
              result.2.table.store.Includes whole t ∧ result.2.table.store.CoversFollowed whole t) := by
  intro start solution result hconverged hquiet b state symbol t hreach hstate ht
  have hlinked := FlowGraph.linked_ofBody hg
  have hstart : Underway c start.1 start.2 :=
    (Underway.start c htable hparameters hsymbols hmembers).afterPasses hlinked maxIterations _
  obtain ⟨htypes, hresult⟩ := infer_apply c g count maxIterations { table }
  rw [show result.2 = _ from hresult] at hquiet ⊢
  obtain ⟨whole, hwhole, hcovers⟩ :=
    hstart.summary_covers hlinked (fun _ => FlowGraph.exists_block_of_reachable hg) maxIterations
    hconverged hquiet b state symbol t hreach hstate ht
  refine ⟨whole, ?_, hcovers⟩
  rw [show result.1.symbolTypes = _ from htypes]
  exact (OrderedMap.get?_eq_some_iff _ symbol whole).1 hwhole

/-- The setting of a function without parameters, given what is known of symbols of its module. -/
def Setting.ofFunction (body : List Source.Stmt) (known : List (SymbolId × TypeId)) : Setting :=
  let tree := ({ path := "m", body := [.functionDef { name := "f" } body] } : Source.Module).bind
  { tree
    known := { symbolTypes := .ofList known }
    body := match tree.functionDefs with
      | .functionDef _ header stmts :: _ => tree.functionBody header stmts []
      | _ => tree.moduleBody }

/-- The control flow graph of a body that has one. -/
def Setting.flowGraph (c : Setting) : FlowGraph := (FlowGraph.ofBody c.body.stmts).toOption.getD default

theorem Setting.ofBody_eq_flowGraph (h : (FlowGraph.ofBody c.body.stmts).isOk = true) :
    FlowGraph.ofBody c.body.stmts = .ok c.flowGraph := by
  unfold flowGraph
  cases hg : FlowGraph.ofBody c.body.stmts with
  | error err =>
    rw [hg] at h
    cases h
  | ok g => rfl

/-- A loop that reads a member of a variable on one way and binds the variable again on the other
one. -/
def readsInLoop : Setting := .ofFunction [
  .assign [.target "x"] (.read "C"),
  .whileStmt (.read "c") [.ifStmt (.read "c") [.assign [.target "y"] (.qualified (.read "x") "inner")]
    [.assign [.target "x"] (.read "C")]] [],
  .returnStmt (some (.read "y"))] [(⟨3⟩, ⟨2⟩)]

/-- The nested class that the member is goes round in the loop on the way that does not bind it. -/
theorem symbolTypes_cover_facts_readsInLoop :
    let c := readsInLoop
    let start := beforeLastPass c c.flowGraph 1 100 { table := Propagation.nestedClassesTable }
    let solution := ((analysis c start.1.members).solve c.flowGraph 100 start.2).1
    let result := infer c c.flowGraph 1 100 { table := Propagation.nestedClassesTable }
    FlowGraph.ofBody c.body.stmts = .ok c.flowGraph ∧ solution.converged = true ∧ ¬ start.2.table.Stirs result.2.table ∧
      c.MayCirculate c.flowGraph ⟨2⟩ ⟨6⟩ ⟨2⟩ ∧ c.LeavesBehind start.1.members c.flowGraph 100 start.2 ⟨6⟩ ⟨2⟩ ⟨3⟩ ∧
      ∃ state, solution.before.get? ⟨2⟩ = some state ∧ state.get? ⟨2⟩ = some ⟨3⟩ ∧ (⟨2⟩, ⟨3⟩) ∈ result.1.symbolTypes ∧
        result.2.table.store.Includes ⟨3⟩ ⟨3⟩ ∧ result.2.table.store.CoversFollowed ⟨3⟩ ⟨3⟩ := by
  have hall : let c := readsInLoop
      let start := beforeLastPass c c.flowGraph 1 100 { table := Propagation.nestedClassesTable }
      let solution := ((analysis c start.1.members).solve c.flowGraph 100 start.2).1
      let result := infer c c.flowGraph 1 100 { table := Propagation.nestedClassesTable }
      let trace := (analysis c start.1.members).trace c.flowGraph 100 ((analysis c start.1.members).start c.flowGraph) start.2
      (FlowGraph.ofBody c.body.stmts).isOk = true ∧ solution.converged = true ∧ ¬ start.2.table.Stirs result.2.table ∧
        ⟨2⟩ ∈ c.flowGraph.reversePostorder ∧ (solution.before.get? ⟨2⟩).bind (·.get? ⟨2⟩) = some ⟨3⟩ ∧
        (∀ e ∈ result.1.symbolTypes, e.1 = ⟨2⟩ → e.2 = ⟨3⟩) ∧ c.Binds c.flowGraph ⟨2⟩ ⟨6⟩ ∧
        (∀ i ∈ [(6, 8), (8, 2), (2, 3), (3, 7), (7, 8)], c.Passes c.flowGraph ⟨2⟩ ⟨i.1⟩ ⟨i.2⟩) ∧
        (∃ solution ∈ trace, (solution.after.get? ⟨6⟩).bind (·.get? ⟨2⟩) = some ⟨3⟩) ∧
        ∀ solution ∈ trace, ∀ e ∈ solution.after.entries, ∀ e' ∈ e.2.types.entries, e'.1 = ⟨2⟩ → e'.2 = ⟨3⟩ := by
    decide +kernel
  have hrest := Propagation.atRest_nestedClassesTable
  have hparameters : readsInLoop.body.parameters = [] := by decide +kernel
  have hclass : Propagation.nestedClassesTable.store.Known ⟨2⟩ := by decide +kernel
  have hsymbols : ∀ symbol x, readsInLoop.known.symbolTypes.get? symbol = some x →
      Propagation.nestedClassesTable.store.Known x := by
    intro symbol x hx
    rcases OrderedMap.mem_of_get?_insertAll hx with hx | hx
    · cases hx
    · cases List.mem_singleton.1 hx
      exact hclass
  dsimp only at hrest
  have hgraph := Setting.ofBody_eq_flowGraph hall.1
  have hcover := symbolTypes_cover_facts readsInLoop hgraph 1 100 hrest (by simp [hparameters])
    hsymbols (fun e x hx => (nomatch hx)) hall.2.1 hall.2.2.1
  dsimp only at hall hcover ⊢
  -- From here on it does not matter what the terms evaluate to.
  generalize beforeLastPass readsInLoop readsInLoop.flowGraph 1 100 { table := Propagation.nestedClassesTable } = start at *
  generalize infer readsInLoop readsInLoop.flowGraph 1 100 { table := Propagation.nestedClassesTable } = result at *
  generalize readsInLoop = c at *
  obtain ⟨-, hconverged, hquiet, hreach, hfact, hwhole, hbinds, hpasses, ⟨early, hearly, hbehind⟩, hseen⟩ := hall
  obtain ⟨state, hstate, ht⟩ := Option.bind_eq_some_iff.1 hfact
  obtain ⟨fact, hafter, hget⟩ := Option.bind_eq_some_iff.1 hbehind
  have hcycle : Relation.TransGen (c.Passes c.flowGraph ⟨2⟩) ⟨8⟩ ⟨8⟩ :=
    .head (hpasses (8, 2) (by simp)) (.head (hpasses (2, 3) (by simp))
      (.head (hpasses (3, 7) (by simp)) (.single (hpasses (7, 8) (by simp)))))
  have hcirculates : c.MayCirculate c.flowGraph ⟨2⟩ ⟨6⟩ ⟨2⟩ :=
    ⟨hbinds, ⟨8⟩, .single (hpasses (6, 8) (by simp)), hcycle, ⟨8⟩, .refl, (hpasses (8, 2) (by simp)).1⟩
  refine ⟨hgraph, hconverged, hquiet, hcirculates, ⟨early, hearly, fact, hafter, hget⟩, state, hstate, ht, ?_⟩
  obtain ⟨whole, hmem, hcovers⟩ := hcover ⟨2⟩ state ⟨2⟩ ⟨3⟩ ((FlowGraph.mem_reversePostorder_iff _ _).1 hreach) hstate ht
  obtain rfl := hwhole _ hmem rfl
  refine ⟨hmem, hcovers fun p u _ ⟨solution, hsolution, fact, hfact, hu⟩ => ?_⟩
  obtain rfl := hseen solution hsolution (p, fact) ((OrderedMap.get?_eq_some_iff _ _ _).1 hfact)
    (⟨2⟩, u) ((OrderedMap.get?_eq_some_iff _ _ _).1 hu) rfl
  exact .refl _ _

/-- The last pass converges, but there is a block before which a tracked variable has a type that
its summary does not cover. -/
def Misses (c : Setting) (table : Table) (b : BlockId) (symbol : SymbolId) (t whole : TypeId) : Prop :=
  let start := beforeLastPass c c.flowGraph 1 100 { table }
  let solution := ((analysis c start.1.members).solve c.flowGraph 100 start.2).1
  let result := infer c c.flowGraph 1 100 { table }
  (FlowGraph.ofBody c.body.stmts).isOk = true ∧ solution.converged = true ∧ b ∈ c.flowGraph.reversePostorder ∧
    symbol ∈ c.body.tracked ∧ (solution.before.get? b).bind (·.get? symbol) = some t ∧
      (symbol, whole) ∈ result.1.symbolTypes ∧
    whole ≠ .unknown ∧ result.2.table.store.covers whole t = false

instance (c : Setting) (table : Table) (b : BlockId) (symbol : SymbolId) (t whole : TypeId) :
    Decidable (Misses c table b symbol t whole) := by
  unfold Misses
  infer_instance

/-- A loop that reads a member of a variable on one way before it has been bound on the other
one. -/
def readsBeforeBound : Setting := .ofFunction [
  .whileStmt (.read "c") [.ifStmt (.read "c") [.assign [.target "b"] (.qualified (.read "a") "inner")]
    [.assign [.target "a"] (.read "C")]] [],
  .returnStmt (some (.read "b"))] [(⟨4⟩, ⟨2⟩)]

/-- A package with a submodule, and a variable that is a class of the submodule. -/
def reexportedClass : Project :=
  ((({} : Project).addModule (.ofPath "k")).addModule
    (ModuleDescriptor.addMember (.ofPath "k.n") (.ofClass "B" (some "k.n.B") [] [] false none))).addModule
    (ModuleDescriptor.addMember (.ofPath "z") (.ofVariable { name := "y", path := "k.n.B" }))

/-- A body that reads the submodule before the class is resolved, which loads the submodule. -/
def readsBeforeLoaded : Setting := .ofFunction [
  .assign [.target "x"] (.qualified (.read "k") "n"),
  .assign [.target "y"] (.qualified (.read "L") "foo"),
  .ifStmt (.read "c") [.returnStmt (some (.read "x"))] []] [(⟨3⟩, ⟨2⟩), (⟨4⟩, ⟨3⟩)]

/-- Two classes, and a variable that is one of them. -/
def reexportedOne : Project :=
  (({} : Project).addModule ((ModuleDescriptor.addMember (.ofPath "q") (.ofClass "B" (some "q.B") [] [] false none)).addMember
    (.ofClass "M" (some "q.M") [] [] false none))).addModule
    (ModuleDescriptor.addMember (.ofPath "z") (.ofVariable { name := "y", path := "q.B" }))

/-- A body that binds a variable to a lazy type, or to a class on a way that ends with an
exception. -/
def bindsLazy : Setting := .ofFunction [
  .ifStmt (.read "c") [.assign [.target "x"] (.read "L")] [.assign [.target "x"] (.read "M"), .raiseStmt none],
  .returnStmt (some (.read "x"))] [(⟨3⟩, ⟨5⟩), (⟨4⟩, ⟨3⟩)]

/-- An unknown type that is there before the variable is bound circulates in the loop. A submodule
that is loaded meanwhile is found by the replay only. A lazy type that was resolved earlier stands
in the facts, while the summary has the class it is resolved to. -/
theorem symbolTypes_miss_facts :
    Misses readsBeforeBound Propagation.nestedClassesTable ⟨2⟩ ⟨1⟩ .unknown ⟨3⟩ ∧
      Misses readsBeforeLoaded
        ((Table.create reexportedClass {} {}).performAll [.getType "k", .getType "z"]) ⟨3⟩
        ⟨1⟩ .unknown ⟨6⟩ ∧
      Misses bindsLazy ((Table.create reexportedOne {} {}).performAll [.getType "q.M", .getType "z",
        .resolveLazy ⟨5⟩]) ⟨4⟩ ⟨1⟩ ⟨5⟩ ⟨7⟩ := by
  decide +kernel

end FlowSensitive

end PythonTypes
