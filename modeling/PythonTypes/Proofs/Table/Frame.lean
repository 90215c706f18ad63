import Mathlib.Tactic.Positivity
import Mathlib.Tactic.Set
import PythonTypes.Proofs.Table.Lookups
import PythonTypes.Proofs.Text.DottedName

/-!
# What queries leave alone

However deep they go, queries keep the descriptors of a table and remember where paths lead
(`Extends`). Where a path leads is written once the way there is known, and a look-up inside another
one may write it first; but nothing that was there when a query began is overwritten by it.
-/

set_option autoImplicit false

namespace PythonTypes

namespace Table

/-- Where the root is and where paths lead stays; only trimmed paths are added. -/
structure Remembers (t t' : Table) : Prop where
  root_eq : t'.root = t.root
  get_eq : ∀ {path id}, t.cache.get? path = some id → t'.cache.get? path = some id
  trimmed_new : ∀ {path id}, t.cache.get? path = none → t'.cache.get? path = some id → DottedName.trimmed path = path

/-- One table becomes the other without a change to the descriptors. -/
structure Extends (t t' : Table) : Prop extends t.Remembers t' where
  project_eq : t'.project = t.project
  stubs_eq : t'.stubs = t.stubs
  stubPackages_eq : t'.stubPackages = t.stubPackages

theorem Remembers.of_eq {t t' : Table} (hroot : t'.root = t.root) (hcache : t'.cache = t.cache) : t.Remembers t' := by
  refine ⟨hroot, fun h => ?_, fun hnone hsome => ?_⟩
  · rw [hcache]
    exact h
  · rw [hcache, hnone] at hsome
    contradiction

theorem Remembers.trans {t t' t'' : Table} (h : t.Remembers t') (h' : t'.Remembers t'') : t.Remembers t'' := by
  refine ⟨h'.root_eq.trans h.root_eq, fun hget => h'.get_eq (h.get_eq hget), fun {path id} hnone hsome => ?_⟩
  cases hmid : t'.cache.get? path with
  | none => exact h'.trimmed_new hmid hsome
  | some id' => exact h.trimmed_new hnone hmid

namespace Extends

theorem refl (t : Table) : t.Extends t := ⟨.of_eq rfl rfl, rfl, rfl, rfl⟩

theorem trans {t t' t'' : Table} (h : t.Extends t') (h' : t'.Extends t'') : t.Extends t'' where
  toRemembers := h.toRemembers.trans h'.toRemembers
  project_eq := h'.project_eq.trans h.project_eq
  stubs_eq := h'.stubs_eq.trans h.stubs_eq
  stubPackages_eq := h'.stubPackages_eq.trans h.stubPackages_eq

theorem remember {t t' : Table} (h : t.Extends t') {path : String} (hnone : t.cache.get? path = none)
    (htrimmed : DottedName.trimmed path = path) (id : TypeId) : t.Extends { t' with cache := t'.cache.insert path id } := by
  refine ⟨⟨h.root_eq, fun {path' id'} hget => ?_, fun {path' id'} hnone' hsome => ?_⟩, h.project_eq,
    h.stubs_eq, h.stubPackages_eq⟩
  · have hne : path' ≠ path := by
      rintro rfl
      rw [hnone] at hget
      contradiction
    exact (t'.cache.get?_insert_of_ne hne id).trans (h.get_eq hget)
  · by_cases hne : path' = path
    · rw [hne]
      exact htrimmed
    · exact h.trimmed_new hnone' ((t'.cache.get?_insert_of_ne hne id).symm.trans hsome)

end Extends

end Table

namespace Query

theorem ensures_enough {α : Type} {mayStop : Prop} {t : Table} {query : Nat → Query α} {Q : α → Table → Prop}
    (h : Ensures mayStop t (query t.depthBound) Q) : Ensures mayStop t (enough query) Q := h

/-- Whatever a query leads to extends the table that it was made to. -/
def Keeps {α : Type} (query : Query α) : Prop := ∀ t, Ensures True t query fun _ t' => t.Extends t'

namespace Keeps

open Table

variable {α β : Type}

theorem pure (a : α) : Keeps (Pure.pure a) := fun t => .pure (.refl t)

theorem tooDeep : Keeps (tooDeep : Query α) := fun _ => trivial

theorem bind {query : Query α} {f : α → Query β} (h : Keeps query) (hf : ∀ a, Keeps (f a)) : Keeps (query >>= f) :=
  fun t => (h t).bind fun a t' ha => (hf a t').imp fun _ _ hb => ha.trans hb

theorem get_bind {f : Table → Query β} (hf : ∀ t, Keeps (f t)) : Keeps (get >>= f) := fun t => hf t t

theorem onSpace (action : SpaceM α) : Keeps (Query.onSpace action) := by
  intro t
  unfold Ensures Query.onSpace
  cases action t.space with
  | none => trivial
  | some r => exact ⟨.of_eq rfl rfl, rfl, rfl, rfl⟩

theorem onStore (action : StoreM α) : Keeps (liftM (Table.onStore action) : Query α) :=
  fun _ => ⟨.of_eq rfl rfl, rfl, rfl, rfl⟩

theorem loadModule (path : String) : Keeps (Table.loadModule path) := by
  unfold Table.loadModule
  refine .get_bind fun t => ?_
  cases t.modules.get? path with
  | some m => exact .pure _
  | none =>
    dsimp only
    cases t.source? path with
    | none => exact .pure _
    | some source =>
      obtain ⟨descriptor, origin⟩ := source
      exact .bind (.onSpace _) fun members => .bind (.onStore _) fun m t => ⟨.of_eq rfl rfl, rfl, rfl, rfl⟩

end Keeps

end Query

namespace Table

open Query

variable {current id : TypeId} {path walked : String} {segments : List String} {t : Table}

/-! ## Following a path -/

/-- Where segments lead by what is remembered alone. -/
def remembered? (t : Table) : List String → String → TypeId → Option TypeId
  | [], _, current => some current
  | segment :: rest, walked, _ =>
    let path := DottedName.child walked segment
    (t.cache.get? path).bind fun id => t.remembered? rest path id

theorem Remembers.remembered?_eq {t' : Table} (h : t.Remembers t') (hid : t.remembered? segments walked current = some id) :
    t'.remembered? segments walked current = some id := by
  induction segments generalizing walked current with
  | nil => exact hid
  | cons segment rest ih =>
    obtain ⟨next, hnext, hrest⟩ := Option.bind_eq_some_iff.1 hid
    exact Option.bind_eq_some_iff.2 ⟨next, h.get_eq hnext, ih hrest⟩

theorem get?_of_remembered? {segment : String} {rest : List String}
    (h : t.remembered? (segment :: rest) walked current = some id) :
    t.cache.get? ((segment :: rest).foldl DottedName.child walked) = some id := by
  induction rest generalizing segment walked current with
  | nil =>
    obtain ⟨next, hnext, hrest⟩ := Option.bind_eq_some_iff.1 h
    cases hrest
    exact hnext
  | cons segment' rest ih =>
    obtain ⟨next, -, hrest⟩ := Option.bind_eq_some_iff.1 h
    exact ih hrest

theorem walk_of_remembered? (next : TypeId → String → String → Query (Option TypeId))
    (h : t.remembered? segments walked current = some id) : walk next segments walked current t = some (id, t) := by
  induction segments generalizing walked current with
  | nil =>
    cases h
    rfl
  | cons segment rest ih =>
    obtain ⟨t', hget, hrest⟩ := Option.bind_eq_some_iff.1 h
    simp_all [walk, get_bind_apply]

/-- Following segments keeps what was remembered at first, and unless it ends nowhere the way is
remembered at its end. -/
theorem ensures_walk {next : TypeId → String → String → Query (Option TypeId)}
    (hnext : ∀ current segment path, Keeps (next current segment path))
    (hsegments : ∀ segment ∈ segments, '.' ∉ segment.toList) (hwalked : DottedName.trimmed walked = walked)
    (current : TypeId) (t : Table) : Ensures True t (walk next segments walked current) fun id t' =>
      t.Extends t' ∧ (id ≠ .unknown → t'.remembered? segments walked current = some id) := by
  induction segments generalizing walked current t with
  | nil => exact .pure ⟨.refl t, fun _ => rfl⟩
  | cons segment rest ih =>
    set path := DottedName.child walked segment with hpath
    have htrimmed : DottedName.trimmed path = path := DottedName.trimmed_child hwalked (hsegments segment (by simp))
    have hrest : ∀ segment ∈ rest, '.' ∉ segment.toList := fun s hs => hsegments s (by simp [hs])
    unfold walk
    refine .get_bind ?_
    rw [← hpath]
    cases hget : t.cache.get? path with
    | some id =>
      refine (ih hrest htrimmed id t).imp fun id' t' h => ⟨h.1, fun hid' => ?_⟩
      exact Option.bind_eq_some_iff.2 ⟨id, h.1.get_eq hget, h.2 hid'⟩
    | none =>
      dsimp only
      refine (hnext current segment path t).bind fun found t' ht' => ?_
      cases found with
      | none => exact .pure ⟨ht', fun h => absurd rfl h⟩
      | some id =>
        refine .get_bind ?_
        split
        · exact .pure ⟨ht', fun h => absurd rfl h⟩
        · refine .modify_bind ?_
          refine (ih hrest htrimmed id _).imp fun id' t'' h => ?_
          refine ⟨(ht'.remember hget htrimmed id).trans h.1, fun hid' => ?_⟩
          exact Option.bind_eq_some_iff.2 ⟨id, h.1.get_eq (t'.cache.get?_insert_self path id), h.2 hid'⟩

/-- Whether it is settled that a path leads to a type. -/
def Settled (t : Table) (path : String) (id : TypeId) : Prop :=
  if path = "" ∨ path = rootPath then t.root = id
  else t.cache.get? path = some id ∨
    t.cache.get? path = none ∧ t.remembered? (DottedName.segments path) "" t.root = some id

theorem Remembers.settled {t' : Table} (h : t.Remembers t') (hid : t.Settled path id) : t'.Settled path id := by
  unfold Settled at hid ⊢
  split
  · grind [root_eq]
  · rename_i hroot
    rw [if_neg hroot] at hid
    rcases hid with hget | ⟨hnone, hremembered⟩
    · exact .inl (h.get_eq hget)
    · cases hget : t'.cache.get? path with
      | none =>
        grind [root_eq, remembered?_eq]
      -- the path would be trimmed, and then it would have been remembered before
      | some id' =>
        have htrimmed := h.trimmed_new hnone hget
        obtain ⟨segment, rest, hsegments⟩ := List.exists_cons_of_ne_nil (DottedName.segments_ne_nil path)
        grind [DottedName.trimmed, get?_of_remembered?]

theorem typeStep_of_settled (h : t.Settled path id)
    (resolved : TypeId → Query TypeId) (moduleMember : TypeId → String → String → Bool → Query (Option TypeId))
    (member : TypeId → String → Query (Option TypeId)) : typeStep resolved moduleMember member path t = some (id, t) := by
  unfold Settled at h
  unfold typeStep
  show (if path = "" ∨ path = rootPath then _ else _ : Query TypeId) t = _
  split
  · rename_i hroot
    rw [if_pos hroot] at h
    rw [h]
    rfl
  · rename_i hroot
    rw [if_neg hroot] at h
    rcases h with hget | ⟨hnone, hremembered⟩
    · rw [hget]
      rfl
    · simp_all [walk_of_remembered?]

theorem ensures_typeStep {resolved : TypeId → Query TypeId}
    {moduleMember : TypeId → String → String → Bool → Query (Option TypeId)}
    {member : TypeId → String → Query (Option TypeId)} (hresolved : ∀ id, Keeps (resolved id))
    (hmoduleMember : ∀ m name path load, Keeps (moduleMember m name path load))
    (hmember : ∀ id name, Keeps (member id name)) (path : String) (t : Table) :
    Ensures True t (typeStep resolved moduleMember member path) fun id t' =>
      t.Extends t' ∧ (id ≠ .unknown → t'.Settled path id) := by
  unfold typeStep
  refine .get_bind ?_
  by_cases hroot : path = "" ∨ path = rootPath
  · simp_all [Settled, Ensures.pure, Extends.refl]
  · rw [if_neg hroot]
    cases hget : t.cache.get? path with
    | some id =>
      simp_all [Settled, Ensures.pure, Extends.refl]
    | none =>
      dsimp only
      refine (ensures_walk (fun current segment path' => ?_) (fun segment => DottedName.not_mem_of_mem_segments)
        (by decide) t.root t).imp fun id t' h => ⟨h.1, fun hid => ?_⟩
      · grind [Keeps.bind, Keeps.get_bind, Keeps.pure]
      · have hremembered := h.2 hid
        unfold Settled
        rw [if_neg hroot]
        cases hget' : t'.cache.get? path with
        | none =>
          rw [h.1.root_eq]
          exact .inr ⟨rfl, hremembered⟩
        | some id' =>
          have htrimmed := h.1.trimmed_new hget hget'
          obtain ⟨segment, rest, hsegments⟩ := List.exists_cons_of_ne_nil (DottedName.segments_ne_nil path)
          grind [DottedName.trimmed, get?_of_remembered?]

/-! ## Every query -/

theorem keeps_resolveLazyStep {typeAt : String → Query TypeId} (htype : ∀ path, Keeps (typeAt path))
    (lazy : TypeId) : Keeps (resolveLazyStep typeAt lazy) := by
  intro t
  unfold resolveLazyStep
  refine .get_bind ?_
  split
  · exact .pure (.refl t)
  · split
    · exact .pure (.refl t)
    · refine .set_bind ((htype _ _).bind fun target t' ht' => .modify_bind (.get_bind ?_))
      have hspace : ∀ space, t.Extends { t with space } := fun _ => ⟨.of_eq rfl rfl, rfl, rfl, rfl⟩
      have hentered : t.Extends t' := (hspace _).trans ht'
      dsimp only
      split
      · exact .pure (hentered.trans ⟨.of_eq rfl rfl, rfl, rfl, rfl⟩)
      · exact .traceTarget target (hentered.trans ⟨.of_eq rfl rfl, rfl, rfl, rfl⟩)
  · exact .pure (.refl t)

theorem compatible_keeps : Compatible fun _ query _ => Keeps query where
  pure := .pure
  tooDeep := .tooDeep
  bind := .bind
  get_bind := .get_bind
  canonical _ := .onSpace _
  unionOf _ := .onSpace _
  instanceOf _ := .onSpace _
  loadModule := .loadModule
  setModuleMember _ _ _ := .onStore _
  unresolvedImport _ := .onStore _
  typeStep hresolved hmoduleMember hmember path t :=
    (ensures_typeStep hresolved hmoduleMember hmember path t).imp fun _ _ h => h.1
  resolveLazyStep := keeps_resolveLazyStep

theorem ensures_getType (path : String) (t : Table) :
    Ensures True t (Query.getType path) fun id t' => t.Extends t' ∧ (id ≠ .unknown → t'.Settled path id) := by
  have hdepth : ∀ depth, Ensures True t (typeAt depth path) fun id t' =>
      t.Extends t' ∧ (id ≠ .unknown → t'.Settled path id) := by
    intro depth
    cases depth with
    | zero =>
      rw [typeAt]
      trivial
    | succ depth =>
      have ih : RelatedAt (fun _ query _ => Keeps query) (pure .unknown) (pure .unknown) depth :=
        relatedAt compatible_keeps (Keeps.pure .unknown) depth
      rw [typeAt, ← (sameAt depth).resolved, ← (sameAt depth).moduleMember, ← (sameAt depth).member]
      exact ensures_typeStep ih.resolved ih.moduleMember ih.member path t
  exact ensures_enough (hdepth t.depthBound)

theorem getType_of_settled (h : t.Settled path id) : Query.getType path t = some (id, t) := by
  have hpos : t.depthBound ≠ 0 := by
    unfold depthBound
    positivity
  obtain ⟨depth, hdepth⟩ := Nat.exists_eq_add_one_of_ne_zero hpos
  show typeAt t.depthBound path t = _
  rw [hdepth, typeAt]
  exact typeStep_of_settled h _ _ _

end Table

theorem Query.Keeps.answer {α : Type} {query : Query α} (h : Keeps query) (default : α)
    (t : Table) : t.Extends (query.answer default t).2 := by
  have hquery := h t
  unfold Query.answer
  unfold Ensures at hquery
  cases hresult : query t with
  | none => exact .refl t
  | some r =>
    rw [hresult] at hquery
    exact hquery

end PythonTypes
