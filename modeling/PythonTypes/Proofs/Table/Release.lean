import PythonTypes.Proofs.Descriptor.Trace
import PythonTypes.Proofs.Table.Action

/-!
# The paths that are being looked up

A lazy type is resolved with its path on the list of those that are being looked up, and whatever
that leads to may resolve other lazy types, or the same one, meanwhile. Each query takes off the
list what it has put there and nothing else (`Query.Releases`), so that between the actions on a
table no path is left on it (`inProgress_restored`).
-/

set_option autoImplicit false

namespace PythonTypes

/-- Converting adds no path to those that are being looked up, and takes none away. -/
theorem ModuleDescriptor.ensures_inProgress (scope : ConversionScope) (m : ModuleDescriptor) (space : TypeSpace) :
    Ensures True space (m.convertMembers scope) fun _ space' => space'.registry.inProgress = space.registry.inProgress := by
  rw [m.convertMembers_eq]
  exact (leaves_entries (n := 0) scope m.members.entries ∅ space (Nat.zero_le _)).imp fun _ _ ⟨_, htrace, _⟩ =>
    (htrace.converts (Nat.zero_le _)).inProgress

namespace Query

/-- Whatever a query leads to, the paths that are being looked up are those from before it. -/
def Releases {α : Type} (query : Query α) : Prop :=
  ∀ t, Ensures True t query fun _ t' => t'.space.registry.inProgress = t.space.registry.inProgress

namespace Releases

variable {α β : Type}

theorem pure (a : α) : Releases (Pure.pure a) := fun _ => .pure rfl

theorem bind {query : Query α} {f : α → Query β} (h : Releases query) (hf : ∀ a, Releases (f a)) : Releases (query >>= f) :=
  fun t => (h t).bind fun a t' ha => (hf a t').imp fun _ _ hb => hb.trans ha

theorem get_bind {f : Table → Query β} (hf : ∀ t, Releases (f t)) : Releases (get >>= f) := fun t => hf t t

theorem onSpace {action : SpaceM α}
    (h : ∀ space, Ensures True space action fun _ space' => space'.registry.inProgress = space.registry.inProgress) :
    Releases (Query.onSpace action) := by
  intro t
  have hspace := h t.space
  unfold Ensures at hspace ⊢
  unfold Query.onSpace
  cases haction : action t.space with
  | none => trivial
  | some r =>
    rw [haction] at hspace
    exact hspace

theorem follow (action : Nat → DeepM α) : Releases (Query.follow action) := by
  refine onSpace fun space => ?_
  unfold Ensures TypeSpace.follow
  cases action space.store.depthBound space.store with
  | none => trivial
  | some r => rfl

theorem onStore (action : StoreM α) : Releases (liftM (Table.onStore action) : Query α) := fun _ => rfl

theorem loadModule (path : String) : Releases (Table.loadModule path) := by
  refine .get_bind fun t => ?_
  cases t.modules.get? path with
  | some m => exact .pure _
  | none =>
    dsimp only
    cases t.source? path with
    | none => exact .pure _
    | some source =>
      obtain ⟨descriptor, origin⟩ := source
      exact .bind (.onSpace (descriptor.ensures_inProgress _)) fun members => .bind (.onStore _) fun m _ => rfl

/-- The path of a lazy type is put on the list if it is not there yet, and taken off when it has
been followed, also if the lazy type has been resolved by then. -/
theorem resolveLazyStep {typeAt : String → Query TypeId} (htype : ∀ path, Releases (typeAt path))
    (lazy : TypeId) : Releases (Table.resolveLazyStep typeAt lazy) := by
  intro t
  unfold Table.resolveLazyStep
  refine .get_bind ?_
  split
  · exact .pure rfl
  · rename_i path _ _
    unfold LazyRegistry.enter?
    by_cases hpath : t.space.registry.inProgress.contains path = true
    · rw [if_pos hpath]
      exact .pure rfl
    · rw [if_neg hpath]
      refine .set_bind ((htype path _).bind fun target t' ht' => .modify_bind (.get_bind ?_))
      -- Inside, the path stands in front of those from before, among which it is not.
      have hleft : t'.space.registry.inProgress.filter (· != path) = t.space.registry.inProgress := by
        rw [ht']
        show (path :: t.space.registry.inProgress).filter (· != path) = _
        rw [List.filter_cons_of_neg (by simp), List.filter_eq_self]
        intro p hp
        have hne : p ≠ path := fun h => hpath (by simpa [h] using hp)
        simpa using hne
      dsimp only
      split
      · exact .pure hleft
      · exact .traceTarget target hleft
  · exact .pure rfl

end Releases

theorem compatible_releases : Compatible fun _ query _ => Releases query where
  pure := .pure
  tooDeep _ := trivial
  bind := .bind
  get_bind := .get_bind
  canonical _ := .follow _
  unionOf _ := .follow _
  instanceOf _ := .follow _
  loadModule := .loadModule
  setModuleMember _ _ _ := .onStore _
  unresolvedImport _ := .onStore _
  typeStep {_ resolved _ moduleMember _ member} :=
    @Compatible.typeStep_of_remember (fun _ query _ => Releases query) .pure .bind
    .get_bind (fun _ _ _ => rfl) _ resolved _ moduleMember _ member
  resolveLazyStep := .resolveLazyStep

theorem Releases.answer {α : Type} {query : Query α} (h : Releases query) (default : α) (t : Table) :
    (query.answer default t).2.space.registry.inProgress = t.space.registry.inProgress := by
  have hquery := h t
  unfold Query.answer
  unfold Ensures at hquery
  cases hresult : query t with
  | none => rfl
  | some r =>
    rw [hresult] at hquery
    exact hquery

end Query

namespace Table

open Query

theorem inProgress_perform (a : TableAction) (t : Table) :
    (a.perform t).space.registry.inProgress = t.space.registry.inProgress := by
  have hquery : a.IsQuery → (a.perform t).space.registry.inProgress = t.space.registry.inProgress := by
    intro ha
    rw [Lookups.perform_eq_ask]
    exact ((Lookups.ofTable_related compatible_releases).ask compatible_releases ha).answer () t
  cases a with
  | addModule m =>
    show (t.addModule m).space.registry.inProgress = _
    unfold addModule
    split <;> rfl
  | convert modulePath origin d =>
    refine (Releases.onSpace fun space =>
      (Descriptor.leaves_convert (n := 0) _ d space (Nat.zero_le _)).imp fun _ _ h => ?_).answer _ t
    obtain ⟨_, htrace, -⟩ := h
    exact (htrace.converts (Nat.zero_le _)).inProgress
  | onStore a => cases a <;> rfl
  | _ => exact hquery trivial

theorem inProgress_create (project : Project) (stubs : StubStore) (settings : Settings) (stubPackages : Bool) :
    (create project stubs settings stubPackages).space.registry.inProgress = [] := by
  have hroot : Ensures True {} (rootMembers stubs) fun _ space => space.registry.inProgress = [] := by
    unfold rootMembers
    split
    · exact .pure rfl
    · exact ModuleDescriptor.ensures_inProgress _ _ _
  unfold Ensures at hroot
  show ((rootMembers stubs {}).getD (∅, {})).2.registry.inProgress = []
  cases hmembers : rootMembers stubs {} with
  | none => rfl
  | some r =>
    rw [hmembers] at hroot
    exact hroot

/-- Whatever is done with a table, the paths that are being looked up afterwards are those from
before; that holds in any state, also inside of resolutions, and of every look-up from which the
actions are made, however deep it goes and however it ends. So no path is being looked up between
the actions on a table. -/
theorem inProgress_restored :
    (∀ (a : TableAction) (t : Table), (a.perform t).space.registry.inProgress = t.space.registry.inProgress) ∧
    (∀ depth, (∀ path, Releases (typeAt depth path)) ∧ (∀ lazy, Releases (resolveLazyAt depth lazy)) ∧
      (∀ id, Releases (resolvedAt depth id)) ∧ (∀ id, Releases (resolveUnionAt depth id)) ∧
      (∀ m name path load, Releases (moduleMemberAt depth m name path load)) ∧
      (∀ cls name visited, Releases (classMemberAt depth cls name visited)) ∧ ∀ id name, Releases (memberAt depth id name)) ∧
    ∀ project stubs settings stubPackages as,
      ((create project stubs settings stubPackages).performAll as).space.registry.inProgress = [] := by
  refine ⟨inProgress_perform, fun depth => ?_, fun project stubs settings stubPackages as => ?_⟩
  · have h : RelatedAt (fun _ query _ => Releases query) (pure .unknown) (pure .unknown) depth :=
      relatedAt compatible_releases (Releases.pure .unknown) depth
    rw [← (sameAt depth).typeAt, ← (sameAt depth).resolveLazy, ← (sameAt depth).resolved, ← (sameAt depth).resolveUnion,
      ← (sameAt depth).moduleMember, ← (sameAt depth).classMember, ← (sameAt depth).member]
    exact ⟨h.typeAt, h.resolveLazy, h.resolved, h.resolveUnion, h.moduleMember, h.classMember, h.member⟩
  · have hall : ∀ t : Table, (t.performAll as).space.registry.inProgress = t.space.registry.inProgress := by
      induction as with
      | nil => exact fun _ => rfl
      | cons a rest ih => exact fun t => (ih (a.perform t)).trans (inProgress_perform a t)
    rw [hall, inProgress_create]

end Table

end PythonTypes
