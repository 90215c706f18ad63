import PythonTypes.Proofs.Table.Budget
import PythonTypes.Proofs.Table.Cycle

/-!
# What look-ups find

Every look-up does to a table only what `Proceeds` lists, and if it was not cut off at an import
cycle then its answer is right in the table that it leaves behind: a type that is forced gets its
meaning (`Forced`), the member of a class is what the search through its bases comes to, and the
type at a path is remembered there (`Settled`). Look-ups that no other one is waiting for are never
cut off (`Clear`), and neither are those that give up at an import cycle.
-/

set_option autoImplicit false

namespace PythonTypes

theorem Ensures.congr {σ α : Type} {mayStop : Prop} {s : σ} {action action' : StateT σ Option α} {Q : α → σ → Prop}
    (heq : action s = action' s) (h : Ensures mayStop s action' Q) : Ensures mayStop s action Q := by
  unfold Ensures
  rw [heq]
  exact h

theorem exists_of_forall₂ {α β : Type} {R : α → β → Prop} {xs : List α} {ys : List β}
    (h : List.Forall₂ R xs ys) : (∀ x ∈ xs, ∃ y ∈ ys, R x y) ∧ ∀ y ∈ ys, ∃ x ∈ xs, R x y := by
  induction h with
  | nil => simp
  | cons hxy _ ih =>
    simp_all

namespace TypeStore

variable {s s' : TypeStore}
variable {l u x : TypeId} {ref : TypeRef} {w : SlotId} {name : String} {r : Option TypeId × List TypeId}

/-- What forcing a type comes to: its meaning, or for a lazy union the union of the meanings of its
candidates. -/
inductive Forced (s : TypeStore) : TypeId → TypeId → Prop
  | single {x u : TypeId} : s.Means x u → Forced s x u
  | union {x v : TypeId} {cs us : List TypeId} : s.shape x = .lazyUnion cs →
      List.Forall₂ s.Means cs us → s.Answers (fun p => ∃ u ∈ us, s.HasPart u p) v → Forced s x v

theorem Forced.means (h : s.Forced x u) (hx : ∀ cs, s.shape x ≠ .lazyUnion cs) : s.Means x u := by
  cases h with
  | single hu => exact hu
  | union hcs _ _ => exact absurd hcs (hx _)

theorem Means.exists_target (h : s.Means x u) (hplain : (s.shape x).isPlain = false) :
    ∃ y, s.lazyTarget? x = some y ∧ s.Means y u := by
  cases h with
  | final hfinal => cases hplain.symm.trans hfinal.1.2
  | awaited hobject _ _ =>
    rw [hobject] at hplain
    cases hplain
  | target htarget hu => exact ⟨_, htarget, hu⟩

theorem not_means_of_lazyUnion {cs : List TypeId} (hx : s.shape x = .lazyUnion cs) : ¬ s.Means x u := by
  intro h
  obtain ⟨y, htarget, -⟩ := h.exists_target (by rw [hx]; rfl)
  grind [lazyTarget?_eq_some_iff]

theorem Means.of_target (hl : s.lazyTarget? l = some x) (h : s.Means l u) : s.Means x u := by
  obtain ⟨path, hlazy⟩ := lazyTarget?_eq_some_iff.1 hl
  obtain ⟨y, htarget, hu⟩ := h.exists_target (by rw [hlazy]; rfl)
  cases hl.symm.trans htarget
  exact hu

theorem Wrappable.evolves (he : s.Evolves s') (h : s.Wrappable x) : s'.Wrappable x := by
  refine ⟨he.known h.1, fun cs hcs => h.2 cs ?_⟩
  have houtline := he.outline_eq x h.1
  rw [hcs] at houtline
  exact TypeForm.eq_of_outline houtline.symm rfl (by simp)

theorem form_of_lazyPath? {path : String} (h : s.lazyPath? l = some path) : ∃ state, s.form l = .lazy path state := by
  grind [lazyPath?]

theorem lazyTarget?_of_isPending (h : s.isPending l = true) : s.lazyTarget? l = none := by
  grind [lazyTarget?, form_of_isPending]

theorem Tidy.target_of_refPlain (h : s.Tidy) (href : s.RefPlain ref) :
    s.Plain (s.target ref) ∨ s.isPending (s.target ref) = true := by
  cases ref with
  | direct u => exact .inl href
  | slot w =>
    by_cases hw : (s.slot w).isResolved = true
    · exact .inl ⟨(h.wellFormed.slot_known w).2, h.slot_plain hw⟩
    · have hwaits : (s.slot w).isResolved = false := by simpa using hw
      rw [target_slot_of_waiting hwaits]
      exact .inr (h.isPending_of_waiting href hwaits)

theorem Tidy.target_wrappable (h : s.Tidy) (href : s.RefPlain ref) : s.Wrappable (s.target ref) := by
  rcases h.target_of_refPlain href with hplain | hpending
  · exact hplain.wrappable
  · obtain ⟨path, hshape⟩ := isPending_iff.1 hpending
    exact wrappable_of_lazyPath? (lazyPath?_of_shape hshape)

theorem Tidy.isResolved_of_lazyTarget? (h : s.Tidy) (hw : s.SlotKnown w)
    (hu : s.lazyTarget? (s.slot w).lazy = some u) : (s.slot w).isResolved = true := by
  grind [isPending_of_waiting, lazyTarget?_of_isPending]

theorem Retains.target_of_lazyTarget? (hretains : s.Retains s') (hs' : s'.Tidy)
    (href : s'.RefPlain ref) (hknown : s.RefKnown ref)
    (hu : s'.lazyTarget? (s.target ref) = some u) : s'.target ref = u := by
  rcases hretains.target_cases hs' hknown with heq | htarget
  · rw [← heq] at hu
    rcases hs'.target_of_refPlain href with hplain | hpending
    · simp [lazyTarget?_of_isPlain hplain.2] at hu
    · simp [lazyTarget?_of_isPending hpending] at hu
  · exact Option.some.inj (htarget.symm.trans hu)

/-- The meaning of a reference depends on a lazy type. -/
def Awaits (s : TypeStore) (ref : TypeRef) (l : TypeId) : Prop :=
  s.target ref = l ∨
    ∃ w, s.shape (s.target ref) = .object (.slot w) ∧ (s.slot w).isResolved = false ∧ (s.slot w).lazy = l

theorem Tidy.waits_of_isPending (h : s.Tidy) (hw : s.isPending (s.slot w).lazy = true) : (s.slot w).isResolved = false := by
  by_contra hresolved
  have hfollow := h.slotsFollow w (by simpa using hresolved)
  rw [hw] at hfollow
  cases hfollow

theorem Awaits.not_refMeans (h : s.Awaits ref l) (hs : s.Tidy) (href : s.RefPlain ref)
    (hretains : s.Retains s') (hs' : s'.Tidy) (hl : s'.isPending l = true) (u : TypeId) : ¬ s'.RefMeans ref u := by
  obtain ⟨path, hpending⟩ := isPending_iff.1 hl
  rcases h with rfl | ⟨w, hshape, hw, rfl⟩
  · cases ref with
    | direct x => exact not_means_of_isPending hl
    | slot w =>
      have hw : (s.slot w).isResolved = false := by
        by_contra hresolved
        have hplain := hs.slot_plain (w := w) (by simpa using hresolved)
        rw [← hretains.isPlain_eq (hs.wellFormed.slot_known w).2, show s'.shape (s.slot w).target = _ from hpending] at hplain
        cases hplain
      have hlazy : (s'.slot w).lazy = s.target (.slot w) := by
        rw [hretains.lazy_eq w href, target_slot_of_waiting hw]
      grind [Tidy.waits_of_isPending, RefMeans, target_slot_of_waiting, not_means_of_isPending]
  · have hresolved : s.isResolved ref = true := by
      cases ref with
      | direct x => rfl
      | slot w' =>
        by_contra hwaits
        simp_all [isResolved]
        obtain ⟨path', hshape'⟩ := isPending_iff.1 (hs.isPending_of_waiting href hwaits)
        grind [target_slot_of_waiting]
    grind [RefMeans, Retains.target_eq_of_isResolved, WellFormed.object_known, Tidy.wellFormed,
      not_means_of_waiting, Retains.shape_object, Tidy.waits_of_isPending, Retains.lazy_eq]

theorem Runs.mayStop {α : Type} {action : DeepM α} {Q : α → TypeStore → Prop}
    (h : Runs False s action Q) : Runs True s action Q := by
  grind [Runs]

theorem Tidy.runs_canonical_means (h : s.Tidy) {cls : TypeRef} (hx : s.shape x = .object cls) :
    Runs False s (canonicalAt s.depthBound x) fun u s' =>
      s'.Tidy ∧ s'.Plain u ∧ s'.SplitsBelow (TypeForm.object cls).grade u ∧ (s.isResolved cls = true → s'.Means x u) := by
  have hplain : s.Plain x := ⟨known_of_shape (by simp [hx]), by rw [hx]; rfl⟩
  have hsplits : ∀ n, s.SplitsBelow n x := fun n cs hcs => by
    rw [hx] at hcs
    cases hcs
  show Runs False s (canonicalAt (8 * s.size + 7 + 1) x) _
  rw [canonicalAt]
  unfold canonicalStep
  refine .get_bind ?_
  dsimp only
  rw [derefLazy_of_no_target (lazyTarget?_of_isPlain hplain.2), form_of_shape (by simp) hx]
  cases cls with
  | direct c => exact .pure h.wellFormed ⟨h, hplain, hsplits _, fun _ => .final ⟨hplain, by simp [hx]⟩⟩
  | slot w =>
    dsimp only
    split
    · rename_i hw
      have htarget : s.Plain (s.slot w).target := ⟨(h.wellFormed.slot_known w).2, h.slot_plain hw⟩
      have hdepth : s.size + 6 ≤ 8 * s.size + 7 := by omega
      refine (h.runs_instanceOf_direct htarget.1 hdepth).imp fun u s' _ hgrows hu => ?_
      have hslot : s'.slot w = s.slot w := hgrows.retains.slot_eq w hw
      have hanswers : s'.Answers (s'.InstancePart (s'.slot w).target) u := by
        rw [hslot]
        exact hu.2.of_iff fun p => (hgrows.retains.instancePart_iff h htarget).symm
      have hmeans : s'.Means x u := .awaited (hgrows.retains.shape_object hx) (by rwa [hslot]) hanswers
      have hmade := hu.1.1.madeOf_of_answers (hu.1.1.slot_plain (by rwa [hslot])) hanswers
      exact ⟨hu.1.1, (hmeans.final_right hu.1.1).1, hmade.splitsBelow, fun _ => hmeans⟩
    · grind [Runs.pure, wellFormed]

/-- From now on, a search that begins with `refs` comes to what is given, or goes on with the given
types met. -/
def Searches (s : TypeStore) (name : String) (refs : List TypeRef) (visited : List TypeId)
    (r : Option TypeId × List TypeId) : Prop :=
  ∃ found, Option.Rel s.RefMeans found r.1 ∧ s.Seeks name refs visited (found, r.2)

/-- What a class has, or inherits, under a name. -/
def Inherits (s : TypeStore) (name : String) (cls : TypeId) (r : Option TypeId) : Prop :=
  ∃ found, s.Search name [.direct cls] [] found ∧ Option.Rel s.RefMeans found r

theorem Searches.inherits {cls : TypeId} (h : s.Searches name [.direct cls] [] r) : s.Inherits name cls r.1 := by
  obtain ⟨found, hid, hseeks⟩ := h
  exact ⟨found, hseeks.search, hid⟩

theorem Searches.imp {refs refs' : List TypeRef} {visited visited' : List TypeId} (h : s.Searches name refs visited r)
    (hseeks : ∀ found, s.Seeks name refs visited (found, r.2) → s.Seeks name refs' visited' (found, r.2)) :
    s.Searches name refs' visited' r := by
  obtain ⟨found, hid, hfound⟩ := h
  exact ⟨found, hid, hseeks _ hfound⟩

end TypeStore

namespace Table

open TypeStore

variable {mayCut : Prop} {t t1 t' : Table} {α β : Type}

/-- No look-up is under way that this one could be cut off by, or none is ever cut off. -/
def Clear (mayCut : Prop) (t : Table) : Prop := mayCut → t.space.registry.inProgress = []

theorem Carries.clear_iff (h : t.Carries t') : t'.Clear mayCut ↔ t.Clear mayCut := by
  unfold Clear
  rw [h.inProgress_eq]

theorem Carries.clear (h : t.Carries t') (hclear : t.Clear mayCut) : t'.Clear mayCut := h.clear_iff.2 hclear

theorem clear_of_not (h : ¬ mayCut) : t.Clear mayCut := fun hcut => absurd hcut h

/-- What a look-up does to a table, which bounds what is left to add. -/
structure Goes (mayCut : Prop) (t t' : Table) : Prop where
  proceeds : t.Proceeds mayCut t'
  bounds : t.Bounds t'

theorem Goes.refl (t : Table) : t.Goes mayCut t := ⟨.refl t, .refl t⟩

theorem Goes.trans (h : t.Goes mayCut t1) (h' : t1.Goes mayCut t') : t.Goes mayCut t' :=
  ⟨h.proceeds.trans h'.proceeds, h.bounds.trans h'.bounds⟩

theorem Goes.carries (h : t.Goes mayCut t') (ht : t.Sound) : t'.Sound ∧ t.Passes t' :=
  ⟨(h.proceeds.carries ht).1, (h.proceeds.carries ht).2, h.bounds⟩

/-- A query does what look-ups do, and unless it gives up its answer has property `Q`. -/
def Asks (mayCut : Prop) (t : Table) (query : Query α) (Q : α → Table → Prop) : Prop :=
  Ensures True t query fun a t' => t.Proceeds mayCut t' ∧ Q a t'

namespace Asks

variable {query : Query α} {P : α → Table → Prop} {Q : β → Table → Prop}

theorem pure {a : α} (ha : P a t) : t.Asks mayCut (Pure.pure a) P := Ensures.pure ⟨.refl t, ha⟩

theorem tooDeep : t.Asks mayCut (Query.tooDeep : Query α) P := trivial

theorem follow {f : α → Query β} (h : t.Asks mayCut query P)
    (hf : ∀ a (t' : Table), t.Proceeds mayCut t' → P a t' → t'.Asks mayCut (f a) Q) : t.Asks mayCut (query >>= f) Q :=
  Ensures.bind h fun a t' ha => Ensures.imp (hf a t' ha.1 ha.2) fun _ _ hb => ⟨ha.1.trans hb.1, hb.2⟩

theorem get_bind {f : Table → Query β} (h : t.Asks mayCut (f t) Q) : t.Asks mayCut (get >>= f) Q := h

theorem imp {P' : α → Table → Prop} (ht : t.Sound) (h : t.Asks mayCut query P)
    (hP : ∀ a (t' : Table), t'.Sound → t.Carries t' → P a t' → P' a t') : t.Asks mayCut query P' :=
  Ensures.imp h fun a t' ha => ⟨ha.1, hP a t' (ha.1.carries ht).1 (ha.1.carries ht).2 ha.2⟩

theorem map {f : α → β} (h : t.Asks mayCut query fun a t' => Q (f a) t') : t.Asks mayCut (f <$> query) Q := Ensures.map h

theorem enough {query : Nat → Query α} (h : t.Asks mayCut (query t.depthBound) P) : t.Asks mayCut (Query.enough query) P := h

end Asks

/-- A query does what look-ups do, gives up only if `mayStop`, and otherwise its answer has property
`Q`. -/
def Finds (mayStop mayCut : Prop) (t : Table) (query : Query α) (Q : α → Table → Prop) : Prop :=
  Ensures mayStop t query fun a t' => t.Goes mayCut t' ∧ Q a t'

namespace Finds

variable {mayStop : Prop} {query : Query α} {P : α → Table → Prop} {Q : β → Table → Prop}

theorem pure {a : α} (ha : P a t) : t.Finds mayStop mayCut (Pure.pure a) P := Ensures.pure ⟨.refl t, ha⟩

theorem tooDeep (h : mayStop) : t.Finds mayStop mayCut (Query.tooDeep : Query α) P := h

/-- What queries find one after the other, they find from tables that are sound. -/
theorem bind {f : α → Query β} (ht : t.Sound) (h : t.Finds mayStop mayCut query P)
    (hf : ∀ a (t' : Table), t'.Sound → t.Passes t' → P a t' → t'.Finds mayStop mayCut (f a) Q) :
    t.Finds mayStop mayCut (query >>= f) Q :=
  Ensures.bind h fun a t' ha =>
    Ensures.imp (hf a t' (ha.1.carries ht).1 (ha.1.carries ht).2 ha.2) fun _ _ hb => ⟨ha.1.trans hb.1, hb.2⟩

theorem get_bind {f : Table → Query β} (h : t.Finds mayStop mayCut (f t) Q) : t.Finds mayStop mayCut (get >>= f) Q := h

theorem imp {P' : α → Table → Prop} (ht : t.Sound) (h : t.Finds mayStop mayCut query P)
    (hP : ∀ a (t' : Table), t'.Sound → t.Passes t' → P a t' → P' a t') : t.Finds mayStop mayCut query P' :=
  Ensures.imp h fun a t' ha => ⟨ha.1, hP a t' (ha.1.carries ht).1 (ha.1.carries ht).2 ha.2⟩

theorem map {f : α → β} (h : t.Finds mayStop mayCut query fun a t' => Q (f a) t') : t.Finds mayStop mayCut (f <$> query) Q :=
  Ensures.map h

theorem enough {query : Nat → Query α} (h : t.Finds mayStop mayCut (query t.depthBound) P) :
    t.Finds mayStop mayCut (Query.enough query) P := h

theorem mapM {f : TypeId → Query α} {R : TypeId → α → Table → Prop} (xs : List TypeId)
    (hstays : ∀ x ∈ xs, ∀ a (t1 t2 : Table), t.Goes mayCut t1 → t1.Goes mayCut t2 → R x a t1 → R x a t2)
    (hf : ∀ x ∈ xs, ∀ t' : Table, t.Goes mayCut t' → t'.Finds mayStop mayCut (f x) (R x)) :
    t.Finds mayStop mayCut (xs.mapM f) fun as t' => List.Forall₂ (fun x a => R x a t') xs as :=
  Ensures.forall₂_mapM .refl .trans xs hstays hf

theorem asks (h : t.Finds True mayCut query P) : t.Asks mayCut query P :=
  Ensures.imp h fun _ _ ha => ⟨ha.1.proceeds, ha.2⟩

theorem onSpace {action : SpaceM α} {R : α → TypeStore → Prop} (h : t.space.Adds t.sourcePaths.toFinset 0 action R) :
    t.Finds mayStop mayCut (Query.onSpace action) fun a t' =>
      R a t'.store ∧ ∃ space, t.space.Gains space ∧ t' = { t with space } := by
  obtain ⟨a, space, heq, hgains, htakes, hR⟩ := Ensures.exists_eq_some h
  have hrun : Query.onSpace action t = some (a, { t with space }) := by
    unfold Query.onSpace
    rw [heq]
    rfl
  exact Ensures.of_eq_some hrun ⟨⟨.grow hgains, .of_takes htakes rfl rfl rfl⟩, hR, space, hgains, rfl⟩

end Finds

theorem Carries.settled_of_remembered? (h : t.Carries t') {path : String} {id : TypeId}
    (hroot : ¬ (path = "" ∨ path = rootPath))
    (hget : t.cache.get? path = none)
    (hid : t'.remembered? (DottedName.segments path) "" t'.root = some id) :
    t'.Settled path id := by
  unfold Settled
  rw [if_neg hroot]
  cases hget' : t'.cache.get? path with
  | none => exact .inr ⟨rfl, hid⟩
  | some id' =>
    have htrimmed := h.trimmed_new hget hget'
    obtain ⟨segment, rest, hsegments⟩ := List.exists_cons_of_ne_nil (DottedName.segments_ne_nil path)
    grind [DottedName.trimmed, get?_of_remembered?]

theorem lazyTarget?_settled {l target : TypeId} (hl : t.store.isPending l = true)
    (htarget : t.store.Plain target) : (t.settled l target).store.lazyTarget? l = some target := by
  have hgoal := lazyGoal_of_isPlain hl htarget.2
  exact (lazyTarget?_resolveLazy hl target).trans (congrArg some hgoal)

variable {mayStop : Prop}

/-- Loading a module keeps the members of the modules that were there. -/
theorem finds_loadModule (ht : t.Sound) (path : String) : t.Finds mayStop mayCut (loadModule path) fun r t' =>
      (∀ m name, (t.form m).isModule = true → t'.memberRef? m name = t.memberRef? m name) ∧
        (∀ sub, r = some sub → t'.modules.get? path = some sub) ∧ (r = none → t' = t ∧ t.source? path = none) := by
  unfold loadModule
  refine .get_bind ?_
  cases hget : t.modules.get? path with
  | some m =>
    grind [Finds.pure]
  | none =>
    dsimp only
    cases hsource : t.source? path with
    | none => exact .pure ⟨fun _ _ _ => rfl, by simp, fun _ => ⟨rfl, rfl⟩⟩
    | some source =>
      obtain ⟨descriptor, origin⟩ := source
      have hadds := descriptor.adds_convertMembers { modulePath := path, origin } (U := t.sourcePaths.toFinset)
        (fun p hp => List.mem_toFinset.2 ((source?_bounds hsource).1 p hp)) ht.spaceSound
      obtain ⟨members, space, heq, hgains, htakes, hmembers⟩ := Ensures.exists_eq_some hadds
      have hspace : Query.onSpace (descriptor.convertMembers { modulePath := path, origin }) t =
          some (members, { t with space }) := by
        unfold Query.onSpace
        rw [heq]
        rfl
      refine Ensures.bind_of_eq hspace ?_
      set form := TypeForm.ofModule { name := descriptor.name, path, members }
      obtain ⟨hstore, hgrows⟩ := hgains.sound.store.alloc form (.inl rfl) fun ref href => (hmembers ref href).refKnown
      have hform : (space.store.added form).form space.store.fresh = form := form_fresh_of_push rfl
      have hgains' := hgains.trans (hgains.sound.gains_added hstore hgrows (.inl rfl) fun _ => hmembers)
      have hpush : space.Takes t.sourcePaths.toFinset 0 { space with store := space.store.added form } :=
        .of_quiet (quiet_of_push rfl rfl (by simp [form]))
      have htakes' := htakes.trans hpush
      refine Ensures.of_eq_some rfl ⟨⟨.load hgains' hget hform rfl, .load hget hsource htakes' _⟩,
        fun m name hm => ?_, ?_, by simp⟩
      · exact memberRef?_of_gains hgains' hm rfl name
      · grind [OrderedMap.get?_insert_self]

/-! ## Following types -/

theorem finds_follow {action : Nat → DeepM α} {R : α → TypeStore → Prop} (ht : t.Sound)
    (hinert : Ensures True t.store (action t.store.depthBound) fun _ s' => t.store.Inert s')
    (hruns : Runs False t.store (action t.store.depthBound) fun a s' => s'.Tidy ∧ R a s') :
    t.Finds mayStop mayCut (Query.follow action) fun a t' => R a t'.store ∧ ∃ space,
    t.space.Gains space ∧ t' = { t with space } :=
  .onSpace (.follow ht.spaceSound hinert hruns)

theorem finds_canonical (ht : t.Sound) {x : TypeId} {cls : TypeRef} (hx : t.store.shape x = .object cls) :
    t.Finds mayStop mayCut (Query.follow (canonicalAt · x)) fun u t' =>
      (t'.store.Plain u ∧ t'.store.SplitsBelow (TypeForm.object cls).grade u ∧
        (t.store.isResolved cls = true → t'.store.Means x u)) ∧
        ∃ space, t.space.Gains space ∧ t' = { t with space } :=
  finds_follow (R := fun u s => s.Plain u ∧ s.SplitsBelow (TypeForm.object cls).grade u ∧
    (t.store.isResolved cls = true → s.Means x u)) ht ((framed_inert.keeps _).canonical _ x)
      (ht.store.runs_canonical_means hx)

theorem finds_unionOf (ht : t.Sound) {us : List TypeId} (hus : ∀ u ∈ us, t.store.Plain u) :
    t.Finds mayStop mayCut (Query.follow (unionOfAt · us)) fun v t' =>
      (t'.store.Plain v ∧ (us ≠ [] → t'.store.Answers (fun p => ∃ u ∈ us, t'.store.HasPart u p) v)) ∧
        ∃ space, t.space.Gains space ∧ t' = { t with space } := by
  refine finds_follow (R := fun v s => s.Plain v ∧ (us ≠ [] → s.Answers (fun p => ∃ u ∈ us, s.HasPart u p) v)) ht
    ((framed_inert.keeps _).unionOf _ us) ?_
  have hplain := ht.store.runs_unionOf_plain (fun u hu => (hus u hu).1) fun u hu => (hus u hu).2
  by_cases hne : us = []
  · exact hplain.imp fun v s' _ _ hv => ⟨hv.1, hv.2, fun h => absurd hne h⟩
  · have hparts : Runs True t.store (unionOfAt t.store.depthBound us) _ :=
      (ht.store.good.runs_unionOf_parts (fun u hu => (hus u hu).1) hne).mayStop
    refine (hplain.and hparts).imp fun v s' _ hgrows hv => ⟨hv.1.1, hv.1.2, fun _ => ?_⟩
    exact hv.2.of_iff fun p => exists_congr fun u => and_congr_right fun hu =>
      (hgrows.hasPart_iff ht.store.wellFormed (hus u hu).1).symm

end Table

end PythonTypes
