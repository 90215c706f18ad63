import PythonTypes.Proofs.Table.Queries
import PythonTypes.Proofs.Types.UnionLattice

/-!
# What actions do to a table

Whatever is asked of a table does to it what looking things up does (`proceeds_perform`), so what
has been found is carried along every run (`AtRest.performAll`). If an action meets no import cycle
then nothing that it looked up was cut off (`Straight.proceeds`). In a table that was made from
descriptors, whatever has been asked before, every query is answered (`queries_answered`): import
cycles, re-exports in a circle and classes that are their own bases do not make a difference.
-/

set_option autoImplicit false

namespace PythonTypes

open Table TypeStore

variable {mayCut : Prop} {t t' : Table}

namespace StoreAction

variable {s : TypeStore} {a : StoreAction}

/-- Whether an action only adds types that are made of those that exist, or a listener. -/
def Derives : StoreAction → Prop
  | alloc _ => False
  | watch _ (.slot _) => False
  | resolveSlot _ _ => False
  | resolveLazy _ _ => False
  | _ => True

instance : (a : StoreAction) → Decidable a.Derives
  | alloc _ => inferInstanceAs (Decidable False)
  | watch _ (.slot _) => inferInstanceAs (Decidable False)
  | resolveSlot _ _ => inferInstanceAs (Decidable False)
  | resolveLazy _ _ => inferInstanceAs (Decidable False)
  | unresolvedImport _ => inferInstanceAs (Decidable True)
  | wrap _ => inferInstanceAs (Decidable True)
  | watch _ (.listener _) => inferInstanceAs (Decidable True)
  | instanceOf _ => inferInstanceAs (Decidable True)
  | canonical _ => inferInstanceAs (Decidable True)
  | union _ _ => inferInstanceAs (Decidable True)
  | unionOf _ => inferInstanceAs (Decidable True)

theorem Derives.tidy (h : s.Tidy) (hvalid : a.Valid s) (ha : a.Derives) : (a.perform s).Tidy ∧ s.Evolves (a.perform s) := by
  cases a with
  | unresolvedImport path =>
    obtain ⟨htidy, hgrows⟩ := h.unresolvedImport path
    exact ⟨htidy, hgrows.evolves⟩
  | wrap t =>
    obtain ⟨htidy, hgrows, -⟩ := h.wrap hvalid
    exact ⟨htidy, hgrows.evolves⟩
  | watch t w =>
    cases w with
    | slot id => exact ha.elim
    | listener tag =>
      have hin : ((watch t (.listener tag)).perform s).InStep :=
        h.inStep.perform h.wellFormed (by simp [FollowsProtocol])
      grind [perform_watch, Evolves.refl, Grows.evolves, grows_addWatcher, WellFormed.addWatcher,
        Tidy.wellFormed, Tidy.evolves, shape_addWatcher]
  | instanceOf cls => exact kept_tidy.instanceOf h hvalid
  | canonical t => exact kept_tidy.canonical h hvalid
  | union left right => exact kept_tidy.union h hvalid.1 hvalid.2
  | unionOf ts => exact kept_tidy.unionOf h hvalid
  | alloc form | resolveSlot id target | resolveLazy lazy target => exact ha.elim

theorem Derives.inert (ha : a.Derives) : s.Inert (a.perform s) := by
  have hframed := framed_inert
  cases a with
  | unresolvedImport path => exact inert_unresolvedImport path s
  | wrap x => exact hframed.wrap x s
  | watch x w =>
    rcases perform_watch s x w with heq | heq <;> rw [heq]
    · exact .refl s
    · exact inert_addWatcher s _ _
  | instanceOf cls => exact hframed.within ((hframed.keeps _).instanceOf s cls)
  | canonical x => exact hframed.within ((hframed.keeps _).canonical s x)
  | union left right =>
    show s.Inert (TypeStore.union left right s).2
    unfold TypeStore.union
    split
    · exact hframed.refl s
    · exact hframed.within ((hframed.keeps _).unionOf s _)
  | unionOf xs => exact hframed.within ((hframed.keeps _).unionOf s xs)
  | alloc form | resolveSlot id target | resolveLazy lazy target => exact ha.elim

theorem Derives.gains {space : TypeSpace} (h : space.Sound) (hvalid : a.Valid space.store)
    (ha : a.Derives) : space.Gains { space with store := a.perform space.store } := by
  obtain ⟨htidy, -⟩ := Derives.tidy h.store hvalid ha
  have hgrows := (perform_sound h.store.wellFormed hvalid).2 (by cases a <;> first | exact ha.elim | simp [OffersCandidates])
    (by cases a <;> first | exact ha.elim | exact id)
  exact h.gains_inert htidy hgrows ha.inert

end StoreAction

namespace TableAction

/-- Whether the types that an action names exist, and lazy types are left to the table. -/
def Valid (t : Table) : TableAction → Prop
  | resolveLazy id => t.store.Known id
  | resolved id => t.store.Known id
  | resolveUnion id => t.store.Known id
  | resolvedRef ref => t.store.RefKnown ref
  | member id _ => t.store.Known id
  | hasMember id _ => t.store.Known id
  | onStore a => a.Valid t.store ∧ a.Derives
  | _ => True

instance (t : Table) (a : TableAction) : Decidable (a.Valid t) := by
  unfold Valid
  split <;> infer_instance

end TableAction

namespace Table

/-- Whether each of several actions is valid by then. -/
def ValidAll (t : Table) : List TableAction → Prop
  | [] => True
  | a :: rest => a.Valid t ∧ (a.perform t).ValidAll rest

instance (t : Table) : (as : List TableAction) → Decidable (t.ValidAll as)
  | [] => inferInstanceAs (Decidable True)
  | a :: rest =>
    have : Decidable ((a.perform t).ValidAll rest) := instDecidableValidAll (a.perform t) rest
    inferInstanceAs (Decidable (a.Valid t ∧ (a.perform t).ValidAll rest))

theorem onSpace_of_adds {α : Type} {U : Finset String} {n : Nat} {action : SpaceM α} {R : α → TypeStore → Prop}
    (h : t.space.Adds U n action R) :
    Ensures False t (Query.onSpace action) fun a t' => t.Proceeds mayCut t' ∧ R a t'.store := by
  obtain ⟨a, space, heq, hgains, -, hR⟩ := Ensures.exists_eq_some h
  have hspace : Query.onSpace action t = some (a, { t with space }) := by
    unfold Query.onSpace
    rw [heq]
    rfl
  exact Ensures.of_eq_some hspace ⟨.grow hgains, hR⟩

theorem proceeds_convert (ht : t.Sound) (modulePath : String) (origin : Origin) (d : Descriptor) :
    t.Proceeds mayCut (TableAction.perform (.convert modulePath origin d) t) := by
  have hgives := Descriptor.gives_convert { modulePath, origin } d (U := d.paths.toFinset)
    (fun _ hp => List.mem_toFinset.2 hp) t.space ht.spaceSound
  obtain ⟨r, t', heq, hproceeds, -⟩ := Ensures.exists_eq_some (onSpace_of_adds hgives)
  have hperform : TableAction.perform (.convert modulePath origin d) t = t' := by
    show (Query.answer (Query.onSpace (d.convert { modulePath, origin }).run) default t).2 = _
    unfold Query.answer
    rw [heq]
    rfl
  rwa [hperform]

end Table

namespace Lookups.Sound

variable {q : Lookups}

theorem ask (hq : q.Sound True mayCut) (ht : t.Sound) {a : TableAction} (ha : a.Valid t)
    (hadd : ∀ m, a ≠ .addModule m) : Ensures True t (q.ask a) fun _ t' => t.Proceeds mayCut t' := by
  have hforget : ∀ {α : Type} {query : Query α} {P : α → Table → Prop}, t.Finds True mayCut query P →
      Ensures True t (do let _ ← query) fun _ t' => t.Proceeds mayCut t' :=
        fun h => Ensures.bind h.asks fun _ _ h' => .pure h'.1
  cases a with
  | getType path => exact hforget (hq.getType path ht)
  | resolveLazy id => exact hforget (hq.resolveLazy ht ha)
  | resolved id => exact hforget (hq.resolved ht ha)
  | resolveUnion id => exact hforget (hq.resolveUnion ht ha)
  | resolvedRef ref => exact hforget (hq.resolvedRef ht ha)
  | member id name => exact hforget (hq.member name ht ha)
  | hasMember id name => exact hforget (hq.hasMember ht ha name)
  | builtinInstance name => exact hforget (hq.builtinInstance ht name)
  | importModule path => exact hforget (hq.importModule ht path)
  | importFrom modulePath name => exact hforget (hq.importFrom ht modulePath name)
  | importSibling package name => exact hforget (hq.importSibling ht package name)
  | addModule m => exact absurd rfl (hadd m)
  | convert modulePath origin d => exact Ensures.of_eq_some rfl (proceeds_convert ht modulePath origin d)
  | onStore a =>
    refine Ensures.of_eq_some rfl ?_
    have hgains := StoreAction.Derives.gains ht.spaceSound ha.1 ha.2
    cases a with
    | resolveLazy lazy target => exact ha.2.elim
    | _ => exact .grow hgains

end Lookups.Sound

namespace TableAction

/-- What is asked of a table does to it what looking things up does. -/
theorem proceeds_perform (ht : t.Sound) {a : TableAction} (ha : a.Valid t)
    (hadd : ∀ m, a ≠ .addModule m) : t.Proceeds True (a.perform t) := by
  have hask := Lookups.sound_ofTable.ask ht ha hadd
  rw [Lookups.perform_eq_ask]
  cases hanswer : Lookups.ofTable.ask a t with
  | none => exact .refl t
  | some r => exact hask.apply_some hanswer

/-- An action that meets no import cycle finds everything that it looks up. -/
theorem Straight.proceeds {a : TableAction} (h : a.Straight t) (ht : t.Sound) (ha : a.Valid t)
    (hadd : ∀ m, a ≠ .addModule m) : t.Proceeds False (a.perform t) := by
  obtain ⟨⟨⟨⟩, t'⟩, hask⟩ := Option.isSome_iff_exists.1 h
  rw [Lookups.perform_of_straight hask]
  exact (Lookups.sound_straight.ask ht ha hadd).apply_some hask

end TableAction

namespace Table

/-- Sound, with nothing being looked up. -/
structure AtRest (t : Table) : Prop extends t.Sound where
  inProgress_eq_nil : t.space.registry.inProgress = []

theorem AtRest.clear (h : t.AtRest) (mayCut : Prop) : t.Clear mayCut := fun _ => h.inProgress_eq_nil

theorem AtRest.proceeds (h : t.AtRest) (hproceeds : t.Proceeds mayCut t') : t'.AtRest :=
  ⟨(hproceeds.carries h.toSound).1, (hproceeds.carries h.toSound).2.inProgress_eq.trans h.inProgress_eq_nil⟩

theorem AtRest.retains (h : t.AtRest) (hproceeds : t.Proceeds True t') : t.store.Retains t'.store :=
  (hproceeds.carries h.toSound).2.retains

theorem AtRest.known (ht : t.AtRest) (h : t.Proceeds True t') {x : TypeId} (hx : t.store.Known x) : t'.store.Known x :=
  (ht.retains h).known hx

theorem AtRest.addModule (h : t.AtRest) (m : ModuleDescriptor) : (t.addModule m).AtRest := by
  unfold Table.addModule
  split
  · exact h
  · exact ⟨⟨⟨h.space, h.root, h.modules, h.cache⟩, h.solid, h.interned, h.named, h.reached, h.untraced⟩, h.inProgress_eq_nil⟩

theorem AtRest.perform (h : t.AtRest) {a : TableAction} (ha : a.Valid t) : (a.perform t).AtRest := by
  by_cases hadd : ∀ m, a ≠ .addModule m
  · exact h.proceeds (TableAction.proceeds_perform h.toSound ha hadd)
  · obtain ⟨m, rfl⟩ : ∃ m, a = .addModule m := by simpa using hadd
    exact h.addModule m

theorem AtRest.performAll (h : t.AtRest) {as : List TableAction} (has : t.ValidAll as) : (t.performAll as).AtRest := by
  induction as generalizing t with
  | nil => exact h
  | cons a rest ih => exact ih (h.perform has.1) has.2

/-! ## Answers -/

theorem Ensures.answer {α : Type} {query : Query α} {Q : α → Table → Prop}
    (h : Ensures True t query Q) (hsome : (query t).isSome) (default : α) :
    Ensures True t (liftM (query.answer default)) Q := by
  obtain ⟨⟨a, t'⟩, hanswer⟩ := Option.isSome_iff_exists.1 hsome
  refine Ensures.congr ?_ h
  show some ((query t).getD (default, t)) = _
  rw [hanswer]
  rfl

/-- An action moves a table on, to one in which its answer has a property. -/
structure Obtains {α : Type} (t : Table) (action : TableM α) (Q : α → Table → Prop) : Prop where
  proceeds : t.Proceeds True (action t).2
  answer : Q (action t).1 (action t).2

namespace Obtains

variable {α β : Type} {P : α → Table → Prop} {Q : β → Table → Prop} {action : TableM α} {query : Query α}

theorem pure {a : α} (ha : P a t) : t.Obtains (Pure.pure a) P := ⟨.refl t, ha⟩

theorem bind {f : α → TableM β} (h : t.Obtains action P)
    (hf : ∀ a (t' : Table), t.Proceeds True t' → P a t' → t'.Obtains (f a) Q) : t.Obtains (action >>= f) Q :=
  have hnext := hf _ _ h.proceeds h.answer
  ⟨h.proceeds.trans hnext.proceeds, hnext.answer⟩

theorem get_bind {f : Table → TableM β} (h : t.Obtains (f t) Q) : t.Obtains (get >>= f) Q := ⟨h.proceeds, h.answer⟩

theorem of_asks (h : t.Asks True (liftM action) P) : t.Obtains action P :=
  have hrun := Ensures.apply_some h rfl
  ⟨hrun.1, hrun.2⟩

theorem of_ensures (h : Ensures False t query fun a t' => t.Proceeds True t' ∧ P a t') (default : α) :
    t.Obtains (query.answer default) P := of_asks (Ensures.answer (h.weaken fun h => h.elim) (Ensures.isSome h) default)

theorem of_finds (h : t.Finds False True query P) (default : α) : t.Obtains (query.answer default) P :=
  of_ensures (Ensures.imp h fun _ _ ha => ⟨ha.1.proceeds, ha.2⟩) default

theorem mapM {ι : Type} {f : ι → TableM α} {P : ι → α → Table → Prop} (xs : List ι)
    (hstays : ∀ x a t1 t2, t.Proceeds True t1 → t1.Proceeds True t2 → P x a t1 → P x a t2)
    (hf : ∀ x ∈ xs, ∀ t' : Table, t.Proceeds True t' → t'.Obtains (f x) (P x)) :
    t.Obtains (xs.mapM f) fun as t' => List.Forall₂ (fun x a => P x a t') xs as := by
  induction xs generalizing t with
  | nil =>
    rw [List.mapM_nil]
    exact .pure .nil
  | cons x rest ih =>
    rw [List.mapM_cons]
    refine (hf x (by simp) t (.refl t)).bind fun a t1 h1 ha => ?_
    refine (ih (fun y b t2 t3 h2 h3 => hstays y b t2 t3 (h1.trans h2) h3)
      fun y hy t2 h2 => hf y (by simp [hy]) t2 (h1.trans h2)).bind fun as t2 h2 has => .pure ?_
    exact .cons (hstays x a t1 t2 h1 h2 ha) has

end Obtains

theorem AtRest.obtains_resolved (ht : t.AtRest) {x : TypeId} (hx : t.store.Known x) :
    t.Obtains (Table.resolved x) fun u t' => t'.store.Plain u ∧ t'.store.Forced x u :=
  .of_finds ((Lookups.sound_ofTable.resolved ht.toSound hx).imp ht.toSound
    fun _ _ _ _ hu => ⟨hu.plain, hu.forced (.inl (ht.clear True))⟩) _

/-! ## Tables that have been made -/

theorem tidy_new : ({} : TypeSpace).Tidy := by
  refine ⟨⟨TypeStore.wellFormed_new, TypeStore.inStep_new, fun t => ?_⟩, by simp⟩
  grind [Fits, TypeForm.refs, shape_new]

theorem sound_new : ({} : TypeSpace).Sound := by
  refine ⟨tidy_new, fun x hx => ?_, fun x => ?_⟩
  · rw [← isScope_shape, shape_new] at hx
    cases hx
  · rw [shape_new]
    trivial

theorem exists_rootMembers (stubs : StubStore) : ∃ members space, (rootMembers stubs {}).getD (∅, {}) = (members, space) ∧
    ({} : TypeSpace).Gains space ∧ ∀ ref ∈ members.values, space.store.RefPlain ref := by
  unfold rootMembers
  cases stubs.lookup rootPath with
  | none => exact ⟨∅, {}, rfl, .refl sound_new, by simp⟩
  | some builtins =>
    have hadds := builtins.adds_convertMembers { modulePath := "", origin := .stub }
      (U := builtins.paths.toFinset) (fun _ hp => List.mem_toFinset.2 hp) sound_new
    obtain ⟨members, space, heq, hgains, -, hmembers⟩ := Ensures.exists_eq_some hadds
    exact ⟨members, space, congrArg (Option.getD · (∅, {})) heq, hgains, hmembers⟩

theorem atRest_create (project : Project) (stubs : StubStore) (settings : Settings)
    (stubPackages : Bool) : (create project stubs settings stubPackages).AtRest := by
  obtain ⟨members, space, heq, hgains, hmembers⟩ := exists_rootMembers stubs
  obtain ⟨hstore, hgrows⟩ := hgains.sound.store.alloc (.ofModule { name := rootPath, path := rootPath, members }) (.inl rfl)
    fun ref href => (hmembers ref href).refKnown
  have hadded := (hgains.sound.gains_added hstore hgrows (.inl rfl) fun _ => hmembers).sound
  have hroot : ((space.store.added (.ofModule { name := rootPath, path := rootPath, members })).form
      space.store.fresh).isModule = true := by
    rw [form_fresh_of_push rfl]
    rfl
  unfold create
  rw [heq]
  exact ⟨⟨⟨hadded.toTidy, hroot, nofun, nofun⟩, hadded.solid, hadded.interned, nofun, nofun, rfl⟩, hgains.inProgress_eq⟩

/-- In a table that has been made for a project, whatever has been done with it since, every query
is answered. Nothing is logged in such a table: a log would have to describe types, which need not
come to an end. -/
theorem queries_answered (project : Project) (stubs : StubStore) (settings : Settings) (stubPackages : Bool)
    (as : List TableAction) (has : (create project stubs settings stubPackages).ValidAll as) :
    let t := (create project stubs settings stubPackages).performAll as
    t.traced = false ∧ (∀ path, (Query.getType path t).isSome) ∧
      (∀ id, t.store.Known id →
        (Query.resolveLazy id t).isSome ∧ (Query.resolved id t).isSome ∧
          ∀ name, (Query.member id name t).isSome ∧ (Query.hasMember id name t).isSome) ∧
      (∀ path, (Query.importModule path t).isSome) ∧
      (∀ modulePath name, (Query.importFrom modulePath name t).isSome) ∧
      ∀ package name, (Query.importSibling package name t).isSome := by
  intro t
  have h : t.Sound := ((atRest_create project stubs settings stubPackages).performAll has).toSound
  have hq : Lookups.ofTable.Sound False True := Lookups.sound_ofTable
  have hhas := fun id (hid : t.store.Known id) name => hq.hasMember h hid name
  simp only [Lookups.hasMember_ofTable] at hhas
  exact ⟨h.untraced, fun path => Ensures.isSome (hq.getType path h), fun id hid => ⟨Ensures.isSome (hq.resolveLazy h hid),
    Ensures.isSome (hq.resolved h hid),
      fun name => ⟨Ensures.isSome (hq.member name h hid), Ensures.isSome (hhas id hid name)⟩⟩,
    fun path => Ensures.isSome (hq.importModule h path), fun modulePath name =>
      Ensures.isSome (hq.importFrom h modulePath name),
    fun package name => Ensures.isSome (hq.importSibling h package name)⟩

/-- Two classes that are each other's bases, names that are imported from each other, and one that
is imported from itself. -/
def entangled : Project :=
  (({} : Project).addModule (ModuleDescriptor.addMembers (.ofPath "p") [
    .ofClass "A" (some "p.A") ["p.B"] [] false none, .ofClass "B" (some "p.B") ["p.A", "q.z"] [] false none,
    .ofVariable { name := "x", path := "q.y" }])).addModule (ModuleDescriptor.addMembers (.ofPath "q") [
    .ofVariable { name := "y", path := "p.x" }, .ofVariable { name := "z", path := "q.z" }])

theorem queries_answered_entangled :
    (create entangled {} {}).ValidAll [.getType "p.x", .onStore (.unionOf [⟨1⟩, ⟨2⟩]), .importFrom "q" "z", .member ⟨2⟩ "f"] ∧
      (Query.hasMember ⟨2⟩ "f" ((create entangled {} {}).performAll
        [.getType "p.x", .onStore (.unionOf [⟨1⟩, ⟨2⟩]), .importFrom "q" "z", .member ⟨2⟩ "f"])).isSome := by
  have hvalid : (create entangled {} {}).ValidAll
      [.getType "p.x", .onStore (.unionOf [⟨1⟩, ⟨2⟩]), .importFrom "q" "z", .member ⟨2⟩ "f"] := by decide +kernel
  have hknown : ((create entangled {} {}).performAll
      [.getType "p.x", .onStore (.unionOf [⟨1⟩, ⟨2⟩]), .importFrom "q" "z", .member ⟨2⟩ "f"]).store.Known ⟨2⟩ := by
    decide +kernel
  exact ⟨hvalid, ((queries_answered entangled {} {} true _ hvalid).2.2.1 ⟨2⟩ hknown).2.2 "f" |>.2⟩

end Table

end PythonTypes
