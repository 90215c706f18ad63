import PythonTypes.Proofs.Table.Coherence

/-!
# What resolved lazy types mean

A lazy type is resolved once, to where its path leads at that moment. If the request meets no import
cycle and that is something known, then the lazy type means what its path means from then on,
whatever other requests meet (`lazy_means_path`). It may be left unknown although its path leads
somewhere once a submodule is bound, and where a look-up was cut off another answer may be
remembered for the path later (`lazy_misses_path_inheritedInTurn`).
-/

set_option autoImplicit false

namespace PythonTypes.Table

/-- A plain type is forced to its meaning if nothing else is being looked up. -/
theorem AtRest.resolved_means {t : Table} {x : TypeId} (ht : t.AtRest) (hx : t.store.Plain x) :
    ∃ u t', Query.resolved x t = some (u, t') ∧ t'.AtRest ∧ t.Carries t' ∧ t'.store.Means x u := by
  obtain ⟨u, t', hanswer, ⟨hproceeds, -⟩, hu⟩ := Ensures.exists_eq_some (Lookups.sound_ofTable.resolved ht.toSound hx.1)
  have hforced := hu.forced (.inl (ht.clear True))
  have hcarries := (hproceeds.carries ht.toSound).2
  exact ⟨u, t', hanswer, ht.proceeds hproceeds, hcarries, hforced.means (hx.wrappable.evolves hcarries.retains.toEvolves).2⟩

/-- A lazy type that is resolved to something known, by a request that meets no import cycle, means
what its path means after all requests that follow, whatever these meet. -/
theorem lazy_means_path (project : Project) (stubs : StubStore) (settings : Settings)
    (stubPackages : Bool) (before : List TableAction)
    (a : TableAction) (after : List TableAction) (hbefore : (create project stubs settings stubPackages).ValidAll before) :
    let t₀ := (create project stubs settings stubPackages).performAll before
    let t := t₀.performAll (a :: after)
    t₀.ValidAll (a :: after) → a.Straight t₀ → (a.perform t₀).cache.get? "" = none →
      ∀ l path target, t₀.store.lazyTarget? l = none → (a.perform t₀).store.lazyTarget? l = some target →
        t.store.lazyPath? l = some path → target ≠ .unknown → ∃ u t₁ t₂,
          Query.resolved (t.store.derefLazy l) t = some (u, t₁) ∧
          Query.getType path t₁ = some (target, t₁) ∧ Query.resolved target t₁ = some (u, t₂) := by
  intro t₀ t hafter hstraight hempty l path target hnone htarget hl hne
  have ht₀ : t₀.AtRest := (atRest_create project stubs settings stubPackages).performAll hbefore
  have hrest := ht₀.perform hafter.1
  have hretains : (a.perform t₀).store.Retains t.store := hrest.retains_performAll hafter.2
  have hsince := (CoherentSince.refl t₀).perform ht₀ hafter.1 hstraight hempty
  have hsettled := hsince.settled l path target hnone (hretains.lazyPath?_of_target htarget hl) htarget hne
  have ht : t.AtRest := hrest.performAll hafter.2
  have hx := hretains.target_eq l target htarget
  have hplain : t.store.Plain target := ⟨ht.store.wellFormed.target_known l target hx, ht.store.target_plain hx⟩
  have hderef : t.store.derefLazy l = target := by
    rw [ht.store.derefLazy_eq, hx]
    rfl
  rw [hderef]
  obtain ⟨u, t₁, hfirst, ht₁, hcarries, hmeans⟩ := ht.resolved_means hplain
  have hremembers := (remembers_performAll (a.perform t₀) after).settled hsettled
  obtain ⟨t₂, hagain, -⟩ := ht₁.toSound.resolved_of_means hmeans
  exact ⟨u, t₁, t₂, hfirst, getType_of_settled (hcarries.toRemembers.settled hremembers), hagain⟩

/-- A module that has a second name for another, and a third one that imports a submodule under that
name. -/
def otherName : Project :=
  ((({} : Project).addModule (ModuleDescriptor.addMember (.ofPath "a") (.ofVariable { name := "x", path := "b" }))).addModule
    (.ofPath "b.n")).addModule (ModuleDescriptor.addMember (.ofPath "c") (.ofVariable { name := "y", path := "a.x.n" }))

theorem lazy_means_path_otherName :
    let t := ((create otherName {} {}).performAll [.getType "c"]).performAll [.resolveLazy ⟨2⟩, .getType "b.n"]
    t.store.lazyPath? ⟨4⟩ = some "b" ∧ ∃ u t₁ t₂, Query.resolved (t.store.derefLazy ⟨4⟩) t = some (u, t₁) ∧
      Query.getType "b" t₁ = some (⟨6⟩, t₁) ∧ Query.resolved ⟨6⟩ t₁ = some (u, t₂) := by
  intro t
  have hpath : t.store.lazyPath? ⟨4⟩ = some "b" := by decide +kernel
  exact ⟨hpath, lazy_means_path otherName {} {} true [.getType "c"] (.resolveLazy ⟨2⟩) [.getType "b.n"] (by decide +kernel)
    (by decide +kernel) (by decide +kernel) (by decide +kernel) ⟨4⟩ "b" ⟨6⟩ (by decide +kernel)
      (by decide +kernel) hpath nofun⟩

/-- A class one of whose bases is named as a class that it inherits from the other. -/
def inheritedInTurn (path base : String) : Project :=
  ((({} : Project).addModule (ModuleDescriptor.addMember (.ofPath path)
    (.ofVariable { name := "x", path := "q.E.D" }))).addModule
    (ModuleDescriptor.addMember (.ofPath "q") (.ofClass "E" (some "q.E") [base, "s.F"] [] false none))).addModule
    (ModuleDescriptor.addMember (.ofPath "s") (.ofClass "F" (some "s.F") []
      [.ofClass "D" (some "s.F.D") [] [.ofClass "D" (some "s.F.D.D") [] [] false none] false none] false none))

/-- A lazy type may be left unknown although its path leads somewhere later. If a request meets
an import cycle or a module without a name, a path may lead elsewhere in the end. -/
theorem lazy_misses_path_inheritedInTurn :
    (let t := (create otherName {} {}).performAll [.getType "c", .resolveLazy ⟨2⟩, .getType "b.n"];
      t.store.lazyPath? ⟨2⟩ = some "a.x.n" ∧ t.store.derefLazy ⟨2⟩ = .unknown ∧
        (Query.getType "a.x.n" t).map Prod.fst = some ⟨7⟩ ∧
        (t.form ⟨7⟩).isModule = true) ∧
    (let t := (create (inheritedInTurn "p" "p.x") {} {}).performAll [.getType "q.E.D"];
      t.store.lazyPath? ⟨6⟩ = some "q.E.D" ∧ t.store.derefLazy ⟨6⟩ = ⟨9⟩ ∧
        (Query.getType "q.E.D" t).map Prod.fst = some ⟨10⟩ ∧
        (t.form ⟨9⟩).isClass = true ∧ (t.form ⟨10⟩).isClass = true) ∧
    (let t := (create ((inheritedInTurn "" "x").addModule (.ofPath "x")) {} {}).performAll [.getType ".x"];
      t.store.lazyPath? ⟨4⟩ = some "x" ∧ t.store.derefLazy ⟨4⟩ = ⟨8⟩ ∧ (Query.getType "x" t).map Prod.fst = some ⟨10⟩ ∧
        (t.form ⟨8⟩).isModule = true ∧ (t.form ⟨10⟩).isClass = true) := by
  decide +kernel

end PythonTypes.Table
