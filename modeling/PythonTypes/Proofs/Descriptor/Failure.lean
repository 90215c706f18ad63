import PythonTypes.Proofs.Descriptor.Trace
import PythonTypes.Proofs.Table.History

/-!
# Which conversions fail

A descriptor of unknown kind cannot be converted, and so cannot an ambiguous one that offers it
among its alternatives, at any depth (`Descriptor.OffersUnknown`). Nothing else makes a conversion
fail: inside a class or a module such a descriptor is an unknown member
(`conversion_fails_iff_offersUnknown`).
-/

set_option autoImplicit false

namespace PythonTypes

namespace Descriptor

open TypeSpace

/-- A descriptor of unknown kind, or one from which it is reached through alternatives of ambiguous
descriptors. -/
inductive OffersUnknown : Descriptor → Prop
  | unknown (name : String) (path : Option String) : OffersUnknown (.unknown name path)
  | ambiguous (name : String) (path : Option String) {alternatives : List Descriptor}
      {d : Descriptor} (hmem : d ∈ alternatives)
      (hd : d.OffersUnknown) : OffersUnknown (.ambiguous name path alternatives)

/-- A conversion fails if `p`, because of a descriptor of unknown kind. -/
def FailsIf {α : Type} (p : Prop) : Except ConversionError α → Prop
  | .error e => p ∧ e = ⟨convertibleKinds, .unknown⟩
  | .ok _ => ¬ p

theorem ensures_liftM {α : Type} {p : Prop} (hp : ¬ p) (space : TypeSpace) (action : SpaceM α) :
    Ensures True space (liftM action : ConvertM α).run fun r _ => FailsIf p r :=
  .map ((Ensures.anything action).imp fun _ _ _ => hp)

mutual

theorem ensures_convert (scope : ConversionScope) : (d : Descriptor) → (space : TypeSpace) →
    Ensures True space (d.convert scope).run fun r _ => FailsIf d.OffersUnknown r
  | .ofClass .., space => by
    rw [convert_ofClass]
    exact ensures_liftM nofun space _
  | .ofFunction f, space => by
    rw [convert_ofFunction]
    exact ensures_liftM nofun space _
  | .ofVariable v, space => by
    rw [convert_ofVariable]
    exact ensures_liftM nofun space _
  | .ambiguous name path alternatives, space => by
    rw [convert_ambiguous]
    refine Ensures.bind (ensures_convertAll scope alternatives space) fun r space1 hr => ?_
    cases r with
    | error e =>
      obtain ⟨⟨d, hmem, hd⟩, rfl⟩ := hr
      exact .pure ⟨.ambiguous name path hmem hd, rfl⟩
    | ok ts =>
      refine ensures_liftM (fun h => hr ?_) space1 _
      cases h with
      | ambiguous _ _ hmem hd => exact ⟨_, hmem, hd⟩
  | .unknown name path, space => .pure ⟨.unknown name path, rfl⟩

theorem ensures_convertAll (scope : ConversionScope) : (ds : List Descriptor) → (space : TypeSpace) →
    Ensures True space (convertAll scope ds).run fun r _ => FailsIf (∃ d ∈ ds, d.OffersUnknown) r
  | [], space => .pure (by simp [FailsIf])
  | d :: rest, space => by
    rw [convertAll_cons]
    refine Ensures.bind (ensures_convert scope d space) fun r space1 hr => ?_
    cases r with
    | error e => exact .pure ⟨⟨d, by simp, hr.1⟩, hr.2⟩
    | ok t =>
      refine Ensures.bind (ensures_convertAll scope rest space1) fun r' space2 hr' => ?_
      cases r' with
      | error e => exact .pure ⟨hr'.1.imp fun _ h => ⟨List.mem_cons_of_mem d h.1, h.2⟩, hr'.2⟩
      | ok ts => exact .pure (by simp_all [FailsIf])

end

end Descriptor

namespace ModuleDescriptor

open Descriptor TypeSpace TypeStore

variable (scope : ConversionScope)

theorem ensures_convertMember {d : Descriptor} (hstands : d.standsIn scope.modulePath = true)
    (hd : d.OffersUnknown) (space : TypeSpace) : Ensures True space (convertMemberIn scope d) fun t _ => t = .unknown := by
  have hconvert : convertMemberIn scope d = d.convertOrUnknownIn scope := by
    unfold convertMemberIn
    unfold standsIn at hstands
    cases hpath : d.path <;> simp_all
  rw [hconvert]
  refine Ensures.bind (ensures_convert scope d space) fun r space1 hr => .pure ?_
  cases r with
  | error e => rfl
  | ok t => exact absurd hd hr

theorem wrap_unknown {s : TypeStore} (h : s.WellFormed) : TypeStore.wrap .unknown s = (.direct .unknown, s) := by
  have htarget := no_target_of_shape h.unknown_first (by simp)
  have hpending : ¬ s.isPending .unknown = true := by
    rw [isPending_iff, h.unknown_first]
    simp
  rw [wrap_apply, derefLazy_of_no_target htarget, if_neg hpending]

/-- Every entry of a module gets a member of its name. -/
theorem ensures_convertEntries (entries : List (String × Descriptor)) (acc : OrderedMap String TypeRef)
    {space : TypeSpace} (h : space.Sound) : Ensures True space (convertEntriesIn scope entries acc) fun members _ =>
      ∃ refs, members = acc.insertAll refs ∧ refs.map Prod.fst = entries.map Prod.fst ∧ ∀ key d, (key, d) ∈ entries →
        d.standsIn scope.modulePath = true → d.OffersUnknown → (key, .direct .unknown) ∈ refs := by
  induction entries generalizing acc space with
  | nil => exact .pure ⟨[], rfl, rfl, by simp⟩
  | cons entry rest ih =>
    obtain ⟨key, d⟩ := entry
    have hmember : Ensures True space (convertMemberIn scope d) fun t _ =>
        d.standsIn scope.modulePath = true → d.OffersUnknown → t = .unknown := by
      by_cases hfails : d.standsIn scope.modulePath = true ∧ d.OffersUnknown
      · exact (ensures_convertMember scope hfails.1 hfails.2 space).imp fun _ _ ht _ _ => ht
      · exact (Ensures.anything _).imp fun _ _ _ hstands hd => absurd ⟨hstands, hd⟩ hfails
    have hadds := adds_convertMember scope (U := d.paths.toFinset) (fun _ => List.mem_toFinset.2) h
    refine ((hadds.weaken False.elim).and hmember).bind fun t space1 ⟨⟨hgains, _, ht⟩, hunknown⟩ => ?_
    have hwrap : Ensures True space1 (onStore (TypeStore.wrap t)) fun ref _ => t = .unknown → ref = .direct .unknown :=
      .of_eq_some (a := (TypeStore.wrap t space1.store).1) rfl fun ht => by
        rw [ht, wrap_unknown hgains.sound.store.wellFormed]
    refine (((adds_wrap (U := ∅) (n := 0) hgains.sound ht).weaken False.elim).and hwrap).bind
      fun ref space2 ⟨hadds2, href⟩ => ?_
    refine (ih _ hadds2.1.sound).imp fun members _ ⟨refs, hmembers, hkeys, hrefs⟩ =>
      ⟨(key, ref) :: refs, hmembers, by simp [hkeys], ?_⟩
    intro key' d' hmem hstands hd
    rcases List.mem_cons.1 hmem with heq | hmem
    · cases heq
      rw [href (hunknown hstands hd)]
      exact List.mem_cons_self
    · exact List.mem_cons_of_mem _ (hrefs key' d' hmem hstands hd)

end ModuleDescriptor

/-- A conversion fails if and only if the descriptor offers one of unknown kind, which the error
says; a class is always converted. In a sound space each conversion comes to an end. A module gets a
member for each of its entries, in order, and those that stand in the module and cannot be converted
are unknown. -/
theorem conversion_fails_iff_offersUnknown (scope : ConversionScope) (space : TypeSpace) :
    (∀ d : Descriptor, (space.Sound → ((d.convert scope).run space).isSome = true) ∧
      ∀ r space', (d.convert scope).run space = some (r, space') → ((∃ e, r = .error e) ↔ d.OffersUnknown) ∧
        (∀ e, r = .error e → e = ⟨Descriptor.convertibleKinds, .unknown⟩) ∧ (d.kind = .ofClass → ∃ cls, r = .ok cls)) ∧
    (space.Sound → ∀ m : ModuleDescriptor, ∃ members space', m.convertMembers scope space = some (members, space') ∧
      members.keys = m.members.keys ∧ ∀ key d, (key, d) ∈ m.members.entries → d.standsIn scope.modulePath = true →
        d.OffersUnknown → members.get? key = some (.direct .unknown)) := by
  refine ⟨fun d => ⟨fun h => ?_, fun r space' hrun => ?_⟩, fun h m => ?_⟩
  · exact (Descriptor.gives_convert scope d (U := d.paths.toFinset) (fun _ => List.mem_toFinset.2) space h).isSome
  · have hr := (Descriptor.ensures_convert scope d space).apply_some hrun
    cases r with
    | error e =>
      refine ⟨⟨fun _ => hr.1, fun _ => ⟨e, rfl⟩⟩, fun e' he => Except.error.inj he ▸ hr.2, fun hkind => ?_⟩
      cases hr.1 <;> cases hkind
    | ok t => exact ⟨⟨nofun, fun hd => absurd hd hr⟩, nofun, fun _ => ⟨t, rfl⟩⟩
  · have hadds := m.adds_convertMembers scope (U := m.paths.toFinset) (fun _ => List.mem_toFinset.2) h
    obtain ⟨members, space', hrun, -⟩ := Ensures.exists_eq_some hadds
    rw [m.convertMembers_eq] at hrun
    obtain ⟨refs, rfl, hkeys, hrefs⟩ := (ModuleDescriptor.ensures_convertEntries scope m.members.entries ∅ h).apply_some hrun
    have hentries : (OrderedMap.insertAll ∅ refs).entries = refs :=
      OrderedMap.entries_insertAll (m := ∅) (show (refs.map Prod.fst).Nodup from hkeys ▸ m.members.nodup)
    rw [m.convertMembers_eq]
    refine ⟨_, space', hrun, (congrArg _ hentries).trans hkeys, fun key d hmem hstands hd => ?_⟩
    rw [OrderedMap.get?_eq_some_iff, hentries]
    exact hrefs key d hmem hstands hd

/-- Both parts hold of a module with a class that has an unknown member, an ambiguous member that
offers an unknown one, and an unknown member that is defined elsewhere. -/
theorem conversion_fails_iff_offersUnknown_halfKnown :
    let scope : ConversionScope := ⟨"m", .project, none⟩
    let m := (ModuleDescriptor.ofPath "m").addMembers
      [.ofClass "A" none [] [.unknown "a" none] false none, TypeSpace.halfKnown, .unknown "y" (some "n.y")]
    TypeSpace.Sound {} ∧
    (∃ e space', (TypeSpace.halfKnown.convert scope).run {} = some (.error e, space') ∧
      e.found = .unknown) ∧
      ∃ members space', m.convertMembers scope {} = some (members, space') ∧
        members.keys = ["A", "x", "y"] ∧ members.get? "x" = some (.direct .unknown) := by
  intro scope m
  obtain ⟨hdescriptor, hmodule⟩ := conversion_fails_iff_offersUnknown scope {}
  obtain ⟨hends, hresult⟩ := hdescriptor TypeSpace.halfKnown
  have hunknown : TypeSpace.halfKnown.OffersUnknown := .ambiguous "x" none (by simp) (.unknown "x" none)
  obtain ⟨⟨r, space'⟩, hrun⟩ := Option.isSome_iff_exists.1 (hends Table.sound_new)
  obtain ⟨hiff, herror, -⟩ := hresult r space' hrun
  obtain ⟨e, rfl⟩ := hiff.2 hunknown
  obtain ⟨members, space'', hmembers, hkeys, hfails⟩ := hmodule Table.sound_new m
  refine ⟨Table.sound_new, ⟨e, space', hrun, by rw [herror e rfl]⟩, members, space'', hmembers, hkeys, ?_⟩
  exact hfails "x" TypeSpace.halfKnown (.tail _ (.head _)) rfl hunknown

end PythonTypes
