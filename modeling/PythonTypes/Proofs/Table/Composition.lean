import PythonTypes.Proofs.Table.Asking

/-!
# What types are made up of

The parts of a type (`HasPart`) may stand for the same thing in two ways: as the instance of a
class, and as the type of its instances. `Comprises` takes them together. A type is made up of the
same as what it is forced to (`Forced.matches`), and stays so when more is found
(`Matches.retains`), though it may then be forced to something else: a lazy union is taken apart
each time, and the instances among its parts may have been waiting for their classes before.
-/

set_option autoImplicit false

namespace PythonTypes.TypeStore

variable {s s' : TypeStore} {x y : TypeId} {p q : Part}
variable {cs : List TypeId} {z : TypeId}

/-! ## Parts of types -/

theorem Tidy.hasPart_cases (h : s.Tidy) (hp : s.HasPart x p) :
    p = .unknown ∨ (∃ z, p = .type z ∧ s.Atom z) ∨ ∃ c, p = .instanceOf c := by
  induction hp with
  | target _ _ ih => exact ih
  | candidate _ _ _ ih => exact ih
  | unknown _ => exact .inl rfl
  | instances _ hw hp => grind [instancePart_of_isPlain, slot_plain]
  | atom hatom => exact .inr (.inl ⟨_, rfl, hatom⟩)

theorem Tidy.hasPart_of_single (h : s.Tidy) (hsingle : (s.shape x).isSingle = true) (hplain : (s.shape x).isPlain = true)
    (hp : s.HasPart x p) : p = .type x ∨ p = .unknown ∨ ∃ c, p = .instanceOf c := by
  rw [hasPart_iff] at hp
  split at hp <;> rename_i hshape
  · exact .inr (.inl hp)
  · exact .inr (.inl hp)
  · rw [hshape] at hsingle
    cases hsingle
  · rw [hshape] at hsingle
    cases hsingle
  · rw [hshape] at hplain
    cases hplain
  · grind [instancePart_of_isPlain, slot_plain]
  · exact .inl hp

/-- A type has parts, because the union of it alone is made of them. -/
theorem Tidy.exists_hasPart (h : s.Tidy) (x : TypeId) : ∃ p, s.HasPart x p := by
  by_cases hx : s.Known x
  · obtain ⟨p, y, hy, hp⟩ := (h.good.unionOf_answers (List.forall_mem_singleton.2 hx) (List.cons_ne_nil _ _)).exists_part
    exact ⟨p, List.mem_singleton.1 hy ▸ hp⟩
  · exact ⟨_, .unknown (by rw [shape_of_not_known hx]; rfl)⟩

theorem Retains.candidates?_eq (h : s.Retains s') (hcs : s.candidates? x = some cs) : s'.candidates? x = some cs := by
  have hknown := known_of_candidates hcs
  rcases candidates?_eq_some_iff.1 hcs with hshape | hshape
  · exact candidates?_eq_some_iff.2 (.inl ((h.shape_eq hknown (by rw [hshape]; rfl) (by simp [hshape])).trans hshape))
  · exact candidates?_eq_some_iff.2 (.inr ((h.shape_eq hknown (by rw [hshape]; rfl) (by simp [hshape])).trans hshape))

theorem Retains.candidates?_back (h : s.Retains s') (hx : s.Known x)
    (hcs : s'.candidates? x = some cs) : s.candidates? x = some cs := by
  rcases candidates?_eq_some_iff.1 hcs with hshape | hshape
  · exact candidates?_eq_some_iff.2 (.inl (h.shape_back hx hshape rfl (by simp)))
  · exact candidates?_eq_some_iff.2 (.inr (h.shape_back hx hshape rfl (by simp)))

theorem Tidy.becomes_instancePart (h : s.Tidy) {w : SlotId} (hw : (s.slot w).isResolved = true)
    (hp : s.InstancePart (s.slot w).target p) : s'.Becomes p q ↔ q = p := by
  rcases h.instancePart_of_isPlain (h.slot_plain hw) hp with rfl | ⟨c, rfl⟩ <;> rfl

theorem Retains.hasPart_iff (h : s.Retains s') (hs : s.Tidy) (hx : s.Known x) :
    s'.HasPart x q ↔ ∃ p, s.HasPart x p ∧ s'.Becomes p q := by
  refine hasPart_becomes_iff hs.wellFormed.unfolds_known (fun x hx hatom => ?_) h.slot_eq (fun w hw q => ?_) hx
  · by_cases hlazy : ∃ path state, s.shape x = .lazy path state
    · obtain ⟨path, state, hshape⟩ := hlazy
      cases state with
      | pending ws => exact absurd (.of_isPending (isPending_of_shape hshape)) hatom
      | resolved u =>
        obtain ⟨path', hshape'⟩ := lazyTarget?_eq_some_iff.1 (h.target_eq x u (lazyTarget?_eq_some_iff.2 ⟨path, hshape⟩))
        have houtline := h.outline_eq x hx
        rw [hshape, hshape'] at houtline
        cases houtline
        rw [hshape, hshape']
    · exact h.shape_eq hx (by grind [Atom, TypeForm.isScope]) fun path state hshape => hlazy ⟨path, state, hshape⟩
  · have hplain : s.Plain (s.slot w).target := ⟨(hs.wellFormed.slot_known w).2, hs.slot_plain hw⟩
    refine (h.instancePart_iff hs hplain).trans ⟨fun hq => ⟨q, hq, (hs.becomes_instancePart hw hq).2 rfl⟩, ?_⟩
    rintro ⟨p, hp, hpq⟩
    exact (hs.becomes_instancePart hw hp).1 hpq ▸ hp

/-! ## What types are made up of -/

/-- A part, with an instance type as the instance of its class. -/
def asInstance (s : TypeStore) : Part → Part
  | .type z =>
    match s.shape z with
    | .object (.direct c) => .instanceOf c
    | _ => .type z
  | p => p

/-- The type is made up of `p` and maybe others. -/
def Comprises (s : TypeStore) (x : TypeId) (p : Part) : Prop := ∃ q, s.HasPart x q ∧ s.asInstance q = p

theorem asInstance_of_object {c : TypeId} (hz : s.shape z = .object (.direct c)) :
    s.asInstance (.type z) = .instanceOf c := by
  rw [asInstance, hz]

theorem asInstance_cases (s : TypeStore) (z : TypeId) :
    (∃ c, s.shape z = .object (.direct c)) ∨ s.asInstance (.type z) = .type z := by
  grind [asInstance]

theorem asInstance_type (hz : ∀ c, s.shape z ≠ .object (.direct c)) : s.asInstance (.type z) = .type z :=
  (s.asInstance_cases z).resolve_left fun ⟨c, hshape⟩ => hz c hshape

theorem eq_of_asInstance (h : s.asInstance p = .type z) : p = .type z := by
  cases p with
  | type y =>
    rcases s.asInstance_cases y with ⟨c, hshape⟩ | hself
    · rw [asInstance_of_object hshape] at h
      cases h
    · exact hself.symm.trans h
  | _ => cases h

theorem asInstance_unknown_iff : s.asInstance p = .unknown ↔ p = .unknown := by
  cases p with
  | type y =>
    rcases s.asInstance_cases y with ⟨c, hshape⟩ | hself
    · simp [asInstance_of_object hshape]
    · simp [hself]
  | _ => rfl

theorem comprises_unknown_iff : s.Comprises x .unknown ↔ s.HasPart x .unknown := by
  constructor
  · rintro ⟨q, hq, hunknown⟩
    exact asInstance_unknown_iff.1 hunknown ▸ hq
  · exact fun h => ⟨_, h, rfl⟩

theorem Comprises.hasPart (h : s.Comprises x (.type z)) : s.HasPart x (.type z) := by
  obtain ⟨q, hq, hz⟩ := h
  exact eq_of_asInstance hz ▸ hq

theorem comprises_of_candidates (h : s.candidates? x = some cs) : s.Comprises x p ↔ ∃ c ∈ cs, s.Comprises c p := by
  grind [Comprises, hasPart_of_candidates]

theorem comprises_of_atom (h : s.Atom x) : s.Comprises x p ↔ p = s.asInstance (.type x) := by
  constructor
  · rintro ⟨q, hq, rfl⟩
    rw [(hasPart_of_atom h).1 hq]
  · rintro rfl
    exact ⟨_, .atom h, rfl⟩

theorem atom_of_isScope (h : (s.shape x).isScope = true) : s.Atom x := by
  rw [Atom]
  cases hshape : s.shape x <;> rw [hshape] at h <;> trivial

theorem comprises_of_isScope (h : (s.shape x).isScope = true) : s.Comprises x p ↔ p = .type x := by
  rw [comprises_of_atom (atom_of_isScope h), asInstance_type]
  intro c hc
  rw [hc] at h
  cases h

theorem Tidy.exists_comprises (h : s.Tidy) (x : TypeId) : ∃ p, s.Comprises x p := by
  obtain ⟨q, hq⟩ := h.exists_hasPart x
  exact ⟨_, q, hq, rfl⟩

theorem Tidy.eq_of_comprises (h : s.Tidy) (hsingle : (s.shape x).isSingle = true)
    (hplain : (s.shape x).isPlain = true) (hz : s.Comprises x (.type z)) : x = z := by
  rcases h.hasPart_of_single hsingle hplain hz.hasPart with heq | heq | ⟨c, heq⟩ <;> cases heq
  rfl

/-- What a type was made up of before is now made up of `q`. -/
def Turns (s : TypeStore) : Part → Part → Prop
  | .type z, q => s.Comprises z q
  | p, q => q = p

theorem Retains.comprises_iff (h : s.Retains s') (hs : s.Tidy) (hx : s.Known x) :
    s'.Comprises x q ↔ ∃ p, s.Comprises x p ∧ s'.Turns p q := by
  have hstays : ∀ p, s'.asInstance p = p → (∀ q', s'.Becomes p q' ↔ q' = p) →
      ((∃ q', s'.Becomes p q' ∧ s'.asInstance q' = q) ↔ q = p) := by
    intro p hp hbecomes
    constructor
    · rintro ⟨q', hq', rfl⟩
      rw [(hbecomes q').1 hq', hp]
    · rintro rfl
      exact ⟨q, (hbecomes q).2 rfl, hp⟩
  -- an instance type was the instance of its class and still is
  have hpart : ∀ p, s.HasPart x p → ((∃ q', s'.Becomes p q' ∧ s'.asInstance q' = q) ↔ s'.Turns (s.asInstance p) q) := by
    intro p hp
    rcases hs.hasPart_cases hp with rfl | ⟨z, rfl, hatom⟩ | ⟨c, rfl⟩
    · exact hstays _ rfl fun _ => .rfl
    · by_cases hobject : ∃ c, s.shape z = .object (.direct c)
      · obtain ⟨c, hshape⟩ := hobject
        have hshape' := h.shape_object hshape
        rw [asInstance_of_object hshape]
        refine (comprises_of_atom (x := z) (s := s') (by rw [Atom, hshape']; trivial)).trans ?_
        rw [asInstance_of_object hshape']
        rfl
      · rw [asInstance_type fun c hc => hobject ⟨c, hc⟩]
        rfl
    · exact hstays _ rfl fun _ => .rfl
  constructor
  · rintro ⟨q', hq', hq⟩
    obtain ⟨p, hp, hpq⟩ := (h.hasPart_iff hs hx).1 hq'
    exact ⟨_, ⟨p, hp, rfl⟩, (hpart p hp).1 ⟨q', hpq, hq⟩⟩
  · rintro ⟨_, ⟨p, hp, rfl⟩, hpq⟩
    obtain ⟨q', hq', hq⟩ := (hpart p hp).2 hpq
    exact ⟨q', (h.hasPart_iff hs hx).2 ⟨p, hp, hq'⟩, hq⟩

theorem Retains.comprises_eq (h : s.Retains s') (hs : s.Tidy) (hx : s.Known x) :
    s'.Comprises x = fun q => ∃ p, s.Comprises x p ∧ s'.Turns p q :=
  funext fun _ => propext (h.comprises_iff hs hx)

/-- Two collections of parts are the same, or there is something unknown in both. -/
def Alike (P Q : Part → Prop) : Prop := P .unknown ∧ Q .unknown ∨ ∀ p, P p ↔ Q p

namespace Alike

variable {P Q R : Part → Prop}

theorem symm (h : Alike P Q) : Alike Q P := h.imp And.symm fun hiff p => (hiff p).symm

theorem trans (h : Alike P Q) (h' : Alike Q R) : Alike P R := by
  rcases h with ⟨hP, hQ⟩ | hiff
  · rcases h' with ⟨-, hR⟩ | hiff'
    · exact .inl ⟨hP, hR⟩
    · exact .inl ⟨hP, (hiff' _).1 hQ⟩
  · rcases h' with ⟨hQ, hR⟩ | hiff'
    · exact .inl ⟨(hiff _).2 hQ, hR⟩
    · exact .inr fun p => (hiff p).trans (hiff' p)

theorem turns (h : Alike P Q) : Alike (fun q => ∃ p, P p ∧ s.Turns p q) fun q => ∃ p, Q p ∧ s.Turns p q := by
  rcases h with ⟨hP, hQ⟩ | hiff
  · exact .inl ⟨⟨_, hP, rfl⟩, _, hQ, rfl⟩
  · exact .inr fun q => exists_congr fun p => and_congr_left' (hiff p)

theorem or {P' Q' : Part → Prop} (h : Alike P Q) (h' : Alike P' Q') : Alike (fun p => P p ∨ P' p) fun p => Q p ∨ Q' p := by
  rcases h with ⟨hP, hQ⟩ | hiff
  · exact .inl ⟨.inl hP, .inl hQ⟩
  · rcases h' with ⟨hP, hQ⟩ | hiff'
    · exact .inl ⟨.inr hP, .inr hQ⟩
    · exact .inr fun p => or_congr (hiff p) (hiff' p)

theorem exists_of_forall₂ {α β : Type} {P : α → Part → Prop} {Q : β → Part → Prop} {as : List α} {bs : List β}
    (h : List.Forall₂ (fun a b => Alike (P a) (Q b)) as bs) : Alike (fun p => ∃ a ∈ as, P a p) fun p => ∃ b ∈ bs, Q b p := by
  induction h with
  | nil => exact .inr fun p => by simp
  | cons hfirst _ ih =>
    simp only [List.mem_cons, exists_eq_or_imp]
    exact hfirst.or ih

end Alike

/-- Two types are made up of the same, or of something unknown. -/
def Matches (s : TypeStore) (x y : TypeId) : Prop := Alike (s.Comprises x) (s.Comprises y)

theorem Matches.retains (h : s.Matches x y) (hretains : s.Retains s') (hs : s.Tidy) (hx : s.Known x)
    (hy : s.Known y) : s'.Matches x y := by
  rw [Matches, hretains.comprises_eq hs hx, hretains.comprises_eq hs hy]
  exact h.turns

theorem Tidy.asInstance_congr (h : s.Tidy) (hp : s.HasPart x p) (hq : s.HasPart y q) (hpu : p ≠ .unknown) (hqu : q ≠ .unknown)
    (hpz : s.typeOf? p = some z) (hqz : s.typeOf? q = some z) : s.asInstance p = s.asInstance q := by
  rcases h.hasPart_cases hp with rfl | ⟨u, rfl, -⟩ | ⟨c, rfl⟩ <;>
    rcases h.hasPart_cases hq with rfl | ⟨v, rfl, -⟩ | ⟨d, rfl⟩ <;>
    first | exact absurd rfl hpu | exact absurd rfl hqu | skip
  · rw [Option.some.inj hpz, Option.some.inj hqz]
  · rw [Option.some.inj hpz, asInstance_of_object (h.wellFormed.instances d z hqz)]
    rfl
  · rw [Option.some.inj hqz, asInstance_of_object (h.wellFormed.instances c z hpz)]
    rfl
  · have hshape := (h.wellFormed.instances c z hpz).symm.trans (h.wellFormed.instances d z hqz)
    cases hshape
    rfl

/-- A union of parts is made up of them, or of something unknown. -/
theorem Tidy.alike_of_answers (h : s.Tidy) {P : Part → Prop} (hP : ∀ p, P p → ∃ x, s.HasPart x p)
    (hy : s.Answers P y) : Alike (fun p => ∃ q, P q ∧ s.asInstance q = p) (s.Comprises y) := by
  have hgenuine : ∀ p, P p → p ≠ .unknown → s.Genuine p := by
    intro p hp hne
    obtain ⟨x, hx⟩ := hP p hp
    exact hx.genuine hne
  obtain ⟨-, hsame⟩ := hy.settled h.wellFormed h.slotsFollow hgenuine
  by_cases hunknown : P .unknown
  · exact .inl ⟨⟨_, hunknown, rfl⟩, comprises_unknown_iff.2 (hsame.unknown_iff.1 hunknown)⟩
  · refine .inr fun p => ⟨?_, ?_⟩
    · rintro ⟨q, hq, rfl⟩
      obtain ⟨x, hx⟩ := hP q hq
      obtain ⟨z, hqz, q', hq', hq'z⟩ := hsame.left hunknown q hq
      refine ⟨q', hq', h.asInstance_congr hq' hx ?_ ?_ hq'z hqz⟩
      · grind [Same.unknown_iff]
      · rintro rfl
        exact hunknown hq
    · rintro ⟨q', hq', rfl⟩
      obtain ⟨z, hq'z, q, hq, hqz⟩ := hsame.right hunknown q' hq'
      obtain ⟨x, hx⟩ := hP q hq
      refine ⟨q, hq, h.asInstance_congr hx hq' ?_ ?_ hqz hq'z⟩
      · rintro rfl
        exact hunknown hq
      · grind [Same.unknown_iff]

/-- What types are made up of, taken together. -/
def Jointly (s : TypeStore) (xs : List TypeId) (p : Part) : Prop := ∃ x ∈ xs, s.Comprises x p

theorem Tidy.alike_of_union (h : s.Tidy) {xs : List TypeId} (hy : s.Answers (fun p => ∃ x ∈ xs, s.HasPart x p) y) :
    Alike (s.Jointly xs) (s.Comprises y) := by
  refine Alike.trans (.inr fun p => ?_) (h.alike_of_answers (fun p ⟨x, _, hp⟩ => ⟨x, hp⟩) hy)
  constructor
  · rintro ⟨x, hx, q, hq, hp⟩
    exact ⟨q, ⟨x, hx, hq⟩, hp⟩
  · rintro ⟨q, ⟨x, hx, hq⟩, hp⟩
    exact ⟨x, hx, q, hq, hp⟩

theorem comprises_of_target {l : TypeId} (h : s.lazyTarget? l = some x) : s.Comprises l p ↔ s.Comprises x p := by
  simp only [Comprises, hasPart_of_target h]

theorem hasPart_of_awaited {w : SlotId} (hx : s.shape x = .object (.slot w))
    (hw : (s.slot w).isResolved = true) : s.HasPart x p ↔ s.InstancePart (s.slot w).target p := by
  rw [hasPart_iff, hx]
  dsimp only
  rw [if_pos hw]

theorem Means.matches (h : s.Tidy) (hx : s.Means x y) : s.Matches x y := by
  induction hx with
  | final _ => exact .inr fun _ => .rfl
  | @awaited x y w hshape hw hy =>
    refine Alike.trans (.inr fun p => ?_) (h.alike_of_answers (fun p hp => ⟨x, (hasPart_of_awaited hshape hw).2 hp⟩) hy)
    exact exists_congr fun q => and_congr_left fun _ => hasPart_of_awaited hshape hw
  | target htarget _ ih => exact Alike.trans (.inr fun p => comprises_of_target htarget) ih

/-- A type is made up of the same as what it is forced to. -/
theorem Forced.matches (h : s.Tidy) (hx : s.Forced x y) : s.Matches x y := by
  cases hx with
  | single hmeans => exact hmeans.matches h
  | @union cs us hshape hmeans hy =>
    have hcandidates : Alike (s.Comprises x) (s.Jointly cs) := .inr fun p =>
      comprises_of_candidates (candidates?_eq_some_iff.2 (.inr hshape))
    have hmatches : Alike (s.Jointly cs) (s.Jointly us) := .exists_of_forall₂ (hmeans.imp fun _ _ hu => hu.matches h)
    exact (hcandidates.trans hmatches).trans (h.alike_of_union hy)

/-! ## Types that have been looked up -/

/-- No part of the type is a lazy type that could be resolved. -/
def Ready (s : TypeStore) (x : TypeId) : Prop := ∀ l, s.Comprises x (.type l) → s.isPending l = false

theorem Tidy.plain_of_comprises (h : s.Tidy) (hx : (s.shape x).isPlain = true)
    (hz : s.Comprises x (.type z)) : (s.shape z).isPlain = true := by
  by_cases hsingle : (s.shape x).isSingle = true
  · exact h.eq_of_comprises hsingle hx hz ▸ hx
  · cases hshape : s.shape x with
    | union cs =>
      have hcs := candidates?_eq_some_iff.2 (.inl hshape)
      obtain ⟨c, hc, hcz⟩ := (comprises_of_candidates hcs).1 hz
      exact h.eq_of_comprises (h.single hcs hc) (h.plain hshape hc) hcz ▸ h.plain hshape hc
    | lazyUnion cs => rw [hshape] at hx; cases hx
    | _ => rw [hshape] at hsingle; exact absurd rfl hsingle

theorem isPending_of_isPlain (hx : (s.shape x).isPlain = true) : s.isPending x = false := by
  cases hpending : s.isPending x with
  | false => rfl
  | true =>
    obtain ⟨path, hshape⟩ := isPending_iff.1 hpending
    rw [hshape] at hx
    cases hx

theorem Tidy.ready_of_isPlain (h : s.Tidy) (hx : (s.shape x).isPlain = true) : s.Ready x :=
  fun _ hl => isPending_of_isPlain (h.plain_of_comprises hx hl)

theorem Means.ready (h : s.Tidy) (hx : s.Means x y) : s.Ready x := by
  cases hx with
  | final hfinal => exact h.ready_of_isPlain hfinal.1.2
  | awaited hshape _ _ => exact h.ready_of_isPlain (by rw [hshape]; rfl)
  | target htarget _ =>
    intro l hl
    exact h.ready_of_isPlain (h.target_plain htarget) l ((comprises_of_target htarget).1 hl)

theorem Forced.ready (h : s.Tidy) (hx : s.Forced x y) : s.Ready x := by
  cases hx with
  | single hmeans => exact hmeans.ready h
  | @union cs us hshape hmeans _ =>
    have hready : ∀ c ∈ cs, s.Ready c :=
      ((List.forall₂_and_left cs us).1 (hmeans.imp fun c u hu => ⟨hu.ready h, hu⟩)).1
    intro l hl
    obtain ⟨c, hc, hcl⟩ := (comprises_of_candidates (candidates?_eq_some_iff.2 (.inr hshape))).1 hl
    exact hready c hc l hcl

theorem Atom.isSingle (h : s.Atom x) : (s.shape x).isSingle = true := by
  rw [Atom] at h
  cases hshape : s.shape x <;> rw [hshape] at h <;> first | rfl | cases h

theorem Tidy.atom_of_comprises (h : s.Tidy) (hz : s.Comprises x (.type z)) : s.Atom z := by
  rcases h.hasPart_cases hz.hasPart with heq | ⟨u, heq, hatom⟩ | ⟨c, heq⟩ <;> cases heq
  exact hatom

theorem Ready.isPlain (h : s.Ready x) (hs : s.Tidy) (hz : s.Comprises x (.type z)) : (s.shape z).isPlain = true :=
  have hatom := hs.atom_of_comprises hz
  isPlain_of_isSingle hatom.isSingle hatom.no_target (h z hz)

/-- What could not be resolved before has not become another type. -/
theorem Ready.eq_of_turns (h : s.Ready x) (hs : s.Tidy) (hretains : s.Retains s') (hs' : s'.Tidy)
    (hp : s.Comprises x p) {u : TypeId} (hu : s'.Turns p (.type u)) : p = .type u := by
  cases p with
  | type z =>
    have hatom := hs.atom_of_comprises hp
    refine congrArg Part.type (hs'.eq_of_comprises ?_ ?_ hu)
    · rw [hretains.isSingle_eq hatom.known, hatom.isSingle]
    · rw [hretains.isPlain_eq hatom.known, h.isPlain hs hp]
  | _ => exact hu.symm

theorem Ready.retains (h : s.Ready x) (hs : s.Tidy) (hretains : s.Retains s') (hs' : s'.Tidy)
    (hx : s.Known x) : s'.Ready x := by
  intro l hl
  obtain ⟨p, hp, hpl⟩ := (hretains.comprises_iff hs hx).1 hl
  obtain rfl := h.eq_of_turns hs hretains hs' hp hpl
  apply isPending_of_isPlain
  rw [hretains.isPlain_eq (hs.atom_of_comprises hp).known, h.isPlain hs hp]

/-! ## Types that are made up of one class -/

theorem Tidy.exists_other_candidate (h : s.Tidy) (hinterned : s.Interned)
    (hcs : s.candidates? x = some cs) (c : TypeId) : ∃ d ∈ cs, d ≠ c := by
  obtain ⟨key, hkey⟩ := hinterned.union hcs
  obtain ⟨cs', hcs', -, hnodup, hlength, -⟩ := h.wellFormed.unions key x hkey
  obtain rfl : cs = cs' := Option.some.inj (hcs.symm.trans hcs')
  match cs, hnodup, hlength with
  | a :: b :: rest, hnodup, _ =>
    by_cases ha : a = c
    · refine ⟨b, by simp, ?_⟩
      rintro rfl
      simp [ha] at hnodup
    · exact ⟨a, by simp, ha⟩

/-- The type is made up of the type `k` alone. -/
def Sole (s : TypeStore) (x k : TypeId) : Prop := ∀ p, s.Comprises x p ↔ p = .type k

namespace Sole

variable {k : TypeId}

theorem self (hk : (s.shape k).isScope = true) : s.Sole k k := fun _ => comprises_of_isScope hk

theorem unique {k' : TypeId} (h : s.Sole x k) (h' : s.Sole x k') : k = k' := by
  simp_all [Sole]

theorem of_matches (h : s.Sole x k) (hmatches : s.Matches x y) : s.Sole y k := by
  rcases hmatches with ⟨hx, -⟩ | hiff
  · cases (h _).1 hx
  · exact fun p => (hiff p).symm.trans (h p)

theorem known (h : s.Sole x k) : s.Known x := by
  by_contra hx
  have hunknown : s.HasPart x .unknown := .unknown (by rw [shape_of_not_known hx]; rfl)
  cases (h _).1 (comprises_unknown_iff.2 hunknown)

theorem retains (h : s.Sole x k) (hs : s.Tidy) (hretains : s.Retains s')
    (hk : (s'.shape k).isScope = true) : s'.Sole x k := by
  intro q
  rw [hretains.comprises_iff hs h.known]
  constructor
  · rintro ⟨p, hp, hpq⟩
    obtain rfl := (h p).1 hp
    exact (comprises_of_isScope hk).1 hpq
  · rintro rfl
    exact ⟨_, (h _).2 rfl, (comprises_of_isScope hk).2 rfl⟩

theorem eq_of_isPlain (h : s.Sole y k) (hs : s.Tidy) (hinterned : s.Interned) (hy : (s.shape y).isPlain = true) : y = k := by
  by_cases hsingle : (s.shape y).isSingle = true
  · exact hs.eq_of_comprises hsingle hy ((h _).2 rfl)
  · cases hshape : s.shape y with
    | union cs =>
      have hcs := candidates?_eq_some_iff.2 (.inl hshape)
      have hall : ∀ c ∈ cs, c = k := by
        intro c hc
        obtain ⟨p, hp⟩ := hs.exists_comprises c
        obtain rfl := (h p).1 ((comprises_of_candidates hcs).2 ⟨c, hc, hp⟩)
        exact hs.eq_of_comprises (hs.single hcs hc) (hs.plain hshape hc) hp
      obtain ⟨d, hd, hne⟩ := hs.exists_other_candidate hinterned hcs k
      exact absurd (hall d hd) hne
    | lazyUnion cs => rw [hshape] at hy; cases hy
    | _ => rw [hshape] at hsingle; exact absurd rfl hsingle

end Sole

/-- The type is made up of anything but one class, whatever else is looked up. -/
structure Classless (s : TypeStore) (x : TypeId) : Prop where
  known : s.Known x
  ready : s.Ready x
  not_sole : ∀ k, (s.form k).isClass = true → ¬ s.Sole x k

theorem Classless.retains (h : s.Classless x) (hs : s.Tidy) (hretains : s.Retains s') (hs' : s'.Tidy) : s'.Classless x := by
  refine ⟨hretains.known h.known, h.ready.retains hs hretains hs' h.known, fun k hk hsole => ?_⟩
  -- every part has become the class, so it was the class before
  have hall : ∀ p, s.Comprises x p → p = .type k := by
    intro p hp
    obtain ⟨q, hq⟩ : ∃ q, s'.Turns p q := by
      cases p with
      | type z => exact hs'.exists_comprises z
      | _ => exact ⟨_, rfl⟩
    obtain rfl := (hsole q).1 ((hretains.comprises_iff hs h.known).2 ⟨p, hp, hq⟩)
    exact h.ready.eq_of_turns hs hretains hs' hp hq
  obtain ⟨p, hp⟩ := hs.exists_comprises x
  have hpart := hall p hp ▸ hp
  refine h.not_sole k ?_ fun p => ⟨hall p, fun hp => hp ▸ hpart⟩
  rw [← hretains.isClass_eq (hs.atom_of_comprises hpart).known, hk]

theorem Forced.not_waiting (hx : s.Forced x y) (h : s.Tidy) (hinterned : s.Interned) (w : SlotId) :
    s.shape y ≠ .object (.slot w) := by
  cases hx with
  | single hmeans => exact (hmeans.final_right h).2 w
  | @union cs us hshape hmeans hy =>
    intro hobject
    have hfinal : ∀ u ∈ us, s.Final u :=
      ((List.forall₂_and_left us cs).1 (hmeans.flip.imp fun u c hu => ⟨hu.final_right h, hu⟩)).1
    have hatom : s.Atom y := by
      cases (hy.settled h.wellFormed h.slotsFollow fun p ⟨u, _, hp⟩ hne => hp.genuine hne).1 with
      | unknown _ hunknown => rw [hobject] at hunknown; cases hunknown
      | atom hatom => exact hatom
      | union hcs _ _ => grind [candidates?_eq_some_iff]
    have hself : s.Sole y y := by
      intro p
      grind [comprises_of_atom, asInstance_type]
    -- a candidate that is forced to something made up of the instance alone would be the instance
    rcases h.alike_of_union hy with ⟨-, hunknown⟩ | hiff
    · cases (hself _).1 hunknown
    · obtain ⟨u, hu, hpart⟩ := (hiff _).2 ((hself _).2 rfl)
      have hsole : s.Sole u y := fun p => ⟨fun hp => (hself p).1 ((hiff p).1 ⟨u, hu, hp⟩), fun hp => hp ▸ hpart⟩
      obtain rfl := hsole.eq_of_isPlain h hinterned (hfinal u hu).1.2
      exact (hfinal u hu).2 w hobject

end PythonTypes.TypeStore
