import PythonTypes.Proofs.Types.Store

/-!
# What actions on a store do

`Runs` says what an action that may give up leads to: a well formed store that has grown, and an
answer with a given property. With it follows that instances, canonical types and unions keep a
store well formed, whatever it holds.

`StoreAction` is anything that can be done with a store, and `Reached` are the stores that a
sequence of actions leads to.
-/

set_option autoImplicit false

namespace PythonTypes

namespace TypeStore

variable {acc cs : List TypeId} {cls : TypeRef} {depth : Nat} {mayStop : Prop} {s : TypeStore} {t : TypeId}
variable {s' : TypeStore}

/-- Started in `s`, the action only adds to the store, keeps it well formed and gives an answer with
property `Q`; unless it gives up, which it does only if `mayStop`. -/
def Runs {α : Type} (mayStop : Prop) (s : TypeStore) (action : DeepM α) (Q : α → TypeStore → Prop) : Prop :=
  match action s with
  | none => mayStop
  | some (a, s') => s'.WellFormed ∧ s.Grows s' ∧ Q a s'

namespace Runs

variable {α β : Type}
variable {a : α} {Q P : α → TypeStore → Prop} {action : DeepM α} {ι : Type} {f : ι → DeepM α}

theorem pure (h : s.WellFormed) (ha : Q a s) : Runs mayStop s (Pure.pure a : DeepM α) Q :=
  ⟨h, .refl s, ha⟩

theorem lift {action : StoreM α} {s' : TypeStore} (heq : action s = (a, s'))
    (h : s'.WellFormed) (hgrows : s.Grows s') (ha : Q a s') : Runs mayStop s (liftM action : DeepM α) Q := by
  have hlift : (liftM action : DeepM α) s = some (a, s') := congrArg some heq
  simp_all [Runs]

theorem bind {f : α → DeepM β} {Q : β → TypeStore → Prop} (h : Runs mayStop s action P)
    (hf : ∀ a s', s'.WellFormed → s.Grows s' → P a s' → Runs mayStop s' (f a) Q) : Runs mayStop s (action >>= f) Q := by
  have hbind : (action >>= f) s = (action s).bind fun r => f r.1 r.2 := rfl
  grind [Runs, Grows.trans]

theorem get_bind {f : TypeStore → DeepM β} {Q : β → TypeStore → Prop} (h : Runs mayStop s (f s) Q) :
    Runs mayStop s (get >>= f) Q := h

theorem imp (h : Runs mayStop s action P)
    (hPQ : ∀ a s', s'.WellFormed → s.Grows s' → P a s' → Q a s') : Runs mayStop s action Q := by
  grind [Runs]

/-- Whether the answers are those for the given inputs, each with the property asked for. -/
def Answered {ι : Type} (Q : ι → α → TypeStore → Prop) (xs : List ι) (as : List α) (s : TypeStore) : Prop :=
  (∀ a ∈ as, ∃ x ∈ xs, Q x a s) ∧ ∀ x ∈ xs, ∃ a ∈ as, Q x a s

theorem mapM_keeping {I : TypeStore → Prop} {Q : ι → α → TypeStore → Prop} (xs : List ι)
    (hs : s.WellFormed) (hI : I s)
    (hmono : ∀ x ∈ xs, ∀ a s' s'', s.Grows s' → s'.WellFormed → s'.Grows s'' → Q x a s' → Q x a s'')
    (h : ∀ x ∈ xs, ∀ s', s'.WellFormed → s.Grows s' → I s' → Runs mayStop s' (f x) fun a s'' => I s'' ∧ Q x a s'') :
    Runs mayStop s (xs.mapM f) fun as s' => I s' ∧ Answered Q xs as s' := by
  induction xs generalizing s with
  | nil =>
    rw [List.mapM_nil]
    exact .pure hs ⟨hI, by simp, by simp⟩
  | cons x rest ih =>
    rw [List.mapM_cons]
    refine (h x (by simp) s hs (.refl s) hI).bind fun a s' hs' hgrows ha => ?_
    have hrest : Runs mayStop s' (rest.mapM f) fun as s'' => I s'' ∧ Answered Q rest as s'' := by
      refine ih hs' ha.1 (fun y hy b s1 s2 h1 => hmono y (by simp [hy]) b s1 s2 (hgrows.trans h1)) ?_
      intro y hy s1 hs1 h1
      exact h y (by simp [hy]) s1 hs1 (hgrows.trans h1)
    refine hrest.bind fun as s'' hs'' hgrows' has => .pure hs'' ⟨has.1, fun b hb => ?_, fun y hy => ?_⟩
    · rcases List.mem_cons.1 hb with rfl | hb
      · exact ⟨x, by simp, hmono x (by simp) b s' s'' hgrows hs' hgrows' ha.2⟩
      · obtain ⟨y, hy, hQ⟩ := has.2.1 b hb
        exact ⟨y, by simp [hy], hQ⟩
    · rcases List.mem_cons.1 hy with rfl | hy
      · grind
      · obtain ⟨b, hb, hQ⟩ := has.2.2 y hy
        exact ⟨b, by simp [hb], hQ⟩

theorem mapM {Q : ι → α → TypeStore → Prop} (xs : List ι) (hs : s.WellFormed)
    (hmono : ∀ x ∈ xs, ∀ a s' s'', s.Grows s' → s'.Grows s'' → Q x a s' → Q x a s'')
    (h : ∀ x ∈ xs, ∀ s', s'.WellFormed → s.Grows s' → Runs mayStop s' (f x) (Q x)) :
    Runs mayStop s (xs.mapM f) (Answered Q xs) := by
  refine (mapM_keeping (I := fun _ => True) (Q := Q) xs hs trivial (fun x hx a s' s'' h1 _ => hmono x hx a s' s'' h1) ?_).imp
    fun _ _ _ _ has => has.2
  simp_all

theorem and (hP : Runs mayStop s action P) (hQ : Runs True s action Q) :
    Runs mayStop s action fun a s' => P a s' ∧ Q a s' := by
  grind [Runs]

end Runs

/-- What a canonical type adds to the candidates found so far; `none` if it is unknown. -/
def addType (flatten : List TypeId → List TypeId → DeepM (Option (List TypeId))) (t : TypeId)
    (acc : List TypeId) : DeepM (Option (List TypeId)) := do
  match (← get).form t with
  | .unknown => return none
  | .unresolvedImport _ => return none
  | .union candidates => flatten candidates acc
  | .lazyUnion candidates => flatten candidates acc
  | _ => return some (if acc.contains t then acc else acc ++ [t])

/-- What a type adds to the candidates found so far. -/
def contribute (canonical : TypeId → DeepM TypeId)
    (flatten : List TypeId → List TypeId → DeepM (Option (List TypeId))) (t : TypeId)
    (acc : List TypeId) : DeepM (Option (List TypeId)) := do
  let t ← canonical t
  addType flatten t acc

theorem flattenStep_cons (canonical : TypeId → DeepM TypeId)
    (flatten : List TypeId → List TypeId → DeepM (Option (List TypeId))) (t : TypeId) (rest acc : List TypeId) :
    flattenStep canonical flatten (t :: rest) acc = (do
      match ← contribute canonical flatten t acc with
      | none => return none
      | some acc => flattenStep canonical flatten rest acc) := by
  conv => lhs; unfold flattenStep
  unfold contribute
  rw [bind_assoc]
  congr 1
  funext u
  unfold addType
  rw [bind_assoc]
  congr 1
  funext s
  cases s.form u <;> rfl

/-- Whether the candidates found, if they are not unknown, exist and are without repetitions. -/
def Found (r : Option (List TypeId)) (s : TypeStore) : Prop :=
  ∀ acc, r = some acc → acc.Nodup ∧ ∀ x ∈ acc, s.Known x

theorem Found.none : Found none s := by
  rintro _ ⟨⟩

theorem Found.nil : Found (some []) s := by
  rintro _ ⟨⟩
  simp

theorem Found.nodup_insert (hacc : Found (some acc) s) (ht : s.Known t) :
    Found (some (if acc.contains t then acc else acc ++ [t])) s := by
  grind [Found]

theorem WellFormed.known_of_form_union (h : s.WellFormed) (ht : s.candidates? t = some cs) : ∀ c ∈ cs, s.Known c :=
  fun _ hc => h.unfolds_known (.inr ⟨cs, ht, hc⟩)

theorem candidates?_of_union (h : s.form t = .union cs) : s.candidates? t = some cs := by
  unfold candidates?
  rw [h]

theorem candidates?_of_lazyUnion (h : s.form t = .lazyUnion cs) : s.candidates? t = some cs := by
  unfold candidates?
  rw [h]

theorem WellFormed.target_ref_known (h : s.WellFormed) (hcls : s.RefKnown cls) : s.Known (s.target cls) := by
  cases cls with
  | direct t => exact hcls
  | slot w => exact (h.slot_known w).2

theorem awaited?_eq_some {lazy : TypeId} (h : s.awaited? cls = some lazy) :
    ∃ w, cls = .slot w ∧ (s.slot w).isResolved = false ∧ (s.slot w).lazy = lazy := by
  cases cls with
  | direct t => contradiction
  | slot w =>
    simp_all [awaited?]

section

variable (h : s.WellFormed)

include h

theorem runs_internInstance (cls : TypeId) :
    Runs mayStop s (liftM (internInstance cls) : DeepM TypeId) fun x s' => s'.instances.get? cls = some x := by
  obtain ⟨x, s', heq, hs', hgrows, hx⟩ := internInstance_spec h cls
  exact .lift heq hs' hgrows hx

theorem runs_internLazyInstance {w : SlotId} (hw : s.SlotKnown w) :
    Runs mayStop s (liftM (internLazyInstance (s.slot w).lazy (.slot w)) : DeepM TypeId)
      fun x s' => s'.lazyInstances.get? (s.slot w).lazy = some x := by
  grind [internLazyInstance_spec, Runs.lift]

theorem runs_internUnion (hcs : Found (some cs) s) :
    Runs mayStop s (liftM (internUnion cs) : DeepM TypeId) fun u s' => s'.Joins cs u := by
  obtain ⟨u, s', heq, hs', hgrows, hu⟩ := internUnion_spec h (hcs cs rfl).2 (hcs cs rfl).1
  exact .lift heq hs' hgrows hu

theorem runs_wrap (ht : s.Known t) : Runs mayStop s (liftM (wrap t) : DeepM TypeRef) fun cls s' => s'.RefKnown cls ∧
      (s.isPending (s.derefLazy t) = true → s'.awaited? cls = some (s.derefLazy t)) := by
  grind [wrap_spec, Runs.lift]

theorem WellFormed.instance_known {c x : TypeId} (hx : s.instances.get? c = some x) : s.Known x :=
  known_of_shape (by rw [h.instances c x hx]; simp)

theorem WellFormed.lazyInstance_known {l x : TypeId} (hx : s.lazyInstances.get? l = some x) : s.Known x := by
  grind [lazyInstances, known_of_shape]

theorem WellFormed.joins_known (hcs : ∀ c ∈ cs, s.Known c) {u : TypeId} (hu : s.Joins cs u) : s.Known u := by
  rcases cs with _ | ⟨x, _ | ⟨d, rest⟩⟩
  · cases hu
    exact h.unknown_known
  · cases hu
    exact hcs u (by simp)
  · obtain ⟨cs, hcs, -⟩ := h.unions _ u hu
    exact known_of_candidates hcs

end

theorem Found.grows {r : Option (List TypeId)} (h : Found r s) (hgrows : s.Grows s') : Found r s' :=
  fun acc hacc => ⟨(h acc hacc).1, fun x hx => hgrows.known ((h acc hacc).2 x hx)⟩

/-- A property `I` of stores that the steps of following types keep. What is found has property `E`,
and the candidates that are collected for a union have property `A`. -/
structure Upholds (I : TypeStore → Prop) (E : TypeStore → TypeId → Prop) (A : TypeStore → List TypeId → Prop) : Prop where
  wellFormed : ∀ {s}, I s → s.WellFormed
  known : ∀ {s u}, E s u → s.Known u
  grows : ∀ {s s' u}, s.Grows s' → E s u → E s' u
  unknown : ∀ {s}, I s → E s .unknown
  derefLazy : ∀ {s t}, I s → s.Known t → E s (s.derefLazy t)
  nil : ∀ {s}, A s []
  collected : ∀ {s s' cs}, s.Grows s' → A s cs → A s' cs
  insert : ∀ {s t acc}, E s t → A s acc → s.candidates? t = none → s.isUnknown t = false →
    A s (if acc.contains t then acc else acc ++ [t])
  wrap : ∀ {s t}, I s → s.Known t → Runs True s (liftM (wrap t) : DeepM TypeRef) fun cls s' => I s' ∧ s'.RefKnown cls
  internInstance : ∀ {s cls}, I s → s.Known cls →
    Runs True s (liftM (internInstance cls) : DeepM TypeId) fun u s' => I s' ∧ E s' u
  internLazyInstance : ∀ {s w}, I s → s.SlotKnown w → (s.slot w).isResolved = false →
    Runs True s (liftM (internLazyInstance (s.slot w).lazy (.slot w)) : DeepM TypeId) fun u s' => I s' ∧ E s' u
  internUnion : ∀ {s cs}, I s → A s cs → Runs True s (liftM (internUnion cs) : DeepM TypeId) fun u s' => I s' ∧ E s' u

/-- What the functions that follow types uphold with the given depth left. -/
structure UpheldAt (I : TypeStore → Prop) (E : TypeStore → TypeId → Prop)
    (A : TypeStore → List TypeId → Prop) (depth : Nat) : Prop where
  instanceOf : ∀ {s : TypeStore} {cls : TypeRef}, I s → s.RefKnown cls →
    Runs True s (instanceOfAt depth cls) fun u s' => I s' ∧ E s' u
  canonical : ∀ {s : TypeStore} {t : TypeId}, I s → s.Known t → Runs True s (canonicalAt depth t) fun u s' => I s' ∧ E s' u
  flatten : ∀ {s : TypeStore} {ts acc : List TypeId}, I s → (∀ t ∈ ts, s.Known t) → A s acc →
    Runs True s (flattenAt depth ts acc) fun r s' => I s' ∧ ∀ acc', r = some acc' → A s' acc'
  unionOf : ∀ {s : TypeStore} {ts : List TypeId}, I s → (∀ t ∈ ts, s.Known t) →
    Runs True s (unionOfAt depth ts) fun u s' => I s' ∧ E s' u

namespace Upholds

variable {I : TypeStore → Prop} {E : TypeStore → TypeId → Prop} {A : TypeStore → List TypeId → Prop}

section

variable (hI : Upholds I E A) (ih : UpheldAt I E A depth)

include hI ih

theorem instanceStep (h : I s) (hcls : s.RefKnown cls) :
    Runs True s (TypeStore.instanceStep (instanceOfAt depth) (unionOfAt depth) cls) fun u s' => I s' ∧ E s' u := by
  have hs := hI.wellFormed h
  have hunknown : Runs True s (pure .unknown : DeepM TypeId) fun u s' => I s' ∧ E s' u := .pure hs ⟨h, hI.unknown h⟩
  unfold TypeStore.instanceStep
  refine .get_bind ?_
  cases hawaited : s.awaited? cls with
  | some lazy =>
    obtain ⟨w, rfl, hwaits, rfl⟩ := awaited?_eq_some hawaited
    exact hI.internLazyInstance h hcls hwaits
  | none =>
    have hknown := hs.derefLazy_known (hs.target_ref_known hcls)
    dsimp only
    cases hform : s.form (s.derefLazy (s.target cls)) with
    | unknown | unresolvedImport _ => exact hunknown
    | union cs =>
      have hcs := hs.known_of_form_union (candidates?_of_union hform)
      have hinstances : Runs True s (cs.mapM fun c => instanceOfAt depth (.direct c))
          fun us s' => I s' ∧ Runs.Answered (fun _ u s' => E s' u) cs us s' :=
        .mapM_keeping cs hs h (fun _ _ _ _ _ _ _ hgrows hu => hI.grows hgrows hu)
          fun c hc s' _ hgrows hs' => ih.instanceOf hs' (hgrows.known (hcs c hc))
      refine hinstances.bind fun us s' _ _ hus => ih.unionOf hus.1 fun u hu => ?_
      obtain ⟨_, -, hfound⟩ := hus.2.1 u hu
      exact hI.known hfound
    | lazy _ _ => exact (hI.wrap h hknown).bind fun cls' s' _ _ hcls' => ih.instanceOf hcls'.1 hcls'.2
    | _ => exact hI.internInstance h hknown

theorem canonicalStep (h : I s) (ht : s.Known t) :
    Runs True s (TypeStore.canonicalStep (instanceOfAt depth) (unionOfAt depth) t) fun u s' => I s' ∧ E s' u := by
  have hs := hI.wellFormed h
  have hsame : Runs True s (pure (s.derefLazy t) : DeepM TypeId) fun u s' => I s' ∧ E s' u := .pure hs ⟨h, hI.derefLazy h ht⟩
  unfold TypeStore.canonicalStep
  refine .get_bind ?_
  dsimp only
  cases hform : s.form (s.derefLazy t) with
  | object cls =>
    cases cls with
    | direct c => exact hsame
    | slot w =>
      dsimp only
      split
      · exact ih.instanceOf h (hs.slot_known w).2
      · exact hsame
  | lazyUnion cs =>
    dsimp only
    split
    · exact hsame
    · exact ih.unionOf h (hs.known_of_form_union (candidates?_of_lazyUnion hform))
  | _ => exact hsame

theorem contribute (h : I s) (ht : s.Known t) (hacc : A s acc) :
    Runs True s (TypeStore.contribute (canonicalAt depth) (flattenAt depth) t acc)
      fun r s' => I s' ∧ ∀ acc', r = some acc' → A s' acc' := by
  refine (ih.canonical h ht).bind fun u s' hs' hgrows ⟨h', hu⟩ => .get_bind ?_
  have hacc' := hI.collected hgrows hacc
  have hinsert : s'.candidates? u = none → s'.isUnknown u = false →
      Runs True s' (pure (some (if acc.contains u then acc else acc ++ [u])) : DeepM
        (Option (List TypeId))) fun r s' => I s' ∧ ∀ acc', r = some acc' → A s' acc' := by
    intro hsingle hunknown
    refine .pure hs' ⟨h', ?_⟩
    rintro _ ⟨⟩
    exact hI.insert hu hacc' hsingle hunknown
  cases hform : s'.form u with
  | unknown | unresolvedImport _ => exact .pure hs' ⟨h', by simp⟩
  | union cs => exact ih.flatten h' (hs'.known_of_form_union (candidates?_of_union hform)) hacc'
  | lazyUnion cs => exact ih.flatten h' (hs'.known_of_form_union (candidates?_of_lazyUnion hform)) hacc'
  | _ => exact hinsert (by rw [candidates?, hform]) (congrArg TypeForm.isUnknown hform)

theorem flattenStep {ts : List TypeId} (h : I s) (hts : ∀ t ∈ ts, s.Known t)
    (hacc : A s acc) : Runs True s (TypeStore.flattenStep (canonicalAt depth) (flattenAt depth) ts acc)
      fun r s' => I s' ∧ ∀ acc', r = some acc' → A s' acc' := by
  induction ts generalizing s acc with
  | nil =>
    refine .pure (hI.wellFormed h) ⟨h, ?_⟩
    rintro _ ⟨⟩
    exact hacc
  | cons t rest ihrest =>
    rw [flattenStep_cons]
    refine (hI.contribute ih h (hts t (by simp)) hacc).bind fun r s' hs' hgrows hr => ?_
    cases r with
    | none => exact .pure hs' ⟨hr.1, by simp⟩
    | some acc' => exact ihrest hr.1 (fun u hu => hgrows.known (hts u (by simp [hu]))) (hr.2 acc' rfl)

end

theorem upheldAt (hI : Upholds I E A) (depth : Nat) : UpheldAt I E A depth := by
  induction depth with
  | zero =>
    refine ⟨fun _ _ => ?_, fun _ _ => ?_, fun _ _ _ => ?_, fun _ _ => ?_⟩
    · rw [instanceOfAt]; trivial
    · rw [canonicalAt]; trivial
    · rw [flattenAt]; trivial
    · rw [unionOfAt]; trivial
  | succ depth ih =>
    refine ⟨fun h hcls => ?_, fun h ht => ?_, fun h hts hacc => ?_, fun h hts => ?_⟩
    · rw [instanceOfAt]
      exact hI.instanceStep ih h hcls
    · rw [canonicalAt]
      exact hI.canonicalStep ih h ht
    · rw [flattenAt]
      exact hI.flattenStep ih h hts hacc
    · rw [unionOfAt]
      refine (ih.flatten h hts hI.nil).bind fun r s' hs' _ hr => ?_
      cases r with
      | none => exact .pure hs' ⟨hr.1, hI.unknown hr.1⟩
      | some cs => exact hI.internUnion hr.1 (hr.2 cs rfl)

end Upholds

/-- Whatever the store holds, following types keeps it well formed, and finds types that exist. -/
theorem upholds_wellFormed : Upholds WellFormed Known fun s cs => Found (some cs) s where
  wellFormed h := h
  known h := h
  grows hgrows h := hgrows.known h
  unknown h := h.unknown_known
  derefLazy h ht := h.derefLazy_known ht
  nil := .nil
  collected hgrows h := h.grows hgrows
  insert ht hacc _ _ := hacc.nodup_insert ht
  wrap h ht := (runs_wrap h ht).imp fun _ _ hs' _ hcls => ⟨hs', hcls.1⟩
  internInstance h _ := (runs_internInstance h _).imp fun _ _ hs' _ hx => ⟨hs', hs'.instance_known hx⟩
  internLazyInstance h hw _ := (runs_internLazyInstance h hw).imp fun _ _ hs' _ hx => ⟨hs', hs'.lazyInstance_known hx⟩
  internUnion h hcs := (runs_internUnion h hcs).imp fun _ _ hs' hgrows hu =>
    ⟨hs', hs'.joins_known (fun c hc => hgrows.known ((hcs _ rfl).2 c hc)) hu⟩

theorem Runs.within {α : Type} {default : α} (action : Nat → DeepM α)
    {Q : α → TypeStore → Prop} (h : s.WellFormed) (hdefault : mayStop → Q default s)
    (hruns : Runs mayStop s (action s.depthBound) Q) :
    (TypeStore.within default action s).2.WellFormed ∧ s.Grows (TypeStore.within default action s).2 ∧
      Q (TypeStore.within default action s).1 (TypeStore.within default action s).2 := by
  grind [within, Runs, Grows.refl]

theorem instanceOf_sound (h : s.WellFormed) (hcls : s.RefKnown cls) :
    (instanceOf cls s).2.WellFormed ∧ s.Grows (instanceOf cls s).2 ∧ (instanceOf cls s).2.Known (instanceOf cls s).1 :=
  Runs.within (instanceOfAt · cls) h (fun _ => h.unknown_known)
    (((upholds_wellFormed.upheldAt _).instanceOf h hcls).imp fun _ _ _ _ hu => hu.2)

theorem canonical_sound (h : s.WellFormed) (ht : s.Known t) :
    (canonical t s).2.WellFormed ∧ s.Grows (canonical t s).2 ∧ (canonical t s).2.Known (canonical t s).1 :=
  Runs.within (canonicalAt · t) h (fun _ => ht) (((upholds_wellFormed.upheldAt _).canonical h ht).imp fun _ _ _ _ hu => hu.2)

theorem unionOf_sound (h : s.WellFormed) {ts : List TypeId} (hts : ∀ t ∈ ts, s.Known t) :
    (unionOf ts s).2.WellFormed ∧ s.Grows (unionOf ts s).2 ∧ (unionOf ts s).2.Known (unionOf ts s).1 :=
  Runs.within (unionOfAt · ts) h (fun _ => h.unknown_known)
    (((upholds_wellFormed.upheldAt _).unionOf h hts).imp fun _ _ _ _ hu => hu.2)

theorem union_sound (h : s.WellFormed) {left right : TypeId} (hleft : s.Known left)
    (hright : s.Known right) : (union left right s).2.WellFormed ∧ s.Grows (union left right s).2 ∧
      (union left right s).2.Known (union left right s).1 := by
  unfold union
  split
  · exact ⟨h, .refl s, hleft⟩
  · exact unionOf_sound h (by simp [hleft, hright])

theorem unresolvedImport_apply (path : String) (s : TypeStore) :
    unresolvedImport path s = match s.imports.get? path with
      | some t => (t, s)
      | none => (s.fresh, { s.added (.unresolvedImport path) with imports := s.imports.insert path s.fresh }) := by
  show (match s.imports.get? path with | some _ => _ | none => _ : StoreM TypeId) s = _
  cases s.imports.get? path <;> rfl

theorem unresolvedImport_sound (h : s.WellFormed) (path : String) :
    (unresolvedImport path s).2.WellFormed ∧ s.Grows (unresolvedImport path s).2 ∧
      (unresolvedImport path s).2.Known (unresolvedImport path s).1 := by
  have hadded := h.added (.unresolvedImport path) trivial
  rw [unresolvedImport_apply]
  split
  · grind [Grows.refl, known_of_shape, WellFormed.imports]
  · refine ⟨{ hadded with imports := fun path' x hx => ?_ }, ?_, known_added_iff.2 (.inr rfl)⟩
    · rcases OrderedMap.get?_insert_cases hx with ⟨rfl, rfl⟩ | hx
      · exact s.shape_added_fresh (.unresolvedImport path')
      · exact hadded.imports path' x hx
    · exact (grows_added (.unresolvedImport path) trivial (by simp) (by simp)).trans
        (grows_of_shapes rfl rfl (fun _ => rfl) (fun _ _ h => h) (fun _ _ h => h) fun _ _ h => h)

theorem watch_eq_ok {w : Watcher} (h : s.watch t w = .ok s') : s' = s.addWatcher t w := by
  grind [watch]

end TypeStore

/-- Anything that can be done with a store. -/
inductive StoreAction where
  | alloc (form : TypeForm)
  | unresolvedImport (path : String)
  | wrap (t : TypeId)
  | watch (t : TypeId) (w : Watcher)
  | resolveSlot (id : SlotId) (target : TypeId)
  | resolveLazy (lazy target : TypeId)
  | instanceOf (cls : TypeRef)
  | canonical (t : TypeId)
  | union (left right : TypeId)
  | unionOf (ts : List TypeId)

namespace StoreAction

open TypeStore

/-- The store after an action; one that fails at once changes nothing. -/
def perform : StoreAction → TypeStore → TypeStore
  | alloc form, s => (TypeStore.alloc form s).2
  | unresolvedImport path, s => (TypeStore.unresolvedImport path s).2
  | wrap t, s => (TypeStore.wrap t s).2
  | watch t w, s => (s.watch t w).toOption.getD s
  | resolveSlot id target, s => (s.resolveSlot id target).toOption.getD s
  | resolveLazy lazy target, s => (s.resolveLazy lazy target).store
  | instanceOf cls, s => (TypeStore.instanceOf cls s).2
  | canonical t, s => (TypeStore.canonical t s).2
  | union left right, s => (TypeStore.union left right s).2
  | unionOf ts, s => (TypeStore.unionOf ts s).2

/-- Whether the types and slots that an action names exist. -/
def Valid (s : TypeStore) : StoreAction → Prop
  | alloc form => s.Admits form
  | unresolvedImport _ => True
  | wrap t => s.Known t
  | watch t _ => s.Known t
  | resolveSlot id target => s.SlotKnown id ∧ s.Known target
  | resolveLazy lazy target => s.Known lazy ∧ s.Known target
  | instanceOf cls => s.RefKnown cls
  | canonical t => s.Known t
  | union left right => s.Known left ∧ s.Known right
  | unionOf ts => ∀ t ∈ ts, s.Known t

/-- Whether an action resolves a lazy type or a slot. -/
def Resolves : StoreAction → Prop
  | resolveSlot _ _ => True
  | resolveLazy _ _ => True
  | _ => False

/-- Whether an action, if it adds a union as it is, adds one with candidates. -/
def OffersCandidates (a : StoreAction) : Prop := a ≠ alloc (.union []) ∧ a ≠ alloc (.lazyUnion [])

instance (s : TypeStore) (a : StoreAction) : Decidable (a.Valid s) := by
  unfold Valid
  split <;> infer_instance

theorem perform_watch (s : TypeStore) (t : TypeId) (w : Watcher) :
    (watch t w).perform s = s ∨ (watch t w).perform s = s.addWatcher t w := by
  unfold perform
  dsimp only
  cases h : s.watch t w with
  | error e => exact .inl rfl
  | ok s' => exact .inr (watch_eq_ok h)

theorem perform_resolveSlot {s : TypeStore} {id : SlotId} {target : TypeId} {P : TypeStore → Prop} (h : P s)
    (hredirected : P (s.redirected id target)) : P ((resolveSlot id target).perform s) := by
  unfold perform
  dsimp only
  cases hslot : s.resolveSlot id target with
  | error e => exact h
  | ok s' => exact resolveSlot_eq_ok hslot ▸ hredirected

/-- Every action keeps a store well formed, and it only adds to the store unless it resolves
something. -/
theorem perform_sound {s : TypeStore} (h : s.WellFormed) {a : StoreAction} (ha : a.Valid s) :
    (a.perform s).WellFormed ∧ (a.OffersCandidates → ¬ a.Resolves → s.Grows (a.perform s)) := by
  cases a with
  | alloc form =>
    exact ⟨h.added form ha, fun hoffers _ => grows_added form ha (fun hform => hoffers.1 (hform ▸ rfl))
      fun hform => hoffers.2 (hform ▸ rfl)⟩
  | unresolvedImport path =>
    obtain ⟨hs', hgrows, -⟩ := unresolvedImport_sound h path
    exact ⟨hs', fun _ _ => hgrows⟩
  | wrap t =>
    obtain ⟨cls, s', heq, hs', hgrows, -⟩ := wrap_spec h ha
    simp_all [perform]
  | watch t w =>
    grind [perform_watch, Grows.refl, WellFormed.addWatcher, grows_addWatcher]
  | resolveSlot id target =>
    exact ⟨perform_resolveSlot h (h.redirected id ha.2), fun _ hkeeps => absurd trivial hkeeps⟩
  | resolveLazy lazy target => exact ⟨(h.resolveLazy lazy ha.2).1, fun _ hkeeps => absurd trivial hkeeps⟩
  | instanceOf cls =>
    obtain ⟨hs', hgrows, -⟩ := instanceOf_sound h ha
    exact ⟨hs', fun _ _ => hgrows⟩
  | canonical t =>
    obtain ⟨hs', hgrows, -⟩ := canonical_sound h ha
    exact ⟨hs', fun _ _ => hgrows⟩
  | union left right =>
    obtain ⟨hs', hgrows, -⟩ := union_sound h ha.1 ha.2
    exact ⟨hs', fun _ _ => hgrows⟩
  | unionOf ts =>
    obtain ⟨hs', hgrows, -⟩ := unionOf_sound h ha
    exact ⟨hs', fun _ _ => hgrows⟩

end StoreAction

namespace TypeStore

variable {s : TypeStore} {allowed : StoreAction → Prop}

/-- The stores that actions of a certain kind lead to. -/
inductive Reached (allowed : StoreAction → Prop) : TypeStore → Prop
  | new : Reached allowed {}
  | perform {s : TypeStore} (a : StoreAction) : Reached allowed s → a.Valid s → allowed a → Reached allowed (a.perform s)

/-- The store after several actions. -/
def performAll (s : TypeStore) : List StoreAction → TypeStore
  | [] => s
  | a :: rest => (a.perform s).performAll rest

/-- Whether what each of several actions names exists by then. -/
def ValidAll (s : TypeStore) : List StoreAction → Prop
  | [] => True
  | a :: rest => a.Valid s ∧ (a.perform s).ValidAll rest

instance (s : TypeStore) : (as : List StoreAction) → Decidable (s.ValidAll as)
  | [] => inferInstanceAs (Decidable True)
  | a :: rest =>
    have : Decidable ((a.perform s).ValidAll rest) := instDecidableValidAll (a.perform s) rest
    inferInstanceAs (Decidable (a.Valid s ∧ (a.perform s).ValidAll rest))

theorem Reached.performAll (h : Reached allowed s) (as : List StoreAction)
    (hvalid : s.ValidAll as) (hallowed : ∀ a ∈ as, allowed a) : Reached allowed (s.performAll as) := by
  induction as generalizing s with
  | nil => exact h
  | cons a rest ih =>
    exact ih (.perform a h hvalid.1 (hallowed a (by simp))) hvalid.2 fun b hb => hallowed b (by simp [hb])

theorem shape_new (t : TypeId) : shape {} t = .unknown := by
  obtain ⟨i⟩ := t
  cases i with
  | zero => rfl
  | succ i => rfl

theorem wellFormed_new : WellFormed {} := by
  have hslot : ∀ w, slot {} w = ⟨.unknown, .unknown⟩ := fun w => slot_of_not_known (Nat.not_lt_zero _)
  refine ⟨Nat.one_pos, rfl, fun t cs h => ?_, fun t u h => ?_, fun w => ?_,
    fun t w h => ?_, by simp, by simp, by simp, by simp⟩
  · grind [candidates?_eq_some_iff, shape_new]
  · grind [lazyTarget?_eq_some_iff, shape_new]
  · rw [hslot]
    exact ⟨Nat.one_pos, Nat.one_pos⟩
  · rw [shape_new] at h
    contradiction

theorem Reached.wellFormed (h : Reached allowed s) : s.WellFormed := by
  induction h with
  | new => exact wellFormed_new
  | perform a _ hvalid _ ih => exact (StoreAction.perform_sound ih hvalid).1

/-- Whether every union has candidates. -/
def NoEmptyUnion (s : TypeStore) : Prop := ∀ t cs, s.candidates? t = some cs → cs ≠ []

theorem NoEmptyUnion.grows {s' : TypeStore} (h : s.NoEmptyUnion) (hgrows : s.Grows s') : s'.NoEmptyUnion := by
  intro t cs hcs
  by_cases ht : s.Known t
  · exact h t cs (candidates?_congr (hgrows.shape_eq t ht) ▸ hcs)
  · exact hgrows.fresh_offers t cs ht hcs

theorem Reached.noEmptyUnion (h : Reached StoreAction.OffersCandidates s) : s.NoEmptyUnion := by
  induction h with
  | new =>
    intro t cs hcs
    grind [candidates?_eq_some_iff, shape_new]
  | @perform s a hreached hvalid hoffers ih =>
    have hs := hreached.wellFormed
    cases a with
    | resolveSlot id target => exact StoreAction.perform_resolveSlot ih ih
    | resolveLazy lazy target =>
      intro t cs hcs
      exact ih t cs ((hs.resolveLazy lazy hvalid.2).2 t ▸ hcs)
    | _ => exact ih.grows ((StoreAction.perform_sound hs hvalid).2 hoffers fun h => h)

end TypeStore

end PythonTypes
