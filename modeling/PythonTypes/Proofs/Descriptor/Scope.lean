import PythonTypes.Descriptor.Convert

/-!
# The scope of a conversion

A conversion changes its scope while it is in a class, and puts the owner back behind the members,
whether they could be converted or not. So it leaves every scope as it was, and does what would be
done if each class passed a scope of its own on to its members (`RunsAs`). The equations say this of
each kind of descriptor.
-/

set_option autoImplicit false

namespace PythonTypes

variable {α β : Type}

/-- In each scope the action does what `result` does there, and leaves the scope as it was. -/
def RunsAs (action : ScopedM α) (result : ConversionScope → SpaceM α) : Prop :=
  ∀ scope, action.run scope = (·, scope) <$> result scope

namespace RunsAs

variable {action : ScopedM α} {result : ConversionScope → SpaceM α}

theorem run'_eq (h : RunsAs action result) (scope : ConversionScope) : action.run' scope = result scope := by
  rw [StateT.run'_eq, h, Functor.map_map, id_map']

theorem self (h : RunsAs action result) : RunsAs action action.run' := fun scope => by
  rw [h.run'_eq]
  exact h scope

theorem scope_eq (h : RunsAs action result) {scope scope' : ConversionScope} {space space' : TypeSpace} {a : α}
    (hrun : action.run scope space = some ((a, scope'), space')) :
    scope' = scope ∧ result scope space = some (a, space') := by
  rw [h scope] at hrun
  obtain ⟨p, hp, heq⟩ := Option.map_eq_some_iff.1 ((StateT.run_map (·, scope) (result scope) space).symm.trans hrun)
  cases heq
  exact ⟨rfl, hp⟩

theorem isSome_run (h : RunsAs action result) {scope : ConversionScope} {space : TypeSpace} :
    (action.run scope space).isSome = (result scope space).isSome := by
  rw [h scope]
  exact congrArg Option.isSome (StateT.run_map (·, scope) (result scope) space) |>.trans Option.isSome_map

theorem pure (a : α) : RunsAs (Pure.pure a) fun _ => Pure.pure a := fun scope => by
  simp

theorem get : RunsAs MonadState.get fun scope => Pure.pure scope := fun scope => by
  simp

theorem lift (action : SpaceM α) : RunsAs (liftM action) fun _ => action := fun scope => by
  simp [liftM, monadLift, MonadLift.monadLift]

theorem bind {f : α → ScopedM β} {g : α → ConversionScope → SpaceM β} (h : RunsAs action result)
    (hf : ∀ a, RunsAs (f a) (g a)) :
    RunsAs (action >>= f) fun scope => result scope >>= fun a => g a scope := fun scope => by
  rw [StateT.run_bind, h, bind_map_left, map_bind]
  exact congrArg _ (funext fun a => hf a scope)

theorem bindExcept {action : ExceptT ConversionError ScopedM α} {result : ConversionScope → ConvertM α}
    {f : α → ExceptT ConversionError ScopedM β} {g : α → ConversionScope → ConvertM β}
    (h : RunsAs action.run fun scope => (result scope).run)
    (hf : ∀ a, RunsAs (f a).run fun scope => (g a scope).run) :
    RunsAs (action >>= f).run fun scope => (result scope >>= fun a => g a scope).run := by
  refine h.bind (g := fun r scope => ExceptT.bindCont (fun a => g a scope) r) fun r => ?_
  cases r with
  | error e => exact pure (Except.error e)
  | ok a => exact hf a

theorem liftScoped (h : RunsAs action result) :
    RunsAs (liftM action : ExceptT ConversionError ScopedM α).run fun scope => (liftM (result scope) : ConvertM α).run :=
  h.bind fun a => pure (Except.ok a)

theorem liftSpace (action : SpaceM α) :
    RunsAs (liftM action : ExceptT ConversionError ScopedM α).run fun _ =>
    (liftM action : ConvertM α).run := (lift action).liftScoped

end RunsAs

namespace Descriptor

open TypeSpace

/-- Converts the members of a class in a scope. -/
def convertMembers (scope : ConversionScope) (ds : List Descriptor) (acc : OrderedMap String TypeRef) :
    SpaceM (OrderedMap String TypeRef) := (convertMembersHere ds acc).run' scope

/-- Converts alternatives in a scope. -/
def convertAll (scope : ConversionScope) (ds : List Descriptor) : ConvertM (List TypeId) := (convertAllHere ds).run.run' scope

/-- Converts a class in a scope. -/
def convertClass (scope : ConversionScope) (name : String) (path : Option String)
    (bases : List String) (members : List Descriptor)
    (metaclass : Option String) : SpaceM TypeId := do
  let refs ← bases.mapM lazyRef
  let cls ← onStore (TypeStore.alloc (.ofClass ⟨name, path, ∅, refs, metaclass.isSome, scope.origin⟩))
  let ms ← convertMembers { scope with owner := some cls } members ∅
  onStore (setClassMembers cls ms)
  return cls

/-- The members of a class see it as their owner, and what follows the class sees the owner before
it. -/
theorem runsAs_ofClass (name : String) (path : Option String) (bases : List String)
    {members : List Descriptor} (hasDecorators : Bool) (metaclass : Option String)
    (h : RunsAs (convertMembersHere members ∅) fun scope => convertMembers scope members ∅) :
    RunsAs (convertHere (.ofClass name path bases members hasDecorators metaclass)).run fun scope =>
      (liftM (convertClass scope name path bases members metaclass) : ConvertM TypeId).run := by
  intro scope
  rw [convertHere, ExceptT.run_liftM]
  simp only [ExceptT.run_liftM]
  simp [convertClass, h _]

theorem runsAs_ofFunction (f : FunctionDescriptor) :
    RunsAs (convertHere (.ofFunction f)).run fun scope => (liftM (convertFunction scope f) : ConvertM TypeId).run := by
  rw [convertHere]
  exact (RunsAs.get.bind fun scope => .lift (convertFunction scope f)).liftScoped

mutual

theorem runsAs_convert : (d : Descriptor) → RunsAs d.convertHere.run fun scope => (d.convert scope).run
  | .ofClass name path bases members hasDecorators metaclass =>
    (runsAs_ofClass name path bases hasDecorators metaclass (runsAs_convertMembers members ∅)).self
  | .ofFunction f => (runsAs_ofFunction f).self
  | .ofVariable v => (RunsAs.liftSpace (convertVariable v)).self
  | .ambiguous _ _ alternatives => ((runsAs_convertAll alternatives).bindExcept fun _ => .liftSpace _).self
  | .unknown .. => (RunsAs.pure _).self

theorem runsAs_convertMembers : (ds : List Descriptor) → (acc : OrderedMap String TypeRef) →
    RunsAs (convertMembersHere ds acc) fun scope => convertMembers scope ds acc
  | [], acc => .pure acc
  | d :: rest, _ => ((runsAs_convert d).bind fun _ => (RunsAs.lift _).bind fun _ => runsAs_convertMembers rest _).self

theorem runsAs_convertAll : (ds : List Descriptor) → RunsAs (convertAllHere ds).run fun scope => (convertAll scope ds).run
  | [] => .pure (Except.ok [])
  | d :: rest => ((runsAs_convert d).bindExcept fun _ => (runsAs_convertAll rest).bindExcept fun _ => .pure _).self

end

/-! ## Equations -/

section

variable (scope : ConversionScope) (d : Descriptor) (rest : List Descriptor) (name : String)
variable (path : Option String)

theorem convert_ofClass (bases : List String) (members : List Descriptor)
    (hasDecorators : Bool) (metaclass : Option String) :
    convert scope (.ofClass name path bases members hasDecorators metaclass) =
      liftM (convertClass scope name path bases members metaclass) :=
  (runsAs_ofClass name path bases hasDecorators metaclass (runsAs_convertMembers members ∅)).run'_eq scope

theorem convert_ofFunction (f : FunctionDescriptor) : convert scope (.ofFunction f) = liftM (convertFunction scope f) :=
  (runsAs_ofFunction f).run'_eq scope

theorem convert_ofVariable (v : VariableDescriptor) : convert scope (.ofVariable v) = liftM (convertVariable v) :=
  (RunsAs.liftSpace (convertVariable v)).run'_eq scope

theorem convert_ambiguous (alternatives : List Descriptor) :
    convert scope (.ambiguous name path alternatives) =
      convertAll scope alternatives >>= fun types => liftM (follow (TypeStore.unionOfAt · types)) :=
  ((runsAs_convertAll alternatives).bindExcept fun _ => .liftSpace _).run'_eq scope

theorem convertMembers_cons (acc : OrderedMap String TypeRef) :
    convertMembers scope (d :: rest) acc = (do
      let converted ← (d.convert scope).run
      let ref ← onStore (TypeStore.wrap (converted.toOption.getD .unknown))
      convertMembers scope rest (acc.insert d.name ref)) :=
  ((runsAs_convert d).bind fun _ => (RunsAs.lift _).bind fun _ => runsAs_convertMembers rest _).run'_eq scope

theorem convertAll_cons :
    convertAll scope (d :: rest) = (do
      let t ← d.convert scope
      let ts ← convertAll scope rest
      return t :: ts) :=
  ((runsAs_convert d).bindExcept fun _ => (runsAs_convertAll rest).bindExcept fun _ => .pure _).run'_eq scope

end

/-- The type of a descriptor in a scope, unknown if it has none. -/
def convertOrUnknownIn (scope : ConversionScope) (d : Descriptor) : SpaceM TypeId := do
  let converted ← (d.convert scope).run
  return converted.toOption.getD .unknown

end Descriptor

namespace ModuleDescriptor

open Descriptor TypeSpace

/-- The type of a member of a module in a scope. -/
def convertMemberIn (scope : ConversionScope) (d : Descriptor) : SpaceM TypeId :=
  match d.path with
  | some path => if path = DottedName.child scope.modulePath d.name then d.convertOrUnknownIn scope else lazyType path
  | none => d.convertOrUnknownIn scope

/-- Converts entries of a module in a scope. -/
def convertEntriesIn (scope : ConversionScope) :
    List (String × Descriptor) → OrderedMap String TypeRef → SpaceM (OrderedMap String TypeRef)
  | [], acc => pure acc
  | (key, d) :: rest, acc => do
    let t ← convertMemberIn scope d
    let ref ← onStore (TypeStore.wrap t)
    convertEntriesIn scope rest (acc.insert key ref)

theorem runsAs_convertMember (d : Descriptor) : RunsAs (convertMember d) fun scope => convertMemberIn scope d := by
  have hown : RunsAs d.convertOrUnknown fun scope => d.convertOrUnknownIn scope := (runsAs_convert d).bind fun _ => .pure _
  unfold convertMember convertMemberIn
  cases d.path with
  | none => exact hown
  | some path =>
    refine fun scope => (RunsAs.get.bind (g := fun here scope => if path = DottedName.child here.modulePath d.name then
      d.convertOrUnknownIn scope else lazyType path) fun here => ?_) scope
    split
    · exact hown
    · exact .lift (lazyType path)

theorem runsAs_convertEntries (entries : List (String × Descriptor)) (acc : OrderedMap String TypeRef) :
    RunsAs (convertEntries entries acc) fun scope => convertEntriesIn scope entries acc := by
  induction entries generalizing acc with
  | nil => exact .pure acc
  | cons entry rest ih => exact (runsAs_convertMember entry.2).bind fun _ => (RunsAs.lift _).bind fun _ => ih _

theorem runsAs_convert (m : ModuleDescriptor) : RunsAs m.convertHere fun scope => m.convertMembers scope :=
  (runsAs_convertEntries m.members.entries ∅).self

theorem convertMembers_eq (scope : ConversionScope) (m : ModuleDescriptor) :
    m.convertMembers scope = convertEntriesIn scope m.members.entries ∅ :=
  (runsAs_convertEntries m.members.entries ∅).run'_eq scope

end ModuleDescriptor

end PythonTypes
