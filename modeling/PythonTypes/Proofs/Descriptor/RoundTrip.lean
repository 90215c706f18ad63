import PythonTypes.Proofs.Data.OrderedMap
import PythonTypes.Proofs.Text.Record
import PythonTypes.Stub.Basic

/-!
# Descriptors come back from JSON

Reading what was written gives back the value that was written: for descriptors that nest to any
depth, for modules and for bundles of library modules (`ofJson?_toJson`). Every record is written
with all of its fields, each once, so it is read with the fields that were written. A descriptor is
read by recursion on a bound for its depth, and what was written is never deeper than the bound.
-/

set_option autoImplicit false

namespace PythonTypes

variable (p : ParameterDescriptor)

/-! ## Records -/

theorem ParameterDescriptor.ofJson?_toJson : ofJson? p.toJson = some p := by
  unfold ofJson? toJson
  rw [Json.record?_object]
  · simp [Json.optional, Json.defaulted_eq_elim, Entries.find?_cons]
  · rfl
  · decide

theorem ParameterDescriptor.isSound_toJson : p.toJson.isSound = true := by
  simp [toJson, Json.isSound, Json.haveSoundValues]

theorem FunctionDescriptor.ofJson?_toFields (f : FunctionDescriptor) : ofJson? (.object f.toFields) = some f := by
  unfold ofJson? toFields
  rw [Json.record?_object]
  · simp [Json.required_eq_elim, Json.optional, Json.defaulted_eq_elim, Entries.find?_cons,
      Json.listOf_array fun p _ => ParameterDescriptor.ofJson?_toJson p]
  · rfl
  · decide

theorem VariableDescriptor.ofJson?_toFields (v : VariableDescriptor) : ofJson? (.object v.toFields) = some v := by
  unfold ofJson? toFields
  rw [Json.record?_object]
  · simp [Json.required_eq_elim, Json.optional, Json.defaulted_eq_elim, Entries.find?_cons]
  · rfl
  · decide

namespace DescriptorKind

theorem ofText?_text (kind : DescriptorKind) : ofText? kind.text = some kind := by
  cases kind <;> decide

end DescriptorKind

namespace Descriptor

variable (d : Descriptor)

theorem toJsonList_eq_map (ds : List Descriptor) : toJsonList ds = ds.map toJson := by
  induction ds with
  | nil => rfl
  | cons d rest ih => rw [toJsonList, ih, List.map_cons]

/-- The fields of a descriptor apart from its kind, written. -/
def toFields : Descriptor → List (String × Json)
  | ofClass name path bases members hasDecorators metaclass =>
    [("name", .string name),
      ("fully_qualified_name", .ofOption .string path),
      ("superclasses", .array (bases.map .string)),
      ("members", .array (members.map toJson)),
      ("has_decorators", .bool hasDecorators),
      ("metaclass_fqn", .ofOption .string metaclass)]
  | ofFunction f => f.toFields
  | ofVariable v => v.toFields
  | ambiguous name path alternatives =>
    [("name", .string name),
      ("fully_qualified_name", .ofOption .string path),
      ("alternatives", .array (alternatives.map toJson))]
  | unknown name path => [("name", .string name), ("fully_qualified_name", .ofOption .string path)]

theorem toJson_eq : d.toJson = .object (("kind", .string d.kind.text) :: d.toFields) := by
  cases d <;> simp [toJson, toJsonList_eq_map, toFields, kind, DescriptorKind.text]

theorem tagged?_toJson (inner : Bool) (d : Descriptor) : tagged? inner d.toJson = some (d.kind, .object d.toFields) := by
  have hother : ∀ f ∈ d.toFields, f.1 ≠ "kind" := by
    cases d <;> simp [toFields, FunctionDescriptor.toFields, VariableDescriptor.toFields]
  have hnone : (d.toFields.filter fun f => f.1 == "kind") = [] := List.filter_eq_nil_iff.2 (by simpa using hother)
  have hall : (d.toFields.filter fun f => f.1 != "kind") = d.toFields := List.filter_eq_self.2 (by simpa using hother)
  rw [toJson_eq]
  simp [tagged?, hnone, hall, kindOfJson?, DescriptorKind.ofText?_text]

section Within

variable {read : Json → Option Descriptor} {ds : List Descriptor} (name : String)
variable (path : Option String)

theorem classOfJson?_toFields (bases : List String) (hasDecorators : Bool)
    (metaclass : Option String) (h : ∀ d ∈ ds, read d.toJson = some d) :
    classOfJson? read (.object (ofClass name path bases ds hasDecorators metaclass).toFields) =
      some (.ofClass name path bases ds hasDecorators metaclass) := by
  unfold classOfJson? toFields
  rw [Json.record?_object]
  · simp [Json.required_eq_elim, Json.optional, Json.defaulted_eq_elim, Entries.find?_cons, Json.listOf_array h]
  · rfl
  · decide

theorem ambiguousOfJson?_toFields (h : ∀ d ∈ ds, read d.toJson = some d) :
    ambiguousOfJson? read (.object (ambiguous name path ds).toFields) = some (.ambiguous name path ds) := by
  unfold ambiguousOfJson? toFields
  rw [Json.record?_object]
  · simp [Json.required_eq_elim, Json.optional, Json.defaulted_eq_elim, Entries.find?_cons, Json.listOf_array h]
  · rfl
  · decide

theorem unknownOfJson?_toFields :
    unknownOfJson? (.object (unknown name path).toFields) = some (.unknown name path) := by
  unfold unknownOfJson? toFields
  rw [Json.record?_object]
  · simp [Json.required_eq_elim, Json.optional, Json.defaulted_eq_elim, Entries.find?_cons]
  · rfl
  · decide

end Within

/-- The descriptors in a list are less deep than a descriptor with a field for the list. -/
theorem depth_lt_of_mem {d d' : Descriptor} {ds : List Descriptor} {key : String} (hd' : d' ∈ ds)
    (hfield : (key, Json.array (ds.map toJson)) ∈ d.toFields) : d'.toJson.depth < d.toJson.depth := by
  have hitem : d'.toJson.depth ≤ Json.depthItems (ds.map toJson) := Json.depth_le_depthItems (List.mem_map_of_mem hd')
  have harray : Json.depthItems (ds.map toJson) + 1 ≤ Json.depthFields (("kind", .string d.kind.text) :: d.toFields) :=
    Json.depth_le_depthFields (List.mem_cons_of_mem _ hfield)
  rw [d.toJson_eq, Json.depth]
  omega

theorem ofJsonWithin?_toJson (bound : Nat) (inner : Bool) (d : Descriptor)
    (h : d.toJson.depth ≤ bound) : ofJsonWithin? bound inner d.toJson = some d := by
  induction bound generalizing inner d with
  | zero =>
    rw [toJson_eq, Json.depth] at h
    omega
  | succ bound ih =>
    -- the members of a class and the alternatives of an ambiguous descriptor are less deep
    have hless : ∀ {ds : List Descriptor} (key : String), (key, Json.array (ds.map toJson)) ∈ d.toFields →
        ∀ d' ∈ ds, ofJsonWithin? bound true d'.toJson = some d' := by
      intro ds key hfield d' hd'
      have hlt := depth_lt_of_mem hd' hfield
      exact ih true d' (by omega)
    rw [ofJsonWithin?, tagged?_toJson]
    cases d with
    | ofClass name path bases members hasDecorators metaclass =>
      exact classOfJson?_toFields name path bases hasDecorators metaclass (hless "members" (by simp [toFields]))
    | ofFunction f => exact congrArg (Option.map ofFunction) f.ofJson?_toFields
    | ofVariable v => exact congrArg (Option.map ofVariable) v.ofJson?_toFields
    | ambiguous name path alternatives =>
      exact ambiguousOfJson?_toFields name path (hless "alternatives" (by simp [toFields]))
    | unknown name path => exact unknownOfJson?_toFields name path

mutual

theorem isSound_toJson : ∀ d : Descriptor, d.toJson.isSound = true
  | ofClass name path bases members hasDecorators metaclass => by
    simp [toJson, Json.isSound, Json.haveSoundValues, areSound_toJsonList members]
  | ofFunction f => by
    simp [toJson, FunctionDescriptor.toFields, Json.isSound, Json.haveSoundValues,
      Json.areSound_map ParameterDescriptor.isSound_toJson]
  | ofVariable v => by simp [toJson, VariableDescriptor.toFields, Json.isSound, Json.haveSoundValues]
  | ambiguous name path alternatives => by simp [toJson, Json.isSound, Json.haveSoundValues, areSound_toJsonList alternatives]
  | unknown name path => by simp [toJson, Json.isSound, Json.haveSoundValues]

theorem areSound_toJsonList : ∀ ds : List Descriptor, Json.areSound (toJsonList ds) = true
  | [] => rfl
  | d :: rest => by
    rw [toJsonList, Json.areSound, isSound_toJson d, areSound_toJsonList rest, Bool.and_self]

end

theorem ofJson?_toJson : ofJson? d.toJson = some d := by
  grind [ofJson?, isSound_toJson, ofJsonWithin?_toJson]

end Descriptor

/-! ## Modules and bundles -/

namespace ModuleDescriptor

theorem membersOfJson?_object (members : OrderedMap String Descriptor) :
    membersOfJson? (.object (members.entries.map fun (key, d) => (key, d.toJson))) = some members := by
  have hentries : ∀ entries : List (String × Descriptor), (entries.map fun e => (e.1, e.2.toJson)).mapM
      (fun e => (Descriptor.ofJson? e.2).map (e.1, ·)) = some entries := by
    intro entries
    induction entries with
    | nil => rfl
    | cons entry rest ih =>
      grind [Descriptor.ofJson?_toJson]
  refine (congrArg (Option.bind · fun entries => some (OrderedMap.ofList entries)) (hentries members.entries)).trans ?_
  rw [Option.bind_some, OrderedMap.ofList_entries]

theorem ofJson?_toJson (m : ModuleDescriptor) : ofJson? m.toJson = some m := by
  unfold ofJson? toJson
  rw [Json.record?_object]
  · simp [Json.required_eq_elim, Json.defaulted_eq_elim, Entries.find?_cons, membersOfJson?_object]
  · rfl
  · decide

end ModuleDescriptor

theorem Version.ofText?_text (v : Version) : ofText? v.text = some v := by
  cases v <;> decide

namespace VersionSet

theorem ofList_toList (s : VersionSet) : ofList s.toList = s := by
  have hall : ∀ v, v ∈ Version.all := by
    intro v
    cases v <;> decide
  simp_all [ofList, toList]

theorem ofJson?_toJson (s : VersionSet) : ofJson? s.toJson = some s := by
  rw [ofJson?, toJson, Json.listOf_array fun v _ => v.ofText?_text, Option.map_some, ofList_toList]

end VersionSet

theorem StubSymbol.ofJson?_toJson (s : StubSymbol) : ofJson? s.toJson = some s := by
  unfold ofJson? toJson
  rw [Json.record?_object]
  · simp [Json.required_eq_elim, Json.defaulted_eq_elim, Entries.find?_cons,
      VersionSet.ofJson?_toJson, Descriptor.ofJson?_toJson]
  · rfl
  · decide

theorem StubModule.ofJson?_toJson (m : StubModule) : ofJson? m.toJson = some m := by
  unfold ofJson? toJson
  rw [Json.record?_object]
  · simp [Json.required_eq_elim, Json.defaulted_eq_elim, Entries.find?_cons,
      Json.listOf_array fun s _ => StubSymbol.ofJson?_toJson s]
  · rfl
  · decide

theorem StubBundle.ofJson?_toJson (b : StubBundle) : ofJson? b.toJson = some b := by
  unfold ofJson? toJson
  rw [Json.record?_object]
  · simp [Json.required_eq_elim, Entries.find?_cons, Json.listOf_array fun m _ => StubModule.ofJson?_toJson m]
  · rfl
  · decide

/-- What is written of a descriptor, a module or a bundle is read as what it was written of. -/
theorem written_is_read_back : (∀ d : Descriptor, Descriptor.ofJson? d.toJson = some d) ∧
    (∀ m : ModuleDescriptor, ModuleDescriptor.ofJson? m.toJson = some m) ∧ ∀ b : StubBundle,
    StubBundle.ofJson? b.toJson = some b :=
  ⟨Descriptor.ofJson?_toJson, ModuleDescriptor.ofJson?_toJson, StubBundle.ofJson?_toJson⟩

end PythonTypes
