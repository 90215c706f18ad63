import PythonTypes.Text.Json.Record

/-!
# Reading back what was written

A record whose fields are all written is read with these very fields (`Json.record?_object`), an
optional value comes back from what stands for it or from `null` (`Json.nullable_ofOption`), and a
list comes back if each of its items does (`Json.listOf_array`). What stands inside a value is less
deep than the value.
-/

set_option autoImplicit false

namespace PythonTypes

theorem Entries.find?_cons {α : Type} (key name : String) (value : α) (rest : List (String × α)) :
    Entries.find? key ((name, value) :: rest) = if name = key then some value else Entries.find? key rest := rfl

namespace Json

variable {α : Type} {fields : List (String × Json)} {encode : α → Json} {decode : Json → Option α}
variable (x : Option String) (xs : List String)

/-- A record is read with the very fields that it was written with. -/
theorem record?_object {known : List String} (hknown : fields.map Prod.fst = known)
    (hnodup : known.Nodup) : record? known (.object fields) = some fields := by
  have hown : (fields.filter fun f => known.contains f.1) = fields := by
    rw [List.filter_eq_self]
    intro f hf
    rw [← hknown]
    simpa using ⟨f.2, hf⟩
  simp only [record?, hown, hknown, if_pos hnodup]

theorem required_eq_elim (fields : List (String × Json)) (name : String) (decode : Json → Option α) :
    required fields name decode = (Entries.find? name fields).elim none decode := by
  unfold required
  cases Entries.find? name fields <;> rfl

theorem defaulted_eq_elim (fields : List (String × Json)) (name : String) (default : α) (decode : Json → Option α) :
    defaulted fields name default decode = (Entries.find? name fields).elim (some default) decode := by
  grind [defaulted]

@[simp] theorem asString?_string (value : String) : (Json.string value).asString? = some value := rfl

@[simp] theorem asBool?_bool (value : Bool) : (Json.bool value).asBool? = some value := rfl

theorem nullable_ofOption (hnull : ∀ a, encode a ≠ .null)
    (hdecode : ∀ a, decode (encode a) = some a) (x : Option α) : nullable decode (ofOption encode x) = some x := by
  cases x with
  | none => rfl
  | some a =>
    simp_all [nullable, ofOption]

@[simp] theorem nullable_string : nullable asString? (ofOption string x) = some x := by
  have hnull : ∀ value : String, string value ≠ null := by simp
  exact nullable_ofOption hnull asString?_string x

/-- A list comes back if each of its items does. -/
theorem listOf_array {xs : List α} (h : ∀ x ∈ xs, decode (encode x) = some x) :
    listOf decode (.array (xs.map encode)) = some xs := by
  show (xs.map encode).mapM decode = some xs
  induction xs with
  | nil => rfl
  | cons x rest ih =>
    simp_all

@[simp] theorem listOf_string : listOf asString? (.array (xs.map string)) = some xs :=
  listOf_array fun _ _ => rfl

/-! ## Depth and soundness -/

theorem depth_le_depthItems {items : List Json} {j : Json} (h : j ∈ items) : j.depth ≤ depthItems items := by
  induction items with
  | nil => cases h
  | cons i rest ih =>
    grind [depthItems]

theorem depth_le_depthFields {f : String × Json} (h : f ∈ fields) : f.2.depth ≤ depthFields fields := by
  induction fields with
  | nil => cases h
  | cons g rest ih =>
    grind [depthFields]

theorem areSound_map (h : ∀ x, (encode x).isSound = true) (xs : List α) : areSound (xs.map encode) = true := by
  induction xs with
  | nil => rfl
  | cons x rest ih => rw [List.map_cons, areSound, h x, ih, Bool.and_self]

@[simp] theorem isSound_strings : areSound (xs.map string) = true := areSound_map (fun _ => rfl) xs

@[simp] theorem isSound_ofOption_string : (ofOption string x).isSound = true := by
  cases x <;> rfl

end Json

end PythonTypes
