import PythonTypes.Text.DottedName

/-!
# Segments of dotted names

No segment holds a dot, and a segment added to a name is its last one. `trimmed` puts the segments
of a name together again one by one, which drops the dots it begins with and nothing else.
-/

set_option autoImplicit false

namespace PythonTypes.DottedName

variable {name scope : String}

theorem splitChars_ne_nil (cs : List Char) : splitChars cs ≠ [] := by
  cases cs with
  | nil => simp [splitChars]
  | cons c rest =>
    grind [splitChars]

theorem splitChars_append (xs ys : List Char) : splitChars (xs ++ '.' :: ys) = splitChars xs ++ splitChars ys := by
  induction xs with
  | nil => simp [splitChars]
  | cons c rest ih =>
    grind [splitChars, splitChars_ne_nil]

theorem splitChars_of_not_mem {cs : List Char} (h : '.' ∉ cs) : splitChars cs = [cs] := by
  induction cs with
  | nil => rfl
  | cons c rest ih =>
    grind [splitChars]

theorem not_mem_of_mem_splitChars {cs segment : List Char} (h : segment ∈ splitChars cs) : '.' ∉ segment := by
  induction cs generalizing segment with
  | nil => simp_all [splitChars]
  | cons c rest ih =>
    grind [splitChars]

theorem segments_ne_nil (name : String) : segments name ≠ [] := by
  unfold segments
  simpa using splitChars_ne_nil name.toList

/-- No segment holds a dot. -/
theorem not_mem_of_mem_segments {segment : String} (h : segment ∈ segments name) : '.' ∉ segment.toList := by
  obtain ⟨cs, hcs, rfl⟩ := List.mem_map.1 h
  rw [String.toList_ofList]
  exact not_mem_of_mem_splitChars hcs

theorem segments_of_not_mem (h : '.' ∉ name.toList) : segments name = [name] := by
  simp [segments, splitChars_of_not_mem h]

theorem segments_append (h : '.' ∉ name.toList) : segments (scope ++ "." ++ name) = segments scope ++ [name] := by
  simp [segments, splitChars_append, splitChars_of_not_mem h]

theorem segments_child (hname : '.' ∉ name.toList) :
    segments (child scope name) = if scope = "" then [name] else segments scope ++ [name] := by
  unfold child
  split
  · exact segments_of_not_mem hname
  · exact segments_append hname

theorem getLast?_segments_child (hname : '.' ∉ name.toList) : (segments (child scope name)).getLast? = some name := by
  rw [segments_child hname]
  split <;> simp

theorem eq_empty_of_child_eq (h : child scope name = name) : scope = "" := by
  simp_all [child]

/-- A path determines the scope and the name that it was put together from. -/
theorem child_inj {scope' name' : String} (hname : '.' ∉ name.toList) (hname' : '.' ∉ name'.toList)
    (h : child scope name = child scope' name') : scope = scope' ∧ name = name' := by
  have hlast : some name' = some name := by
    rw [← getLast?_segments_child hname, h, getLast?_segments_child hname']
  obtain rfl := Option.some.inj hlast
  refine ⟨?_, rfl⟩
  by_cases hscope : scope = ""
  · grind [child, eq_empty_of_child_eq]
  · have hscope' : scope' ≠ "" := by
      rintro rfl
      exact hscope (eq_empty_of_child_eq h)
    simpa [child, hscope, hscope'] using h

/-- The name without the dots that it begins with. -/
def trimmed (name : String) : String := (segments name).foldl child ""

theorem trimmed_child (hscope : trimmed scope = scope) (hname : '.' ∉ name.toList) :
    trimmed (child scope name) = child scope name := by
  grind [trimmed, segments_child]

example : trimmed "..a.b" = "a.b" := by decide

end PythonTypes.DottedName
