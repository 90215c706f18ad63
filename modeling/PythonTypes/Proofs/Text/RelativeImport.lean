import PythonTypes.Proofs.Text.DottedName

/-!
# Relative imports

Putting the segments of a name together gives the name back, so `parent` cuts a name at its last
dot, whatever segments the name has. One dot of a relative import then means the package itself, and
`climb_beforeLastDot` says that each further dot is the same import made one package higher up.
-/

set_option autoImplicit false

namespace PythonTypes.DottedName

variable {segment : String} {parts : List String} (name : String) (package : String)

theorem join_cons (h : parts ≠ []) : join (segment :: parts) = segment ++ "." ++ join parts := by
  cases parts with
  | nil => contradiction
  | cons next others => rfl

theorem join_concat (h : parts ≠ []) : join (parts ++ [segment]) = join parts ++ "." ++ segment := by
  induction parts with
  | nil => contradiction
  | cons first others ih =>
    by_cases hothers : others = []
    · simp [hothers, join]
    · rw [List.cons_append, join_cons (by simp), ih hothers, join_cons hothers]
      simp only [String.append_assoc]

theorem toList_join_splitChars (cs : List Char) : (join ((splitChars cs).map String.ofList)).toList = cs := by
  induction cs with
  | nil => rfl
  | cons c rest ih =>
    obtain ⟨first, others, hsplit⟩ := List.exists_cons_of_ne_nil (splitChars_ne_nil rest)
    by_cases hc : c = '.'
    · have hne : (splitChars rest).map String.ofList ≠ [] := by simp [hsplit]
      simp [splitChars, hc, join_cons hne, ih]
    · -- `c` joins the first run of the rest; whether a dot follows that run decides how `join` goes on.
      rw [hsplit] at ih
      simp only [splitChars, hc, if_false, hsplit]
      cases others with
      | nil | cons next later => simpa [join] using ih

theorem join_segments : join (segments name) = name :=
  String.toList_inj.1 (toList_join_splitChars name.toList)

/-- A name has one segment more than dots. -/
theorem length_segments : (segments name).length = name.toList.count '.' + 1 := by
  unfold segments
  rw [List.length_map]
  induction name.toList with
  | nil => rfl
  | cons c rest ih =>
    obtain ⟨first, others, hsplit⟩ := List.exists_cons_of_ne_nil (splitChars_ne_nil rest)
    by_cases hc : c = '.' <;> simp_all [splitChars]

/-- What stands before the last dot of a name; empty if the name has no dot. -/
inductive BeforeLastDot : String → String → Prop
  | dotless {name : String} (h : '.' ∉ name.toList) : BeforeLastDot name ""
  | cut {stem segment : String} (h : '.' ∉ segment.toList) : BeforeLastDot (stem ++ "." ++ segment) stem

theorem beforeLastDot_parent : BeforeLastDot name (parent name) := by
  obtain ⟨front, final, hparts⟩ : ∃ front final, segments name = front ++ [final] :=
    ⟨_, _, (List.dropLast_concat_getLast (segments_ne_nil name)).symm⟩
  have hmem : final ∈ segments name := by simp [hparts]
  have hfinal : '.' ∉ final.toList := not_mem_of_mem_segments hmem
  have hparent : parent name = join front := by simp [parent, hparts]
  have hname : name = join (front ++ [final]) := by rw [← hparts, join_segments]
  rw [hparent, hname]
  by_cases hfront : front = []
  · subst hfront
    exact .dotless hfinal
  · rw [join_concat hfront]
    exact .cut hfinal

/-- The empty package needs no case of its own: it has one segment, which is empty. -/
theorem climb_succ (level : Nat) :
    climb package (level + 1) = join ((segments package).take ((segments package).length - level)) := by
  by_cases hpackage : package = ""
  · subst hpackage
    cases level <;> simp [climb, segments, splitChars, join]
  · simp [climb, hpackage]

theorem climb_one : climb package 1 = package := by
  rw [climb_succ, Nat.sub_zero, List.take_length, join_segments]

theorem climb_beforeLastDot {package stem : String} (h : BeforeLastDot package stem) (level : Nat) :
    climb package (level + 2) = climb stem (level + 1) := by
  cases h with
  | dotless hdot =>
    rw [climb_succ package (level + 1), segments_of_not_mem hdot]
    simp [climb, join]
  | cut hdot =>
    -- The last segment is the one that the further dot takes away.
    rw [climb_succ _ (level + 1), climb_succ stem level, segments_append hdot, List.length_append,
      List.length_singleton, Nat.add_sub_add_right, List.take_append_of_le_length (Nat.sub_le _ _)]

/-- The number of packages on the way from the top to a package, itself included. -/
def depth (package : String) : Nat := if package = "" then 0 else package.toList.count '.' + 1

theorem climb_of_depth_lt {package : String} {level : Nat} (h : depth package < level) : climb package level = "" := by
  unfold depth at h
  split at h
  · simp [climb, *]
  · obtain ⟨dots, rfl⟩ : ∃ dots, level = dots + 1 := Nat.exists_eq_add_one_of_ne_zero (by omega)
    have hpast : (segments package).length - dots = 0 := by
      rw [length_segments]
      omega
    rw [climb_succ, hpast, List.take_zero, join]

/-- Every dot after the first climbs to the part of the package before its last dot, the first dot
stands for the package itself, and dots past the top leave the target alone. -/
theorem absolute_climbs_by_dots (package : String) (target : Option String) :
    BeforeLastDot package (parent package) ∧
    (∀ level, 1 ≤ level → absolute package (level + 1) target = absolute (parent package) level target) ∧
    (∀ name, absolute package 1 (some name) = if package = "" then name else package ++ "." ++ name) ∧
    (∀ level, depth package < level → absolute package level target = target.getD "") := by
  refine ⟨beforeLastDot_parent package, ?_, ?_, ?_⟩
  · intro level hlevel
    obtain ⟨dots, rfl⟩ : ∃ dots, level = dots + 1 := Nat.exists_eq_add_one_of_ne_zero (by omega)
    simp only [absolute, climb_beforeLastDot (beforeLastDot_parent package) dots]
  · intro name
    simp only [absolute, climb_one, child]
  · intro level hlevel
    simp only [absolute, climb_of_depth_lt hlevel]
    cases target <;> rfl

theorem absolute_climbs_by_dots_emptySegment :
    absolute "pkg..sub" 2 (some "lib") = absolute "pkg." 1 (some "lib") ∧
    absolute "pkg." 1 (some "lib") = "pkg..lib" ∧ absolute "pkg..sub" 4 (some "lib") = "lib" := by
  have hparent : parent "pkg..sub" = "pkg." := by decide
  obtain ⟨-, hstep, -, htop⟩ := absolute_climbs_by_dots "pkg..sub" (some "lib")
  obtain ⟨-, -, hfirst, -⟩ := absolute_climbs_by_dots "pkg." none
  refine ⟨?_, ?_, htop 4 (by decide)⟩
  · rw [← hparent]
    exact hstep 1 (by decide)
  · rw [hfirst]
    decide

end PythonTypes.DottedName
