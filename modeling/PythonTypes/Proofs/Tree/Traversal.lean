import PythonTypes.Tree.Basic

/-!
# Which statements stand in a body

A statement stands in a body if it is one of its statements or stands in a block inside one of them
(`Stmt.Within`). Which blocks count is a matter of what is asked: those of definitions do for the
whole module (`innerBlocks`), not for a single body (`childBlocks`), and for jumps that leave the
body the bodies of loops do not either (`openBlocks`). A `listing` has the statements that stand in
a body, each where it is written, and every traversal of a module is one (`flatten_eq_listing`,
`Tree.map_fst_statements`, `Tree.functionDefs_eq`).
-/

set_option autoImplicit false

namespace PythonTypes

namespace Stmt

variable {body : List Stmt} {blocks : Stmt → List (List Stmt)}
  {hblocks : ∀ s, weightAll (blocks s).flatten < s.weight} {x : Stmt}
variable (s : Stmt) (xs ys : List Stmt)

/-- The blocks of statements inside a statement, the bodies of definitions included. -/
def innerBlocks : Stmt → List (List Stmt)
  | functionDef _ _ body => [body]
  | classDef _ _ body => [body]
  | s => s.childBlocks

/-- The blocks inside a statement that a jump may leave: the body of a loop keeps its jumps to
itself. -/
def openBlocks : Stmt → List (List Stmt)
  | whileStmt _ _ _ orelse => [orelse]
  | forStmt _ _ _ _ orelse => [orelse]
  | s => s.childBlocks

/-- Whether a statement stands in a body, where the given blocks count as parts of a statement. -/
inductive Within (blocks : Stmt → List (List Stmt)) (s : Stmt) : List Stmt → Prop
  | here {body : List Stmt} : s ∈ body → Within blocks s body
  | inside {outer : Stmt} {block body : List Stmt} : outer ∈ body → block ∈ blocks outer → Within blocks s block →
    Within blocks s body

/-- Whether a statement is a function definition. -/
def isFunctionDef : Stmt → Bool
  | functionDef .. => true
  | _ => false

/-- Whether a statement is a `break` or `continue`. -/
def isJump : Stmt → Bool
  | breakStmt _ => true
  | continueStmt _ => true
  | _ => false

/-- Whether a body handles exceptions, apart from the bodies of definitions. -/
def HandlesExceptions (body : List Stmt) : Prop := ∃ s, Within childBlocks s body ∧ s.isTry = true

/-- Whether a body has a jump that stands in none of its loops. -/
def JumpsAstray (body : List Stmt) : Prop := ∃ s, Within openBlocks s body ∧ s.isJump = true

section Within

theorem not_within_nil : ¬ Within blocks x [] := by
  rintro (h | ⟨h, -, -⟩) <;> cases h

theorem Within.mono {body' : List Stmt} (hsub : body ⊆ body') (h : Within blocks x body) : Within blocks x body' := by
  cases h with
  | here hx => exact .here (hsub hx)
  | inside houter hblock hx => exact .inside (hsub houter) hblock hx

theorem within_cons_iff {s : Stmt} {rest : List Stmt} :
    Within blocks x (s :: rest) ↔ x = s ∨ (∃ block ∈ blocks s, Within blocks x block) ∨ Within blocks x rest := by
  constructor
  · intro h
    cases h with
    | here hx => exact (List.mem_cons.1 hx).imp_right fun hx => .inr (.here hx)
    | inside houter hblock hx =>
      rcases List.mem_cons.1 houter with rfl | houter
      · exact .inr (.inl ⟨_, hblock, hx⟩)
      · exact .inr (.inr (.inside houter hblock hx))
  · rintro (rfl | ⟨block, hblock, hx⟩ | hx)
    · exact .here (by simp)
    · exact .inside (by simp) hblock hx
    · exact hx.mono (by simp)

theorem within_append_iff {xs ys : List Stmt} : Within blocks x (xs ++ ys) ↔ Within blocks x xs ∨ Within blocks x ys := by
  induction xs with
  | nil => simp [not_within_nil]
  | cons s rest ih => grind [within_cons_iff]

theorem within_flatten_iff {bodies : List (List Stmt)} :
    Within blocks x bodies.flatten ↔ ∃ body ∈ bodies, Within blocks x body := by
  induction bodies with
  | nil => simp [not_within_nil]
  | cons body rest ih => simp [within_append_iff, ih]

end Within

/-! ## Listings -/

/-- The statements that stand in a body, in source order. -/
def listing (blocks : Stmt → List (List Stmt))
    (hblocks : ∀ s, weightAll (blocks s).flatten < s.weight) : List Stmt → List Stmt
  | [] => []
  | s :: rest => s :: listing blocks hblocks ((blocks s).flatten ++ rest)
termination_by body => weightAll body
decreasing_by
  have := hblocks s
  rw [weightAll_append, weightAll]
  omega

theorem mem_listing_iff : x ∈ listing blocks hblocks body ↔ Within blocks x body := by
  fun_induction listing blocks hblocks body with
  | case1 => simp [not_within_nil]
  | case2 s rest ih => rw [List.mem_cons, ih, within_append_iff, within_flatten_iff, within_cons_iff]

theorem listing_append :
    listing blocks hblocks (xs ++ ys) = listing blocks hblocks xs ++ listing blocks hblocks ys := by
  fun_induction listing blocks hblocks xs with
  | case1 => rfl
  | case2 s rest ih => grind [listing]

theorem weightAll_innerBlocks_lt : weightAll s.innerBlocks.flatten < s.weight := by
  unfold innerBlocks
  grind [weight, weightAll_childBlocks_lt]

theorem weightAll_openBlocks_lt : weightAll s.openBlocks.flatten < s.weight := by
  unfold openBlocks
  grind [weight, weightAll_childBlocks_lt]

theorem flatten_eq_listing (body : List Stmt) : flatten body = listing childBlocks weightAll_childBlocks_lt body := by
  fun_induction flatten body with
  | case1 => rw [listing]
  | case2 s rest ih => rw [listing, ih]

theorem flatten_append : flatten (xs ++ ys) = flatten xs ++ flatten ys := by
  simp only [flatten_eq_listing, listing_append]

theorem flatten_cons (rest : List Stmt) : flatten (s :: rest) = s :: flatten s.childBlocks.flatten ++ flatten rest := by
  rw [flatten, flatten_append, List.cons_append]

theorem mem_flatten_iff : x ∈ flatten body ↔ Within childBlocks x body := by
  rw [flatten_eq_listing, mem_listing_iff]

theorem innerBlocks_flatten : s.innerBlocks.flatten = s.childBlocks.flatten ++ s.definedBody.1 := by
  cases s <;> simp [innerBlocks, childBlocks, definedBody]

/-- The statements at any depth are those outside of definitions, each followed by what its own body
has. -/
theorem listing_eq_flatMap (body : List Stmt) :
    listing innerBlocks weightAll_innerBlocks_lt body =
      (flatten body).flatMap fun s => s :: listing innerBlocks weightAll_innerBlocks_lt s.definedBody.1 := by
  fun_induction flatten body with
  | case1 => rw [listing, List.flatMap_nil]
  | case2 s rest ih =>
    rw [List.flatMap_cons, ← ih, listing, List.cons_append, innerBlocks_flatten]
    simp only [listing_append]
    cases s <;> simp [childBlocks, definedBody, listing]

theorem map_fst_withOwners (owner : Option SymbolId) (ss : List Stmt) :
    (withOwners owner ss).map Prod.fst = listing innerBlocks weightAll_innerBlocks_lt ss := by
  fun_induction withOwners owner ss with
  | case1 owner ss ih =>
    simp only [List.map_flatMap, List.map_cons, ih]
    rw [listing_eq_flatMap ss]
    simp

/-! ## Function definitions -/

theorem functionDefsAll_append : functionDefsAll (xs ++ ys) = functionDefsAll xs ++ functionDefsAll ys := by
  induction xs with
  | nil => rfl
  | cons s rest ih => grind [functionDefsAll]

theorem functionDefsHandlers_eq (hs : List Handler) :
    functionDefsHandlers hs = functionDefsAll (hs.map Handler.body).flatten := by
  induction hs with
  | nil => rfl
  | cons h rest ih =>
    obtain ⟨exception, name, body⟩ := h
    rw [functionDefsHandlers, ih, List.map_cons, List.flatten_cons, functionDefsAll_append]
    rfl

/-- The function definitions in a statement are the statement itself, if it is one, and those in its
blocks. -/
theorem functionDefs_eq : functionDefs s = [s].filter isFunctionDef ++ functionDefsAll s.innerBlocks.flatten := by
  cases s with
  | tryStmt id body handlers orelse final =>
    simp [functionDefs, functionDefsHandlers_eq, functionDefsAll_append, innerBlocks, childBlocks, isFunctionDef]
  | functionDef id header body => simp [functionDefs, innerBlocks, List.filter_cons, isFunctionDef]
  | _ => simp [functionDefs, functionDefsAll, functionDefsAll_append, innerBlocks, childBlocks, isFunctionDef]

theorem functionDefsAll_eq_listing (body : List Stmt) :
    functionDefsAll body = (listing innerBlocks weightAll_innerBlocks_lt body).filter isFunctionDef := by
  fun_induction listing innerBlocks weightAll_innerBlocks_lt body with
  | case1 => rfl
  | case2 s rest ih =>
    grind [functionDefsAll, functionDefs_eq, functionDefsAll_append]

/-! ## Decisions about bodies -/

theorem containsTry_iff : containsTry body = true ↔ HandlesExceptions body := by
  simp_all [containsTry, HandlesExceptions, mem_flatten_iff]

instance (body : List Stmt) : Decidable (HandlesExceptions body) := decidable_of_iff _ containsTry_iff

instance (body : List Stmt) : Decidable (JumpsAstray body) :=
  decidable_of_iff ((listing openBlocks weightAll_openBlocks_lt body).any isJump = true) (by
    simp_all [JumpsAstray, mem_listing_iff])

end Stmt

namespace Tree

/-- The statements of a module at any depth, in source order. -/
def listing (t : Tree) : List Stmt := Stmt.listing Stmt.innerBlocks Stmt.weightAll_innerBlocks_lt t.body

theorem mem_listing_iff {t : Tree} {s : Stmt} : s ∈ t.listing ↔ Stmt.Within Stmt.innerBlocks s t.body := Stmt.mem_listing_iff

theorem map_fst_statements (t : Tree) : t.statements.map Prod.fst = t.listing := by
  unfold statements listing
  rw [Stmt.map_fst_withOwners]

theorem functionDefs_eq (t : Tree) : t.functionDefs = t.listing.filter Stmt.isFunctionDef := by
  unfold functionDefs listing
  rw [Stmt.functionDefsAll_eq_listing]

end Tree

end PythonTypes
