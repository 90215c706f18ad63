import PythonTypes.Inference.File
import PythonTypes.Proofs.Tree.Binding

/-!
# Traversals of a module

There are four ways to go through the statements of a module: a list that the blocks inside of a
statement are put in front of (`Stmt.flatten`), recursion into the definitions of such a list
(`Stmt.withOwners`), recursion that collects function definitions, and the plain recursion
`Stmt.preorder`, which is what they are compared with. A tree may name a statement in several
places; the statements of a module from its source have different numbers
(`Source.Module.perm_indices`), so a statement is found again by its id, together with the class
whose body it stands in (`traversals_agree`).
-/

set_option autoImplicit false

namespace PythonTypes

namespace Stmt

variable {blocks : Stmt → List (List Stmt)} {hblocks : ∀ s, weightAll (blocks s).flatten < s.weight}
variable (deep : Bool)

mutual

/-- A statement followed by the statements inside it, in source order; the bodies of definitions
count if `deep`. -/
def preorder (deep : Bool) : Stmt → List Stmt
  | ifStmt id test body orelse => ifStmt id test body orelse :: (preorderAll deep body ++ preorderAll deep orelse)
  | whileStmt id test body orelse => whileStmt id test body orelse :: (preorderAll deep body ++ preorderAll deep orelse)
  | forStmt id target iter body orelse =>
    forStmt id target iter body orelse :: (preorderAll deep body ++ preorderAll deep orelse)
  | tryStmt id body handlers orelse final => tryStmt id body handlers orelse final ::
    (preorderAll deep body ++ preorderHandlers deep handlers ++ preorderAll deep orelse ++ preorderAll deep final)
  | withStmt id items body => withStmt id items body :: preorderAll deep body
  | functionDef id header body => functionDef id header body :: if deep then preorderAll deep body else []
  | classDef id header body => classDef id header body :: if deep then preorderAll deep body else []
  | s => [s]

def preorderAll (deep : Bool) : List Stmt → List Stmt
  | [] => []
  | s :: rest => preorder deep s ++ preorderAll deep rest

def preorderHandlers (deep : Bool) : List Handler → List Stmt
  | [] => []
  | .mk _ _ body :: rest => preorderAll deep body ++ preorderHandlers deep rest

end

/-- The blocks inside a statement, those of definitions included if `deep`. -/
def blocksOf (deep : Bool) (s : Stmt) : List (List Stmt) := if deep then s.innerBlocks else s.childBlocks

theorem weightAll_blocksOf_lt (s : Stmt) : weightAll (s.blocksOf deep).flatten < s.weight := by
  cases deep with
  | false => exact weightAll_childBlocks_lt s
  | true => exact weightAll_innerBlocks_lt s

theorem preorderAll_append (xs ys : List Stmt) :
    preorderAll deep (xs ++ ys) = preorderAll deep xs ++ preorderAll deep ys := by
  induction xs with
  | nil => rfl
  | cons s rest ih => grind [preorderAll]

theorem preorderHandlers_eq (hs : List Handler) :
    preorderHandlers deep hs = preorderAll deep (hs.map Handler.body).flatten := by
  induction hs with
  | nil => rfl
  | cons h rest ih =>
    obtain ⟨exception, name, body⟩ := h
    rw [preorderHandlers, ih, List.map_cons, List.flatten_cons, preorderAll_append]
    rfl

theorem preorder_eq (s : Stmt) : preorder deep s = s :: preorderAll deep (s.blocksOf deep).flatten := by
  cases s with
  | tryStmt id body handlers orelse final =>
    cases deep <;> simp [preorder, preorderHandlers_eq, preorderAll_append, blocksOf, innerBlocks, childBlocks]
  | _ => cases deep <;> simp [preorder, preorderAll, preorderAll_append, blocksOf, innerBlocks, childBlocks]

/-- A list that blocks are put in front of is gone through in the order of the recursion. -/
theorem listing_eq_preorderAll (ss : List Stmt) :
    listing (blocksOf deep) (weightAll_blocksOf_lt deep) ss = preorderAll deep ss := by
  fun_induction listing (blocksOf deep) (weightAll_blocksOf_lt deep) ss with
  | case1 => rfl
  | case2 s rest ih => rw [ih, preorderAll_append, preorderAll, preorder_eq, List.cons_append]

/-! ## Places -/

theorem perm_listing_flatMap (body : List Stmt) : (listing blocks hblocks body).Perm
    (body ++ listing blocks hblocks (body.flatMap fun s => (blocks s).flatten)) := by
  induction body with
  | nil => rw [List.flatMap_nil, listing, List.nil_append]
  | cons s rest ih =>
    rw [listing, listing_append, List.flatMap_cons, listing_append]
    exact ((ih.append_left _).trans (List.perm_append_comm_assoc ..)).cons s

theorem weightAll_flatMap_le (hblocks : ∀ s, weightAll (blocks s).flatten < s.weight) (ss : List Stmt) :
    weightAll (ss.flatMap fun s => (blocks s).flatten) + ss.length ≤ weightAll ss := by
  induction ss with
  | nil => simp [weightAll]
  | cons s rest ih =>
    have := hblocks s
    rw [List.flatMap_cons, weightAll_append, weightAll, List.length_cons]
    omega

/-- If each of some statements stands in one place, in the body or in a block of one of them, they
are what the body lists. -/
theorem perm_listing_of_places {body stmts : List Stmt} (h : stmts.Perm (body ++ stmts.flatMap fun s => (blocks s).flatten)) :
    stmts.Perm (listing blocks hblocks body) := by
  -- The statements inside others are placed in the same way, in the blocks of the body, and weigh
  -- less together.
  rcases eq_or_ne stmts [] with rfl | hne
  · obtain rfl : body = [] := (List.append_eq_nil_iff.1 h.nil_eq.symm).1
    rw [listing]
  · have hinner := h.flatMap_right fun s => (blocks s).flatten
    rw [List.flatMap_append] at hinner
    have ih := perm_listing_of_places hinner
    exact (h.trans (ih.append_left body)).trans (perm_listing_flatMap body).symm
termination_by weightAll stmts
decreasing_by
  have := weightAll_flatMap_le hblocks stmts
  have := List.length_pos_iff.2 hne
  omega

end Stmt

/-- The statements of a module have the numbers that have been given out, each of them once. -/
theorem Source.Module.perm_indices (m : Source.Module) : (Stmt.indices m.bind.body).Perm (List.range m.bind.stmts.size) := by
  have hbuilding := (m.calls_built.advances (Builder.building_start m.path m.isPackage)).building
  have hstmts : m.bind.stmts = m.built.2.stmts := by
    rw [m.bind_eq, Builder.finish_apply]
    exact (Builder.resolveAll_sound hbuilding.names hbuilding.scopes).2.stmts_eq
  obtain ⟨-, n, hsize, hperm⟩ := m.numbered_built
  have hn : m.built.2.stmts.size = n := hsize.trans (Nat.zero_add n)
  rw [hstmts, hn, List.range_eq_range']
  exact hperm

/-! ## Owners -/

namespace Stmt

variable {ss : List Stmt} {owner : Option SymbolId} {s : Stmt} {c : SymbolId}

theorem mem_withOwners_iff {p : Stmt × Option SymbolId} : p ∈ withOwners owner ss ↔
    ∃ s ∈ flatten ss, p = (s, owner) ∨ p ∈ withOwners s.definedBody.2 s.definedBody.1 := by
  rw [withOwners]
  simp

/-- A statement with an owner is one of those given, or stands in the body of a class with no
other definition around it. -/
theorem owner_of_mem_withOwners (h : (s, some c) ∈ withOwners owner ss) : owner = some c ∧ s ∈ flatten ss ∨
    ∃ d ∈ (withOwners owner ss).map Prod.fst, d.definedBody.2 = some c ∧ s ∈ flatten d.definedBody.1 := by
  induction owner, ss using withOwners.induct with
  | case1 owner ss ih =>
    obtain ⟨d, hd, h⟩ := mem_withOwners_iff.1 h
    rcases h with heq | h
    · obtain ⟨rfl, rfl⟩ := Prod.mk.inj heq
      exact .inl ⟨rfl, hd⟩
    · refine .inr ?_
      rcases ih ⟨d, hd⟩ h with ⟨howner, hs⟩ | ⟨d', hd', hs⟩
      · exact ⟨d, List.mem_map_of_mem (mem_withOwners_iff.2 ⟨d, hd, .inl rfl⟩), howner, hs⟩
      · obtain ⟨p, hp, rfl⟩ := List.mem_map.1 hd'
        exact ⟨p.1, List.mem_map_of_mem (mem_withOwners_iff.2 ⟨d, hd, .inr hp⟩), hs⟩

theorem mem_withOwners_of_definedBody {d : Stmt} (hd : d ∈ (withOwners owner ss).map Prod.fst)
    (hs : s ∈ flatten d.definedBody.1) : (s, d.definedBody.2) ∈ withOwners owner ss := by
  induction owner, ss using withOwners.induct with
  | case1 owner ss ih =>
    obtain ⟨p, hp, rfl⟩ := List.mem_map.1 hd
    obtain ⟨outer, houter, rfl | hp⟩ := mem_withOwners_iff.1 hp
    · exact mem_withOwners_iff.2 ⟨outer, houter, .inr (mem_withOwners_iff.2 ⟨s, hs, .inl rfl⟩)⟩
    · exact mem_withOwners_iff.2 ⟨outer, houter, .inr (ih ⟨outer, houter⟩ (List.mem_map_of_mem hp))⟩

end Stmt

/-- The statement stands in the body of a class with the symbol, with no other definition around
it. -/
def Tree.Holds (t : Tree) (c : SymbolId) (s : Stmt) : Prop :=
  ∃ id header body, .classDef id header body ∈ t.statements.map Prod.fst ∧ header.symbol = c ∧ s ∈ Stmt.flatten body

theorem Tree.mem_statements_iff {t : Tree} {s : Stmt} {c : SymbolId} : (s, some c) ∈ t.statements ↔ t.Holds c s := by
  constructor
  · intro h
    obtain ⟨d, hd, howner, hs⟩ := (Stmt.owner_of_mem_withOwners h).resolve_left (by rintro ⟨⟨⟩, -⟩)
    cases d with
    | classDef id header body => exact ⟨id, header, body, hd, Option.some.inj howner, hs⟩
    | _ => cases howner
  · rintro ⟨id, header, body, hclass, rfl, hs⟩
    exact Stmt.mem_withOwners_of_definedBody hclass hs

theorem Inference.ownerOf_eq_some_iff {ss : List (Stmt × Option SymbolId)}
    (hnodup : (ss.map fun p => p.1.id.index).Nodup) {id : StmtId}
    {c : SymbolId} : ownerOf ss id = some c ↔ ∃ s, (s, some c) ∈ ss ∧ s.id = id := by
  have hids : (ss.map fun p => p.1.id).Nodup := .of_map StmtId.index (by rwa [List.map_map])
  have hsub : ((ss.filterMap fun p => p.2.map (p.1.id, ·)).map Prod.fst).Sublist (ss.map fun p => p.1.id) := by
    clear hnodup hids
    induction ss with
    | nil => exact .slnil
    | cons p rest ih =>
      obtain ⟨s, _ | owner⟩ := p
      · exact ih.cons _
      · exact ih.cons_cons _
  rw [ownerOf, OrderedMap.get?_eq_some_iff, OrderedMap.ofList, OrderedMap.entries_insertAll (hids.sublist hsub)]
  simp [OrderedMap.empty]

/-- A class with a function in its body, which is built first. -/
def functionInClass : Tree :=
  let f := Stmt.functionDef ⟨0⟩ ⟨"f", ⟨1⟩, [], none, [], false, true, []⟩ []
  let c := Stmt.classDef ⟨1⟩ ⟨"C", ⟨0⟩, [], []⟩ [f]
  { (default : Tree) with body := [c], stmts := #[f, c] }

end PythonTypes
