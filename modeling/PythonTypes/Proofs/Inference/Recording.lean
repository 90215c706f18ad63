import PythonTypes.Proofs.Inference.Evaluation

/-!
# What is recorded while an expression is typed

With recording on, typing an expression records everything inside it, each expression behind its
parts and the expression itself last, and a member for each member access among them
(`typeOf_records_parts`). The order in which expressions are visited is that of `Expr.Visits`, which
counts them as `Expr.subexpressions` does.
-/

set_option autoImplicit false

namespace PythonTypes

namespace Expr

variable {es es' visited visited' : List Expr} {e : Expr}

/-- An order in which everything inside expressions may be visited: each behind its parts. -/
structure Visits (es visited : List Expr) : Prop where
  perm : visited.Perm (subexpressions es)
  wholes : es.Sublist visited
  parts : ∀ before x, before ++ [x] <+: visited → x.children.Sublist before

theorem subexpressions_append (xs ys : List Expr) : subexpressions (xs ++ ys) = subexpressions xs ++ subexpressions ys := by
  fun_induction subexpressions xs with
  | case1 => rfl
  | case2 e rest ih => grind [subexpressions]

theorem visits_nil : Visits [] [] := ⟨by rw [subexpressions], .slnil, by simp⟩

theorem Visits.append (h : Visits es visited) (h' : Visits es' visited') : Visits (es ++ es') (visited ++ visited') := by
  refine ⟨?_, h.wholes.append h'.wholes, fun before x hbefore => ?_⟩
  · rw [subexpressions_append]
    exact h.perm.append h'.perm
  · rcases List.prefix_or_prefix_of_prefix hbefore (List.prefix_append visited visited') with hfirst | hsecond
    · exact h.parts before x hfirst
    · rcases List.prefix_concat_iff.1 hsecond with rfl | ⟨between, rfl⟩
      · exact h.parts before x (List.prefix_refl _)
      · rw [List.append_assoc, List.prefix_append_right_inj] at hbefore
        exact (h'.parts between x hbefore).trans (List.sublist_append_right visited between)

/-- An expression is visited behind its parts. -/
theorem Visits.concat (h : Visits e.children visited) : Visits [e] (visited ++ [e]) := by
  refine ⟨?_, List.sublist_append_right _ _, fun before x hbefore => ?_⟩
  · rw [subexpressions, List.append_nil]
    exact List.perm_append_comm.trans (h.perm.cons e)
  · rcases List.prefix_concat_iff.1 hbefore with heq | hprefix
    · obtain ⟨rfl, hx⟩ := List.append_inj' heq rfl
      rw [List.singleton_inj.1 hx]
      exact h.wholes
    · exact h.parts before x hprefix

end Expr

namespace Typing

variable {s s' s'' : Typing} {tree : Tree} {env : Environment} {visited visited' : List Expr}

/-- The visited expressions have been recorded behind what was on record, and the member accesses
among them. -/
structure Records (s : Typing) (visited : List Expr) (s' : Typing) : Prop where
  recording : s'.recording = s.recording
  types : ∃ new, s'.types.toList = s.types.toList ++ new ∧ new.map Prod.fst = visited.map Expr.id
  members : ∃ new, s'.members.toList = s.members.toList ++ new ∧
    new.map Prod.fst = (visited.filter Expr.isQualified).map Expr.id

theorem Records.refl (s : Typing) : s.Records [] s := ⟨rfl, ⟨[], by simp⟩, ⟨[], by simp⟩⟩

theorem Records.trans (h : s.Records visited s') (h' : s'.Records visited' s'') : s.Records (visited ++ visited') s'' := by
  obtain ⟨hrecording, ⟨types, htypes, hids⟩, members, hmembers, haccesses⟩ := h
  obtain ⟨hrecording', ⟨types', htypes', hids'⟩, members', hmembers', haccesses'⟩ := h'
  exact ⟨hrecording'.trans hrecording, ⟨types ++ types', by simp [htypes', htypes], by simp [hids, hids']⟩,
    ⟨members ++ members', by simp [hmembers', hmembers], by simp [haccesses, haccesses']⟩⟩

/-- Settling the type of an expression records a member if the expression is a member access, and
nothing else. -/
theorem settle_state (tree : Tree) (env : Environment) (e : Expr) (ts : List TypeId) (s : Typing) :
    (settle tree env e ts s).2.recording = s.recording ∧ (settle tree env e ts s).2.types = s.types ∧
      ∃ new, (settle tree env e ts s).2.members.toList = s.members.toList ++ new ∧
        new.map Prod.fst = ([e].filter Expr.isQualified).map Expr.id := by
  cases e with
  | qualified id qualifier name =>
    have hmember : (memberOf (ts.getD 0 .unknown) name s).2.recording = s.recording ∧
        (memberOf (ts.getD 0 .unknown) name s).2.types = s.types ∧
          (memberOf (ts.getD 0 .unknown) name s).2.members = s.members := by
      rw [memberOf_apply]
      split <;> exact ⟨rfl, rfl, rfl⟩
    obtain ⟨hrecording, htypes, hmembers⟩ := hmember
    have happly : settle tree env (.qualified id qualifier name) ts s =
        memberType env id (memberOf (ts.getD 0 .unknown) name s).1 (memberOf (ts.getD 0 .unknown) name s).2 := rfl
    rw [happly]
    generalize memberOf (ts.getD 0 .unknown) name s = found at hrecording htypes hmembers
    refine ⟨?_, ?_, [(id, found.1)], ?_, rfl⟩
    · rw [memberType_apply]
      split <;> exact hrecording
    · rw [memberType_apply]
      split <;> exact htypes
    · rw [members_memberType, Array.toList_push, hmembers]
  | unary id op operand => cases op <;> exact ⟨rfl, rfl, [], (List.append_nil _).symm, rfl⟩
  | _ => exact ⟨rfl, rfl, [], (List.append_nil _).symm, rfl⟩

theorem recorded_recording {action : TypingM TypeId} (id : ExprId) (h : (action s).2.recording = true) :
    (recorded id action s).2.recording = true ∧ (recorded id action s).2.types =
    (action s).2.types.push (id, (action s).1) := by
  show (if (action s).2.recording then _ else _ : Typing).recording = true ∧
    (if (action s).2.recording then _ else _ : Typing).types = _
  rw [if_pos h]
  exact ⟨h, rfl⟩

theorem Records.settle (e : Expr) (ts : List TypeId) (hs : s.recording = true) :
    s.Records [e] (Typing.recorded e.id (Typing.settle tree env e ts) s).2 := by
  obtain ⟨hrecording, htypes, new, hmembers, haccesses⟩ := settle_state tree env e ts s
  obtain ⟨hon, hpush⟩ := recorded_recording e.id (hrecording.trans hs)
  refine ⟨hon.trans hs.symm, ⟨[(e.id, (Typing.settle tree env e ts s).1)], ?_, rfl⟩, new, ?_, haccesses⟩
  · rw [hpush, htypes, Array.toList_push]
  · rw [(recorded_state e.id _ s).2.1, hmembers]

theorem exists_visits (tree : Tree) (env : Environment) (e : Expr) : ∃ visited, Expr.Visits e.children visited ∧
    ∀ s : Typing, s.recording = true → s.Records (visited ++ [e]) (typeOf tree env e s).2 := by
  induction e using Expr.induction_children with
  | h e ih =>
    -- The parts are visited from left to right, each with its own parts.
    have heach : ∀ es : List Expr, es ⊆ e.children → ∃ visited, Expr.Visits es visited ∧
        ∀ s : Typing, s.recording = true → s.Records visited (typeEach tree env es s).2 := by
      intro es hes
      induction es with
      | nil => exact ⟨[], Expr.visits_nil, fun s _ => .refl s⟩
      | cons c rest ihrest =>
        obtain ⟨hc, hrest⟩ := List.cons_subset.1 hes
        obtain ⟨visited, hvisits, hrecords⟩ := ih c hc
        obtain ⟨visited', hvisits', hrecords'⟩ := ihrest hrest
        refine ⟨_, hvisits.concat.append hvisits', fun s hs => ?_⟩
        have hfirst := hrecords s hs
        rw [typeEach_cons]
        exact hfirst.trans (hrecords' _ (hfirst.recording.trans hs))
    obtain ⟨visited, hvisits, hrecords⟩ := heach e.children (List.Subset.refl _)
    refine ⟨visited, hvisits, fun s hs => ?_⟩
    have hparts := hrecords s hs
    rw [typeOf_eq]
    exact hparts.trans (.settle e _ (hparts.recording.trans hs))

/-- Typing an expression with recording on records everything inside it behind what was on record:
in some order in which each expression comes behind its parts and the whole comes last, each as
often as it is among the subexpressions; and one member for each member access, in the same
order. -/
theorem typeOf_records_parts (tree : Tree) (env : Environment) (e : Expr) (s : Typing) :
    let s' := (typeOf tree env e { s with recording := true }).2
    ∃ visited types members, s'.types.toList = s.types.toList ++ types ∧ s'.members.toList = s.members.toList ++ members ∧
      types.map Prod.fst = visited.map Expr.id ∧ members.map Prod.fst = (visited.filter Expr.isQualified).map Expr.id ∧
      visited.Perm (Expr.subexpressions [e]) ∧ (∀ before x, before ++ [x] <+: visited → x.children.Sublist before) ∧
      visited.getLast? = some e := by
  obtain ⟨visited, hvisits, hrecords⟩ := exists_visits tree env e
  obtain ⟨-, ⟨types, htypes, hids⟩, members, hmembers, haccesses⟩ := hrecords { s with recording := true } rfl
  exact ⟨_, types, members, htypes, hmembers, hids, haccesses, hvisits.concat.perm,
    hvisits.concat.parts, List.getLast?_concat⟩

end Typing

end PythonTypes
