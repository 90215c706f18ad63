import Mathlib.Data.Finset.Card
import Mathlib.Logic.Relation
import PythonTypes.Flow.Order

/-!
# What the depth-first walk visits

The reverse postorder lists the blocks that can be reached from the entry along edges, each of them
once, with the entry in front and the source of an edge before its target unless the edge is part of
a cycle. The walk is followed through its recursion by `Explores`: between two states it visits its
starting points and everything that can be reached from there without passing a block visited
before, and it finishes exactly the blocks that it visits. Its depth never runs out because every
level of the recursion visits a target of an edge that had not been visited. A block that is visited
and not finished is one that the walk is still inside of, so it leads to wherever the walk is: an
edge to it closes a cycle, and all other edges lead to finished blocks.
-/

set_option autoImplicit false

namespace PythonTypes.FlowGraph

variable {g : FlowGraph}

/-- Whether control can get from one block to another along edges. -/
def Reaches (g : FlowGraph) : BlockId → BlockId → Prop := Relation.ReflTransGen fun b c => c ∈ g.successors b

/-- Whether control can get from the entry to a block. -/
def Reachable (g : FlowGraph) (b : BlockId) : Prop := g.Reaches entry b

/-- The entry and the targets of all edges. -/
def targets (g : FlowGraph) : List BlockId := entry :: g.blocks.toList.flatMap Block.successors

theorem length_targets (g : FlowGraph) : g.targets.length = g.edgeCount + 1 := by
  rw [targets, edgeCount, List.length_cons]

theorem mem_targets_of_successor {b c : BlockId} (h : c ∈ g.successors b) : c ∈ g.targets := by
  unfold successors at h
  split at h
  · rename_i block hb
    have hmem : block ∈ g.blocks.toList := Array.mem_toList_iff.2 (Array.mem_of_getElem? hb)
    exact List.mem_cons_of_mem _ (List.mem_flatMap.2 ⟨block, hmem, h⟩)
  · simp at h

/-- How many targets a walk has not visited yet. -/
def unseen (g : FlowGraph) (w : Walk) : Nat := (g.targets.toFinset \ w.visited.toFinset).card

theorem unseen_le {w w' : Walk} (h : ∀ b ∈ w.visited, b ∈ w'.visited) : g.unseen w' ≤ g.unseen w := by
  apply Finset.card_le_card
  intro b hb
  simp only [Finset.mem_sdiff, List.mem_toFinset] at hb ⊢
  exact ⟨hb.1, fun hw => hb.2 (h b hw)⟩

theorem unseen_visit_lt {w : Walk} {b : BlockId} (hb : b ∈ g.targets) (hnew : b ∉ w.visited) :
    g.unseen { w with visited := b :: w.visited } < g.unseen w := by
  apply Finset.card_lt_card
  rw [Finset.ssubset_iff_of_subset]
  · exact ⟨b, by simp [hb, hnew], by simp⟩
  · simp_all

/-- Whether every edge out of a listed block leads to one that is listed after it, or is part of a
cycle. -/
def InOrder (g : FlowGraph) (listed : List BlockId) : Prop :=
  ∀ before b after, listed = before ++ b :: after → ∀ c ∈ g.successors b, ¬ g.Reaches c b → c ∈ after

theorem inOrder_nil : g.InOrder [] := by
  intro before b after h
  simp at h

theorem InOrder.cons {b : BlockId} {listed : List BlockId} (h : g.InOrder listed)
    (hb : ∀ c ∈ g.successors b, ¬ g.Reaches c b → c ∈ listed) : g.InOrder (b :: listed) := by
  intro before d after heq
  rcases List.cons_eq_append_iff.1 heq with ⟨-, hhead⟩ | ⟨before', -, hrest⟩
  · simp_all
  · exact h before' d after hrest

/-- What a walk does between two states when it sets out from some blocks. -/
structure Explores (g : FlowGraph) (starts : List BlockId) (w w' : Walk) : Prop where
  grows : ∀ b ∈ w.visited, b ∈ w'.visited
  starts_visited : ∀ b ∈ starts, b ∈ w'.visited
  closed : ∀ b ∈ w'.visited, b ∉ w.visited → ∀ c ∈ g.successors b, c ∈ w'.visited
  reached : ∀ b ∈ w'.visited, b ∈ w.visited ∨ ∃ c ∈ starts, g.Reaches c b
  finished : ∀ b, b ∈ w'.finished ↔ b ∈ w.finished ∨ (b ∈ w'.visited ∧ b ∉ w.visited)
  nodup : w.finished.Nodup → (∀ b ∈ w.finished, b ∈ w.visited) → w'.finished.Nodup
  inOrder : (∀ b ∈ w.visited, b ∉ w.finished → ∀ c ∈ starts, g.Reaches b c) → g.InOrder w.finished → g.InOrder w'.finished

namespace Explores

variable {w w1 w2 : Walk}

theorem of_all_visited {starts : List BlockId} (h : ∀ b ∈ starts, b ∈ w.visited) : g.Explores starts w w where
  grows := fun _ hb => hb
  starts_visited := h
  closed := fun _ hb hnew => absurd hb hnew
  reached := fun _ hb => .inl hb
  finished := fun b => by tauto
  nodup := fun h _ => h
  inOrder := fun _ h => h

theorem trans {starts1 starts2 : List BlockId} (h1 : g.Explores starts1 w w1)
    (h2 : g.Explores starts2 w1 w2) : g.Explores (starts1 ++ starts2) w w2 := by
  refine ⟨fun b hb => h2.grows b (h1.grows b hb), ?_, ?_, ?_, ?_, ?_, ?_⟩
  · grind [grows, starts_visited]
  · grind [grows, closed]
  · grind [reached]
  · intro b
    have hgrow := h2.grows b
    have hgrow' := h1.grows b
    rw [h2.finished, h1.finished]
    tauto
  · grind [nodup, finished, grows]
  · grind [inOrder, finished]

/-- Visiting a block: it is finished after all that its successors lead to. -/
theorem visit {b : BlockId} (hnew : b ∉ w.visited) (h : g.Explores (g.successors b) { w with visited := b :: w.visited } w1) :
    g.Explores [b] w { w1 with finished := b :: w1.finished } := by
  have hb : b ∈ w1.visited := h.grows b (by simp)
  refine ⟨fun c hc => h.grows c (List.mem_cons_of_mem _ hc), by simpa using hb, ?_, ?_, ?_, ?_, ?_⟩
  · grind [starts_visited, closed]
  · intro c hc
    rcases h.reached c hc with hmid | ⟨d, hd, hdc⟩
    · rcases List.mem_cons.1 hmid with rfl | hw
      · exact .inr ⟨c, by simp, .refl⟩
      · exact .inl hw
    · exact .inr ⟨b, by simp, .head hd hdc⟩
  · intro c
    rw [List.mem_cons, h.finished]
    grind
  · intro hnodup hsub
    refine List.nodup_cons.2 ⟨?_, h.nodup hnodup fun c hc => List.mem_cons_of_mem _ (hsub c hc)⟩
    intro hfin
    rcases (h.finished b).1 hfin with hw | ⟨-, hnot⟩
    · exact hnew (hsub b hw)
    · exact hnot (by simp)
  · intro hopen hinOrder
    have hreaches : ∀ c ∈ b :: w.visited, c ∉ w.finished → g.Reaches c b := by
      intro c hc hunfinished
      rcases List.mem_cons.1 hc with rfl | hc
      · exact .refl
      · exact hopen c hc hunfinished b (by simp)
    refine (h.inOrder (fun c hc hunfinished d hd => (hreaches c hc hunfinished).tail hd)
      hinOrder).cons fun c hc hacyclic => ?_
    by_contra hunfinished
    rw [h.finished] at hunfinished
    grind [starts_visited]

end Explores

/-- The walk explores from a block as long as its depth is no less than the number of targets that
are left. -/
theorem explores_walkWithin (g : FlowGraph) (depth : Nat) (b : BlockId) (w : Walk) (hb : b ∈ g.targets)
    (hdepth : g.unseen w ≤ depth) : g.Explores [b] w (g.walkWithin depth b w) := by
  induction depth generalizing b w with
  | zero =>
    have hnone := Finset.card_eq_zero.1 (Nat.le_zero.1 hdepth)
    have hvisited : b ∈ w.visited := by
      by_contra hnew
      have hmem : b ∈ g.targets.toFinset \ w.visited.toFinset := by simp [hb, hnew]
      simp [hnone] at hmem
    exact .of_all_visited (by simpa using hvisited)
  | succ depth ih =>
    have hfold : ∀ (starts : List BlockId) (w : Walk), (∀ c ∈ starts, c ∈ g.targets) → g.unseen w ≤ depth →
        g.Explores starts w (starts.foldl (fun w next => g.walkWithin depth next w) w) := by
      intro starts
      induction starts with
      | nil => exact fun w _ _ => .of_all_visited (by simp)
      | cons c rest ihrest =>
        intro w hstarts hle
        have hc := ih c w (hstarts c (by simp)) hle
        have hrest := ihrest (g.walkWithin depth c w)
          (fun d hd => hstarts d (List.mem_cons_of_mem _ hd)) ((unseen_le hc.grows).trans hle)
        exact hc.trans hrest
    unfold walkWithin
    by_cases hvisited : b ∈ w.visited
    · grind [Explores.of_all_visited]
    · simp only [List.contains_iff_mem, hvisited, if_false]
      apply Explores.visit hvisited
      apply hfold
      · exact fun c hc => mem_targets_of_successor hc
      · have := unseen_visit_lt hb hvisited
        omega

theorem explores_reversePostorder (g : FlowGraph) : g.Explores [entry] {} (g.walkWithin g.walkDepth entry {}) := by
  apply explores_walkWithin
  · simp [targets]
  · have hcard : g.unseen {} ≤ g.targets.length := by
      simpa [unseen] using List.toFinset_card_le g.targets
    grind [walkDepth, length_targets]

theorem mem_reversePostorder_iff (g : FlowGraph) (b : BlockId) : b ∈ g.reversePostorder ↔ g.Reachable b := by
  have h := g.explores_reversePostorder
  have hfin : b ∈ g.reversePostorder ↔ b ∈ (g.walkWithin g.walkDepth entry {}).visited := by
    unfold reversePostorder
    rw [h.finished]
    simp
  rw [hfin]
  clear hfin
  constructor
  · intro hb
    rcases h.reached b hb with hnone | ⟨c, hc, hcb⟩
    · simp at hnone
    · obtain rfl := List.mem_singleton.1 hc
      exact hcb
  · intro hb
    induction hb with
    | refl => exact h.starts_visited entry (by simp)
    | tail _ hstep ih => exact h.closed _ ih (by simp) _ hstep

theorem nodup_reversePostorder (g : FlowGraph) : g.reversePostorder.Nodup :=
  g.explores_reversePostorder.nodup List.nodup_nil (by simp)

theorem inOrder_reversePostorder (g : FlowGraph) : g.InOrder g.reversePostorder :=
  g.explores_reversePostorder.inOrder (by simp) inOrder_nil

theorem head?_reversePostorder (g : FlowGraph) : g.reversePostorder.head? = some entry := by
  rfl

/-- The reverse postorder lists exactly the blocks that are reachable from the entry, each once,
beginning with the entry. Along every edge between listed blocks that does not lead back, the source
comes before the target. -/
theorem reversePostorder_follows_control (g : FlowGraph) :
    (∀ b, b ∈ g.reversePostorder ↔ g.Reachable b) ∧ g.reversePostorder.Nodup ∧ g.reversePostorder.head? = some entry ∧
      ∀ u ∈ g.reversePostorder, ∀ v ∈ g.reversePostorder, v ∈ g.successors u → ¬ g.Reaches v u →
        g.reversePostorder.idxOf u < g.reversePostorder.idxOf v := by
  refine ⟨g.mem_reversePostorder_iff, g.nodup_reversePostorder, g.head?_reversePostorder, fun u hu v _ hedge hacyclic => ?_⟩
  have hnodup := g.nodup_reversePostorder
  obtain ⟨before, after, heq⟩ := List.append_of_mem hu
  have hv : v ∈ after := g.inOrder_reversePostorder before u after heq v hedge hacyclic
  rw [heq] at hnodup ⊢
  have hdisjoint := List.disjoint_of_nodup_append hnodup
  have hu' : u ∉ before := fun h => hdisjoint h (by simp)
  have hv' : v ∉ before := fun h => hdisjoint h (by simp [hv])
  have hne : u ≠ v := by
    rintro rfl
    exact (List.nodup_cons.1 (List.nodup_append.1 hnodup).2.1).1 hv
  rw [List.idxOf_append_of_notMem hu', List.idxOf_append_of_notMem hv', List.idxOf_cons_self, List.idxOf_cons_ne _ hne]
  omega

end PythonTypes.FlowGraph
