import Mathlib.Data.List.Basic
import Mathlib.Data.List.Perm.Basic
import Mathlib.Data.Nat.Init

/-!
# Trees in level order

Finite trees of any shape, and forests of them as lists.

* `nodes` lists the nodes of a forest, each with its subtree, depth first;
* `level k` is the `k`-th level, `levelOrder` the levels one after the other;
* `levelOrder_perm` — level order visits the nodes of the forest and nothing
  else, each as often as it occurs;
* `levelOrder_cons` — a FIFO queue that replaces its front by the children of
  the front, put at its end, goes through the forest in level order;
* `length_nodes_rotate` — and gets through it, for a node less remains.
-/

namespace ThreadPool.Lib

/-- A label and any number of subtrees. -/
inductive RoseTree (α : Type)
  | node (label : α) (children : List (RoseTree α))

namespace RoseTree

variable {α : Type}

def label : RoseTree α → α
  | node a _ => a

def children : RoseTree α → List (RoseTree α)
  | node _ ts => ts

mutual

/-- The nodes of a tree, each as the subtree below it. -/
def subtrees : RoseTree α → List (RoseTree α)
  | node a ts => node a ts :: nodes ts

/-- The nodes of a forest, depth first. -/
def nodes : List (RoseTree α) → List (RoseTree α)
  | [] => []
  | t :: ts => subtrees t ++ nodes ts

end

/-- The roots one level down. -/
def nextLevel (f : List (RoseTree α)) : List (RoseTree α) := f.flatMap children

def level : Nat → List (RoseTree α) → List (RoseTree α)
  | 0, f => f
  | k + 1, f => level k (nextLevel f)

/-- The levels one after the other; there are no more of them than nodes. -/
def levelOrder (f : List (RoseTree α)) : List (RoseTree α) :=
  (List.range (nodes f).length).flatMap fun k => level k f

variable (t : RoseTree α) (f g : List (RoseTree α))

-- ---------------------------------------------------------------------------
-- Nodes
-- ---------------------------------------------------------------------------

@[simp] theorem nodes_nil : nodes ([] : List (RoseTree α)) = [] := by
  rw [nodes]

theorem nodes_cons : nodes (t :: f) = t :: nodes t.children ++ nodes f := by
  cases t with
  | node a ts => rw [nodes, subtrees, children]

theorem nodes_append : nodes (f ++ g) = nodes f ++ nodes g := by
  induction f with
  | nil => simp
  | cons t f ih => rw [List.cons_append, nodes, nodes, ih, List.append_assoc]

theorem nextLevel_append : nextLevel (f ++ g) = nextLevel f ++ nextLevel g :=
  List.flatMap_append

/-- The nodes of a forest are its roots and the nodes below. -/
theorem nodes_perm : (nodes f).Perm (f ++ nodes (nextLevel f)) := by
  induction f with
  | nil => simp [nextLevel]
  | cons t f ih =>
    have hNext : nextLevel (t :: f) = t.children ++ nextLevel f := List.flatMap_cons ..
    rw [nodes_cons, hNext, nodes_append, List.cons_append, List.cons_append]
    -- the roots after `t` move to the front of what is below `t`
    refine List.Perm.cons t ?_
    refine (ih.append_left _).trans ?_
    rw [← List.append_assoc, ← List.append_assoc]
    exact List.perm_append_comm.append_right _

theorem length_nodes : (nodes f).length = f.length + (nodes (nextLevel f)).length := by
  rw [(nodes_perm f).length_eq, List.length_append]

/-- Below the roots there is less. -/
theorem length_nextLevel_lt (hSome : f ≠ []) :
    (nodes (nextLevel f)).length < (nodes f).length := by
  have hRoots := length_nodes f
  have hPos : 0 < f.length := List.length_pos_iff.mpr hSome
  omega

/-- One node is gone when the front of a queue is replaced by its children. -/
theorem length_nodes_rotate :
    (nodes (f ++ t.children)).length + 1 = (nodes (t :: f)).length := by
  rw [nodes_append, nodes_cons, List.length_append, List.length_append, List.length_cons]
  omega

-- ---------------------------------------------------------------------------
-- Levels
-- ---------------------------------------------------------------------------

/-- There is no level at a depth from the number of nodes on. -/
theorem level_eq_nil {k : Nat} (hDeep : (nodes f).length ≤ k) : level k f = [] := by
  induction k generalizing f with
  | zero =>
    have hRoots := length_nodes f
    have hNone : f.length = 0 := by omega
    exact List.length_eq_zero_iff.mp hNone
  | succ k ih =>
    refine ih (nextLevel f) ?_
    rcases eq_or_ne f [] with rfl | hSome
    · simp [nextLevel]
    · have hLess := length_nextLevel_lt f hSome
      omega

/-- Any bound from the number of nodes on gives the same levels. -/
theorem flatMap_level {m : Nat} (hLe : (nodes f).length ≤ m) :
    ((List.range m).flatMap fun k => level k f) = levelOrder f := by
  induction m with
  | zero =>
    rw [levelOrder, Nat.le_zero.mp hLe]
  | succ m ih =>
    rcases Nat.eq_or_lt_of_le hLe with hEq | hLt
    · rw [levelOrder, hEq]
    · have hOld : (nodes f).length ≤ m := by omega
      rw [List.range_succ, List.flatMap_append, ih hOld, List.flatMap_singleton,
        level_eq_nil f hOld, List.append_nil]

@[simp] theorem levelOrder_nil : levelOrder ([] : List (RoseTree α)) = [] := by
  simp [levelOrder]

/-- The roots come first, then the levels below. -/
theorem levelOrder_eq : levelOrder f = f ++ levelOrder (nextLevel f) := by
  rcases eq_or_ne f [] with rfl | hSome
  · simp [nextLevel]
  have hLess := length_nextLevel_lt f hSome
  obtain ⟨m, hm⟩ : ∃ m, (nodes f).length = m + 1 := ⟨(nodes f).length - 1, by omega⟩
  have hLe : (nodes (nextLevel f)).length ≤ m := by omega
  -- level 0 comes off the range, and level `k + 1` is level `k` of what is below
  rw [levelOrder, hm, List.range_succ_eq_map, List.flatMap_cons, List.flatMap_map,
    ← flatMap_level _ hLe]
  rfl

/-- Induction over the levels of a forest. -/
theorem level_induction {P : List (RoseTree α) → Prop} (hNil : P [])
    (hNext : ∀ f, f ≠ [] → P (nextLevel f) → P f) : P f := by
  -- by the number of nodes, of which every level but an empty one has some
  induction hSize : (nodes f).length using Nat.strong_induction_on generalizing f with
  | _ m ih =>
    rcases eq_or_ne f [] with rfl | hSome
    · exact hNil
    · refine hNext f hSome (ih _ ?_ _ rfl)
      rw [← hSize]
      exact length_nextLevel_lt f hSome

/-- **Level order visits every node once.** -/
theorem levelOrder_perm : (levelOrder f).Perm (nodes f) := by
  induction f using level_induction with
  | hNil => simp
  | hNext f _ ih =>
    rw [levelOrder_eq]
    exact (ih.append_left f).trans (nodes_perm f).symm

/-- The front of a forest can be visited before the rest of it is looked at:
what is below the front then comes after the rest. -/
theorem levelOrder_append : levelOrder (f ++ g) = f ++ levelOrder (g ++ nextLevel f) := by
  induction hForest : f ++ g using level_induction generalizing f g with
  | hNil =>
    obtain ⟨rfl, rfl⟩ := List.append_eq_nil_iff.mp hForest
    simp [nextLevel]
  | hNext h _ ih =>
    subst hForest
    -- one level down the same holds of what is below `f` and below `g`
    have hDown := ih (nextLevel f) (nextLevel g) (nextLevel_append f g).symm
    calc levelOrder (f ++ g) = (f ++ g) ++ levelOrder (nextLevel (f ++ g)) := levelOrder_eq _
      _ = (f ++ g) ++ (nextLevel f ++ levelOrder (nextLevel g ++ nextLevel (nextLevel f))) := by
        rw [hDown]
      _ = f ++ ((g ++ nextLevel f) ++ levelOrder (nextLevel (g ++ nextLevel f))) := by
        rw [nextLevel_append, List.append_assoc, List.append_assoc]
      _ = f ++ levelOrder (g ++ nextLevel f) := by rw [← levelOrder_eq]

/-- **A FIFO queue goes through a forest in level order.** -/
theorem levelOrder_cons : levelOrder (t :: f) = t :: levelOrder (f ++ t.children) := by
  have hFront := levelOrder_append [t] f
  simpa [nextLevel] using hFront

end RoseTree

end ThreadPool.Lib
