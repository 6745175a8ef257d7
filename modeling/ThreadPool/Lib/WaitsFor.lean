import Mathlib.Data.Fintype.Card
import Mathlib.Data.Set.Finite.Basic
import Mathlib.Logic.Relation
import Mathlib.Order.WellFounded

/-!
# Waits-for relations

Nodes each of which waits for at most one other node.

* `Acyclic.of_rank` — a rank that every wait lowers rules cycles out;
* `Acyclic.exists_free` — a finite set of nodes without a cycle holds a node
  that waits for none of the set: a set in which everybody waits for a
  member is a cycle or infinite.
-/

namespace ThreadPool.Lib

variable {α : Type} {waits : α → Option α}

/-- No node waits for itself, directly or through others. -/
def Acyclic (waits : α → Option α) : Prop :=
  ∀ a, ¬ Relation.TransGen (fun a b => waits a = some b) a a

theorem Acyclic.of_rank (rank : α → Nat) (h : ∀ a b, waits a = some b → rank b < rank a) :
    Acyclic waits := by
  have hLower : ∀ a b, Relation.TransGen (fun a b => waits a = some b) a b → rank b < rank a := by
    intro a b hPath
    induction hPath with
    | single hStep => exact h _ _ hStep
    | tail _ hStep ih => exact (h _ _ hStep).trans ih
  exact fun a hCycle => absurd (hLower a a hCycle) (Nat.lt_irrefl _)

theorem Acyclic.exists_free (h : Acyclic waits) {S : Set α} (hFinite : S.Finite)
    (hNonempty : S.Nonempty) : ∃ a ∈ S, ∀ b ∈ S, waits a ≠ some b := by
  -- inside `S` the relation "waits for, directly or through others" is well-founded
  let below : S → S → Prop := fun b a => Relation.TransGen (fun a b => waits a = some b) a.val b.val
  have hIrrefl : Std.Irrefl below := ⟨fun a => h a.val⟩
  have : Finite S := hFinite
  have hWf := Finite.wellFounded_of_trans_of_irrefl below
  obtain ⟨⟨a, ha⟩, -, hMin⟩ := hWf.has_min Set.univ ⟨⟨_, hNonempty.choose_spec⟩, trivial⟩
  exact ⟨a, ha, fun b hb hWaits => hMin ⟨b, hb⟩ trivial (.single hWaits)⟩

end ThreadPool.Lib
