import Mathlib.Algebra.BigOperators.Group.Finset.Basic
import Mathlib.Algebra.Order.BigOperators.Group.Finset
import Mathlib.Data.Fintype.BigOperators
import Mathlib.Logic.Function.Basic

/-!
# Tallies

Every member of a finite family, or every entry of a list, is in some local
state, and a local state counts for so much. The tally is what the whole
counts for.

* `tally_update`, `total_set`, `total_eraseIdx` — when one local state
  changes, the tally changes by as much as that state does;
* `le_tally` — a part counts for no more than the whole.

The equations are stated with sums on both sides, as `omega` reads them.
-/

namespace ThreadPool.Lib

variable {ι α : Type} [Fintype ι]

/-- What the members of a family count for together. -/
def tally (f : α → Nat) (g : ι → α) : Nat := ∑ i, f (g i)

variable {f : α → Nat} {g : ι → α}

/-- One member moves from `g i` to `x`. -/
theorem tally_update [DecidableEq ι] (f : α → Nat) (g : ι → α) (i : ι) (x : α) :
    tally f (Function.update g i x) + f (g i) = tally f g + f x := by
  have hNew := Finset.add_sum_erase Finset.univ (fun j => f (Function.update g i x j))
    (Finset.mem_univ i)
  have hOld := Finset.add_sum_erase Finset.univ (fun j => f (g j)) (Finset.mem_univ i)
  have hRest : ∑ j ∈ Finset.univ.erase i, f (Function.update g i x j) =
      ∑ j ∈ Finset.univ.erase i, f (g j) := by
    refine Finset.sum_congr rfl fun j hj => ?_
    rw [Function.update_of_ne (Finset.ne_of_mem_erase hj)]
  rw [Function.update_self, hRest] at hNew
  unfold tally
  omega

theorem le_tally (f : α → Nat) (g : ι → α) (i : ι) : f (g i) ≤ tally f g :=
  Finset.single_le_sum (f := fun j => f (g j)) (fun _ _ => Nat.zero_le _) (Finset.mem_univ i)

/-- Two members count for no more than all of them. -/
theorem add_le_tally [DecidableEq ι] (f : α → Nat) (g : ι → α) {i j : ι} (hNe : i ≠ j) :
    f (g i) + f (g j) ≤ tally f g := by
  have hRest := Finset.add_sum_erase Finset.univ (fun k => f (g k)) (Finset.mem_univ i)
  have hOne : f (g j) ≤ ∑ k ∈ Finset.univ.erase i, f (g k) :=
    Finset.single_le_sum (f := fun k => f (g k)) (fun _ _ => Nat.zero_le _)
      (Finset.mem_erase.mpr ⟨hNe.symm, Finset.mem_univ j⟩)
  unfold tally
  omega

/-- A tally of zeros and ones is a number of members. -/
theorem tally_le_card (h : ∀ x, f x ≤ 1) : tally f g ≤ Fintype.card ι := by
  have hSum := Finset.sum_le_card_nsmul Finset.univ (fun i => f (g i)) 1 fun i _ => h (g i)
  simpa [tally] using hSum

theorem tally_mono {f' : α → Nat} (h : ∀ x, f x ≤ f' x) : tally f g ≤ tally f' g :=
  Finset.sum_le_sum fun i _ => h (g i)

theorem tally_eq_zero (h : ∀ i, f (g i) = 0) : tally f g = 0 :=
  Finset.sum_eq_zero fun i _ => h i

/-- What counts for something is somewhere. -/
theorem exists_of_tally_pos (h : 0 < tally f g) : ∃ i, 0 < f (g i) := by
  by_contra hNone
  rw [tally_eq_zero fun i => Nat.eq_zero_of_not_pos fun hi => hNone ⟨i, hi⟩] at h
  exact Nat.lt_irrefl 0 h

/-- What a member counts for that may be missing. -/
def ifSome (f : α → Nat) : Option α → Nat
  | some x => f x
  | none => 0

theorem tally_congr {h : ι → α} {f' : α → Nat} (hEq : ∀ i, f (g i) = f' (h i)) :
    tally f g = tally f' h :=
  Finset.sum_congr rfl fun i _ => hEq i

theorem tally_add (f f' : α → Nat) (g : ι → α) :
    tally (fun x => f x + f' x) g = tally f g + tally f' g :=
  Finset.sum_add_distrib

-- ---------------------------------------------------------------------------
-- Lists
-- ---------------------------------------------------------------------------

/-- What the entries of a list count for together. -/
def total (f : α → Nat) : List α → Nat
  | [] => 0
  | x :: l => f x + total f l

@[simp] theorem total_nil (f : α → Nat) : total f [] = 0 := rfl

@[simp] theorem total_cons (f : α → Nat) (x : α) (l : List α) :
    total f (x :: l) = f x + total f l := rfl

@[simp] theorem total_append (f : α → Nat) (l m : List α) :
    total f (l ++ m) = total f l + total f m := by
  induction l with
  | nil => simp
  | cons x l ih =>
    rw [List.cons_append, total_cons, total_cons, ih]
    omega

/-- One entry moves from `x` to `y`. -/
theorem total_set {l : List α} {i : Nat} {x : α} (h : l[i]? = some x) (f : α → Nat) (y : α) :
    total f (l.set i y) + f x = total f l + f y := by
  induction l generalizing i with
  | nil => simp at h
  | cons z l ih =>
    cases i with
    | zero =>
      simp only [List.getElem?_cons_zero, Option.some.injEq] at h
      simp only [List.set_cons_zero, total_cons, h]
      omega
    | succ i =>
      have hRest := ih (by simpa using h)
      simp only [List.set_cons_succ, total_cons]
      omega

/-- One entry is taken out. -/
theorem total_eraseIdx {l : List α} {i : Nat} {x : α} (h : l[i]? = some x) (f : α → Nat) :
    total f (l.eraseIdx i) + f x = total f l := by
  induction l generalizing i with
  | nil => simp at h
  | cons z l ih =>
    cases i with
    | zero =>
      simp only [List.getElem?_cons_zero, Option.some.injEq] at h
      simp only [List.eraseIdx_cons_zero, total_cons, h]
      omega
    | succ i =>
      have hRest := ih (by simpa using h)
      simp only [List.eraseIdx_cons_succ, total_cons]
      omega

/-- What counts for something is at some position. -/
theorem exists_of_total_pos {l : List α} (h : 0 < total f l) :
    ∃ (i : Nat) (x : α), l[i]? = some x ∧ 0 < f x := by
  induction l with
  | nil => simp at h
  | cons x l ih =>
    by_cases hx : 0 < f x
    · exact ⟨0, x, rfl, hx⟩
    · rw [total_cons] at h
      obtain ⟨i, y, hi, hy⟩ := ih (by omega)
      exact ⟨i + 1, y, hi, hy⟩

end ThreadPool.Lib
