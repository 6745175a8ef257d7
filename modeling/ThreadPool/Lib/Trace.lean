import Mathlib.Data.List.Basic
import Mathlib.Data.List.Pairwise

/-!
# Traces

A trace is the list of the events of a run, oldest first. Two notions that
grow with a trace one event at a time:

* `Always P h` — every event of `h` satisfies `P` against the events before
  it;
* `since p h` — the events of `h` after the last one that satisfies `p`.
-/

namespace ThreadPool.Lib

variable {E : Type}

/-- Every event of the trace satisfies `P` against its past. -/
def Always (P : List E → E → Prop) (h : List E) : Prop :=
  ∀ ⦃past : List E⦄ ⦃e : E⦄ ⦃future : List E⦄, h = past ++ e :: future → P past e

theorem Always.nil {P : List E → E → Prop} : Always P [] := by
  intro past e future h
  simp at h

/-- A trace grows by one event. -/
theorem Always.snoc {P : List E → E → Prop} {h : List E} {e : E}
    (hAlways : Always P h) (hNew : P h e) : Always P (h ++ [e]) := by
  intro past x future hEq
  rcases List.eq_nil_or_concat future with rfl | ⟨rest, last, rfl⟩
  · -- the new event itself
    obtain ⟨rfl, hx⟩ := List.append_inj' hEq rfl
    rw [List.cons.injEq] at hx
    exact hx.1 ▸ hNew
  · -- an event of the old trace
    rw [List.concat_eq_append, ← List.cons_append, ← List.append_assoc] at hEq
    exact hAlways (List.append_inj' hEq rfl).1

/-- The events after the last one that satisfies `p`; all of them if none does. -/
def since (p : E → Bool) (h : List E) : List E :=
  (h.reverse.takeWhile fun e => !p e).reverse

theorem since_snoc_of_pos {p : E → Bool} {h : List E} {e : E} (he : p e = true) :
    since p (h ++ [e]) = [] := by
  simp [since, he]

theorem since_snoc_of_neg {p : E → Bool} {h : List E} {e : E} (he : p e = false) :
    since p (h ++ [e]) = since p h ++ [e] := by
  simp [since, he]

theorem since_suffix (p : E → Bool) (h : List E) : since p h <:+ h := by
  rw [since, ← List.reverse_prefix, List.reverse_reverse]
  exact List.takeWhile_prefix _

end ThreadPool.Lib
