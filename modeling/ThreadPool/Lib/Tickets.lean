import Mathlib.Data.Finset.Card
import Mathlib.Data.Finset.Max
import Mathlib.Order.Interval.Finset.Nat

/-!
# Tickets for a supply that grows

Tickets `0, 1, 2, …` are issued without a look at the supply, in batches. The
holder of a batch later learns how many of its tickets are good: as far as it
can tell, ticket `t` is good when fewer than `supply` tickets before it are,
and what it can tell is only a lower bound on the tickets before it that have
failed.

* `Fair.card_won_le` — the good tickets are never more than the supply;
* `Fair.decide` — the decision of one holder keeps the books fair, whatever
  the others have decided since it looked;
* `Fair.issue`, `Fair.restock` — so do more tickets and more supply.
-/

namespace ThreadPool.Lib

/-- The failed tickets up to `t`. -/
def failedUpTo (failed : Finset Nat) (t : Nat) : Nat := (failed.filter (· ≤ t)).card

/-- The failed tickets before `t`. -/
def failedBefore (failed : Finset Nat) (t : Nat) : Nat := (failed.filter (· < t)).card

/-- The tickets decided so far, of those issued: each good one had a place in
the supply, the failed ones before it left out. -/
structure Fair (issued supply : Nat) (won failed : Finset Nat) : Prop where
  won_lt : ∀ t ∈ won, t < issued
  failed_lt : ∀ t ∈ failed, t < issued
  disjoint : Disjoint won failed
  within : ∀ t ∈ won, t + 1 ≤ supply + failedUpTo failed t

variable {issued supply : Nat} {won failed : Finset Nat}

theorem Fair.empty (issued supply : Nat) : Fair issued supply ∅ ∅ where
  won_lt t h := by simp at h
  failed_lt t h := by simp at h
  disjoint := Finset.disjoint_empty_left _
  within t h := by simp at h

theorem failedUpTo_mono {failed' : Finset Nat} (hSub : failed ⊆ failed') (t : Nat) :
    failedUpTo failed t ≤ failedUpTo failed' t :=
  Finset.card_le_card (Finset.filter_subset_filter _ hSub)

theorem failedBefore_mono {failed' : Finset Nat} (hSub : failed ⊆ failed') (t : Nat) :
    failedBefore failed t ≤ failedBefore failed' t :=
  Finset.card_le_card (Finset.filter_subset_filter _ hSub)

theorem failedBefore_le_upTo {t u : Nat} (hLe : t ≤ u) :
    failedBefore failed t ≤ failedUpTo failed u := by
  refine Finset.card_le_card fun x hx => ?_
  rw [Finset.mem_filter] at hx ⊢
  exact ⟨hx.1, by omega⟩

/-- All failed tickets are before the next one. -/
theorem Fair.failedBefore_issued (h : Fair issued supply won failed) :
    failedBefore failed issued = failed.card := by
  unfold failedBefore
  rw [Finset.filter_true_of_mem h.failed_lt]

/-- **No more winners than supply.** -/
theorem Fair.card_won_le (h : Fair issued supply won failed) : won.card ≤ supply := by
  by_cases hNone : won = ∅
  · simp [hNone]
  · -- up to the last good ticket every ticket counted is good or failed, not both
    let last := won.max' (Finset.nonempty_iff_ne_empty.mpr hNone)
    have hLast : last ∈ won := Finset.max'_mem ..
    have hSub : won ∪ failed.filter (· ≤ last) ⊆ Finset.range (last + 1) := by
      intro t ht
      rw [Finset.mem_range]
      rcases Finset.mem_union.mp ht with hWon | hFailed
      · exact Nat.lt_succ_of_le (Finset.le_max' won t hWon)
      · exact Nat.lt_succ_of_le (Finset.mem_filter.mp hFailed).2
    have hCard := Finset.card_le_card hSub
    rw [Finset.card_union_of_disjoint (h.disjoint.mono_right (Finset.filter_subset _ _)),
      Finset.card_range] at hCard
    have hWithin := h.within last hLast
    unfold failedUpTo at hWithin
    omega

theorem Fair.issue (h : Fair issued supply won failed) (more : Nat) :
    Fair (issued + more) supply won failed where
  won_lt t ht := Nat.lt_add_right more (h.won_lt t ht)
  failed_lt t ht := Nat.lt_add_right more (h.failed_lt t ht)
  disjoint := h.disjoint
  within := h.within

theorem Fair.restock (h : Fair issued supply won failed) (more : Nat) :
    Fair issued (supply + more) won failed where
  won_lt := h.won_lt
  failed_lt := h.failed_lt
  disjoint := h.disjoint
  within t ht := by
    have hWithin := h.within t ht
    omega

/-- The tickets from `first` on, `count` of them. -/
def batch (first count : Nat) : Finset Nat := Finset.Ico first (first + count)

theorem mem_batch {first count t : Nat} : t ∈ batch first count ↔ first ≤ t ∧ t < first + count :=
  Finset.mem_Ico

@[simp] theorem card_batch (first count : Nat) : (batch first count).card = count := by
  simp [batch]

/-- **One decision.** The holder of `first, …, first + count - 1` takes the
first `good` of them, which it may if they fit into the supply when only `seen`
tickets before them have failed, and not fewer have. -/
theorem Fair.decide (h : Fair issued supply won failed) {first count good seen : Nat}
    (hIssued : first + count ≤ issued)
    (hOpen : ∀ t ∈ batch first count, t ∉ won ∧ t ∉ failed)
    (hSeen : seen ≤ failedBefore failed first) (hGood : good ≤ count)
    (hFits : 0 < good → first + good ≤ supply + seen) :
    Fair issued supply (won ∪ batch first good) (failed ∪ batch (first + good) (count - good)) where
  won_lt t ht := by
    rcases Finset.mem_union.mp ht with hOld | hNew
    · exact h.won_lt t hOld
    · have hBatch := mem_batch.mp hNew
      omega
  failed_lt t ht := by
    rcases Finset.mem_union.mp ht with hOld | hNew
    · exact h.failed_lt t hOld
    · have hBatch := mem_batch.mp hNew
      omega
  disjoint := by
    rw [Finset.disjoint_left]
    intro t hWon hFailed
    rcases Finset.mem_union.mp hWon with hOld | hNew
    · rcases Finset.mem_union.mp hFailed with hOldFailed | hNewFailed
      · exact Finset.disjoint_left.mp h.disjoint hOld hOldFailed
      · have hBatch := mem_batch.mp hNewFailed
        exact (hOpen t (mem_batch.mpr (by omega))).1 hOld
    · have hBatch := mem_batch.mp hNew
      rcases Finset.mem_union.mp hFailed with hOldFailed | hNewFailed
      · exact (hOpen t (mem_batch.mpr (by omega))).2 hOldFailed
      · have hBatch' := mem_batch.mp hNewFailed
        omega
  within t ht := by
    have hMore : failedUpTo failed t ≤
        failedUpTo (failed ∪ batch (first + good) (count - good)) t :=
      failedUpTo_mono Finset.subset_union_left t
    rcases Finset.mem_union.mp ht with hOld | hNew
    · have hWithin := h.within t hOld
      omega
    · have hBatch := mem_batch.mp hNew
      have hPlace := hFits (by omega)
      have hBefore : failedBefore failed first ≤ failedUpTo failed t :=
        failedBefore_le_upTo hBatch.1
      omega

/-- What one decision adds. -/
theorem card_union_batch {s : Finset Nat} {first count : Nat}
    (hNew : ∀ t ∈ batch first count, t ∉ s) : (s ∪ batch first count).card = s.card + count := by
  rw [Finset.card_union_of_disjoint, card_batch]
  rw [Finset.disjoint_left]
  exact fun t hs ht => hNew t ht hs

end ThreadPool.Lib
