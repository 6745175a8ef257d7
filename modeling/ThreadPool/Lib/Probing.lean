import Mathlib.Data.Finset.Card
import Mathlib.Data.Nat.ModEq
import Mathlib.Logic.Function.Basic

/-!
# Linear probing

Keys in an array of `n` places, each at the first place that is free when one
looks at the places one after the other, round and round, from the hash of the
key on. Keys are never taken out. The array may get more keys while a search is
under way: what a search has seen stays true (`Seen.mono`).

* `Addressed` — every key is there once, and where a search finds it;
* `Addressed.absent` — a search that comes to a free place has not missed the
  key;
* `Addressed.insert` — a key put where its search has come to a free place;
* `Addressed.exists_free`, `Seen.lt` — a search does not go round for ever;
* `Ranked` — keys that got a number when they came are few below any number.
-/

namespace ThreadPool.Lib

/-- The place that is looked at after `j` others. -/
def probe (n h j : Nat) : Nat := (h + j) % n

theorem probe_lt {n : Nat} (hn : 0 < n) (h j : Nat) : probe n h j < n := Nat.mod_lt _ hn

theorem probe_succ (n h j : Nat) : (probe n h j + 1) % n = probe n h (j + 1) := by
  unfold probe
  rw [Nat.mod_add_mod, Nat.add_assoc]

theorem probe_injOn {n h i j : Nat} (hi : i < n) (hj : j < n) (hEq : probe n h i = probe n h j) :
    i = j := by
  have hMod : i ≡ j [MOD n] := Nat.ModEq.add_left_cancel' h hEq
  exact Nat.ModEq.eq_of_lt_of_lt hMod hi hj

/-- How many places are looked at before place `x`. -/
def position (n h x : Nat) : Nat := (x + (n - h % n)) % n

theorem position_lt {n : Nat} (hn : 0 < n) (h x : Nat) : position n h x < n := Nat.mod_lt _ hn

theorem probe_position {n x : Nat} (h : Nat) (hx : x < n) : probe n h (position n h x) = x := by
  have hMod := Nat.mod_lt h (Nat.zero_lt_of_lt hx)
  unfold probe position
  rw [Nat.add_mod_mod, Nat.add_mod, ← Nat.add_mod_mod (h % n), Nat.mod_mod, Nat.add_mod_mod,
    show h % n + (x + (n - h % n)) = x + n by omega, Nat.add_mod_right, Nat.mod_eq_of_lt hx]

theorem position_probe {n j : Nat} (h : Nat) (hj : j < n) : position n h (probe n h j) = j := by
  have hn := Nat.zero_lt_of_lt hj
  exact probe_injOn (position_lt hn ..) hj (probe_position h (probe_lt hn ..))

/-- Every place is looked at in one round. -/
theorem exists_probe {n x : Nat} (h : Nat) (hx : x < n) : ∃ j, j < n ∧ probe n h j = x :=
  ⟨position n h x, position_lt (Nat.zero_lt_of_lt hx) .., probe_position h hx⟩

-- ---------------------------------------------------------------------------
-- Searches
-- ---------------------------------------------------------------------------

variable {K : Type} {key key' : Nat → Option K} {n h j : Nat} {k : K}

/-- The first `j` places have other keys. -/
def Seen (key : Nat → Option K) (n h : Nat) (k : K) (j : Nat) : Prop :=
  ∀ i, i < j → ∃ k', key (probe n h i) = some k' ∧ k' ≠ k

theorem Seen.zero (key : Nat → Option K) (n h : Nat) (k : K) : Seen key n h k 0 :=
  fun i hi => absurd hi (Nat.not_lt_zero i)

theorem Seen.succ (hSeen : Seen key n h k j) {k' : K} (hThis : key (probe n h j) = some k')
    (hNe : k' ≠ k) : Seen key n h k (j + 1) := by
  intro i hi
  rcases Nat.lt_succ_iff_lt_or_eq.mp hi with hOld | rfl
  · exact hSeen i hOld
  · exact ⟨k', hThis, hNe⟩

theorem Seen.mono (hSeen : Seen key n h k j)
    (hKeys : ∀ x k', key x = some k' → key' x = some k') : Seen key' n h k j := by
  intro i hi
  obtain ⟨k', hThis, hNe⟩ := hSeen i hi
  exact ⟨k', hKeys _ k' hThis, hNe⟩

/-- A search ends before a place that is free or has its key. -/
theorem Seen.lt (hSeen : Seen key n h k j) {x : Nat} (hx : x < n)
    (hEnd : ∀ k', key x = some k' → k' = k) : j < n := by
  obtain ⟨i, hi, rfl⟩ := exists_probe h hx
  by_contra hNot
  obtain ⟨k', hThis, hNe⟩ := hSeen i (by omega)
  exact hNe (hEnd k' hThis)

-- ---------------------------------------------------------------------------
-- Arrays
-- ---------------------------------------------------------------------------

/-- Every key is there once, and the places that its search looks at before are
taken. -/
structure Addressed (key : Nat → Option K) (n : Nat) (hash : K → Nat) : Prop where
  lt : ∀ x k, key x = some k → x < n
  once : ∀ x y k, key x = some k → key y = some k → x = y
  placed : ∀ x k, key x = some k → ∃ j, j < n ∧ probe n (hash k) j = x ∧
    ∀ i, i < j → key (probe n (hash k) i) ≠ none

variable {hash : K → Nat}

theorem Addressed.empty (n : Nat) (hash : K → Nat) : Addressed (fun _ => none) n hash := by
  refine ⟨?_, ?_, ?_⟩
  · intro x k hKey
    cases hKey
  · intro x y k hKey
    cases hKey
  · intro x k hKey
    cases hKey

/-- A key that has not been found is not there. -/
theorem Addressed.absent (hKeys : Addressed key n hash) (hSeen : Seen key n (hash k) k j)
    (hFree : key (probe n (hash k) j) = none) (x : Nat) : key x ≠ some k := by
  intro hx
  obtain ⟨i, hi, rfl, hBefore⟩ := hKeys.placed x k hx
  rcases Nat.lt_trichotomy i j with hLt | rfl | hGt
  · obtain ⟨k', hThis, hNe⟩ := hSeen i hLt
    rw [hx] at hThis
    exact hNe (Option.some.inj hThis).symm
  · rw [hFree] at hx
    cases hx
  · exact hBefore j hGt hFree

theorem Addressed.insert (hKeys : Addressed key n hash) (hSeen : Seen key n (hash k) k j)
    (hFree : key (probe n (hash k) j) = none) (hj : j < n) :
    Addressed (Function.update key (probe n (hash k) j) (some k)) n hash := by
  have hAbsent := hKeys.absent hSeen hFree
  have hTaken : ∀ y, key y ≠ none →
      Function.update key (probe n (hash k) j) (some k) y ≠ none := by
    intro y hy hNone
    rw [Function.update_apply] at hNone
    split at hNone
    · cases hNone
    · exact hy hNone
  refine ⟨?_, ?_, ?_⟩
  · intro x k' hx
    rw [Function.update_apply] at hx
    split at hx
    · next hEq => exact hEq ▸ probe_lt (by omega) _ _
    · exact hKeys.lt x k' hx
  · intro x y k' hx hy
    rw [Function.update_apply] at hx hy
    split at hx
    · next hxEq =>
      cases hx
      split at hy
      · next hyEq => rw [hxEq, hyEq]
      · exact absurd hy (hAbsent y)
    · split at hy
      · cases hy
        exact absurd hx (hAbsent x)
      · exact hKeys.once x y k' hx hy
  · intro x k' hx
    rw [Function.update_apply] at hx
    split at hx
    · next hEq =>
      cases hx
      refine ⟨j, hj, hEq.symm, fun i hi => hTaken _ ?_⟩
      obtain ⟨k', hThis, -⟩ := hSeen i hi
      rw [hThis]
      exact Option.some_ne_none k'
    · obtain ⟨i, hi, hPlace, hBefore⟩ := hKeys.placed x k' hx
      exact ⟨i, hi, hPlace, fun m hm => hTaken _ (hBefore m hm)⟩

/-- Fewer keys than places leave one free. -/
theorem Addressed.exists_free (hKeys : Addressed key n hash) (S : Finset K)
    (hS : ∀ x k, key x = some k → k ∈ S) (hCard : S.card < n) : ∃ x, x < n ∧ key x = none := by
  by_contra hNot
  push Not at hNot
  have hSome : ∀ x ∈ Finset.range n, ∃ k, key x = some k := fun x hx =>
    Option.ne_none_iff_exists'.mp (hNot x (Finset.mem_range.mp hx))
  have hLe : (Finset.range n).card ≤ (S.map Function.Embedding.some).card := by
    refine Finset.card_le_card_of_injOn key ?_ ?_
    · intro x hx
      obtain ⟨k, hk⟩ := hSome x hx
      rw [hk]
      exact Finset.mem_coe.mpr (Finset.mem_map.mpr ⟨k, hS x k hk, rfl⟩)
    · intro x hx y _ hEq
      obtain ⟨k, hk⟩ := hSome x hx
      exact hKeys.once x y k hk (hEq ▸ hk)
  rw [Finset.card_range, Finset.card_map] at hLe
  omega

-- ---------------------------------------------------------------------------
-- Numbers
-- ---------------------------------------------------------------------------

/-- Of the keys that are live, few have small numbers. -/
def Ranked (live : Finset K) (rank : K → Nat) : Prop :=
  ∀ m, (live.filter fun k => rank k ≤ m).card ≤ m

theorem Ranked.empty (rank : K → Nat) : Ranked ∅ rank := fun m => by
  rw [Finset.filter_empty, Finset.card_empty]
  exact Nat.zero_le m

variable [DecidableEq K] {live : Finset K} {rank : K → Nat}

/-- A key that comes is numbered after all that are there. -/
theorem Ranked.insert (hRanked : Ranked live rank) (hNew : k ∉ live) :
    Ranked (insert k live) (Function.update rank k (live.card + 1)) := by
  intro m
  have hSame : ∀ k' ∈ live, Function.update rank k (live.card + 1) k' = rank k' := by
    intro k' hk'
    refine Function.update_of_ne ?_ ..
    rintro rfl
    exact hNew hk'
  have hOld : (live.filter fun k' => Function.update rank k (live.card + 1) k' ≤ m) =
      live.filter fun k' => rank k' ≤ m :=
    Finset.filter_congr fun k' hk' => by rw [hSame k' hk']
  rw [Finset.filter_insert, Function.update_self, hOld]
  split
  · have hCard := Finset.card_insert_le k (live.filter fun k' => rank k' ≤ m)
    have hAll := Finset.card_filter_le live fun k' => rank k' ≤ m
    omega
  · exact hRanked m

theorem Ranked.erase (hRanked : Ranked live rank) (k : K) : Ranked (live.erase k) rank := by
  intro m
  refine (Finset.card_le_card ?_).trans (hRanked m)
  exact Finset.filter_subset_filter _ (Finset.erase_subset k live)

end ThreadPool.Lib
