import Mathlib.Data.Int.ModEq
import Mathlib.Data.List.Basic
import Mathlib.Logic.Function.Basic
import Mathlib.Tactic.Ring

/-!
# Round arrays

The numbers `0, 1, 2, …` get places in an array of `n` places, one after the
other and round and round, so that the array holds the last `n` of them at
most.

* `slot_injOn` — numbers that are less than `n` apart have places of their own;
* `Window` — the array holds an interval of a sequence; `Window.push` puts the
  next one behind it;
* `copyRound_window` — the loop that copies a window to the start of another
  array;
* `slot_offset` — a place found from another by a difference that wraps.
-/

namespace ThreadPool.Lib

/-- The place of number `q`, if the place of number 0 is `c`. -/
def slot (n : Nat) (c : Int) (q : Nat) : Int := (c + q) % n

theorem slot_succ (n : Nat) (c : Int) (q : Nat) : (slot n c q + 1) % n = slot n c (q + 1) := by
  unfold slot
  rw [Int.emod_add_emod, Int.add_assoc]
  rfl

theorem slot_sub (n : Nat) (c : Int) {k q : Nat} (h : k ≤ q) :
    (slot n c q - k) % n = slot n c (q - k) := by
  unfold slot
  rw [Int.emod_sub_emod, Int.add_sub_assoc, Int.ofNat_sub h]

/-- Numbers that share a place are a multiple of the size apart. -/
theorem slot_injOn {n : Nat} {c : Int} {p q : Nat} (hLe : p ≤ q) (hLt : q - p < n)
    (h : slot n c p = slot n c q) : p = q := by
  have hDvd : (n : Int) ∣ (c + q) - (c + p) := Int.ModEq.dvd h
  have hEq : (c + q) - (c + p) = ((q - p : Nat) : Int) := by omega
  rw [hEq, Int.natCast_dvd_natCast] at hDvd
  have hZero := Nat.eq_zero_of_dvd_of_lt hDvd hLt
  omega

/-- The first `k` numbers have the first `k` places. -/
theorem slot_start {n k : Nat} (lo : Nat) (h : k < n) : slot n (-lo) (lo + k) = k := by
  unfold slot
  rw [show (-(lo : Int) + ((lo + k : Nat) : Int)) = k by omega]
  exact Int.emod_eq_of_lt (by omega) (by omega)

-- ---------------------------------------------------------------------------
-- Windows
-- ---------------------------------------------------------------------------

variable {α : Type}

/-- The array holds the numbers from `lo` up to `hi` of a sequence. -/
def Window (entries : Int → α) (n : Nat) (c : Int) (f : Nat → α) (lo hi : Nat) : Prop :=
  ∀ q, lo ≤ q → q < hi → entries (slot n c q) = f q

variable {entries : Int → α} {n : Nat} {c : Int} {f g : Nat → α} {lo hi : Nat}

theorem Window.mono (h : Window entries n c f lo hi) {lo' hi' : Nat} (hLo : lo ≤ lo')
    (hHi : hi' ≤ hi) : Window entries n c f lo' hi' :=
  fun q hLow hHigh => h q (hLo.trans hLow) (hHigh.trans_le hHi)

theorem Window.congr (h : Window entries n c f lo hi) (hEq : ∀ q, q < hi → g q = f q) :
    Window entries n c g lo hi := by
  intro q hLow hHigh
  rw [hEq q hHigh]
  exact h q hLow hHigh

/-- The next number takes a place that no number of the window has. -/
theorem Window.push (h : Window entries n c f lo hi) (hRoom : hi < lo + n) (hLe : lo ≤ hi) :
    Window (Function.update entries (slot n c hi) (f hi)) n c f lo (hi + 1) := by
  intro q hLow hHigh
  by_cases hEq : q = hi
  · subst hEq
    exact Function.update_self ..
  · have hPlace : slot n c q ≠ slot n c hi := by
      intro hSame
      exact hEq (slot_injOn (by omega) (by omega) hSame)
    rw [Function.update_of_ne hPlace]
    exact h q hLow (by omega)

-- ---------------------------------------------------------------------------
-- Copying
-- ---------------------------------------------------------------------------

/-- `do … while`: what is read from place `i` on, round and round, until the
next place is `stop`. -/
def copyRound (entries : Int → α) (n : Nat) (stop : Int) : Nat → Int → List α
  | 0, _ => []
  | fuel + 1, i =>
    entries i :: if (i + 1) % n = stop then [] else copyRound entries n stop fuel ((i + 1) % n)

/-- The loop copies a window, a full one as well as one with room. -/
theorem copyRound_window (entries : Int → α) (n : Nat) (c : Int) (lo k fuel : Nat) (hk : k < n)
    (hFuel : k < fuel) :
    copyRound entries n (slot n c (lo + (k + 1))) fuel (slot n c lo) =
      (List.range (k + 1)).map fun j => entries (slot n c (lo + j)) := by
  induction k generalizing lo fuel with
  | zero =>
    obtain ⟨fuel, rfl⟩ := Nat.exists_eq_succ_of_ne_zero (by omega : fuel ≠ 0)
    rw [copyRound, slot_succ, if_pos rfl]
    rfl
  | succ k ih =>
    obtain ⟨fuel, rfl⟩ := Nat.exists_eq_succ_of_ne_zero (by omega : fuel ≠ 0)
    have hNext : slot n c (lo + 1) ≠ slot n c (lo + (k + 1 + 1)) := by
      intro hSame
      have hEq := slot_injOn (by omega) (by omega) hSame
      omega
    have hRest := ih (lo + 1) fuel (by omega) (by omega)
    rw [show lo + 1 + (k + 1) = lo + (k + 1 + 1) by omega] at hRest
    rw [copyRound, slot_succ, if_neg hNext, hRest, List.range_succ_eq_map (n := k + 1),
      List.map_cons, List.map_map]
    refine congrArg₂ List.cons rfl (List.map_congr_left fun j _ => ?_)
    rw [Function.comp_apply, show lo + 1 + j = lo + j.succ by omega]

-- ---------------------------------------------------------------------------
-- Differences that wrap
-- ---------------------------------------------------------------------------

/-- The place of number `p`, reckoned from that of number `q` by the
difference of their multiples of `b`. The difference may be negative: modulo
`range` it is still right, for `n * b` divides `range`. -/
theorem slot_offset {n b : Nat} {range : Int} (hPos : 0 < b) (hFits : ((n * b : Nat) : Int) ∣ range)
    (c : Int) (p q : Nat) :
    (slot n c q + ((((p * b : Nat) : Int) - ((q * b : Nat) : Int)) % range / b)) % n =
      slot n c p := by
  obtain ⟨m, rfl⟩ := hFits
  have hMul : ((p * b : Nat) : Int) - ((q * b : Nat) : Int) = b * ((p : Int) - q) := by
    push_cast
    ring
  have hRange : ((n * b : Nat) : Int) * m = b * (n * m) := by
    push_cast
    ring
  have hb : (0 : Int) < b := by omega
  rw [hMul, hRange, Int.mul_emod_mul_of_pos _ _ hb, Int.mul_ediv_cancel_left _ (by omega)]
  unfold slot
  have hMod : ((p : Int) - q) % (n * m) % n = ((p : Int) - q) % n :=
    Int.emod_emod_of_dvd _ (dvd_mul_right _ _)
  rw [Int.emod_add_emod, ← Int.add_emod_emod, hMod, Int.add_emod_emod]
  congr 1
  ring

end ThreadPool.Lib
