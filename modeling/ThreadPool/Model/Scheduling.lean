import ThreadPool.Model.Calls

/-!
# ThreadPool — failing calls

What a scheduling function does when it fails: a copy or an allocation
throws before the enqueue, the queue refuses, or the construction of an
element throws inside the enqueue.

`schedule` lets the exception out. The other two are `noexcept`: they report
a refusal by `false`, but an exception meets the boundary and terminates the
process.

* `schedule_failed`, `scheduleAndForget_failed`, `scheduleBulk_failed` — the
  three functions;
* `failed_calls` — a failed call is reported with the process unchanged,
  except that of a `noexcept` function whose failure is an exception.
-/

namespace ThreadPool.Model

open ThreadPool.Lib

variable {n : Nat} {L : Types}

/-- An exception is thrown in a call that passes the points `before` the
enqueue and then constructs `k` elements: a refusing queue constructs none. -/
def Faults.Throws (φ : Faults L) (before : List Point) (k : Nat) : Prop :=
  φ.first before ≠ none ∨ φ.refuses = false ∧ φ.first (elementPoints k) ≠ none

/-- Such a call does not succeed. -/
def Faults.Fails (φ : Faults L) (before : List Point) (k : Nat) : Prop :=
  φ.Throws before k ∨ φ.refuses = true

namespace Process

variable {φ : Faults L} {th : Thread n} {token : Option Nat} {s : Process n L}

/-- A call that throws nothing and is not refused succeeds. -/
private theorem not_fails {before : List Point} {k : Nat} (hBefore : φ.first before = none)
    (hRefuses : ¬ φ.refuses = true) (hElements : φ.first (elementPoints k) = none) :
    ¬ φ.Fails before k := by
  rintro ((hThrow | ⟨-, hThrow⟩) | hRefused)
  · exact hThrow hBefore
  · exact hThrow hElements
  · exact hRefuses hRefused

/-- A failed `schedule` throws and changes nothing. -/
theorem schedule_failed {f : Callable L} {args : List L.Arg}
    (hFails : φ.Fails (schedulePoints args) 1) :
    ∃ e, schedule φ th token f args s = (.threw e, s) := by
  rw [schedule_eq]
  cases hBefore : φ.first (schedulePoints args) with
  | some e => exact ⟨e, rfl⟩
  | none =>
    by_cases hRefuses : φ.refuses = true
    · exact ⟨_, if_pos hRefuses⟩
    · have hElement := φ.first_element
      dsimp only
      rw [if_neg hRefuses]
      cases hThrows : φ.throws (.element 0) with
      | some e => exact ⟨e, rfl⟩
      | none => exact absurd hFails (not_fails hBefore hRefuses (hElement.trans hThrows))

/-- A `schedule_and_forget` that throws terminates the process; one that is
refused returns `false` and changes nothing. -/
theorem scheduleAndForget_failed {f : Callable L} {args : List L.Arg} :
    (φ.Throws (forgetPoints args) 1 →
        scheduleAndForget φ th token f args s = (.terminated, s.stopped)) ∧
      (φ.Fails (forgetPoints args) 1 → ¬ φ.Throws (forgetPoints args) 1 →
        scheduleAndForget φ th token f args s = (.returned false, s)) := by
  rw [scheduleAndForget_eq, ← φ.first_element]
  unfold Faults.Fails Faults.Throws
  cases hBefore : φ.first (forgetPoints args) with
  | some e => simp
  | none =>
    by_cases hRefuses : φ.refuses = true
    · simp [hRefuses]
    · cases hElement : φ.first (elementPoints 1) <;> simp [hRefuses]

/-- The same of `schedule_bulk`, whose first throwing point is an element. -/
theorem scheduleBulk_failed {array : List (Option (Callable L))} :
    (φ.Throws [] array.length →
        scheduleBulk φ th token array s = (.terminated, s.stopped)) ∧
      (φ.Fails [] array.length → ¬ φ.Throws [] array.length →
        scheduleBulk φ th token array s = (.returned false, s)) := by
  rw [scheduleBulk_eq]
  unfold Faults.Fails Faults.Throws
  have hNone : φ.first [] = none := rfl
  by_cases hRefuses : φ.refuses = true
  · simp [hRefuses, hNone]
  · cases hElement : φ.first (elementPoints array.length) <;> simp [hRefuses, hNone]

end Process

/-- What is said of a failed call of a `noexcept` function holds exactly if
it does not throw. -/
private theorem reported_iff {φ : Faults L} {before : List Point} {k : Nat} {s : Process n L}
    {r : CallResult L Bool × Process n L}
    (hThrows : φ.Throws before k → r = (.terminated, s.stopped))
    (hRefused : φ.Fails before k → ¬ φ.Throws before k → r = (.returned false, s)) :
    (φ.Fails before k → r = (.returned false, s)) ↔ ¬ φ.Throws before k := by
  constructor
  · intro hAll hThrow
    have hEq := (hThrows hThrow).symm.trans (hAll (.inl hThrow))
    simp at hEq
  · exact fun hNot hFails => hRefused hFails hNot

/-- **Failing calls.** A failed `schedule` throws, and the process is
unchanged: the queue, the workers, the accepted tasks and the futures. Of
`schedule_and_forget` and `schedule_bulk` it holds that a failed call
returns `false` with the process unchanged if and only if no copy or
allocation that the call reaches throws; if one does, the process is
terminated. -/
theorem failed_calls (φ : Faults L) (th : Thread n) (token : Option Nat) (s : Process n L)
    (f : Callable L) (args : List L.Arg) (array : List (Option (Callable L))) :
    (φ.Fails (Process.schedulePoints args) 1 →
        ∃ e, Process.schedule φ th token f args s = (.threw e, s)) ∧
      ((φ.Fails (Process.forgetPoints args) 1 →
          Process.scheduleAndForget φ th token f args s = (.returned false, s)) ↔
        ¬ φ.Throws (Process.forgetPoints args) 1) ∧
      ((φ.Fails [] array.length →
          Process.scheduleBulk φ th token array s = (.returned false, s)) ↔
        ¬ φ.Throws [] array.length) := by
  refine ⟨Process.schedule_failed, ?_, ?_⟩
  · exact reported_iff Process.scheduleAndForget_failed.1 Process.scheduleAndForget_failed.2
  · exact reported_iff Process.scheduleBulk_failed.1 Process.scheduleBulk_failed.2

/-- The copy of the first argument runs out of memory. -/
def argumentFault : Faults Process.natTypes where
  throws
    | .bindArg 0 => some .badAlloc
    | _ => none
  refuses := false

/-- A `schedule_and_forget` that fails to copy an argument does not return:
the process is terminated. -/
theorem argumentFault_terminates :
    (argumentFault.Fails (Process.forgetPoints (L := Process.natTypes) [1]) 1 ∧
      ¬ ∀ s : Process 1 Process.natTypes,
        Process.scheduleAndForget argumentFault (.client 0) none (Process.adder 0) [1] s =
          (.returned false, s)) ∧
      ((Process.system 1 1 Process.natTypes).run (Process.system 1 1 Process.natTypes).init
        (Process.construct 1 ++
          [.scheduleAndForget (.client 0) none (Process.adder 0) [1] argumentFault])).map
            (fun s => s.pool.abort) = some (some .noexceptThrow) := by
  have hThrows : argumentFault.Throws (Process.forgetPoints (L := Process.natTypes) [1]) 1 :=
    .inl (by simp [Faults.first, Process.forgetPoints, bindPoints, argumentFault,
      List.range_succ])
  refine ⟨⟨.inl hThrows, fun hAll => ?_⟩, rfl⟩
  have hTerminated : Process.scheduleAndForget argumentFault (.client 0) none (Process.adder 0) [1]
      (Process.system 1 1 Process.natTypes).init =
        (.terminated, (Process.system 1 1 Process.natTypes).init.stopped) :=
    Process.scheduleAndForget_failed.1 hThrows
  rw [hAll] at hTerminated
  simp at hTerminated

end ThreadPool.Model
