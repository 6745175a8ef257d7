import ThreadPool.Lib.Tally
import ThreadPool.Model.Timeout

/-!
# ThreadPool — `LightweightSemaphore`

The semaphore between `enqueue` and the workers: a counter `m_count` that is
tried first, and a kernel semaphore `m_sema` for the threads that found
nothing. A step is one access to either of them, so the calls of different
threads interleave everywhere the code lets them.

* `Pc` — where a call stands; the public functions are its initial values;
* `step` — one access; `Step` lists the ways it can go;
* `Step.permits` and `Step.waiters` — what a step moves: permits between the
  counter, the kernel, the posts still to be made and the callers; waiting
  callers between the negative counter, the kernel and the posts.

Everything about runs is in `Model/Permits.lean`.
-/

namespace ThreadPool.Model

/-- `m_count` and the value of `m_sema`. The counter is an `ssize_t`: the runs
of `Model/Permits.lean` are those in which no `fetch_add` overflows, and
between the queue and its workers it is at most the number of elements. -/
structure LightweightSemaphore where
  count : Int
  sema : Nat

namespace LightweightSemaphore

/-- Which call of `tryWaitMany` it is. -/
inductive Place
  /-- called by itself -/
  | only
  /-- the first thing in `waitMany` -/
  | first (timeout : Wait)
  /-- the last thing in `waitManyWithPartialSpinning` -/
  | more
  deriving DecidableEq

/-- Where a call stands; `oldCount` is the value it has loaded, if any. -/
inductive Pc
  /-- in `tryWaitMany`, at the load or at the exchange -/
  | trying (place : Place) (max : Nat) (oldCount : Option Int)
  /-- in the loop `while (--spin >= 0)`, with `spin` turns left; at 0 at the
  `fetch_sub` -/
  | spinning (timeout : Wait) (max spin : Nat) (oldCount : Option Int)
  /-- in `m_sema.wait()` or `m_sema.timed_wait()` -/
  | sleeping (timeout : Wait) (max : Nat)
  /-- in the loop `while (true)` after the wait has failed -/
  | adjusting (max : Nat) (oldCount : Option Int)
  /-- in `signal`, at the `fetch_add` -/
  | signalling (count : Nat)
  /-- in `m_sema.signal(toRelease)`, with `left` wake-ups to go -/
  | posting (left : Nat)
  /-- returned, with this many permits -/
  | acquired (k : Nat)
  | signalled
  deriving DecidableEq

-- ---------------------------------------------------------------------------
-- The public functions
-- ---------------------------------------------------------------------------

def tryWaitMany (max : Nat) : Pc := .trying .only max none

/-- `true` is one permit. -/
def tryWait : Pc := tryWaitMany 1

def waitMany (max : Nat) (timeout : Wait) : Pc := .trying (.first timeout) max none

/-- `waitWithPartialSpinning` is `waitManyWithPartialSpinning` for one permit. -/
def wait (timeout : Wait) : Pc := waitMany 1 timeout

def signal (count : Nat) : Pc := .signalling count

def availableApprox (s : LightweightSemaphore) : Nat := s.count.toNat

-- ---------------------------------------------------------------------------
-- Steps
-- ---------------------------------------------------------------------------

/-- How a step goes that can go in two ways: `fail` is a spurious failure of
a weak exchange, or the end of a wait without a wake-up. -/
inductive Choice
  | run
  | fail
  deriving DecidableEq

def newCount (oldCount : Int) (max : Nat) : Int :=
  if oldCount > max then oldCount - max else 0

/-- `oldCount - newCount`. -/
def taken (oldCount : Int) (max : Nat) : Nat := (oldCount - newCount oldCount max).toNat

/-- `tryWaitMany` returns `k`. -/
def afterTry (maxSpins : Nat) (place : Place) (max k : Nat) : Pc :=
  match place with
  | .only => .acquired k
  | .first timeout => if k = 0 ∧ 0 < max then .spinning timeout max maxSpins none else .acquired k
  | .more => .acquired (1 + k)

/-- `if (max > 1) return 1 + tryWaitMany(max - 1); return 1`. -/
def afterOne (max : Nat) : Pc :=
  if 1 < max then .trying .more (max - 1) none else .acquired 1

/-- How many wake-ups one call into the kernel makes. -/
def portion (p : Platform) (left : Nat) : Nat :=
  match p with
  | .windows => left
  | _ => 1

/-- `toRelease`, from the value that `fetch_add` returns. -/
def toRelease (oldCount : Int) (count : Nat) : Int :=
  if -oldCount < count then -oldCount else count

def step (p : Platform) (maxSpins : Nat) (s : LightweightSemaphore) :
    Pc → Choice → Option (LightweightSemaphore × Pc)
  | .trying place max none, .run => some (s, .trying place max (some s.count))
  | .trying place max (some oldCount), c =>
    if 0 < oldCount then
      -- a failed exchange loads the counter
      if c = .run ∧ s.count = oldCount then
        some ({ s with count := newCount oldCount max },
          afterTry maxSpins place max (taken oldCount max))
      else some (s, .trying place max (some s.count))
    else if c = .run then some (s, afterTry maxSpins place max 0) else none
  | .spinning timeout max 0 _, .run =>
    some ({ s with count := s.count - 1 },
      if 0 < s.count then afterOne max
      else if timeout = .poll then .adjusting max none
      else .sleeping timeout max)
  | .spinning timeout max (spin + 1) none, .run =>
    some (s, .spinning timeout max (spin + 1) (some s.count))
  | .spinning timeout max (spin + 1) (some oldCount), .run =>
    if 0 < oldCount ∧ s.count = oldCount then
      some ({ s with count := newCount oldCount max }, .acquired (taken oldCount max))
    else some (s, .spinning timeout max spin none)
  | .sleeping _ max, .run =>
    if 0 < s.sema then some ({ s with sema := s.sema - 1 }, afterOne max) else none
  | .sleeping timeout max, .fail =>
    -- `wait()` comes back without a wake-up only where the kernel aborts it
    if timeout = .indefinite ∧ p ≠ .mach then none else some (s, .adjusting max none)
  | .adjusting max none, .run => some (s, .adjusting max (some s.count))
  | .adjusting max (some oldCount), .run =>
    if 0 ≤ oldCount then
      if 0 < s.sema then some ({ s with sema := s.sema - 1 }, afterOne max)
      else some (s, .adjusting max none)
    else if s.count = oldCount then some ({ s with count := oldCount + 1 }, .acquired 0)
    else some (s, .adjusting max none)
  | .signalling count, .run =>
    some ({ s with count := s.count + count },
      if 0 < toRelease s.count count then .posting (toRelease s.count count).toNat
      else .signalled)
  | .posting left, .run =>
    if left = 0 then some (s, .signalled)
    else some ({ s with sema := s.sema + portion p left }, .posting (left - portion p left))
  | _, _ => none

/-- Every way a step of a call can go. -/
inductive Step (p : Platform) (maxSpins : Nat) (s : LightweightSemaphore) :
    Pc → Choice → LightweightSemaphore → Pc → Prop
  | load (place : Place) (max : Nat) :
      Step p maxSpins s (.trying place max none) .run s (.trying place max (some s.count))
  | reload (place : Place) (max : Nat) (oldCount : Int) (c : Choice) (hPos : 0 < oldCount) :
      Step p maxSpins s (.trying place max (some oldCount)) c s (.trying place max (some s.count))
  | take (place : Place) (max : Nat) (hPos : 0 < s.count) :
      Step p maxSpins s (.trying place max (some s.count)) .run
        { s with count := newCount s.count max }
        (afterTry maxSpins place max (taken s.count max))
  | none (place : Place) (max : Nat) (oldCount : Int) (hNone : oldCount ≤ 0) :
      Step p maxSpins s (.trying place max (some oldCount)) .run s
        (afterTry maxSpins place max 0)
  | enter (timeout : Wait) (max : Nat) (oldCount : Option Int) (hNone : s.count ≤ 0) :
      Step p maxSpins s (.spinning timeout max 0 oldCount) .run
        { s with count := s.count - 1 }
        (if timeout = .poll then .adjusting max none else .sleeping timeout max)
  | last (timeout : Wait) (max : Nat) (oldCount : Option Int) (hPos : 0 < s.count) :
      Step p maxSpins s (.spinning timeout max 0 oldCount) .run
        { s with count := s.count - 1 } (afterOne max)
  | spin (timeout : Wait) (max spin : Nat) :
      Step p maxSpins s (.spinning timeout max (spin + 1) none) .run s
        (.spinning timeout max (spin + 1) (some s.count))
  | spinTake (timeout : Wait) (max spin : Nat) (hPos : 0 < s.count) :
      Step p maxSpins s (.spinning timeout max (spin + 1) (some s.count)) .run
        { s with count := newCount s.count max } (.acquired (taken s.count max))
  | again (timeout : Wait) (max spin : Nat) (oldCount : Int) :
      Step p maxSpins s (.spinning timeout max (spin + 1) (some oldCount)) .run s
        (.spinning timeout max spin none)
  | wake (timeout : Wait) (max : Nat) (hSema : 0 < s.sema) :
      Step p maxSpins s (.sleeping timeout max) .run { s with sema := s.sema - 1 } (afterOne max)
  | timeout (timeout : Wait) (max : Nat) (hWait : timeout = .indefinite → p = .mach) :
      Step p maxSpins s (.sleeping timeout max) .fail s (.adjusting max none)
  | look (max : Nat) :
      Step p maxSpins s (.adjusting max none) .run s (.adjusting max (some s.count))
  | tryWake (max : Nat) (oldCount : Int) (hOld : 0 ≤ oldCount) (hSema : 0 < s.sema) :
      Step p maxSpins s (.adjusting max (some oldCount)) .run { s with sema := s.sema - 1 }
        (afterOne max)
  | readjust (max : Nat) (oldCount : Int) :
      Step p maxSpins s (.adjusting max (some oldCount)) .run s (.adjusting max none)
  | giveUp (max : Nat) (hNeg : s.count < 0) :
      Step p maxSpins s (.adjusting max (some s.count)) .run { s with count := s.count + 1 }
        (.acquired 0)
  | add (count : Nat) (hRelease : 0 < toRelease s.count count) :
      Step p maxSpins s (.signalling count) .run { s with count := s.count + count }
        (.posting (toRelease s.count count).toNat)
  | addOnly (count : Nat) (hRelease : toRelease s.count count ≤ 0) :
      Step p maxSpins s (.signalling count) .run { s with count := s.count + count } .signalled
  | post (left : Nat) (hLeft : 0 < left) :
      Step p maxSpins s (.posting left) .run { s with sema := s.sema + portion p left }
        (.posting (left - portion p left))
  | posted : Step p maxSpins s (.posting 0) .run s .signalled

variable {p : Platform} {maxSpins : Nat} {s s' : LightweightSemaphore} {pc pc' : Pc} {c : Choice}

theorem step_cases (h : s.step p maxSpins pc c = some (s', pc')) :
    Step p maxSpins s pc c s' pc' := by
  unfold step at h
  split at h
  · cases h
    exact .load ..
  · split at h
    · next hPos =>
      split at h
      · next hEq =>
        obtain ⟨rfl, rfl⟩ := hEq
        cases h
        exact .take _ _ hPos
      · cases h
        exact .reload _ _ _ _ hPos
    · next hNone =>
      split at h
      · next hEq =>
        cases h
        cases hEq
        exact .none _ _ _ (by omega)
      · cases h
  · cases h
    split
    · next hPos => exact .last _ _ _ hPos
    · next hNone => exact .enter _ _ _ (by omega)
  · cases h
    exact .spin ..
  · split at h
    · next hEq =>
      obtain ⟨hPos, rfl⟩ := hEq
      cases h
      exact .spinTake _ _ _ hPos
    · cases h
      exact .again ..
  · split at h
    · next hSema =>
      cases h
      exact .wake _ _ hSema
    · cases h
  · split at h
    · cases h
    · next hWait =>
      cases h
      exact .timeout _ _ fun hEq => by simpa [hEq] using hWait
  · cases h
    exact .look _
  · split at h
    · next hOld =>
      split at h
      · next hSema =>
        cases h
        exact .tryWake _ _ hOld hSema
      · cases h
        exact .readjust ..
    · next hNeg =>
      split at h
      · next hEq =>
        subst hEq
        cases h
        exact .giveUp _ (by omega)
      · cases h
        exact .readjust ..
  · cases h
    split
    · next hRelease => exact .add _ hRelease
    · next hRelease => exact .addOnly _ (by omega)
  · split at h
    · next hZero =>
      subst hZero
      cases h
      exact .posted
    · next hLeft =>
      cases h
      exact .post _ (by omega)
  · cases h

-- ---------------------------------------------------------------------------
-- What a step moves
-- ---------------------------------------------------------------------------

/-- The permits a call has got so far. -/
def Pc.granted : Pc → Nat
  | .trying .more _ _ => 1
  | .acquired k => k
  | _ => 0

/-- 1 if the call has decremented the counter in vain. -/
def Pc.waits : Pc → Nat
  | .sleeping _ _ => 1
  | .adjusting _ _ => 1
  | _ => 0

/-- The wake-ups the call has still to make. -/
def Pc.posts : Pc → Nat
  | .posting left => left
  | _ => 0

/-- The permits the call has still to add to the counter. -/
def Pc.unsent : Pc → Nat
  | .signalling count => count
  | _ => 0

/-- The permits that the counter and the kernel hold. -/
def held (s : LightweightSemaphore) : Nat := s.count.toNat + s.sema

/-- The waiting callers nobody has signalled yet. -/
def debt (s : LightweightSemaphore) : Nat := (-s.count).toNat

@[simp] theorem granted_afterOne (max : Nat) : (afterOne max).granted = 1 := by
  unfold afterOne
  split <;> rfl

@[simp] theorem waits_afterOne (max : Nat) : (afterOne max).waits = 0 := by
  unfold afterOne
  split <;> rfl

@[simp] theorem posts_afterOne (max : Nat) : (afterOne max).posts = 0 := by
  unfold afterOne
  split <;> rfl

@[simp] theorem unsent_afterOne (max : Nat) : (afterOne max).unsent = 0 := by
  unfold afterOne
  split <;> rfl

theorem granted_afterTry (place : Place) (max k : Nat) :
    (afterTry maxSpins place max k).granted =
      (Pc.trying place max none).granted + k := by
  cases place with
  | only => simp [afterTry, Pc.granted]
  | more => simp [afterTry, Pc.granted]
  | first timeout =>
    simp only [afterTry]
    split
    · next hZero => simp [Pc.granted, hZero.1]
    · simp [Pc.granted]

theorem granted_trying (place : Place) (max : Nat) (oldCount : Option Int) :
    (Pc.trying place max oldCount).granted = (Pc.trying place max none).granted := by
  cases place <;> rfl

@[simp] theorem waits_afterTry (place : Place) (max k : Nat) :
    (afterTry maxSpins place max k).waits = 0 := by
  unfold afterTry
  split
  · rfl
  · split <;> rfl
  · rfl

@[simp] theorem posts_afterTry (place : Place) (max k : Nat) :
    (afterTry maxSpins place max k).posts = 0 := by
  unfold afterTry
  split
  · rfl
  · split <;> rfl
  · rfl

@[simp] theorem unsent_afterTry (place : Place) (max k : Nat) :
    (afterTry maxSpins place max k).unsent = 0 := by
  unfold afterTry
  split
  · rfl
  · split <;> rfl
  · rfl

/-- What is taken from a positive counter is what it loses. -/
theorem taken_add (oldCount : Int) (max : Nat) (hPos : 0 < oldCount) :
    (newCount oldCount max).toNat + taken oldCount max = oldCount.toNat ∧
      0 ≤ newCount oldCount max ∧ taken oldCount max ≤ max := by
  unfold taken newCount
  split <;> omega

/-- What is released goes to callers that wait, and leaves no other permit
out. -/
theorem toRelease_le (oldCount : Int) (count : Nat) :
    (toRelease oldCount count).toNat ≤ (-oldCount).toNat ∧
      (toRelease oldCount count).toNat + (oldCount + count).toNat = oldCount.toNat + count ∧
      (-(oldCount + count)).toNat + (toRelease oldCount count).toNat = (-oldCount).toNat := by
  unfold toRelease
  split <;> omega

theorem portion_le {left : Nat} (hLeft : 0 < left) : portion p left ≤ left := by
  cases p <;> simp only [portion] <;> omega

theorem portion_pos {left : Nat} (hLeft : 0 < left) : 0 < portion p left := by
  cases p <;> simp only [portion] <;> omega

/-- **Permits.** A step takes no permit out of the semaphore that it does not
hand out, and hands out none that is not there. -/
theorem Step.permits (hStep : Step p maxSpins s pc c s' pc') :
    s'.held + pc'.posts + pc'.unsent + pc'.granted =
      s.held + pc.posts + pc.unsent + pc.granted := by
  cases hStep with
  | take place max hPos =>
    have hTaken := taken_add s.count max hPos
    rw [granted_afterTry, granted_trying place max (some s.count), posts_afterTry,
      unsent_afterTry]
    simp only [held, Pc.posts, Pc.unsent]
    omega
  | none place max oldCount =>
    rw [granted_afterTry, granted_trying place max (some oldCount), posts_afterTry,
      unsent_afterTry]
    rfl
  | load place max =>
    rw [granted_trying place max (some s.count)]
    rfl
  | reload place max oldCount =>
    rw [granted_trying place max (some s.count), granted_trying place max (some oldCount)]
    rfl
  | enter timeout max oldCount hNone =>
    have hSame : (s.count - 1).toNat = s.count.toNat := by omega
    split <;> simp [held, hSame, Pc.posts, Pc.unsent, Pc.granted]
  | last timeout max oldCount hPos =>
    rw [posts_afterOne, unsent_afterOne, granted_afterOne]
    simp only [held, Pc.posts, Pc.unsent, Pc.granted]
    omega
  | spinTake timeout max spin hPos =>
    have hTaken := taken_add s.count max hPos
    simp only [held, Pc.posts, Pc.unsent, Pc.granted]
    omega
  | wake timeout max hSema | tryWake max oldCount _ hSema =>
    rw [posts_afterOne, unsent_afterOne, granted_afterOne]
    simp only [held, Pc.posts, Pc.unsent, Pc.granted]
    omega
  | giveUp max hNeg =>
    simp only [held, Pc.posts, Pc.unsent, Pc.granted]
    omega
  | add count hRelease =>
    have hMoved := toRelease_le s.count count
    simp only [held, Pc.posts, Pc.unsent, Pc.granted]
    omega
  | addOnly count hRelease =>
    have hMoved := toRelease_le s.count count
    simp only [held, Pc.posts, Pc.unsent, Pc.granted]
    omega
  | post left hLeft =>
    have hPortion := portion_le (p := p) hLeft
    simp only [held, Pc.posts, Pc.unsent, Pc.granted]
    omega
  | spin | again | timeout | look | readjust | posted => rfl

/-- **Waiters.** Every caller that waits is owed by the counter, or has a
wake-up in the kernel or on its way there. -/
theorem Step.waiters (hStep : Step p maxSpins s pc c s' pc') :
    s'.debt + s'.sema + pc'.posts + pc.waits = s.debt + s.sema + pc.posts + pc'.waits := by
  cases hStep with
  | take place max hPos =>
    have hTaken := taken_add s.count max hPos
    rw [posts_afterTry, waits_afterTry]
    simp only [debt, Pc.posts, Pc.waits]
    omega
  | none place max oldCount =>
    rw [posts_afterTry, waits_afterTry]
    rfl
  | enter timeout max oldCount hNone =>
    have hMore : (-(s.count - 1)).toNat = (-s.count).toNat + 1 := by omega
    split <;> simp only [debt, hMore, Pc.posts, Pc.waits] <;> omega
  | last timeout max oldCount hPos =>
    rw [posts_afterOne, waits_afterOne]
    simp only [debt, Pc.posts, Pc.waits]
    omega
  | spinTake timeout max spin hPos =>
    have hTaken := taken_add s.count max hPos
    simp only [debt, Pc.posts, Pc.waits]
    omega
  | wake timeout max hSema | tryWake max oldCount _ hSema =>
    rw [posts_afterOne, waits_afterOne]
    simp only [debt, Pc.posts, Pc.waits]
    omega
  | giveUp max hNeg =>
    simp only [debt, Pc.posts, Pc.waits]
    omega
  | add count hRelease =>
    have hMoved := toRelease_le s.count count
    simp only [debt, Pc.posts, Pc.waits]
    omega
  | addOnly count hRelease =>
    have hMoved := toRelease_le s.count count
    simp only [debt, Pc.posts, Pc.waits]
    omega
  | post left hLeft =>
    have hPortion := portion_le (p := p) hLeft
    simp only [debt, Pc.posts, Pc.waits]
    omega
  | load | reload | spin | again | timeout | look | readjust | posted => rfl

end LightweightSemaphore

end ThreadPool.Model
