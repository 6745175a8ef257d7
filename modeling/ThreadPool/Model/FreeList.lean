import ThreadPool.Lib.Tally
import ThreadPool.Model.Process

/-!
# ThreadPool — the free list

The lock-free list that hands the blocks of the queue from one thread to
another. A node has a reference count, a bit that says it should be on the
list, and a link. A step is one atomic access; the threads interleave.

* `Pc`, `stepCall` — `add`, `try_get` and `add_knowing_refcount_is_zero`;
* `Sound` — the invariant: what each count is made of, and that each node is
  in one place;
* `handed_out_once` — no node is with two of its users, or with one and on
  the list;
* `nothing_lost` — a node that is with no user is on the list, or a call in
  progress has to do with it;
* `no_carry` — the count of a node does not run into its bit;
* `try_get_alone` — a `try_get` that nobody interferes with takes the first
  node of the list, if there is one.
-/

namespace ThreadPool.Model

open ThreadPool.Lib

/-- A node: `freeListRefs`, as the count under `REFS_MASK` and the bit
`SHOULD_BE_ON_FREELIST`, and `freeListNext`. That the two can be told apart is
`FreeList.no_carry`. -/
structure FreeListNode (N : Type) where
  refs : Nat
  shouldBeOnFreeList : Bool
  next : Option N

namespace FreeList

/-- Where `add_knowing_refcount_is_zero` returns to: to the end of `add`, or
into the loop of `try_get` with a head to try next. -/
inductive Return (N : Type)
  | add
  | tryGet (head : Option N)

/-- Where a call stands. -/
inductive Pc (N : Type)
  /-- in `try_get`, at a load of `freeListHead` -/
  | loadingHead
  /-- at the load of the count -/
  | loadingRefs (head : N)
  /-- at the exchange of the count -/
  | taking (head : N) (refs : Nat) (shouldBeOnFreeList : Bool)
  /-- at the load of the link, with a reference -/
  | loadingNext (head : N)
  /-- at the exchange of `freeListHead` -/
  | popping (head : N) (next : Option N)
  /-- at `fetch_sub(2)` -/
  | popped (head : N)
  /-- at `fetch_sub(1)`; `head` is what the exchange found -/
  | dropping (prevHead : N) (head : Option N)
  /-- at the return of `try_get` -/
  | got (node : Option N)
  /-- in `add`, at `fetch_add(SHOULD_BE_ON_FREELIST)` -/
  | flagging (node : N)
  /-- in `add_knowing_refcount_is_zero`, at its load of `freeListHead` -/
  | adding (node : N) (ret : Return N)
  /-- at the store of the link -/
  | linking (node : N) (head : Option N) (ret : Return N)
  /-- at the store of 1 to the count -/
  | counting (node : N) (head : Option N) (ret : Return N)
  /-- at the exchange of `freeListHead` -/
  | pushing (node : N) (head : Option N) (ret : Return N)
  /-- at `fetch_add(SHOULD_BE_ON_FREELIST - 1)` -/
  | undoing (node : N) (head : Option N) (ret : Return N)
  /-- at the return of `add` -/
  | added

end FreeList

/-- The list, its nodes and the calls of `T` threads. `used` is history: the
nodes that are with a user of the list. -/
structure FreeList (T : Nat) (N : Type) where
  head : Option N
  node : N → FreeListNode N
  calls : Fin T → Option (FreeList.Pc N)
  used : N → Bool

namespace FreeList

variable {T : Nat} {N : Type} [DecidableEq N]

/-- `while (head != nullptr)`. -/
def loop : Option N → Pc N
  | some n => .loadingRefs n
  | none => .got none

/-- `add_knowing_refcount_is_zero` returns. -/
def Return.pc : Return N → Pc N
  | .add => .added
  | .tryGet head => loop head

/-- Node `n` becomes `x`. -/
def write (s : FreeList T N) (n : N) (x : FreeListNode N) : FreeList T N :=
  { s with node := Function.update s.node n x }

/-- One access of a call. -/
def stepCall (s : FreeList T N) : Pc N → Option (FreeList T N × Pc N)
  | .loadingHead => some (s, loop s.head)
  | .loadingRefs n =>
    some (s, if (s.node n).refs = 0 then .loadingHead
      else .taking n (s.node n).refs (s.node n).shouldBeOnFreeList)
  | .taking n refs flag =>
    if (s.node n).refs = refs ∧ (s.node n).shouldBeOnFreeList = flag then
      some (s.write n { s.node n with refs := refs + 1 }, .loadingNext n)
    else some (s, .loadingHead)
  | .loadingNext n => some (s, .popping n (s.node n).next)
  | .popping n next =>
    if s.head = some n then some ({ s with head := next }, .popped n)
    else some (s, .dropping n s.head)
  | .popped n => some (s.write n { s.node n with refs := (s.node n).refs - 2 }, .got (some n))
  | .dropping n head =>
    some (s.write n { s.node n with refs := (s.node n).refs - 1 },
      if (s.node n).refs = 1 ∧ (s.node n).shouldBeOnFreeList then .adding n (.tryGet head)
      else loop head)
  | .flagging n =>
    some (s.write n { s.node n with shouldBeOnFreeList := true },
      if (s.node n).refs = 0 ∧ (s.node n).shouldBeOnFreeList = false then .adding n .add
      else .added)
  | .adding n ret => some (s, .linking n s.head ret)
  | .linking n head ret =>
    some (s.write n { s.node n with next := head }, .counting n head ret)
  | .counting n head ret =>
    some (s.write n { s.node n with refs := 1, shouldBeOnFreeList := false },
      .pushing n head ret)
  | .pushing n head ret =>
    if s.head = head then some ({ s with head := some n }, ret.pc)
    else some (s, .undoing n s.head ret)
  | .undoing n head ret =>
    some (s.write n { s.node n with refs := (s.node n).refs - 1, shouldBeOnFreeList := true },
      if (s.node n).refs = 1 ∧ (s.node n).shouldBeOnFreeList = false then .linking n head ret
      else ret.pc)
  | .got _ => none
  | .added => none

inductive Label (T : Nat) (N : Type)
  | tryGet (i : Fin T)
  /-- thread `i` gives back a node that is with a user -/
  | add (i : Fin T) (n : N)
  | step (i : Fin T)
  | ret (i : Fin T)

def step (s : FreeList T N) : Label T N → Option (FreeList T N)
  | .tryGet i =>
    match s.calls i with
    | none => some { s with calls := Function.update s.calls i (some .loadingHead) }
    | some _ => none
  | .add i n =>
    match s.calls i with
    | none =>
      if s.used n then
        some { s with
          calls := Function.update s.calls i (some (.flagging n))
          used := Function.update s.used n false }
      else none
    | some _ => none
  | .step i =>
    match s.calls i with
    | some pc => (stepCall s pc).map fun r =>
      { r.1 with calls := Function.update r.1.calls i (some r.2) }
    | none => none
  | .ret i =>
    match s.calls i with
    | some (.got (some n)) =>
      some { s with
        calls := Function.update s.calls i none
        used := Function.update s.used n true }
    | some (.got none) => some { s with calls := Function.update s.calls i none }
    | some .added => some { s with calls := Function.update s.calls i none }
    | _ => none

/-- The list is empty, and every node is with a user. -/
def system (T : Nat) (N : Type) [DecidableEq N] : System (FreeList T N) (Label T N) where
  init := ⟨none, fun _ => ⟨0, false, none⟩, fun _ => none, fun _ => true⟩
  step := step

-- ---------------------------------------------------------------------------
-- Where a node is
-- ---------------------------------------------------------------------------

/-- What a call contributes to the count of node `n`. -/
def Pc.holds (n : N) : Pc N → Nat
  | .loadingNext m => if n = m then 1 else 0
  | .popping m _ => if n = m then 1 else 0
  | .dropping m _ => if n = m then 1 else 0
  -- its own reference and that of the list
  | .popped m => if n = m then 2 else 0
  -- the reference of the list, in advance
  | .pushing m _ _ => if n = m then 1 else 0
  | .undoing m _ _ => if n = m then 1 else 0
  | _ => 0

/-- 1 if node `n` is with the call: on its way out, or on its way in and not
marked by its bit. -/
def Pc.keeps (n : N) : Pc N → Nat
  | .popped m => if n = m then 1 else 0
  | .got (some m) => if n = m then 1 else 0
  | .flagging m => if n = m then 1 else 0
  | .pushing m _ _ => if n = m then 1 else 0
  | .undoing m _ _ => if n = m then 1 else 0
  | _ => 0

/-- 1 if the call is adding node `n`, whose count is 0. -/
def Pc.adds (n : N) : Pc N → Nat
  | .adding m _ => if n = m then 1 else 0
  | .linking m _ _ => if n = m then 1 else 0
  | .counting m _ _ => if n = m then 1 else 0
  | _ => 0

/-- The link that a call relies on. -/
def Pc.expects : Pc N → Option (N × Option N)
  | .popping n next => some (n, next)
  | .counting n head _ => some (n, head)
  | .pushing n head _ => some (n, head)
  | _ => none

/-- The call relies on nothing it has seen. -/
def Pc.inert : Pc N → Bool
  | .taking _ _ _ => false
  | .popping _ _ => false
  | .counting _ _ _ => false
  | .pushing _ _ _ => false
  | _ => true

/-- What the calls in progress count for together. -/
def sum (s : FreeList T N) (f : Pc N → Nat) : Nat := tally (ifSome f) s.calls

/-- The links lead from `head` through the nodes of the list. -/
def Chain (node : N → FreeListNode N) : Option N → List N → Prop
  | head, [] => head = none
  | head, n :: l => head = some n ∧ Chain node (node n).next l

/-- 1 if the node waits to be added by whoever brings its count to 0. -/
def FreeListNode.ownerless (x : FreeListNode N) : Nat :=
  if x.shouldBeOnFreeList = true ∧ x.refs = 0 then 1 else 0

/-- The invariant, for the nodes on the list. -/
structure Sound (s : FreeList T N) (l : List N) : Prop where
  chain : Chain s.node s.head l
  /-- the count is the reference of the list and those of the calls -/
  refs : ∀ n, (s.node n).refs = l.count n + s.sum (Pc.holds n)
  /-- a node is with a user, on the list, marked by its bit or with a call -/
  place : ∀ n, (s.used n).toNat + l.count n + (s.node n).shouldBeOnFreeList.toNat +
    s.sum (Pc.keeps n) = 1
  /-- a marked node with count 0 is being added by one call -/
  adder : ∀ n, s.sum (Pc.adds n) = FreeListNode.ownerless (s.node n)
  link : ∀ {i pc n next}, s.calls i = some pc → pc.expects = some (n, next) →
    (s.node n).next = next
  /-- a reference is taken only where there is one -/
  shared : ∀ {i n refs flag}, s.calls i = some (.taking n refs flag) → refs ≠ 0

variable {s s' : FreeList T N} {l : List N}

omit [DecidableEq N] in
theorem Chain.congr {node node' : N → FreeListNode N} {head : Option N}
    (h : Chain node head l) (hSame : ∀ n ∈ l, (node' n).next = (node n).next) :
    Chain node' head l := by
  induction l generalizing head with
  | nil => exact h
  | cons n l ih =>
    refine ⟨h.1, ?_⟩
    rw [hSame n List.mem_cons_self]
    exact ih h.2 fun m hm => hSame m (List.mem_cons_of_mem n hm)

theorem Sound.init (T : Nat) (N : Type) [DecidableEq N] : Sound (system T N).init [] := by
  have hZero : ∀ f, (system T N).init.sum f = 0 := fun f => tally_eq_zero fun _ => rfl
  refine ⟨rfl, ?_, ?_, ?_, ?_, ?_⟩
  · intro n
    rw [hZero]
    rfl
  · intro n
    rw [hZero]
    rfl
  · intro n
    rw [hZero]
    rfl
  · intro i pc n next hCall
    cases hCall
  · intro i n refs flag hCall
    cases hCall

/-- **One call moves.** The books stay in order when what the node, the list
and the call gain and lose is balanced, and the links others rely on stay. -/
theorem Sound.update (h : Sound s l) {t : FreeList T N} {l' : List N} (i : Fin T)
    (x : Option (Pc N)) (hCalls : t.calls = Function.update s.calls i x)
    (hChain : Chain t.node t.head l')
    (hRefs : ∀ n, (t.node n).refs + l.count n + ifSome (Pc.holds n) (s.calls i) =
      (s.node n).refs + l'.count n + ifSome (Pc.holds n) x)
    (hPlace : ∀ n, (t.used n).toNat + l'.count n + (t.node n).shouldBeOnFreeList.toNat +
        ifSome (Pc.keeps n) x =
      (s.used n).toNat + l.count n + (s.node n).shouldBeOnFreeList.toNat +
        ifSome (Pc.keeps n) (s.calls i))
    (hAdder : ∀ n, FreeListNode.ownerless (t.node n) + ifSome (Pc.adds n) (s.calls i) =
      FreeListNode.ownerless (s.node n) + ifSome (Pc.adds n) x)
    (hLink : ∀ pc n next, x = some pc → pc.expects = some (n, next) → (t.node n).next = next)
    (hOthers : ∀ j pc n next, j ≠ i → s.calls j = some pc → pc.expects = some (n, next) →
      (t.node n).next = (s.node n).next)
    (hShared : ∀ n refs flag, x = some (.taking n refs flag) → refs ≠ 0) : Sound t l' := by
  have hSum : ∀ f, t.sum f + ifSome f (s.calls i) = s.sum f + ifSome f x := by
    intro f
    unfold sum
    rw [hCalls]
    exact tally_update (ifSome f) s.calls i x
  refine ⟨hChain, ?_, ?_, ?_, ?_, ?_⟩
  · intro n
    have hOld := h.refs n
    have hNew := hRefs n
    have hHolds := hSum (Pc.holds n)
    omega
  · intro n
    have hOld := h.place n
    have hNew := hPlace n
    have hKeeps := hSum (Pc.keeps n)
    omega
  · intro n
    have hOld := h.adder n
    have hNew := hAdder n
    have hAdds := hSum (Pc.adds n)
    omega
  · intro j pc n next hCall hExpects
    rw [hCalls] at hCall
    by_cases hEq : j = i
    · subst hEq
      rw [Function.update_self] at hCall
      exact hLink pc n next hCall hExpects
    · rw [Function.update_of_ne hEq] at hCall
      rw [hOthers j pc n next hEq hCall hExpects]
      exact h.link hCall hExpects
  · intro j n refs flag hCall
    rw [hCalls] at hCall
    by_cases hEq : j = i
    · subst hEq
      rw [Function.update_self] at hCall
      exact hShared n refs flag hCall
    · rw [Function.update_of_ne hEq] at hCall
      exact h.shared hCall

omit [DecidableEq N] in
theorem Pc.expects_of_inert {pc : Pc N} (h : pc.inert = true) : pc.expects = none := by
  cases pc with
  | popping | counting | pushing => cases h
  | _ => rfl

omit [DecidableEq N] in
theorem Pc.ne_taking_of_inert {pc : Pc N} (h : pc.inert = true) (n : N) (refs : Nat)
    (flag : Bool) : pc ≠ .taking n refs flag := by
  rintro rfl
  cases h

-- ---------------------------------------------------------------------------
-- One step
-- ---------------------------------------------------------------------------

/-- A move of a call that only looks. -/
theorem Sound.look (h : Sound s l) {i : Fin T} {pc : Pc N} (hCall : s.calls i = some pc)
    (pc' : Pc N)
    (hSame : ∀ n, pc'.holds n = pc.holds n ∧ pc'.keeps n = pc.keeps n ∧ pc'.adds n = pc.adds n)
    (hLink : ∀ n next, pc'.expects = some (n, next) → (s.node n).next = next)
    (hShared : ∀ n refs flag, pc' = .taking n refs flag → refs ≠ 0) :
    Sound { s with calls := Function.update s.calls i (some pc') } l := by
  refine h.update i (some pc') rfl h.chain ?_ ?_ ?_ ?_ (fun _ _ _ _ _ _ _ => rfl) ?_
  · intro n
    rw [hCall]
    simp only [ifSome, (hSame n).1]
  · intro n
    rw [hCall]
    simp only [ifSome, (hSame n).2.1]
  · intro n
    rw [hCall]
    simp only [ifSome, (hSame n).2.2]
  · intro pc n next hEq hExpects
    cases hEq
    exact hLink n next hExpects
  · intro n refs flag hEq
    exact hShared n refs flag (Option.some.inj hEq)

/-- A move of a call that forgets what it has seen. -/
theorem Sound.forget (h : Sound s l) {i : Fin T} {pc : Pc N} (hCall : s.calls i = some pc)
    (pc' : Pc N) (hInert : pc'.inert = true)
    (hSame : ∀ n, pc'.holds n = pc.holds n ∧ pc'.keeps n = pc.keeps n ∧
      pc'.adds n = pc.adds n) :
    Sound { s with calls := Function.update s.calls i (some pc') } l := by
  refine h.look hCall pc' hSame ?_ ?_
  · intro n next hExpects
    rw [Pc.expects_of_inert hInert] at hExpects
    cases hExpects
  · intro n refs flag hEq
    exact absurd hEq (Pc.ne_taking_of_inert hInert n refs flag)

/-- A move of a call that writes the count and the bit of one node. -/
theorem Sound.write (h : Sound s l) {i : Fin T} {pc : Pc N} (hCall : s.calls i = some pc)
    (n : N) (refs : Nat) (flag : Bool) (pc' : Pc N)
    (hLink : ∀ m next, pc'.expects = some (m, next) → (s.node m).next = next)
    (hShared : ∀ m refs flag, pc' ≠ .taking m refs flag)
    (hRefs : refs + pc.holds n = (s.node n).refs + pc'.holds n)
    (hPlace : flag.toNat + pc'.keeps n = (s.node n).shouldBeOnFreeList.toNat + pc.keeps n)
    (hAdder : FreeListNode.ownerless ⟨refs, flag, (s.node n).next⟩ + pc.adds n =
      FreeListNode.ownerless (s.node n) + pc'.adds n)
    (hElse : ∀ m, m ≠ n → pc'.holds m = pc.holds m ∧ pc'.keeps m = pc.keeps m ∧
      pc'.adds m = pc.adds m) :
    Sound { s.write n ⟨refs, flag, (s.node n).next⟩ with
      calls := Function.update s.calls i (some pc') } l := by
  have hNext : ∀ m, (Function.update s.node n ⟨refs, flag, (s.node n).next⟩ m).next =
      (s.node m).next := by
    intro m
    by_cases hm : m = n
    · subst hm
      rw [Function.update_self]
    · rw [Function.update_of_ne hm]
  refine h.update i (some pc') rfl ?_ ?_ ?_ ?_ ?_ ?_ ?_
  · exact h.chain.congr fun m _ => hNext m
  · intro m
    rw [hCall]
    show (Function.update s.node n ⟨refs, flag, (s.node n).next⟩ m).refs + _ + pc.holds m =
      _ + _ + pc'.holds m
    by_cases hm : m = n
    · subst hm
      rw [Function.update_self]
      dsimp only
      omega
    · rw [Function.update_of_ne hm, (hElse m hm).1]
  · intro m
    rw [hCall]
    show _ + _ + (Function.update s.node n ⟨refs, flag, (s.node n).next⟩ m
      ).shouldBeOnFreeList.toNat + pc'.keeps m = _ + _ + _ + pc.keeps m
    by_cases hm : m = n
    · subst hm
      rw [Function.update_self]
      dsimp only [FreeList.write]
      omega
    · rw [Function.update_of_ne hm, (hElse m hm).2.1]
      rfl
  · intro m
    rw [hCall]
    show FreeListNode.ownerless (Function.update s.node n ⟨refs, flag, (s.node n).next⟩ m) +
      pc.adds m = _ + pc'.adds m
    by_cases hm : m = n
    · subst hm
      rw [Function.update_self]
      exact hAdder
    · rw [Function.update_of_ne hm, (hElse m hm).2.2]
  · intro pc₁ m next hEq hExpects
    cases hEq
    exact (hNext m).trans (hLink m next hExpects)
  · intro j pc₁ m next _ _ _
    exact hNext m
  · intro m refs₁ flag₁ hEq
    cases hEq
    exact absurd rfl (hShared m refs₁ flag₁)

theorem Sound.writeForget (h : Sound s l) {i : Fin T} {pc : Pc N} (hCall : s.calls i = some pc)
    (n : N) (refs : Nat) (flag : Bool) (pc' : Pc N) (hInert : pc'.inert = true)
    (hRefs : refs + pc.holds n = (s.node n).refs + pc'.holds n)
    (hPlace : flag.toNat + pc'.keeps n = (s.node n).shouldBeOnFreeList.toNat + pc.keeps n)
    (hAdder : FreeListNode.ownerless ⟨refs, flag, (s.node n).next⟩ + pc.adds n =
      FreeListNode.ownerless (s.node n) + pc'.adds n)
    (hElse : ∀ m, m ≠ n → pc'.holds m = pc.holds m ∧ pc'.keeps m = pc.keeps m ∧
      pc'.adds m = pc.adds m) :
    Sound { s.write n ⟨refs, flag, (s.node n).next⟩ with
      calls := Function.update s.calls i (some pc') } l := by
  refine h.write hCall n refs flag pc' ?_ (Pc.ne_taking_of_inert hInert) hRefs hPlace hAdder hElse
  intro m next hExpects
  rw [Pc.expects_of_inert hInert] at hExpects
  cases hExpects

/-- A call holds no more than the count. -/
theorem Sound.holds_le (h : Sound s l) {i : Fin T} {pc : Pc N} (hCall : s.calls i = some pc)
    (n : N) : l.count n + pc.holds n ≤ (s.node n).refs := by
  have hOne : pc.holds n ≤ s.sum (Pc.holds n) := by
    have hLe := le_tally (ifSome (Pc.holds n)) s.calls i
    rwa [hCall] at hLe
  rw [h.refs n]
  omega

theorem Sound.keeps_le (h : Sound s l) {i : Fin T} {pc : Pc N} (hCall : s.calls i = some pc)
    (n : N) :
    (s.used n).toNat + l.count n + (s.node n).shouldBeOnFreeList.toNat + pc.keeps n ≤ 1 := by
  have hOne : pc.keeps n ≤ s.sum (Pc.keeps n) := by
    have hLe := le_tally (ifSome (Pc.keeps n)) s.calls i
    rwa [hCall] at hLe
  have hAll := h.place n
  omega

/-- A node that is being added is marked, and its count is 0. -/
theorem Sound.adding (h : Sound s l) {i : Fin T} {pc : Pc N} (hCall : s.calls i = some pc)
    {n : N} (hAdds : pc.adds n = 1) :
    (s.node n).shouldBeOnFreeList = true ∧ (s.node n).refs = 0 := by
  have hOne : pc.adds n ≤ s.sum (Pc.adds n) := by
    have hLe := le_tally (ifSome (Pc.adds n)) s.calls i
    rwa [hCall] at hLe
  rw [h.adder n, FreeListNode.ownerless, hAdds] at hOne
  by_contra hNot
  rw [if_neg hNot] at hOne
  omega

/-- Nobody else relies on the link of a node that is being added. -/
theorem Sound.link_free (h : Sound s l) {i j : Fin T} (hNe : j ≠ i) {pc pc' : Pc N}
    (hCall : s.calls i = some pc) (hOther : s.calls j = some pc') {n : N}
    (hAdds : pc.adds n = 1) (next : Option N) : pc'.expects ≠ some (n, next) := by
  obtain ⟨hFlag, hRefs⟩ := h.adding hCall hAdds
  have hHolds := h.holds_le hOther n
  have hTwo : pc'.adds n + pc.adds n ≤ s.sum (Pc.adds n) := by
    have hLe := add_le_tally (ifSome (Pc.adds n)) s.calls hNe
    rwa [hCall, hOther] at hLe
  rw [h.adder n, FreeListNode.ownerless, if_pos ⟨hFlag, hRefs⟩, hAdds] at hTwo
  intro hExpects
  cases pc' with
  | popping m next' =>
    cases hExpects
    simp only [Pc.holds, if_pos] at hHolds
    omega
  | counting m head ret =>
    cases hExpects
    simp only [Pc.adds, if_pos] at hTwo
    omega
  | pushing m head ret =>
    cases hExpects
    simp only [Pc.holds, if_pos] at hHolds
    omega
  | _ => cases hExpects

@[simp] theorem loop_holds (head : Option N) (n : N) : (loop head).holds n = 0 := by
  cases head <;> rfl

@[simp] theorem loop_keeps (head : Option N) (n : N) : (loop head).keeps n = 0 := by
  cases head <;> rfl

@[simp] theorem loop_adds (head : Option N) (n : N) : (loop head).adds n = 0 := by
  cases head <;> rfl

omit [DecidableEq N] in
@[simp] theorem loop_inert (head : Option N) : (loop head).inert = true := by
  cases head <;> rfl

@[simp] theorem Return.pc_holds (ret : Return N) (n : N) : ret.pc.holds n = 0 := by
  cases ret with
  | add => rfl
  | tryGet head => exact loop_holds head n

@[simp] theorem Return.pc_keeps (ret : Return N) (n : N) : ret.pc.keeps n = 0 := by
  cases ret with
  | add => rfl
  | tryGet head => exact loop_keeps head n

@[simp] theorem Return.pc_adds (ret : Return N) (n : N) : ret.pc.adds n = 0 := by
  cases ret with
  | add => rfl
  | tryGet head => exact loop_adds head n

omit [DecidableEq N] in
@[simp] theorem Return.pc_inert (ret : Return N) : ret.pc.inert = true := by
  cases ret with
  | add => rfl
  | tryGet head => exact loop_inert head

/-- The exchange of `freeListHead` in `try_get` takes the first node, and
leaves the list from the link that was loaded. -/
theorem Sound.pop (h : Sound s l) {i : Fin T} {n : N} {next : Option N}
    (hCall : s.calls i = some (.popping n next)) (hHead : s.head = some n) :
    ∃ l', l = n :: l' ∧
      Sound { s with head := next, calls := Function.update s.calls i (some (.popped n)) } l' := by
  have hNext : (s.node n).next = next := h.link hCall rfl
  cases l with
  | nil =>
    have hEmpty : s.head = none := h.chain
    rw [hEmpty] at hHead
    cases hHead
  | cons m l =>
    obtain ⟨hFirst, hRest⟩ := h.chain
    rw [hHead] at hFirst
    cases hFirst
    rw [hNext] at hRest
    refine ⟨l, rfl, h.update i (some (.popped n)) rfl hRest ?_ ?_ ?_ ?_ ?_ ?_⟩
    · intro m
      rw [hCall, List.count_cons]
      simp only [ifSome, Pc.holds, beq_iff_eq, eq_comm (a := n) (b := m)]
      split <;> omega
    · intro m
      rw [hCall, List.count_cons]
      simp only [ifSome, Pc.keeps, beq_iff_eq, eq_comm (a := n) (b := m)]
      split <;> omega
    · intro m
      rw [hCall]
      rfl
    · intro pc m next hEq hExpects
      cases hEq
      cases hExpects
    · intro _ _ _ _ _ _ _
      rfl
    · intro m refs flag hEq
      cases hEq

/-- The exchange in `add_knowing_refcount_is_zero` puts the node before the
list. -/
theorem Sound.push (h : Sound s l) {i : Fin T} {n : N} {ret : Return N}
    (hCall : s.calls i = some (.pushing n s.head ret)) :
    Sound { s with head := some n, calls := Function.update s.calls i (some ret.pc) }
      (n :: l) := by
  have hNext : (s.node n).next = s.head := h.link hCall rfl
  refine h.update i (some ret.pc) rfl ⟨rfl, hNext.symm ▸ h.chain⟩ ?_ ?_ ?_ ?_ ?_ ?_
  · intro m
    rw [hCall, List.count_cons]
    simp only [ifSome, Return.pc_holds]
    simp only [Pc.holds, beq_iff_eq, eq_comm (a := n) (b := m)]
    omega
  · intro m
    rw [hCall, List.count_cons]
    simp only [ifSome, Return.pc_keeps]
    simp only [Pc.keeps, beq_iff_eq, eq_comm (a := n) (b := m)]
    omega
  · intro m
    rw [hCall]
    simp only [ifSome, Return.pc_adds]
    rfl
  · intro pc m next hEq hExpects
    cases hEq
    rw [Pc.expects_of_inert ret.pc_inert] at hExpects
    cases hExpects
  · intro _ _ _ _ _ _ _
    rfl
  · intro m refs flag hEq
    exact absurd (Option.some.inj hEq) (Pc.ne_taking_of_inert ret.pc_inert m refs flag)

/-- The link of a node that is being added may be written. -/
theorem Sound.relink (h : Sound s l) {i : Fin T} {n : N} {head : Option N} {ret : Return N}
    (hCall : s.calls i = some (.linking n head ret)) :
    Sound { s.write n { s.node n with next := head } with
      calls := Function.update s.calls i (some (.counting n head ret)) } l := by
  have hAdds : Pc.adds n (.linking n head ret) = 1 := if_pos rfl
  obtain ⟨hFlag, hZero⟩ := h.adding hCall hAdds
  have hOff : ∀ m ∈ l, m ≠ n := by
    rintro m hm rfl
    have hHolds := h.holds_le hCall m
    have hCount := List.count_pos_iff.mpr hm
    omega
  have hSame : ∀ m, m ≠ n →
      Function.update s.node n { s.node n with next := head } m = s.node m := by
    intro m hm
    rw [Function.update_of_ne hm]
  -- only the link of the node changes
  have hBooks : ∀ m,
      (Function.update s.node n { s.node n with next := head } m).refs = (s.node m).refs ∧
      (Function.update s.node n { s.node n with next := head } m).shouldBeOnFreeList =
        (s.node m).shouldBeOnFreeList := by
    intro m
    by_cases hm : m = n
    · subst hm
      rw [Function.update_self]
      exact ⟨rfl, rfl⟩
    · rw [hSame m hm]
      exact ⟨rfl, rfl⟩
  refine h.update i (some (.counting n head ret)) rfl ?_ ?_ ?_ ?_ ?_ ?_ ?_
  · refine h.chain.congr fun m hm => ?_
    show (Function.update s.node n _ m).next = _
    rw [hSame m (hOff m hm)]
  · intro m
    rw [hCall]
    show (Function.update s.node n _ m).refs + _ + 0 = _ + _ + 0
    rw [(hBooks m).1]
  · intro m
    rw [hCall]
    show _ + _ + (Function.update s.node n _ m).shouldBeOnFreeList.toNat + 0 = _ + _ + _ + 0
    rw [(hBooks m).2]
    rfl
  · intro m
    rw [hCall]
    show FreeListNode.ownerless (Function.update s.node n _ m) + _ = _ + _
    rw [FreeListNode.ownerless, FreeListNode.ownerless, (hBooks m).1, (hBooks m).2]
    rfl
  · intro pc m next hEq hExpects
    cases hEq
    cases hExpects
    show (Function.update s.node n _ n).next = _
    rw [Function.update_self]
  · intro j pc m next hj hOther hExpects
    show (Function.update s.node n _ m).next = _
    rw [hSame m]
    rintro rfl
    exact h.link_free hj hCall hOther hAdds next hExpects
  · intro m refs flag hEq
    cases hEq

/-- A node that a call keeps is not marked. -/
theorem Sound.kept (h : Sound s l) {i : Fin T} {pc : Pc N} (hCall : s.calls i = some pc)
    {n : N} (hKeeps : pc.keeps n = 1) : (s.node n).shouldBeOnFreeList = false := by
  have hLe := h.keeps_le hCall n
  rw [hKeeps] at hLe
  exact Bool.toNat_eq_zero.mp (by omega)

theorem Sound.take (h : Sound s l) {i : Fin T} {n : N} {refs : Nat} {flag : Bool}
    (hCall : s.calls i = some (.taking n refs flag)) (hRefs : (s.node n).refs = refs) :
    Sound { s.write n { s.node n with refs := refs + 1 } with
      calls := Function.update s.calls i (some (.loadingNext n)) } l := by
  have hSome : refs ≠ 0 := h.shared hCall
  refine h.writeForget hCall n (refs + 1) (s.node n).shouldBeOnFreeList _ rfl ?_ rfl ?_ ?_
  · simp only [Pc.holds, if_pos]
    omega
  · unfold FreeListNode.ownerless
    simp [hRefs, hSome, Pc.adds]
  · intro m hm
    exact ⟨if_neg hm, rfl, rfl⟩

theorem Sound.takeOff (h : Sound s l) {i : Fin T} {n : N}
    (hCall : s.calls i = some (.popped n)) :
    Sound { s.write n { s.node n with refs := (s.node n).refs - 2 } with
      calls := Function.update s.calls i (some (.got (some n))) } l := by
  have hTwo : Pc.holds n (.popped n) = 2 := if_pos rfl
  have hHolds := h.holds_le hCall n
  have hFlag := h.kept hCall (if_pos rfl)
  refine h.writeForget hCall n ((s.node n).refs - 2) (s.node n).shouldBeOnFreeList _ rfl ?_ rfl
    ?_ ?_
  · show _ + _ = _ + 0
    omega
  · unfold FreeListNode.ownerless
    simp [hFlag, Pc.adds]
  · intro m hm
    exact ⟨(if_neg hm).symm, rfl, rfl⟩

/-- The reference of a failed `try_get` is given back; the last one takes the
node over if it is marked. -/
theorem Sound.drop (h : Sound s l) {i : Fin T} {n : N} {head : Option N}
    (hCall : s.calls i = some (.dropping n head)) :
    Sound { s.write n { s.node n with refs := (s.node n).refs - 1 } with
      calls := Function.update s.calls i (some
        (if (s.node n).refs = 1 ∧ (s.node n).shouldBeOnFreeList then .adding n (.tryGet head)
          else loop head)) } l := by
  have hOne : Pc.holds n (.dropping n head) = 1 := if_pos rfl
  have hHolds := h.holds_le hCall n
  split
  · next hLast =>
    refine h.writeForget hCall n ((s.node n).refs - 1) (s.node n).shouldBeOnFreeList _ rfl ?_ rfl
      ?_ ?_
    · show _ + _ = _ + 0
      omega
    · unfold FreeListNode.ownerless
      simp [hLast.1, hLast.2, Pc.adds]
    · intro m hm
      exact ⟨(if_neg hm).symm, rfl, if_neg hm⟩
  · next hLast =>
    refine h.writeForget hCall n ((s.node n).refs - 1) (s.node n).shouldBeOnFreeList _
      (loop_inert head) ?_ ?_ ?_ ?_
    · rw [loop_holds]
      omega
    · rw [loop_keeps]
      rfl
    · rw [loop_adds]
      have hNew : ¬((s.node n).shouldBeOnFreeList = true ∧ (s.node n).refs - 1 = 0) := by
        rintro ⟨hFlag, hZero⟩
        exact hLast ⟨by omega, hFlag⟩
      have hOld : ¬((s.node n).shouldBeOnFreeList = true ∧ (s.node n).refs = 0) := by
        rintro ⟨-, hZero⟩
        omega
      unfold FreeListNode.ownerless
      rw [if_neg hNew, if_neg hOld]
      rfl
    · intro m hm
      exact ⟨(loop_holds head m).trans (if_neg hm).symm, loop_keeps head m, loop_adds head m⟩

theorem Sound.flag (h : Sound s l) {i : Fin T} {n : N} (hCall : s.calls i = some (.flagging n)) :
    Sound { s.write n { s.node n with shouldBeOnFreeList := true } with
      calls := Function.update s.calls i (some
        (if (s.node n).refs = 0 ∧ (s.node n).shouldBeOnFreeList = false then .adding n .add
          else .added)) } l := by
  have hFlag := h.kept hCall (if_pos rfl)
  split
  · next hLast =>
    refine h.writeForget hCall n (s.node n).refs true _ rfl rfl ?_ ?_ ?_
    · simp [Pc.keeps, hFlag]
    · unfold FreeListNode.ownerless
      simp [hLast.1, hFlag, Pc.adds]
    · intro m hm
      exact ⟨rfl, (if_neg hm).symm, if_neg hm⟩
  · next hLast =>
    have hRefs : (s.node n).refs ≠ 0 := fun hZero => hLast ⟨hZero, hFlag⟩
    refine h.writeForget hCall n (s.node n).refs true _ rfl rfl ?_ ?_ ?_
    · simp [Pc.keeps, hFlag]
    · unfold FreeListNode.ownerless
      simp [hRefs, Pc.adds]
    · intro m hm
      exact ⟨rfl, (if_neg hm).symm, rfl⟩

theorem Sound.count (h : Sound s l) {i : Fin T} {n : N} {head : Option N} {ret : Return N}
    (hCall : s.calls i = some (.counting n head ret)) :
    Sound { s.write n { s.node n with refs := 1, shouldBeOnFreeList := false } with
      calls := Function.update s.calls i (some (.pushing n head ret)) } l := by
  obtain ⟨hFlag, hZero⟩ := h.adding hCall (if_pos rfl)
  refine h.write hCall n 1 false _ ?_ ?_ ?_ ?_ ?_ ?_
  · intro m next hExpects
    cases hExpects
    exact h.link hCall rfl
  · intro m refs flag hEq
    cases hEq
  · simp [Pc.holds, hZero]
  · simp [Pc.keeps, hFlag]
  · unfold FreeListNode.ownerless
    simp [hFlag, hZero, Pc.adds]
  · intro m hm
    exact ⟨if_neg hm, if_neg hm, (if_neg hm).symm⟩

/-- The reference of the list is taken back after a failed exchange; the last
reference tries again. -/
theorem Sound.undo (h : Sound s l) {i : Fin T} {n : N} {head : Option N} {ret : Return N}
    (hCall : s.calls i = some (.undoing n head ret)) :
    Sound { s.write n
        { s.node n with refs := (s.node n).refs - 1, shouldBeOnFreeList := true } with
      calls := Function.update s.calls i (some
        (if (s.node n).refs = 1 ∧ (s.node n).shouldBeOnFreeList = false then .linking n head ret
          else ret.pc)) } l := by
  have hOne : Pc.holds n (.undoing n head ret) = 1 := if_pos rfl
  have hKeeps : Pc.keeps n (.undoing n head ret) = 1 := if_pos rfl
  have hHolds := h.holds_le hCall n
  have hFlag := h.kept hCall hKeeps
  split
  · next hLast =>
    refine h.writeForget hCall n ((s.node n).refs - 1) true _ rfl ?_ ?_ ?_ ?_
    · show _ + _ = _ + 0
      omega
    · rw [hFlag, hKeeps]
      rfl
    · unfold FreeListNode.ownerless
      simp [hLast.1, hFlag, Pc.adds]
    · intro m hm
      exact ⟨(if_neg hm).symm, (if_neg hm).symm, if_neg hm⟩
  · next hLast =>
    have hRefs : (s.node n).refs - 1 ≠ 0 := by
      intro hZero
      exact hLast ⟨by omega, hFlag⟩
    refine h.writeForget hCall n ((s.node n).refs - 1) true _ ret.pc_inert ?_ ?_ ?_ ?_
    · rw [Return.pc_holds]
      omega
    · rw [hFlag, hKeeps, Return.pc_keeps]
      rfl
    · rw [Return.pc_adds]
      unfold FreeListNode.ownerless
      simp [hRefs, hFlag, Pc.adds]
    · intro m hm
      exact ⟨(ret.pc_holds m).trans (if_neg hm).symm, (ret.pc_keeps m).trans (if_neg hm).symm,
        ret.pc_adds m⟩

/-- One access of a call keeps the invariant. -/
theorem Sound.access (h : Sound s l) {i : Fin T} {pc pc' : Pc N} {t : FreeList T N}
    (hCall : s.calls i = some pc) (hStep : stepCall s pc = some (t, pc')) :
    ∃ l', Sound { t with calls := Function.update t.calls i (some pc') } l' := by
  cases pc with
  | loadingHead =>
    cases hStep
    exact ⟨l, h.forget hCall _ (loop_inert s.head) fun n =>
      ⟨loop_holds s.head n, loop_keeps s.head n, loop_adds s.head n⟩⟩
  | loadingRefs n =>
    simp only [stepCall, Option.some.injEq, Prod.mk.injEq] at hStep
    obtain ⟨rfl, rfl⟩ := hStep
    split
    · exact ⟨l, h.forget hCall _ rfl fun m => ⟨rfl, rfl, rfl⟩⟩
    · next hRefs =>
      refine ⟨l, h.look hCall _ (fun m => ⟨rfl, rfl, rfl⟩) ?_ ?_⟩
      · intro m next hExpects
        cases hExpects
      · intro m refs flag hEq
        cases hEq
        exact hRefs
  | taking n refs flag =>
    simp only [stepCall] at hStep
    split at hStep
    · next hSeen =>
      cases hStep
      exact ⟨l, h.take hCall hSeen.1⟩
    · cases hStep
      exact ⟨l, h.forget hCall _ rfl fun m => ⟨rfl, rfl, rfl⟩⟩
  | loadingNext n =>
    cases hStep
    refine ⟨l, h.look hCall _ (fun m => ⟨rfl, rfl, rfl⟩) ?_ ?_⟩
    · intro m next hExpects
      cases hExpects
      rfl
    · intro m refs flag hEq
      cases hEq
  | popping n next =>
    simp only [stepCall] at hStep
    split at hStep
    · next hHead =>
      cases hStep
      obtain ⟨l', -, hSound⟩ := h.pop hCall hHead
      exact ⟨l', hSound⟩
    · cases hStep
      exact ⟨l, h.forget hCall _ rfl fun m => ⟨rfl, rfl, rfl⟩⟩
  | popped n =>
    cases hStep
    exact ⟨l, h.takeOff hCall⟩
  | dropping n head =>
    cases hStep
    exact ⟨l, h.drop hCall⟩
  | got n => cases hStep
  | flagging n =>
    cases hStep
    exact ⟨l, h.flag hCall⟩
  | adding n ret =>
    cases hStep
    exact ⟨l, h.forget hCall _ rfl fun m => ⟨rfl, rfl, rfl⟩⟩
  | linking n head ret =>
    cases hStep
    exact ⟨l, h.relink hCall⟩
  | counting n head ret =>
    cases hStep
    exact ⟨l, h.count hCall⟩
  | pushing n head ret =>
    simp only [stepCall] at hStep
    split at hStep
    · next hHead =>
      cases hStep
      subst hHead
      exact ⟨n :: l, h.push hCall⟩
    · cases hStep
      exact ⟨l, h.forget hCall _ rfl fun m => ⟨rfl, rfl, rfl⟩⟩
  | undoing n head ret =>
    cases hStep
    exact ⟨l, h.undo hCall⟩
  | added => cases hStep

/-- A call begins or ends. -/
theorem Sound.pass (h : Sound s l) (i : Fin T) (x : Option (Pc N)) (used : N → Bool)
    (hIdle : ∀ n, ifSome (Pc.holds n) x = ifSome (Pc.holds n) (s.calls i) ∧
      ifSome (Pc.adds n) x = ifSome (Pc.adds n) (s.calls i))
    (hUser : ∀ n, (used n).toNat + ifSome (Pc.keeps n) x =
      (s.used n).toNat + ifSome (Pc.keeps n) (s.calls i))
    (hInert : ∀ pc, x = some pc → pc.inert = true) :
    Sound { s with calls := Function.update s.calls i x, used := used } l := by
  refine h.update i x rfl h.chain ?_ ?_ ?_ ?_ (fun _ _ _ _ _ _ _ => rfl) ?_
  · intro n
    rw [(hIdle n).1]
  · intro n
    have hBooks := hUser n
    dsimp only
    omega
  · intro n
    rw [(hIdle n).2]
  · intro pc n next hEq hExpects
    rw [Pc.expects_of_inert (hInert pc hEq)] at hExpects
    cases hExpects
  · intro n refs flag hEq
    cases hInert _ hEq

theorem Sound.step (h : Sound s l) {a : Label T N} (hStep : FreeList.step s a = some s') :
    ∃ l', Sound s' l' := by
  cases a with
  | tryGet i =>
    simp only [FreeList.step] at hStep
    split at hStep
    · next hIdle =>
      cases hStep
      refine ⟨l, h.pass i _ s.used ?_ ?_ ?_⟩
      · intro n
        rw [hIdle]
        exact ⟨rfl, rfl⟩
      · intro n
        rw [hIdle]
        rfl
      · intro pc hEq
        cases hEq
        rfl
    · cases hStep
  | add i n =>
    simp only [FreeList.step] at hStep
    split at hStep
    · next hIdle =>
      split at hStep
      · next hUsed =>
        cases hStep
        refine ⟨l, h.pass i _ _ ?_ ?_ ?_⟩
        · intro m
          rw [hIdle]
          exact ⟨rfl, rfl⟩
        · intro m
          rw [hIdle]
          simp only [ifSome, Pc.keeps, Function.update_apply]
          split
          · next hm =>
            subst hm
            rw [hUsed]
            rfl
          · rfl
        · intro pc hEq
          cases hEq
          rfl
      · cases hStep
    · cases hStep
  | step i =>
    simp only [FreeList.step] at hStep
    split at hStep
    · next pc hCall =>
      obtain ⟨⟨t, pc'⟩, hAccess, rfl⟩ := Option.map_eq_some_iff.mp hStep
      exact h.access hCall hAccess
    · cases hStep
  | ret i =>
    simp only [FreeList.step] at hStep
    split at hStep
    · next n hCall =>
      cases hStep
      have hOff := h.keeps_le hCall n
      have hOne : Pc.keeps n (.got (some n)) = 1 := if_pos rfl
      have hNotUsed : s.used n = false := Bool.toNat_eq_zero.mp (by omega)
      refine ⟨l, h.pass i none _ ?_ ?_ ?_⟩
      · intro m
        rw [hCall]
        exact ⟨rfl, rfl⟩
      · intro m
        rw [hCall]
        simp only [ifSome, Pc.keeps, Function.update_apply]
        split
        · next hm =>
          subst hm
          rw [hNotUsed]
          rfl
        · rfl
      · intro pc hEq
        cases hEq
    · next hCall =>
      cases hStep
      refine ⟨l, h.pass i none s.used ?_ ?_ ?_⟩
      · intro m
        rw [hCall]
        exact ⟨rfl, rfl⟩
      · intro m
        rw [hCall]
        rfl
      · intro pc hEq
        cases hEq
    · next hCall =>
      cases hStep
      refine ⟨l, h.pass i none s.used ?_ ?_ ?_⟩
      · intro m
        rw [hCall]
        exact ⟨rfl, rfl⟩
      · intro m
        rw [hCall]
        rfl
      · intro pc hEq
        cases hEq
    · cases hStep

theorem sound_of_reachable (h : (system T N).Reachable s) : ∃ l, Sound s l :=
  System.Reachable.induction (P := fun s => ∃ l, Sound s l) ⟨[], Sound.init T N⟩
    (fun _ _ _ _ hSound hStep => hSound.elim fun _ hl => hl.step hStep) h

-- ---------------------------------------------------------------------------
-- Where the nodes are
-- ---------------------------------------------------------------------------

theorem Sound.nodup (h : Sound s l) : l.Nodup := by
  rw [List.nodup_iff_count_le_one]
  intro n
  have hPlace := h.place n
  omega

/-- One of two threads has put a node back, and the other has a reference to
it and has not tried to take it off yet. -/
def sharedRun : List (Label 2 Bool) :=
  .add Process.first true :: List.replicate 5 (.step Process.first) ++
    [.ret Process.first, .tryGet Process.second] ++ List.replicate 3 (.step Process.second)

def shared : FreeList 2 Bool := ((system 2 Bool).run (system 2 Bool).init sharedRun).get rfl

/-- **A node is handed out once.** The nodes on the list are with no user and
returned to no call, and a node that a call returns is with no user and
returned to no other call. -/
theorem handed_out_once (h : (system T N).Reachable s) :
    ∃ l, Chain s.node s.head l ∧ l.Nodup ∧
      (∀ n ∈ l, s.used n = false ∧ ∀ i, s.calls i ≠ some (.got (some n))) ∧
      ∀ i n, s.calls i = some (.got (some n)) →
        s.used n = false ∧ ∀ j, j ≠ i → s.calls j ≠ some (.got (some n)) := by
  obtain ⟨l, hSound⟩ := sound_of_reachable h
  have hGot : ∀ n : N, Pc.keeps n (.got (some n)) = 1 := fun n => if_pos rfl
  refine ⟨l, hSound.chain, hSound.nodup, ?_, ?_⟩
  · intro n hn
    have hOn : 0 < l.count n := List.count_pos_iff.mpr hn
    have hPlace := hSound.place n
    refine ⟨Bool.toNat_eq_zero.mp (by omega), ?_⟩
    intro i hCall
    have hKeeps := hSound.keeps_le hCall n
    rw [hGot n] at hKeeps
    omega
  · intro i n hCall
    have hKeeps := hSound.keeps_le hCall n
    rw [hGot n] at hKeeps
    refine ⟨Bool.toNat_eq_zero.mp (by omega), ?_⟩
    intro j hj hOther
    have hTwo : Pc.keeps n (.got (some n)) + Pc.keeps n (.got (some n)) ≤ s.sum (Pc.keeps n) := by
      have hLe := add_le_tally (ifSome (Pc.keeps n)) s.calls hj
      rwa [hCall, hOther] at hLe
    have hPlace := hSound.place n
    rw [hGot n] at hTwo
    omega

theorem handed_out_once_shared :
    ∃ l, Chain shared.node shared.head l ∧ l.Nodup ∧
      (∀ n ∈ l, shared.used n = false ∧ ∀ i, shared.calls i ≠ some (.got (some n))) ∧
      ∀ i n, shared.calls i = some (.got (some n)) →
        shared.used n = false ∧ ∀ j, j ≠ i → shared.calls j ≠ some (.got (some n)) :=
  handed_out_once (System.Reachable.get sharedRun rfl)

/-- The call has to do with node `n`: it holds a reference to it, or the node
is with it, or it is adding the node. -/
def Pc.Handles (n : N) (pc : Pc N) : Prop := 0 < pc.holds n + pc.keeps n + pc.adds n

/-- **No node is lost.** A node that is with no user and not on the list is
in the hands of a call in progress. Between calls a node is with a user or on
the list, its count is the reference of the list, and its bit is clear. -/
theorem nothing_lost (h : (system T N).Reachable s) :
    ∃ l, Chain s.node s.head l ∧
      (∀ n, s.used n = false → n ∉ l → ∃ i pc, s.calls i = some pc ∧ pc.Handles n) ∧
      ((∀ i, s.calls i = none) → ∀ n, (s.used n = false ↔ n ∈ l) ∧
        (s.node n).refs = l.count n ∧ (s.node n).shouldBeOnFreeList = false) := by
  obtain ⟨l, hSound⟩ := sound_of_reachable h
  have hSomewhere : ∀ n, s.used n = false → n ∉ l →
      0 < s.sum (Pc.holds n) ∨ 0 < s.sum (Pc.keeps n) ∨ 0 < s.sum (Pc.adds n) := by
    intro n hUsed hOff
    have hPlace := hSound.place n
    have hRefs := hSound.refs n
    have hAdder := hSound.adder n
    rw [List.count_eq_zero_of_not_mem hOff] at hPlace hRefs
    rw [hUsed, Bool.toNat_false] at hPlace
    cases hFlag : (s.node n).shouldBeOnFreeList with
    | false =>
      rw [hFlag, Bool.toNat_false] at hPlace
      omega
    | true =>
      -- the last reference to a marked node adds it, or somebody holds one
      by_cases hZero : (s.node n).refs = 0
      · rw [FreeListNode.ownerless, if_pos ⟨hFlag, hZero⟩] at hAdder
        omega
      · omega
  have hOf : ∀ n (f : Pc N → Nat), 0 < s.sum f →
      (∀ pc, f pc ≤ pc.holds n + pc.keeps n + pc.adds n) →
      ∃ i pc, s.calls i = some pc ∧ pc.Handles n := by
    intro n f hPos hLe
    obtain ⟨i, hi⟩ := exists_of_tally_pos hPos
    cases hCall : s.calls i with
    | none =>
      rw [hCall] at hi
      exact absurd hi (Nat.lt_irrefl 0)
    | some pc =>
      rw [hCall] at hi
      exact ⟨i, pc, hCall, lt_of_lt_of_le hi (hLe pc)⟩
  have hHands : ∀ n, s.used n = false → n ∉ l → ∃ i pc, s.calls i = some pc ∧ pc.Handles n := by
    intro n hUsed hOff
    rcases hSomewhere n hUsed hOff with hPos | hPos | hPos
    · exact hOf n _ hPos fun pc => by omega
    · exact hOf n _ hPos fun pc => by omega
    · exact hOf n _ hPos fun pc => by omega
  refine ⟨l, hSound.chain, hHands, ?_⟩
  intro hIdle n
  have hZero : ∀ f, s.sum f = 0 := by
    intro f
    refine tally_eq_zero fun i => ?_
    rw [hIdle i]
    rfl
  have hRefs := hSound.refs n
  have hPlace := hSound.place n
  rw [hZero] at hRefs hPlace
  have hOn : n ∉ l → s.used n = true := by
    intro hOff
    cases hUsed : s.used n with
    | true => rfl
    | false =>
      obtain ⟨i, pc, hCall, -⟩ := hHands n hUsed hOff
      rw [hIdle i] at hCall
      cases hCall
  by_cases hMem : n ∈ l
  · have hCount := List.count_pos_iff.mpr hMem
    have hUsed : s.used n = false := Bool.toNat_eq_zero.mp (by omega)
    exact ⟨⟨fun _ => hMem, fun _ => hUsed⟩, hRefs, Bool.toNat_eq_zero.mp (by omega)⟩
  · have hUsed := hOn hMem
    rw [hUsed, Bool.toNat_true] at hPlace
    refine ⟨⟨fun hNot => ?_, fun hIn => absurd hIn hMem⟩, hRefs, Bool.toNat_eq_zero.mp (by omega)⟩
    rw [hUsed] at hNot
    cases hNot

theorem nothing_lost_shared :
    ∃ l, Chain shared.node shared.head l ∧
      (∀ n, shared.used n = false → n ∉ l → ∃ i pc, shared.calls i = some pc ∧ pc.Handles n) ∧
      ((∀ i, shared.calls i = none) → ∀ n, (shared.used n = false ↔ n ∈ l) ∧
        (shared.node n).refs = l.count n ∧ (shared.node n).shouldBeOnFreeList = false) :=
  nothing_lost (System.Reachable.get sharedRun rfl)

/-- **The count does not run into the bit.** A node has at most a reference of
the list and one of each thread, no call takes off more references than there
are, and the bit is clear where `try_get` asserts it and where a `fetch_add`
sets it. -/
theorem no_carry (h : (system T N).Reachable s) :
    (∀ n, (s.node n).refs ≤ T + 1) ∧
      ∀ i n,
        (s.calls i = some (.popped n) →
          2 ≤ (s.node n).refs ∧ (s.node n).shouldBeOnFreeList = false) ∧
        (∀ head, s.calls i = some (.dropping n head) → 1 ≤ (s.node n).refs) ∧
        (∀ head ret, s.calls i = some (.undoing n head ret) →
          1 ≤ (s.node n).refs ∧ (s.node n).shouldBeOnFreeList = false) ∧
        (s.calls i = some (.flagging n) → (s.node n).shouldBeOnFreeList = false) := by
  obtain ⟨l, hSound⟩ := sound_of_reachable h
  constructor
  · intro n
    have hRefs := hSound.refs n
    have hPlace := hSound.place n
    have hTwo : ∀ x : Option (Pc N), ifSome (Pc.holds n) x ≤ 1 + ifSome (Pc.keeps n) x := by
      intro x
      cases x with
      | none => exact Nat.zero_le _
      | some pc =>
        show pc.holds n ≤ 1 + pc.keeps n
        cases pc <;> simp only [Pc.holds, Pc.keeps] <;> (try split) <;> omega
    have hAll : s.sum (Pc.holds n) ≤ tally (fun _ => 1) s.calls + s.sum (Pc.keeps n) := by
      unfold sum
      rw [← tally_add]
      exact tally_mono hTwo
    have hThreads : tally (fun _ => 1) s.calls ≤ T := by
      have hCard := tally_le_card (f := fun _ => 1) (g := s.calls) fun _ => le_rfl
      rwa [Fintype.card_fin] at hCard
    omega
  · intro i n
    refine ⟨?_, ?_, ?_, ?_⟩
    · intro hCall
      have hTwo : Pc.holds n (.popped n) = 2 := if_pos rfl
      have hHolds := hSound.holds_le hCall n
      exact ⟨by omega, hSound.kept hCall (if_pos rfl)⟩
    · intro head hCall
      have hOne : Pc.holds n (.dropping n head) = 1 := if_pos rfl
      have hHolds := hSound.holds_le hCall n
      omega
    · intro head ret hCall
      have hOne : Pc.holds n (.undoing n head ret) = 1 := if_pos rfl
      have hHolds := hSound.holds_le hCall n
      exact ⟨by omega, hSound.kept hCall (if_pos rfl)⟩
    · intro hCall
      exact hSound.kept hCall (if_pos rfl)

theorem no_carry_shared :
    (∀ n, (shared.node n).refs ≤ 2 + 1) ∧
      ∀ i n,
        (shared.calls i = some (.popped n) →
          2 ≤ (shared.node n).refs ∧ (shared.node n).shouldBeOnFreeList = false) ∧
        (∀ head, shared.calls i = some (.dropping n head) → 1 ≤ (shared.node n).refs) ∧
        (∀ head ret, shared.calls i = some (.undoing n head ret) →
          1 ≤ (shared.node n).refs ∧ (shared.node n).shouldBeOnFreeList = false) ∧
        (shared.calls i = some (.flagging n) → (shared.node n).shouldBeOnFreeList = false) :=
  no_carry (System.Reachable.get sharedRun rfl)

-- ---------------------------------------------------------------------------
-- A call that nobody interferes with
-- ---------------------------------------------------------------------------

/-- Thread `i` has called `try_get`, has made `k` accesses since and is at
`pc`, with these shared values; the others have made none. -/
def Alone (s : FreeList T N) (i : Fin T) (k : Nat) (pc : Pc N) (head : Option N)
    (node : N → FreeListNode N) : Prop :=
  ∃ t, (system T N).run s (.tryGet i :: List.replicate k (.step i)) = some t ∧
    t.calls i = some pc ∧ t.head = head ∧ t.node = node

theorem Alone.enter {i : Fin T} (hIdle : s.calls i = none) :
    Alone s i 0 .loadingHead s.head s.node :=
  ⟨{ s with calls := Function.update s.calls i (some .loadingHead) },
    System.run_cons.mpr ⟨_, by simp only [system, step, hIdle], rfl⟩,
    Function.update_self .., rfl, rfl⟩

theorem Alone.step {i : Fin T} {k : Nat} {pc pc' : Pc N} {head head' : Option N}
    {node node' : N → FreeListNode N} (h : Alone s i k pc head node)
    (hStep : ∀ t : FreeList T N, t.head = head → t.node = node →
      ∃ u, stepCall t pc = some (u, pc') ∧ u.head = head' ∧ u.node = node') :
    Alone s i (k + 1) pc' head' node' := by
  obtain ⟨t, hRun, hCall, hHead, hNode⟩ := h
  obtain ⟨u, hAccess, hHead', hNode'⟩ := hStep t hHead hNode
  refine ⟨{ u with calls := Function.update u.calls i (some pc') }, ?_,
    Function.update_self .., hHead', hNode'⟩
  rw [List.replicate_succ', ← List.cons_append]
  refine System.run_append.mpr ⟨t, hRun, System.run_cons.mpr ⟨_, ?_, rfl⟩⟩
  simp only [system, FreeList.step, hCall, hAccess, Option.map_some]

/-- **Alone, `try_get` takes the first node.** Wherever the other threads have
stopped, a call that is left alone returns within six accesses, with the node
that was at the head, and leaves the rest of the list. -/
theorem try_get_alone (h : (system T N).Reachable s) {i : Fin T} (hIdle : s.calls i = none) :
    ∃ k ≤ 6, ∃ t, (system T N).run s (.tryGet i :: List.replicate k (.step i)) = some t ∧
      t.calls i = some (.got s.head) ∧
      ∃ l, Chain s.node s.head l ∧ Chain t.node t.head l.tail := by
  obtain ⟨l, hSound⟩ := sound_of_reachable h
  have hEntered := Alone.enter hIdle
  cases l with
  | nil =>
    have hHead : s.head = none := hSound.chain
    have hGot : Alone s i 1 (.got none) s.head s.node := hEntered.step fun t ht hNode =>
      ⟨t, by simp only [stepCall, ht, hHead, loop], ht, hNode⟩
    obtain ⟨t, hRun, hCall, ht, -⟩ := hGot
    exact ⟨1, by omega, t, hRun, hHead.symm ▸ hCall, [], hSound.chain, ht.trans hHead⟩
  | cons n l =>
    obtain ⟨hHead, hRest⟩ := hSound.chain
    let taken := Function.update s.node n { s.node n with refs := (s.node n).refs + 1 }
    let left := Function.update taken n { taken n with refs := (taken n).refs - 2 }
    -- the list has a reference to its node, so the count is not 0
    have hRefs : (s.node n).refs ≠ 0 := by
      have hBooks := hSound.refs n
      rw [List.count_cons_self] at hBooks
      omega
    have hAt : Alone s i 1 (.loadingRefs n) s.head s.node := hEntered.step fun t ht hNode =>
      ⟨t, by simp only [stepCall, ht, hHead, loop], ht, hNode⟩
    have hSeen : Alone s i 2 (.taking n (s.node n).refs (s.node n).shouldBeOnFreeList) s.head
        s.node := hAt.step fun t ht hNode =>
      ⟨t, by simp only [stepCall, hNode, if_neg hRefs], ht, hNode⟩
    have hTaken : Alone s i 3 (.loadingNext n) s.head taken := hSeen.step fun t ht hNode =>
      ⟨t.write n { t.node n with refs := (s.node n).refs + 1 }, by
        simp only [stepCall, hNode, and_self, if_true], ht, by
        simp only [FreeList.write, hNode, taken]⟩
    have hNext : Alone s i 4 (.popping n (taken n).next) s.head taken :=
      hTaken.step fun t ht hNode => ⟨t, by simp only [stepCall, hNode], ht, hNode⟩
    have hPopped : Alone s i 5 (.popped n) (taken n).next taken := hNext.step fun t ht hNode =>
      ⟨{ t with head := (taken n).next }, by simp only [stepCall, ht, hHead, if_true], rfl, hNode⟩
    have hGot : Alone s i 6 (.got (some n)) (taken n).next left := hPopped.step fun t ht hNode =>
      ⟨t.write n { t.node n with refs := (t.node n).refs - 2 }, by simp only [stepCall], ht, by
        simp only [FreeList.write, hNode, left]⟩
    obtain ⟨t, hRun, hCall, ht, hNode⟩ := hGot
    refine ⟨6, le_rfl, t, hRun, hHead.symm ▸ hCall, n :: l, hSound.chain, ?_⟩
    have hLinks : ∀ m, (left m).next = (s.node m).next := by
      intro m
      by_cases hm : m = n
      · subst hm
        simp only [left, taken, Function.update_self]
      · simp only [left, taken, Function.update_of_ne hm]
    rw [hNode, ht, show (taken n).next = (s.node n).next by
      simp only [taken, Function.update_self]]
    exact hRest.congr fun m _ => hLinks m

theorem try_get_alone_shared :
    ∃ k ≤ 6, ∃ t, (system 2 Bool).run shared
        (.tryGet Process.first :: List.replicate k (.step Process.first)) = some t ∧
      t.calls Process.first = some (.got shared.head) ∧
      ∃ l, Chain shared.node shared.head l ∧ Chain t.node t.head l.tail :=
  try_get_alone (System.Reachable.get sharedRun rfl) rfl

end FreeList

end ThreadPool.Model
