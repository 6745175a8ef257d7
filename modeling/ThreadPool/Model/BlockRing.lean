import ThreadPool.Model.ExplicitProducer

/-!
# ThreadPool — the ring of blocks

What the producer and the consumers of a sub-queue keep true of its blocks and
of its block indices, one operation at a time. Blocks are numbered in the order
in which the producer fills them; a block that is reused gets a new number.

* `Linked` — the blocks that are in use form a ring: the producer goes on to
  the oldest (`Linked.reuse`) or puts a new one behind the tail
  (`Linked.insert`);
* `Stored` — what they hold: `Stored.construct`, `Stored.moveOut`,
  `Stored.setEmpty`, and `Stored.leave` and `Stored.append` for a block that is
  done with and one that is started;
* `Listed` — a block index has the entries of the blocks in use.
-/

namespace ThreadPool.Model

open ThreadPool.Lib

namespace ExplicitProducer

variable {T : Nat} {B τ : Type} {tr : Traits}

-- ---------------------------------------------------------------------------
-- Arithmetic of blocks
-- ---------------------------------------------------------------------------

theorem Traits.blockSize_pos (tr : Traits) : 0 < tr.blockSize :=
  Nat.lt_of_succ_lt tr.one_lt_blockSize

theorem Traits.blockSize_le (tr : Traits) : (tr.blockSize : Int) ≤ indexHalf := by
  have hLe := Int.le_of_dvd (by decide) tr.fits
  have hTwo : 2 * tr.blockSize ≤ 2 * tr.indexSize * tr.blockSize :=
    Nat.mul_le_mul_right _ (Nat.le_mul_of_pos_right 2 tr.indexSize_pos)
  unfold indexRange at hLe
  unfold indexHalf
  omega

/-- The first index behind the block of `i`. -/
theorem block_end (tr : Traits) (i : Nat) :
    i - i % tr.blockSize + tr.blockSize = (i / tr.blockSize + 1) * tr.blockSize := by
  have hDiv := Nat.div_add_mod i tr.blockSize
  rw [Nat.add_mul, Nat.one_mul, Nat.mul_comm]
  omega

theorem block_start (tr : Traits) (i : Nat) :
    i - i % tr.blockSize = i / tr.blockSize * tr.blockSize := by
  have hDiv := Nat.div_add_mod i tr.blockSize
  rw [Nat.mul_comm]
  omega

theorem endIndex_eq (tr : Traits) {firstIndex actualCount index : Nat}
    (hCount : (actualCount : Int) < indexHalf) (hFirst : firstIndex ≤ index)
    (hLast : index < firstIndex + actualCount) :
    endIndex tr firstIndex actualCount index =
      min (firstIndex + actualCount) ((index / tr.blockSize + 1) * tr.blockSize) := by
  have hPos := Traits.blockSize_pos tr
  have hLe := Traits.blockSize_le tr
  have hMod := Nat.mod_lt index hPos
  have hEnd := block_end tr index
  have hNear : SubQueue.Near ((index - index % tr.blockSize + tr.blockSize : Nat) : Int)
      ((firstIndex + actualCount : Nat) : Int) := by
    unfold SubQueue.Near
    omega
  unfold endIndex
  dsimp only
  split
  · next hLess =>
    have hLt := (SubQueue.circularLessThan_iff hNear).mp hLess
    omega
  · next hNot =>
    have hGe : ¬ ((firstIndex + actualCount : Nat) : Int) <
        ((index - index % tr.blockSize + tr.blockSize : Nat) : Int) :=
      fun hLt => hNot ((SubQueue.circularLessThan_iff hNear).mpr hLt)
    omega

-- ---------------------------------------------------------------------------
-- The ring
-- ---------------------------------------------------------------------------

/-- The blocks from number `start` on are linked in a ring. -/
structure Linked (next : B → Option B) (blocks : List B) (start : Nat) : Prop where
  start_le : start ≤ blocks.length
  start_lt : blocks ≠ [] → start < blocks.length
  link : ∀ q b c, start ≤ q → blocks[q]? = some b → blocks[q + 1]? = some c → next b = some c
  close : ∀ b c, blocks.getLast? = some b → blocks[start]? = some c → next b = some c
  distinct : (blocks.drop start).Nodup

variable {next : B → Option B} {blocks : List B} {start : Nat}

/-- In the ring a block has one number. -/
theorem Linked.number_eq (h : Linked next blocks start) {p q : Nat} {b : B}
    (hp : start ≤ p) (hq : start ≤ q) (hpb : blocks[p]? = some b) (hqb : blocks[q]? = some b) :
    p = q := by
  have hp' : (blocks.drop start)[p - start]? = some b := by
    rw [List.getElem?_drop, Nat.add_sub_cancel' hp, hpb]
  have hq' : (blocks.drop start)[q - start]? = some b := by
    rw [List.getElem?_drop, Nat.add_sub_cancel' hq, hqb]
  have hLt : p - start < (blocks.drop start).length := (List.getElem?_eq_some_iff.mp hp').1
  have hEq := (List.getElem?_inj hLt h.distinct).mp (hp'.trans hq'.symm)
  omega

/-- The block ahead of the newest is the oldest of the ring. -/
theorem Linked.next_last (h : Linked next blocks start) {t : B}
    (hLast : blocks.getLast? = some t) :
    ∃ c, blocks[start]? = some c ∧ next t = some c := by
  have hNe : blocks ≠ [] := by
    rintro rfl
    cases hLast
  have hLt := h.start_lt hNe
  exact ⟨blocks[start], List.getElem?_eq_getElem hLt, h.close t _ hLast
    (List.getElem?_eq_getElem hLt)⟩

/-- The oldest block becomes the newest. -/
theorem Linked.reuse (h : Linked next blocks start) {c : B} (hOldest : blocks[start]? = some c) :
    Linked next (blocks ++ [c]) (start + 1) := by
  obtain ⟨hLt, hGet⟩ := List.getElem?_eq_some_iff.mp hOldest
  obtain ⟨t, hLast⟩ : ∃ t, blocks.getLast? = some t := by
    refine ⟨blocks[blocks.length - 1], ?_⟩
    rw [List.getLast?_eq_getElem?, List.getElem?_eq_getElem]
  have hNext := h.close t c hLast hOldest
  refine ⟨?_, ?_, ?_, ?_, ?_⟩
  · rw [List.length_append]
    exact Nat.succ_le_of_lt (Nat.lt_add_right 1 hLt)
  · intro _
    rw [List.length_append]
    exact Nat.succ_lt_succ hLt
  · intro q b d hq hb hd
    by_cases hOld : q + 1 < blocks.length
    · rw [List.getElem?_append_left (by omega)] at hb
      rw [List.getElem?_append_left hOld] at hd
      exact h.link q b d (by omega) hb hd
    · -- the old tail, followed by the block that is reused
      have hLen : q + 1 < blocks.length + 1 := by
        have hBound := (List.getElem?_eq_some_iff.mp hd).1
        rwa [List.length_append] at hBound
      rw [List.getElem?_append_right (by omega), show q + 1 - blocks.length = 0 by omega] at hd
      rw [List.getElem?_append_left (by omega), show q = blocks.length - 1 by omega,
        ← List.getLast?_eq_getElem?, hLast] at hb
      cases hb
      cases hd
      exact hNext
  · intro b d hb hd
    rw [List.getLast?_concat] at hb
    cases hb
    by_cases hOld : start + 1 < blocks.length
    · rw [List.getElem?_append_left hOld] at hd
      exact h.link start c d le_rfl hOldest hd
    · -- a ring of one block
      rw [List.getElem?_append_right (by omega),
        show start + 1 - blocks.length = 0 by omega] at hd
      cases hd
      have hSame : blocks.getLast? = some c := by
        rw [List.getLast?_eq_getElem?, show blocks.length - 1 = start by omega, hOldest]
      exact h.close c c hSame hOldest
  · have hDrop := List.drop_eq_getElem_cons hLt
    rw [hGet] at hDrop
    have hNodup := h.distinct
    rw [hDrop, List.nodup_cons] at hNodup
    rw [List.drop_append_of_le_length hLt]
    exact List.nodup_append.mpr ⟨hNodup.2, List.nodup_singleton c, by
      intro x hx y hy hEq
      rw [List.mem_singleton] at hy
      subst hy hEq
      exact hNodup.1 hx⟩

variable [DecidableEq B]

/-- A new block goes in behind the newest. -/
theorem Linked.insert (h : Linked next blocks start) {t b : B}
    (hLast : blocks.getLast? = some t) (hNew : b ∉ blocks) :
    Linked (Function.update (Function.update next b (next t)) t (some b)) (blocks ++ [b])
      start := by
  have hMem : t ∈ blocks := List.mem_of_getLast? hLast
  have hNe : b ≠ t := by
    rintro rfl
    exact hNew hMem
  have hLt := h.start_lt (List.ne_nil_of_mem hMem)
  have hLastAt : blocks[blocks.length - 1]? = some t := by
    rw [← List.getLast?_eq_getElem?, hLast]
  refine ⟨?_, ?_, ?_, ?_, ?_⟩
  · rw [List.length_append]
    exact h.start_le.trans (Nat.le_add_right ..)
  · intro _
    rw [List.length_append]
    exact Nat.lt_add_right 1 hLt
  · intro q c d hq hc hd
    by_cases hOld : q + 1 < blocks.length
    · rw [List.getElem?_append_left (by omega)] at hc
      rw [List.getElem?_append_left hOld] at hd
      have hNotTail : c ≠ t := by
        rintro rfl
        have hEq := h.number_eq hq (by omega) hc hLastAt
        omega
      have hNotNew : c ≠ b := by
        rintro rfl
        exact hNew (List.mem_of_getElem? hc)
      rw [Function.update_of_ne hNotTail, Function.update_of_ne hNotNew]
      exact h.link q c d hq hc hd
    · have hLen : q + 1 < blocks.length + 1 := by
        have hBound := (List.getElem?_eq_some_iff.mp hd).1
        rwa [List.length_append] at hBound
      rw [List.getElem?_append_right (by omega), show q + 1 - blocks.length = 0 by omega] at hd
      rw [List.getElem?_append_left (by omega), show q = blocks.length - 1 by omega,
        hLastAt] at hc
      cases hc
      cases hd
      rw [Function.update_self]
  · intro c d hc hd
    rw [List.getLast?_concat] at hc
    cases hc
    rw [List.getElem?_append_left hLt] at hd
    rw [Function.update_of_ne hNe, Function.update_self]
    exact h.close t d hLast hd
  · rw [List.drop_append_of_le_length h.start_le]
    exact List.nodup_append.mpr ⟨h.distinct, List.nodup_singleton b, by
      intro x hx y hy hEq
      rw [List.mem_singleton] at hy
      subst hy hEq
      exact hNew (List.mem_of_mem_drop hx)⟩

/-- The first block is a ring by itself. -/
theorem Linked.first (h : Linked next blocks start) (hNil : blocks = []) (b : B) :
    Linked (Function.update next b (some b)) (blocks ++ [b]) start := by
  subst hNil
  have hZero : start = 0 := Nat.le_zero.mp h.start_le
  subst hZero
  refine ⟨Nat.zero_le _, fun _ => Nat.one_pos, ?_, ?_, List.nodup_singleton b⟩
  · intro q c d _ _ hd
    rw [List.nil_append] at hd
    have hBound := (List.getElem?_eq_some_iff.mp hd).1
    rw [List.length_singleton] at hBound
    omega
  · intro c d hc hd
    cases hd
    cases hc
    exact Function.update_self ..

-- ---------------------------------------------------------------------------
-- Elements and flags
-- ---------------------------------------------------------------------------

/-- What the blocks of the ring hold: the elements that have not been moved
out, and a flag for each index that is done with. Blocks are left behind only
when all of their indices are done with. -/
structure Stored (tr : Traits) (block : B → Block B τ) (blocks : List B) (start : Nat)
    (items : List τ) (head : Nat) (moved emptied : Nat → Bool) : Prop where
  element : ∀ i b, start ≤ i / tr.blockSize → blocks[i / tr.blockSize]? = some b →
    (block b).elements (i % tr.blockSize) = if moved i then none else items[i]?
  flag : ∀ i b, start ≤ i / tr.blockSize → blocks[i / tr.blockSize]? = some b →
    (block b).emptyFlags (tr.blockSize - 1 - i % tr.blockSize) = emptied i
  passed : ∀ i, i / tr.blockSize < start → emptied i = true
  moved_of_emptied : ∀ i, emptied i = true → moved i = true
  lt_of_moved : ∀ i, moved i = true → i < head

variable {block : B → Block B τ} {items : List τ} {head : Nat} {moved emptied : Nat → Bool}

omit [DecidableEq B] in
theorem Stored.start_le (h : Stored tr block blocks start items head moved emptied) {i : Nat}
    (hi : emptied i = false) : start ≤ i / tr.blockSize := by
  by_contra hLt
  have hPassed := h.passed i (Nat.lt_of_not_le hLt)
  rw [hi] at hPassed
  cases hPassed

omit [DecidableEq B] in
/-- What counts is the blocks from number `start` on. -/
theorem Stored.congr (h : Stored tr block blocks start items head moved emptied)
    {block' : B → Block B τ} (hSame : ∀ q c, start ≤ q → blocks[q]? = some c → block' c = block c) :
    Stored tr block' blocks start items head moved emptied where
  element := by
    intro i c hi hc
    rw [hSame _ c hi hc]
    exact h.element i c hi hc
  flag := by
    intro i c hi hc
    rw [hSame _ c hi hc]
    exact h.flag i c hi hc
  passed := h.passed
  moved_of_emptied := h.moved_of_emptied
  lt_of_moved := h.lt_of_moved

omit [DecidableEq B] in
/-- The oldest block is left behind when all of its indices are done with. -/
theorem Stored.leave (h : Stored tr block blocks start items head moved emptied)
    (hEmptied : ∀ i, i / tr.blockSize = start → emptied i = true) :
    Stored tr block blocks (start + 1) items head moved emptied where
  element i c hi := h.element i c (Nat.le_of_succ_le hi)
  flag i c hi := h.flag i c (Nat.le_of_succ_le hi)
  passed := by
    intro i hi
    rcases Nat.lt_succ_iff_lt_or_eq.mp hi with hOld | hThis
    · exact h.passed i hOld
    · exact hEmptied i hThis
  moved_of_emptied := h.moved_of_emptied
  lt_of_moved := h.lt_of_moved

omit [DecidableEq B] in
theorem Stored.mono (h : Stored tr block blocks start items head moved emptied) {head' : Nat}
    (hHead : head ≤ head') : Stored tr block blocks start items head' moved emptied where
  element := h.element
  flag := h.flag
  passed := h.passed
  moved_of_emptied := h.moved_of_emptied
  lt_of_moved i hi := (h.lt_of_moved i hi).trans_le hHead

/-- Position and block tell the index. -/
theorem index_eq {i j : Nat} (hDiv : i / tr.blockSize = j / tr.blockSize)
    (hMod : i % tr.blockSize = j % tr.blockSize) : i = j := by
  rw [← Nat.div_add_mod i tr.blockSize, ← Nat.div_add_mod j tr.blockSize, hDiv, hMod]

/-- A write to the place of index `x` is seen at no other index. -/
theorem Linked.elements_update (h : Linked next blocks start) {x i : Nat} {b c : B}
    (hx : start ≤ x / tr.blockSize) (hb : blocks[x / tr.blockSize]? = some b)
    (hi : start ≤ i / tr.blockSize) (hc : blocks[i / tr.blockSize]? = some c) (v : Option τ) :
    (Function.update block b { block b with
      elements := Function.update (block b).elements (x % tr.blockSize) v } c).elements
        (i % tr.blockSize) = if i = x then v else (block c).elements (i % tr.blockSize) := by
  by_cases hEq : i = x
  · subst hEq
    obtain rfl : c = b := Option.some.inj (hc.symm.trans hb)
    rw [if_pos rfl, Function.update_self]
    exact Function.update_self ..
  · rw [if_neg hEq]
    by_cases hSame : c = b
    · subst hSame
      have hMod : i % tr.blockSize ≠ x % tr.blockSize := fun hMod =>
        hEq (index_eq (h.number_eq hi hx hc hb) hMod)
      rw [Function.update_self]
      exact Function.update_of_ne hMod ..
    · rw [Function.update_of_ne hSame]

theorem Linked.flags_update (h : Linked next blocks start) {x i : Nat} {b c : B}
    (hx : start ≤ x / tr.blockSize) (hb : blocks[x / tr.blockSize]? = some b)
    (hi : start ≤ i / tr.blockSize) (hc : blocks[i / tr.blockSize]? = some c) :
    (Function.update block b { block b with
      emptyFlags := Function.update (block b).emptyFlags
        (tr.blockSize - 1 - x % tr.blockSize) true } c).emptyFlags
          (tr.blockSize - 1 - i % tr.blockSize) =
      if i = x then true else (block c).emptyFlags (tr.blockSize - 1 - i % tr.blockSize) := by
  by_cases hEq : i = x
  · subst hEq
    obtain rfl : c = b := Option.some.inj (hc.symm.trans hb)
    rw [if_pos rfl, Function.update_self]
    exact Function.update_self ..
  · rw [if_neg hEq]
    by_cases hSame : c = b
    · subst hSame
      have hMod : i % tr.blockSize ≠ x % tr.blockSize := fun hMod =>
        hEq (index_eq (h.number_eq hi hx hc hb) hMod)
      have hPlace : tr.blockSize - 1 - i % tr.blockSize ≠
          tr.blockSize - 1 - x % tr.blockSize := by
        have hi' := Nat.mod_lt i (Traits.blockSize_pos tr)
        have hx' := Nat.mod_lt x (Traits.blockSize_pos tr)
        omega
      rw [Function.update_self]
      exact Function.update_of_ne hPlace ..
    · rw [Function.update_of_ne hSame]

/-- A write to one part of a block leaves the others alone. -/
theorem update_part {β : Type} (f : Block B τ → β) (block : B → Block B τ) (b c : B)
    {x : Block B τ} (h : f x = f (block b)) : f (Function.update block b x c) = f (block c) := by
  by_cases hSame : c = b
  · subst hSame
    rw [Function.update_self, h]
  · rw [Function.update_of_ne hSame]

/-- The element at index `x` is moved out and destroyed. -/
theorem Stored.moveOut (h : Stored tr block blocks start items head moved emptied)
    {first : Nat} (hRing : Linked next blocks first) (hFirst : first ≤ start)
    {x : Nat} {b : B} (hStart : start ≤ x / tr.blockSize)
    (hBlock : blocks[x / tr.blockSize]? = some b) (hHead : x < head) :
    Stored tr (Function.update block b { block b with
        elements := Function.update (block b).elements (x % tr.blockSize) none })
      blocks start items head (Function.update moved x true) emptied where
  element := by
    intro i c hi hc
    rw [hRing.elements_update (hFirst.trans hStart) hBlock (hFirst.trans hi) hc,
      Function.update_apply]
    split
    · rfl
    · exact h.element i c hi hc
  flag := by
    intro i c hi hc
    refine (congrFun (update_part Block.emptyFlags block b c ?_) _).trans (h.flag i c hi hc)
    rfl
  passed := h.passed
  moved_of_emptied := by
    intro i hi
    rw [Function.update_apply]
    split
    · rfl
    · exact h.moved_of_emptied i hi
  lt_of_moved := by
    intro i hi
    rw [Function.update_apply] at hi
    split at hi
    · next hEq => exact hEq.trans_lt hHead
    · exact h.lt_of_moved i hi

/-- The flag of index `x` is set. -/
theorem Stored.setEmpty (h : Stored tr block blocks start items head moved emptied)
    {first : Nat} (hRing : Linked next blocks first) (hFirst : first ≤ start)
    {x : Nat} {b : B} (hStart : start ≤ x / tr.blockSize)
    (hBlock : blocks[x / tr.blockSize]? = some b) (hMoved : moved x = true) :
    Stored tr (Function.update block b { block b with
        emptyFlags := Function.update (block b).emptyFlags
          (tr.blockSize - 1 - x % tr.blockSize) true })
      blocks start items head moved (Function.update emptied x true) where
  element := by
    intro i c hi hc
    refine (congrFun (update_part Block.elements block b c ?_) _).trans (h.element i c hi hc)
    rfl
  flag := by
    intro i c hi hc
    rw [hRing.flags_update (hFirst.trans hStart) hBlock (hFirst.trans hi) hc, Function.update_apply]
    split
    · rfl
    · exact h.flag i c hi hc
  passed := by
    intro i hi
    rw [Function.update_apply]
    split
    · rfl
    · exact h.passed i hi
  moved_of_emptied := by
    intro i hi
    rw [Function.update_apply] at hi
    split at hi
    · next hEq => exact hEq ▸ hMoved
    · exact h.moved_of_emptied i hi
  lt_of_moved := h.lt_of_moved

/-- The next element is constructed. -/
theorem Stored.construct (h : Stored tr block blocks start items head moved emptied)
    {first : Nat} (hRing : Linked next blocks first) (hFirst : first ≤ start)
    {b : B} (hStart : start ≤ items.length / tr.blockSize)
    (hBlock : blocks[items.length / tr.blockSize]? = some b) (hHead : head ≤ items.length)
    (v : τ) :
    Stored tr (Function.update block b { block b with
        elements := Function.update (block b).elements (items.length % tr.blockSize) (some v) })
      blocks start (items ++ [v]) head moved emptied where
  element := by
    intro i c hi hc
    rw [hRing.elements_update (hFirst.trans hStart) hBlock (hFirst.trans hi) hc]
    split
    · next hEq =>
      subst hEq
      have hMoved : moved items.length = false := by
        rw [Bool.eq_false_iff]
        intro hTrue
        exact absurd (h.lt_of_moved _ hTrue) (Nat.not_lt_of_le hHead)
      rw [hMoved, List.getElem?_concat_length]
      rfl
    · next hEq =>
      have hItems : (items ++ [v])[i]? = items[i]? := by
        by_cases hLt : i < items.length
        · rw [List.getElem?_append_left hLt]
        · rw [List.getElem?_eq_none (by rw [List.length_append, List.length_singleton]; omega),
            List.getElem?_eq_none (by omega)]
      rw [hItems]
      exact h.element i c hi hc
  flag := by
    intro i c hi hc
    refine (congrFun (update_part Block.emptyFlags block b c ?_) _).trans (h.flag i c hi hc)
    rfl
  passed := h.passed
  moved_of_emptied := h.moved_of_emptied
  lt_of_moved := h.lt_of_moved

omit [DecidableEq B] in
/-- A block without elements, its flags clear, comes behind the others. -/
theorem Stored.append (h : Stored tr block blocks start items head moved emptied)
    (block' : B → Block B τ) (b : B)
    (hOld : ∀ q c, start ≤ q → blocks[q]? = some c →
      (block' c).elements = (block c).elements ∧ (block' c).emptyFlags = (block c).emptyFlags)
    (hNew : ∀ o, o < tr.blockSize →
      (block' b).elements o = none ∧ (block' b).emptyFlags o = false)
    (hItems : items.length ≤ blocks.length * tr.blockSize) (hHead : head ≤ items.length) :
    Stored tr block' (blocks ++ [b]) start items head moved emptied := by
  have hPos := Traits.blockSize_pos tr
  -- an index of the new block is behind all elements
  have hBehind : ∀ i, ¬ i / tr.blockSize < blocks.length → items.length ≤ i := by
    intro i hi
    exact hItems.trans ((Nat.le_div_iff_mul_le hPos).mp (Nat.le_of_not_lt hi))
  have hNotMoved : ∀ i, items.length ≤ i → moved i = false := by
    intro i hi
    rw [Bool.eq_false_iff]
    intro hTrue
    exact absurd (h.lt_of_moved i hTrue) (Nat.not_lt_of_le (hHead.trans hi))
  have hLast : ∀ i c, ¬ i / tr.blockSize < blocks.length →
      (blocks ++ [b])[i / tr.blockSize]? = some c → c = b := by
    intro i c hi hc
    have hBound := (List.getElem?_eq_some_iff.mp hc).1
    rw [List.length_append, List.length_singleton] at hBound
    rw [List.getElem?_append_right (by omega),
      show i / tr.blockSize - blocks.length = 0 by omega] at hc
    cases hc
    rfl
  refine ⟨?_, ?_, h.passed, h.moved_of_emptied, h.lt_of_moved⟩
  · intro i c hi hc
    by_cases hIn : i / tr.blockSize < blocks.length
    · rw [List.getElem?_append_left hIn] at hc
      rw [(hOld _ c hi hc).1]
      exact h.element i c hi hc
    · obtain rfl := hLast i c hIn hc
      have hLe := hBehind i hIn
      rw [(hNew _ (Nat.mod_lt i hPos)).1, hNotMoved i hLe, List.getElem?_eq_none hLe]
      rfl
  · intro i c hi hc
    by_cases hIn : i / tr.blockSize < blocks.length
    · rw [List.getElem?_append_left hIn] at hc
      rw [(hOld _ c hi hc).2]
      exact h.flag i c hi hc
    · obtain rfl := hLast i c hIn hc
      have hEmptied : emptied i = false := by
        rw [Bool.eq_false_iff]
        intro hTrue
        have hMoved := h.moved_of_emptied i hTrue
        rw [hNotMoved i (hBehind i hIn)] at hMoved
        cases hMoved
      rw [(hNew _ (by omega)).2, hEmptied]

-- ---------------------------------------------------------------------------
-- The block indices
-- ---------------------------------------------------------------------------

/-- What a block index says: the number of its place 0 is such that place `c`
would be that of number 0; it has entries up to number `written`, and `front`
is the place of the last of the first `shown`. -/
structure Listed (tr : Traits) (h : BlockIndexHeader B) (blocks : List B) (start : Nat) (c : Int)
    (written shown : Nat) : Prop where
  fits : ((h.size * tr.blockSize : Nat) : Int) ∣ indexRange
  front : ∀ m, shown = m + 1 → h.front = slot h.size c m
  window : Window h.entries h.size c
    (fun q => blocks[q]?.map fun b => ⟨q * tr.blockSize, b⟩) start written
  shown_le : shown ≤ written
  written_le : written ≤ blocks.length

variable {hd : BlockIndexHeader B} {c : Int} {written shown : Nat}

omit [DecidableEq B] in
/-- Blocks are left behind, and others come behind. -/
theorem Listed.mono (h : Listed tr hd blocks start c written shown) {start' : Nat}
    (hStart : start ≤ start') (l : List B) :
    Listed tr hd (blocks ++ l) start' c written shown where
  fits := h.fits
  front := h.front
  window := (h.window.mono hStart le_rfl).congr fun q hq => by
    have hLe := h.written_le
    rw [List.getElem?_append_left (by omega)]
  shown_le := h.shown_le
  written_le := by
    rw [List.length_append]
    exact h.written_le.trans (Nat.le_add_right ..)

omit [DecidableEq B] in
theorem Listed.size_pos (h : Listed tr hd blocks start c written shown) : 0 < hd.size := by
  rcases Nat.eq_zero_or_pos hd.size with hZero | hPos
  · have hFits := h.fits
    rw [hZero, Nat.zero_mul, Int.natCast_zero, zero_dvd_iff] at hFits
    cases hFits
  · exact hPos

omit [DecidableEq B] in
/-- The entry of number `q` can be read. -/
theorem Listed.entry (h : Listed tr hd blocks start c written shown) {q : Nat} (hStart : start ≤ q)
    (hq : q < written) : ∃ b, blocks[q]? = some b ∧
      hd.entries (slot hd.size c q) = some ⟨q * tr.blockSize, b⟩ := by
  have hLt : q < blocks.length := hq.trans_le h.written_le
  refine ⟨blocks[q], List.getElem?_eq_getElem hLt, ?_⟩
  rw [h.window q hStart hq]
  simp only [List.getElem?_eq_getElem hLt, Option.map_some]

end ExplicitProducer

end ThreadPool.Model
