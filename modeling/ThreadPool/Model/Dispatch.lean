import Mathlib.Data.List.Perm.Basic
import Mathlib.Data.List.Nodup
import ThreadPool.Model.Calls
import ThreadPool.Model.Worker

/-!
# ThreadPool — exactly-once dispatch

Elements are conserved: the names in the queue, the names ever taken and
the names destroyed with the queue are together a rearrangement of the names
accepted (`Conserved.perm`). With the order of each worker (`worker_ok`)
this puts every accepted task in exactly one place.

* `Step.flow` — what a step does to the queue;
* `conserved` — conservation in every reachable state;
* `Succeeds.accepted_get` — what a successful call has accepted, one by one;
* `exactly_once` — every task of a successful call is at exactly one place, is
  invoked at most once, and a worker calls nothing but the slots its current
  turn filled, in slot order.
-/

namespace ThreadPool.Model

open ThreadPool.Lib
open Process (first)

variable {n : Nat} {τ : Type}

-- ---------------------------------------------------------------------------
-- Names in the history
-- ---------------------------------------------------------------------------

theorem taken_append (h h' : List (Event n)) : taken (h ++ h') = taken h ++ taken h' := by
  simp [taken]

theorem taken_map (w : Fin n) (evs : List WorkerEvent) :
    taken (evs.map (Event.worker w)) = takes evs := by
  simp [taken, List.filterMap_map, Function.comp_def, Event.payload]

theorem begun_append (h h' : List (Event n)) : begun (h ++ h') = begun h ++ begun h' := by
  simp [begun]

theorem begun_map (w : Fin n) (evs : List WorkerEvent) :
    begun (evs.map (Event.worker w)) = starts evs := by
  simp [begun, List.filterMap_map, Function.comp_def, Event.payload]

theorem mem_payload {h : List (Event n)} {e : WorkerEvent} :
    e ∈ h.filterMap Event.payload ↔ ∃ w, .worker w e ∈ h := by
  simp only [List.mem_filterMap]
  constructor
  · rintro ⟨ev, hMem, hEq⟩
    cases ev with
    | worker w e' =>
      simp only [Event.payload, Option.some.injEq] at hEq
      exact ⟨w, hEq ▸ hMem⟩
    | _ => simp [Event.payload] at hEq
  · rintro ⟨w, hMem⟩
    exact ⟨_, hMem, rfl⟩

theorem mem_taken {h : List (Event n)} {t : Nat} :
    t ∈ taken h ↔ ∃ w, t ∈ takes (own w h) := by
  simp only [taken, mem_takes, mem_payload, mem_own]

theorem mem_begun {h : List (Event n)} {t : Nat} :
    t ∈ begun h ↔ ∃ w, t ∈ starts (own w h) := by
  simp only [begun, mem_starts, mem_payload, mem_own]

theorem finished_iff {h : List (Event n)} {t : Nat} :
    Finished h t ↔ ∃ w, t ∈ finishes (own w h) := by
  simp only [Finished, mem_finishes, mem_own]

/-- What one worker takes is part of what all take, in the same order. -/
theorem takes_sublist (w : Fin n) (h : List (Event n)) : (takes (own w h)).Sublist (taken h) := by
  simp only [taken, takes, own, List.filterMap_filterMap]
  induction h with
  | nil => exact List.Sublist.refl _
  | cons ev h ih =>
    cases ev with
    | worker w' e =>
      by_cases hEq : w' = w
      · simp only [List.filterMap_cons, Event.of, Event.payload, hEq, if_true, Option.bind_some]
        cases e.taken with
        | none => exact ih
        | some t => exact ih.cons_cons t
      · simp only [List.filterMap_cons, Event.of, Event.payload, hEq, if_false, Option.bind_some,
          Option.bind_none]
        cases e.taken with
        | none => exact ih
        | some t => exact ih.cons t
    | _ => simpa [Event.of, Event.payload] using ih

/-- If no name is taken twice, no two workers take the same name. -/
theorem taken_unique {h : List (Event n)} (hNodup : (taken h).Nodup) {w w' : Fin n} {t : Nat}
    (hw : t ∈ takes (own w h)) (hw' : t ∈ takes (own w' h)) : w = w' := by
  induction h with
  | nil => simp [own, takes] at hw
  | cons ev h ih =>
    have hRest : (taken h).Nodup := by
      have hSplit := taken_append [ev] h
      rw [List.singleton_append] at hSplit
      rw [hSplit] at hNodup
      exact (List.nodup_append.mp hNodup).2.1
    rw [mem_takes, mem_own, List.mem_cons] at hw hw'
    -- the head event cannot take a name that a later event takes again
    have hFresh : ∀ u v : Fin n, ev = .worker u (.take t) → .worker v (.take t) ∉ h := by
      rintro u v rfl hMem
      have hSplit : taken (.worker u (.take t) :: h) = t :: taken h := rfl
      rw [hSplit, List.nodup_cons] at hNodup
      exact hNodup.1 (mem_taken.mpr ⟨v, mem_takes.mpr (mem_own.mpr hMem)⟩)
    rcases hw with hw | hw <;> rcases hw' with hw' | hw'
    · have := hw.trans hw'.symm
      simpa using this
    · exact absurd hw' (hFresh w w' hw.symm)
    · exact absurd hw (hFresh w' w hw'.symm)
    · exact ih hRest (mem_takes.mpr (mem_own.mpr hw)) (mem_takes.mpr (mem_own.mpr hw'))

namespace ParameterizedPool

variable {B : Nat} {s s' : ParameterizedPool n τ}

-- ---------------------------------------------------------------------------
-- What a step does to the queue
-- ---------------------------------------------------------------------------

/-- The four ways a step treats the queue. -/
inductive Flow (s : ParameterizedPool n τ) (a : Action n τ) (s' : ParameterizedPool n τ) : Prop
  | still (hTasks : s'.tasks = s.tasks) (hAccepted : s'.accepted = s.accepted)
      (hDropped : s'.dropped = s.dropped) (hTaken : taken s'.hist = taken s.hist)
  | accept (p : Producer n) (vs : List τ) (hEq : s' = s.enqueue p vs)
  | take (w : Fin n) (i : Nat) (e : Elem n τ) (hElem : s.tasks[i]? = some e)
      (hTasks : s'.tasks = s.tasks.eraseIdx i) (hAccepted : s'.accepted = s.accepted)
      (hDropped : s'.dropped = s.dropped) (hHist : s'.hist = s.hist ++ [.worker w (.take e.id)])
      (hLife : s.life.tasksAlive = true) (hAct : a = .control (.dequeueElem w i))
  | destroy (hTasks : s'.tasks = []) (hAccepted : s'.accepted = s.accepted)
      (hDropped : s'.dropped = s.dropped ++ s.tasks) (hHist : s'.hist = s.hist)
      (hLife : s'.life.tasksAlive = false)

/-- A move that takes nothing leaves the queue alone. -/
private theorem Flow.setWorker {a : Action n τ} (w : Fin n) (x : Worker n τ)
    {evs : List WorkerEvent} (hTakes : takes evs = []) : Flow s a (s.setWorker w x evs) :=
  .still rfl rfl rfl (by
    rw [ParameterizedPool.setWorker, taken_append, taken_map, hTakes, List.append_nil])

theorem Step.flow {a : Action n τ} (hStep : Step B s a s') : Flow s a s' := by
  cases hStep with
  | exit w | again w => exact .setWorker w _ rfl
  | enter w | dequeueReturn w | invoke w | taskReturn w => exact .setWorker w _ rfl
  | dequeueElem w i c e hPc hElem hRoom hLife => exact .take w i e hElem rfl rfl rfl rfl hLife rfl
  | await | joinThrows | awaited | destroy =>
    exact .still rfl rfl rfl (by simp [taken, takes, leaveAwait, Event.payload])
  | teardownTasks c hLife => exact .destroy rfl rfl rfl rfl rfl
  | enqueue th token vs => exact .accept _ vs rfl
  | _ => exact .still rfl rfl rfl rfl

-- ---------------------------------------------------------------------------
-- Conservation
-- ---------------------------------------------------------------------------

theorem number_ids (base : Nat) (p : Producer n) (vs : List τ) :
    (number base p vs).map Elem.id = List.range' base vs.length := by
  rw [number, List.map_map, ← List.zipIdx_map_snd]
  rfl

theorem length_number (base : Nat) (p : Producer n) (vs : List τ) :
    (number base p vs).length = vs.length := by
  simp [number]

theorem range_append_range' (a b : Nat) : List.range a ++ List.range' a b = List.range (a + b) := by
  rw [List.range_eq_range', List.range_eq_range', ← List.range'_append_1, Nat.zero_add]

/-- Names are conserved: every accepted name is in the queue, or was taken
once, or was destroyed with the queue. -/
structure Conserved (s : ParameterizedPool n τ) : Prop where
  ids : s.accepted.map Elem.id = List.range s.accepted.length
  perm : (s.tasks.map Elem.id ++ taken s.hist ++ s.dropped.map Elem.id).Perm
    (List.range s.accepted.length)

theorem Flow.conserved {a : Action n τ} (hFlow : Flow s a s') (h : s.Conserved) : s'.Conserved := by
  cases hFlow with
  | still hTasks hAccepted hDropped hTaken =>
    exact ⟨hAccepted ▸ h.ids, by rw [hTasks, hAccepted, hDropped, hTaken]; exact h.perm⟩
  | accept p vs hEq =>
    subst hEq
    have hLen : (s.enqueue p vs).accepted.length = s.accepted.length + vs.length := by
      simp [enqueue, length_number]
    constructor
    · rw [hLen, ← range_append_range', ← number_ids _ p, ← h.ids]
      simp [enqueue]
    · rw [hLen, ← range_append_range', ← number_ids _ p]
      simp only [enqueue, List.map_append]
      refine List.Perm.trans ?_ (h.perm.append_right _)
      -- the new names move behind the others
      rw [List.append_assoc, List.append_assoc, List.append_assoc, List.append_assoc]
      refine List.Perm.append_left _ ?_
      rw [← List.append_assoc (taken s.hist)]
      exact List.perm_append_comm
  | take w i e hElem hTasks hAccepted hDropped hHist =>
    refine ⟨hAccepted ▸ h.ids, ?_⟩
    obtain ⟨hLen, hGet⟩ := List.getElem?_eq_some_iff.mp hElem
    have hTaken : taken s'.hist = taken s.hist ++ [e.id] := by
      rw [hHist, taken_append]
      rfl
    rw [hTasks, hAccepted, hDropped, hTaken]
    refine List.Perm.trans ?_ h.perm
    refine List.Perm.append_right _ ?_
    have hErase := (List.getElem_cons_eraseIdx_perm hLen).map Elem.id
    rw [hGet, List.map_cons] at hErase
    refine List.Perm.trans ?_ (hErase.append_right _)
    rw [List.cons_append, ← List.append_assoc]
    exact List.perm_append_singleton _ _
  | destroy hTasks hAccepted hDropped hHist =>
    refine ⟨hAccepted ▸ h.ids, ?_⟩
    rw [hTasks, hAccepted, hDropped, hHist, List.map_nil, List.nil_append, List.map_append]
    refine List.Perm.trans ?_ h.perm
    rw [← List.append_assoc]
    refine List.Perm.trans List.perm_append_comm ?_
    rw [← List.append_assoc]

theorem conserved (h : (system n B τ).Reachable s) : s.Conserved :=
  System.Reachable.induction (P := Conserved) ⟨rfl, .refl _⟩
    (fun _ _ _ _ hOld hStep => (step_cases hStep).2.flow.conserved hOld) h

/-- Nothing is destroyed with the queue while the queue lives. -/
theorem dropped_eq_nil (h : (system n B τ).Reachable s) (hLife : s.life.tasksAlive = true) :
    s.dropped = [] := by
  refine System.Reachable.induction
    (P := fun s => s.life.tasksAlive = true → s.dropped = []) (fun _ => rfl) ?_ h hLife
  intro s a s' _ hOld hStep hAlive
  have hCases := (step_cases hStep).2
  cases hCases with
  | teardownThreads | teardownTasks => simp [Life.tasksAlive] at hAlive
  | joinThrows | awaited =>
    refine hOld ?_
    simp only [leaveAwait] at hAlive
    split at hAlive
    · next hLife => simp [hLife, Life.tasksAlive]
    · exact hAlive
  | spawn _ _ hLife | built _ _ hLife | spawnThrows _ _ hLife | destroy _ hLife
  | teardownDone _ hLife => exact hOld (by simp [hLife, Life.tasksAlive])
  | _ => exact hOld hAlive

theorem Conserved.nodup (h : s.Conserved) :
    (s.tasks.map Elem.id ++ taken s.hist ++ s.dropped.map Elem.id).Nodup :=
  h.perm.nodup_iff.mpr List.nodup_range

theorem Conserved.taken_nodup (h : s.Conserved) : (taken s.hist).Nodup :=
  (List.nodup_append.mp (List.nodup_append.mp h.nodup).1).2.1

theorem Conserved.tasks_nodup (h : s.Conserved) : (s.tasks.map Elem.id).Nodup :=
  (List.nodup_append.mp (List.nodup_append.mp h.nodup).1).1

/-- A queued task is not taken. -/
theorem Conserved.not_taken (h : s.Conserved) {t : Nat} (hQueued : t ∈ s.tasks.map Elem.id) :
    t ∉ taken s.hist :=
  fun hTaken => (List.nodup_append.mp (List.nodup_append.mp h.nodup).1).2.2 t hQueued t hTaken rfl

-- ---------------------------------------------------------------------------
-- Elements keep their value
-- ---------------------------------------------------------------------------

/-- An accepted element is named by its rank. -/
theorem Conserved.accepted_get (h : s.Conserved) {e : Elem n τ} (he : e ∈ s.accepted) :
    s.accepted[e.id]? = some e := by
  obtain ⟨i, hi⟩ := List.mem_iff_getElem?.mp he
  have hName : (s.accepted.map Elem.id)[i]? = some e.id := by
    rw [List.getElem?_map, hi]
    rfl
  rw [h.ids, List.getElem?_range (List.getElem?_eq_some_iff.mp hi).1, Option.some.injEq] at hName
  rwa [← hName]

/-- The element is in the queue, in the array of a worker, or was destroyed
with the queue. -/
def Held (s : ParameterizedPool n τ) (e : Elem n τ) : Prop :=
  e ∈ s.tasks ∨ (∃ w, e ∈ (s.workers w).batch) ∨ e ∈ s.dropped

theorem number_get {base : Nat} {p : Producer n} {vs : List τ} {e : Elem n τ}
    (hMem : e ∈ number base p vs) :
    base ≤ e.id ∧ e.producer = p ∧ (number base p vs)[e.id - base]? = some e := by
  obtain ⟨⟨v, j⟩, hv, rfl⟩ := List.mem_map.mp hMem
  obtain ⟨hGe, hAt⟩ := List.mk_mem_zipIdx_iff_le_and_getElem?_sub.mp hv
  refine ⟨hGe, rfl, ?_⟩
  simp only [number, List.getElem?_map, List.getElem?_zipIdx, hAt, Option.map_some]
  rw [Nat.add_sub_cancel' hGe]

/-- A step accepts elements, or brings no element to a place it was not at. -/
theorem Step.held {a : Action n τ} (hStep : Step B s a s') (hFresh : s.Fresh) {e : Elem n τ}
    (h : s'.Held e) :
    s.Held e ∨ ∃ p vs, s' = s.enqueue p vs ∧ e ∈ number s.accepted.length p vs := by
  -- what is new in an array was in the queue
  have hBatch : ∀ w, e ∈ (s'.workers w).batch → s.Held e := by
    intro w hMem
    obtain ⟨evs, -, hMove⟩ := hStep.move hFresh w
    rcases hMove.batch_subset hMem with hOld | hQueued
    · exact .inr (.inl ⟨w, hOld⟩)
    · exact .inl hQueued
  rcases h with hTasks | ⟨w, hMem⟩ | hDropped
  · cases hStep.flow with
    | still hEq => exact .inl (.inl (hEq ▸ hTasks))
    | accept p vs hEq =>
      subst hEq
      rcases List.mem_append.mp hTasks with hOld | hNew
      · exact .inl (.inl hOld)
      · exact .inr ⟨p, vs, rfl, hNew⟩
    | take w i e' hElem hEq =>
      rw [hEq] at hTasks
      exact .inl (.inl (List.mem_of_mem_eraseIdx hTasks))
    | destroy hEq =>
      rw [hEq] at hTasks
      exact absurd hTasks List.not_mem_nil
  · exact .inl (hBatch w hMem)
  · cases hStep.flow with
    | still _ _ hEq => exact .inl (.inr (.inr (hEq ▸ hDropped)))
    | accept p vs hEq =>
      subst hEq
      exact .inl (.inr (.inr hDropped))
    | take _ _ _ _ _ _ hEq => exact .inl (.inr (.inr (hEq ▸ hDropped)))
    | destroy _ _ hEq =>
      rw [hEq] at hDropped
      rcases List.mem_append.mp hDropped with hOld | hTasks
      · exact .inl (.inr (.inr hOld))
      · exact .inl (.inl hTasks)

/-- What is accepted stays accepted. -/
theorem Step.accepted_grows {a : Action n τ} (hStep : Step B s a s') :
    s.accepted <+: s'.accepted := by
  cases hStep.flow with
  | still _ hEq | take _ _ _ _ _ hEq | destroy _ hEq => exact hEq ▸ List.prefix_rfl
  | accept p vs hEq =>
    subst hEq
    exact List.prefix_append _ _

theorem accepted_of_leads (hLeads : (system n B τ).Leads s s') : s.accepted <+: s'.accepted :=
  System.Leads.induction (P := fun s' : ParameterizedPool n τ => s.accepted <+: s'.accepted)
    List.prefix_rfl
    (fun _ _ _ _ hOld hStep => hOld.trans (step_cases hStep).2.accepted_grows) hLeads

/-- **Elements keep their value.** What is held under a name is what was
accepted under it. -/
theorem held_accepted (h : (system n B τ).Reachable s) {e : Elem n τ} (hHeld : s.Held e) :
    s.accepted[e.id]? = some e := by
  refine System.Reachable.induction (P := fun s : ParameterizedPool n τ =>
    ∀ e, s.Held e → s.accepted[e.id]? = some e) ?_ ?_ h e hHeld
  · rintro e (hMem | ⟨w, hMem⟩ | hMem) <;> exact absurd hMem List.not_mem_nil
  intro s a s' hReach hOld hStep e hHeld
  have hCases := (step_cases hStep).2
  rcases hCases.held (fresh_of_reachable hReach) hHeld with hBefore | ⟨p, vs, rfl, hNew⟩
  · have hAt := hOld e hBefore
    obtain ⟨more, hMore⟩ := hCases.accepted_grows
    rw [← hMore]
    exact List.getElem?_append_left (List.getElem?_eq_some_iff.mp hAt).1 ▸ hAt
  · obtain ⟨hGe, -, hAt⟩ := number_get hNew
    simp only [enqueue]
    rw [List.getElem?_append_right hGe]
    exact hAt

/-- What a worker took, split by how far it got, has no repetition. -/
theorem worker_nodup (h : (system n B τ).Reachable s) (w : Fin n) :
    (finishes (own w s.hist) ++ (s.workers w).running.map Elem.id ++
      (s.workers w).pending.map Elem.id).Nodup := by
  have hOk := worker_ok h w
  rw [← hOk.traced.starts_eq, ← hOk.traced.takes_eq]
  exact (conserved h).taken_nodup.sublist (takes_sublist w _)

/-- A worker starts only what it took. -/
theorem starts_subset_takes (h : (system n B τ).Reachable s) {w : Fin n} {t : Nat}
    (ht : t ∈ starts (own w s.hist)) : t ∈ takes (own w s.hist) := by
  rw [(worker_ok h w).traced.takes_eq]
  exact List.mem_append_left _ ht

/-- A worker finishes only what it started. -/
theorem finishes_subset_starts (h : (system n B τ).Reachable s) {w : Fin n} {t : Nat}
    (ht : t ∈ finishes (own w s.hist)) : t ∈ starts (own w s.hist) := by
  rw [(worker_ok h w).traced.starts_eq]
  exact List.mem_append_left _ ht

/-- The array of a worker holds what its current turn took. -/
theorem batch_taken (h : (system n B τ).Reachable s) {w : Fin n} {e : Elem n τ}
    (he : e ∈ (s.workers w).batch) : e.id ∈ takes (own w s.hist) := by
  have hOk := worker_ok h w
  have hShape := hOk.shape
  have hTurn := hOk.inTurn
  have hSub : ∀ {t}, t ∈ takes (iteration (own w s.hist)) → t ∈ takes (own w s.hist) := by
    intro t ht
    rw [mem_takes] at ht ⊢
    exact (since_suffix _ _).subset ht
  unfold Worker.InTurn at hTurn
  unfold Worker.Shape at hShape
  split at hTurn
  · next hPc => simp [Worker.batch_of_nil (by simpa [hPc] using hShape)] at he
  · next hPc => simp [Worker.batch_of_nil (by simpa [hPc] using hShape)] at he
  · next hPc => simp [Worker.batch_of_nil (by simpa [hPc] using hShape)] at he
  · exact hSub (hTurn.1 ▸ List.mem_map_of_mem he)

/-- What is queued or destroyed with the queue was never taken. -/
theorem Conserved.not_finished (h : s.Conserved) (hReach : (system n B τ).Reachable s)
    {e : Elem n τ} (he : e ∈ s.tasks ∨ e ∈ s.dropped) : ¬ Finished s.hist e.id := by
  intro hFinished
  obtain ⟨w, hw⟩ := finished_iff.mp hFinished
  have hTaken : e.id ∈ taken s.hist := mem_taken.mpr
    ⟨w, starts_subset_takes hReach (finishes_subset_starts hReach hw)⟩
  rcases he with hQueued | hDropped
  · exact h.not_taken (List.mem_map_of_mem hQueued) hTaken
  · exact (List.nodup_append.mp h.nodup).2.2 _ (List.mem_append_right _ hTaken) _
      (List.mem_map_of_mem hDropped) rfl

/-- Nothing is both queued and destroyed with the queue. -/
theorem Conserved.not_dropped (h : s.Conserved) {t : Nat} (ht : t ∈ s.tasks.map Elem.id) :
    t ∉ s.dropped.map Elem.id :=
  fun hDropped =>
    (List.nodup_append.mp h.nodup).2.2 t (List.mem_append_left _ ht) t hDropped rfl

theorem finished_append {h h' : List (Event n)} {t : Nat} :
    Finished (h ++ h') t ↔ Finished h t ∨ Finished h' t := by
  simp only [Finished, List.mem_append, exists_or]

/-- The end of a call is recorded under the name of its element. -/
theorem Step.returns {w : Fin n} (hStep : Step B s (.taskReturn w) s') :
    ∃ e, s.current w = some e ∧ s'.accepted = s.accepted ∧ s'.dropped = s.dropped ∧
      ∀ t, Finished s'.hist t ↔ Finished s.hist t ∨ t = e.id := by
  cases hStep with
  | taskReturn _ i k e hPc hSlot =>
    refine ⟨e, current_of_invoking hPc hSlot, rfl, rfl, fun t => ?_⟩
    change Finished (s.hist ++ [.worker w (.finish e.id)]) t ↔ _
    rw [finished_append]
    refine or_congr_right ⟨?_, ?_⟩
    · rintro ⟨v, hMem⟩
      simp only [List.mem_singleton, Event.worker.injEq, WorkerEvent.finish.injEq] at hMem
      exact hMem.2
    · rintro rfl
      exact ⟨w, List.mem_singleton_self _⟩
  | abort _ r hCause => cases hCause

/-- An exception that leaves a call ends the process and changes nothing else. -/
theorem Step.throws {w : Fin n} (hStep : Step B s (.taskThrow w) s') :
    s' = s.kill .escaped := by
  cases hStep with
  | abort _ r hCause =>
    cases hCause
    rfl

/-- A control step finishes nothing. -/
theorem Step.control_finished {c : Control n} (hStep : Step B s (.control c) s') (t : Nat) :
    Finished s'.hist t ↔ Finished s.hist t := by
  have hQuiet : ∀ ev : Event n, (∀ w t, ev ≠ .worker w (.finish t)) →
      (Finished (s.hist ++ [ev]) t ↔ Finished s.hist t) := by
    intro ev hNot
    rw [finished_append, or_iff_left]
    rintro ⟨w, hMem⟩
    exact hNot w t (List.mem_singleton.mp hMem).symm
  cases hStep with
  | exit | again => simp [setWorker]
  | enter | dequeueElem | dequeueReturn | invoke => exact hQuiet _ (by simp)
  | await | joinThrows | awaited | destroy => exact hQuiet _ (by simp)
  | _ => exact Iff.rfl

/-- A control step accepts nothing. -/
theorem Step.control_accepted {c : Control n} (hStep : Step B s (.control c) s') :
    s'.accepted = s.accepted := by
  cases hStep <;> rfl

-- ---------------------------------------------------------------------------
-- At most one invocation
-- ---------------------------------------------------------------------------

/-- The task that a step starts is a pending one of the worker. -/
theorem Step.begun {a : Action n τ} (hStep : Step B s a s') (hOk : ∀ w, (s.workers w).Shape B) :
    begun s'.hist = begun s.hist ∨
      ∃ w e, e ∈ (s.workers w).pending ∧ begun s'.hist = begun s.hist ++ [e.id] := by
  have hSet : ∀ (w : Fin n) (x : Worker n τ) (evs : List WorkerEvent),
      Model.begun (s.setWorker w x evs).hist = Model.begun s.hist ++ starts evs := by
    intro w x evs
    change Model.begun (s.hist ++ evs.map (.worker w)) = _
    rw [begun_append, begun_map]
  cases hStep with
  | exit w | again w => exact .inl (by rw [hSet]; simp [starts])
  | enter w | dequeueReturn w | taskReturn w =>
    exact .inl (by rw [hSet]; simp [WorkerEvent.started])
  | dequeueElem w i c e => exact .inl (by rw [hSet]; simp [WorkerEvent.started])
  | invoke w i k e hPc hLt hSlot =>
    refine .inr ⟨w, e, ?_, by rw [hSet]; simp [WorkerEvent.started]⟩
    have hDrop := (hOk w).slot hSlot
    simp only [Worker.pending, Worker.cursor, hPc, hDrop]
    exact List.mem_cons_self ..
  | await | joinThrows | awaited | destroy =>
    exact .inl (by simp [Model.begun, starts, leaveAwait, Event.payload])
  | _ => exact .inl rfl

/-- No task is invoked twice. -/
theorem begun_nodup (h : (system n B τ).Reachable s) : (begun s.hist).Nodup := by
  refine System.Reachable.induction
    (P := fun s : ParameterizedPool n τ => (Model.begun s.hist).Nodup) ?_ ?_ h
  · exact List.nodup_nil
  intro s a s' hReach hNodup hStep
  rcases (step_cases hStep).2.begun (fun w => (worker_ok hReach w).shape) with
    hEq | ⟨w, e, hPending, hEq⟩
  · rw [hEq]
    exact hNodup
  · rw [hEq]
    refine List.nodup_append.mpr ⟨hNodup, List.nodup_singleton _, ?_⟩
    rintro t hBegun _ hMem rfl
    rw [List.mem_singleton] at hMem
    subst hMem
    -- the task is pending on `w`, so only `w` can have started it, and has not
    obtain ⟨w', hStarts⟩ := mem_begun.mp hBegun
    have hTaken : e.id ∈ takes (own w s.hist) := by
      rw [(worker_ok hReach w).traced.takes_eq]
      exact List.mem_append_right _ (List.mem_map_of_mem hPending)
    obtain rfl := taken_unique (conserved hReach).taken_nodup hTaken
      (starts_subset_takes hReach hStarts)
    have hSplit := worker_nodup hReach w
    rw [← (worker_ok hReach w).traced.starts_eq] at hSplit
    exact (List.nodup_append.mp hSplit).2.2 _ hStarts _ (List.mem_map_of_mem hPending) rfl

-- ---------------------------------------------------------------------------
-- Places
-- ---------------------------------------------------------------------------

theorem located_queue {t i : Nat} :
    Located s t (.queue i) ↔ (s.tasks.map Elem.id)[i]? = some t := by
  simp [Located, List.getElem?_map, Option.map_eq_some_iff]

/-- The slots still to be called hold the pending elements. -/
theorem located_slot {w : Fin n} (hShape : (s.workers w).Shape B) {t i : Nat} :
    Located s t (.slot w i) ↔ (s.workers w).cursor ≤ i ∧
      ((s.workers w).pending.map Elem.id)[i - (s.workers w).cursor]? = some t := by
  simp only [Located, hShape.slot_iff, Worker.pending, List.getElem?_map, List.getElem?_drop,
    Option.map_eq_some_iff]
  constructor
  · rintro ⟨e, hAt, hId, hLe⟩
    exact ⟨hLe, e, by rwa [Nat.add_sub_cancel' hLe], hId⟩
  · rintro ⟨hLe, e, hAt, hId⟩
    rw [Nat.add_sub_cancel' hLe] at hAt
    exact ⟨e, hAt, hId, hLe⟩

theorem located_invoked {w : Fin n} (hShape : (s.workers w).Shape B) {t : Nat} :
    Located s t (.invoked w) ↔ t ∈ (s.workers w).running.map Elem.id := by
  simp only [Located, List.mem_map]
  refine exists_congr fun e => and_congr_left fun _ => ?_
  constructor
  · intro hCur
    obtain ⟨i, k, hPc, hSlot⟩ := current_eq_some hCur
    simp [Worker.running, hPc, hShape.slot hSlot]
  · intro hMem
    unfold Worker.running at hMem
    split at hMem
    · next i k hPc =>
      refine current_of_invoking hPc (hShape.slot_iff.mpr ?_)
      rw [← List.head?_drop]
      cases hDrop : (s.workers w).batch.drop i with
      | nil => simp [hDrop] at hMem
      | cons e' rest =>
        rw [hDrop] at hMem
        simp only [List.take_succ_cons, List.take_zero, List.mem_singleton] at hMem
        rw [hMem, List.head?_cons]
    · simp at hMem

/-- Everything at a place other than the queue was taken, by the worker of
the place if it has one. -/
theorem located_taken_by (h : (system n B τ).Reachable s) {t : Nat} {p : Place n}
    (hAt : Located s t p) :
    (∃ i, p = .queue i ∧ t ∈ s.tasks.map Elem.id) ∨
      ∃ w, t ∈ takes (own w s.hist) ∧
        ((∃ i, p = .slot w i ∧ t ∈ (s.workers w).pending.map Elem.id) ∨
          (p = .invoked w ∧ t ∈ (s.workers w).running.map Elem.id) ∨
          (p = .finished ∧ t ∈ finishes (own w s.hist))) := by
  -- the three places on a worker are the parts of what it took
  have hTakes : ∀ w, takes (own w s.hist) = finishes (own w s.hist) ++
      (s.workers w).running.map Elem.id ++ (s.workers w).pending.map Elem.id := fun w => by
    rw [(worker_ok h w).traced.takes_eq, (worker_ok h w).traced.starts_eq]
  cases p with
  | queue i => exact .inl ⟨i, rfl, List.mem_of_getElem? (located_queue.mp hAt)⟩
  | slot w i =>
    have hPending := List.mem_of_getElem? ((located_slot (worker_ok h w).shape).mp hAt).2
    exact .inr ⟨w, by rw [hTakes]; exact List.mem_append_right _ hPending,
      .inl ⟨i, rfl, hPending⟩⟩
  | invoked w =>
    have hRunning := (located_invoked (worker_ok h w).shape).mp hAt
    exact .inr ⟨w, by rw [hTakes]; simp [hRunning], .inr (.inl ⟨rfl, hRunning⟩)⟩
  | finished =>
    obtain ⟨w, hFinished⟩ := finished_iff.mp hAt
    exact .inr ⟨w, by rw [hTakes]; simp [hFinished], .inr (.inr ⟨rfl, hFinished⟩)⟩

/-- Nothing is at two places. -/
theorem located_unique (h : (system n B τ).Reachable s) {t : Nat} {p p' : Place n}
    (hAt : Located s t p) (hAt' : Located s t p') : p = p' := by
  have hCons := conserved h
  -- both in the queue, one of them, or both on a worker
  rcases located_taken_by h hAt with ⟨i, rfl, hq⟩ | ⟨w, hTaken, hp⟩ <;>
    rcases located_taken_by h hAt' with ⟨i', rfl, hq'⟩ | ⟨w', hTaken', hp'⟩
  · -- two positions of the queue
    rw [located_queue] at hAt hAt'
    obtain ⟨hLen, -⟩ := List.getElem?_eq_some_iff.mp hAt
    rw [(List.getElem?_inj hLen hCons.tasks_nodup).mp (hAt.trans hAt'.symm)]
  · exact absurd (mem_taken.mpr ⟨w', hTaken'⟩) (hCons.not_taken hq)
  · exact absurd (mem_taken.mpr ⟨w, hTaken⟩) (hCons.not_taken hq')
  · -- the same worker holds both, and its three parts are disjoint
    obtain rfl := taken_unique hCons.taken_nodup hTaken hTaken'
    have hNodup := worker_nodup h w
    rw [List.nodup_append, List.nodup_append] at hNodup
    obtain ⟨⟨-, -, hFinRun⟩, hPendNodup, hDisj⟩ := hNodup
    have hFinPend : t ∈ finishes (own w s.hist) → t ∉ (s.workers w).pending.map Elem.id :=
      fun hf hPend => hDisj t (List.mem_append_left _ hf) t hPend rfl
    have hRunPend : t ∈ (s.workers w).running.map Elem.id →
        t ∉ (s.workers w).pending.map Elem.id :=
      fun hr hPend => hDisj t (List.mem_append_right _ hr) t hPend rfl
    have hFinRun' : t ∈ finishes (own w s.hist) → t ∉ (s.workers w).running.map Elem.id :=
      fun hf hr => hFinRun t hf t hr rfl
    rcases hp with ⟨i, rfl, hi⟩ | ⟨rfl, hr⟩ | ⟨rfl, hf⟩ <;>
      rcases hp' with ⟨i', rfl, hi'⟩ | ⟨rfl, hr'⟩ | ⟨rfl, hf'⟩
    · obtain ⟨hLe, hSlot⟩ := (located_slot (worker_ok h w).shape).mp hAt
      obtain ⟨hLe', hSlot'⟩ := (located_slot (worker_ok h w).shape).mp hAt'
      obtain ⟨hLen, -⟩ := List.getElem?_eq_some_iff.mp hSlot
      have hIdx := (List.getElem?_inj hLen hPendNodup).mp (hSlot.trans hSlot'.symm)
      rw [show i = i' by omega]
    · exact absurd hi (hRunPend hr')
    · exact absurd hi (hFinPend hf')
    · exact absurd hi' (hRunPend hr)
    · rfl
    · exact absurd hr (hFinRun' hf')
    · exact absurd hi' (hFinPend hf)
    · exact absurd hr' (hFinRun' hf)
    · rfl

/-- The element being called is one of the batch. -/
theorem current_mem_batch (h : (system n B τ).Reachable s) {w : Fin n} {e : Elem n τ}
    (hCur : s.current w = some e) : e ∈ (s.workers w).batch := by
  obtain ⟨i, k, -, hSlot⟩ := current_eq_some hCur
  exact List.mem_of_getElem? ((worker_ok h w).shape.slot_iff.mp hSlot)

/-- The call a worker is inside of is not finished. -/
theorem current_not_finished (h : (system n B τ).Reachable s) {w : Fin n} {e : Elem n τ}
    (hCur : s.current w = some e) : ¬ Finished s.hist e.id := by
  intro hFinished
  have hCalled : Located s e.id (.invoked w) := ⟨e, hCur, rfl⟩
  have hPast : Located s e.id .finished := hFinished
  have hUnique := located_unique h hCalled hPast
  simp at hUnique

/-- A task that a worker took is at a place of that worker. -/
theorem located_of_takes (h : (system n B τ).Reachable s) {w : Fin n} {t : Nat}
    (hTaken : t ∈ takes (own w s.hist)) : ∃ p, Located s t p := by
  have hOk := worker_ok h w
  rw [hOk.traced.takes_eq, hOk.traced.starts_eq] at hTaken
  rcases List.mem_append.mp hTaken with hTaken | hPending
  · rcases List.mem_append.mp hTaken with hFinished | hRunning
    · exact ⟨.finished, finished_iff.mpr ⟨w, hFinished⟩⟩
    · exact ⟨.invoked w, (located_invoked hOk.shape).mpr hRunning⟩
  · obtain ⟨j, hAt⟩ := List.mem_iff_getElem?.mp hPending
    exact ⟨.slot w ((s.workers w).cursor + j),
      (located_slot hOk.shape).mpr ⟨by omega, by rwa [Nat.add_sub_cancel_left]⟩⟩

/-- Every accepted task is at one place until the queue is destroyed. -/
theorem located_exists (h : (system n B τ).Reachable s) (hLife : s.life.tasksAlive = true)
    {t : Nat} (ht : t < s.accepted.length) : ∃ p, Located s t p := by
  have hMem := (conserved h).perm.mem_iff.mpr (List.mem_range.mpr ht)
  rw [dropped_eq_nil h hLife, List.map_nil, List.append_nil] at hMem
  rcases List.mem_append.mp hMem with hQueued | hTaken
  · obtain ⟨i, hAt⟩ := List.mem_iff_getElem?.mp hQueued
    exact ⟨.queue i, located_queue.mpr hAt⟩
  · obtain ⟨w, hTakes⟩ := mem_taken.mp hTaken
    exact located_of_takes h hTakes

/-- Only accepted tasks are at a place. -/
theorem located_lt (h : (system n B τ).Reachable s) {t : Nat} {p : Place n}
    (hAt : Located s t p) : t < s.accepted.length := by
  rw [← List.mem_range, ← (conserved h).perm.mem_iff]
  rcases located_taken_by h hAt with ⟨-, -, hQueued⟩ | ⟨w, hTaken, -⟩
  · simp only [List.mem_append]
    exact .inl (.inl hQueued)
  · simp only [List.mem_append]
    exact .inl (.inr (mem_taken.mpr ⟨w, hTaken⟩))

/-- What is at a place has a name there. -/
theorem At.located {e : Elem n τ} {p : Place n} (h : At s e p) : Located s e.id p := by
  cases p with
  | queue i => exact ⟨e, h, rfl⟩
  | slot w i => exact ⟨e, h.1, rfl, h.2⟩
  | invoked w => exact ⟨e, h, rfl⟩
  | finished => exact h

/-- What has the name of an accepted element is that element. -/
theorem at_of_located (h : (system n B τ).Reachable s) {e : Elem n τ}
    (hAccepted : s.accepted[e.id]? = some e) {p : Place n} (hAt : Located s e.id p) :
    At s e p := by
  have hSame : ∀ e', s.Held e' → e'.id = e.id → e' = e := by
    intro e' hHeld hId
    have hAccepted' := held_accepted h hHeld
    rw [hId, hAccepted] at hAccepted'
    exact (Option.some.inj hAccepted').symm
  cases p with
  | queue i =>
    obtain ⟨e', hQueued, hId⟩ := hAt
    obtain rfl := hSame e' (.inl (List.mem_of_getElem? hQueued)) hId
    exact hQueued
  | slot w i =>
    obtain ⟨e', hSlot, hId, hLe⟩ := hAt
    have hBatch := List.mem_of_getElem? ((worker_ok h w).shape.slot_iff.mp hSlot)
    obtain rfl := hSame e' (.inr (.inl ⟨w, hBatch⟩)) hId
    exact ⟨hSlot, hLe⟩
  | invoked w =>
    obtain ⟨e', hCur, hId⟩ := hAt
    obtain rfl := hSame e' (.inr (.inl ⟨w, current_mem_batch h hCur⟩)) hId
    exact hCur
  | finished => exact hAt

/-- Every accepted element, with its value, is at one place. -/
theorem at_exists (h : (system n B τ).Reachable s) (hLife : s.life.tasksAlive = true)
    {e : Elem n τ} (hAccepted : s.accepted[e.id]? = some e) : ∃! p, At s e p := by
  obtain ⟨p, hAt⟩ := located_exists h hLife (List.getElem?_eq_some_iff.mp hAccepted).1
  exact ⟨p, at_of_located h hAccepted hAt, fun p' hAt' => located_unique h (At.located hAt') hAt⟩

-- ---------------------------------------------------------------------------
-- The slots a worker calls
-- ---------------------------------------------------------------------------

/-- The calls of a turn are the first of the slots that the turn filled. -/
theorem turn_prefix (h : (system n B τ).Reachable s) (w : Fin n) :
    starts (iteration (own w s.hist)) <+: takes (iteration (own w s.hist)) := by
  have hTurn := (worker_ok h w).inTurn
  unfold Worker.InTurn at hTurn
  split at hTurn
  · exact hTurn ▸ List.prefix_rfl
  · exact hTurn ▸ List.prefix_rfl
  · exact hTurn ▸ List.prefix_rfl
  · rw [hTurn.1, hTurn.2, List.map_take]
    exact List.take_prefix ..

/-- No worker calls an unfilled slot or leaves the array. -/
theorem no_bad_slot (h : (system n B τ).Reachable s) :
    s.abort ≠ some .unfilledSlot ∧ s.abort ≠ some .outOfBounds := by
  refine System.Reachable.induction (P := fun s : ParameterizedPool n τ =>
    s.abort ≠ some .unfilledSlot ∧ s.abort ≠ some .outOfBounds)
    ⟨by simp [system, init], by simp [system, init]⟩ ?_ h
  intro s a s' hReach hOld hStep
  have hFilled := fun w => (worker_ok hReach w).shape
  cases (step_cases hStep).2 with
  | abort _ r hCause =>
    cases hCause with
    | unfilledSlot w i k hPc hLt hSlot =>
      obtain ⟨e, hEq⟩ := (hFilled w).slot_of_looping hPc hLt
      simp [hEq] at hSlot
    | outOfBounds w i k hPc hLt hSlot =>
      obtain ⟨e, hEq⟩ := (hFilled w).slot_of_looping hPc hLt
      simp [hEq] at hSlot
    | _ => simp [kill]
  | _ => simpa [setWorker, leaveAwait, enqueue] using hOld

end ParameterizedPool

namespace Process

variable {B : Nat} {L : Types} {s s₀ s₁ : Process n L}

/-- What a successful call was made for is accepted under successive names:
task `k` of the call is the one that is named `k` after the number of those
accepted before. So it stays. -/
theorem Succeeds.accepted_get {th : Thread n} {token : Option Nat} {cs : List (Consumer L)}
    (h : Succeeds s₀ th token cs s₁) (hLeads : (system n B L).Leads s₁ s) {k : Nat}
    {c : Consumer L} (hk : cs[k]? = some c) :
    s.pool.accepted[s₀.pool.accepted.length + k]? =
      some ⟨s₀.pool.accepted.length + k, th.producer token, c⟩ := by
  have hNumber : (ParameterizedPool.number s₀.pool.accepted.length (th.producer token) cs)[k]? =
      some ⟨s₀.pool.accepted.length + k, th.producer token, c⟩ := by
    simp only [ParameterizedPool.number, List.getElem?_map, List.getElem?_zipIdx, hk,
      Option.map_some]
  have hFirst : s₁.pool.accepted[s₀.pool.accepted.length + k]? =
      some ⟨s₀.pool.accepted.length + k, th.producer token, c⟩ := by
    rw [h.pool, ParameterizedPool.enqueue, List.getElem?_append_right (Nat.le_add_right ..),
      Nat.add_sub_cancel_left]
    exact hNumber
  obtain ⟨more, hMore⟩ := ParameterizedPool.accepted_of_leads
    ((simulation n B L).leads hLeads)
  have hMore' : s₁.pool.accepted ++ more = s.pool.accepted := hMore
  rw [← hMore', List.getElem?_append_left (List.getElem?_eq_some_iff.mp hFirst).1]
  exact hFirst

end Process

/-- **Exactly-once dispatch.** In every reachable state of a pool, up to the
destruction of its queue: each task that a successful call was made for, at
any time before, is with its value at exactly one place and is invoked at
most once; nothing else is at a place, and no task is invoked twice; the calls
of each turn of a worker are the first of the slots that turn dequeued, in
slot order, and no unfilled slot is ever called. -/
theorem exactly_once {B : Nat} {L : Types} {s : Process n L}
    (h : (Process.system n B L).Reachable s) (hLife : s.pool.life.tasksAlive = true) :
    (∀ s₀ s₁ th token cs, Process.Succeeds s₀ th token cs s₁ →
      (Process.system n B L).Leads s₁ s → ∀ k c, cs[k]? = some c →
        (∃! p, At s.pool ⟨s₀.pool.accepted.length + k, th.producer token, c⟩ p) ∧
          (begun s.pool.hist).count (s₀.pool.accepted.length + k) ≤ 1) ∧
      (∀ t < s.pool.accepted.length, ∃! p, Located s.pool t p) ∧
      (∀ t p, Located s.pool t p → t < s.pool.accepted.length) ∧
      (begun s.pool.hist).Nodup ∧
      (∀ w, starts (iteration (own w s.pool.hist)) <+:
        takes (iteration (own w s.pool.hist))) ∧
      s.pool.abort ≠ some .unfilledSlot ∧ s.pool.abort ≠ some .outOfBounds := by
  have hPool := Process.pool_reachable h
  have hNodup := ParameterizedPool.begun_nodup hPool
  refine ⟨fun s₀ s₁ th token cs hCall hLeads k c hk => ⟨?_, ?_⟩, fun t ht => ?_,
    fun t p => ParameterizedPool.located_lt hPool, hNodup, ParameterizedPool.turn_prefix hPool,
    ParameterizedPool.no_bad_slot hPool⟩
  · exact ParameterizedPool.at_exists hPool hLife (hCall.accepted_get hLeads hk)
  · exact List.nodup_iff_count_le_one.mp hNodup _
  · obtain ⟨p, hAt⟩ := ParameterizedPool.located_exists hPool hLife ht
    exact ⟨p, hAt, fun p' hAt' => ParameterizedPool.located_unique hPool hAt' hAt⟩

/-- A pool of two threads with a task in its queue. -/
def oneScheduled : Process 2 Process.natTypes :=
  ((Process.system 2 2 Process.natTypes).run (Process.system 2 2 Process.natTypes).init
    (Process.construct 2 ++
      [.schedule (.client 0) none (Process.adder 3) [1] faultless])).get rfl

/-- Another producer adds an array of two. -/
def arrayScheduled : Process 2 Process.natTypes :=
  (Process.scheduleBulk faultless (.client 1) (some 7)
    [some (Process.adder 4), some (Process.adder 5)] oneScheduled).2

/-- Two tasks of two producers in one batch: the second waits in its slot
while the first is called. -/
def oneBatch : List (Process.Op 2 Process.natTypes) := Process.takeBatch first 2

theorem exactly_once_oneBatch :
    ∃! p, At (((Process.system 2 2 Process.natTypes).run arrayScheduled oneBatch).get rfl).pool
      ⟨2, .token 7, .function ⟨Process.adder 5, []⟩⟩ p := by
  have hReach : (Process.system 2 2 Process.natTypes).Reachable oneScheduled :=
    System.Reachable.get _ rfl
  have hStep : (Process.system 2 2 Process.natTypes).step oneScheduled
      (.scheduleBulk (.client 1) (some 7) [some (Process.adder 4), some (Process.adder 5)]
        faultless) = some arrayScheduled := rfl
  have hBulk : Process.scheduleBulk faultless (.client 1) (some 7)
      [some (Process.adder 4), some (Process.adder 5)] oneScheduled =
        (.returned true, arrayScheduled) := rfl
  have hLeads := System.Leads.get (M := Process.system 2 2 Process.natTypes) arrayScheduled
    oneBatch rfl
  exact ((exactly_once ((hReach.step hStep).leads hLeads) rfl).1 _ _ _ _ _
    (.scheduleBulk hBulk) hLeads 1 _ rfl).1

end ThreadPool.Model
