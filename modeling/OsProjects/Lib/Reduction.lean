import Mathlib.Data.Fintype.Card
import OsProjects.Lib.Completion
import OsProjects.Lib.Scan

/-!
# Graph reduction by scanning

The multi-pass search that the Banker's safety test and deadlock detection
share: a `work` amount, a `finish` flag per participant, and a scan loop
that finishes every unfinished participant whose demand `work` covers,
adding what it hands back to `work`.

`reduce_spec` says what the loop ends with, and `reduce_complete` that it
finishes every participant some completion ordering could have finished:
the order in which the passes pick participants does not matter.

`Reaches.maximal_eq` says so for any order of picks whatever, and
`reduce_greatest` describes the result with no order at all: the unfinished
participants are the greatest `Blocked` set.
-/

namespace OsProjects.Reduction

open Completion

variable {ι α : Type*}

/-- The loop's variables. -/
structure State (ι α : Type*) where
  work : α
  finish : ι → Bool

section Definitions

variable [DecidableEq ι] [Add α]

/-- The body of the loop for candidate `i`. -/
def reduceStep (can : ι → α → Bool) (give : ι → α) (i : ι) (s : State ι α) :
    Option (State ι α) :=
  if s.finish i then none
  else if can i s.work then
    some { work := s.work + give i, finish := Function.update s.finish i true }
  else none

variable [Fintype ι]

/-- How many participants are unfinished. -/
def unfinished (s : State ι α) : Nat := (Finset.univ.filter fun i => s.finish i = false).card

/-- The whole loop, over the candidates `l`. -/
def reduce (can : ι → α → Bool) (give : ι → α) (l : List ι) (s : State ι α) : State ι α :=
  Scan.loop (reduceStep can give) l unfinished s

end Definitions

section Spec

variable [DecidableEq ι]

theorem reduceStep_eq_some [Add α] (can : ι → α → Bool) (give : ι → α) {i : ι}
    {s s' : State ι α} :
    reduceStep can give i s = some s' ↔
      s.finish i = false ∧ can i s.work = true ∧
        s' = ⟨s.work + give i, Function.update s.finish i true⟩ := by
  unfold reduceStep
  cases s.finish i <;> cases can i s.work <;> simp [eq_comm]

theorem unfinished_lt [Add α] [Fintype ι] {can : ι → α → Bool} {give : ι → α} {i : ι}
    {s s' : State ι α} (h : reduceStep can give i s = some s') :
    unfinished s' < unfinished s := by
  obtain ⟨hi, -, rfl⟩ := (reduceStep_eq_some can give).mp h
  refine Finset.card_lt_card (Finset.ssubset_iff_of_subset ?_ |>.mpr ⟨i, ?_, ?_⟩)
  · intro k hk
    by_cases hki : k = i
    · simp [hki] at hk
    · simpa [Function.update_of_ne hki] using hk
  · simpa using hi
  · simp

variable [AddCommGroup α] [PartialOrder α] {need give : ι → α} {can : ι → α → Bool}

/-- What holds between the start `s₀` of the loop and a later point `s`:
`done` is the list of participants finished in between. -/
structure Progress (need give : ι → α) (s₀ s : State ι α) (done : List ι) : Prop where
  nodup : done.Nodup
  fresh : ∀ i ∈ done, s₀.finish i = false
  finish_iff : ∀ i, s.finish i = true ↔ s₀.finish i = true ∨ i ∈ done
  work_eq : s.work = s₀.work + given give done
  completes : Completes need give s₀.work done

omit [DecidableEq ι] in
theorem Progress.start (s : State ι α) : Progress need give s s [] where
  nodup := List.nodup_nil
  fresh := by simp
  finish_iff := by simp
  work_eq := by simp
  completes := trivial

theorem Progress.step (hcan : ∀ i w, can i w = true ↔ need i ≤ w) {s₀ s s' : State ι α}
    {done : List ι} (h : Progress need give s₀ s done) {i : ι}
    (hi : reduceStep can give i s = some s') : Progress need give s₀ s' (done ++ [i]) := by
  obtain ⟨hfin, hc, rfl⟩ := (reduceStep_eq_some can give).mp hi
  -- `i` was unfinished, so it is new to `done`
  have hnot : ¬ (s₀.finish i = true ∨ i ∈ done) := by
    rw [← h.finish_iff i, hfin]
    simp
  push Not at hnot
  refine ⟨?_, ?_, ?_, ?_, ?_⟩
  · exact List.nodup_append.mpr ⟨h.nodup, by simp, by
      rintro a ha b hb rfl
      exact hnot.2 (by simpa using (List.mem_singleton.mp hb) ▸ ha)⟩
  · intro k hk
    rcases List.mem_append.mp hk with hk | hk
    · exact h.fresh k hk
    · rw [List.mem_singleton.mp hk]
      simpa using hnot.1
  · intro k
    by_cases hki : k = i
    · simp [hki]
    · simp [hki, h.finish_iff k]
  · simp [h.work_eq, add_assoc]
  · exact h.completes.concat (by
      rw [← h.work_eq]
      exact (hcan i s.work).mp hc)

/-- Any order of picks finishes some completion ordering. -/
theorem Reaches.progress (hcan : ∀ i w, can i w = true ↔ need i ≤ w) {s₀ s : State ι α}
    (h : Scan.Reaches (reduceStep can give) s₀ s) : ∃ done, Progress need give s₀ s done := by
  refine h.preserves (P := fun s => ∃ done, Progress need give s₀ s done) ?_
    ⟨[], Progress.start s₀⟩
  rintro i s s' hi ⟨done, hdone⟩
  exact ⟨done ++ [i], hdone.step hcan hi⟩

/-- An unfinished participant that is not enabled is not covered. -/
theorem not_covered (hcan : ∀ i w, can i w = true ↔ need i ≤ w) {s : State ι α} {i : ι}
    (hquiet : reduceStep can give i s = none) (hfin : s.finish i = false) :
    ¬ need i ≤ s.work := by
  intro hle
  have hsome := (reduceStep_eq_some can give).mpr ⟨hfin, (hcan i s.work).mpr hle, rfl⟩
  rw [hquiet] at hsome
  exact absurd hsome (by simp)

section Confluence

variable [IsOrderedAddMonoid α]

/-- A run that cannot go on has finished every completion ordering. -/
theorem Progress.complete (hcan : ∀ i w, can i w = true ↔ need i ≤ w) (hgive : ∀ i, 0 ≤ give i)
    {s₀ s : State ι α} {done order : List ι} (hdone : Progress need give s₀ s done)
    (hquiet : ∀ i ∈ order, reduceStep can give i s = none) (hnodup : order.Nodup)
    (hfresh : ∀ i ∈ order, s₀.finish i = false) (h : Completes need give s₀.work order) :
    ∀ i ∈ order, i ∈ done :=
  h.mem_of_maximal hgive hnodup fun i hi hid hle => by
    have hfin : s.finish i = false := by
      have := (hdone.finish_iff i).not
      simpa [hfresh i hi, hid] using this
    exact not_covered hcan (hquiet i hi) hfin (by rwa [hdone.work_eq])

end Confluence

variable [Fintype ι]

omit [PartialOrder α] in
/-- The loop is one such run, when it scans every participant. -/
theorem reduce_maximal (can : ι → α → Bool) (give : ι → α) {l : List ι}
    (s₀ : State ι α) :
    Scan.Reaches (reduceStep can give) s₀ (reduce can give l s₀) ∧
      ∀ i ∈ l, reduceStep can give i (reduce can give l s₀) = none :=
  ⟨Scan.loop_reaches _ l unfinished s₀,
    Scan.loop_quiet _ unfinished (fun _ _ _ => unfinished_lt) l s₀⟩

/-- What the loop ends with: some completion ordering `done` has been
finished, and no unfinished candidate is covered any more. -/
theorem reduce_spec (give : ι → α) (hcan : ∀ i w, can i w = true ↔ need i ≤ w)
    (l : List ι) (s₀ : State ι α) :
    (∃ done, Progress need give s₀ (reduce can give l s₀) done) ∧
      ∀ i ∈ l, (reduce can give l s₀).finish i = false →
        ¬ need i ≤ (reduce can give l s₀).work := by
  obtain ⟨hreach, hquiet⟩ := reduce_maximal can give (l := l) s₀
  exact ⟨Reaches.progress hcan hreach, fun i hi => not_covered hcan (hquiet i hi)⟩

/-- Every participant of any completion ordering from the loop's start is
finished at its end. -/
theorem reduce_complete [IsOrderedAddMonoid α] (hcan : ∀ i w, can i w = true ↔ need i ≤ w)
    (hgive : ∀ i, 0 ≤ give i) {l : List ι} (hl : ∀ i, i ∈ l) (s₀ : State ι α) {order : List ι}
    (hnodup : order.Nodup) (hfresh : ∀ i ∈ order, s₀.finish i = false)
    (h : Completes need give s₀.work order) :
    ∀ i ∈ order, (reduce can give l s₀).finish i = true := by
  obtain ⟨⟨done, hdone⟩, -⟩ := reduce_spec give hcan l s₀
  have hmem := hdone.complete hcan hgive
    (fun i _ => (reduce_maximal can give s₀).2 i (hl i)) hnodup hfresh h
  exact fun i hi => (hdone.finish_iff i).mpr (Or.inr (hmem i hi))

/-! ## The unfinished participants -/

/-- The participants of `D` are unfinished at `s`, and none of them is
covered even when every other unfinished participant hands back. -/
def Blocked (need give : ι → α) (s : State ι α) (D : Finset ι) : Prop :=
  ∀ i ∈ D, s.finish i = false ∧
    ¬ need i ≤ s.work + ∑ k with s.finish k = false ∧ k ∉ D, give k

/-- **The loop computes the greatest blocked set.** What it leaves unfinished
is blocked, and contains every other blocked set. -/
theorem reduce_greatest [IsOrderedAddMonoid α] (hcan : ∀ i w, can i w = true ↔ need i ≤ w)
    (hgive : ∀ i, 0 ≤ give i) {l : List ι} (hl : ∀ i, i ∈ l) (s₀ : State ι α) :
    IsGreatest {D | Blocked need give s₀ D}
      (Finset.univ.filter fun i => (reduce can give l s₀).finish i = false) := by
  obtain ⟨⟨done, hdone⟩, hmax⟩ := reduce_spec give hcan l s₀
  have hunfin : ∀ i, (reduce can give l s₀).finish i = false ↔
      s₀.finish i = false ∧ i ∉ done := fun i => by
    rw [← Bool.not_eq_true, hdone.finish_iff]
    simp
  constructor
  -- what was finished in between is exactly the fresh participants outside
  · intro i hi
    obtain ⟨-, hi⟩ := Finset.mem_filter.mp hi
    have hsum : ∑ k with s₀.finish k = false ∧
        k ∉ Finset.univ.filter (fun i => (reduce can give l s₀).finish i = false), give k =
        given give done := by
      rw [given, ← List.sum_toFinset _ hdone.nodup]
      refine Finset.sum_congr (Finset.ext fun k => ?_) fun _ _ => rfl
      have := hdone.fresh k
      simp only [Finset.mem_filter, Finset.mem_univ, true_and, hunfin, List.mem_toFinset]
      tauto
    refine ⟨((hunfin i).mp hi).1, ?_⟩
    rw [hsum, ← hdone.work_eq]
    exact hmax i (hl i) hi
  -- nobody of a blocked set can occur in a completion ordering
  · intro D hD i hi
    have hserved : ∀ k ∈ done, k ∈ (Finset.univ.filter fun k =>
        s₀.finish k = false ∧ k ∉ D).toList := by
      refine hdone.completes.mem_of_maximal hgive hdone.nodup ?_
      intro k hk hkD
      have hkD' : k ∈ D := by simpa [hdone.fresh k hk] using hkD
      rw [given, Finset.sum_map_toList]
      exact (hD k hkD').2
    rw [Finset.mem_filter, hunfin]
    refine ⟨Finset.mem_univ i, (hD i hi).1, ?_⟩
    intro hid
    have := hserved i hid
    simp [hi] at this

end Spec

end OsProjects.Reduction
