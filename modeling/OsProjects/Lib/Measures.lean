import Mathlib.Algebra.BigOperators.Fin
import Mathlib.Algebra.Order.BigOperators.Group.Finset

/-!
# Measures of what is left to do

A run that lowers a number in every step comes to an end. The number is mostly a sum, one
summand for each participant, and a step changes one of them.

* `sum_add_of_eq`, `sum_update_add` — what one participant's change does to the sum;
* `exists_done` — a run whose measure goes down until it is done.
-/

namespace OsProjects.Measures

/-- Two families that agree except for the member `i`. -/
theorem sum_add_of_eq {ι : Type*} [Fintype ι] [DecidableEq ι] {a b : ι → Nat} (i : ι)
    (h : ∀ j, j ≠ i → a j = b j) : ∑ j, a j + b i = ∑ j, b j + a i := by
  have ha : a i + ∑ j ∈ Finset.univ.erase i, a j = ∑ j, a j :=
    Finset.add_sum_erase _ _ (Finset.mem_univ i)
  have hb : b i + ∑ j ∈ Finset.univ.erase i, b j = ∑ j, b j :=
    Finset.add_sum_erase _ _ (Finset.mem_univ i)
  have hother : ∑ j ∈ Finset.univ.erase i, a j = ∑ j ∈ Finset.univ.erase i, b j :=
    Finset.sum_congr rfl fun j hj => h j (Finset.ne_of_mem_erase hj)
  omega

/-- A sum over a family in which the member `i` is replaced. -/
theorem sum_update_add {ι α : Type*} [Fintype ι] [DecidableEq ι] (f : α → Nat) (g : ι → α)
    (i : ι) (x : α) :
    ∑ j, f (Function.update g i x j) + f (g i) = ∑ j, f (g j) + f x := by
  have hsum := sum_add_of_eq (a := fun j => f (Function.update g i x j))
    (b := fun j => f (g j)) i fun j hj => by rw [Function.update_of_ne hj]
  rwa [Function.update_self] at hsum

/-- If every step of a run that is not yet done lowers the measure, the run is done by the time
its length has reached the measure it began with. -/
theorem exists_done {σ : Type*} (run : Nat → σ) {done : σ → Prop} (measure : σ → Nat → Prop)
    {bound : Nat} (hstart : measure (run 0) bound)
    (hstep : ∀ n k, ¬ done (run n) → measure (run n) k →
      done (run (n + 1)) ∨ ∃ k' < k, measure (run (n + 1)) k') :
    ∃ n ≤ bound + 1, done (run n) := by
  induction bound using Nat.strong_induction_on generalizing run with
  | _ bound ih =>
    by_cases hdone : done (run 0)
    · exact ⟨0, Nat.zero_le _, hdone⟩
    · rcases hstep 0 bound hdone hstart with hend | ⟨k, hk, hnext⟩
      · exact ⟨1, by omega, hend⟩
      · obtain ⟨n, hn, hend⟩ := ih k hk (fun n => run (n + 1)) hnext fun n => hstep (n + 1)
        exact ⟨n + 1, by omega, hend⟩

end OsProjects.Measures
