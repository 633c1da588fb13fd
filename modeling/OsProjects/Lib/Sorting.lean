import Mathlib.Data.List.Sort

/-!
# Sorting by a comparator

`Qsort α` is any function the C standard allows as `qsort`: it reorders, and with
a consistent comparator the result is in order. How it treats equal elements, and
what it does with an inconsistent comparator, is left open.

When elements that compare equal are equal, the result depends on the elements
only, not on the order they came in nor on which `qsort` it is
(`Qsort.sort_eq_of_perm`).
-/

namespace OsProjects

variable {α : Type*}

/-- A comparator of a total preorder: the sign tells the order, and swapping the
arguments swaps the sign. -/
structure Comparator (cmp : α → α → Int) : Prop where
  swap : ∀ a b, cmp a b ≤ 0 ↔ 0 ≤ cmp b a
  trans : ∀ a b c, cmp a b ≤ 0 → cmp b c ≤ 0 → cmp a c ≤ 0

theorem Comparator.total {cmp : α → α → Int} (h : Comparator cmp) (a b : α) :
    cmp a b ≤ 0 ∨ cmp b a ≤ 0 := by
  rcases Int.le_total (cmp a b) 0 with hab | hab
  · exact Or.inl hab
  · exact Or.inr ((h.swap b a).mpr hab)

/-- `qsort`, as documented. -/
structure Qsort (α : Type*) where
  sort : (α → α → Int) → List α → List α
  perm : ∀ cmp l, (sort cmp l).Perm l
  sorted : ∀ cmp l, Comparator cmp → (sort cmp l).Pairwise fun a b => cmp a b ≤ 0

namespace Qsort

/-- Merge sort is one. -/
def merge (α : Type*) : Qsort α where
  sort cmp l := l.mergeSort fun a b => decide (cmp a b ≤ 0)
  perm cmp l := List.mergeSort_perm l _
  sorted cmp l h := by
    have hsorted := @List.pairwise_mergeSort _ (fun a b => decide (cmp a b ≤ 0))
      (fun a b c hab hbc => by
        rw [decide_eq_true_eq] at hab hbc ⊢
        exact h.trans a b c hab hbc)
      (fun a b => by
        rw [Bool.or_eq_true, decide_eq_true_eq, decide_eq_true_eq]
        exact h.total a b) l
    exact hsorted.imp fun hab => of_decide_eq_true hab

theorem mem_sort (q : Qsort α) {cmp : α → α → Int} {l : List α} {a : α} :
    a ∈ q.sort cmp l ↔ a ∈ l :=
  (q.perm cmp l).mem_iff

theorem sort_eq_of_perm (q q' : Qsort α) {cmp : α → α → Int} (h : Comparator cmp)
    (hanti : ∀ a b, cmp a b = 0 → a = b) {l l' : List α} (hl : l.Perm l') :
    q.sort cmp l = q'.sort cmp l' := by
  have hperm : (q.sort cmp l).Perm (q'.sort cmp l') :=
    ((q.perm cmp l).trans hl).trans (q'.perm cmp l').symm
  refine hperm.eq_of_pairwise ?_ (q.sorted cmp l h) (q'.sorted cmp l' h)
  intro a b _ _ hab hba
  exact hanti a b (Int.le_antisymm hab ((h.swap b a).mp hba))

end Qsort

end OsProjects
