import Mathlib.Algebra.BigOperators.Group.Finset.Basic
import Mathlib.Algebra.Order.BigOperators.Group.Finset
import Mathlib.Algebra.Order.Group.Basic
import Mathlib.Tactic.Abel

/-!
# Completion orderings

The combinatorics behind the Banker's algorithm, for any family of
participants `ι` and any ordered commutative group `α` of amounts (for
resource vectors, `α = ρ → ℤ` with the componentwise order). Each
participant `i` asks for `need i` and hands back `give i` when it completes.

`Completes need give work l`: started with `work`, the participants of `l`
can complete one after the other, each being served from `work` and what
the earlier ones handed back.

The main fact is confluence (`Completes.mem_of_maximal`): a set of
participants that cannot be extended contains everybody that occurs in any
completion ordering, so a greedy search never has to backtrack.
-/

namespace OsProjects.Completion

variable {ι α : Type*} [AddCommGroup α]

/-- What the participants of `l` hand back together. -/
def given (give : ι → α) (l : List ι) : α := (l.map give).sum

@[simp] theorem given_nil (give : ι → α) : given give [] = 0 := rfl

@[simp] theorem given_cons (give : ι → α) (i : ι) (l : List ι) :
    given give (i :: l) = give i + given give l := rfl

@[simp] theorem given_append (give : ι → α) (a b : List ι) :
    given give (a ++ b) = given give a + given give b := by
  simp [given]

/-- Only those in the list count. -/
theorem given_congr {give give' : ι → α} {l : List ι} (h : ∀ i ∈ l, give i = give' i) :
    given give l = given give' l := by
  rw [given, given, List.map_congr_left h]

/-- One of them gives something else. -/
theorem given_update [DecidableEq ι] (give : ι → α) (a : ι) (v : α) {l : List ι}
    (hl : l.Nodup) :
    given (Function.update give a v) l = given give l + if a ∈ l then v - give a else 0 := by
  induction l with
  | nil => simp
  | cons i l ih =>
    obtain ⟨hi, hl⟩ := List.nodup_cons.mp hl
    by_cases hia : i = a
    · subst hia
      simp only [given_cons, ih hl, hi, if_false, Function.update_self, List.mem_cons, true_or,
        if_true]
      abel
    · simp only [given_cons, ih hl, Function.update_of_ne hia, List.mem_cons, Ne.symm hia,
        false_or]
      abel

/-- A list without repetitions that contains everybody who hands something
back accounts for everything. -/
theorem given_eq_sum [DecidableEq ι] [Fintype ι] {give : ι → α} {l : List ι} (hl : l.Nodup)
    (hzero : ∀ i, i ∉ l → give i = 0) : given give l = ∑ i, give i := by
  rw [given, ← List.sum_toFinset _ hl]
  refine Finset.sum_subset (Finset.subset_univ _) fun i _ hi => hzero i ?_
  simpa using hi

/-- Component by component. -/
theorem given_apply {ρ : Type*} (give : ι → ρ → ℤ) (l : List ι) (j : ρ) :
    given give l j = (l.map fun i => give i j).sum := by
  induction l with
  | nil => rfl
  | cons i l ih => simp [ih]

variable [PartialOrder α] {need give : ι → α}

/-- `l` is a completion ordering from `work`. -/
def Completes (need give : ι → α) : α → List ι → Prop
  | _, [] => True
  | work, i :: l => need i ≤ work ∧ Completes need give (work + give i) l

/-- Those behind may count on what those in front have given back. -/
theorem completes_append {work : α} {a b : List ι} :
    Completes need give work (a ++ b) ↔
      Completes need give work a ∧ Completes need give (work + given give a) b := by
  induction a generalizing work with
  | nil => simp [Completes]
  | cons i a ih => simp [Completes, ih, and_assoc, add_assoc]

/-- The prefix form: everybody is served from `work` and what those before
it handed back. -/
theorem completes_iff {work : α} {l : List ι} :
    Completes need give work l ↔
      ∀ pre i post, l = pre ++ i :: post → need i ≤ work + given give pre := by
  induction l generalizing work with
  | nil => simp [Completes]
  | cons i l ih =>
    rw [Completes, ih]
    constructor
    · -- the first item has nothing in front of it
      rintro ⟨hi, hl⟩ pre k post hsplit
      cases pre with
      | nil =>
        obtain ⟨rfl, rfl⟩ := List.cons.inj hsplit
        simpa using hi
      | cons p pre =>
        obtain ⟨rfl, hl'⟩ := List.cons.inj hsplit
        simpa [add_assoc] using hl pre k post hl'
    · intro h
      refine ⟨by simpa using h [] i l rfl, ?_⟩
      intro pre k post hsplit
      simpa [add_assoc] using h (i :: pre) k post (by rw [hsplit, List.cons_append])

/-- An ordering survives any change that leaves every participant at least
as well served at its turn. -/
theorem Completes.imp {need' give' : ι → α} {work work' : α} {l : List ι}
    (h : Completes need give work l)
    (hle : ∀ pre i post, l = pre ++ i :: post →
      need i ≤ work + given give pre → need' i ≤ work' + given give' pre) :
    Completes need' give' work' l := by
  rw [completes_iff] at h ⊢
  exact fun pre i post hl => hle pre i post hl (h pre i post hl)

/-- Participants that hand nothing back can be dropped from an ordering. -/
theorem Completes.filter {work : α} {l : List ι} {p : ι → Bool}
    (h : Completes need give work l) (hgive : ∀ i ∈ l, p i = false → give i = 0) :
    Completes need give work (l.filter p) := by
  induction l generalizing work with
  | nil => exact h
  | cons k l ih =>
    have ih := ih h.2 fun i hi => hgive i (List.mem_cons_of_mem _ hi)
    cases hp : p k with
    | true =>
      rw [List.filter_cons_of_pos hp]
      exact ⟨h.1, ih⟩
    | false =>
      rw [List.filter_cons_of_neg (by simp [hp])]
      simpa [hgive k (List.mem_cons_self ..) hp] using ih

/-- A participant that can be served last can be put last. -/
theorem Completes.concat {work : α} {l : List ι} {i : ι}
    (h : Completes need give work l) (hi : need i ≤ work + given give l) :
    Completes need give work (l ++ [i]) :=
  completes_append.mpr ⟨h, hi, trivial⟩

section Ordered

variable [IsOrderedAddMonoid α]

/-- Nobody takes. -/
theorem given_nonneg (give : ι → α) (hgive : ∀ i, 0 ≤ give i) (l : List ι) : 0 ≤ given give l := by
  induction l with
  | nil => simp
  | cons i l ih => simpa using add_nonneg (hgive i) ih

/-- More givers give more. -/
theorem given_le_of_subset (hgive : ∀ i, 0 ≤ give i) {a b : List ι} (ha : a.Nodup)
    (hsub : a ⊆ b) : given give a ≤ given give b := by
  induction a generalizing b with
  | nil => simpa using given_nonneg give hgive b
  | cons i a ih =>
    obtain ⟨hi, ha⟩ := List.nodup_cons.mp ha
    obtain ⟨hib, hsub⟩ := List.cons_subset.mp hsub
    obtain ⟨b₁, b₂, rfl⟩ := List.append_of_mem hib
    -- taking `i` out of both lists keeps the inclusion
    have hsub' : a ⊆ b₁ ++ b₂ := by
      intro x hx
      have hxi : x ≠ i := fun h => hi (h ▸ hx)
      simpa [hxi] using hsub hx
    have hle := ih ha hsub'
    calc given give (i :: a) = give i + given give a := rfl
      _ ≤ give i + given give (b₁ ++ b₂) := add_le_add_right hle _
      _ = given give (b₁ ++ i :: b₂) := by simp only [given_append, given_cons]; abel

/-- **Confluence.** If nobody outside `done` can be served after `done`,
then `done` contains every participant of every completion ordering. -/
theorem Completes.mem_of_maximal (hgive : ∀ i, 0 ≤ give i) {work : α} {order done : List ι}
    (h : Completes need give work order) (hnodup : order.Nodup)
    (hmax : ∀ i ∈ order, i ∉ done → ¬ need i ≤ work + given give done) :
    ∀ i ∈ order, i ∈ done := by
  by_contra hne
  push Not at hne
  -- the first participant of the ordering that is missing from `done`
  obtain ⟨pre, i, post, rfl, hi, hpre⟩ : ∃ pre i post, order = pre ++ i :: post ∧ i ∉ done ∧
      pre ⊆ done := by
    clear h hnodup hmax
    induction order with
    | nil => obtain ⟨i, hi, _⟩ := hne; simp at hi
    | cons k order ih =>
      by_cases hk : k ∈ done
      · obtain ⟨i, hi, hid⟩ := hne
        have hi' : i ∈ order := by
          rcases List.mem_cons.mp hi with rfl | hi
          · exact absurd hk hid
          · exact hi
        obtain ⟨pre, x, post, rfl, hx, hpre⟩ := ih ⟨i, hi', hid⟩
        exact ⟨k :: pre, x, post, rfl, hx, List.cons_subset.mpr ⟨hk, hpre⟩⟩
      · exact ⟨[], k, order, rfl, hk, by simp⟩
  -- everybody before it is in `done`, so it could be served there too
  have hserved : need i ≤ work + given give pre := completes_iff.mp h pre i post rfl
  have hle : given give pre ≤ given give done :=
    given_le_of_subset hgive (List.nodup_append.mp hnodup).1 hpre
  exact hmax i (by simp) hi (hserved.trans (add_le_add_right hle _))

end Ordered

end OsProjects.Completion
