import Mathlib.Data.List.Basic
import Mathlib.Order.Basic

/-!
# Consuming a list as far as a machine goes

A machine that takes one element at a time, and may refuse it, uses up a prefix of a
list: `consume` gives its length and the state behind it. Feeding two lists one after
the other is feeding their concatenation (`consume_append`); a machine with a capacity
that every element lowers by one takes as much as fits (`consume_count`).
-/

namespace OsProjects.Prefix

variable {σ α : Type} (step : σ → α → Option σ)

/-- The number of elements taken, and the state behind them. -/
def consume : σ → List α → Nat × σ
  | s, [] => (0, s)
  | s, a :: l =>
    match step s a with
    | none => (0, s)
    | some s' => ((consume s' l).1 + 1, (consume s' l).2)

variable {step} {s s' : σ} {a : α} {l l' : List α}

@[simp] theorem consume_nil : consume step s [] = (0, s) := rfl

theorem consume_cons_none (h : step s a = none) : consume step s (a :: l) = (0, s) := by
  simp only [consume, h]

theorem consume_cons_some (h : step s a = some s') :
    consume step s (a :: l) = ((consume step s' l).1 + 1, (consume step s' l).2) := by
  simp only [consume, h]

theorem consume_zero (h : (consume step s l).1 = 0) : (consume step s l).2 = s := by
  cases l with
  | nil => rfl
  | cons a l =>
    cases hs : step s a with
    | none => rw [consume_cons_none hs]
    | some s' =>
      rw [consume_cons_some hs] at h
      exact absurd h (Nat.succ_ne_zero _)

/-- With the first list taken whole, the second one is fed to the state behind it. -/
theorem consume_append (h : (consume step s l).1 = l.length) : consume step s (l ++ l') =
    (l.length + (consume step (consume step s l).2 l').1,
      (consume step (consume step s l).2 l').2) := by
  induction l generalizing s with
  | nil => simp
  | cons a l ih =>
    cases hs : step s a with
    | none =>
      rw [consume_cons_none hs] at h
      exact absurd h (by simp)
    | some s' =>
      rw [consume_cons_some hs] at h
      have hrest := ih (s := s') (Nat.succ.inj h)
      -- the first element is taken in front of both
      rw [List.cons_append, consume_cons_some hs, hrest, consume_cons_some hs, List.length_cons]
      exact Prod.ext (by simp only; omega) rfl

section Invariant

variable {I : σ → Prop} (hinv : ∀ s a s', I s → step s a = some s' → I s')
include hinv

/-- An invariant of the steps holds behind the prefix. -/
theorem consume_inv (hs : I s) (l : List α) : I (consume step s l).2 := by
  induction l generalizing s with
  | nil => exact hs
  | cons a l ih =>
    cases h : step s a with
    | none =>
      rw [consume_cons_none h]
      exact hs
    | some s' =>
      rw [consume_cons_some h]
      exact ih (hinv s a s' hs h)

/-- A quantity that every element raises by one counts the elements taken. -/
theorem consume_measure {f : σ → Nat} (hf : ∀ s a s', I s → step s a = some s' → f s' = f s + 1)
    (hs : I s) (l : List α) : f (consume step s l).2 = f s + (consume step s l).1 := by
  induction l generalizing s with
  | nil => rfl
  | cons a l ih =>
    cases h : step s a with
    | none => rw [consume_cons_none h, Nat.add_zero]
    | some s' =>
      have hrest := ih (hinv s a s' hs h)
      have hone := hf s a s' hs h
      rw [consume_cons_some h]
      show f (consume step s' l).2 = f s + ((consume step s' l).1 + 1)
      omega

/-- A quantity that no element changes. -/
theorem consume_const {β : Type} {f : σ → β} (hf : ∀ s a s', I s → step s a = some s' → f s' = f s)
    (hs : I s) (l : List α) : f (consume step s l).2 = f s := by
  induction l generalizing s with
  | nil => rfl
  | cons a l ih =>
    cases h : step s a with
    | none => rw [consume_cons_none h]
    | some s' =>
      rw [consume_cons_some h]
      exact (ih (hinv s a s' hs h)).trans (hf s a s' hs h)

/-- A machine that refuses an element only when it is full, and whose capacity every
element lowers by one, takes as much as fits. -/
theorem consume_count {cap : σ → Nat} (hfull : ∀ s a, I s → (step s a = none ↔ cap s = 0))
    (hcap : ∀ s a s', I s → step s a = some s' → cap s' + 1 = cap s) (hs : I s) (l : List α) :
    (consume step s l).1 = min l.length (cap s) := by
  induction l generalizing s with
  | nil => simp
  | cons a l ih =>
    cases h : step s a with
    | none =>
      -- refused: the machine is full
      rw [consume_cons_none h, (hfull s a hs).mp h, Nat.min_zero]
    | some s' =>
      have hrest := ih (hinv s a s' hs h)
      have hone := hcap s a s' hs h
      rw [consume_cons_some h, List.length_cons]
      show (consume step s' l).1 + 1 = _
      omega

/-- A change of the state that the machine does not notice. -/
theorem consume_map {g : σ → σ} (hg : ∀ s a, I s → step (g s) a = (step s a).map g) (hs : I s)
    (l : List α) : consume step (g s) l = ((consume step s l).1, g (consume step s l).2) := by
  induction l generalizing s with
  | nil => rfl
  | cons a l ih =>
    have hgs := hg s a hs
    cases h : step s a with
    | none =>
      rw [h, Option.map_none] at hgs
      rw [consume_cons_none h, consume_cons_none hgs]
    | some s' =>
      rw [h, Option.map_some] at hgs
      rw [consume_cons_some h, consume_cons_some hgs, ih (hinv s a s' hs h)]

end Invariant

end OsProjects.Prefix
