import Mathlib.Data.List.Basic
import Mathlib.Data.List.Nodup

/-!
# First come, first served

A queue without repetitions, changed by three moves: a newcomer joins at the
back, the front is served, and somebody is taken out of turn. `Moves l ms l'`
is a run of such moves.

* `Moves.inFront` — who is behind `x` is not served before it;
* `Moves.rank` — every service brings `x` one place nearer to the front, and
  no move brings it further back, so with `p` in front of it `x` is gone after
  `p + 1` services.
-/

namespace OsProjects.Fifo

variable {α : Type*} [DecidableEq α]

/-- What happens to the queue: a join at the end, a service at the front, or a removal. -/
inductive Move (α : Type*)
  | push (x : α)
  | pop (x : α)
  | take (x : α)

/-- How many were served. -/
def pops : List (Move α) → Nat
  | [] => 0
  | .pop _ :: ms => pops ms + 1
  | _ :: ms => pops ms

/-- `ms` leads from the queue `l` to `l'`. -/
inductive Moves : List α → List (Move α) → List α → Prop
  | nil (l : List α) : Moves l [] l
  | push {l l' : List α} {ms : List (Move α)} (x : α) (hx : x ∉ l) (h : Moves (l ++ [x]) ms l') :
      Moves l (.push x :: ms) l'
  | pop {l l' : List α} {ms : List (Move α)} (x : α) (h : Moves l ms l') :
      Moves (x :: l) (.pop x :: ms) l'
  | take {l l' : List α} {ms : List (Move α)} (x : α) (h : Moves (l.erase x) ms l') :
      Moves l (.take x :: ms) l'

/-- `x` is queued, and `y` is not in front of it. -/
def InFront (x y : α) (l : List α) : Prop := l.idxOf x < l.idxOf y

variable {x y z : α} {l l' l'' : List α} {ms ms' : List (Move α)}

/-- An element in front of another is waiting. -/
theorem InFront.mem (h : InFront x y l) : x ∈ l :=
  List.idxOf_lt_length_iff.mp (Nat.lt_of_lt_of_le h List.idxOf_le_length)

/-- No element is in front of itself. -/
theorem InFront.ne (h : InFront x y l) : x ≠ y := by
  rintro rfl
  exact Nat.lt_irrefl _ h

omit [DecidableEq α] in
/-- Services of two stretches add up. -/
theorem pops_append (ms ms' : List (Move α)) : pops (ms ++ ms') = pops ms + pops ms' := by
  induction ms with
  | nil => exact (Nat.zero_add _).symm
  | cons m ms ih => cases m <;> simp [pops, ih, Nat.add_right_comm]

omit [DecidableEq α] in
/-- Somebody was served. -/
theorem pops_pos (h : .pop x ∈ ms) : 0 < pops ms := by
  obtain ⟨pre, post, rfl⟩ := List.append_of_mem h
  rw [pops_append, pops]
  omega

/-! ## One move -/

/-- Whoever joins, joins behind both. -/
theorem InFront.push (h : InFront x y l) (z : α) : InFront x y (l ++ [z]) := by
  unfold InFront at h ⊢
  rw [List.idxOf_append_of_mem (InFront.mem h)]
  by_cases hy : y ∈ l
  · rwa [List.idxOf_append_of_mem hy]
  · -- a newcomer comes behind everybody
    rw [List.idxOf_append_of_notMem hy]
    exact Nat.lt_of_lt_of_le (List.idxOf_lt_length_of_mem (InFront.mem h)) (Nat.le_add_right _ _)

/-- Who is behind `x` is not at the front. -/
theorem InFront.ne_head (h : InFront x y (z :: l)) : y ≠ z := by
  rintro rfl
  unfold InFront at h
  rw [List.idxOf_cons_self] at h
  exact Nat.not_lt_zero _ h

/-- As long as it is not served itself, it stays in front. -/
theorem InFront.pop (h : InFront x y (z :: l)) (hx : x ≠ z) : InFront x y l := by
  have hy := h.ne_head
  unfold InFront at h ⊢
  rw [List.idxOf_cons_ne _ hx.symm, List.idxOf_cons_ne _ hy.symm] at h
  exact Nat.lt_of_succ_lt_succ h

/-- As long as it is not taken out, it stays in front. -/
theorem InFront.erase (h : InFront x y l) (hx : x ≠ z) : InFront x y (l.erase z) := by
  induction l with
  | nil => exact h
  | cons a l ih =>
    by_cases haz : a = z
    · subst haz
      rw [List.erase_cons_head]
      exact h.pop hx
    · rw [List.erase_cons_tail (by simpa using haz)]
      by_cases hax : a = x
      -- `x` is at the front and stays there
      · subst hax
        unfold InFront
        rw [List.idxOf_cons_self, List.idxOf_cons_ne _ h.ne]
        exact Nat.succ_pos _
      · have hrest := ih (h.pop (Ne.symm hax))
        unfold InFront at hrest ⊢
        rw [List.idxOf_cons_ne _ hax, List.idxOf_cons_ne _ (Ne.symm h.ne_head)]
        exact Nat.succ_lt_succ hrest

/-- A removal moves nobody back. -/
theorem idxOf_erase_le (hx : x ≠ z) : (l.erase z).idxOf x ≤ l.idxOf x := by
  induction l with
  | nil => exact Nat.le_refl _
  | cons a l ih =>
    -- `z` in front: everything moves one place up
    by_cases haz : a = z
    · subst haz
      rw [List.erase_cons_head, List.idxOf_cons_ne _ hx.symm]
      exact Nat.le_succ _
    · rw [List.erase_cons_tail (by simpa using haz)]
      by_cases hax : a = x
      · subst hax
        rw [List.idxOf_cons_self]
        exact Nat.zero_le _
      · rw [List.idxOf_cons_ne _ hax, List.idxOf_cons_ne _ hax]
        exact Nat.succ_le_succ ih

/-! ## Runs -/

/-- Two stretches make one. -/
theorem Moves.append (h : Moves l ms l') (h' : Moves l' ms' l'') : Moves l (ms ++ ms') l'' := by
  induction h with
  | nil _ => exact h'
  | push x hx _ ih => exact .push x hx (ih h')
  | pop x _ ih => exact .pop x (ih h')
  | take x _ ih => exact .take x (ih h')

/-- Nobody waits twice. -/
theorem Moves.nodup (h : Moves l ms l') (hl : l.Nodup) : l'.Nodup := by
  induction h with
  | nil _ => exact hl
  | push x hx _ ih =>
    exact ih (List.nodup_append_comm.mp (List.nodup_cons.mpr ⟨hx, hl⟩))
  | pop x _ ih => exact ih (List.nodup_cons.mp hl).2
  | take x _ ih => exact ih (hl.erase x)

/-- **No overtaking.** While `x` is neither served nor taken out, nobody
behind it is served. -/
theorem Moves.inFront (h : Moves l ms l') (hxy : InFront x y l) (hpop : .pop x ∉ ms)
    (htake : .take x ∉ ms) : InFront x y l' ∧ .pop y ∉ ms := by
  -- on the moves: while `x` stays, `y` is never at the front
  induction h with
  | nil _ => exact ⟨hxy, List.not_mem_nil⟩
  | push z _ _ ih =>
    rw [List.mem_cons, not_or] at hpop htake
    obtain ⟨hrest, hno⟩ := ih (hxy.push z) hpop.2 htake.2
    exact ⟨hrest, by simpa using hno⟩
  | pop z _ ih =>
    rw [List.mem_cons, not_or] at hpop htake
    have hxz : x ≠ z := fun h => hpop.1 (by rw [h])
    obtain ⟨hrest, hno⟩ := ih (hxy.pop hxz) hpop.2 htake.2
    have hyz := hxy.ne_head
    exact ⟨hrest, by simpa [hyz] using hno⟩
  | take z _ ih =>
    rw [List.mem_cons, not_or] at hpop htake
    have hxz : x ≠ z := fun h => htake.1 (by rw [h])
    obtain ⟨hrest, hno⟩ := ih (hxy.erase hxz) hpop.2 htake.2
    exact ⟨hrest, by simpa using hno⟩

/-- **Bounded waiting.** While `x` is neither served nor taken out, the places
in front of it and the services together do not grow. -/
theorem Moves.rank (h : Moves l ms l') (hx : x ∈ l) (hpop : .pop x ∉ ms) (htake : .take x ∉ ms) :
    x ∈ l' ∧ l'.idxOf x + pops ms ≤ l.idxOf x := by
  induction h with
  | nil _ => exact ⟨hx, Nat.le_refl _⟩
  | push z _ _ ih =>
    rw [List.mem_cons, not_or] at hpop htake
    obtain ⟨hmem, hle⟩ := ih (List.mem_append_left _ hx) hpop.2 htake.2
    rw [List.idxOf_append_of_mem hx] at hle
    exact ⟨hmem, hle⟩
  | pop z _ ih =>
    rw [List.mem_cons, not_or] at hpop htake
    have hxz : x ≠ z := fun h => hpop.1 (by rw [h])
    obtain ⟨hmem, hle⟩ := ih ((List.mem_cons.mp hx).resolve_left hxz) hpop.2 htake.2
    refine ⟨hmem, ?_⟩
    -- one service, one place
    rw [List.idxOf_cons_ne _ hxz.symm]
    exact Nat.succ_le_succ hle
  | take z _ ih =>
    rw [List.mem_cons, not_or] at hpop htake
    have hxz : x ≠ z := fun h => htake.1 (by rw [h])
    obtain ⟨hmem, hle⟩ := ih ((List.mem_erase_of_ne hxz).mpr hx) hpop.2 htake.2
    exact ⟨hmem, Nat.le_trans hle (idxOf_erase_le hxz)⟩

end OsProjects.Fifo
