import Mathlib.Data.List.Basic
import Mathlib.Data.Nat.ModEq
import Mathlib.Logic.Function.Basic

/-!
# Ring buffers — a bounded queue in an array

A queue of at most `N` values in an array of length `N`: a head, a tail and a size, the
indices taken modulo `N`. That the three agree is part of the type. `toList` is the
queue from its head on, and the lemmas say what each operation is on that list.

* `toList_push`, `push_eq_none` — append at the back, unless the buffer is full;
* `pop_eq`, `pop_eq_none` — take the front, unless the buffer is empty;
* `toList_pushFront`, `pushFront_eq_none` — put in front, unless the buffer is full.
-/

namespace OsProjects

/-- A ring buffer of capacity `N`. -/
structure Ring (α : Type) (N : Nat) where
  data : Nat → α
  head : Nat
  tail : Nat
  size : Nat
  head_lt : head < N
  size_le : size ≤ N
  tail_eq : tail = (head + size) % N

namespace Ring

variable {α : Type} {N : Nat}

/-- The queue, front first. -/
def toList (r : Ring α N) : List α := (List.range r.size).map fun i => r.data ((r.head + i) % N)

/-- The ring holds `size` elements. -/
@[simp] theorem length_toList (r : Ring α N) : r.toList.length = r.size := by
  simp [toList]

/-- Forget the contents. -/
def clear (r : Ring α N) : Ring α N where
  data := r.data
  head := 0
  tail := 0
  size := 0
  head_lt := Nat.zero_lt_of_lt r.head_lt
  size_le := Nat.zero_le _
  tail_eq := by rw [Nat.zero_mod]

@[simp] theorem toList_clear (r : Ring α N) : r.clear.toList = [] := rfl

/-- Append at the back. -/
def push (r : Ring α N) (x : α) : Option (Ring α N) :=
  if h : r.size < N then
    some {
      data := Function.update r.data r.tail x
      head := r.head
      tail := (r.tail + 1) % N
      size := r.size + 1
      head_lt := r.head_lt
      size_le := h
      tail_eq := by rw [r.tail_eq, Nat.mod_add_mod, Nat.add_assoc] }
  else none

/-- Take the front. -/
def pop (r : Ring α N) : Option (α × Ring α N) :=
  if h : 0 < r.size then
    some (r.data r.head, {
      data := r.data
      head := (r.head + 1) % N
      tail := r.tail
      size := r.size - 1
      head_lt := Nat.mod_lt _ (Nat.zero_lt_of_lt r.head_lt)
      size_le := Nat.le_trans (Nat.sub_le _ _) r.size_le
      tail_eq := by
        rw [r.tail_eq, Nat.mod_add_mod]
        congr 1
        omega })
  else none

/-- Put in front. -/
def pushFront (r : Ring α N) (x : α) : Option (Ring α N) :=
  if h : r.size < N then
    some {
      data := Function.update r.data ((r.head + N - 1) % N) x
      -- one cell back, around the end of the array
      head := (r.head + N - 1) % N
      tail := r.tail
      size := r.size + 1
      head_lt := Nat.mod_lt _ (Nat.zero_lt_of_lt r.head_lt)
      size_le := h
      tail_eq := by
        have hlt := r.head_lt
        have hsum : r.head + N - 1 + (r.size + 1) = r.head + r.size + N := by omega
        rw [r.tail_eq, Nat.mod_add_mod, hsum, Nat.add_mod_right] }
  else none

/-- Offsets below the capacity from one index lead to different cells. -/
theorem cell_ne {head i j : Nat} (hi : i < N) (hj : j < N) (hij : i ≠ j) :
    (head + i) % N ≠ (head + j) % N := fun heq => by
  have hmod : i % N = j % N := Nat.ModEq.add_left_cancel' head heq
  rw [Nat.mod_eq_of_lt hi, Nat.mod_eq_of_lt hj] at hmod
  exact hij hmod

/-- The test of both ways of putting a value in. -/
theorem full_iff (r : Ring α N) {f : r.size < N → Ring α N} :
    (if h : r.size < N then some (f h) else none) = none ↔ r.size = N := by
  have hle := r.size_le
  split_ifs with h
  · simp
    omega
  · simp
    omega

/-- Only a full ring refuses an element. -/
theorem push_eq_none (r : Ring α N) (x : α) : r.push x = none ↔ r.size = N := full_iff r

theorem pushFront_eq_none (r : Ring α N) (x : α) : r.pushFront x = none ↔ r.size = N := full_iff r

/-- `push` puts an element behind the others. -/
theorem toList_push {r r' : Ring α N} {x : α} (h : r.push x = some r') :
    r'.toList = r.toList ++ [x] := by
  unfold push at h
  split_ifs at h with hlt
  have heq := Option.some.inj h
  subst heq
  simp only [toList]
  rw [List.range_succ, List.map_append, List.map_singleton]
  congr 1
  · -- the cells in front of the tail are not written
    refine List.map_congr_left fun i hi => Function.update_of_ne ?_ _ _
    rw [r.tail_eq]
    have hi' := List.mem_range.mp hi
    exact cell_ne (by omega) hlt (by omega)
  · rw [r.tail_eq, Function.update_self]

/-- Only an empty ring has nothing to give. -/
theorem pop_eq_none (r : Ring α N) : r.pop = none ↔ r.size = 0 := by
  unfold pop
  split_ifs with h
  · simp
    omega
  · simp
    omega

/-- `pop` takes the first element. -/
theorem toList_pop {r r' : Ring α N} {x : α} (h : r.pop = some (x, r')) :
    r.toList = x :: r'.toList := by
  unfold pop at h
  split_ifs at h with hpos
  obtain ⟨hx, hr⟩ := Prod.mk.inj (Option.some.inj h)
  subst hx hr
  -- the offsets from the new head are those from the old one, less one
  obtain ⟨m, hm⟩ := Nat.exists_eq_succ_of_ne_zero (Nat.ne_of_gt hpos)
  simp only [toList]
  rw [hm, Nat.succ_sub_one, List.range_succ_eq_map, List.map_cons, Nat.add_zero,
    Nat.mod_eq_of_lt r.head_lt, List.map_map]
  congr 1
  refine List.map_congr_left fun i _ => ?_
  simp only [Function.comp_apply, Nat.mod_add_mod]
  congr 2
  omega

/-- `pushFront` puts an element before the others. -/
theorem toList_pushFront {r r' : Ring α N} {x : α} (h : r.pushFront x = some r') :
    r'.toList = x :: r.toList := by
  unfold pushFront at h
  split_ifs at h with hlt
  have heq := Option.some.inj h
  subst heq
  have hhead := r.head_lt
  simp only [toList]
  rw [List.range_succ_eq_map, List.map_cons, Nat.add_zero, Nat.mod_mod, Function.update_self,
    List.map_map]
  congr 1
  refine List.map_congr_left fun i hi => ?_
  have hi' := List.mem_range.mp hi
  -- the old cells are those behind the new head
  have hcell : ((r.head + N - 1) % N + (i + 1)) % N = (r.head + i) % N := by
    rw [Nat.mod_add_mod, show r.head + N - 1 + (i + 1) = r.head + i + N by omega,
      Nat.add_mod_right]
  have hfront : (r.head + N - 1) % N = (r.head + (N - 1)) % N := by
    congr 1
    omega
  simp only [Function.comp_apply, Nat.succ_eq_add_one, hcell]
  refine Function.update_of_ne ?_ _ _
  rw [hfront]
  exact cell_ne (by omega) (by omega) (by omega)

/-- The same, told from the elements. -/
theorem pop_some {r : Ring α N} {x : α} {xs : List α} (h : r.toList = x :: xs) :
    ∃ r', r.pop = some (x, r') ∧ r'.toList = xs := by
  cases hpop : r.pop with
  | none =>
    have hsize := (pop_eq_none r).mp hpop
    rw [← length_toList, h] at hsize
    exact absurd hsize (by simp)
  | some p =>
    obtain ⟨y, r'⟩ := p
    have hcons := (toList_pop hpop).symm.trans h
    rw [List.cons_eq_cons] at hcons
    exact ⟨r', by rw [hcons.1], hcons.2⟩

/-- A way of putting an element that only a full ring refuses succeeds while there is room. -/
theorem exists_of_not_full {r : Ring α N} {put : Option (Ring α N)}
    (hnone : put = none ↔ r.size = N) (h : r.toList.length < N) : ∃ r', put = some r' := by
  refine Option.ne_none_iff_exists'.mp fun hput => ?_
  rw [length_toList, hnone.mp hput] at h
  exact Nat.lt_irrefl N h

theorem push_some {r : Ring α N} (x : α) (h : r.toList.length < N) :
    ∃ r', r.push x = some r' ∧ r'.toList = r.toList ++ [x] := by
  obtain ⟨r', hpush⟩ := exists_of_not_full (push_eq_none r x) h
  exact ⟨r', hpush, toList_push hpush⟩

theorem pushFront_some {r : Ring α N} (x : α) (h : r.toList.length < N) :
    ∃ r', r.pushFront x = some r' ∧ r'.toList = x :: r.toList := by
  obtain ⟨r', hpush⟩ := exists_of_not_full (pushFront_eq_none r x) h
  exact ⟨r', hpush, toList_pushFront hpush⟩

end Ring

end OsProjects
