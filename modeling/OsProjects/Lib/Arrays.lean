import Mathlib.Data.List.Rotate
import Mathlib.Logic.Function.Basic

/-!
# Arrays written in place

An array is the function from its indices to its entries, whatever its length;
`cells arr n` is the list of its first `n` entries.

* `cells_push` — storing behind the last entry in use appends;
* `cells_foldl_swap` — the loop that swaps the entries `i` and `n - 1 - i` for
  every `i` below `n / 2` reverses;
* `cells_rotate` — taking entry `(i + k) mod n` for every `i` rotates.
-/

namespace OsProjects.Arrays

variable {α : Type*}

/-- The first `n` entries. -/
def cells (arr : Nat → α) (n : Nat) : List α := (List.range n).map arr

@[simp] theorem length_cells (arr : Nat → α) (n : Nat) : (cells arr n).length = n := by
  simp [cells]

@[simp] theorem getElem?_cells (arr : Nat → α) {n k : Nat} (hk : k < n) :
    (cells arr n)[k]? = some (arr k) := by
  simp [cells, hk]

theorem cells_congr {arr arr' : Nat → α} {n : Nat} (h : ∀ k, k < n → arr k = arr' k) :
    cells arr n = cells arr' n :=
  List.map_congr_left fun k hk => h k (List.mem_range.mp hk)

/-- `arr[n++] = v` appends. -/
theorem cells_push (arr : Nat → α) (n : Nat) (v : α) :
    cells (Function.update arr n v) (n + 1) = cells arr n ++ [v] := by
  rw [cells, List.range_succ, List.map_append, List.map_singleton, Function.update_self]
  refine congrArg (· ++ [v]) (cells_congr fun k hk => ?_)
  exact Function.update_of_ne (Nat.ne_of_lt hk) _ _

/-- Entries `a` and `b` change places. -/
def swap (arr : Nat → α) (a b : Nat) : Nat → α :=
  Function.update (Function.update arr a (arr b)) b (arr a)

/-- `t` rounds of the mirroring loop: the outer `t` entries on both sides have
changed places. -/
theorem foldl_swap (arr : Nat → α) {n t : Nat} (ht : t ≤ n / 2) (k : Nat) :
    (List.range t).foldl (fun arr i => swap arr i (n - 1 - i)) arr k =
      if k < n ∧ (k < t ∨ n - t ≤ k) then arr (n - 1 - k) else arr k := by
  induction t generalizing k with
  | zero =>
    rw [List.range_zero, List.foldl_nil, if_neg]
    omega
  | succ t ih =>
    rw [List.range_succ, List.foldl_append, List.foldl_cons, List.foldl_nil, swap]
    have ih := ih (by omega)
    by_cases hright : k = n - 1 - t
    -- the entry on the right comes from `t`, where nothing has changed yet
    · rw [hright, Function.update_self, ih t, if_neg (by omega), if_pos (by omega)]
      congr 1
      omega
    · rw [Function.update_of_ne hright]
      by_cases hleft : k = t
      · rw [hleft, Function.update_self, ih, if_neg (by omega), if_pos (by omega)]
      · rw [Function.update_of_ne hleft, ih k]
        by_cases hk : k < n ∧ (k < t ∨ n - t ≤ k)
        · rw [if_pos hk, if_pos (by omega)]
        · rw [if_neg hk, if_neg (by omega)]

/-- **The mirroring loop reverses.** -/
theorem cells_foldl_swap (arr : Nat → α) (n : Nat) :
    cells ((List.range (n / 2)).foldl (fun arr i => swap arr i (n - 1 - i)) arr) n =
      (cells arr n).reverse := by
  refine List.ext_getElem? fun k => ?_
  by_cases hk : k < n
  · rw [getElem?_cells _ hk, List.getElem?_reverse (by simpa using hk), length_cells,
      getElem?_cells _ (by omega), foldl_swap arr le_rfl]
    split
    · rfl
    -- the middle entry is its own mirror image
    · congr 2
      omega
  · rw [List.getElem?_eq_none (by simpa using hk), List.getElem?_eq_none (by simpa using hk)]

/-- **Shifted copies rotate.** -/
theorem cells_rotate (arr : Nat → α) (n k : Nat) :
    cells (fun i => arr ((i + k) % n)) n = (cells arr n).rotate k := by
  refine List.ext_getElem? fun i => ?_
  by_cases hi : i < n
  · rw [getElem?_cells _ hi, List.getElem?_rotate (by simpa using hi), length_cells,
      getElem?_cells _ (Nat.mod_lt _ (by omega))]
  · rw [List.getElem?_eq_none (by simpa using hi), List.getElem?_eq_none (by simpa using hi)]

end OsProjects.Arrays
