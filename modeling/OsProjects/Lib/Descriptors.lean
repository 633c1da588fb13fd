import Mathlib.Data.List.AList
import Mathlib.Data.Set.Function

/-!
# Descriptor tables

A process names its open files by numbers. `close` frees a number, a later `open` may hand
out the same number for another file, and `fork` copies the table; the program keeps the
numbers in variables and goes on using them. `Names` says what the variables `num` mean in
one table: the files in `keeps` are open under the number the program has for them, no file
outside `may` is open, and a number that was ever given out stands for its own file or for
none.

* `Names.insert`, `Names.erase` — `open` and `close`;
* `Names.mono` — the copy that `fork` makes, seen with the child's plans.
-/

namespace OsProjects

/-- The open files of a process, by number. -/
abbrev FdTable (ι : Type) := AList fun _ : Nat => ι

namespace FdTable

variable {ι ν : Type}

/-- The file is open in the process. -/
def Open (t : FdTable ι) (file : ι) : Prop := ∃ fd, t.lookup fd = some file

theorem open_iff {t : FdTable ι} {file : ι} : t.Open file ↔ ∃ e ∈ t.entries, e.2 = file := by
  constructor
  · rintro ⟨fd, h⟩
    exact ⟨⟨fd, file⟩, AList.mem_lookup_iff.mp h, rfl⟩
  · rintro ⟨⟨fd, _⟩, hmem, rfl⟩
    exact ⟨fd, AList.mem_lookup_iff.mpr hmem⟩

instance [DecidableEq ι] (t : FdTable ι) (file : ι) : Decidable (t.Open file) :=
  decidable_of_iff _ open_iff.symm

/-- Closing a number that is not open changes nothing. -/
theorem erase_of_lookup_eq_none {t : FdTable ι} {fd : Nat} (h : t.lookup fd = none) :
    t.erase fd = t :=
  AList.ext (List.kerase_of_notMem_keys (AList.lookup_eq_none.mp h))

/-- What the program's numbers `num` mean in the table `t`, for the files `obj v` that were
`created`. -/
structure Names (num : ν → Nat) (obj : ν → ι) (created keeps may : Set ν) (t : FdTable ι) :
    Prop where
  own : ∀ v ∈ created, ∀ file, t.lookup (num v) = some file → file = obj v
  only : ∀ v fd, t.lookup fd = some (obj v) → v ∈ may ∧ num v = fd
  keeps : ∀ v ∈ keeps, t.lookup (num v) = some (obj v)

variable {num : ν → Nat} {obj : ν → ι} {created keeps may : Set ν} {t : FdTable ι}

namespace Names

theorem mono (h : Names num obj created keeps may t) {created' keeps' may' : Set ν}
    (hcreated : created' ⊆ created) (hkeeps : keeps' ⊆ keeps) (hmay : may ⊆ may') :
    Names num obj created' keeps' may' t where
  own v hv := h.own v (hcreated hv)
  only v fd hfd := (h.only v fd hfd).imp_left (@hmay v)
  keeps v hv := h.keeps v (hkeeps hv)

/-- An empty table keeps nothing. -/
theorem empty (num : ν → Nat) (obj : ν → ι) (created may : Set ν) :
    Names num obj created ∅ may (∅ : FdTable ι) where
  own v _ file h := by rw [AList.lookup_empty] at h; exact absurd h (by simp)
  only v fd h := by rw [AList.lookup_empty] at h; exact absurd h (by simp)
  keeps v hv := absurd hv (Set.notMem_empty v)

theorem mem_may (h : Names num obj created keeps may t) {v : ν} (hv : t.Open (obj v)) :
    v ∈ may := by
  obtain ⟨fd, hfd⟩ := hv
  exact (h.only v fd hfd).1

theorem open_of_keeps (h : Names num obj created keeps may t) {v : ν} (hv : v ∈ keeps) :
    t.Open (obj v) :=
  ⟨num v, h.keeps v hv⟩

/-- Two files that are both open have two numbers. -/
theorem injOn (h : Names num obj created keeps may t) (hobj : Function.Injective obj) :
    Set.InjOn num keeps := by
  intro v hv w hw heq
  have hfile := h.keeps v hv
  rw [heq, h.keeps w hw] at hfile
  exact hobj (Option.some.inj hfile).symm

/-- A file that is opened gets a free number. -/
theorem insert [DecidableEq ν] (h : Names num obj created keeps may t)
    (hobj : Function.Injective obj) (hcreated : created ⊆ keeps) {v : ν} (hv : v ∉ created)
    (hmay : v ∉ may) {fd : Nat} (hfree : t.lookup fd = none) :
    Names (Function.update num v fd) obj (insert v created) (insert v (keeps \ {v}))
      (insert v may) (t.insert fd (obj v)) where
  own := by
    -- the new name, or an old one, whose number was taken
    rintro w (rfl | hw) file hfile
    · rw [Function.update_self, AList.lookup_insert] at hfile
      exact (Option.some.inj hfile).symm
    · have hne : w ≠ v := fun heq => hv (heq ▸ hw)
      rw [Function.update_of_ne hne] at hfile
      have hnum : num w ≠ fd := fun heq => by
        have hopen := h.keeps w (hcreated hw)
        rw [heq, hfree] at hopen
        exact absurd hopen (by simp)
      rw [AList.lookup_insert_ne hnum] at hfile
      exact h.own w hw file hfile
  only w k hk := by
    -- the new number, or an old one
    by_cases hfd : k = fd
    · rw [hfd, AList.lookup_insert] at hk
      obtain rfl := hobj (Option.some.inj hk)
      exact ⟨Set.mem_insert _ _, by rw [Function.update_self, hfd]⟩
    · rw [AList.lookup_insert_ne hfd] at hk
      obtain ⟨hw, hnum⟩ := h.only w k hk
      have hne : w ≠ v := fun heq => hmay (heq ▸ hw)
      exact ⟨Set.mem_insert_of_mem _ hw, by rw [Function.update_of_ne hne]; exact hnum⟩
  keeps := by
    -- the new name, or an old one, whose number was taken
    rintro w (rfl | ⟨hw, hne⟩)
    · rw [Function.update_self, AList.lookup_insert]
    · rw [Function.update_of_ne hne]
      have hopen := h.keeps w hw
      have hnum : num w ≠ fd := fun heq => by
        rw [heq, hfree] at hopen
        exact absurd hopen (by simp)
      rw [AList.lookup_insert_ne hnum]
      exact hopen

/-- A number of the program's stands for no other file than its own. -/
theorem lookup_eq (h : Names num obj created keeps may t) {v : ν} (hv : v ∈ created) :
    t.lookup (num v) = none ∨ t.lookup (num v) = some (obj v) := by
  cases hfile : t.lookup (num v) with
  | none => exact .inl rfl
  | some file => exact .inr (congrArg some (h.own v hv file hfile))

/-- A number that is closed is free, and the other files stay open. -/
theorem erase (h : Names num obj created keeps may t) (hinj : Set.InjOn num created)
    (hkeeps : keeps ⊆ created) {v : ν} (hv : v ∈ created) :
    Names num obj created (keeps \ {v}) (may \ {v}) (t.erase (num v)) where
  own w hw file hfile := by
    -- the number is free now, or another one
    by_cases hnum : num w = num v
    · rw [hnum, AList.lookup_erase] at hfile
      exact absurd hfile (by simp)
    · rw [AList.lookup_erase_ne hnum] at hfile
      exact h.own w hw file hfile
  only w k hk := by
    -- the number is free now, or another one
    by_cases hfd : k = num v
    · rw [hfd, AList.lookup_erase] at hk
      exact absurd hk (by simp)
    · rw [AList.lookup_erase_ne hfd] at hk
      obtain ⟨hw, hnum⟩ := h.only w k hk
      exact ⟨⟨hw, fun heq => hfd (by rw [← hnum, heq])⟩, hnum⟩
  keeps w hw := by
    -- two names that exist have two numbers
    have hnum : num w ≠ num v := fun heq => hw.2 (hinj (hkeeps hw.1) hv heq)
    rw [AList.lookup_erase_ne hnum]
    exact h.keeps w hw.1

end Names

end FdTable

end OsProjects
