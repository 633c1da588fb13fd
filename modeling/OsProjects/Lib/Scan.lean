import Mathlib.Data.List.Basic
import Mathlib.Logic.Relation
import Mathlib.Order.Basic
import Mathlib.Order.Nat

/-!
# Scan loops

A *scan loop* visits a fixed list of candidates in order and fires every
candidate that is enabled in the current state, and repeats whole passes
until a pass fires nothing:

    do { found = 0; for (i in l) if (enabled i) { fire i; found = 1; } } while (found);

`step i s` is `some s'` when candidate `i` is enabled in `s` and firing it
gives `s'`, and `none` when it is not. The state may change in the middle
of a pass, so a later candidate of the same pass already sees it.

Main results, for a `measure` that every firing decreases:

* `loop_passes` — the do-while loop ends with the state `loop` gives, after
  at most `measure + 1` passes, so the fuel in `loop` is never what stops it;
* `loop_reaches` — the final state is reached by firings only;
* `loop_quiet` — nothing is enabled in the final state.
-/

namespace OsProjects.Scan

variable {ι σ : Type*}

/-- One pass over the candidates, with the `found` flag. -/
def pass (step : ι → σ → Option σ) : List ι → σ → σ × Bool
  | [], s => (s, false)
  | i :: is, s =>
    match step i s with
    | none => pass step is s
    | some s' => ((pass step is s').1, true)

/-- Passes until one fires nothing, at most `fuel` of them. -/
def loopFuel (step : ι → σ → Option σ) (l : List ι) : Nat → σ → σ
  | 0, s => s
  | fuel + 1, s =>
    if (pass step l s).2 then loopFuel step l fuel (pass step l s).1 else (pass step l s).1

/-- The do-while loop; `measure` bounds the number of passes that fire. -/
def loop (step : ι → σ → Option σ) (l : List ι) (measure : σ → Nat) (s : σ) : σ :=
  loopFuel step l (measure s + 1) s

/-- The run of the do-while loop, without fuel: from `s` it ends in `t`
after `k` passes. -/
inductive Passes (step : ι → σ → Option σ) (l : List ι) : Nat → σ → σ → Prop where
  | last {s : σ} (h : (pass step l s).2 = false) : Passes step l 1 s (pass step l s).1
  | more {s t : σ} {k : Nat} (h : (pass step l s).2 = true)
      (hrest : Passes step l k (pass step l s).1 t) : Passes step l (k + 1) s t

/-- One candidate of the scan fires. -/
def Fires (step : ι → σ → Option σ) (s s' : σ) : Prop := ∃ i, step i s = some s'

/-- A state reached by firings only. -/
abbrev Reaches (step : ι → σ → Option σ) : σ → σ → Prop :=
  Relation.ReflTransGen (Fires step)

/-! ## One pass -/

section Pass

variable {step : ι → σ → Option σ}

theorem pass_reaches (l : List ι) (s : σ) : Reaches step s (pass step l s).1 := by
  induction l generalizing s with
  | nil => exact .refl
  | cons i is ih =>
    cases h : step i s with
    | none => simpa [pass, h] using ih s
    | some s' => simpa [pass, h] using Relation.ReflTransGen.head ⟨i, h⟩ (ih s')

/-- A pass that fires nothing leaves the state alone, and nothing was enabled. -/
theorem pass_quiet {l : List ι} {s : σ} (h : (pass step l s).2 = false) :
    (pass step l s).1 = s ∧ ∀ i ∈ l, step i s = none := by
  induction l with
  | nil => simp [pass]
  | cons i is ih =>
    cases hs : step i s with
    | none =>
      simp only [pass, hs] at h ⊢
      obtain ⟨h₁, h₂⟩ := ih h
      refine ⟨h₁, ?_⟩
      intro k hk
      -- the candidate was tried in the state the pass began with
      rcases List.mem_cons.mp hk with rfl | hk
      · exact hs
      · exact h₂ k hk
    | some s' => simp [pass, hs] at h

end Pass

/-! ## Invariants -/

section Invariant

variable {step : ι → σ → Option σ}

/-- The invariant rule: what one firing preserves, every run preserves. -/
theorem Reaches.preserves {P : σ → Prop} (hstep : ∀ i s s', step i s = some s' → P s → P s')
    {s s' : σ} (h : Reaches step s s') (hs : P s) : P s' := by
  induction h with
  | refl => exact hs
  | tail _ hf ih =>
    obtain ⟨i, hi⟩ := hf
    exact hstep i _ _ hi ih

theorem loopFuel_reaches (l : List ι) (fuel : Nat) (s : σ) :
    Reaches step s (loopFuel step l fuel s) := by
  induction fuel generalizing s with
  | zero => exact .refl
  | succ fuel ih =>
    rw [loopFuel]
    split
    · exact (pass_reaches l s).trans (ih _)
    · exact pass_reaches l s

theorem loop_reaches (step : ι → σ → Option σ) (l : List ι) (measure : σ → Nat) (s : σ) :
    Reaches step s (loop step l measure s) :=
  loopFuel_reaches l _ s

/-- Where nothing is enabled, nothing is reached. -/
theorem Reaches.eq_of_quiet {s s' : σ} (hquiet : ∀ i, step i s = none)
    (h : Reaches step s s') : s' = s := by
  refine h.preserves (P := fun t => t = s) ?_ rfl
  rintro i t t' hi rfl
  rw [hquiet i] at hi
  exact absurd hi (by simp)

end Invariant

/-! ## Termination -/

section Termination

variable {step : ι → σ → Option σ} {measure : σ → Nat}
  (hdec : ∀ i s s', step i s = some s' → measure s' < measure s)

include hdec

theorem Reaches.measure_le {s s' : σ} (h : Reaches step s s') : measure s' ≤ measure s :=
  h.preserves (P := fun t => measure t ≤ measure s)
    (fun i t t' ht hle => (hdec i t t' ht).le.trans hle) le_rfl

/-- A pass that fires something decreases the measure. -/
theorem pass_measure_lt {l : List ι} {s : σ} (h : (pass step l s).2 = true) :
    measure (pass step l s).1 < measure s := by
  induction l with
  | nil => simp [pass] at h
  | cons i is ih =>
    cases hs : step i s with
    | none =>
      simp only [pass, hs] at h ⊢
      exact ih h
    | some s' =>
      simp only [pass, hs]
      -- the rest of the pass can only decrease it further
      exact ((pass_reaches is s').measure_le hdec).trans_lt (hdec i s s' hs)

theorem loopFuel_quiet {l : List ι} {fuel : Nat} {s : σ} (hf : measure s < fuel) :
    ∀ i ∈ l, step i (loopFuel step l fuel s) = none := by
  induction fuel generalizing s with
  | zero => omega
  | succ fuel ih =>
    rw [loopFuel]
    split
    · next hp =>
      have := pass_measure_lt hdec hp
      exact ih (by omega)
    · next hp =>
      obtain ⟨h₁, h₂⟩ := pass_quiet (by simpa using hp)
      rw [h₁]
      exact h₂

variable (step measure)

/-- Nothing is enabled when the loop ends. -/
theorem loop_quiet (l : List ι) (s : σ) : ∀ i ∈ l, step i (loop step l measure s) = none :=
  loopFuel_quiet hdec (Nat.lt_succ_self _)

variable {step measure}

/-- A loop with one candidate that is ever enabled fires it once. -/
theorem loop_eq_single {l : List ι} {i : ι} (hi : i ∈ l) {s t : σ} (hfire : step i s = some t)
    (hother : ∀ k ≠ i, step k s = none) (hquiet : ∀ k, step k t = none) :
    loop step l measure s = t := by
  -- from `s` only `t` is reached, and the loop cannot stop at `s`
  have hreach : loop step l measure s = s ∨ loop step l measure s = t := by
    refine (loop_reaches step l measure s).preserves (P := fun u => u = s ∨ u = t) ?_ (.inl rfl)
    rintro k u u' hk (rfl | rfl)
    · by_cases hki : k = i
      · subst hki
        exact .inr (Option.some.inj (hk.symm.trans hfire))
      · rw [hother k hki] at hk
        exact absurd hk (by simp)
    · rw [hquiet k] at hk
      exact absurd hk (by simp)
  rcases hreach with hstay | hdone
  · have hnone := loop_quiet step measure hdec l s i hi
    rw [hstay, hfire] at hnone
    exact absurd hnone (by simp)
  · exact hdone

theorem loopFuel_passes {l : List ι} {fuel : Nat} {s : σ} (hf : measure s < fuel) :
    ∃ k ≤ measure s + 1, Passes step l k s (loopFuel step l fuel s) := by
  induction fuel generalizing s with
  | zero => omega
  | succ fuel ih =>
    rw [loopFuel]
    split
    -- another pass follows, and the measure pays for it
    · next hp =>
      have hlt := pass_measure_lt hdec hp
      obtain ⟨k, hk, hrun⟩ := ih (s := (pass step l s).1) (by omega)
      exact ⟨k + 1, by omega, .more hp hrun⟩
    · next hp => exact ⟨1, by omega, .last (by simpa using hp)⟩

/-- `loop` is the result of the do-while loop, which ends after at most
`measure + 1` passes. -/
theorem loop_passes (l : List ι) (s : σ) :
    ∃ k ≤ measure s + 1, Passes step l k s (loop step l measure s) :=
  loopFuel_passes hdec (Nat.lt_succ_self _)

end Termination

/-! ## The bodies a loop runs -/

section Visits

/-- The bodies of one pass: each candidate with the state it is tried in. -/
def passVisits (step : ι → σ → Option σ) : List ι → σ → List (ι × σ)
  | [], _ => []
  | i :: is, s => (i, s) :: passVisits step is ((step i s).getD s)

/-- The bodies of at most `fuel` passes. -/
def loopFuelVisits (step : ι → σ → Option σ) (l : List ι) : Nat → σ → List (ι × σ)
  | 0, _ => []
  | fuel + 1, s =>
    passVisits step l s ++
      if (pass step l s).2 then loopFuelVisits step l fuel (pass step l s).1 else []

/-- The bodies of the do-while loop, in the order in which they run. -/
def loopVisits (step : ι → σ → Option σ) (l : List ι) (measure : σ → Nat) (s : σ) :
    List (ι × σ) :=
  loopFuelVisits step l (measure s + 1) s

variable {step : ι → σ → Option σ}

theorem reaches_of_mem_passVisits {l : List ι} {s t : σ} {i : ι}
    (h : (i, t) ∈ passVisits step l s) : Reaches step s t := by
  induction l generalizing s with
  | nil => simp [passVisits] at h
  | cons k is ih =>
    rcases List.mem_cons.mp h with heq | hmem
    · obtain ⟨-, rfl⟩ := Prod.mk.inj heq
      exact .refl
    · cases hk : step k s with
      | none => exact ih (by simpa [hk] using hmem)
      | some s' => exact .head ⟨k, hk⟩ (ih (by simpa [hk] using hmem))

theorem reaches_of_mem_loopFuelVisits {l : List ι} {fuel : Nat} {s t : σ} {i : ι}
    (h : (i, t) ∈ loopFuelVisits step l fuel s) : Reaches step s t := by
  induction fuel generalizing s with
  | zero => simp [loopFuelVisits] at h
  | succ fuel ih =>
    rcases List.mem_append.mp h with hpass | hrest
    · exact reaches_of_mem_passVisits hpass
    · split at hrest
      · exact (pass_reaches l s).trans (ih hrest)
      · simp at hrest

/-- Every body runs in a state reached by firings. -/
theorem reaches_of_mem_loopVisits {l : List ι} {measure : σ → Nat} {s t : σ} {i : ι}
    (h : (i, t) ∈ loopVisits step l measure s) : Reaches step s t :=
  reaches_of_mem_loopFuelVisits h

end Visits

end OsProjects.Scan
