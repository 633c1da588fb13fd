import Mathlib.Logic.Relation

/-!
# Objects and their simulation

An object takes one call after the other: `step s c` is the result of the call `c` in the
state `s` together with the state behind it. One object simulates another one along a
relation of their states if related states give the same result and lead to related states.

* `Simulates.all` — any sequence of calls then has the same results, and ends in related
  states;
* `Simulates.comp` — simulations compose along the composition of the relations.
-/

namespace OsProjects.Simulation

variable {σ τ υ ι ο : Type*}

/-- The results of the calls, and the state behind the last one. -/
def runs (step : σ → ι → ο × σ) : σ → List ι → List ο × σ
  | s, [] => ([], s)
  | s, c :: cs =>
    let (result, s) := step s c
    let (results, s) := runs step s cs
    (result :: results, s)

/-- On related states `step` and `step'` do the same. -/
structure Simulates (step : σ → ι → ο × σ) (step' : τ → ι → ο × τ) (R : σ → τ → Prop) :
    Prop where
  result {s : σ} {t : τ} (h : R s t) (c : ι) : (step s c).1 = (step' t c).1
  state {s : σ} {t : τ} (h : R s t) (c : ι) : R (step s c).2 (step' t c).2

variable {step : σ → ι → ο × σ} {step' : τ → ι → ο × τ} {step'' : υ → ι → ο × υ}
  {R : σ → τ → Prop} {R' : τ → υ → Prop}

theorem Simulates.all (hsim : Simulates step step' R) (cs : List ι) :
    ∀ {s : σ} {t : τ}, R s t →
      (runs step s cs).1 = (runs step' t cs).1 ∧
        R (runs step s cs).2 (runs step' t cs).2 := by
  induction cs with
  | nil => exact fun h => ⟨rfl, h⟩
  | cons c cs ih =>
    intro s t h
    obtain ⟨hresults, hend⟩ := ih (hsim.state h c)
    refine ⟨?_, hend⟩
    simp only [runs]
    rw [hsim.result h c, hresults]

theorem Simulates.comp (h₁ : Simulates step step' R) (h₂ : Simulates step' step'' R') :
    Simulates step step'' (Relation.Comp R R') where
  result := fun ⟨_, hst, htu⟩ c => (h₁.result hst c).trans (h₂.result htu c)
  state := fun ⟨_, hst, htu⟩ c => ⟨_, h₁.state hst c, h₂.state htu c⟩

end OsProjects.Simulation
