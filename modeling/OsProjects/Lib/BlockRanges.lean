import OsProjects.Lib.BlockIO

/-!
# Block programs that stay on the device

`Within ok good p d` says of the run of `p` on `d` in which every transfer succeeds
that it transfers blocks in `ok` only and writes only `good` ones. `Stays ok good Q p`
says the same of the tree: whatever good blocks the reads return, and with a result in
`Q`. The second is proved piece by piece, the first where the numbers of the blocks
come from the device.

* `Within.bind`, `Stays.bind` — sequential composition;
* `Stays.within` — from the tree to its runs;
* `Within.run_good` — a run leaves good blocks.
-/

namespace OsProjects

namespace Prog

variable {β α γ : Type} (ok : Nat → Prop) (good : β → Prop)

/-- The run on `d` transfers blocks in `ok` only and writes good ones. -/
def Within : Prog β α → Store β → Prop
  | done _, _ => True
  | read k next, d => ok k ∧ Within (next (some (d k))) d
  | write k b next, d => ok k ∧ good b ∧ Within (next true) (Function.update d k b)

/-- Whatever good blocks are read, the program transfers blocks in `ok` only, writes good
ones and returns a result in `Q`. -/
def Stays (Q : α → Prop) : Prog β α → Prop
  | done a => Q a
  | read k next => ok k ∧ ∀ b, good b → Stays Q (next (some b))
  | write k b next => ok k ∧ good b ∧ Stays Q (next true)

variable {ok good} {p : Prog β α} {f : α → Prog β γ} {d d' : Store β} {a : α}

theorem within_done : Within ok good (done a) d := trivial

/-- A run stays in the range iff its next transfer does and the rest of it. -/
theorem within_read {k : Nat} {next : Option β → Prog β α} :
    Within ok good (read k next) d ↔ ok k ∧ Within ok good (next (some (d k))) d := Iff.rfl

theorem within_write {k : Nat} {b : β} {next : Bool → Prog β α} :
    Within ok good (write k b next) d ↔
      ok k ∧ good b ∧ Within ok good (next true) (Function.update d k b) := Iff.rfl

/-- Two programs, the second from where the first one ends. -/
theorem within_bind :
    Within ok good (p >>= f) d ↔
      Within ok good p d ∧ Within ok good (f (run p d).1) (run p d).2 := by
  induction p generalizing d with
  | done a => exact ⟨fun h => ⟨trivial, h⟩, And.right⟩
  | read k next ih => exact (and_congr_right fun _ => ih _).trans and_assoc.symm
  | write k b next ih =>
    refine (and_congr_right fun _ => (and_congr_right fun _ => ih _).trans and_assoc.symm).trans ?_
    exact and_assoc.symm

/-- Two programs one after the other, the run of the first one being known. -/
theorem Within.bind (hp : Within ok good p d) (hrun : run p d = (a, d'))
    (hf : Within ok good (f a) d') : Within ok good (p >>= f) d := by
  rw [within_bind, hrun]
  exact ⟨hp, hf⟩

/-- A run leaves good blocks. -/
theorem Within.run_good (hp : Within ok good p d) (hd : ∀ k, good (d k)) :
    ∀ k, good ((run p d).2 k) := by
  induction p generalizing d with
  | done a => exact hd
  | read k next ih => exact ih _ hp.2 hd
  | write k b next ih =>
    refine ih _ hp.2.2 fun j => ?_
    by_cases hj : j = k
    · rw [hj, Function.update_self]
      exact hp.2.1
    · rw [Function.update_of_ne hj]
      exact hd j

/-! ## From trees to runs -/

section Stays

variable {Q R : α → Prop} {S : γ → Prop}

/-- `Stays` does not know what the block holds, only that it is a good one. -/
theorem stays_read {k : Nat} {next : Option β → Prog β α} :
    Stays ok good Q (read k next) ↔ ok k ∧ ∀ b, good b → Stays ok good Q (next (some b)) := Iff.rfl

theorem stays_write {k : Nat} {b : β} {next : Bool → Prog β α} :
    Stays ok good Q (write k b next) ↔ ok k ∧ good b ∧ Stays ok good Q (next true) := Iff.rfl

theorem stays_done (h : Q a) : Stays ok good Q (done a) := h

/-- A single read returns a good block. -/
theorem stays_readBlock {k : Nat} (hk : ok k) :
    Stays ok good (fun r => ∃ b, r = some b ∧ good b) (readBlock k) :=
  ⟨hk, fun b hb => ⟨b, rfl, hb⟩⟩

/-- A single write succeeds. -/
theorem stays_writeBlock {k : Nat} {b : β} (hk : ok k) (hb : good b) :
    Stays ok good (· = true) (writeBlock k b) :=
  ⟨hk, hb, rfl⟩

/-- The test is known in the branch it leads to. -/
theorem stays_ite {c : Prop} [Decidable c] {q : Prog β α} (hp : c → Stays ok good Q p)
    (hq : ¬ c → Stays ok good Q q) : Stays ok good Q (if c then p else q) := by
  split
  · next h => exact hp h
  · next h => exact hq h

/-- What the first program promises is what the second one may count on. -/
theorem Stays.bind (hp : Stays ok good Q p) (hf : ∀ a, Q a → Stays ok good S (f a)) :
    Stays ok good S (p >>= f) := by
  induction p with
  | done a => exact hf a hp
  | read k next ih => exact ⟨hp.1, fun b hb => ih _ (hp.2 b hb)⟩
  | write k b next ih => exact ⟨hp.1, hp.2.1, ih _ hp.2.2⟩

/-- A weaker promise. -/
theorem Stays.mono (hp : Stays ok good Q p) (h : ∀ a, Q a → R a) : Stays ok good R p := by
  induction p with
  | done a => exact h a hp
  | read k next ih => exact ⟨hp.1, fun b hb => ih _ (hp.2 b hb)⟩
  | write k b next ih => exact ⟨hp.1, hp.2.1, ih _ hp.2.2⟩

/-- On a device of good blocks the run keeps to the tree. -/
theorem Stays.within (hp : Stays ok good Q p) (hd : ∀ k, good (d k)) :
    Within ok good p d ∧ Q (run p d).1 := by
  induction p generalizing d with
  | done a => exact ⟨trivial, hp⟩
  | read k next ih =>
    obtain ⟨hrest, hQ⟩ := ih _ (hp.2 _ (hd k)) hd
    exact ⟨⟨hp.1, hrest⟩, hQ⟩
  | write k b next ih =>
    have hd' : ∀ j, good (Function.update d k b j) := fun j => by
      by_cases hj : j = k
      · rw [hj, Function.update_self]
        exact hp.2.1
      · rw [Function.update_of_ne hj]
        exact hd j
    obtain ⟨hrest, hQ⟩ := ih _ hp.2.2 hd'
    exact ⟨⟨hp.1, hp.2.1, hrest⟩, hQ⟩

end Stays

-- From here on both are taken apart by their rules only.
attribute [irreducible] Within Stays

end Prog

end OsProjects
