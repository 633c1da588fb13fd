import Mathlib.Logic.Function.Basic

/-!
# Block programs — code whose only effect is to read and write whole blocks

A program over a block device is a tree: at each node it asks for one block
transfer and continues with what the transfer returned. The same tree has three
meanings here.

* `run` — every transfer succeeds.
* `runCut` — writes succeed or fail as a list says, and the machine stops when
  the list is used up, in front of the next write.
* `interleave` — two programs take turns on one device, one transfer a turn.

`run_eq_runCut` is the link between the first two, and `Clash` names the one
situation of two interleaved programs the third is sensitive to: both about to
write the same block.
-/

namespace OsProjects

/-- The blocks of a device. -/
abbrev Store (β : Type) := Nat → β

/-- A program that reads and writes blocks of type `β`. A failed read returns no
block, a failed write returns `false`. -/
inductive Prog (β α : Type) : Type
  | done (a : α)
  | read (k : Nat) (next : Option β → Prog β α)
  | write (k : Nat) (b : β) (next : Bool → Prog β α)

namespace Prog

variable {β α γ : Type}

/-- Sequential composition. -/
def bind : Prog β α → (α → Prog β γ) → Prog β γ
  | done a, f => f a
  | read k next, f => read k fun r => (next r).bind f
  | write k b next, f => write k b fun ok => (next ok).bind f

instance : Monad (Prog β) where
  pure := done
  bind := bind

@[simp] theorem pure_eq (a : α) : (pure a : Prog β α) = done a := rfl

@[simp] theorem done_bind (a : α) (f : α → Prog β γ) : (done a >>= f) = f a := rfl

@[simp] theorem read_bind (k : Nat) (next : Option β → Prog β α) (f : α → Prog β γ) :
    (read k next >>= f) = read k fun r => next r >>= f := rfl

@[simp] theorem write_bind (k : Nat) (b : β) (next : Bool → Prog β α) (f : α → Prog β γ) :
    (write k b next >>= f) = write k b fun ok => next ok >>= f := rfl

/-- Read block `k`. -/
def readBlock (k : Nat) : Prog β (Option β) := read k done

/-- Write block `k`. -/
def writeBlock (k : Nat) (b : β) : Prog β Bool := write k b done

@[simp] theorem readBlock_bind (k : Nat) (f : Option β → Prog β γ) :
    (readBlock k >>= f) = read k f := rfl

@[simp] theorem writeBlock_bind (k : Nat) (b : β) (f : Bool → Prog β γ) :
    (writeBlock k b >>= f) = write k b f := rfl

/-- Three programs one after another. -/
theorem bind_assoc {δ : Type} (p : Prog β α) (f : α → Prog β γ) (g : γ → Prog β δ) :
    (p >>= f >>= g) = p >>= fun a => f a >>= g := by
  induction p with
  | done a => rfl
  | read k next ih =>
    simp only [read_bind]
    congr 1
    funext r
    exact ih r
  | write k b next ih =>
    simp only [write_bind]
    congr 1
    funext ok
    exact ih ok

/-! ## Runs in which every transfer succeeds -/

/-- The result and the device after a run in which every transfer succeeds. -/
def run : Prog β α → Store β → α × Store β
  | done a, d => (a, d)
  | read k next, d => run (next (some (d k))) d
  | write k b next, d => run (next true) (Function.update d k b)

@[simp] theorem run_done (a : α) (d : Store β) : run (done a) d = (a, d) := rfl

@[simp] theorem run_read (k : Nat) (next : Option β → Prog β α) (d : Store β) :
    run (read k next) d = run (next (some (d k))) d := rfl

@[simp] theorem run_write (k : Nat) (b : β) (next : Bool → Prog β α) (d : Store β) :
    run (write k b next) d = run (next true) (Function.update d k b) := rfl

/-- The second program runs on the blocks the first one has left. -/
theorem run_bind (p : Prog β α) (f : α → Prog β γ) (d : Store β) :
    run (p >>= f) d = run (f (run p d).1) (run p d).2 := by
  induction p generalizing d with
  | done a => rfl
  | read k next ih => exact ih (some (d k)) d
  | write k b next ih => exact ih true (Function.update d k b)

/-! ## Runs that are cut short or meet failing writes -/

/-- How far a run got: its result if it returned, the outcomes it did not use,
and the device as it stands. -/
structure Cut (β α : Type) where
  result : Option α
  rest : List Bool
  disk : Store β

/-- The run in which the `i`-th write succeeds iff the `i`-th outcome is `true` (a
failed write leaves the block as it was), cut in front of the first write that has
no outcome. -/
def runCut : List Bool → Prog β α → Store β → Cut β α
  | os, done a, d => ⟨some a, os, d⟩
  | os, read k next, d => runCut os (next (some (d k))) d
  | [], write _ _ _, d => ⟨none, [], d⟩
  | true :: os, write k b next, d => runCut os (next true) (Function.update d k b)
  | false :: os, write _ _ next, d => runCut os (next false) d

@[simp] theorem runCut_done (os : List Bool) (a : α) (d : Store β) :
    runCut os (done a) d = ⟨some a, os, d⟩ := by
  cases os <;> rfl

@[simp] theorem runCut_read (os : List Bool) (k : Nat) (next : Option β → Prog β α)
    (d : Store β) : runCut os (read k next) d = runCut os (next (some (d k))) d := by
  rcases os with _ | ⟨_ | _, _⟩ <;> rfl

@[simp] theorem runCut_write_nil (k : Nat) (b : β) (next : Bool → Prog β α) (d : Store β) :
    runCut [] (write k b next) d = ⟨none, [], d⟩ := rfl

@[simp] theorem runCut_write_true (os : List Bool) (k : Nat) (b : β) (next : Bool → Prog β α)
    (d : Store β) :
    runCut (true :: os) (write k b next) d = runCut os (next true) (Function.update d k b) := rfl

@[simp] theorem runCut_write_false (os : List Bool) (k : Nat) (b : β) (next : Bool → Prog β α)
    (d : Store β) : runCut (false :: os) (write k b next) d = runCut os (next false) d := rfl

/-- Continue a cut run, unless it has stopped. -/
def Cut.andThen (c : Cut β α) (f : α → Prog β γ) : Cut β γ :=
  match c.result with
  | some a => runCut c.rest (f a) c.disk
  | none => ⟨none, [], c.disk⟩

/-- A crash ends both programs; without one the second goes on with the outcomes that are left. -/
theorem runCut_bind (os : List Bool) (p : Prog β α) (f : α → Prog β γ) (d : Store β) :
    runCut os (p >>= f) d = (runCut os p d).andThen f := by
  induction p generalizing os d with
  | done a =>
    rw [done_bind, runCut_done]
    rfl
  | read k next ih =>
    rw [read_bind, runCut_read, runCut_read, ih]
  | write k b next ih =>
    rw [write_bind]
    -- the three outcomes of a write: none left, failed, succeeded
    rcases os with _ | ⟨_ | _, os⟩
    · rfl
    · exact ih false os d
    · exact ih true os (Function.update d k b)

/-- With enough successful outcomes nothing is cut. -/
theorem run_eq_runCut (p : Prog β α) (d : Store β) :
    ∃ count, ∀ os, runCut (List.replicate count true ++ os) p d =
      ⟨some (run p d).1, os, (run p d).2⟩ := by
  induction p generalizing d with
  | done a => exact ⟨0, fun os => by simp⟩
  | read k next ih =>
    obtain ⟨count, hcount⟩ := ih (some (d k)) d
    exact ⟨count, fun os => by rw [runCut_read, hcount, run_read]⟩
  -- one successful outcome for every write of the run
  | write k b next ih =>
    obtain ⟨count, hcount⟩ := ih true (Function.update d k b)
    refine ⟨count + 1, ?_⟩
    intro os
    rw [List.replicate_succ, List.cons_append, runCut_write_true, hcount, run_write]

/-- A run that returns although it is cut behind some successful writes is the run in
which every transfer succeeds. -/
theorem run_of_runCut {p : Prog β α} {d : Store β} {os : List Bool} {a : α}
    (hall : ∀ o ∈ os, o = true) (h : (runCut os p d).result = some a) :
    run p d = (a, (runCut os p d).disk) := by
  induction p generalizing os d with
  | done b =>
    rw [runCut_done] at h ⊢
    exact congrArg (·, d) (Option.some.inj h)
  | read k next ih =>
    rw [runCut_read] at h ⊢
    exact ih (some (d k)) hall h
  | write k b next ih =>
    -- without an outcome for this write the run would not have returned
    rcases os with _ | ⟨o, os⟩
    · exact absurd h (by simp)
    · rw [List.forall_mem_cons] at hall
      rw [hall.1, runCut_write_true] at h ⊢
      exact ih true hall.2 h

/-- On the device `d` the program returns `a` and writes nothing, whatever would become of
its writes. -/
def Returns (p : Prog β α) (d : Store β) (a : α) : Prop := ∀ os, runCut os p d = ⟨some a, os, d⟩

section Returns

variable {p : Prog β α} {d : Store β} {a : α} {b : γ}

/-- A program without transfers returns its value under every outcome. -/
theorem returns_done : Returns (done a) d a := fun os => runCut_done os a d

theorem returns_read {k : Nat} {next : Option β → Prog β α} (h : Returns (next (some (d k))) d a) :
    Returns (read k next) d a := fun os => by rw [runCut_read, h os]

/-- What two programs return under every outcome, one after the other. -/
theorem Returns.bind {f : α → Prog β γ} (h : Returns p d a) (hf : Returns (f a) d b) :
    Returns (p >>= f) d b := fun os => by
  rw [runCut_bind, h os]
  exact hf os

/-- In particular when nothing goes wrong. -/
theorem Returns.run (h : Returns p d a) : run p d = (a, d) := by
  have hcut := h []
  rw [run_of_runCut (fun o ho => absurd ho List.not_mem_nil) (congrArg Cut.result hcut), hcut]

end Returns

/-! ## Two programs on one device -/

/-- One transfer of a program. -/
def step : Prog β α → Store β → Prog β α × Store β
  | done a, d => (done a, d)
  | read k next, d => (next (some (d k)), d)
  | write k b next, d => (next true, Function.update d k b)

/-- Two programs take turns; `true` in the schedule is a transfer of the first. -/
def interleave : List Bool → Prog β α → Prog β γ → Store β → Prog β α × Prog β γ × Store β
  | [], p, q, d => (p, q, d)
  | true :: sched, p, q, d => interleave sched (step p d).1 q (step p d).2
  | false :: sched, p, q, d => interleave sched p (step q d).1 (step q d).2

/-- The result, if the program has returned. -/
def result : Prog β α → Option α
  | done a => some a
  | _ => none

/-- A program with a result has nothing left to do. -/
theorem eq_done_of_result {p : Prog β α} {a : α} (h : p.result = some a) : p = done a := by
  cases p with
  | done b => rw [Option.some.inj h]
  | read | write => exact absurd h (by simp [result])

/-- The block the next transfer writes, if it is a write. -/
def nextWrite : Prog β α → Option Nat
  | write k _ _ => some k
  | _ => none

/-- Both programs are about to write the same shared block. -/
def Clash (shared : Nat → Prop) (p : Prog β α) (q : Prog β γ) : Prop :=
  ∃ k, shared k ∧ p.nextWrite = some k ∧ q.nextWrite = some k

/-- Along the schedule the two programs never clash. -/
def ClashFree (shared : Nat → Prop) : List Bool → Prog β α → Prog β γ → Store β → Prop
  | [], p, q, _ => ¬ Clash shared p q
  | true :: sched, p, q, d =>
    ¬ Clash shared p q ∧ ClashFree shared sched (step p d).1 q (step p d).2
  | false :: sched, p, q, d =>
    ¬ Clash shared p q ∧ ClashFree shared sched p (step q d).1 (step q d).2

section Decidable

variable (shared : Nat → Prop) [DecidablePred shared]

instance (p : Prog β α) (q : Prog β γ) : Decidable (Clash shared p q) :=
  match hp : p.nextWrite with
  | none => .isFalse fun ⟨_, _, hk, _⟩ => by simp [hp] at hk
  | some k =>
    decidable_of_iff (shared k ∧ q.nextWrite = some k)
      ⟨fun h => ⟨k, h.1, hp, h.2⟩, fun ⟨k', hs, hk, hq⟩ => by
        rw [hp, Option.some.injEq] at hk
        subst hk
        exact ⟨hs, hq⟩⟩

instance decidableClashFree : (sched : List Bool) → (p : Prog β α) → (q : Prog β γ) →
    (d : Store β) → Decidable (ClashFree shared sched p q d)
  | [], p, q, _ => inferInstanceAs (Decidable (¬ Clash shared p q))
  | true :: sched, p, q, d =>
    have := decidableClashFree sched (step p d).1 q (step p d).2
    inferInstanceAs (Decidable (¬ Clash shared p q ∧
      ClashFree shared sched (step p d).1 q (step p d).2))
  | false :: sched, p, q, d =>
    have := decidableClashFree sched p (step q d).1 (step q d).2
    inferInstanceAs (Decidable (¬ Clash shared p q ∧
      ClashFree shared sched p (step q d).1 (step q d).2))

end Decidable

end Prog

end OsProjects
