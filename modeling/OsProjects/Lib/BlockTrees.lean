import OsProjects.Lib.BlockIO

/-!
# Block programs as trees — what holds whatever the transfers return

Two properties of a program that are read off its tree and need no device: it writes
nothing (`ReadOnly`), and each result it can return satisfies a predicate (`Yields`).
Both compose along `bind`, and both speak of every run.
-/

namespace OsProjects.Prog

variable {β α γ : Type}

/-- No transfer of the program is a write. -/
inductive ReadOnly : Prog β α → Prop
  | done (a : α) : ReadOnly (.done a)
  | read {k : Nat} {next : Option β → Prog β α} (h : ∀ r, ReadOnly (next r)) :
      ReadOnly (.read k next)

/-- Each result of the program satisfies `P`. -/
inductive Yields (P : α → Prop) : Prog β α → Prop
  | done {a : α} (h : P a) : Yields P (.done a)
  | read {k : Nat} {next : Option β → Prog β α} (h : ∀ r, Yields P (next r)) :
      Yields P (.read k next)
  | write {k : Nat} {b : β} {next : Bool → Prog β α} (h : ∀ ok, Yields P (next ok)) :
      Yields P (.write k b next)

section

variable {p : Prog β α} {f : α → Prog β γ}

theorem ReadOnly.bind (hp : p.ReadOnly) (hf : ∀ a, (f a).ReadOnly) : (p >>= f).ReadOnly := by
  induction hp with
  | done a => exact hf a
  | read _ ih => exact .read ih

/-- A program without writes leaves the device as it is. -/
theorem ReadOnly.run_snd (hp : p.ReadOnly) (d : Store β) : (run p d).2 = d := by
  induction hp with
  | done a => rfl
  | read _ ih => exact ih _

variable {P : α → Prop} {Q : γ → Prop}

theorem Yields.mono {P' : α → Prop} (hp : Yields P p) (h : ∀ a, P a → P' a) : Yields P' p := by
  induction hp with
  | done ha => exact .done (h _ ha)
  | read _ ih => exact .read ih
  | write _ ih => exact .write ih

theorem Yields.bind (hp : Yields P p) (hf : ∀ a, P a → Yields Q (f a)) : Yields Q (p >>= f) := by
  induction hp with
  | done ha => exact hf _ ha
  | read _ ih => exact .read ih
  | write _ ih => exact .write ih

/-- The result of the run in which every transfer succeeds is one of them. -/
theorem Yields.run_fst (hp : Yields P p) (d : Store β) : P (run p d).1 := by
  induction hp generalizing d with
  | done ha => exact ha
  | read _ ih => exact ih _ d
  | write _ ih => exact ih true _

/-- Every program has some result. -/
theorem yields_true (p : Prog β α) : Yields (fun _ => True) p := by
  induction p with
  | done a => exact .done trivial
  | read k next ih => exact .read ih
  | write k b next ih => exact .write ih

end

end OsProjects.Prog
