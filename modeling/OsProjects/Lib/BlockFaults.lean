import OsProjects.Lib.BlockLogic

/-!
# Block programs with failing transfers

`runWith o` is the run of a block program in which the `i`-th transfer succeeds iff
`o i`: a failed read returns no block, a failed write leaves the block as it was. The
transfers are counted through the whole run (`Faulty.count`), so that a result can say
which transfer of a program it is about. `runWith_bind` takes a run apart where the
program is, and `runWith_of_wp` carries over what the program logic proves.
-/

namespace OsProjects

namespace Prog

variable {W β α γ : Type}

/-- The result of a run, the number of the transfer it would make next, and the device. -/
structure Faulty (β α : Type) where
  result : α
  count : Nat
  disk : Store β

/-- The run in which the `i`-th transfer succeeds iff `o i`, from transfer `t` on. -/
def runWith (o : Nat → Bool) : Nat → Prog β α → Store β → Faulty β α
  | t, done a, d => ⟨a, t, d⟩
  | t, read k next, d => runWith o (t + 1) (next (if o t then some (d k) else none)) d
  | t, write k b next, d =>
    runWith o (t + 1) (next (o t)) (if o t then Function.update d k b else d)

section Runs

variable {o : Nat → Bool} {t : Nat} {d : Store β}

/-- The next transfer succeeds. -/
theorem runWith_read_ok {k : Nat} {next : Option β → Prog β α} (ht : o t = true) :
    runWith o t (read k next) d = runWith o (t + 1) (next (some (d k))) d := by
  rw [runWith, if_pos ht]

/-- The next transfer fails, which leaves the blocks alone. -/
theorem runWith_read_fail {k : Nat} {next : Option β → Prog β α} (ht : o t = false) :
    runWith o t (read k next) d = runWith o (t + 1) (next none) d := by
  rw [runWith, if_neg (by rw [ht]; decide)]

theorem runWith_write_ok {k : Nat} {b : β} {next : Bool → Prog β α} (ht : o t = true) :
    runWith o t (write k b next) d = runWith o (t + 1) (next true) (Function.update d k b) := by
  rw [runWith, ht, if_pos rfl]

theorem runWith_write_fail {k : Nat} {b : β} {next : Bool → Prog β α} (ht : o t = false) :
    runWith o t (write k b next) d = runWith o (t + 1) (next false) d := by
  rw [runWith, ht, if_neg (by decide)]

/-- The second program starts with the transfers, and on the blocks, that the first one has left. -/
theorem runWith_bind (p : Prog β α) (f : α → Prog β γ) :
    runWith o t (p >>= f) d =
      runWith o (runWith o t p d).count (f (runWith o t p d).result) (runWith o t p d).disk := by
  induction p generalizing t d with
  | done a => rfl
  | read k next ih => exact ih _
  | write k b next ih => exact ih _

/-- A run whose transfers all succeed. -/
theorem runWith_of_all {p : Prog β α} (hall : ∀ i, t ≤ i → o i = true) :
    (runWith o t p d).result = (run p d).1 ∧ (runWith o t p d).disk = (run p d).2 := by
  induction p generalizing t d with
  | done a => exact ⟨rfl, rfl⟩
  | read k next ih =>
    rw [runWith_read_ok (hall t (Nat.le_refl t))]
    exact ih _ fun i hi => hall i (by omega)
  | write k b next ih =>
    rw [runWith_write_ok (hall t (Nat.le_refl t))]
    exact ih _ fun i hi => hall i (by omega)

/-- Whatever fails, a run ends in a world of the postcondition. -/
theorem runWith_of_wp {E : Setting W β} {p : Prog β α} {Q : α → W → Prop} {w : W}
    (hfail : E.mayFail) (hp : wp E p Q w) :
    ∃ w', E.guar w w' ∧ E.disk w' = (runWith o t p (E.disk w)).disk ∧
      Q (runWith o t p (E.disk w)).result w' := by
  induction p generalizing w t with
  | done a => exact ⟨w, E.guar_refl w, rfl, wp_done.mp hp⟩
  | read k next ih =>
    -- nobody else makes a step in between
    obtain ⟨hok, hbad⟩ := wp_read.mp hp w (E.rely_refl w)
    cases ht : o t with
    | true =>
      rw [runWith_read_ok ht]
      exact ih _ hok
    | false =>
      rw [runWith_read_fail ht]
      exact ih _ (hbad hfail)
  | write k b next ih =>
    obtain ⟨⟨w'', hguar, hdisk, hok⟩, hbad⟩ := wp_write.mp hp w (E.rely_refl w) fun _ => rfl
    cases ht : o t with
    | true =>
      rw [runWith_write_ok ht]
      obtain ⟨w₁, hguar₁, hdisk₁, hQ⟩ := ih true (t := t + 1) hok
      rw [hdisk] at hdisk₁ hQ
      exact ⟨w₁, E.guar_trans hguar hguar₁, hdisk₁, hQ⟩
    | false =>
      rw [runWith_write_fail ht]
      exact ih false (hbad hfail)

end Runs

/-! ## One failing transfer -/

/-- Every transfer but the `j`-th succeeds. -/
def allBut (j : Nat) : Nat → Bool := fun i => i != j

/-- Only one transfer fails. -/
theorem allBut_ne {i j : Nat} (h : i ≠ j) : allBut j i = true := bne_iff_ne.mpr h

@[simp] theorem allBut_self (j : Nat) : allBut j j = false := bne_self_eq_false j

end Prog

end OsProjects
