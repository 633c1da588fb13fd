import OsProjects.Rsm.Myapp

/-!
# Resource manager — the parents of the demo programs

`main` of `myapp.c` and of `myapp_modified.c` watches the children it has forked. It polls
`rsm_detection`; when that finds a deadlock and avoidance is off it kills the children; then
it waits for them and destroys the segment. The loops differ (`Monitor`): `myapp.c` polls 14
times at most and asks for ended children only with avoidance, `myapp_modified.c` polls
until there is a reason to stop, and asks for ended children in every round.

A `Driver` is an application with its parent. A signal ends a child some time after it was
sent, so the children go on in between. `myapp_main` and `myappModified_main` are the two
programs: who is killed, what is destroyed, and whether `main` returns.
-/

namespace OsProjects.Rsm

variable {n m : Nat}

/-! ## The parents -/

/-- The loop of `main`. -/
structure Monitor where
  avoid : Bool
  /-- How often it polls, if that is limited. -/
  rounds : Option Nat
  /-- Whether it asks for ended children when `rsm_detection` has returned `ret`. -/
  looks : Nat → Bool

def Myapp.monitor (avoid : Bool) : Monitor := ⟨avoid, some 14, fun ret => avoid && ret == 0⟩

def MyappModified.monitor (avoid : Bool) : Monitor := ⟨avoid, none, fun _ => true⟩

/-- Where `main` is, behind the forks. -/
inductive Parent
  /-- Before a round of the loop; `left` of them are left, if they are counted. -/
  | polls (left : Option Nat)
  /-- Before `waitpid(pids[k], NULL, WNOHANG)`. -/
  | looks (left : Option Nat) (k : Nat) (allDone : Bool)
  /-- Before `kill(pids[k], SIGKILL)`. -/
  | kills (k : Nat)
  /-- Before `waitpid(pids[k], NULL, 0)`. -/
  | waits (k : Nat)
  | destroys
  | returned
  deriving DecidableEq

structure Driver (n m : Nat) where
  app : App n m
  /-- The child has ended. -/
  gone : Fin n → Bool
  /-- `waitpid` has told `main` so. -/
  reaped : Fin n → Bool
  signalled : Fin n → Bool
  /-- `deadlock_reported` -/
  reported : Bool
  main : Parent
  /-- A signal went to a process id that was no child's any more. -/
  astray : Bool

inductive Turn (n : Nat)
  /-- A call of the child, or its return from `sem_wait`. -/
  | child (i : Fin n)
  | exit (i : Fin n)
  /-- The child ends by `SIGKILL`. -/
  | die (i : Fin n)
  | main
  deriving DecidableEq

/-- Process `i` returns from `sem_wait`, or makes its next call. -/
def App.next (pids : Fin n → Int) (app : App n m) (i : Fin n) : Option (App n m) :=
  match app.sys.asleep (pids i), app.rest i with
  | some a, _ =>
    if 0 < app.sys.shared.processSem a then some { app with sys := app.sys.wake (pids i) a }
    else none
  | none, c :: cs => some ⟨app.sys.call (pids i) c, Function.update app.rest i cs⟩
  | none, [] => none

namespace Driver

/-- A round of the loop, up to `waitpid`. -/
def poll (mon : Monitor) (d : Driver n m) (left : Option Nat) : Driver n m :=
  let ret := rsmDetection d.app.sys.shared
  let found := decide (ret > 0) && !d.reported
  { d with
    reported := d.reported || found
    main :=
      -- with avoidance a deadlock is reported once, and the loop goes on
      if found && !mon.avoid then .kills 0
      else if mon.looks ret then .looks left 0 true
      else .polls (left.map (· - 1)) }

/-- The next thing `main` does; nothing while it waits. -/
def parent (mon : Monitor) (d : Driver n m) : Option (Driver n m) :=
  match d.main with
  | .polls left => some (if left = some 0 then { d with main := .waits 0 } else d.poll mon left)
  | .looks left k allDone =>
    some <|
      if h : k < n then
        { d with
          reaped :=
            if d.gone ⟨k, h⟩ then Function.update d.reaped ⟨k, h⟩ true else d.reaped
          main := .looks left (k + 1) (allDone && d.gone ⟨k, h⟩) }
      -- the second test stands in `myapp_modified.c`; `myapp.c` looks only with avoidance
      else if allDone || (d.reported && !mon.avoid) then { d with main := .waits 0 }
      else { d with main := .polls (left.map (· - 1)) }
  | .kills k =>
    some <|
      if h : k < n then
        { d with
          signalled := Function.update d.signalled ⟨k, h⟩ true
          astray := d.astray || d.reaped ⟨k, h⟩
          main := .kills (k + 1) }
      else { d with main := .waits 0 }
  | .waits k =>
    if h : k < n then
      -- for a child that was reaped before, `waitpid` fails at once
      if d.gone ⟨k, h⟩ then
        some { d with reaped := Function.update d.reaped ⟨k, h⟩ true, main := .waits (k + 1) }
      else none
    else some { d with main := .destroys }
  | .destroys => some { d with main := .returned }
  | .returned => none

/-- One step; `none` when it cannot take place. -/
def step (mon : Monitor) (pids : Fin n → Int) (d : Driver n m) : Turn n → Option (Driver n m)
  | .child i =>
    if d.gone i then none else (d.app.next pids i).map fun app => { d with app := app }
  | .exit i =>
    if d.gone i = false ∧ d.app.rest i = [] ∧ d.app.sys.asleep (pids i) = none then
      some { d with gone := Function.update d.gone i true }
    else none
  | .die i =>
    -- also in `sem_wait`, from which the signal does not wake it
    if d.gone i = false ∧ d.signalled i = true then
      some { d with gone := Function.update d.gone i true }
    else none
  | .main => d.parent mon

def run (mon : Monitor) (pids : Fin n → Int) (ts : List (Turn n)) (d : Driver n m) :
    Option (Driver n m) :=
  ts.foldlM (step mon pids) d

/-- Behind the forks. -/
def start (mon : Monitor) (s₀ : RsmSharedState n m) (scripts : Fin n → List (Call m)) :
    Driver n m where
  app := App.start s₀ scripts
  gone _ := false
  reaped _ := false
  signalled _ := false
  reported := false
  main := .polls mon.rounds
  astray := false

/-- Nobody can do anything. -/
def Stuck (mon : Monitor) (pids : Fin n → Int) (d : Driver n m) : Prop :=
  ∀ t, d.step mon pids t = none

/-- No child can do anything. -/
def Quiet (mon : Monitor) (pids : Fin n → Int) (d : Driver n m) : Prop :=
  ∀ t, t ≠ .main → d.step mon pids t = none

end Driver

/-- `main` is in its loop. -/
def Parent.InLoop : Parent → Prop
  | .polls _ => True
  | .looks _ _ _ => True
  | _ => False

/-- The monitor never asks for ended children. -/
def Monitor.Blind (mon : Monitor) : Prop := ∀ ret, mon.looks ret = false

/-! ## What holds in every run -/

/-- `main` watches: nobody has been signalled, and what was reported was no reason to stop. -/
structure Watches (mon : Monitor) (signalled : Fin n → Bool) (reported : Bool)
    (left : Option Nat) : Prop where
  unsignalled : ∀ i, signalled i = false
  counted : left.isSome = mon.rounds.isSome
  reported : reported = true → mon.avoid = true

/-- Why `main` has left its loop. -/
inductive Left (mon : Monitor) (gone signalled : Fin n → Bool) (reported : Bool) : Prop
  | killed (havoid : mon.avoid = false) (hreported : reported = true)
      (hall : ∀ i, signalled i = true)
  | watched (hnone : ∀ i, signalled i = false)
      (hreason : mon.rounds.isSome = true ∨ ∀ i, gone i = true)
      (hreported : reported = true → mon.avoid = true)

/-- What `main` can rely on where it is. -/
def Parent.At (mon : Monitor) (gone signalled : Fin n → Bool) (reported : Bool) : Parent → Prop
  | .polls left => Watches mon signalled reported left
  | .looks left k allDone =>
    Watches mon signalled reported left ∧ left ≠ some 0 ∧ ¬ mon.Blind ∧
      (allDone = true → ∀ i : Fin n, i.val < k → gone i = true)
  | .kills k => mon.avoid = false ∧ reported = true ∧ ∀ i, signalled i = true ↔ i.val < k
  | .waits k =>
    (∀ i : Fin n, i.val < k → gone i = true) ∧ Left mon gone signalled reported
  | .destroys => (∀ i, gone i = true) ∧ Left mon gone signalled reported
  | .returned => (∀ i, gone i = true) ∧ Left mon gone signalled reported

/-- `main` has not begun to wait. -/
def Parent.Early : Parent → Prop
  | .polls _ => True
  | .looks _ _ _ => True
  | .kills _ => True
  | _ => False

theorem update_true {f : Fin n → Bool} {i j : Fin n} :
    Function.update f i true j = true ↔ j = i ∨ f j = true := by
  by_cases hji : j = i
  · subst hji
    simp
  · simp [hji]

theorem Left.mono {mon : Monitor} {gone gone' signalled : Fin n → Bool} {reported : Bool}
    (h : Left mon gone signalled reported) (hgone : ∀ i, gone i = true → gone' i = true) :
    Left mon gone' signalled reported := by
  cases h with
  | killed havoid hreported hall => exact .killed havoid hreported hall
  | watched hnone hreason hreported =>
    exact .watched hnone (hreason.imp id fun hall i => hgone i (hall i)) hreported

theorem Parent.At.mono {mon : Monitor} {gone gone' signalled : Fin n → Bool} {reported : Bool}
    {main : Parent} (h : main.At mon gone signalled reported)
    (hgone : ∀ i, gone i = true → gone' i = true) : main.At mon gone' signalled reported := by
  cases main with
  | polls left => exact h
  | looks left k allDone =>
    obtain ⟨hwatches, hleft, hlooks, hdone⟩ := h
    exact ⟨hwatches, hleft, hlooks, fun hall i hi => hgone i (hdone hall i hi)⟩
  | kills k => exact h
  | waits k => exact ⟨fun i hi => hgone i (h.1 i hi), h.2.mono hgone⟩
  | destroys => exact ⟨fun i => hgone i (h.1 i), h.2.mono hgone⟩
  | returned => exact ⟨fun i => hgone i (h.1 i), h.2.mono hgone⟩

section Next

variable {pids : Fin n → Int} {app app' : App n m} {i j : Fin n}

theorem App.next_step (h : app.next pids i = some app') : AppStep pids app app' := by
  unfold App.next at h
  split at h
  · rename_i a _ hs
    split_ifs at h with htoken
    obtain rfl := Option.some.inj h
    exact .wake (.wake hs htoken)
  · rename_i c cs hs hrest
    obtain rfl := Option.some.inj h
    exact .call hrest (.call c hs)
  · exact absurd h (by simp)

/-- The other processes stay where they are. -/
theorem App.next_other (hinj : pids.Injective) (h : app.next pids i = some app') (hj : j ≠ i) :
    app'.rest j = app.rest j ∧ app'.sys.asleep (pids j) = app.sys.asleep (pids j) := by
  have hne : pids j ≠ pids i := fun hp => hj (hinj hp)
  unfold App.next at h
  split at h
  · split_ifs at h with htoken
    obtain rfl := Option.some.inj h
    exact ⟨rfl, Function.update_of_ne hne ..⟩
  · rename_i c cs hs hrest
    obtain rfl := Option.some.inj h
    exact ⟨Function.update_of_ne hj .., System.call_asleep_of_ne app.sys c hne⟩
  · exact absurd h (by simp)

/-- Where nobody has a next step, the application is stuck. -/
theorem App.stuck_of_next (h : ∀ i, app.next pids i = none) : app.Stuck pids := by
  refine App.stuck_of_turns (fun i hs => ?_) fun i a hs => ?_
  · have hnext := h i
    cases hrest : app.rest i with
    | nil => rfl
    | cons c cs => simp [App.next, hs, hrest] at hnext
  · have hnext := h i
    by_contra hsem
    simp [App.next, hs, Nat.pos_of_ne_zero hsem] at hnext

end Next

namespace Driver

variable {existing : Vec m} {mon : Monitor} {pids : Fin n → Int}
  {scripts : Fin n → List (Call m)} {d d' : Driver n m} {t : Turn n} {i : Fin n}

structure Inv (existing : Vec m) (mon : Monitor) (pids : Fin n → Int)
    (scripts : Fin n → List (Call m)) (d : Driver n m) : Prop where
  run : ∃ k, AppRun pids (App.start (initialState n m existing mon.avoid) scripts) k d.app
  /-- Who has ended without a signal has made all its calls. -/
  ended : ∀ i, d.gone i = true → d.signalled i = false →
    d.app.rest i = [] ∧ d.app.sys.asleep (pids i) = none
  reaped : ∀ i, d.reaped i = true → d.gone i = true
  found : d.reported = true → 0 < rsmDetection d.app.sys.shared
  unreaped : mon.Blind → d.main.Early → ∀ i, d.reaped i = false
  astray : d.astray = true → mon.avoid = false ∧ ¬ mon.Blind
  place : d.main.At mon d.gone d.signalled d.reported

/-- The application with a parent is one of the disciplined applications. -/
theorem Inv.app (h : Inv existing mon pids scripts d)
    (hscripts : ∀ i : Fin n, Disciplined mon.avoid existing i (scripts i))
    (hinj : pids.Injective) (hexist : ∀ j, 0 ≤ existing j) :
    AppInv existing mon.avoid pids scripts d.app := by
  obtain ⟨k, hrun⟩ := h.run
  exact hrun.inv hscripts hinj hexist

theorem start_inv : Inv existing mon pids scripts
    (start mon (initialState n m existing mon.avoid) scripts) where
  run := ⟨0, .refl⟩
  ended _ hgone := absurd hgone Bool.false_ne_true
  reaped _ hreaped := absurd hreaped Bool.false_ne_true
  found hreported := absurd hreported Bool.false_ne_true
  unreaped _ _ _ := rfl
  astray hastray := absurd hastray Bool.false_ne_true
  place := ⟨fun _ => rfl, rfl, fun hreported => absurd hreported Bool.false_ne_true⟩

/-- A child makes a step of the application. -/
theorem Inv.child (h : Inv existing mon pids scripts d)
    (hscripts : ∀ i : Fin n, Disciplined mon.avoid existing i (scripts i))
    (hinj : pids.Injective) (hexist : ∀ j, 0 ≤ existing j) (hlives : d.gone i = false)
    {app : App n m} (hnext : d.app.next pids i = some app) :
    Inv existing mon pids scripts { d with app := app } := by
  obtain ⟨k, hrun⟩ := h.run
  have hstep := App.next_step hnext
  refine ⟨⟨k + 1, hrun.step hstep⟩, fun j hgone hsignalled => ?_, h.reaped, fun hreported => ?_,
    h.unreaped, h.astray, h.place⟩
  · -- a child that is gone takes no step, so it is another one
    have hj : j ≠ i := by
      rintro rfl
      rw [hlives] at hgone
      exact absurd hgone Bool.false_ne_true
    obtain ⟨hrest, hasleep⟩ := App.next_other hinj hnext hj
    show app.rest j = [] ∧ app.sys.asleep (pids j) = none
    rw [hrest, hasleep]
    exact h.ended j hgone hsignalled
  · -- a detection in an earlier state is one in this state
    have hinv := h.app hscripts hinj hexist
    have hle := (AppRun.refl.step hstep).later.detection_le hexist hinv.reachable
    exact lt_of_lt_of_le (h.found hreported) hle

/-- A child ends, by itself or by the signal. -/
theorem Inv.ends (h : Inv existing mon pids scripts d)
    (hend : d.signalled i = true ∨ d.app.rest i = [] ∧ d.app.sys.asleep (pids i) = none) :
    Inv existing mon pids scripts { d with gone := Function.update d.gone i true } := by
  have hmono : ∀ j, d.gone j = true → Function.update d.gone i true j = true :=
    fun j hj => update_true.mpr (.inr hj)
  refine ⟨h.run, fun j hgone hsignalled => ?_, fun j hj => hmono j (h.reaped j hj), h.found,
    h.unreaped, h.astray, h.place.mono hmono⟩
  rcases update_true.mp hgone with rfl | hbefore
  · refine hend.resolve_left fun hsig => ?_
    have hsame := hsig.symm.trans hsignalled
    exact absurd hsame (by simp)
  · exact h.ended j hbefore hsignalled

/-- A round of the loop, up to `waitpid`. -/
theorem poll_place {left : Option Nat}
    (h : Watches mon d.signalled d.reported left) (hleft : left ≠ some 0) :
    (d.poll mon left).main.At mon (d.poll mon left).gone (d.poll mon left).signalled
      (d.poll mon left).reported := by
  simp only [poll]
  -- on whether this poll is the one that stops the children
  by_cases hkill : (decide (rsmDetection d.app.sys.shared > 0) && !d.reported && !mon.avoid) = true
  · rw [if_pos hkill]
    simp only [Bool.and_eq_true, Bool.not_eq_true'] at hkill
    refine ⟨hkill.2, by simp [hkill.1.1], fun i => ?_⟩
    simp [h.unsignalled i]
  · -- what was found now is reported only if it is no reason to stop
    rw [if_neg hkill]
    have hwatches : ∀ left', left'.isSome = left.isSome → Watches mon d.signalled
        (d.reported || (decide (rsmDetection d.app.sys.shared > 0) && !d.reported)) left' :=
      fun left' hsome => by
        refine ⟨h.unsignalled, hsome.trans h.counted, fun hreported => ?_⟩
        rcases Bool.or_eq_true_iff.mp hreported with hbefore | hnow
        · exact h.reported hbefore
        · rw [hnow] at hkill
          simpa using hkill
    split
    · rename_i hlooks
      refine ⟨hwatches left rfl, hleft, fun hblind => ?_,
        fun _ i hi => absurd hi (Nat.not_lt_zero _)⟩
      rw [hblind] at hlooks
      exact Bool.false_ne_true hlooks
    · exact hwatches _ (by simp)

/-- The loop test, and a round of the loop up to `waitpid`. -/
theorem Inv.polls (h : Inv existing mon pids scripts d) {left : Option Nat}
    (hmain : d.main = .polls left) (hparent : d.parent mon = some d') :
    Inv existing mon pids scripts d' := by
  have hplace := h.place
  unfold Driver.parent at hparent
  rw [hmain] at hparent hplace
  simp only [Option.some.injEq] at hparent
  by_cases hleft : left = some 0
  · -- the rounds are over
    rw [if_pos hleft] at hparent
    subst hparent
    refine ⟨h.run, h.ended, h.reaped, h.found, fun _ he => absurd he id, h.astray,
      fun i hi => absurd hi (Nat.not_lt_zero _), ?_⟩
    refine .watched hplace.unsignalled (.inl ?_) hplace.reported
    rw [← hplace.counted, hleft]
    rfl
  · rw [if_neg hleft] at hparent
    -- another round
    subst hparent
    refine ⟨h.run, h.ended, h.reaped, fun hreported => ?_,
      fun hblind _ => h.unreaped hblind (by rw [hmain]; trivial), h.astray, poll_place hplace hleft⟩
    -- found before, or now
    rcases Bool.or_eq_true_iff.mp hreported with hbefore | hnow
    · exact h.found hbefore
    · exact of_decide_eq_true (Bool.and_eq_true_iff.mp hnow).1

/-- `waitpid` with `WNOHANG`, and what follows the last one. -/
theorem Inv.looks (h : Inv existing mon pids scripts d) {left : Option Nat} {k : Nat}
    {allDone : Bool} (hmain : d.main = .looks left k allDone) (hparent : d.parent mon = some d') :
    Inv existing mon pids scripts d' := by
  have hplace := h.place
  unfold Driver.parent at hparent
  rw [hmain] at hparent hplace
  obtain ⟨hwatches, hleft, hlooks, hdone⟩ := hplace
  simp only [Option.some.injEq] at hparent
  by_cases hk : k < n
  · rw [dif_pos hk] at hparent
    subst hparent
    -- the next child, which may be gone by now
    refine ⟨h.run, h.ended, fun j hj => ?_, h.found, fun hblind => absurd hblind hlooks, h.astray,
      hwatches, hleft, hlooks, fun hall j hj => ?_⟩
    · -- who has been reaped
      by_cases hgone : d.gone ⟨k, hk⟩ = true
      · simp only [hgone, if_true] at hj
        rcases update_true.mp hj with rfl | hbefore
        · exact hgone
        · exact h.reaped j hbefore
      · simp only [hgone] at hj
        exact h.reaped j hj
    · -- `allDone` speaks of those looked at so far
      obtain ⟨hbefore, hgone⟩ := Bool.and_eq_true_iff.mp hall
      rcases Nat.lt_succ_iff_lt_or_eq.mp hj with hlt | heq
      · exact hdone hbefore j hlt
      · rw [show j = ⟨k, hk⟩ from Fin.ext heq]
        exact hgone
  · -- all have been looked at
    rw [dif_neg hk] at hparent
    split_ifs at hparent with hstop
    · -- there is no other reason to stop here than that all are done
      have hall : allDone = true := by
        rcases Bool.or_eq_true_iff.mp hstop with hall | hdead
        · exact hall
        · simp only [Bool.and_eq_true, Bool.not_eq_true'] at hdead
          have havoid := hwatches.reported hdead.1
          rw [hdead.2] at havoid
          exact absurd havoid Bool.false_ne_true
      subst hparent
      refine ⟨h.run, h.ended, h.reaped, h.found, fun hblind => absurd hblind hlooks, h.astray,
        fun i hi => absurd hi (Nat.not_lt_zero _), .watched hwatches.unsignalled (.inr ?_)
          hwatches.reported⟩
      exact fun i => hdone hall i (lt_of_lt_of_le i.isLt (Nat.le_of_not_lt hk))
    · -- the next round begins
      subst hparent
      refine ⟨h.run, h.ended, h.reaped, h.found, fun hblind => absurd hblind hlooks, h.astray,
        hwatches.unsignalled, ?_, hwatches.reported⟩
      rw [Option.isSome_map]
      exact hwatches.counted

/-- The next signal. -/
theorem Inv.kills (h : Inv existing mon pids scripts d) {k : Nat}
    (hmain : d.main = .kills k) (hparent : d.parent mon = some d') :
    Inv existing mon pids scripts d' := by
  have hplace := h.place
  unfold Driver.parent at hparent
  rw [hmain] at hparent hplace
  obtain ⟨havoid, hreported, hsignalled⟩ := hplace
  simp only [Option.some.injEq] at hparent
  have hearly : d.main.Early := by rw [hmain]; trivial
  by_cases hk : k < n
  · -- the next child is signalled
    rw [dif_pos hk] at hparent
    subst hparent
    refine ⟨h.run, fun j hgone hnot => ?_, h.reaped, h.found,
      fun hblind _ => h.unreaped hblind hearly, fun hastray => ⟨havoid, fun hblind => ?_⟩, havoid,
      hreported, fun j => ?_⟩
    · -- the signal was for the others before
      have hbefore : ¬ (j = ⟨k, hk⟩ ∨ d.signalled j = true) := by
        rw [← update_true]
        exact Bool.not_eq_true _ |>.mpr hnot
      exact h.ended j hgone (Bool.eq_false_of_not_eq_true (not_or.mp hbefore).2)
    · -- a pid that a reaped child has left is signalled only if `waitpid` was used in the loop
      rcases Bool.or_eq_true_iff.mp hastray with hbefore | hnow
      · exact (h.astray hbefore).2 hblind
      · rw [h.unreaped hblind hearly] at hnow
        exact Bool.false_ne_true hnow
    · -- who has been signalled
      show Function.update d.signalled ⟨k, hk⟩ true j = true ↔ j.val < k + 1
      rw [update_true, hsignalled j, Fin.ext_iff, Nat.lt_succ_iff_lt_or_eq]
      exact or_comm
  · rw [dif_neg hk] at hparent
    -- all have been signalled
    subst hparent
    refine ⟨h.run, h.ended, h.reaped, h.found,
      fun _ he => absurd he id, h.astray,
      fun i hi => absurd hi (Nat.not_lt_zero _), .killed havoid hreported fun i => ?_⟩
    exact (hsignalled i).mpr (lt_of_lt_of_le i.isLt (Nat.le_of_not_lt hk))

/-- The next child that `main` waits for. -/
theorem Inv.waits (h : Inv existing mon pids scripts d) {k : Nat}
    (hmain : d.main = .waits k) (hparent : d.parent mon = some d') :
    Inv existing mon pids scripts d' := by
  have hplace := h.place
  unfold Driver.parent at hparent
  rw [hmain] at hparent hplace
  obtain ⟨hgone, hwhy⟩ := hplace
  simp only at hparent
  split_ifs at hparent with hk hended
  · -- the next child has been waited for
    obtain rfl := Option.some.inj hparent
    refine ⟨h.run, h.ended, fun j hj => ?_, h.found,
      fun _ he => absurd he id, h.astray, fun j hj => ?_, hwhy⟩
    · -- who has been reaped
      rcases update_true.mp hj with rfl | hbefore
      · exact hended
      · exact h.reaped j hbefore
    · -- who is gone
      rcases Nat.lt_succ_iff_lt_or_eq.mp hj with hlt | heq
      · exact hgone j hlt
      · rw [show j = ⟨k, hk⟩ from Fin.ext heq]
        exact hended
  · -- all have been waited for
    obtain rfl := Option.some.inj hparent
    refine ⟨h.run, h.ended, h.reaped, h.found,
      fun _ he => absurd he id, h.astray, fun i => ?_, hwhy⟩
    exact hgone i (lt_of_lt_of_le i.isLt (Nat.le_of_not_lt hk))

/-- What `main` does next. -/
theorem Inv.parent (h : Inv existing mon pids scripts d) (hparent : d.parent mon = some d') :
    Inv existing mon pids scripts d' := by
  cases hmain : d.main with
  | polls left => exact h.polls hmain hparent
  | looks left k allDone => exact h.looks hmain hparent
  | kills k => exact h.kills hmain hparent
  | waits k => exact h.waits hmain hparent
  | destroys =>
    have hplace := h.place
    unfold Driver.parent at hparent
    rw [hmain] at hparent hplace
    obtain rfl := Option.some.inj hparent
    exact ⟨h.run, h.ended, h.reaped, h.found,
      fun _ he => absurd he id, h.astray, hplace⟩
  | returned =>
    unfold Driver.parent at hparent
    rw [hmain] at hparent
    exact absurd hparent (by simp)

theorem Inv.step (h : Inv existing mon pids scripts d)
    (hscripts : ∀ i : Fin n, Disciplined mon.avoid existing i (scripts i))
    (hinj : pids.Injective) (hexist : ∀ j, 0 ≤ existing j)
    (hstep : d.step mon pids t = some d') : Inv existing mon pids scripts d' := by
  cases t with
  | child i =>
    simp only [Driver.step] at hstep
    split_ifs at hstep with hgone
    obtain ⟨app, hnext, rfl⟩ := Option.map_eq_some_iff.mp hstep
    exact h.child hscripts hinj hexist (Bool.eq_false_of_not_eq_true hgone) hnext
  | exit i =>
    simp only [Driver.step] at hstep
    split_ifs at hstep with hend
    obtain rfl := Option.some.inj hstep
    exact h.ends (.inr hend.2)
  | die i =>
    simp only [Driver.step] at hstep
    split_ifs at hstep with hend
    obtain rfl := Option.some.inj hstep
    exact h.ends (.inl hend.2)
  -- the children take no part in it
  | main => exact h.parent hstep

theorem Inv.runs (h : Inv existing mon pids scripts d)
    (hscripts : ∀ i : Fin n, Disciplined mon.avoid existing i (scripts i))
    (hinj : pids.Injective) (hexist : ∀ j, 0 ≤ existing j) {ts : List (Turn n)}
    (hrun : d.run mon pids ts = some d') : Inv existing mon pids scripts d' := by
  induction ts generalizing d with
  | nil =>
    obtain rfl := Option.some.inj hrun
    exact h
  | cons t ts ih =>
    obtain ⟨d₁, hstep, hrest⟩ := Option.bind_eq_some_iff.mp hrun
    exact ih (h.step hscripts hinj hexist hstep) hrest

/-! ## How long a run is -/

/-- A bound on the steps of the children. -/
def weight (pids : Fin n → Int) (d : Driver n m) : Nat :=
  d.app.weight pids + ∑ i, if d.gone i = true then 0 else 1

/-- A bound on the steps of `main`, for a loop that counts its rounds and behind any loop. -/
def parentWeight (n : Nat) : Parent → Nat
  | .polls left => left.getD 0 * (n + 2) + (2 * n + 4)
  | .looks left k _ => (left.getD 0 - 1) * (n + 2) + (n - k) + 1 + (2 * n + 4)
  | .kills k => n - k + n + 3
  | .waits k => n - k + 2
  | .destroys => 1
  | .returned => 0

/-- The steps of `main` are bounded from here on. -/
def Counted (mon : Monitor) (d : Driver n m) : Prop :=
  mon.rounds.isSome = true ∨ ¬ d.main.InLoop

/-- `main` has no part in what the children do. -/
theorem parent_same (h : d.parent mon = some d') : d'.app = d.app ∧ d'.gone = d.gone := by
  unfold Driver.parent at h
  split at h
  · obtain rfl := Option.some.inj h
    -- a poll, which may be the last one
    split <;> exact ⟨rfl, rfl⟩
  · obtain rfl := Option.some.inj h
    split
    · exact ⟨rfl, rfl⟩
    · split <;> exact ⟨rfl, rfl⟩
  · obtain rfl := Option.some.inj h
    split <;> exact ⟨rfl, rfl⟩
  · split_ifs at h
    · obtain rfl := Option.some.inj h
      exact ⟨rfl, rfl⟩
    · obtain rfl := Option.some.inj h
      exact ⟨rfl, rfl⟩
  · obtain rfl := Option.some.inj h
    exact ⟨rfl, rfl⟩
  · exact absurd h (by simp)

/-- A child makes one of its steps. -/
theorem weight_lt (hinj : pids.Injective) (ht : t ≠ .main) (hstep : d.step mon pids t = some d') :
    d'.weight pids < d.weight pids ∧ d'.main = d.main := by
  -- a child that is gone is one fewer
  have hends (i : Fin n) (hlives : d.gone i = false) :
      ∑ j, (if Function.update d.gone i true j = true then 0 else 1) <
        ∑ j, if d.gone j = true then 0 else 1 := by
    refine Finset.sum_lt_sum (fun j _ => ?_) ⟨i, Finset.mem_univ i, by simp [hlives]⟩
    by_cases hji : j = i
    · subst hji
      simp
    · rw [Function.update_of_ne hji]
  cases t with
  | child i =>
    simp only [Driver.step] at hstep
    split_ifs at hstep with hgone
    obtain ⟨app, hnext, rfl⟩ := Option.map_eq_some_iff.mp hstep
    exact ⟨Nat.add_lt_add_right ((App.next_step hnext).weight_lt hinj) _, rfl⟩
  | exit i =>
    simp only [Driver.step] at hstep
    split_ifs at hstep with hend
    obtain rfl := Option.some.inj hstep
    exact ⟨Nat.add_lt_add_left (hends i hend.1) _, rfl⟩
  -- an end by a signal counts as much
  | die i =>
    simp only [Driver.step] at hstep
    split_ifs at hstep with hend
    obtain rfl := Option.some.inj hstep
    exact ⟨Nat.add_lt_add_left (hends i hend.1) _, rfl⟩
  | main => exact absurd rfl ht

/-- A round of a loop that counts. -/
theorem poll_weight {l : Nat} (hl : l ≠ 0) :
    parentWeight n (d.poll mon (some l)).main < parentWeight n (.polls (some l)) := by
  -- a round is worth its poll, a look at every child and the wait
  obtain ⟨l, rfl⟩ := Nat.exists_eq_succ_of_ne_zero hl
  have hround : (l + 1) * (n + 2) = l * (n + 2) + (n + 2) := Nat.succ_mul ..
  simp only [poll]
  split
  · simp only [parentWeight, Option.getD_some, Nat.succ_eq_add_one, hround]
    omega
  split
  · simp only [parentWeight, Option.getD_some, Nat.succ_eq_add_one, hround, Nat.add_sub_cancel]
    omega
  · simp only [parentWeight, Option.getD_some, Option.map_some, Nat.succ_eq_add_one, hround,
      Nat.add_sub_cancel]
    omega

/-- `main` makes one of its steps, where they are bounded. -/
theorem parent_weight (h : d.main.At mon d.gone d.signalled d.reported) (hcounted : d.Counted mon)
    (hparent : d.parent mon = some d') :
    parentWeight n d'.main < parentWeight n d.main ∧ d'.Counted mon := by
  -- in the loop it is the rounds that are counted
  have hsome {left : Option Nat} (hloop : d.main.InLoop)
      (hleft : left.isSome = mon.rounds.isSome) : ∃ l, left = some l := by
    refine Option.isSome_iff_exists.mp (hleft.trans ?_)
    exact hcounted.resolve_right (not_not.mpr hloop)
  unfold Driver.parent at hparent
  cases hmain : d.main with
  | polls left =>
    rw [hmain] at hparent h
    have hloop : d.main.InLoop := by rw [hmain]; trivial
    obtain ⟨l, rfl⟩ := hsome hloop h.counted
    simp only [Option.some.injEq] at hparent
    split_ifs at hparent with hl
    · subst hparent hl
      refine ⟨?_, .inr id⟩
      simp only [parentWeight, Option.getD_some]
      omega
    · subst hparent
      exact ⟨poll_weight hl, .inl (hcounted.resolve_right (not_not.mpr hloop))⟩
  | looks left k allDone =>
    rw [hmain] at hparent h
    have hloop : d.main.InLoop := by rw [hmain]; trivial
    have hrounds := hcounted.resolve_right (not_not.mpr hloop)
    obtain ⟨l, rfl⟩ := hsome hloop h.1.counted
    simp only [Option.some.injEq] at hparent
    by_cases hk : k < n
    · rw [dif_pos hk] at hparent
      subst hparent
      refine ⟨?_, .inl hrounds⟩
      simp only [parentWeight, Option.getD_some]
      omega
    · rw [dif_neg hk] at hparent
      split_ifs at hparent with hstop
      · subst hparent
        refine ⟨?_, .inr id⟩
        simp only [parentWeight, Option.getD_some]
        omega
      · subst hparent
        refine ⟨?_, .inl hrounds⟩
        simp only [parentWeight, Option.getD_some, Option.map_some]
        omega
  | kills k =>
    rw [hmain] at hparent
    simp only [Option.some.injEq] at hparent
    split_ifs at hparent with hk
    · subst hparent
      exact ⟨by simp only [parentWeight]; omega, .inr id⟩
    · subst hparent
      exact ⟨by simp only [parentWeight]; omega, .inr id⟩
  | waits k =>
    rw [hmain] at hparent
    simp only at hparent
    split_ifs at hparent with hk hgone
    · obtain rfl := Option.some.inj hparent
      exact ⟨by simp only [parentWeight]; omega, .inr id⟩
    · obtain rfl := Option.some.inj hparent
      exact ⟨by simp only [parentWeight]; omega, .inr id⟩
  | destroys =>
    rw [hmain] at hparent
    obtain rfl := Option.some.inj hparent
    exact ⟨Nat.zero_lt_one, .inr id⟩
  | returned =>
    rw [hmain] at hparent
    exact absurd hparent (by simp)

/-- Runs of the children are bounded, and where those of `main` are, all runs are. -/
theorem Inv.length_le (h : Inv existing mon pids scripts d)
    (hscripts : ∀ i : Fin n, Disciplined mon.avoid existing i (scripts i))
    (hinj : pids.Injective) (hexist : ∀ j, 0 ≤ existing j) {ts : List (Turn n)}
    (hrun : d.run mon pids ts = some d') :
    ts.countP (· ≠ .main) + d'.weight pids ≤ d.weight pids ∧
    (d.Counted mon → ts.length ≤ d.weight pids + parentWeight n d.main) := by
  -- `main` leaves the weight of the children alone, and they leave `main` where it is
  induction ts generalizing d with
  | nil =>
    obtain rfl := Option.some.inj hrun
    simp
  | cons t ts ih =>
    obtain ⟨d₁, hstep, hrest⟩ := Option.bind_eq_some_iff.mp hrun
    obtain ⟨hchildren, hall⟩ := ih (h.step hscripts hinj hexist hstep) hrest
    by_cases ht : t = .main
    · subst ht
      obtain ⟨happ, hgone⟩ := parent_same hstep
      have hsame : d₁.weight pids = d.weight pids := by rw [weight, weight, happ, hgone]
      refine ⟨by simpa [hsame] using hchildren, fun hcounted => ?_⟩
      obtain ⟨hlt, hcounted'⟩ := parent_weight h.place hcounted hstep
      have hlength := hall hcounted'
      rw [List.length_cons]
      omega
    · obtain ⟨hlt, hmain⟩ := weight_lt hinj ht hstep
      refine ⟨?_, fun hcounted => ?_⟩
      · rw [List.countP_cons_of_pos (by simpa using ht)]
        omega
      · have hlength := hall (by rw [Counted, hmain]; exact hcounted)
        rw [hmain] at hlength
        rw [List.length_cons]
        omega

/-! ## How a run ends -/

/-- Where no child can do anything and nobody was signalled, the application is stuck. -/
theorem Inv.app_stuck (h : Inv existing mon pids scripts d) (hquiet : d.Quiet mon pids)
    (hnone : ∀ i, d.signalled i = false) : d.app.Stuck pids := by
  refine App.stuck_of_next fun i => ?_
  by_cases hgone : d.gone i = true
  · obtain ⟨hrest, hasleep⟩ := h.ended i hgone (hnone i)
    simp [App.next, hrest, hasleep]
  · have hstep := hquiet (.child i) (by simp)
    simp only [Driver.step, if_neg hgone] at hstep
    exact Option.map_eq_none_iff.mp hstep

theorem Quiet.gone_of_complete (hquiet : d.Quiet mon pids) {s₀ : RsmSharedState n m}
    (hcomplete : d.app.Complete s₀) (i : Fin n) : d.gone i = true := by
  by_contra hlives
  have hstep := hquiet (.exit i) (by simp)
  rw [Driver.step, if_pos ⟨Bool.eq_false_of_not_eq_true hlives, hcomplete.done i,
    hcomplete.awake (pids i)⟩] at hstep
  exact absurd hstep (by simp)

/-- What the children look like when they are quiet and nobody was signalled. -/
theorem Inv.quiet_cases (h : Inv existing mon pids scripts d)
    (hscripts : ∀ i : Fin n, Disciplined mon.avoid existing i (scripts i))
    (hinj : pids.Injective) (hexist : ∀ j, 0 ≤ existing j) (hquiet : d.Quiet mon pids)
    (hnone : ∀ i, d.signalled i = false) :
    (d.app.Complete (initialState n m existing mon.avoid) ∧ ∀ i, d.gone i = true) ∨
      mon.avoid = false ∧ d.app.Deadlock := by
  have hinv := h.app hscripts hinj hexist
  -- nobody can take a step
  have hstuck := h.app_stuck hquiet hnone
  have hcomplete (hdone : d.app.Done) : d.app.Complete (initialState n m existing mon.avoid) ∧
      ∀ i, d.gone i = true :=
    ⟨hinv.complete hexist hdone, hquiet.gone_of_complete (hinv.complete hexist hdone)⟩
  cases havoid : mon.avoid with
  | true =>
    rw [havoid] at hinv hcomplete
    exact .inl (hcomplete (hinv.done hexist hinj hstuck))
  -- in detection mode the children are done, or in a deadlock
  | false =>
    rw [havoid] at hinv hcomplete
    by_cases hdone : d.app.Done
    · exact .inl (hcomplete hdone)
    · exact .inr ⟨rfl, hinv.deadlock hexist hinj hstuck hdone⟩

/-- `main` waits for a child that waits for ever, because the loop was over too early. -/
structure Hangs (mon : Monitor) (pids : Fin n → Int) (d : Driver n m) : Prop where
  avoid : mon.avoid = false
  rounds : mon.rounds.isSome = true
  unsignalled : ∀ i, d.signalled i = false
  reported : d.reported = false
  stuck : d.app.Stuck pids
  deadlock : d.app.Deadlock
  waits : ∃ i : Fin n, d.main = .waits i ∧ d.gone i = false ∧ ∀ j < i, d.gone j = true

/-- When nobody can do anything, `main` has returned or hangs. -/
theorem Inv.stuck (h : Inv existing mon pids scripts d)
    (hscripts : ∀ i : Fin n, Disciplined mon.avoid existing i (scripts i))
    (hinj : pids.Injective) (hexist : ∀ j, 0 ≤ existing j) (hstuck : d.Stuck mon pids) :
    d.main = .returned ∨ d.Hangs mon pids := by
  have hparent : d.parent mon = none := hstuck .main
  have hplace := h.place
  unfold Driver.parent at hparent
  cases hmain : d.main with
  | polls left =>
    rw [hmain] at hparent
    exact absurd hparent (by simp)
  | looks left k allDone =>
    rw [hmain] at hparent
    exact absurd hparent (by simp)
  | kills k =>
    rw [hmain] at hparent
    exact absurd hparent (by simp)
  | waits k =>
    rw [hmain] at hparent hplace
    obtain ⟨hbefore, hwhy⟩ := hplace
    simp only at hparent
    split_ifs at hparent with hk hgone
    have hlives : d.gone ⟨k, hk⟩ = false := Bool.eq_false_of_not_eq_true hgone
    cases hwhy with
    | killed havoid hreported hall =>
      -- the signal would end the child
      have hdie := hstuck (.die ⟨k, hk⟩)
      rw [Driver.step, if_pos ⟨hlives, hall _⟩] at hdie
      exact absurd hdie (by simp)
    | watched hnone hreason hreported =>
      have hquiet : d.Quiet mon pids := fun t _ => hstuck t
      rcases h.quiet_cases hscripts hinj hexist hquiet hnone with ⟨-, hall⟩ | ⟨havoid, hdead⟩
      · exact absurd (hall _) hgone
      · refine .inr ⟨havoid, hreason.resolve_right fun hall => hgone (hall _), hnone, ?_,
          h.app_stuck hquiet hnone, hdead, ⟨k, hk⟩, hmain, hlives, fun j hj => hbefore j hj⟩
        by_contra hrep
        have hon := hreported (by simpa using hrep)
        rw [havoid] at hon
        exact absurd hon Bool.false_ne_true
  | destroys =>
    rw [hmain] at hparent
    exact absurd hparent (by simp)
  | returned => exact .inl rfl

/-- Who is signalled, is signalled for a deadlock. -/
theorem Inv.signalled (h : Inv existing mon pids scripts d) (hi : d.signalled i = true) :
    mon.avoid = false ∧ 0 < rsmDetection d.app.sys.shared := by
  -- behind the loop: killed, or nobody was signalled
  have hleft (hwhy : Left mon d.gone d.signalled d.reported) :
      mon.avoid = false ∧ d.reported = true := by
    cases hwhy with
    | killed havoid hreported => exact ⟨havoid, hreported⟩
    | watched hnone =>
      rw [hnone i] at hi
      exact absurd hi Bool.false_ne_true
  have hplace := h.place
  -- in the loop nobody has been signalled
  have hnone {left : Option Nat} (hwatches : Watches mon d.signalled d.reported left) :
      mon.avoid = false ∧ d.reported = true := by
    rw [hwatches.unsignalled i] at hi
    exact absurd hi Bool.false_ne_true
  -- on where `main` is
  have hboth : mon.avoid = false ∧ d.reported = true := by
    cases hmain : d.main with
    | polls left =>
      rw [hmain] at hplace
      exact hnone hplace
    | looks left k allDone =>
      rw [hmain] at hplace
      exact hnone hplace.1
    | kills k =>
      rw [hmain] at hplace
      exact ⟨hplace.1, hplace.2.1⟩
    | waits k =>
      rw [hmain] at hplace
      exact hleft hplace.2
    | destroys =>
      rw [hmain] at hplace
      exact hleft hplace.2
    | returned =>
      rw [hmain] at hplace
      exact hleft hplace.2
  exact ⟨hboth.1, h.found hboth.2⟩

/-- When `main` destroys the segment all children have ended, by signals that went to all of them
or because they were complete. -/
theorem Inv.result (h : Inv existing mon pids scripts d)
    (hscripts : ∀ i : Fin n, Disciplined mon.avoid existing i (scripts i))
    (hinj : pids.Injective) (hexist : ∀ j, 0 ≤ existing j)
    (hend : d.main = .destroys ∨ d.main = .returned) :
    (∀ i, d.gone i = true) ∧ ((∀ i, d.signalled i = true) ∨
      (∀ i, d.signalled i = false) ∧ d.app.Complete (initialState n m existing mon.avoid)) := by
  have hplace : (∀ i, d.gone i = true) ∧ Left mon d.gone d.signalled d.reported := by
    -- the destruction changes nothing of this
    have hplace := h.place
    rcases hend with hmain | hmain
    · rw [hmain] at hplace
      exact hplace
    · rw [hmain] at hplace
      exact hplace
  refine ⟨hplace.1, ?_⟩
  cases hplace.2 with
  | killed _ _ hall => exact .inl hall
  | watched hnone =>
    have hdone : d.app.Done := fun i => (h.ended i (hplace.1 i) (hnone i)).1
    exact .inr ⟨hnone, (h.app hscripts hinj hexist).complete hexist hdone⟩

/-! ## The way out of the loop -/

/-- Only `main` has moved. -/
structure Same (d d' : Driver n m) : Prop where
  app : d'.app = d.app
  gone : d'.gone = d.gone
  signalled : d'.signalled = d.signalled

theorem Same.trans {d'' : Driver n m} (h : Same d d') (h' : Same d' d'') : Same d d'' :=
  ⟨h'.app.trans h.app, h'.gone.trans h.gone, h'.signalled.trans h.signalled⟩

theorem Quiet.same (hquiet : d.Quiet mon pids) (h : Same d d') : d'.Quiet mon pids := by
  intro t ht
  have hstep := hquiet t ht
  cases t with
  | child i =>
    simp only [Driver.step] at hstep ⊢
    rw [h.app, h.gone]
    split_ifs at hstep ⊢ with hgone
    · rfl
    · exact Option.map_eq_none_iff.mpr (Option.map_eq_none_iff.mp hstep)
  -- an end was impossible before, and still is
  | exit i =>
    simp only [Driver.step] at hstep ⊢
    rw [h.app, h.gone]
    split_ifs at hstep ⊢
    rfl
  | die i =>
    simp only [Driver.step] at hstep ⊢
    rw [h.gone, h.signalled]
    split_ifs at hstep ⊢
    rfl
  | main => exact absurd rfl ht

theorem run_succ {d₁ : Driver n m} {j : Nat} (h : d.parent mon = some d₁)
    (hrun : d₁.run mon pids (List.replicate j .main) = some d') :
    d.run mon pids (List.replicate (j + 1) .main) = some d' := by
  rw [List.replicate_succ]
  exact Option.bind_eq_some_iff.mpr ⟨d₁, h, hrun⟩

theorem run_add {d₁ : Driver n m} {j k : Nat}
    (h : d.run mon pids (List.replicate j .main) = some d₁)
    (hrun : d₁.run mon pids (List.replicate k .main) = some d') :
    d.run mon pids (List.replicate (j + k) .main) = some d' := by
  rw [← List.replicate_append_replicate, Driver.run, List.foldlM_append]
  exact Option.bind_eq_some_iff.mpr ⟨d₁, h, hrun⟩

/-- The rest of the calls of `waitpid` in a round. -/
theorem looks_end (mon : Monitor) (pids : Fin n → Int) {left : Option Nat} (r : Nat) :
    ∀ {k : Nat} {allDone : Bool} {d : Driver n m}, n - k = r → d.main = .looks left k allDone →
    ∃ d', d.run mon pids (List.replicate (r + 1) .main) = some d' ∧ Same d d' ∧
      (d'.main = .waits 0 ∨ d'.main = .polls (left.map (· - 1))) ∧
      (allDone = true → (∀ i, d.gone i = true) → d'.main = .waits 0) := by
  -- on the children that are left to ask
  induction r with
  | zero =>
    intro k allDone d hr hmain
    have hk : ¬ k < n := by omega
    refine ⟨_, run_succ (by rw [Driver.parent, hmain]) rfl, ?_⟩
    rw [dif_neg hk]
    split
    · exact ⟨⟨rfl, rfl, rfl⟩, .inl rfl, fun _ _ => rfl⟩
    · rename_i hstop
      refine ⟨⟨rfl, rfl, rfl⟩, .inr rfl, fun hall _ => absurd ?_ hstop⟩
      rw [hall]
      rfl
  | succ r ih =>
    intro k allDone d hr hmain
    have hk : k < n := by omega
    obtain ⟨d₁, hparent, hsame₁, hmain₁⟩ : ∃ d₁, d.parent mon = some d₁ ∧ Same d d₁ ∧
        d₁.main = .looks left (k + 1) (allDone && d.gone ⟨k, hk⟩) := by
      rw [Driver.parent, hmain]
      simp only [dif_pos hk]
      exact ⟨_, rfl, ⟨rfl, rfl, rfl⟩, rfl⟩
    obtain ⟨d', hrun, hsame, hwhere, hall⟩ := ih (by omega) hmain₁
    refine ⟨d', run_succ hparent hrun, hsame₁.trans hsame, hwhere, fun hdone hgone => ?_⟩
    refine hall ?_ (by rw [hsame₁.gone]; exact hgone)
    rw [hdone, hgone]
    rfl

/-- A round that begins when the children are quiet is the last one. -/
theorem Inv.polls_end (h : Inv existing mon pids scripts d)
    (hscripts : ∀ i : Fin n, Disciplined mon.avoid existing i (scripts i))
    (hinj : pids.Injective) (hexist : ∀ j, 0 ≤ existing j) (hlooks : ∀ ret, mon.looks ret = true)
    (hquiet : d.Quiet mon pids) {left : Option Nat} (hmain : d.main = .polls left) :
    ∃ j ≤ n + 2, ∃ d', d.run mon pids (List.replicate j .main) = some d' ∧ ¬ d'.main.InLoop := by
  have hwatches : Watches mon d.signalled d.reported left := by
    have hplace := h.place
    rw [hmain] at hplace
    exact hplace
  -- on whether rounds are left
  by_cases hleft : left = some 0
  · refine ⟨1, by omega, _, run_succ (by rw [Driver.parent, hmain]) rfl, ?_⟩
    rw [if_pos hleft]
    exact id
  have hparent : d.parent mon = some (d.poll mon left) := by
    rw [Driver.parent, hmain]
    simp only [if_neg hleft]
  rcases h.quiet_cases hscripts hinj hexist hquiet hwatches.unsignalled with
    ⟨hcomplete, hall⟩ | ⟨havoid, hdead⟩
  · -- nothing is found, and all children are done
    have hzero := hcomplete.detection
    have hnext : (d.poll mon left).main = .looks left 0 true := by
      simp [poll, hzero, hlooks]
    obtain ⟨d', hrun, -, -, hwaits⟩ := looks_end mon pids n (Nat.sub_zero n) hnext
    refine ⟨n + 1 + 1, by omega, d', run_succ hparent hrun, ?_⟩
    rw [hwaits rfl hall]
    exact id
  · -- the deadlock is found, and it is the first one
    have hpos : 0 < rsmDetection d.app.sys.shared := by
      rw [hdead.detection]
      exact lt_of_lt_of_le Nat.two_pos hdead.two_le
    have hfirst : d.reported = false := by
      by_contra hrep
      have hon := hwatches.reported (by simpa using hrep)
      rw [havoid] at hon
      exact absurd hon Bool.false_ne_true
    refine ⟨1, by omega, d.poll mon left, run_succ hparent rfl, ?_⟩
    have hkills : (d.poll mon left).main = .kills 0 := by
      simp [poll, hpos, hfirst, havoid]
    rw [hkills]
    exact id

/-- A loop that always asks for ended children is left as soon as the children are quiet. -/
theorem Inv.leaves_loop (h : Inv existing mon pids scripts d)
    (hscripts : ∀ i : Fin n, Disciplined mon.avoid existing i (scripts i))
    (hinj : pids.Injective) (hexist : ∀ j, 0 ≤ existing j) (hlooks : ∀ ret, mon.looks ret = true)
    (hquiet : d.Quiet mon pids) :
    ∃ j ≤ 2 * n + 3, ∃ d', d.run mon pids (List.replicate j .main) = some d' ∧
      ¬ d'.main.InLoop := by
  cases hmain : d.main with
  | polls left =>
    obtain ⟨j, hj, hend⟩ := h.polls_end hscripts hinj hexist hlooks hquiet hmain
    exact ⟨j, by omega, hend⟩
  -- a round under way ends, and then there is at most one more poll
  | looks left k allDone =>
    obtain ⟨d₁, hrun, hsame, hwhere, -⟩ :=
      looks_end mon pids (n - k) rfl hmain
    rcases hwhere with hwaits | hpolls
    · refine ⟨n - k + 1, by omega, d₁, hrun, ?_⟩
      rw [hwaits]
      exact id
    · -- the round had begun before the children were quiet
      have h₁ := h.runs hscripts hinj hexist hrun
      obtain ⟨j, hj, d', hrest, hout⟩ :=
        h₁.polls_end hscripts hinj hexist hlooks (hquiet.same hsame) hpolls
      exact ⟨n - k + 1 + j, by omega, d', run_add hrun hrest, hout⟩
  | kills k => exact ⟨0, Nat.zero_le _, d, rfl, by rw [hmain]; exact id⟩
  | waits k => exact ⟨0, Nat.zero_le _, d, rfl, by rw [hmain]; exact id⟩
  | destroys => exact ⟨0, Nat.zero_le _, d, rfl, by rw [hmain]; exact id⟩
  | returned => exact ⟨0, Nat.zero_le _, d, rfl, by rw [hmain]; exact id⟩

end Driver

/-! ## The two programs -/

theorem rsmInit_avoid {pCount rCount avoid : Int} {exist : Vec rCount.toNat}
    {s₀ : RsmSharedState pCount.toNat rCount.toNat}
    (hinit : rsmInit pCount rCount exist avoid = some s₀) : avoid = 0 ∨ avoid = 1 := by
  unfold rsmInit at hinit
  split_ifs at hinit with _ _ _ havoid
  tauto

theorem start_weight (mon : Monitor) (pids : Fin n → Int) (s₀ : RsmSharedState n m)
    (scripts : Fin n → List (Call m)) :
    (Driver.start mon s₀ scripts).weight pids = 2 * ∑ i, (scripts i).length + n := by
  have happ : (Driver.start mon s₀ scripts).app = App.start s₀ scripts := rfl
  rw [Driver.weight, happ, weight_start]
  simp [Driver.start]

theorem Myapp.sum_length_le : ∀ avoid, ∑ i, (children avoid i).length ≤ 20 := by decide

theorem Myapp.blind : (monitor false).Blind := fun _ => rfl

/-- Whether anybody can go on, asked of everybody. -/
def Driver.anyTurn (mon : Monitor) (pids : Fin n → Int) (d : Driver n m) : Bool :=
  ((List.finRange n).any fun i => (d.step mon pids (.child i)).isSome ||
    (d.step mon pids (.exit i)).isSome || (d.step mon pids (.die i)).isSome) ||
    (d.step mon pids .main).isSome

theorem Driver.stuck_of_anyTurn {mon : Monitor} {pids : Fin n → Int} {d : Driver n m}
    (h : d.anyTurn mon pids = false) : d.Stuck mon pids := by
  simp only [anyTurn, Bool.or_eq_false_iff, List.any_eq_false, Bool.not_eq_true, Bool.or_eq_true,
    not_or, Option.isSome_eq_false_iff, Option.isNone_iff_eq_none, List.mem_finRange,
    true_imp_iff] at h
  obtain ⟨hchildren, hmain⟩ := h
  intro t
  cases t with
  | child i => exact (hchildren i).1.1
  | exit i => exact (hchildren i).1.2
  | die i => exact (hchildren i).2
  | main => exact hmain

/--
**The parent in `myapp.c`**, in every run of it and its children. No call of the library is
refused, no signal goes to a process that was reaped, and the run has 123 steps at most. A
child is killed only with flag 0 and in a deadlock. The segment is destroyed when all
children have ended, and unless all were killed they are complete. Where nothing can go on,
`main` has returned; or, with flag 0, its fourteen rounds were over before P0 and P1 were
deadlocked, and it waits for P0.
-/
theorem myapp_main {avoid : Int} {s₀ : RsmSharedState 3 5}
    (hinit : rsmInit 3 5 (fun _ => 1) avoid = some s₀) {pids : Fin 3 → Int}
    (hinj : pids.Injective) {ts : List (Turn 3)} {d : Driver 3 5}
    (hrun : (Driver.start (Myapp.monitor (avoid == 1)) s₀ (Myapp.children (avoid == 1))).run
      (Myapp.monitor (avoid == 1)) pids ts = some d) :
    ts.length ≤ 123 ∧ d.app.Accepted pids ∧ d.astray = false ∧
    (∀ i, d.signalled i = true → avoid = 0 ∧ 0 < rsmDetection d.app.sys.shared) ∧
    (d.main = .destroys ∨ d.main = .returned → (∀ i, d.gone i = true) ∧
      ((∀ i, d.signalled i = true) ∨ (∀ i, d.signalled i = false) ∧ d.app.Complete s₀)) ∧
    (d.Stuck (Myapp.monitor (avoid == 1)) pids → d.main = .returned ∨
      avoid = 0 ∧ d.main = .waits 0 ∧ d.reported = false ∧ d.app.holders = {0, 1} ∧
        rsmDetection d.app.sys.shared = 2) := by
  have hflag := rsmInit_avoid hinit
  obtain ⟨rfl, hexist⟩ := rsmInit_eq_some hinit
  have hscripts := Myapp.disciplined (avoid == 1)
  set start := Driver.start (Myapp.monitor (avoid == 1))
    (initialState 3 5 (fun _ => 1) (avoid == 1)) (Myapp.children (avoid == 1))
  have hstart : Driver.Inv (fun _ => 1) (Myapp.monitor (avoid == 1)) pids
      (Myapp.children (avoid == 1)) start := Driver.start_inv
  have h := hstart.runs hscripts hinj hexist hrun
  have hoff (havoid : (Myapp.monitor (avoid == 1)).avoid = false) : avoid = 0 :=
    hflag.resolve_right (by simpa [Myapp.monitor] using havoid)
  refine ⟨?_, (h.app hscripts hinj hexist).allAccepted hinj hexist, ?_, fun i hi => ?_,
    h.result hscripts hinj hexist, fun hstuck => ?_⟩
  -- twice the calls and an exit for each child, and 80 steps of `main`
  · have hlength := (hstart.length_le hscripts hinj hexist hrun).2 (.inl rfl)
    have hsum := Myapp.sum_length_le (avoid == 1)
    have hparent : Driver.parentWeight 3 start.main = 80 := rfl
    have hweight : start.weight pids = 2 * ∑ i, (Myapp.children (avoid == 1) i).length + 3 :=
      start_weight ..
    omega
  · by_contra hastray
    obtain ⟨havoid, hsees⟩ := h.astray (by simpa using hastray)
    have hzero := hoff havoid
    subst hzero
    exact hsees Myapp.blind
  · obtain ⟨havoid, hpos⟩ := h.signalled hi
    exact ⟨hoff havoid, hpos⟩
  · refine (h.stuck hscripts hinj hexist hstuck).imp id fun hhangs => ?_
    have hzero := hoff hhangs.avoid
    subst hzero
    obtain ⟨-, hholders, hdetection⟩ := Myapp.deadlock_eq (h.app hscripts hinj hexist) hinj
      hhangs.stuck hhangs.deadlock
    obtain ⟨i, hmain, hlives, hbefore⟩ := hhangs.waits
    -- P0 holds something, so it has not ended
    have hi : i = 0 := by
      by_contra hne
      have hgone := hbefore 0 (Fin.pos_iff_ne_zero.mpr hne)
      have hrest := (h.ended 0 hgone (hhangs.unsignalled 0)).1
      have hmem : (0 : Fin 3) ∈ d.app.holders := by simp [hholders]
      exact (Finset.mem_filter.mp hmem).2.1 hrest
    subst hi
    exact ⟨rfl, hmain, hhangs.reported, hholders, hdetection⟩

/-- The fourteen rounds are over before the first child has called anything. -/
def Myapp.lateRun (i j k : Fin 3) : List (Turn 3) :=
  List.replicate 15 .main ++ [i, i, j, j, i, j, k, k, k, k, k].map .child ++ [.exit k]

theorem myapp_main_late : ∃ d : Driver 3 5, (Driver.start (Myapp.monitor false)
      (initialState 3 5 (fun _ => 1) false) (Myapp.children false)).run (Myapp.monitor false)
        myappPids (Myapp.lateRun 0 1 2) = some d ∧
    d.Stuck (Myapp.monitor false) myappPids ∧ d.main = .waits 0 ∧
    rsmDetection d.app.sys.shared = 2 := by
  have hresult : ((Driver.start (Myapp.monitor false) (initialState 3 5 (fun _ => 1) false)
      (Myapp.children false)).run (Myapp.monitor false) myappPids (Myapp.lateRun 0 1 2)).map
        (fun d => (d.anyTurn (Myapp.monitor false) myappPids, d.main)) =
          some (false, .waits 0) := by
    decide +kernel
  obtain ⟨d, hrun, hd⟩ := Option.map_eq_some_iff.mp hresult
  obtain ⟨hnobody, hwaits⟩ := Prod.mk.inj hd
  have hstuck := Driver.stuck_of_anyTurn hnobody
  have hend := (myapp_main (rsmInit_ones 5 0 (by decide) (by decide) (.inl rfl))
    myappPids_injective hrun).2.2.2.2.2 hstuck
  -- `main` has not returned, so the other end it is
  refine ⟨d, hrun, hstuck, hwaits, ?_⟩
  rcases hend with hreturned | ⟨-, -, -, -, hdetection⟩
  · rw [hreturned] at hwaits
    exact absurd hwaits (by simp)
  · exact hdetection

theorem Driver.parentWeight_le {main : Parent} (h : ¬ main.InLoop) :
    parentWeight n main ≤ 2 * n + 3 := by
  cases main with
  | polls left => exact absurd trivial h
  | looks left k allDone => exact absurd trivial h
  | kills k => simp only [parentWeight]; omega
  | waits k => simp only [parentWeight]; omega
  | destroys => simp only [parentWeight]; omega
  | returned => exact Nat.zero_le _

/--
**The parent in `myapp_modified.c`**, for any number of resource types and in every run of it
and its children. The loop has no limit of its own, but the children make
`12 * num_resource_types + 21` steps at most, and when they can make no more, at most nine
steps take `main` out of the loop; every run from there ends. Where nothing can go on, `main`
has returned. Who is killed and what is destroyed is as in `myapp.c`, except that here a
signal can go to a process that was reaped, with flag 0.
-/
theorem myappModified_main {gNumr avoid : Int}
    {s₀ : RsmSharedState (3 : Int).toNat gNumr.toNat}
    (hinit : rsmInit 3 gNumr (fun _ => 1) avoid = some s₀) {pids : Fin 3 → Int}
    (hinj : pids.Injective) {ts : List (Turn 3)} {d : Driver 3 gNumr.toNat}
    (hrun : (Driver.start (MyappModified.monitor (avoid == 1)) s₀
      (MyappModified.children (avoid == 1) gNumr.toNat)).run
        (MyappModified.monitor (avoid == 1)) pids ts = some d) :
    ts.countP (· ≠ .main) ≤ 12 * gNumr.toNat + 21 ∧ d.app.Accepted pids ∧
    (d.astray = true → avoid = 0) ∧
    (∀ i, d.signalled i = true → avoid = 0 ∧ 0 < rsmDetection d.app.sys.shared) ∧
    (d.main = .destroys ∨ d.main = .returned → (∀ i, d.gone i = true) ∧
      ((∀ i, d.signalled i = true) ∨ (∀ i, d.signalled i = false) ∧ d.app.Complete s₀)) ∧
    (d.Quiet (MyappModified.monitor (avoid == 1)) pids → ∃ j ≤ 9, ∃ d',
      d.run (MyappModified.monitor (avoid == 1)) pids (List.replicate j .main) = some d' ∧
        ¬ d'.main.InLoop) ∧
    (¬ d.main.InLoop → ∀ ts' d',
      d.run (MyappModified.monitor (avoid == 1)) pids ts' = some d' →
        ts'.length ≤ 12 * gNumr.toNat + 30) ∧
    (d.Stuck (MyappModified.monitor (avoid == 1)) pids → d.main = .returned) := by
  -- the flag of the program is the one of the segment
  have hflag := rsmInit_avoid hinit
  obtain ⟨rfl, hexist⟩ := rsmInit_eq_some hinit
  have hscripts : ∀ i : Fin 3, Disciplined (avoid == 1) (fun _ => 1) i
      (MyappModified.children (avoid == 1) gNumr.toNat i) :=
    MyappModified.disciplined (avoid == 1) fun _ => le_refl _
  set start := Driver.start (MyappModified.monitor (avoid == 1))
    (initialState 3 gNumr.toNat (fun _ => 1) (avoid == 1))
    (MyappModified.children (avoid == 1) gNumr.toNat)
  have hstart : Driver.Inv (fun _ => 1) (MyappModified.monitor (avoid == 1)) pids
      (MyappModified.children (avoid == 1) gNumr.toNat) start := Driver.start_inv
  have h := hstart.runs hscripts hinj hexist hrun
  have hoff (havoid : (MyappModified.monitor (avoid == 1)).avoid = false) : avoid = 0 :=
    hflag.resolve_right (by simpa [MyappModified.monitor] using havoid)
  -- every step of a child lowers the weight they start with
  have hchildren : ts.countP (· ≠ .main) + d.weight pids ≤ 12 * gNumr.toNat + 21 := by
    have hcount := (hstart.length_le hscripts hinj hexist hrun).1
    have hsum := MyappModified.sum_length_le (avoid == 1) gNumr.toNat
    have hweight : start.weight pids =
        2 * ∑ i, (MyappModified.children (avoid == 1) gNumr.toNat i).length + 3 :=
      start_weight ..
    omega
  refine ⟨by omega, (h.app hscripts hinj hexist).allAccepted hinj hexist,
    fun hastray => hoff (h.astray hastray).1, fun i hi => ?_, h.result hscripts hinj hexist,
    fun hquiet => h.leaves_loop hscripts hinj hexist (fun _ => rfl) hquiet,
    fun hout ts' d' hrun' => ?_, fun hstuck => ?_⟩
  · -- who is signalled
    obtain ⟨havoid, hpos⟩ := h.signalled hi
    exact ⟨hoff havoid, hpos⟩
  · -- how long it can take behind the loop
    have hlength := (h.length_le hscripts hinj hexist hrun').2 (.inr hout)
    have hparent := Driver.parentWeight_le (n := 3) hout
    omega
  · -- without a bound on the rounds `main` cannot hang
    exact (h.stuck hscripts hinj hexist hstuck).resolve_right fun hhangs =>
      Bool.false_ne_true hhangs.rounds

/-- P2 is done and reaped before P0 and P1 are deadlocked. -/
def MyappModified.killedRun (i j k : Fin 3) : List (Turn 3) :=
  List.replicate 8 (.child k) ++ [.exit k] ++ List.replicate 5 .main ++
    [i, i, i, j, j, j, i, j].map .child ++ List.replicate 5 .main ++ [.die i, .die j] ++
    List.replicate 5 .main

theorem myappModified_main_killed : ∃ d : Driver 3 6,
    (Driver.start (MyappModified.monitor false) (initialState 3 6 (fun _ => 1) false)
      (MyappModified.children false 6)).run (MyappModified.monitor false) myappPids
        (MyappModified.killedRun 0 1 2) = some d ∧
    d.main = .returned ∧ d.astray = true ∧ 0 < rsmDetection d.app.sys.shared := by
  have hresult : ((Driver.start (MyappModified.monitor false)
      (initialState 3 6 (fun _ => 1) false) (MyappModified.children false 6)).run
        (MyappModified.monitor false) myappPids (MyappModified.killedRun 0 1 2)).map
          (fun d => (d.main, d.astray, d.signalled 0)) = some (.returned, true, true) := by
    decide +kernel
  obtain ⟨d, hrun, hd⟩ := Option.map_eq_some_iff.mp hresult
  simp only [Prod.mk.injEq] at hd
  obtain ⟨hreturned, hastray, hsignalled⟩ := hd
  have hkilled := (myappModified_main (rsmInit_ones 6 0 (by decide) (by decide) (.inl rfl))
    myappPids_injective hrun).2.2.2.1 0 hsignalled
  exact ⟨d, hrun, hreturned, hastray, hkilled.2⟩

end OsProjects.Rsm
