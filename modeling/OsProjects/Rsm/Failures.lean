import OsProjects.Rsm.Wakeup

/-!
# Resource manager — calls that fail

A call can return -1 before its critical section, when the segment cannot be
mapped or the mutex not taken, inside it, and, for `rsm_request`, after it:
`sem_wait` fails with an error other than `EINTR`. The first two kinds leave
the segment alone. The third does not: the request stays on record with
`waiting[apid] = 1`, and a later rescan grants it to a process that has been
told it failed (`failed_call_no_effect`, `semWait_failure_grants`).
-/

namespace OsProjects.Rsm

variable {n m : Nat} {s : RsmSharedState n m}

/-- A call with the two steps before its critical section:
`map_existing_state` and `lock_state`, each of which may fail. -/
def Call.enter (c : Call m) (mapped locked : Bool) (pid : Int) (gLocalApid : Option (Fin n))
    (s : RsmSharedState n m) : Result n m :=
  if !mapped then ⟨.ret (-1), s, gLocalApid⟩
  -- the arguments are checked in between, also with -1 and no effect
  else if !locked then ⟨.ret (-1), s, gLocalApid⟩
  else c.run pid gLocalApid s

/-- Process `pid` makes a call that may fail to enter its critical section. -/
def System.enter (sys : System n m) (mapped locked : Bool) (pid : Int) (c : Call m) :
    System n m :=
  if mapped && locked then sys.call pid c else sys

/-- `sem_wait` fails for good: the call returns -1, and nothing is undone. -/
def System.semWaitFails (sys : System n m) (pid : Int) : System n m :=
  { sys with asleep := Function.update sys.asleep pid none }

/-- Runs in which process `pid` makes no step. -/
inductive OthersRun (pid : Int) : System n m → System n m → Prop where
  | refl (sys : System n m) : OthersRun pid sys sys
  | step {sys mid sys' : System n m} {e : Event m} (h : OthersRun pid sys mid) (he : e.pid ≠ pid)
      (hstep : Step mid e sys') : OthersRun pid sys sys'

/-- A call of `pid`, made in `sys`, that returns -1: whether it fails in
`sem_wait`, the segment its critical section leaves, and the system when it
returns. -/
inductive FailedCall (pid : Int) (sys : System n m) (c : Call m) :
    (inSemWait : Bool) → (own : RsmSharedState n m) → System n m → Prop where
  | critical {mapped locked : Bool} (hawake : sys.asleep pid = none)
      (hfail : (c.enter mapped locked pid (sys.gLocalApid pid) sys.shared).outcome = .ret (-1)) :
      FailedCall pid sys c false (c.enter mapped locked pid (sys.gLocalApid pid) sys.shared).shared
        (sys.enter mapped locked pid c)
  | semWait {a : Fin n} {sys' : System n m} (hawake : sys.asleep pid = none)
      (hsleep : (c.run pid (sys.gLocalApid pid) sys.shared).outcome = .sleeping a)
      (hrun : OthersRun pid (sys.call pid c) sys') :
      FailedCall pid sys c true (c.run pid (sys.gLocalApid pid) sys.shared).shared
        (sys'.semWaitFails pid)

/-- A failed call without effect: it leaves the segment as it found it, and no
later step of another process moves units to the caller. -/
def NoEffect (pid : Int) (sys : System n m) (own : RsmSharedState n m) (after : System n m) :
    Prop :=
  own = sys.shared ∧
    ∀ later, OthersRun pid after later → ∀ a, after.shared.started a = true →
      after.shared.apidToPid a = pid → later.shared.allocation a = after.shared.allocation a

/-! ## Failures before and inside the critical section -/

theorem Call.enter_failed {c : Call m} {mapped locked : Bool} {pid : Int} {g : Option (Fin n)}
    (hfail : (c.enter mapped locked pid g s).outcome = .ret (-1)) :
    (c.enter mapped locked pid g s).shared = s := by
  unfold Call.enter at hfail ⊢
  -- a segment that is not mapped, a lock that fails, or the call itself
  split
  · rfl
  next hmapped =>
  rw [if_neg hmapped] at hfail
  split
  · rfl
  next hlocked =>
  rw [if_neg hlocked] at hfail
  exact Call.run_failed hfail

theorem System.enter_reachable {s₀ : RsmSharedState n m} {sys : System n m}
    (h : Reachable s₀ sys) {mapped locked : Bool} {pid : Int} {c : Call m}
    (hawake : sys.asleep pid = none) : Reachable s₀ (sys.enter mapped locked pid c) := by
  unfold System.enter
  split
  · exact .step h (.call c hawake)
  · exact h

/-- A call that fails does not go to sleep. -/
theorem System.enter_awake {sys : System n m} {mapped locked : Bool} {pid : Int} {c : Call m}
    (hawake : sys.asleep pid = none)
    (hfail : (c.enter mapped locked pid (sys.gLocalApid pid) sys.shared).outcome = .ret (-1)) :
    (sys.enter mapped locked pid c).asleep pid = none := by
  unfold Call.enter at hfail
  unfold System.enter
  -- the same three cases
  cases mapped
  · exact hawake
  cases locked
  · exact hawake
  have hret : (c.run pid (sys.gLocalApid pid) sys.shared).outcome = .ret (-1) := by
    simpa using hfail
  simp [System.call, hret, hawake]

/-- While its owner is awake and makes no step, nothing happens to the row of
a process. -/
theorem OthersRun.row {exist : Vec m} {avoid : Bool} {pid : Int} {sys sys' : System n m}
    (h : OthersRun pid sys sys') (hr : Reachable (initialState n m exist avoid) sys)
    (hawake : sys.asleep pid = none) :
    Reachable (initialState n m exist avoid) sys' ∧ sys'.asleep pid = none ∧
      ∀ a, sys.shared.started a = true → sys.shared.apidToPid a = pid →
        sys'.shared.process a = sys.shared.process a := by
  induction h with
  | refl => exact ⟨hr, hawake, fun _ _ _ => rfl⟩
  | @step mid sys' e _ he hstep ih =>
    obtain ⟨hmid, hawakeMid, hrow⟩ := ih
    refine ⟨.step hmid hstep, ?_, ?_⟩
    · cases hstep with
      | call c _ => exact (mid.call_asleep_of_ne c (Ne.symm he)).trans hawakeMid
      | wake _ _ => exact (Function.update_of_ne (Ne.symm he) _ _).trans hawakeMid
      | fork _ _ _ => exact hawakeMid
    · intro a hstarted howner
      have hsame := hrow a hstarted howner
      have hstarted' : mid.shared.started a = true :=
        (congrArg ProcessRow.started hsame).trans hstarted
      have howner' : mid.shared.apidToPid a = pid :=
        (congrArg ProcessRow.apidToPid hsame).trans howner
      rcases hstep.owned_row hmid.sleepInv hstarted' (by rw [howner']; exact Ne.symm he) with
        hkeep | ⟨hw, -⟩
      · exact hkeep.trans hsame
      -- an awake owner has no waiting id
      · have hidle := hmid.sleepInv.caller_not_waiting hawakeMid howner'
        exact absurd (hidle.symm.trans hw) (by simp)

/-! ## Failures of `sem_wait` -/

/-- Before it calls `sem_wait`, a call has raised a waiting flag. -/
theorem Call.run_sleeping {c : Call m} {pid : Int} {g : Option (Fin n)} {a : Fin n}
    (h : (c.run pid g s).outcome = .sleeping a) :
    s.apidToPid a = pid ∧ (c.run pid g s).shared.waiting a = true := by
  have heff := c.run_effect pid g s
  generalize c.run pid g s = r at heff h ⊢
  -- only a request that has to wait sleeps
  cases heff with
  | quiet hq =>
    cases hq with
    | unchanged _ _ => exact absurd h (by simp)
    | started _ _ => exact absurd h (by simp)
    | claimed _ _ _ _ _ _ _ _ => exact absurd h (by simp)
    | granted _ _ _ _ _ _ => exact absurd h (by simp)
    | waits b _ _ howner _ _ =>
      obtain rfl := Outcome.sleeping.inj h
      exact ⟨howner.2, by simp [setWaiting]⟩
  | ended _ _ _ => exact absurd h (by simp)
  | released _ _ _ _ _ _ _ => exact absurd h (by simp)

/--
**A failing call has no effect, unless it fails in `sem_wait`.** In every
reachable state, a call that returns -1, with the segment not mapped, with the
mutex not taken or from any branch of its critical section, leaves the segment
as it found it, and nothing another process does later moves units to the
caller. A call that fails in `sem_wait` does have an effect.
-/
theorem failed_call_no_effect {pCount rCount avoid : Int} {exist : Vec rCount.toNat}
    {s₀ : RsmSharedState pCount.toNat rCount.toNat}
    (hinit : rsmInit pCount rCount exist avoid = some s₀)
    {sys : System pCount.toNat rCount.toNat} (h : Reachable s₀ sys) {pid : Int}
    {c : Call rCount.toNat} {inSemWait : Bool} {own : RsmSharedState pCount.toNat rCount.toNat}
    {after : System pCount.toNat rCount.toNat}
    (hfailed : FailedCall pid sys c inSemWait own after) :
    NoEffect pid sys own after ↔ inSemWait = false := by
  obtain ⟨rfl, -⟩ := rsmInit_eq_some hinit
  cases hfailed with
  | critical hawake hfail =>
    refine iff_of_true ⟨Call.enter_failed hfail, fun later hrun a hstarted howner => ?_⟩ rfl
    have hrow := (hrun.row (System.enter_reachable h hawake)
      (System.enter_awake hawake hfail)).2.2 a hstarted howner
    exact congrArg ProcessRow.allocation hrow
  | semWait hawake hsleep hrun =>
    refine iff_of_false (fun hno => ?_) (by simp)
    -- the waiting flag of the caller was down and is up
    obtain ⟨howner, hw⟩ := Call.run_sleeping hsleep
    have hidle := h.sleepInv.caller_not_waiting hawake howner
    rw [hno.1, hidle] at hw
    exact absurd hw (by simp)

/-- P0 (pid 10) holds the only unit, and P1 (pid 11) is registered. -/
def oneUnit : System 2 1 :=
  (((System.init (initialState 2 1 (fun _ => 1) false)).call 10 (.processStarted 0)).call 11
    (.processStarted 1)).call 10 (.request fun _ => 1)

theorem oneUnit_reachable : Reachable (initialState 2 1 (fun _ => 1) false) oneUnit :=
  .step (.step (.step .init (.call _ rfl)) (.call _ rfl)) (.call _ rfl)

/-- P1 asks for the unit and its `sem_wait` fails. -/
def oneUnitFailed : System 2 1 := (oneUnit.call 11 (.request fun _ => 1)).semWaitFails 11

theorem oneUnitFailed_failed :
    FailedCall 11 oneUnit (.request fun _ => 1) true
      ((Call.request fun _ => 1).run 11 (oneUnit.gLocalApid 11) oneUnit.shared).shared
      oneUnitFailed :=
  .semWait (a := 1) rfl (by decide) (.refl _)

/-- P1 has been told that its request failed; when P0 releases the unit, P1
gets it. -/
theorem semWait_failure_grants :
    FailedCall 11 oneUnit (.request fun _ => 1) true
      ((Call.request fun _ => 1).run 11 (oneUnit.gLocalApid 11) oneUnit.shared).shared
      oneUnitFailed ∧
    ¬ NoEffect 11 oneUnit
      ((Call.request fun _ => 1).run 11 (oneUnit.gLocalApid 11) oneUnit.shared).shared
      oneUnitFailed ∧
    oneUnitFailed.shared.allocation 1 0 = 0 ∧
    (oneUnitFailed.call 10 (.release fun _ => 1)).shared.allocation 1 0 = 1 := by
  have hbefore : oneUnitFailed.shared.allocation 1 0 = 0 := by decide
  have hafter : (oneUnitFailed.call 10 (.release fun _ => 1)).shared.allocation 1 0 = 1 := by
    decide
  refine ⟨oneUnitFailed_failed, ?_, hbefore, hafter⟩
  intro hno
  -- the release of the other process
  have hlater : OthersRun 11 oneUnitFailed (oneUnitFailed.call 10 (.release fun _ => 1)) :=
    .step (.refl _) (by decide) (.call _ rfl)
  have hsame := congrFun (hno.2 _ hlater 1 (by decide) (by decide)) 0
  rw [hbefore, hafter] at hsame
  exact absurd hsame (by decide)

/-- A release by a process that is not registered fails without effect. -/
theorem failed_call_no_effect_demo :
    NoEffect 12 oneUnit
      ((Call.release fun _ => 1).enter true true 12 (oneUnit.gLocalApid 12) oneUnit.shared).shared
      (oneUnit.enter true true 12 (.release fun _ => 1)) := by
  have hinit : rsmInit 2 1 (fun _ => 1) 0 = some (initialState 2 1 (fun _ => 1) false) := rfl
  exact (failed_call_no_effect hinit oneUnit_reachable (.critical rfl (by decide))).mpr rfl

end OsProjects.Rsm
