import OsProjects.Rsm.Clients

/-!
# Resource manager — what becomes of a disciplined application

In every interleaving of a disciplined application each row of the segment
agrees with a ledger that permits the rest of the script (`AppInv`). So no call
is refused, and every run is finite, because a step uses up a call or a sleep
(`AppStep.weight_lt`).

* `clients_complete` — with avoidance, every interleaving runs to its end and
  leaves the segment as `rsm_init` made it;
* `clients_detected` — without, it either does so, or ends in a state where
  `rsm_detection` counts the processes that are left and hold something.
-/

namespace OsProjects.Rsm

open Completion Reduction

variable {n m : Nat}

/-! ## The invariant of an application -/

/-- The row of every process agrees with the ledger of where it stands in its
disciplined script. -/
structure AppInv (existing : Vec m) (avoid : Bool) (pids : Fin n → Int)
    (scripts : Fin n → List (Call m)) (app : App n m) : Prop where
  reachable : Reachable (initialState n m existing avoid) app.sys
  disciplined : ∀ i : Fin n, Disciplined avoid existing i (scripts i)
  ledgers : ∀ i : Fin n, ∃ l : Ledger m, Agrees (pids i) app.sys.shared i l ∧
    l.At avoid existing i (scripts i) (app.rest i)

section AppInv

variable {existing : Vec m} {avoid : Bool} {pids : Fin n → Int}
  {scripts : Fin n → List (Call m)} {app app' : App n m}

theorem AppInv.start (hscripts : ∀ i : Fin n, Disciplined avoid existing i (scripts i)) :
    AppInv existing avoid pids scripts
      (App.start (initialState n m existing avoid) scripts) where
  reachable := .init
  disciplined := hscripts
  ledgers _ := ⟨.outside, .init _ _ _ _, [], rfl, rfl⟩

/-- The owner of a started id is the process that runs its script. -/
theorem AppInv.owner (h : AppInv existing avoid pids scripts app) {i : Fin n}
    (hst : app.sys.shared.started i = true) : app.sys.shared.apidToPid i = pids i := by
  obtain ⟨l, hl, -⟩ := h.ledgers i
  rw [hl.owner, if_pos (hl.started.symm.trans hst)]

/-- A process sleeps for its own id only. -/
theorem AppInv.asleep (h : AppInv existing avoid pids scripts app) (hinj : pids.Injective)
    {i a : Fin n} (hsleep : app.sys.asleep (pids i) = some a) : a = i := by
  obtain ⟨hst, hown, -⟩ := h.reachable.sleepInv.pending _ a hsleep
  exact hinj ((h.owner hst).symm.trans hown)

/-- An awake process is a caller the library can identify. -/
theorem AppInv.caller (h : AppInv existing avoid pids scripts app) (hinj : pids.Injective)
    (hexist : ∀ j, 0 ≤ existing j) {i : Fin n} {l : Ledger m}
    (hl : Agrees (pids i) app.sys.shared i l) (hawake : app.sys.asleep (pids i) = none) :
    Caller existing avoid (pids i) app.sys.shared i l where
  toAgrees := hl
  toConfigured := h.reachable.configured
  resource := h.reachable.resourceInv hexist
  idle := by
    cases hst : app.sys.shared.started i with
    | true => exact h.reachable.sleepInv.caller_not_waiting hawake (h.owner hst)
    | false => exact (h.reachable.sleepInv.free_idle hst).1
  sole b hb hown := hinj ((h.owner hb).symm.trans hown)

/-- The next call of an awake process is not refused. -/
theorem AppInv.accepted (h : AppInv existing avoid pids scripts app) (hinj : pids.Injective)
    (hexist : ∀ j, 0 ≤ existing j) {i : Fin n} {c : Call m} {cs : List (Call m)}
    (hrest : app.rest i = c :: cs) (hawake : app.sys.asleep (pids i) = none) :
    ∃ l, Accepts (pids i) i l (c.run (pids i) (app.sys.gLocalApid (pids i)) app.sys.shared) ∧
      l.At avoid existing i (scripts i) cs := by
  obtain ⟨l, hl, hat⟩ := h.ledgers i
  rw [hrest] at hat
  obtain ⟨l', hnext, -⟩ := Ledger.after_cons (hat.after (h.disciplined i))
  exact ⟨l', (h.caller hinj hexist hl hawake).accepted _ hnext, hat.next hnext⟩

/-- The call of one process leaves the ledgers of the others true. -/
theorem AppInv.others (h : AppInv existing avoid pids scripts app) (hinj : pids.Injective)
    {i b : Fin n} (hb : b ≠ i) {l : Ledger m} (hl : Agrees (pids b) app.sys.shared b l)
    {c : Call m} (hawake : app.sys.asleep (pids i) = none)
    (hown : ∀ a, c = .processStarted a → a = i) :
    Agrees (pids b) (app.sys.call (pids i) c).shared b l := by
  have hsleep := h.reachable.sleepInv
  -- the call is charged to `i`, if to anybody
  have hcharged : c.apid (pids i) (app.sys.gLocalApid (pids i)) app.sys.shared ≠ some b := by
    intro hc
    cases c with
    | processStarted a =>
      obtain rfl := hown a rfl
      simp only [Call.apid] at hc
      split at hc
      · split at hc
        · exact absurd hc (by simp)
        · exact hb (by simpa using (Option.some.inj hc).symm)
      · exact absurd hc (by simp)
    | processEnded | claim _ | request _ | release _ =>
      obtain ⟨hst, hpid⟩ := currentApidLocked_owner hc
      exact hb (hinj ((h.owner hst).symm.trans hpid))
  have hidle : ∀ a, app.sys.shared.apidToPid a = pids i → app.sys.shared.waiting a = false :=
    fun a ha => hsleep.caller_not_waiting hawake ha
  obtain ⟨granted, -, hserved, hothers, -⟩ :=
    c.run_frame (g := app.sys.gLocalApid (pids i)) hidle
  have hav : (app.sys.call (pids i) c).shared.avoidEnabled = app.sys.shared.avoidEnabled := by
    have hnext : Reachable (initialState n m existing avoid) (app.sys.call (pids i) c) :=
      .step h.reachable (.call c hawake)
    rw [hnext.configured.avoid, h.reachable.configured.avoid]
  by_cases hg : b ∈ granted
  · exact hl.of_granted (hserved b hg).2.2.2 hav
  · exact hl.of_process (hothers b hcharged hg) hav

theorem AppInv.step (h : AppInv existing avoid pids scripts app) (hinj : pids.Injective)
    (hexist : ∀ j, 0 ≤ existing j) (hstep : AppStep pids app app') :
    AppInv existing avoid pids scripts app' := by
  cases hstep with
  | @call i c cs sys' hrest hstep =>
    refine ⟨.step h.reachable hstep, h.disciplined, fun b => ?_⟩
    cases hstep with
    | call _ hawake =>
      by_cases hb : b = i
      · subst hb
        obtain ⟨l, hl, hat⟩ := h.accepted hinj hexist hrest hawake
        exact ⟨l, hl.2, by simpa using hat⟩
      · obtain ⟨l, hl, hat⟩ := h.ledgers b
        refine ⟨l, h.others hinj hb hl hawake ?_, by simpa [hb] using hat⟩
        -- a disciplined process starts its own id
        rintro a rfl
        obtain ⟨l₀, -, hat₀⟩ := h.ledgers i
        rw [hrest] at hat₀
        obtain ⟨l₁, hnext, -⟩ := Ledger.after_cons (hat₀.after (h.disciplined i))
        simp only [Ledger.next, Option.ite_none_right_eq_some] at hnext
        exact hnext.1.1
  | @wake i sys' hstep =>
    refine ⟨.step h.reachable hstep, h.disciplined, fun b => ?_⟩
    cases hstep with
    | wake hasleep htoken =>
      obtain ⟨l, hl, hat⟩ := h.ledgers b
      -- only a semaphore changes
      exact ⟨l, ⟨hl.started, hl.owner, hl.claimed, hl.requested, hl.claim, hl.held, hl.outside⟩,
        hat⟩

theorem AppInv.run (h : AppInv existing avoid pids scripts app) (hinj : pids.Injective)
    (hexist : ∀ j, 0 ≤ existing j) {k : Nat} (hrun : AppRun pids app k app') :
    AppInv existing avoid pids scripts app' := by
  induction hrun with
  | refl => exact h
  | step _ hstep ih => exact ih.step hinj hexist hstep

/-! ## Runs are finite -/

/-- Two for each call to come, one for a process that sleeps. -/
def App.weight (pids : Fin n → Int) (app : App n m) : Nat :=
  ∑ i, (2 * (app.rest i).length + if (app.sys.asleep (pids i)).isSome then 1 else 0)

theorem AppStep.weight_lt (hinj : pids.Injective) (hstep : AppStep pids app app') :
    app'.weight pids < app.weight pids := by
  cases hstep with
  | @call i c cs sys' hrest hstep =>
    cases hstep with
    | call _ hawake =>
      refine Finset.sum_lt_sum (fun b _ => ?_) ⟨i, Finset.mem_univ i, ?_⟩
      · by_cases hb : b = i
        · subst hb
          simp only [Function.update_self, hrest, List.length_cons]
          split <;> omega
        · have hne : pids b ≠ pids i := fun hp => hb (hinj hp)
          rw [System.call_asleep_of_ne app.sys c hne]
          simp [hb]
      · simp only [Function.update_self, hrest, List.length_cons]
        split <;> omega
  | @wake i sys' hstep =>
    cases hstep with
    | wake hasleep htoken =>
      refine Finset.sum_lt_sum (fun b _ => ?_) ⟨i, Finset.mem_univ i, ?_⟩
      · by_cases hb : b = i
        · subst hb
          simp [System.wake]
        · have hne : pids b ≠ pids i := fun hp => hb (hinj hp)
          simp [System.wake, hne]
      · simp [System.wake, hasleep]

theorem AppRun.weight_add (hinj : pids.Injective) {k : Nat} (hrun : AppRun pids app k app') :
    app'.weight pids + k ≤ app.weight pids := by
  induction hrun with
  | refl => simp
  | step _ hstep ih =>
    have := hstep.weight_lt hinj
    omega

theorem weight_start (s₀ : RsmSharedState n m) :
    (App.start s₀ scripts).weight pids = 2 * ∑ i, (scripts i).length := by
  simp [App.weight, App.start, System.init, Finset.mul_sum]

/-! ## The end of a run -/

/-- In a stuck application whoever is left waits, without a token. -/
theorem AppInv.waits (h : AppInv existing avoid pids scripts app) (hinj : pids.Injective)
    (hstuck : app.Stuck pids) {i : Fin n} (hleft : app.rest i ≠ []) :
    app.sys.asleep (pids i) = some i ∧ app.sys.shared.waiting i = true := by
  obtain ⟨c, cs, hrest⟩ := List.exists_cons_of_ne_nil hleft
  cases hs : app.sys.asleep (pids i) with
  | none => exact absurd (AppStep.call hrest (.call c hs)) (hstuck _)
  | some a =>
    obtain rfl := h.asleep hinj hs
    refine ⟨rfl, ?_⟩
    rcases (h.reachable.sleepInv.pending _ a hs).2.2 with ⟨hw, -⟩ | ⟨-, hsem⟩
    · exact hw
    · exact absurd (AppStep.wake (.wake hs (by omega))) (hstuck _)

/-- A process is active until its script is used up. -/
theorem AppInv.rest_ne_nil (h : AppInv existing avoid pids scripts app)
    (hexist : ∀ j, 0 ≤ existing j) {i : Fin n} (hactive : app.sys.shared.active i = true) :
    app.rest i ≠ [] := by
  intro hnil
  obtain ⟨l, hl, hat⟩ := h.ledgers i
  have hafter := hat.after (h.disciplined i)
  rw [hnil, Ledger.after, Option.some.injEq] at hafter
  have hst := (h.reachable.resourceInv hexist).started_eq i
  rw [hactive, hl.started, hafter] at hst
  exact absurd hst (by simp [Ledger.outside])

/-- **All is given back.** When every script is used up, the segment is the one
`rsm_init` made, and nobody sleeps. -/
theorem AppInv.restored (h : AppInv existing avoid pids scripts app) (hexist : ∀ j, 0 ≤ existing j)
    (hdone : app.Done) :
    app.sys.shared = initialState n m existing avoid ∧ ∀ pid, app.sys.asleep pid = none := by
  have hres := h.reachable.resourceInv hexist
  have hconf := h.reachable.configured
  have hrow : ∀ i, Agrees (pids i) app.sys.shared i .outside := fun i => by
    obtain ⟨l, hl, hat⟩ := h.ledgers i
    have hafter := hat.after (h.disciplined i)
    rw [hdone i, Ledger.after, Option.some.injEq] at hafter
    rwa [hafter] at hl
  have hfree : ∀ i, app.sys.shared.started i = false := fun i => (hrow i).started
  have hinactive : ∀ i, app.sys.shared.active i = false := fun i => by
    rw [← hres.started_eq i, hfree]
  have hempty := fun i => (hres.repInv).inactive i (hinactive i)
  refine ⟨?_, fun pid => ?_⟩
  -- field by field
  · have havail : app.sys.shared.available = existing := by
      funext j
      have := hres.conserved j
      rw [Finset.sum_eq_zero fun i _ => ((hempty i).2 j).1, hconf.existing] at this
      omega
    have hidle := fun i => h.reachable.sleepInv.free_idle (hfree i)
    generalize app.sys.shared = s at *
    cases s
    simp only [initialState, RsmSharedState.mk.injEq]
    refine ⟨hconf.initialized, hconf.avoid, hconf.existing, havail, ?_, ?_, ?_, ?_, ?_,
      funext hfree, funext hinactive, funext fun i => (hrow i).claimed,
      funext fun i => (hrow i).requested, funext fun i => (hidle i).1,
      funext fun i => (hidle i).2⟩
    · exact funext₂ fun i j => ((hempty i).2 j).1
    · exact funext₂ fun i j => ((hempty i).2 j).2.1
    · exact funext₂ fun i j => ((hempty i).2 j).2.2.2
    · exact funext₂ fun i j => ((hempty i).2 j).2.2.1
    · exact funext fun i => (hrow i).owner
  · cases hs : app.sys.asleep pid with
    | none => rfl
    | some a =>
      have := (h.reachable.sleepInv.pending pid a hs).1
      rw [hfree a] at this
      exact absurd this (by simp)

theorem ResourceInv.active_of_holds {s : RsmSharedState n m} (h : ResourceInv s) {i : Fin n}
    {j : Fin m} (hheld : 0 < s.allocation i j) : s.active i = true := by
  by_contra hne
  have := h.inactive_allocation (by simpa using hne) j
  omega

/-- In a stuck application that is not done somebody waits. -/
theorem AppInv.exists_active (h : AppInv existing avoid pids scripts app)
    (hexist : ∀ j, 0 ≤ existing j) (hinj : pids.Injective) (hstuck : app.Stuck pids)
    (hleft : ¬ app.Done) :
    ∃ i, app.sys.shared.active i = true := by
  rw [App.Done] at hleft
  push Not at hleft
  obtain ⟨i, hi⟩ := hleft
  obtain ⟨hsleep, -⟩ := h.waits hinj hstuck hi
  refine ⟨i, ?_⟩
  rw [← (h.reachable.resourceInv hexist).started_eq i]
  exact (h.reachable.sleepInv.pending _ i hsleep).1

/-- With avoidance a stuck application is done: the first process of a safe
ordering could go on. -/
theorem AppInv.done (h : AppInv existing true pids scripts app) (hexist : ∀ j, 0 ≤ existing j)
    (hinj : pids.Injective) (hstuck : app.Stuck pids) : app.Done := by
  by_contra hleft
  obtain ⟨i, hactive, hidle⟩ := exists_active_not_waiting (h.reachable.safeInv hexist)
    (h.reachable.grantInv hexist) (h.exists_active hexist hinj hstuck hleft)
  have := (h.waits hinj hstuck (h.rest_ne_nil hexist hactive)).2
  rw [hidle] at this
  exact absurd this (by simp)

/-- Who is left and holds something. -/
def App.holders (app : App n m) : Finset (Fin n) :=
  Finset.univ.filter fun i => app.rest i ≠ [] ∧ ∃ j, 0 < app.sys.shared.allocation i j

/-- Whoever holds something is active, and left. -/
theorem AppInv.mem_holders (h : AppInv existing avoid pids scripts app)
    (hexist : ∀ j, 0 ≤ existing j) {i : Fin n} {j : Fin m}
    (hheld : 0 < app.sys.shared.allocation i j) : i ∈ app.holders := by
  have hactive := (h.reachable.resourceInv hexist).active_of_holds hheld
  exact Finset.mem_filter.mpr ⟨Finset.mem_univ i, h.rest_ne_nil hexist hactive, j, hheld⟩

theorem AppInv.holder_active (h : AppInv existing avoid pids scripts app)
    (hexist : ∀ j, 0 ≤ existing j) {i : Fin n} (hi : i ∈ app.holders) :
    app.sys.shared.active i = true := by
  obtain ⟨-, -, j, hj⟩ := Finset.mem_filter.mp hi
  exact (h.reachable.resourceInv hexist).active_of_holds hj

/-- Without avoidance a request that waits is not available. -/
theorem AppInv.not_available (h : AppInv existing false pids scripts app)
    (hexist : ∀ j, 0 ≤ existing j) (hinj : pids.Injective) (hstuck : app.Stuck pids) {i : Fin n}
    (hactive : app.sys.shared.active i = true) :
    ∃ j, app.sys.shared.available j < app.sys.shared.request i j := by
  have hwait := (h.waits hinj hstuck (h.rest_ne_nil hexist hactive)).2
  by_contra hav
  push Not at hav
  refine (h.reachable.grantInv hexist).none_grantable i hactive hwait ⟨hav, fun hmode => ?_⟩
  rw [h.reachable.configured.avoid] at hmode
  exact absurd hmode (by simp)

/-- What a process waits for is held by somebody else. -/
theorem AppInv.exists_holder (h : AppInv existing false pids scripts app)
    (hexist : ∀ j, 0 ≤ existing j) (hinj : pids.Injective) (hstuck : app.Stuck pids) {i : Fin n}
    (hactive : app.sys.shared.active i = true) :
    ∃ j, 0 < app.sys.shared.request i j ∧ ∃ k, k ≠ i ∧ 0 < app.sys.shared.allocation k j := by
  have hres := h.reachable.resourceInv hexist
  obtain ⟨j, hj⟩ := h.not_available hexist hinj hstuck hactive
  refine ⟨j, (hres.available_nonneg j).trans_lt hj, ?_⟩
  obtain ⟨l, hl, hat⟩ := h.ledgers i
  -- the request and the allocation of `i` fit into what exists
  have hall := hres.conserved j
  rw [← Finset.add_sum_erase _ _ (Finset.mem_univ i), h.reachable.configured.existing] at hall
  have hpos : 0 < ∑ k ∈ Finset.univ.erase i, app.sys.shared.allocation k j := by
    have h₁ := hl.held j
    have h₂ := hat.fits hexist j
    omega
  by_contra hnone
  push Not at hnone
  exact absurd (Finset.sum_nonpos fun k hk => hnone k (Finset.ne_of_mem_erase hk))
    (not_le.mpr hpos)

theorem AppInv.other_holder (h : AppInv existing false pids scripts app)
    (hexist : ∀ j, 0 ≤ existing j) (hinj : pids.Injective) (hstuck : app.Stuck pids) {i : Fin n}
    (hactive : app.sys.shared.active i = true) : ∃ k ∈ app.holders, k ≠ i := by
  obtain ⟨j, -, k, hk, hheld⟩ := h.exists_holder hexist hinj hstuck hactive
  exact ⟨k, h.mem_holders hexist hheld, hk⟩

/-- The processes `rsm_detection` counts in a stuck application. -/
theorem AppInv.detection (h : AppInv existing false pids scripts app) (hexist : ∀ j, 0 ≤ existing j)
    (hinj : pids.Injective) (hstuck : app.Stuck pids) :
    rsmDetection app.sys.shared = app.holders.card := by
  have hres := h.reachable.resourceInv hexist
  obtain ⟨hmem, hgreatest⟩ := detection_greatest (s := app.sys.shared) hres.allocation_nonneg
  -- the holders are stuck: nobody else has anything to give
  have hholders : StuckSet app.sys.shared app.holders := by
    intro i hi
    obtain ⟨j, hj⟩ := h.not_available hexist hinj hstuck (h.holder_active hexist hi)
    refine ⟨h.holder_active hexist hi, (Finset.mem_filter.mp hi).2.2, j, ?_⟩
    rw [Finset.sum_eq_zero fun k hk => ?_, add_zero]
    · exact hj
    · by_contra hne
      exact (Finset.mem_filter.mp hk).2.2 (h.mem_holders hexist
        (lt_of_le_of_ne (hres.allocation_nonneg k j) (Ne.symm hne)))
  refine congrArg Finset.card (Finset.Subset.antisymm (fun i hi => ?_) (hgreatest hholders))
  obtain ⟨-, ⟨j, hj⟩, -⟩ := hmem i hi
  exact h.mem_holders hexist hj

end AppInv

/-! ## Disciplined applications -/

section Results

variable {existing : Vec m} {avoid : Bool} {pids : Fin n → Int}
  {scripts : Fin n → List (Call m)} {app app' : App n m} {k : Nat}

theorem AppRun.later (h : AppRun pids app k app') : Later app.sys app'.sys := by
  induction h with
  | refl => exact .refl
  | step _ hstep ih =>
    cases hstep with
    | call _ hstep => exact ih.tail ⟨_, hstep⟩
    | wake hstep => exact ih.tail ⟨_, hstep⟩

/-- The library refuses no call: it returns 0, or the caller goes to sleep. -/
def App.Accepted (pids : Fin n → Int) (app : App n m) : Prop :=
  ∀ i c cs, app.rest i = c :: cs → app.sys.asleep (pids i) = none →
    (c.run (pids i) (app.sys.gLocalApid (pids i)) app.sys.shared).outcome = .ret 0 ∨
    (c.run (pids i) (app.sys.gLocalApid (pids i)) app.sys.shared).outcome = .sleeping i

/-- All calls are made, nobody is blocked, and the segment is `s₀`. -/
structure App.Complete (s₀ : RsmSharedState n m) (app : App n m) : Prop where
  done : app.Done
  shared : app.sys.shared = s₀
  awake : ∀ pid, app.sys.asleep pid = none

/-- Somebody is left, and `rsm_detection` returns how many of those who are
left hold something. -/
structure App.Deadlock (app : App n m) : Prop where
  left : ¬ app.Done
  detection : rsmDetection app.sys.shared = app.holders.card
  two_le : 2 ≤ app.holders.card

theorem AppInv.allAccepted (h : AppInv existing avoid pids scripts app) (hinj : pids.Injective)
    (hexist : ∀ j, 0 ≤ existing j) : app.Accepted pids := by
  intro i c cs hrest hawake
  obtain ⟨l, hl, -⟩ := h.accepted hinj hexist hrest hawake
  exact hl.1

theorem AppInv.complete (h : AppInv existing avoid pids scripts app)
    (hexist : ∀ j, 0 ≤ existing j) (hdone : app.Done) :
    app.Complete (initialState n m existing avoid) :=
  ⟨hdone, (h.restored hexist hdone).1, (h.restored hexist hdone).2⟩

theorem AppInv.deadlock (h : AppInv existing false pids scripts app)
    (hexist : ∀ j, 0 ≤ existing j) (hinj : pids.Injective) (hstuck : app.Stuck pids)
    (hleft : ¬ app.Done) : app.Deadlock := by
  refine ⟨hleft, h.detection hexist hinj hstuck, ?_⟩
  obtain ⟨i, hi⟩ := h.exists_active hexist hinj hstuck hleft
  -- somebody else holds what `i` waits for, and waits for a third one, or for `i`
  obtain ⟨a, ha, -⟩ := h.other_holder hexist hinj hstuck hi
  obtain ⟨b, hb, hne⟩ := h.other_holder hexist hinj hstuck (h.holder_active hexist ha)
  exact Finset.one_lt_card.mpr ⟨a, ha, b, hb, Ne.symm hne⟩

theorem App.Complete.detection (h : app.Complete (initialState n m existing avoid)) :
    rsmDetection app.sys.shared = 0 := by
  rw [h.shared]
  refine Finset.card_eq_zero.mpr (Finset.filter_eq_empty_iff.mpr fun i _ hi => ?_)
  obtain ⟨hact, -⟩ := (detection_greatest (s := initialState n m existing avoid)
    (fun _ _ => le_rfl)).1 i (by simpa using hi)
  exact absurd hact (by simp [initialState])

/-- Without avoidance, what a later stuck application looks like, and what was
reported before. -/
theorem AppInv.detected (h : AppInv existing false pids scripts app)
    (hexist : ∀ j, 0 ≤ existing j) (hinj : pids.Injective) (hrun : AppRun pids app k app')
    (hstuck : app'.Stuck pids) :
    (app'.Complete (initialState n m existing false) ∧ rsmDetection app.sys.shared = 0) ∨
      app'.Deadlock := by
  have h' := h.run hinj hexist hrun
  by_cases hdone : app'.Done
  · left
    have hcomplete := h'.complete hexist hdone
    -- the result never goes down, and at the end it is 0
    have hmono := hrun.later.detection_le hexist h.reachable
    rw [hcomplete.detection] at hmono
    exact ⟨hcomplete, by omega⟩
  · exact .inr (h'.deadlock hexist hinj hstuck hdone)

theorem AppRun.inv (hscripts : ∀ i : Fin n, Disciplined avoid existing i (scripts i))
    (hinj : pids.Injective) (hexist : ∀ j, 0 ≤ existing j)
    (hrun : AppRun pids (App.start (initialState n m existing avoid) scripts) k app) :
    AppInv existing avoid pids scripts app :=
  (AppInv.start hscripts).run hinj hexist hrun

theorem AppRun.length_le {s₀ : RsmSharedState n m} (hinj : pids.Injective)
    (hrun : AppRun pids (App.start s₀ scripts) k app) :
    k ≤ 2 * ∑ i, (scripts i).length := by
  have := hrun.weight_add hinj
  rw [weight_start] at this
  omega

end Results

/--
**With avoidance every disciplined application completes.** Whatever the
interleaving, no call is refused and no deadlock is reported; a run has at
most two steps for each call of the scripts; and where it cannot go on, every
process has made all its calls, nobody is blocked, and the segment is the one
`rsm_init` made.
-/
theorem clients_complete {pCount rCount : Int} {exist : Vec rCount.toNat}
    {s₀ : RsmSharedState pCount.toNat rCount.toNat}
    (hinit : rsmInit pCount rCount exist 1 = some s₀) {pids : Fin pCount.toNat → Int}
    (hinj : pids.Injective) {scripts : Fin pCount.toNat → List (Call rCount.toNat)}
    (hscripts : ∀ i : Fin pCount.toNat, Disciplined true exist i (scripts i)) {k : Nat}
    {app : App pCount.toNat rCount.toNat} (hrun : AppRun pids (App.start s₀ scripts) k app) :
    k ≤ 2 * ∑ i, (scripts i).length ∧ app.Accepted pids ∧ rsmDetection app.sys.shared = 0 ∧
    (app.Stuck pids → app.Complete s₀) := by
  obtain ⟨rfl, hexist⟩ := rsmInit_eq_some hinit
  have hinv := hrun.inv hscripts hinj hexist
  exact ⟨hrun.length_le hinj, hinv.allAccepted hinj hexist,
    (hinv.reachable.safeInv hexist).detection,
    fun hstuck => hinv.complete hexist (hinv.done hexist hinj hstuck)⟩

/-- Two processes that take the resources 0 and 1 in opposite orders. -/
def demoScripts (avoid : Bool) : Fin 2 → List (Call 2) := fun i =>
  [.processStarted i.val] ++ (if avoid then [.claim fun _ => 1] else []) ++
    [.request fun j => if j = i then 1 else 0, .request fun j => if j = i then 0 else 1,
      .release fun _ => 1, .processEnded]

/-- The processes 10 and 11 run these scripts, with the given turns. -/
def demoApp (avoid : Bool) (turns : List (Fin 2)) : App 2 2 :=
  turns.foldl (App.turn ![10, 11])
    (App.start (initialState 2 2 (fun _ => 1) avoid) (demoScripts avoid))

theorem demoScripts_disciplined :
    ∀ avoid, ∀ i : Fin 2, Disciplined avoid (fun _ => 1) i (demoScripts avoid i) := by
  decide

theorem demoPids_injective : Function.Injective (![10, 11] : Fin 2 → Int) := by decide

/-- With avoidance the second process is made to wait, and both complete. -/
theorem clients_complete_demo :
    (demoApp true [0, 0, 0, 1, 1, 1, 0, 0, 0, 1, 1, 1, 1]).Complete
      (initialState 2 2 (fun _ => 1) true) := by
  obtain ⟨k, hrun⟩ := App.turns_run ![10, 11]
    (App.start (initialState 2 2 (fun _ => 1) true) (demoScripts true))
    [0, 0, 0, 1, 1, 1, 0, 0, 0, 1, 1, 1, 1]
  exact (clients_complete (rsmInit_demo true) demoPids_injective (demoScripts_disciplined true)
    hrun).2.2.2 (App.stuck_of_turns (by decide) (by decide))

/--
**Without avoidance the monitor is right about a disciplined application.** No
call is refused, and runs are as short. Where a run cannot go on, either every
process has made all its calls, the segment is the one `rsm_init` made and
`rsm_detection` has returned 0 all along; or it returns the number of
processes that are left and hold something, which is two at least.
-/
theorem clients_detected {pCount rCount : Int} {exist : Vec rCount.toNat}
    {s₀ : RsmSharedState pCount.toNat rCount.toNat}
    (hinit : rsmInit pCount rCount exist 0 = some s₀) {pids : Fin pCount.toNat → Int}
    (hinj : pids.Injective) {scripts : Fin pCount.toNat → List (Call rCount.toNat)}
    (hscripts : ∀ i : Fin pCount.toNat, Disciplined false exist i (scripts i)) {k : Nat}
    {app : App pCount.toNat rCount.toNat} (hrun : AppRun pids (App.start s₀ scripts) k app) :
    k ≤ 2 * ∑ i, (scripts i).length ∧ app.Accepted pids ∧
    ∀ k' app', AppRun pids app k' app' → app'.Stuck pids →
      (app'.Complete s₀ ∧ rsmDetection app.sys.shared = 0) ∨ app'.Deadlock := by
  obtain ⟨rfl, hexist⟩ := rsmInit_eq_some hinit
  have hinv := hrun.inv hscripts hinj hexist
  exact ⟨hrun.length_le hinj, hinv.allAccepted hinj hexist,
    fun k' app' hrun' hstuck => hinv.detected hexist hinj hrun' hstuck⟩

/-- Without avoidance the same scripts can end in a circular wait. -/
theorem clients_detected_demo :
    (demoApp false [0, 0, 1, 1, 0, 1]).Deadlock := by
  obtain ⟨k, hrun⟩ := App.turns_run ![10, 11]
    (App.start (initialState 2 2 (fun _ => 1) false) (demoScripts false)) [0, 0, 1, 1, 0, 1]
  refine ((clients_detected (rsmInit_demo false) demoPids_injective
    (demoScripts_disciplined false) hrun).2.2 0 _ .refl
    (App.stuck_of_turns (by decide) (by decide))).resolve_left fun h => ?_
  exact absurd (h.1.done (0 : Fin 2)) (by decide)

end OsProjects.Rsm
