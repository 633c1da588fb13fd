import OsProjects.Rsm.Safety

/-!
# Resource manager — no lost grant

A waiting request is *grantable* when it is available and, in avoidance mode,
granting it leaves a safe state. Only `rsm_release` and `rsm_process_ended`
rescan the waiting processes; nevertheless no reachable state has a grantable
request, because the other calls never make a request grantable
(`QuietEffect.grantable_before`): they take resources, add claims or add
processes, and safety of a hypothetical grant is antitone in all of these.

Main results: `reachable_not_grantable`, `trySatisfyWaiting_terminates`.
-/

namespace OsProjects.Rsm

open Completion

variable {n m : Nat} {s : RsmSharedState n m}

/-- The request of `i` could be granted now. -/
def Grantable (s : RsmSharedState n m) (i : Fin n) : Prop :=
  (∀ j, s.request i j ≤ s.available j) ∧
    (s.avoidEnabled = true → Safe (grant s i (s.request i)))

/-- No active waiting process is grantable. -/
def NoneGrantable (s : RsmSharedState n m) : Prop :=
  ∀ i, s.active i = true → s.waiting i = true → ¬ Grantable s i

/-- The test of the code agrees with the definition. -/
theorem canGrant_iff_grantable (h : ResourceInv s) (i : Fin n) :
    CanGrant s i (s.request i) ↔ Grantable s i := by
  unfold CanGrant Grantable
  cases hav : s.avoidEnabled with
  | false => simp
  | true =>
    -- in avoidance mode the two sides differ in the safety test only
    rw [isSafe_iff h hav i (s.request i) (h.rows i).request_nonneg]
    tauto

/-! ## The rescan -/

theorem waitingCount_lt {i : Fin n} {s' : RsmSharedState n m}
    (h : grantWaiting i s = some s') : waitingCount s' < waitingCount s := by
  obtain ⟨⟨hw, -, -⟩, rfl⟩ := grantWaiting_eq_some.mp h
  -- the waiting set loses `i` and nothing else
  refine Finset.card_lt_card ((Finset.ssubset_iff_of_subset ?_).mpr ⟨i, ?_, ?_⟩)
  · intro k hk
    rw [Finset.mem_filter] at hk ⊢
    by_cases hki : k = i
    · simp [hki, grantAndWake] at hk
    · simpa [grantAndWake, hki] using hk
  · simpa using hw
  · rw [Finset.mem_filter]
    simp [grantAndWake]

/-- The rescan grants until nothing is grantable. -/
theorem trySatisfyWaiting_noneGrantable (h : ResourceInv s) :
    NoneGrantable (trySatisfyWaiting s) := by
  intro i hact hw hg
  have hcan := (canGrant_iff_grantable h.trySatisfyWaiting i).mpr hg
  -- a grantable process would have been granted in the last pass
  have hquiet := Scan.loop_quiet grantWaiting waitingCount
    (fun _ _ _ => waitingCount_lt) (List.finRange n) s i (List.mem_finRange i)
  have hsome := grantWaiting_eq_some.mpr ⟨⟨hw, hact, hcan⟩, rfl⟩
  rw [trySatisfyWaiting, hquiet] at hsome
  exact absurd hsome (by simp)

/-! ## The calls without a rescan -/

/-- Dropping an inactive process with an empty allocation from an ordering. -/
theorem Safe.of_start {s s' : RsmSharedState n m} (h : Safe s') {a : Fin n}
    (hinactive : s.active a = false) (hact : s'.active = Function.update s.active a true)
    (havail : s'.available = s.available) (halloc : s'.allocation = s.allocation)
    (hneed : s'.need = s.need) (hempty : s.allocation a = 0) : Safe s := by
  obtain ⟨order, hnodup, hmem, hc⟩ := h
  rw [havail, halloc, hneed] at hc
  -- without `a` the ordering is shorter, and `a` handed nothing back
  refine ⟨order.filter fun i => decide (i ≠ a), hnodup.filter _, fun i => ?_,
    hc.filter fun i _ hi => ?_⟩
  · rw [List.mem_filter, hmem, hact]
    by_cases hi : i = a
    · simp [hi, hinactive]
    · simp [hi]
  · rwa [show i = a by simpa using hi]

/-- A grant to `i` commutes with taking back a grant to `a`. -/
theorem Safe.of_grant (havoid : s.avoidEnabled = true) {a i : Fin n} (hia : i ≠ a)
    {req ri : Vec m} (hnonneg : ∀ j, 0 ≤ req j)
    (h : Safe (grant (grant (recordRequest s a req) a req) i ri)) : Safe (grant s i ri) := by
  -- safety survives a release, so hand `req` back and compare the matrices
  have hback : Safe (Rsm.giveBack _ a req) := h.giveBack havoid hnonneg
  refine hback.congr rfl ?_ ?_ ?_
  · funext j
    simp only [Rsm.giveBack, grant, recordRequest]
    omega
  · funext k j
    by_cases hka : k = a
    · subst hka
      simp [Rsm.giveBack, grant, recordRequest, Ne.symm hia]
    · by_cases hki : k = i
      · subst hki
        simp [Rsm.giveBack, grant, recordRequest, hka]
      · simp [Rsm.giveBack, grant, recordRequest, hka, hki]
  · funext k j
    by_cases hka : k = a
    · subst hka
      simp [Rsm.giveBack, grant, recordRequest, havoid, Ne.symm hia]
    · by_cases hki : k = i
      · subst hki
        simp [Rsm.giveBack, grant, recordRequest, havoid, hka]
      · simp [Rsm.giveBack, grant, recordRequest, havoid, hka, hki]

/-- **Antitonicity.** A call that does not rescan never turns a waiting
request that was not grantable into a grantable one. -/
theorem QuietEffect.grantable_before (h : ResourceInv s) {s' : RsmSharedState n m}
    (heff : QuietEffect s s') {i : Fin n} (hw : s.waiting i = true) (hg : Grantable s' i) :
    Grantable s i := by
  obtain ⟨hle, hsafe⟩ := hg
  cases heff with
  | unchanged => exact ⟨hle, hsafe⟩
  | woken sem => exact ⟨hle, fun hav => (hsafe hav).congr rfl rfl rfl rfl⟩
  | started pid a hfree =>
    have hinactive : s.active a = false := by rw [← h.started_eq a, hfree]
    obtain ⟨hidle, hrow⟩ := (h.rows a).inactive hinactive
    -- the id was free, so it is not the one that waits
    have hia : i ≠ a := by
      rintro rfl
      exact absurd (hidle.symm.trans hw) (by simp)
    have hreq : (startProcess s pid a).request i = s.request i := by simp [startProcess, hia]
    rw [hreq] at hle hsafe
    refine ⟨hle, fun hav => (hsafe hav).of_start (a := a) hinactive rfl rfl rfl rfl ?_⟩
    funext j
    have hempty : s.allocation a j = 0 := (hrow j).1
    simpa [grant, Ne.symm hia] using hempty
  | claimed a v _ hidle hnonneg _ hnew _ =>
    have hia : i ≠ a := by
      rintro rfl
      exact absurd (hidle.symm.trans hw) (by simp)
    refine ⟨hle, ?_⟩
    intro hav
    obtain ⟨order, hnodup, hmem, hc⟩ := hsafe hav
    refine ⟨order, hnodup, hmem, hc.imp fun pre k post _ hserved => le_trans (fun j => ?_) hserved⟩
    -- the claim can only have raised the need of `a`, which was zero
    have hav' : (recordClaim s a v).avoidEnabled = true := hav
    rw [grant_need hav, grant_need hav']
    by_cases hka : k = a
    · subst hka
      have h₀ : s.need k j = 0 := (h.unclaimed_rows hav hnew j).2
      have h₁ := hnonneg j
      simp only [safeNeed, recordClaim, Function.update_self, Ne.symm hia, if_false, h₀]
      omega
    · simp [safeNeed, recordClaim, hka]
  | granted a req hidle hok _ =>
    have hnonneg := hok.nonneg
    have hia : i ≠ a := by
      rintro rfl
      exact absurd (hidle.symm.trans hw) (by simp)
    have hreq : (grant (recordRequest s a req) a req).request i = s.request i := by
      simp [grant, recordRequest, hia]
    rw [hreq] at hle hsafe
    refine ⟨fun j => (hle j).trans ?_, fun hav => Safe.of_grant hav hia hnonneg (hsafe hav)⟩
    have := hnonneg j
    simp only [grant, recordRequest]
    omega
  | waits a req hidle _ _ =>
    have hia : i ≠ a := by
      rintro rfl
      exact absurd (hidle.symm.trans hw) (by simp)
    rw [request_setWaiting_of_ne hia] at hle hsafe
    exact ⟨hle, fun hav => (hsafe hav).congr rfl rfl rfl rfl⟩

/-! ## Reachable states -/

/-- The invariant that carries `NoneGrantable`. -/
structure GrantInv (s : RsmSharedState n m) : Prop extends ResourceInv s where
  none_grantable : NoneGrantable s

/-- A process that goes to sleep is not grantable: it has just failed the
test. -/
theorem GrantInv.setWaiting (h : GrantInv s) {a : Fin n} {req : Vec m}
    (hidle : s.waiting a = false) (hok : RequestOk s a req)
    (hcannot : ¬ CanGrant (recordRequest s a req) a req) :
    GrantInv (setWaiting (recordRequest s a req) a) := by
  have hres := h.toResourceInv.setWaiting hok
  refine ⟨hres, ?_⟩
  intro i hact hw hg
  by_cases hia : i = a
  · subst hia
    -- the caller itself
    refine hcannot ?_
    have hcan := (canGrant_iff_grantable hres i).mpr hg
    rw [request_setWaiting_self] at hcan
    exact hcan
  · have hw' : s.waiting i = true := (waiting_setWaiting_of_ne hia).symm.trans hw
    exact h.none_grantable i hact hw' ((QuietEffect.waits a req hidle hok hcannot).grantable_before
      h.toResourceInv hw' hg)

theorem GrantInv.quiet (h : GrantInv s) {s' : RsmSharedState n m} (heff : QuietEffect s s') :
    GrantInv s' := by
  have hkeep : (∀ i, s'.waiting i = true → s.waiting i = true) →
      (∀ i, s'.waiting i = true → s'.active i = true → s.active i = true) → GrantInv s' :=
    fun hw hact => ⟨h.toResourceInv.quiet heff, fun i hacti hwi hg =>
      h.none_grantable i (hact i hwi hacti) (hw i hwi)
        (heff.grantable_before h.toResourceInv (hw i hwi) hg)⟩
  -- only `waits` adds a waiting process; for the others antitonicity is enough
  cases heff with
  | unchanged => exact h
  | started pid a hfree =>
    refine hkeep (fun i hi => ?_) (fun i hi hacti => ?_)
    all_goals
      have hia : i ≠ a := by
        rintro rfl
        simp [startProcess] at hi
    · simpa [startProcess, hia] using hi
    · simpa [startProcess, hia] using hacti
  | claimed a v _ _ _ _ _ _ => exact hkeep (fun _ hi => hi) (fun _ _ hi => hi)
  | granted a req _ _ _ => exact hkeep (fun _ hi => hi) (fun _ _ hi => hi)
  | waits a req hidle hok hcannot => exact h.setWaiting hidle hok hcannot
  | woken sem => exact hkeep (fun _ hi => hi) (fun _ _ hi => hi)

theorem GrantInv.effect {s' : RsmSharedState n m} (heff : Effect s s') (h : GrantInv s) :
    GrantInv s' := by
  have hres := h.toResourceInv.effect heff
  cases heff with
  | quiet hq => exact h.quiet hq
  | ended a _ _ => exact ⟨hres, trySatisfyWaiting_noneGrantable (h.endProcess a)⟩
  | released a rel hactive hidle hnonneg hle =>
    exact ⟨hres, trySatisfyWaiting_noneGrantable
      (h.toResourceInv.giveBack hactive hidle hnonneg hle)⟩

theorem Reachable.grantInv {exist : Vec m} {avoid : Bool} {sys : System n m}
    (hexist : ∀ j, 0 ≤ exist j) (h : Reachable (initialState n m exist avoid) sys) :
    GrantInv sys.shared :=
  h.shared_induction (P := GrantInv)
    ⟨ResourceInv.initial avoid hexist, fun i hi => by simp [initialState] at hi⟩
    fun _ _ heff hs => hs.effect heff

/--
**No lost grant.** In either mode, in every reachable state,

1. no active waiting process is grantable;
2. a call that does not rescan, or that fails, makes no waiting request
   grantable that was not;
3. a rescan ends, after at most one pass more than there are waiting
   processes.
-/
theorem reachable_not_grantable {pCount rCount avoid : Int} {exist : Vec rCount.toNat}
    {s₀ : RsmSharedState pCount.toNat rCount.toNat}
    (hinit : rsmInit pCount rCount exist avoid = some s₀)
    {sys : System pCount.toNat rCount.toNat} (h : Reachable s₀ sys) :
    (∀ i, sys.shared.active i = true → sys.shared.waiting i = true →
      ¬ Grantable sys.shared i) ∧
    (∀ pid (c : Call rCount.toNat), sys.asleep pid = none →
      c.rescans = false ∨
        (c.run pid (sys.gLocalApid pid) sys.shared).outcome = .ret (-1) →
      ∀ i, sys.shared.waiting i = true → ¬ Grantable sys.shared i →
        ¬ Grantable (sys.call pid c).shared i) ∧
    (∀ s : RsmSharedState pCount.toNat rCount.toNat, ∃ passes ≤ waitingCount s + 1,
      Scan.Passes grantWaiting (List.finRange pCount.toNat) passes s (trySatisfyWaiting s)) := by
  obtain ⟨rfl, hexist⟩ := rsmInit_eq_some hinit
  have hinv := Reachable.grantInv hexist h
  refine ⟨hinv.none_grantable, fun pid c hawake hc i hw hno hg => hno ?_, fun s =>
    Scan.loop_passes (fun _ _ _ => waitingCount_lt) _ s⟩
  rcases hc with hc | hfail
  -- a call without a rescan
  · have hquiet := (Call.run_quiet hc pid (sys.gLocalApid pid) sys.shared).effect
      (fun a ho => h.sleepInv.caller_not_waiting hawake ho)
    exact hquiet.grantable_before hinv.toResourceInv hw hg
  -- a call that fails
  · have hsame : (sys.call pid c).shared = sys.shared := Call.run_failed hfail
    rwa [hsame] at hg

/-- In the demo scenario P1 waits although its unit is available. -/
theorem reachable_not_grantable_demo :
    (demoSystem true).shared.available 1 = 1 ∧ ¬ Grantable (demoSystem true).shared 1 :=
  ⟨by decide, (reachable_not_grantable (rsmInit_demo true) (demoSystem_reachable true)).1
    (1 : Fin 2) (by decide) (by decide)⟩

end OsProjects.Rsm
