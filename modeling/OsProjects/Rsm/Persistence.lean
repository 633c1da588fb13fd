import OsProjects.Rsm.Exact
import OsProjects.Rsm.Wakeup

/-!
# Resource manager — deadlocks are permanent

A stuck set is a matter of the rows of its members: each of them asks for more
of some resource than exists outside the set (`stuckSet_iff_existing`). Its
members wait, so they make no call; nobody else writes their rows; and a
rescan grants none of them. So whatever the other processes do from then on
(`Later`), the set stays stuck, its members stay blocked, and the result of
`rsm_detection` never goes down (`stuck_forever`).
-/

namespace OsProjects.Rsm

open Completion Reduction

variable {n m : Nat}

/-- `sys'` is a later state of a run through `sys`. -/
def Later : System n m → System n m → Prop :=
  Relation.ReflTransGen fun sys sys' => ∃ e, Step sys e sys'

theorem Later.reachable {s₀ : RsmSharedState n m} {sys sys' : System n m}
    (hr : Reachable s₀ sys) (h : Later sys sys') : Reachable s₀ sys' := by
  induction h with
  | refl => exact hr
  | tail _ hstep ih =>
    obtain ⟨e, hstep⟩ := hstep
    exact .step ih hstep

/-! ## Stuck sets in terms of what exists -/

variable {s t : RsmSharedState n m} {D : Finset (Fin n)}

/-- What is available and held outside `D` is what exists, less what `D`
holds. -/
theorem ResourceInv.available_outside (h : ResourceInv s) (D : Finset (Fin n)) (j : Fin m) :
    s.available j + ∑ k with s.active k = true ∧ k ∉ D, s.allocation k j =
      s.existing j - ∑ k ∈ D, s.allocation k j := by
  -- whoever is not active holds nothing, so the sum may run over all outside `D`
  have hactive : ∑ k with s.active k = true ∧ k ∉ D, s.allocation k j =
      ∑ k ∈ Dᶜ, s.allocation k j := by
    refine Finset.sum_subset (fun k hk => ?_) fun k hk hk' => ?_
    · simp only [Finset.mem_filter] at hk
      exact Finset.mem_compl.mpr hk.2.2
    · refine h.inactive_allocation ?_ j
      simp only [Finset.mem_compl] at hk
      simpa [hk] using hk'
  have hsplit := Finset.sum_add_sum_compl D fun k => s.allocation k j
  have hall := h.conserved j
  omega

theorem stuckSet_iff_existing (h : ResourceInv s) : StuckSet s D ↔
    ∀ i ∈ D, s.active i = true ∧ (∃ j, 0 < s.allocation i j) ∧
      ∃ j, s.existing j < s.request i j + ∑ k ∈ D, s.allocation k j := by
  refine forall₂_congr fun i _ => and_congr_right' (and_congr_right' (exists_congr fun j => ?_))
  rw [h.available_outside D j, sub_lt_iff_lt_add]

/-- A member of a stuck set waits. -/
theorem StuckSet.waiting (h : ResourceInv s) (hD : StuckSet s D) {i : Fin n} (hi : i ∈ D) :
    s.waiting i = true := by
  obtain ⟨-, -, j, hj⟩ := hD i hi
  by_contra hw
  have hzero := h.idle_request (by simpa using hw) j
  have hav := h.available_nonneg j
  have hrest : 0 ≤ ∑ k with s.active k = true ∧ k ∉ D, s.allocation k j :=
    Finset.sum_nonneg fun k _ => h.allocation_nonneg k j
  omega

/-- The request of a member is not available. -/
theorem StuckSet.not_available (h : ResourceInv s) (hD : StuckSet s D) {i : Fin n}
    (hi : i ∈ D) : ¬ ∀ j, s.request i j ≤ s.available j := by
  obtain ⟨-, -, j, hj⟩ := hD i hi
  have hrest : 0 ≤ ∑ k with s.active k = true ∧ k ∉ D, s.allocation k j :=
    Finset.sum_nonneg fun k _ => h.allocation_nonneg k j
  intro hav
  have := hav j
  omega

/-! ## Nothing changes the rows of a stuck set -/

/-- `t` has the rows of the members of `D`, and their owners, from `s`. -/
structure SameRows (D : Finset (Fin n)) (s t : RsmSharedState n m) : Prop where
  row : ∀ i ∈ D, t.row i = s.row i
  owner : ∀ i ∈ D, t.apidToPid i = s.apidToPid i
  existing : t.existing = s.existing

theorem SameRows.refl (D : Finset (Fin n)) (s : RsmSharedState n m) : SameRows D s s :=
  ⟨fun _ _ => rfl, fun _ _ => rfl, rfl⟩

theorem SameRows.trans {u : RsmSharedState n m} (h : SameRows D s t) (h' : SameRows D t u) :
    SameRows D s u where
  row i hi := (h'.row i hi).trans (h.row i hi)
  owner i hi := (h'.owner i hi).trans (h.owner i hi)
  existing := h'.existing.trans h.existing

/-- An update of the row of an id outside `D`. -/
theorem SameRows.of_process {a : Fin n} (ha : a ∉ D)
    (hother : ∀ b, b ≠ a → t.process b = s.process b) (hex : t.existing = s.existing) :
    SameRows D s t := by
  have hne : ∀ i ∈ D, i ≠ a := by
    rintro i hi rfl
    exact ha hi
  refine ⟨fun i hi => ?_, fun i hi => congrArg ProcessRow.apidToPid (hother i (hne i hi)), hex⟩
  have hp := hother i (hne i hi)
  simp only [RsmSharedState.process, ProcessRow.mk.injEq] at hp
  simp [RsmSharedState.row, hp]

theorem StuckSet.sameRows (h : ResourceInv s) (h' : ResourceInv t) (hD : StuckSet s D)
    (hrows : SameRows D s t) : StuckSet t D := by
  rw [stuckSet_iff_existing h] at hD
  rw [stuckSet_iff_existing h']
  have hrow : ∀ i ∈ D, t.active i = s.active i ∧ t.allocation i = s.allocation i ∧
      t.request i = s.request i := fun i hi =>
    ⟨congrArg Row.active (hrows.row i hi), congrArg Row.allocation (hrows.row i hi),
      congrArg Row.request (hrows.row i hi)⟩
  intro i hi
  obtain ⟨hact, hholds, j, hj⟩ := hD i hi
  obtain ⟨hact', halloc, hreq⟩ := hrow i hi
  refine ⟨hact'.trans hact, by rwa [halloc], j, ?_⟩
  have hsum : ∑ k ∈ D, t.allocation k j = ∑ k ∈ D, s.allocation k j :=
    Finset.sum_congr rfl fun k hk => by rw [(hrow k hk).2.1]
  rwa [hrows.existing, hreq, hsum]

/-- A rescan grants no member of a stuck set. -/
theorem StuckSet.trySatisfyWaiting (h : ResourceInv s) (hD : StuckSet s D) :
    SameRows D s (trySatisfyWaiting s) := by
  have hpres := trySatisfyWaiting_preserves (s := s)
    (P := fun t => ResourceInv t ∧ SameRows D s t) (fun i t hw hact hcan ht => ?_)
    ⟨h, SameRows.refl D s⟩
  · exact hpres.2
  -- a grant goes to an available request, so not to a member of `D`
  · have hi : i ∉ D := fun hi => (hD.sameRows h ht.1 ht.2).not_available ht.1 hi hcan.1
    exact ⟨ht.1.grantAndWake hw hact hcan,
      ht.2.trans (.of_process hi (fun _ hb => process_grantAndWake_of_ne hb) rfl)⟩

/-- **No step touches a stuck set.** -/
theorem StuckSet.effect (h : ResourceInv s) (hD : StuckSet s D) (heff : Effect s t) :
    SameRows D s t := by
  -- whoever makes a call is not waiting, so not a member
  have hcaller : ∀ {a}, s.waiting a = false → a ∉ D := fun hidle ha =>
    absurd (hD.waiting h ha) (by simp [hidle])
  cases heff with
  | quiet hquiet =>
    cases hquiet with
    | unchanged => exact .refl D s
    | started pid a hfree =>
      have ha : a ∉ D := fun ha => by
        have hact := (hD a ha).1
        rw [← h.started_eq a, hfree] at hact
        exact absurd hact (by simp)
      exact .of_process ha (fun _ hb => process_startProcess_of_ne hb pid) rfl
    | claimed a v _ hidle _ _ _ _ =>
      exact .of_process (hcaller hidle) (fun _ hb => process_recordClaim_of_ne hb v) rfl
    | granted a req hidle _ _ =>
      refine .of_process (hcaller hidle) (fun b hb => ?_) rfl
      rw [process_grant_of_ne hb, process_recordRequest_of_ne hb]
    | waits a req hidle _ _ =>
      refine .of_process (hcaller hidle) (fun b hb => ?_) rfl
      rw [process_setWaiting_of_ne hb, process_recordRequest_of_ne hb]
    | woken sem => exact ⟨fun _ _ => rfl, fun _ _ => rfl, rfl⟩
  | ended a _ hidle =>
    have hmid : SameRows D s (endProcess s a) :=
      .of_process (hcaller hidle) (fun _ hb => process_endProcess_of_ne hb) rfl
    have hres := h.endProcess a
    exact hmid.trans ((hD.sameRows h hres hmid).trySatisfyWaiting hres)
  | released a rel hactive hidle hnonneg hle =>
    have hmid : SameRows D s (giveBack s a rel) :=
      .of_process (hcaller hidle) (fun _ hb => process_giveBack_of_ne hb rel) rfl
    have hres := h.giveBack hactive hidle hnonneg hle
    exact hmid.trans ((hD.sameRows h hres hmid).trySatisfyWaiting hres)

/-! ## Runs -/

theorem StuckSet.later {exist : Vec m} {avoid : Bool} {sys sys' : System n m}
    (hexist : ∀ j, 0 ≤ exist j) (hr : Reachable (initialState n m exist avoid) sys)
    (hD : StuckSet sys.shared D) (h : Later sys sys') :
    SameRows D sys.shared sys'.shared := by
  induction h with
  | refl => exact .refl D _
  | @tail mid sys' hmid hstep ih =>
    obtain ⟨e, hstep⟩ := hstep
    have hmr := Later.reachable hr hmid
    have hres := hmr.resourceInv hexist
    have hDmid := hD.sameRows (hr.resourceInv hexist) hres ih
    exact ih.trans (hDmid.effect hres (hstep.effect hmr.sleepInv))

/-- The result of `rsm_detection` never goes down. -/
theorem Later.detection_le {exist : Vec m} {avoid : Bool} {sys sys' : System n m}
    (hexist : ∀ j, 0 ≤ exist j) (hr : Reachable (initialState n m exist avoid) sys)
    (h : Later sys sys') : rsmDetection sys.shared ≤ rsmDetection sys'.shared := by
  have hres := hr.resourceInv hexist
  have hres' := (h.reachable hr).resourceInv hexist
  -- the largest stuck set of the first state is one of the later state
  obtain ⟨hstuck, -⟩ := detection_greatest hres.allocation_nonneg
  exact Finset.card_le_card ((detection_greatest hres'.allocation_nonneg).2
    (hstuck.sameRows hres hres' (hstuck.later hexist hr h)))

/-- A member of a stuck set is inside `sem_wait`, and its semaphore has no
token. -/
theorem StuckSet.asleep {exist : Vec m} {avoid : Bool} {sys : System n m}
    (hexist : ∀ j, 0 ≤ exist j) (hr : Reachable (initialState n m exist avoid) sys)
    (hD : StuckSet sys.shared D) {i : Fin n} (hi : i ∈ D) :
    sys.asleep (sys.shared.apidToPid i) = some i ∧ sys.shared.processSem i = 0 := by
  have hw := hD.waiting (hr.resourceInv hexist) hi
  have hsleep : sys.asleep (sys.shared.apidToPid i) = some i := by
    by_contra hne
    have := (hr.sleepInv.idle i hne).1
    rw [hw] at this
    exact absurd this (by simp)
  refine ⟨hsleep, ?_⟩
  rcases (hr.sleepInv.pending _ i hsleep).2.2 with ⟨-, hsem⟩ | ⟨hidle, -⟩
  · exact hsem
  · rw [hw] at hidle
    exact absurd hidle (by simp)

/--
**A deadlock is permanent.** Take any reachable state, in either mode, and any
later state of the same run. `rsm_detection` returns at least as much in the
later state. A set that is stuck stays stuck, and each of its members is
blocked in `sem_wait` all along: it holds and requests what it did, and it
cannot wake up.
-/
theorem stuck_forever {pCount rCount avoid : Int} {exist : Vec rCount.toNat}
    {s₀ : RsmSharedState pCount.toNat rCount.toNat}
    (hinit : rsmInit pCount rCount exist avoid = some s₀)
    {sys sys' : System pCount.toNat rCount.toNat} (h : Reachable s₀ sys)
    (hlater : Later sys sys') :
    rsmDetection sys.shared ≤ rsmDetection sys'.shared ∧
    ∀ D, StuckSet sys.shared D → StuckSet sys'.shared D ∧ ∀ i ∈ D, ∃ pid,
      sys.asleep pid = some i ∧ sys'.asleep pid = some i ∧
      sys'.shared.allocation i = sys.shared.allocation i ∧
      sys'.shared.request i = sys.shared.request i ∧
      ¬ ∃ sys'', Step sys' (.wake pid) sys'' := by
  obtain ⟨rfl, hexist⟩ := rsmInit_eq_some hinit
  have hr' := hlater.reachable h
  have hres := h.resourceInv hexist
  have hres' := hr'.resourceInv hexist
  have hkept : ∀ D, StuckSet sys.shared D → StuckSet sys'.shared D := fun D hD =>
    hD.sameRows hres hres' (hD.later hexist h hlater)
  refine ⟨hlater.detection_le hexist h, fun D hD => ⟨hkept D hD, fun i hi => ?_⟩⟩
  have hrows := hD.later hexist h hlater
  obtain ⟨hsleep, -⟩ := hD.asleep hexist h hi
  obtain ⟨hsleep', hsem'⟩ := (hkept D hD).asleep hexist hr' hi
  rw [hrows.owner i hi] at hsleep'
  refine ⟨_, hsleep, hsleep', congrArg Row.allocation (hrows.row i hi),
    congrArg Row.request (hrows.row i hi), ?_⟩
  rw [exists_wake_iff hsleep', hsem']
  exact lt_irrefl 0

/-- In the circular wait of the demo scenario both stay blocked while a third
process, which owns no id, makes a call. -/
theorem stuck_forever_demo :
    2 ≤ rsmDetection (demoDeadlock.call 12 (.release fun _ => 0)).shared :=
  (stuck_forever (rsmInit_demo false) demoDeadlock_reachable
    (.single ⟨_, .call (.release fun _ => 0) rfl⟩)).1.trans' (by decide)

end OsProjects.Rsm
