import OsProjects.Rsm.Progress

/-!
# Resource manager — deadlock detection is exact

Without avoidance, take any reachable state and let the processes that can
go on only end, until every process that is still active waits. Then the
processes that are still active and hold something are exactly those that
`rsm_detection` left unfinished in the first state
(`reachable_detection_exact`).

* None of the reported processes is ever granted: what the others hold never
  covers the request of a reported process (`Stuck`).
* Nobody else stays stuck: the first process of the reduction that still
  waits could be granted, because everybody before it has ended and given
  back what it held.
-/

namespace OsProjects.Rsm

open Completion Reduction

variable {n m : Nat}

/-- `rsm_detection` leaves `i` with `finish[i] = 0`. -/
def Deadlocked (s : RsmSharedState n m) (i : Fin n) : Prop :=
  (detectionFinal s).finish i = false

/-- What the reduction of a snapshot establishes: an order `done` in which
processes could finish, covering every holder that is not reported, and for
each reported process a request that even then is not covered. -/
theorem detection_spec (s : RsmSharedState n m) :
    ∃ done : List (Fin n), done.Nodup ∧ Completes s.request s.allocation s.available done ∧
      (∀ i, s.active i = true → holds s i = true → ¬ Deadlocked s i → i ∈ done) ∧
      ∀ i, Deadlocked s i → s.active i = true ∧ holds s i = true ∧ i ∉ done ∧
        ¬ s.request i ≤ s.available + given s.allocation done := by
  -- `done` are the processes the loop has finished, in its order
  obtain ⟨⟨done, hdone⟩, hmax⟩ := reduce_spec s.allocation
    (decide_forall_le s.request) (List.finRange n)
    ⟨s.available, fun i => if s.active i then !holds s i else true⟩
  refine ⟨done, hdone.nodup, hdone.completes, ?_, ?_⟩
  · intro i hact hholds hnot
    have hfin : (detectionFinal s).finish i = true := by simpa [Deadlocked] using hnot
    have := (hdone.finish_iff i).mp hfin
    simpa [hact, hholds] using this
  · intro i hdead
    have hnot := (hdone.finish_iff i).not.mp (by
      rw [Bool.not_eq_true]
      exact hdead)
    push Not at hnot
    obtain ⟨hstart, hmem⟩ := hnot
    refine ⟨?_, ?_, hmem, ?_⟩
    · cases hact : s.active i <;> simp_all
    · cases hact : s.active i <;> simp_all
    · have := hmax i (List.mem_finRange i) hdead
      rwa [hdone.work_eq] at this

/-- In a state without grantable requests the reported processes wait. -/
theorem Deadlocked.waiting {s : RsmSharedState n m} (h : ResourceInv s) {i : Fin n}
    (hdead : Deadlocked s i) : s.waiting i = true := by
  obtain ⟨done, -, -, -, hstuck⟩ := detection_spec s
  by_contra hw
  refine (hstuck i hdead).2.2.2 ?_
  intro j
  have h₀ := h.idle_request (by simpa using hw) j
  have h₁ := h.available_nonneg j
  have h₂ := given_nonneg s.allocation h.allocation_nonneg done j
  simp only [Pi.zero_apply] at h₂
  rw [h₀, Pi.add_apply]
  exact add_nonneg h₁ h₂

/-! ## The reported processes stay stuck -/

/-- `t` is a later state of a run from the snapshot `s`: the reported
processes wait as they did, and so does whoever still waits. -/
structure Stuck (s t : RsmSharedState n m) : Prop where
  existing : t.existing = s.existing
  no_avoid : t.avoidEnabled = false
  active : ∀ i, t.active i = true → s.active i = true
  kept : ∀ i, t.waiting i = true →
    s.waiting i = true ∧ t.request i = s.request i ∧ t.allocation i = s.allocation i
  reported : ∀ i, Deadlocked s i → t.active i = true ∧ t.waiting i = true

theorem Stuck.refl {s : RsmSharedState n m} (h : ResourceInv s)
    (havoid : s.avoidEnabled = false) : Stuck s s where
  existing := rfl
  no_avoid := havoid
  active _ hi := hi
  kept _ hi := ⟨hi, rfl, rfl⟩
  reported i hi := by
    obtain ⟨_, _, _, _, hstuck⟩ := detection_spec s
    exact ⟨(hstuck i hi).1, hi.waiting h⟩

/-- **A reported process is never granted.** Everything that exists, less
what the reported processes hold, does not cover its request. -/
theorem Stuck.not_available {s t : RsmSharedState n m} (hs : ResourceInv s)
    (ht : ResourceInv t) (h : Stuck s t) {i : Fin n} (hdead : Deadlocked s i) :
    ¬ ∀ j, t.request i j ≤ t.available j := by
  obtain ⟨done, hnodup, -, hcover, hstuck⟩ := detection_spec s
  intro hav
  refine (hstuck i hdead).2.2.2 ?_
  intro j
  have hreq := (h.kept i (h.reported i hdead).2).2.1
  -- in the snapshot, whoever is not in `done` and holds something is reported,
  -- and holds the same now
  have hle : ∑ k, s.allocation k j ≤ given s.allocation done j + ∑ k, t.allocation k j := by
    have hgiven : given s.allocation done j = ∑ k ∈ done.toFinset, s.allocation k j := by
      rw [given_apply, List.sum_toFinset _ hnodup]
    rw [hgiven, ← Finset.sum_add_sum_compl done.toFinset (fun k => s.allocation k j)]
    refine add_le_add_right (le_trans (Finset.sum_le_sum fun k hk => ?_)
      (Finset.sum_le_sum_of_subset_of_nonneg (Finset.subset_univ (done.toFinset)ᶜ)
        fun k _ _ => ht.allocation_nonneg k j)) _
    have hk' : k ∉ done := by simpa using hk
    by_cases hd : Deadlocked s k
    · rw [(h.kept k (h.reported k hd).2).2.2]
    · have hzero : s.allocation k j = 0 := by
        cases hact : s.active k with
        | false => exact hs.inactive_allocation hact j
        | true =>
          have hno : ¬ holds s k = true := fun hh => hk' (hcover k hact hh hd)
          have hle : s.allocation k j ≤ 0 := by
            have : ∀ j, s.allocation k j ≤ 0 := by simpa [holds] using hno
            exact this j
          exact le_antisymm hle (hs.allocation_nonneg k j)
      rw [hzero]
      exact ht.allocation_nonneg k j
  have h₁ := hs.conserved j
  have h₂ := ht.conserved j
  have h₃ := hav j
  rw [hreq] at h₃
  rw [h.existing] at h₂
  change s.request i j ≤ s.available j + given s.allocation done j
  omega

theorem Stuck.grantAndWake {s t : RsmSharedState n m} (hs : ResourceInv s)
    (ht : ResourceInv t) (h : Stuck s t) {i : Fin n} (hcan : CanGrant t i (t.request i)) :
    Stuck s (grantAndWake t i) where
  existing := h.existing
  no_avoid := h.no_avoid
  active := h.active
  kept k hk := by
    by_cases hki : k = i
    · subst hki
      simp [Rsm.grantAndWake] at hk
    · obtain ⟨h₁, h₂, h₃⟩ := h.kept k (by simpa [Rsm.grantAndWake, hki] using hk)
      exact ⟨h₁, by simpa [Rsm.grantAndWake, grant, hki] using h₂,
        by simpa [Rsm.grantAndWake, grant, hki] using h₃⟩
  reported k hk := by
    have hki : k ≠ i := by
      rintro rfl
      exact h.not_available hs ht hk hcan.1
    obtain ⟨h₁, h₂⟩ := h.reported k hk
    exact ⟨h₁, by simpa [Rsm.grantAndWake, hki] using h₂⟩

theorem Stuck.endProcess {s t : RsmSharedState n m} (h : Stuck s t) {a : Fin n}
    (hidle : t.waiting a = false) : Stuck s (endProcess t a) where
  existing := h.existing
  no_avoid := h.no_avoid
  active k hk := by
    have hka : k ≠ a := by
      rintro rfl
      simp [Rsm.endProcess] at hk
    exact h.active k (by simpa [Rsm.endProcess, hka] using hk)
  kept k hk := by
    have hka : k ≠ a := by
      rintro rfl
      simp [Rsm.endProcess] at hk
    obtain ⟨h₁, h₂, h₃⟩ := h.kept k (by simpa [Rsm.endProcess, hka] using hk)
    exact ⟨h₁, by simpa [Rsm.endProcess, hka] using h₂, by simpa [Rsm.endProcess, hka] using h₃⟩
  -- a reported process waits, and the one that ends does not
  reported k hk := by
    obtain ⟨h₁, h₂⟩ := h.reported k hk
    have hka : k ≠ a := by
      rintro rfl
      rw [hidle] at h₂
      exact absurd h₂ (by simp)
    exact ⟨by simpa [Rsm.endProcess, hka] using h₁, by simpa [Rsm.endProcess, hka] using h₂⟩

theorem Stuck.trySatisfyWaiting {s t : RsmSharedState n m} (hs : ResourceInv s)
    (ht : ResourceInv t) (h : Stuck s t) : Stuck s (trySatisfyWaiting t) :=
  (trySatisfyWaiting_preserves (P := fun u => ResourceInv u ∧ Stuck s u)
    (fun _ _ hw hactive hcan hu => ⟨hu.1.grantAndWake hw hactive hcan,
      hu.2.grantAndWake hs hu.1 hcan⟩) ⟨ht, h⟩).2

theorem EndRun.stuck {exist : Vec m} {sys sys' : System n m} {k : Nat}
    (hexist : ∀ j, 0 ≤ exist j) (hr : Reachable (initialState n m exist false) sys)
    (havoid : sys.shared.avoidEnabled = false) (h : EndRun sys k sys') :
    Stuck sys.shared sys'.shared := by
  have hs := hr.resourceInv hexist
  induction h with
  | refl => exact Stuck.refl hs havoid
  | @ended k mid sys' pid a hmid hactive _ howner hstep ih =>
    -- the units given back go to waiting processes, none of them reported
    have hmr := hmid.reachable hr
    have hres := hmr.resourceInv hexist
    cases hstep with
    | call _ hawake =>
      obtain ⟨b, -, hidle, -, hshared, -⟩ := call_processEnded hres hmr.sleepInv hactive howner
        hawake
      rw [hshared]
      exact (ih.endProcess hidle).trySatisfyWaiting hs (hres.endProcess b)
  | wake _ hstep ih =>
    cases hstep with
    | wake _ _ => exact ⟨ih.existing, ih.no_avoid, ih.active, ih.kept, ih.reported⟩

/-! ## Nobody else stays stuck -/

/-- When everybody that is still active waits, a holder that was not reported
has ended: otherwise the first such process of the reduction is grantable. -/
theorem Stuck.holder_deadlocked {s t : RsmSharedState n m} (hs : ResourceInv s)
    (ht : GrantInv t) (h : Stuck s t) (hall : ∀ i, t.active i = true → t.waiting i = true)
    {i : Fin n} (hactive : t.active i = true) (hholds : holds t i = true) : Deadlocked s i := by
  obtain ⟨done, hnodup, hc, hcover, -⟩ := detection_spec s
  by_contra hnot
  have hsame := (h.kept i (hall i hactive)).2.2
  have hi : i ∈ done := hcover i (h.active i hactive) (by simpa [holds, hsame] using hholds) hnot
  -- the first process of `done` that is still active
  obtain ⟨x, hfind⟩ := Option.isSome_iff_exists.mp
    (List.find?_isSome.mpr ⟨i, hi, hactive⟩ : (done.find? t.active).isSome = true)
  obtain ⟨hx, pre, post, rfl, hpre⟩ := List.find?_eq_some_iff_append.mp hfind
  have hxw := hall x hx
  refine ht.none_grantable x hx hxw ⟨fun j => ?_, fun hav => ?_⟩
  · have hserved : s.request x j ≤ s.available j + given s.allocation pre j :=
      completes_iff.mp hc pre x post rfl j
    rw [(h.kept x hxw).2.1]
    -- those before it have ended, and whoever remains holds what it held
    have hle : given s.allocation pre j + ∑ k, t.allocation k j ≤ ∑ k, s.allocation k j := by
      have hpreNodup := (List.nodup_append.mp hnodup).1
      have hgiven : given s.allocation pre j = ∑ k ∈ pre.toFinset, s.allocation k j := by
        rw [given_apply, List.sum_toFinset _ hpreNodup]
      have hzero : ∑ k ∈ pre.toFinset, t.allocation k j = 0 := by
        refine Finset.sum_eq_zero ?_
        intro k hk
        have hk' : k ∈ pre := by simpa using hk
        have hinactive : t.active k = false := by simpa using hpre k hk'
        exact ht.inactive_allocation hinactive j
      rw [hgiven, ← Finset.sum_add_sum_compl pre.toFinset (fun k => t.allocation k j), hzero,
        ← Finset.sum_add_sum_compl pre.toFinset (fun k => s.allocation k j), zero_add]
      refine add_le_add_right (Finset.sum_le_sum fun k _ => ?_) _
      cases hact : t.active k with
      | true => rw [(h.kept k (hall k hact)).2.2]
      | false =>
        rw [ht.inactive_allocation hact j]
        exact hs.allocation_nonneg k j
    have h₁ := hs.conserved j
    have h₂ := ht.conserved j
    rw [h.existing] at h₂
    omega
  · rw [h.no_avoid] at hav
    exact absurd hav (by simp)

/--
**Deadlock detection is exact.** Without avoidance, from any reachable state
let the active processes that are not waiting call `rsm_process_ended` in any
order, until every process that is still active waits. Then the processes
still active and holding at least one unit are exactly those that
`rsm_detection` left unfinished, whose number is its result; and in every
state of every such run each of them still waits with the request and the
allocation it had.
-/
theorem reachable_detection_exact {pCount rCount : Int} {exist : Vec rCount.toNat}
    {s₀ : RsmSharedState pCount.toNat rCount.toNat}
    (hinit : rsmInit pCount rCount exist 0 = some s₀)
    {sys : System pCount.toNat rCount.toNat} (h : Reachable s₀ sys) :
    (rsmDetection sys.shared =
      (Finset.univ.filter fun i => (detectionFinal sys.shared).finish i = false).card) ∧
    (∀ k sys', EndRun sys k sys' →
      (∀ i, sys'.shared.active i = true → sys'.shared.waiting i = true) →
      ∀ i, (sys'.shared.active i = true ∧ ∃ j, 0 < sys'.shared.allocation i j) ↔
        (detectionFinal sys.shared).finish i = false) ∧
    ∀ k sys', EndRun sys k sys' → ∀ i, (detectionFinal sys.shared).finish i = false →
      sys'.shared.active i = true ∧ sys'.shared.waiting i = true ∧
      sys'.shared.request i = sys.shared.request i ∧
      sys'.shared.allocation i = sys.shared.allocation i := by
  obtain ⟨rfl, hexist⟩ := rsmInit_eq_some hinit
  have hs := Reachable.resourceInv hexist h
  have havoid : sys.shared.avoidEnabled = false :=
    Reachable.shared_induction (P := fun s => s.avoidEnabled = false) rfl
      (fun s s' heff hs => by
        cases heff with
        | quiet hq => cases hq <;> exact hs
        | ended a _ _ => rw [(trySatisfyWaiting_sameOwners _).avoid]; exact hs
        | released a rel _ _ _ _ => rw [(trySatisfyWaiting_sameOwners _).avoid]; exact hs) h
  -- a reported process is where it was, for good
  have hstays : ∀ k sys', EndRun sys k sys' → ∀ i,
      (detectionFinal sys.shared).finish i = false →
      sys'.shared.active i = true ∧ sys'.shared.waiting i = true ∧
      sys'.shared.request i = sys.shared.request i ∧
      sys'.shared.allocation i = sys.shared.allocation i := by
    intro k sys' hrun i hi
    have hstuck := hrun.stuck hexist h havoid
    obtain ⟨h₁, h₂⟩ := hstuck.reported i hi
    exact ⟨h₁, h₂, (hstuck.kept i h₂).2.1, (hstuck.kept i h₂).2.2⟩
  refine ⟨rfl, fun k sys' hrun hall i => ⟨fun ⟨hactive, hholds⟩ => ?_, fun hi => ?_⟩, hstays⟩
  · exact (hrun.stuck hexist h havoid).holder_deadlocked hs
      ((hrun.reachable h).grantInv hexist) hall hactive (by simpa [holds] using hholds)
  · obtain ⟨h₁, -, -, h₂⟩ := hstays k sys' hrun i hi
    obtain ⟨_, _, _, _, hstuck⟩ := detection_spec sys.shared
    refine ⟨h₁, ?_⟩
    rw [h₂]
    simpa [holds] using (hstuck i hi).2.1

/-- The circular wait of the demo scenario: each process asks for the unit
of the other. -/
def demoDeadlock : System 2 2 :=
  ((demoSystem false).call 10 (.request fun j => if j.val = 1 then 1 else 0)).call 11
    (.request fun j => if j.val = 0 then 1 else 0)

theorem demoDeadlock_reachable :
    Reachable (initialState 2 2 (fun _ => 1) false) demoDeadlock :=
  .step (.step (demoSystem_reachable false) (.call _ rfl)) (.call _ rfl)

/-- Both processes of the circular wait are reported, and hold their unit. -/
theorem reachable_detection_exact_demo :
    rsmDetection demoDeadlock.shared = 2 ∧
      ∀ i, (demoDeadlock.shared.active i = true ∧ ∃ j, 0 < demoDeadlock.shared.allocation i j) ↔
        (detectionFinal demoDeadlock.shared).finish i = false :=
  ⟨by decide, (reachable_detection_exact (rsmInit_demo false) demoDeadlock_reachable).2.1 0
    demoDeadlock .refl (by decide)⟩

end OsProjects.Rsm
