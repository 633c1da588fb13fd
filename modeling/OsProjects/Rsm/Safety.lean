import Mathlib.Algebra.BigOperators.Pi
import Mathlib.Algebra.Order.Group.Int
import Mathlib.Algebra.Order.Pi
import Mathlib.Data.Int.ConditionallyCompleteOrder
import Mathlib.Order.ConditionallyCompleteLattice.Basic
import OsProjects.Rsm.Invariant

/-!
# Resource manager — the Banker's invariant

In avoidance mode every reachable state is *safe*: the active processes can
all complete in some order, each being served its whole remaining need from
what is available and what those before it hand back.

`isSafe_iff` connects the code's multi-pass test with that definition: it
accepts a request exactly when the state after granting it is safe. The
lemmas `Safe.*` then re-establish safety for each operation. The interesting
ones are a release, which raises a need again, and a late claim, where the
newcomer is put last in the ordering.

Main results: `reachable_safe`, and its consequence that `rsm_detection`
reports nothing.
-/

namespace OsProjects.Rsm

open Completion Reduction

variable {n m : Nat}

/-- Some ordering of all active processes is a completion ordering. -/
def Safe (s : RsmSharedState n m) : Prop :=
  ∃ order : List (Fin n), order.Nodup ∧ (∀ i, i ∈ order ↔ s.active i = true) ∧
    Completes s.need s.allocation s.available order

/-- Safety in terms of the matrix entries. -/
theorem Safe.entries {s : RsmSharedState n m} (h : Safe s) :
    ∃ order : List (Fin n), order.Nodup ∧ (∀ i, i ∈ order ↔ s.active i = true) ∧
      ∀ pre i post, order = pre ++ i :: post →
        ∀ j, s.need i j ≤ s.available j + (pre.map fun k => s.allocation k j).sum := by
  obtain ⟨order, hnodup, hmem, hc⟩ := h
  refine ⟨order, hnodup, hmem, ?_⟩
  intro pre i post hsplit j
  rw [← given_apply]
  exact completes_iff.mp hc pre i post hsplit j

/-- Only four fields matter for safety. -/
theorem Safe.congr {s s' : RsmSharedState n m} (h : Safe s) (hact : s'.active = s.active)
    (havail : s'.available = s.available) (halloc : s'.allocation = s.allocation)
    (hneed : s'.need = s.need) : Safe s' := by
  unfold Safe
  rw [hact, havail, halloc, hneed]
  exact h

/-! ## The safety test -/

/-- `is_safe` looks at the need that there is when the request is granted. -/
theorem grant_need {s : RsmSharedState n m} (havoid : s.avoidEnabled = true) (a : Fin n)
    (req : Vec m) : (grant s a req).need = safeNeed s a req := by
  funext i j
  by_cases hi : i = a
  · subst hi
    simp [grant, safeNeed, havoid]
  · simp [grant, safeNeed, havoid, hi]

/-- `is_safe` looks at the allocation that there is when the request is granted. -/
theorem grant_allocation (s : RsmSharedState n m) (a : Fin n) (req : Vec m) :
    (grant s a req).allocation = safeAllocation s a req := by
  funext i j
  by_cases hi : i = a
  · subst hi
    simp [grant, safeAllocation]
  · simp [grant, safeAllocation, hi]

/-- What `is_safe` searches for: an ordering in the hypothetical state. -/
theorem isSafe_iff_order (s : RsmSharedState n m) (a : Fin n) (req : Vec m)
    (hgive : ∀ i j, 0 ≤ safeAllocation s a req i j) :
    isSafe s a req = true ↔ (∀ j, req j ≤ s.available j) ∧
      ∃ order : List (Fin n), order.Nodup ∧ (∀ i, i ∈ order ↔ s.active i = true) ∧
        Completes (safeNeed s a req) (safeAllocation s a req)
          (fun j => s.available j - req j) order := by
  unfold isSafe
  by_cases hav : ∀ j, req j ≤ s.available j
  · rw [if_pos (fun j => sub_nonneg.mpr (hav j))]
    simp only [decide_eq_true_eq]
    refine ⟨fun hfin => ⟨hav, ?_⟩, fun ⟨_, order, hnodup, hmem, hc⟩ => ?_⟩
    -- what the search finished, in the order it finished it
    · obtain ⟨⟨done, hdone⟩, -⟩ := reduce_spec (safeAllocation s a req) (decide_forall_le _)
        (List.finRange n) ⟨fun j => s.available j - req j, fun i => !s.active i⟩
      refine ⟨done, hdone.nodup, fun i => ⟨fun hi => by simpa using hdone.fresh i hi, ?_⟩,
        hdone.completes⟩
      intro hi
      have := (hdone.finish_iff i).mp (hfin i)
      simpa [hi] using this
    · -- the inactive processes start finished, the others are in `order`
      intro i
      cases hact : s.active i with
      | true =>
        exact reduce_complete (decide_forall_le _) hgive (List.mem_finRange ·)
          ⟨fun j => s.available j - req j, fun i => !s.active i⟩ hnodup
          (fun k hk => by simpa using (hmem k).mp hk) hc i ((hmem i).mpr hact)
      | false =>
        obtain ⟨⟨done, hdone⟩, -⟩ := reduce_spec (safeAllocation s a req) (decide_forall_le _)
          (List.finRange n) ⟨fun j => s.available j - req j, fun i => !s.active i⟩
        exact (hdone.finish_iff i).mpr (Or.inl (by simp [hact]))
  · rw [if_neg (fun h => hav fun j => sub_nonneg.mp (h j))]
    simp [hav]

/-- **The safety test is exact.** In avoidance mode `is_safe` accepts a
request exactly when it is available and granting it leaves a safe state. -/
theorem isSafe_iff {s : RsmSharedState n m} (h : ResourceInv s) (havoid : s.avoidEnabled = true)
    (a : Fin n) (req : Vec m) (hreq : ∀ j, 0 ≤ req j) :
    isSafe s a req = true ↔ (∀ j, req j ≤ s.available j) ∧ Safe (grant s a req) := by
  have hgive : ∀ i j, 0 ≤ safeAllocation s a req i j := fun i j => by
    have h₁ := h.allocation_nonneg i j
    have h₂ := hreq j
    unfold safeAllocation
    split <;> omega
  rw [isSafe_iff_order s a req hgive, Safe, grant_need havoid, grant_allocation]
  rfl

/-! ## The operations keep safety -/

variable {s : RsmSharedState n m}

/-- With nobody registered nothing has to complete. -/
theorem Safe.initial (exist : Vec m) (avoid : Bool) : Safe (initialState n m exist avoid) :=
  ⟨[], List.nodup_nil, by simp [initialState], trivial⟩

/-- A list of all active processes accounts for every allocated unit. -/
theorem ResourceInv.given_active (h : ResourceInv s) {order : List (Fin n)}
    (hnodup : order.Nodup) (hmem : ∀ i, i ∉ order → s.active i = true →
      ∀ j, s.allocation i j = 0) (j : Fin m) :
    s.available j + given s.allocation order j = s.existing j := by
  -- nobody outside the list holds anything
  have hzero : ∀ i, i ∉ order → s.allocation i = 0 := by
    intro i hi
    funext j
    cases hact : s.active i with
    | true => exact hmem i hi hact j
    | false => exact h.inactive_allocation hact j
  rw [given_eq_sum hnodup hzero, Finset.sum_apply]
  exact h.conserved j

/-- A newcomer holds nothing and may go first. -/
theorem Safe.startProcess (h : ResourceInv s) (hsafe : Safe s) (pid : Int) {a : Fin n}
    (hfree : s.started a = false) : Safe (startProcess s pid a) := by
  obtain ⟨order, hnodup, hmem, hc⟩ := hsafe
  have hinactive : s.active a = false := by rw [← h.started_eq a, hfree]
  have hrow := ((h.rows a).inactive hinactive).2
  have ha : a ∉ order := by
    rw [hmem, hinactive]
    simp
  -- the newcomer needs nothing yet, so it can come last
  refine ⟨order ++ [a], ?_, ?_, ?_⟩
  · rw [List.nodup_append]
    exact ⟨hnodup, by simp, by simpa using fun x hx (hxa : x = a) => ha (hxa ▸ hx)⟩
  · intro i
    by_cases hi : i = a
    · simp [hi, Rsm.startProcess]
    · simp [hi, Rsm.startProcess, hmem i]
  · refine hc.concat ?_
    intro j
    have h₁ : s.need a j = 0 := (hrow j).2.2.1
    have h₂ := h.available_nonneg j
    have h₃ := given_nonneg s.allocation h.allocation_nonneg
      order j
    simp only [Pi.zero_apply] at h₃
    rw [h₁, Pi.add_apply]
    exact add_nonneg h₂ h₃

/-- The one who leaves gives back what it held. -/
theorem Safe.endProcess (hsafe : Safe s) {a : Fin n} (hactive : s.active a = true)
    (hnonneg : ∀ j, 0 ≤ s.allocation a j) : Safe (endProcess s a) := by
  obtain ⟨order, hnodup, hmem, hc⟩ := hsafe
  obtain ⟨pre, post, rfl⟩ := List.append_of_mem ((hmem a).mpr hactive)
  obtain ⟨hpre, hapost, hdisj⟩ := List.nodup_append.mp hnodup
  obtain ⟨hapost, hpost⟩ := List.nodup_cons.mp hapost
  have hapre : a ∉ pre := fun h => hdisj a h a (by simp) rfl
  obtain ⟨hcpre, hca, hcpost⟩ := completes_append.mp hc
  have hkeep : ∀ i, i ≠ a → (Rsm.endProcess s a).need i = s.need i ∧
      (Rsm.endProcess s a).allocation i = s.allocation i := fun i hi => by
    simp [Rsm.endProcess, hi]
  have hgiven : ∀ l : List (Fin n), a ∉ l →
      given (Rsm.endProcess s a).allocation l = given s.allocation l := fun l hl =>
    given_congr fun i hi => (hkeep i (fun h => hl (h ▸ hi))).2
  refine ⟨pre ++ post, ?_, ?_, completes_append.mpr ⟨?_, ?_⟩⟩
  · refine List.nodup_append.mpr ⟨hpre, hpost, fun x hx y hy => hdisj x hx y (by simp [hy])⟩
  · intro i
    by_cases hi : i = a
    · simp [hi, Rsm.endProcess, hapre, hapost]
    · simpa [hi, Rsm.endProcess] using hmem i
  · -- those before `a` see at least what they saw
    refine hcpre.imp ?_
    intro p i q hsplit hle
    have hp : a ∉ p := fun h => hapre (by rw [hsplit]; simp [h])
    have hi : i ≠ a := fun h => hapre (by rw [hsplit]; simp [h])
    rw [(hkeep i hi).1, hgiven p hp]
    intro j
    have h₁ := hle j
    have h₂ := hnonneg j
    simp only [Rsm.endProcess, Pi.add_apply] at h₁ ⊢
    omega
  · -- those after `a` see the same: its allocation has moved to `available`
    refine hcpost.imp ?_
    intro p i q hsplit hle
    have hp : a ∉ p := fun h => hapost (by rw [hsplit]; simp [h])
    have hi : i ≠ a := fun h => hapost (by rw [hsplit]; simp [h])
    rw [(hkeep i hi).1, hgiven p hp, hgiven pre hapre]
    intro j
    have h₁ := hle j
    simp only [Rsm.endProcess, Pi.add_apply] at h₁ ⊢
    omega

/-- A claim is at most what exists, so its owner can go last. -/
theorem Safe.recordClaim (h : ResourceInv s) (hsafe : Safe s) {a : Fin n} {v : Vec m}
    (hactive : s.active a = true) (havoid : s.avoidEnabled = true)
    (hnew : s.claimed a = false) (hle : ∀ j, v j ≤ s.existing j) : Safe (recordClaim s a v) := by
  obtain ⟨order, hnodup, hmem, hc⟩ := hsafe
  have hempty : s.allocation a = 0 := funext fun j => (h.unclaimed_rows havoid hnew j).1
  have hmem' : ∀ i, i ∈ order.filter (fun i => decide (i ≠ a)) ↔ s.active i = true ∧ i ≠ a := by
    simp [hmem]
  -- the claimant moves to the end of the ordering
  refine ⟨order.filter (fun i => decide (i ≠ a)) ++ [a], ?_, ?_, ?_⟩
  · rw [List.nodup_append]
    exact ⟨hnodup.filter _, by simp, by simp⟩
  · intro i
    by_cases hi : i = a
    · simp [hi, Rsm.recordClaim, hactive]
    · simpa [hi, Rsm.recordClaim] using hmem i
  · refine Completes.concat ?_ fun j => ?_
    · refine (hc.filter (p := fun i => decide (i ≠ a)) fun i _ hi => ?_).imp
        fun p i q hsplit hserved => ?_
      · rwa [show i = a by simpa using hi]
      · have hi : i ≠ a := ((hmem' i).mp (by rw [hsplit]; simp)).2
        simpa [Rsm.recordClaim, hi] using hserved
    · -- at the end of the ordering everything that exists is available again
      have hall := h.given_active (hnodup.filter (fun i => decide (i ≠ a))) (fun i hi hact j => by
        have : i = a := by
          by_contra hne
          exact hi ((hmem' i).mpr ⟨hact, hne⟩)
        rw [this, hempty]
        rfl) j
      simp only [Rsm.recordClaim, Function.update_self, Pi.add_apply]
      rw [hall]
      exact hle j

/-- With more available the same order completes. -/
theorem Safe.giveBack (hsafe : Safe s) {a : Fin n} {rel : Vec m}
    (havoid : s.avoidEnabled = true) (hnonneg : ∀ j, 0 ≤ rel j) : Safe (giveBack s a rel) := by
  obtain ⟨order, hnodup, hmem, hc⟩ := hsafe
  refine ⟨order, hnodup, hmem, hc.imp fun pre i post hsplit hle => ?_⟩
  rw [hsplit] at hnodup
  obtain ⟨hpre, -, hdisj⟩ := List.nodup_append.mp hnodup
  intro j
  have h₁ := hle j
  have h₂ := hnonneg j
  have hgiven := congrFun (given_update s.allocation a
    (fun j => s.allocation a j - rel j) hpre) j
  simp only [Rsm.giveBack, havoid, if_true, Pi.add_apply, hgiven] at h₁ ⊢
  by_cases hi : i = a
  · -- its own need grew by `rel`, and so did `available`
    subst hi
    have hipre : i ∉ pre := fun h => hdisj i h i (by simp) rfl
    simp only [hipre, if_false, Pi.zero_apply, Function.update_self]
    omega
  · simp only [Function.update_of_ne hi]
    -- before `a` has given its units back there is more, behind it the same
    by_cases hapre : a ∈ pre
    · simp only [hapre, if_true, Pi.sub_apply]
      omega
    · simp only [hapre, if_false, Pi.zero_apply]
      omega

/-- A grant was checked by `is_safe`. -/
theorem Safe.grantAndWake (h : ResourceInv s) (havoid : s.avoidEnabled = true) {a : Fin n}
    (hcan : CanGrant s a (s.request a)) : Safe (grantAndWake s a) :=
  ((isSafe_iff h havoid a _ (h.rows a).request_nonneg).mp (hcan.2 havoid)).2.congr rfl rfl rfl rfl

/-- The part of the invariant that a rescan needs to keep a state safe. -/
structure SafeInv (s : RsmSharedState n m) : Prop extends ResourceInv s where
  avoid : s.avoidEnabled = true
  safe : Safe s

/-- Each grant of the scan was checked on its own. -/
theorem SafeInv.trySatisfyWaiting (h : SafeInv s) : SafeInv (trySatisfyWaiting s) :=
  trySatisfyWaiting_preserves (P := SafeInv) (fun _ _ hw hactive hcan ht =>
    ⟨ht.toResourceInv.grantAndWake hw hactive hcan, ht.avoid,
      Safe.grantAndWake ht.toResourceInv ht.avoid hcan⟩) h

/-- A call that does not rescan keeps the state safe. -/
theorem SafeInv.quiet {s' : RsmSharedState n m} (heff : QuietEffect s s') (h : SafeInv s) :
    SafeInv s' := by
  have hres := h.toResourceInv.quiet heff
  cases heff with
  | unchanged => exact h
  | started pid a hfree => exact ⟨hres, h.avoid, h.safe.startProcess h.toResourceInv pid hfree⟩
  | claimed a v hstarted _ _ havoid hnew hle =>
    exact ⟨hres, h.avoid, h.safe.recordClaim h.toResourceInv
      (h.started_eq a ▸ hstarted) havoid hnew hle⟩
  | granted a req _ hok hcan =>
    refine ⟨hres, h.avoid, ?_⟩
    have hav : (recordRequest s a req).avoidEnabled = true := h.avoid
    -- the request row differs from `s`, but `is_safe` does not read it
    have hsafe := (isSafe_iff_order (recordRequest s a req) a req
      (fun i j => ?_)).mp (hcan.2 hav)
    · obtain ⟨-, hsafe⟩ := hsafe
      rw [← grant_need hav, ← grant_allocation] at hsafe
      exact hsafe
    · have h₁ := h.allocation_nonneg i j
      have h₂ := hok.nonneg j
      simp only [safeAllocation, recordRequest]
      split <;> omega
  | waits a req _ _ _ => exact ⟨hres, h.avoid, h.safe.congr rfl rfl rfl rfl⟩
  | woken _ => exact ⟨hres, h.avoid, h.safe.congr rfl rfl rfl rfl⟩

/-- So does a call with a scan behind it. -/
theorem SafeInv.effect {s' : RsmSharedState n m} (heff : Effect s s') (h : SafeInv s) :
    SafeInv s' := by
  cases heff with
  | quiet hq => exact h.quiet hq
  -- the critical section first makes room, then rescans
  | ended a hactive _ =>
    exact SafeInv.trySatisfyWaiting ⟨h.toResourceInv.endProcess a, h.avoid,
      h.safe.endProcess hactive (h.allocation_nonneg a)⟩
  | released a rel hactive hidle hnonneg hle =>
    exact SafeInv.trySatisfyWaiting ⟨h.toResourceInv.giveBack hactive hidle hnonneg hle, h.avoid,
      h.safe.giveBack h.avoid hnonneg⟩

/-- A safe state has no deadlock: detection finishes everybody, because a
request never exceeds the need. -/
theorem SafeInv.detection (h : SafeInv s) : rsmDetection s = 0 := by
  obtain ⟨order, hnodup, hmem, hc⟩ := h.safe
  have hreq : ∀ i, s.request i ≤ s.need i := by
    intro i j
    cases hw : s.waiting i with
    | true => exact (h.rows i).request_le_need h.avoid hw j
    | false =>
      rw [h.idle_request hw j]
      exact h.need_nonneg i j
  -- the holders of the safe ordering can finish in the same order
  have hholders : Completes s.request s.allocation s.available (order.filter (holds s)) := by
    refine (hc.imp fun _ i _ _ hle => (hreq i).trans hle).filter ?_
    intro i _ hi
    funext j
    have hno : ∀ j, s.allocation i j ≤ 0 := by simpa [holds] using hi
    exact le_antisymm (hno j) (h.allocation_nonneg i j)
  have hfin : ∀ i, (detectionFinal s).finish i = true := by
    intro i
    by_cases hi : i ∈ order.filter (holds s)
    · refine reduce_complete (decide_forall_le _) h.allocation_nonneg (List.mem_finRange ·)
        ⟨s.available, fun i => if s.active i then !holds s i else true⟩
        (hnodup.filter _) (fun k hk => ?_) hholders i hi
      obtain ⟨hk₁, hk₂⟩ := List.mem_filter.mp hk
      simp [(hmem k).mp hk₁, hk₂]
    · obtain ⟨⟨done, hdone⟩, -⟩ := reduce_spec s.allocation (decide_forall_le _) (List.finRange n)
        ⟨s.available, fun i => if s.active i then !holds s i else true⟩
      refine (hdone.finish_iff i).mpr (Or.inl ?_)
      rw [List.mem_filter, hmem] at hi
      cases hact : s.active i <;> simp_all
  simp [rsmDetection, hfin]

/-- Every reachable state of avoidance mode is safe. -/
theorem Reachable.safeInv {exist : Vec m} {sys : System n m} (hexist : ∀ j, 0 ≤ exist j)
    (h : Reachable (initialState n m exist true) sys) : SafeInv sys.shared :=
  h.shared_induction (P := SafeInv) ⟨ResourceInv.initial true hexist, rfl, Safe.initial exist true⟩
    fun _ _ heff hs => hs.effect heff

/--
**The Banker's invariant over whole runs.** In avoidance mode every reachable
state has an ordering of all active processes in which each one's need is
covered by what is available and what those before it hold; so
`rsm_detection` returns 0.
-/
theorem reachable_safe {pCount rCount : Int} {exist : Vec rCount.toNat}
    {s₀ : RsmSharedState pCount.toNat rCount.toNat}
    (hinit : rsmInit pCount rCount exist 1 = some s₀)
    {sys : System pCount.toNat rCount.toNat} (h : Reachable s₀ sys) :
    (∃ order : List (Fin pCount.toNat), order.Nodup ∧
      (∀ i, i ∈ order ↔ sys.shared.active i = true) ∧
      ∀ pre i post, order = pre ++ i :: post → ∀ j, sys.shared.need i j ≤
        sys.shared.available j + (pre.map fun k => sys.shared.allocation k j).sum) ∧
    rsmDetection sys.shared = 0 := by
  obtain ⟨rfl, hexist⟩ := rsmInit_eq_some hinit
  have hsafe := Reachable.safeInv hexist h
  exact ⟨hsafe.safe.entries, hsafe.detection⟩

theorem reachable_safe_demo :
    (∃ order : List (Fin 2), order.Nodup ∧
      (∀ i, i ∈ order ↔ (demoSystem true).shared.active i = true) ∧
      ∀ pre i post, order = pre ++ i :: post → ∀ j, (demoSystem true).shared.need i j ≤
        (demoSystem true).shared.available j +
          (pre.map fun k => (demoSystem true).shared.allocation k j).sum) ∧
    rsmDetection (demoSystem true).shared = 0 :=
  reachable_safe (rsmInit_demo true) (demoSystem_reachable true)

end OsProjects.Rsm
