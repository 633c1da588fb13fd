import OsProjects.Rsm.Exact

/-!
# Resource manager — no overflow

The model computes with unbounded integers. Here every `int` the library
computes is listed, function by function, next to the resource `j` it is about
(`isSafeInts` … `Call.ints`), and shown to lie in `0 .. existing[j]` in every
reachable state (`reachable_ints_inRange`). With `exist[j] ≤ INT_MAX` no signed
overflow can occur.

The bound is not one per operation: `work` collects the allocations of many
processes, and stays below what exists because units are conserved over the
whole run and no process is added twice (`ResourceInv.given_le`).

A loop over `j` that breaks early is listed in full.
-/

namespace OsProjects.Rsm

open Completion Reduction

variable {n m : Nat}

def INT_MAX : Int := 2147483647

/-! ## What is computed -/

/-- One value for each resource type. -/
def perResource (f : Vec m) : List (Fin m × Int) := (List.finRange m).map fun j => (j, f j)

/-- The body of the search of `is_safe`, for candidate `i`. -/
def isSafeBodyInts (s : RsmSharedState n m) (apid : Fin n) (req : Vec m) (i : Fin n)
    (local_ : State (Fin n) (Vec m)) : List (Fin m × Int) :=
  if local_.finish i then []
  else
    perResource (safeNeed s apid req i) ++
      if ∀ j, safeNeed s apid req i j ≤ local_.work j then
        perResource (safeAllocation s apid req i) ++
          perResource fun j => local_.work j + safeAllocation s apid req i j
      else []

/-- `is_safe`. -/
def isSafeInts (s : RsmSharedState n m) (apid : Fin n) (req : Vec m) : List (Fin m × Int) :=
  perResource (fun j => s.available j - req j) ++
    if ∀ j, 0 ≤ s.available j - req j then
      (Scan.loopVisits (safePick s apid req) (List.finRange n) unfinished
        (safeStart s req)).flatMap fun visit => isSafeBodyInts s apid req visit.1 visit.2
    else []

/-- The four updates of a grant. -/
def grantInts (s : RsmSharedState n m) (i : Fin n) (req : Vec m) : List (Fin m × Int) :=
  perResource (fun j => s.available j - req j) ++
    perResource (fun j => s.allocation i j + req j) ++
    if s.avoidEnabled then perResource fun j => s.need i j - req j else []

/-- The body of `try_satisfy_waiting`, for process `i`. -/
def grantWaitingInts (i : Fin n) (s : RsmSharedState n m) : List (Fin m × Int) :=
  if !s.waiting i || !s.active i then []
  else if ¬ ∀ j, s.request i j ≤ s.available j then []
  else
    (if s.avoidEnabled then isSafeInts s i (s.request i) else []) ++
      if s.avoidEnabled && !isSafe s i (s.request i) then [] else grantInts s i (s.request i)

/-- `try_satisfy_waiting`. -/
def trySatisfyWaitingInts (s : RsmSharedState n m) : List (Fin m × Int) :=
  (Scan.loopVisits grantWaiting (List.finRange n) waitingCount s).flatMap
    fun visit => grantWaitingInts visit.1 visit.2

/-- The body of the loop of `rsm_detection`, for candidate `i`. -/
def detectionBodyInts (s : RsmSharedState n m) (i : Fin n) (local_ : State (Fin n) (Vec m)) :
    List (Fin m × Int) :=
  if local_.finish i then []
  else if ∀ j, s.request i j ≤ local_.work j then
    perResource fun j => local_.work j + s.allocation i j
  else []

/-- `rsm_detection`. -/
def rsmDetectionInts (s : RsmSharedState n m) : List (Fin m × Int) :=
  perResource s.available ++
    (Scan.loopVisits
      (reduceStep (fun i work => decide (∀ j, s.request i j ≤ work j)) s.allocation)
      (List.finRange n) unfinished (detectionStart s)).flatMap
      fun visit => detectionBodyInts s visit.1 visit.2

/-- `rsm_process_ended`. -/
def rsmProcessEndedInts (pid : Int) (gLocalApid : Option (Fin n)) (s : RsmSharedState n m) :
    List (Fin m × Int) :=
  match currentApidLocked s pid gLocalApid with
  | (none, _) => []
  | (some apid, _) =>
    if !s.active apid then []
    else
      perResource (fun j => s.available j + s.allocation apid j) ++
        trySatisfyWaitingInts (endProcess s apid)

/-- `rsm_request`. -/
def rsmRequestInts (pid : Int) (gLocalApid : Option (Fin n)) (s : RsmSharedState n m)
    (request : Vec m) : List (Fin m × Int) :=
  if !validateVectorBounds request then []
  else
    match currentApidLocked s pid gLocalApid with
    | (none, _) => []
    | (some apid, _) =>
      if !s.active apid then []
      else if ∃ j, request j > s.existing j then []
      else if s.avoidEnabled && !s.claimed apid then []
      else if s.avoidEnabled ∧ ∃ j, request j > s.need apid j then []
      else
        let s₁ := recordRequest s apid request
        let avail := decide (∀ j, request j ≤ s₁.available j)
        let safe := avail && (!s₁.avoidEnabled || isSafe s₁ apid request)
        -- `is_safe` is only called for an available request, with avoidance
        (if avail && s₁.avoidEnabled then isSafeInts s₁ apid request else []) ++
          if avail && safe then grantInts s₁ apid request else []

/-- `rsm_release`. -/
def rsmReleaseInts (pid : Int) (gLocalApid : Option (Fin n)) (s : RsmSharedState n m)
    (release : Vec m) : List (Fin m × Int) :=
  if !validateVectorBounds release then []
  else
    match currentApidLocked s pid gLocalApid with
    | (none, _) => []
    | (some apid, _) =>
      if !s.active apid then []
      else if ∃ j, release j > s.allocation apid j then []
      else
        perResource (fun j => s.available j + release j) ++
          perResource (fun j => s.allocation apid j - release j) ++
          (if s.avoidEnabled then perResource fun j => s.need apid j + release j else []) ++
          trySatisfyWaitingInts (giveBack s apid release)

/-- The integers a call computes; `rsm_process_started` and `rsm_claim` only
copy and compare. -/
def Call.ints (c : Call m) (pid : Int) (gLocalApid : Option (Fin n)) (s : RsmSharedState n m) :
    List (Fin m × Int) :=
  match c with
  | .processStarted _ => []
  | .processEnded => rsmProcessEndedInts pid gLocalApid s
  | .claim _ => []
  | .request v => rsmRequestInts pid gLocalApid s v
  | .release v => rsmReleaseInts pid gLocalApid s v

/-! ## Ranges -/

/-- Every listed value is between 0 and the units that exist of its type. -/
def InRange (existing : Vec m) (l : List (Fin m × Int)) : Prop :=
  ∀ j v, (j, v) ∈ l → 0 ≤ v ∧ v ≤ existing j

section Ranges

variable {existing : Vec m}

theorem InRange.nil : InRange existing [] := fun _ _ h => absurd h (by simp)

theorem InRange.perResource {f : Vec m} (h : ∀ j, 0 ≤ f j ∧ f j ≤ existing j) :
    InRange existing (perResource f) := by
  intro j v hmem
  obtain ⟨k, -, hk⟩ := List.mem_map.mp hmem
  obtain ⟨rfl, rfl⟩ := Prod.mk.inj hk
  exact h k

theorem InRange.append {a b : List (Fin m × Int)} (ha : InRange existing a)
    (hb : InRange existing b) : InRange existing (a ++ b) := fun j v h =>
  (List.mem_append.mp h).elim (ha j v) (hb j v)

theorem InRange.flatMap {ι : Type*} {l : List ι} {f : ι → List (Fin m × Int)}
    (h : ∀ i ∈ l, InRange existing (f i)) : InRange existing (l.flatMap f) := fun j v hv => by
  obtain ⟨i, hi, hmem⟩ := List.mem_flatMap.mp hv
  exact h i hi j v hmem

end Ranges

/-! ## The searches -/

variable {s : RsmSharedState n m}

/-- **No unit is counted twice.** What is available and what any processes
hold together does not exceed what exists. -/
theorem ResourceInv.given_le (h : ResourceInv s) {l : List (Fin n)} (hl : l.Nodup) (j : Fin m) :
    s.available j + given s.allocation l j ≤ s.existing j := by
  have hle : given s.allocation l ≤ given s.allocation (List.finRange n) :=
    given_le_of_subset h.allocation_nonneg hl fun i _ => List.mem_finRange i
  have hall : s.available j + given s.allocation (List.finRange n) j = s.existing j :=
    h.given_active (List.nodup_finRange n) (fun i hi => absurd (List.mem_finRange i) hi) j
  have hj : given s.allocation l j ≤ given s.allocation (List.finRange n) j := hle j
  omega

theorem ResourceInv.available_add_allocation (h : ResourceInv s) (i : Fin n) (j : Fin m) :
    s.available j + s.allocation i j ≤ s.existing j := by
  have hi := h.given_le (l := [i]) (List.nodup_singleton i) j
  simpa using hi

/-- A request that passed the tests before `is_safe` is called. -/
structure Fits (s : RsmSharedState n m) (i : Fin n) (req : Vec m) : Prop where
  nonneg : ∀ j, 0 ≤ req j
  available : ∀ j, req j ≤ s.available j
  need : s.avoidEnabled = true → ∀ j, req j ≤ s.need i j

/-- The `work` of `is_safe` stays in range: the hypothetical grant only moves
units. -/
theorem ResourceInv.safeWork_inRange (h : ResourceInv s) {apid : Fin n} {req : Vec m}
    (hfit : Fits s apid req) {done : List (Fin n)} (hdone : done.Nodup) (j : Fin m) :
    0 ≤ s.available j - req j + given (safeAllocation s apid req) done j ∧
      s.available j - req j + given (safeAllocation s apid req) done j ≤ s.existing j := by
  -- the trial allocation is the old one with `req` on top for `apid`
  have hupdate : safeAllocation s apid req =
      Function.update s.allocation apid fun j => s.allocation apid j + req j := by
    rw [← grant_allocation]
    rfl
  have hgiven := congrFun (given_update s.allocation apid
    (fun j => s.allocation apid j + req j) hdone) j
  rw [← hupdate] at hgiven
  have h₁ := h.given_le hdone j
  have h₂ := given_nonneg s.allocation h.allocation_nonneg done j
  have h₃ := hfit.nonneg j
  have h₄ := hfit.available j
  rw [hgiven]
  simp only [Pi.add_apply, Pi.zero_apply] at h₂ ⊢
  split
  · simp only [Pi.sub_apply]
    omega
  · simp only [Pi.zero_apply]
    omega

/-- The hypothetical matrices stay in range. -/
theorem ResourceInv.safeRows_inRange (h : ResourceInv s) (havoid : s.avoidEnabled = true)
    {apid : Fin n} {req : Vec m} (hfit : Fits s apid req) (i : Fin n) (j : Fin m) :
    (0 ≤ safeNeed s apid req i j ∧ safeNeed s apid req i j ≤ s.existing j) ∧
      0 ≤ safeAllocation s apid req i j ∧ safeAllocation s apid req i j ≤ s.existing j := by
  have hdemand : s.need i j + s.allocation i j = s.maxDemand i j := (h.rows i).demand havoid j
  have hmax : s.maxDemand i j ≤ s.existing j := (h.rows i).demand_le havoid j
  have hneed := h.need_nonneg i j
  have halloc := h.allocation_nonneg i j
  have hunits := h.available_add_allocation i j
  have hnonneg := hfit.nonneg j
  have havail := hfit.available j
  have hav := h.available_nonneg j
  unfold safeNeed safeAllocation
  -- the row of the caller changes by `req`, within its need
  by_cases hi : i = apid
  · subst hi
    have hle := hfit.need havoid j
    simp only [if_true]
    omega
  · simp only [hi, if_false]
    omega

theorem ResourceInv.isSafeInts_inRange (h : ResourceInv s) (havoid : s.avoidEnabled = true)
    {apid : Fin n} {req : Vec m} (hfit : Fits s apid req) :
    InRange s.existing (isSafeInts s apid req) := by
  have hrows := h.safeRows_inRange havoid hfit
  refine .append (.perResource fun j => ?_) ?_
  · simpa using h.safeWork_inRange hfit List.nodup_nil j
  split
  swap
  · exact .nil
  refine .flatMap ?_
  rintro ⟨i, t⟩ hvisit
  obtain ⟨done, hdone⟩ := Reaches.progress (decide_forall_le (safeNeed s apid req))
    (Scan.reaches_of_mem_loopVisits hvisit)
  unfold isSafeBodyInts
  split
  · exact .nil
  next hfin =>
  refine .append (.perResource fun j => (hrows i j).1) ?_
  split
  swap
  · exact .nil
  next hcovered =>
  refine .append (.perResource fun j => (hrows i j).2) (.perResource fun j => ?_)
  -- the sum is the `work` after `i` too has finished
  have hstep := hdone.step (decide_forall_le _) ((reduceStep_eq_some _ _).mpr
    ⟨by simpa using hfin, by simpa using hcovered, rfl⟩)
  have hwork := congrFun hstep.work_eq j
  simp only [safeStart, Pi.add_apply] at hwork
  rw [hwork]
  exact h.safeWork_inRange hfit hstep.nodup j

theorem ResourceInv.rsmDetectionInts_inRange (h : ResourceInv s) :
    InRange s.existing (rsmDetectionInts s) := by
  have hwork : ∀ done : List (Fin n), done.Nodup → ∀ j,
      0 ≤ s.available j + given s.allocation done j ∧
        s.available j + given s.allocation done j ≤ s.existing j := fun done hdone j =>
    ⟨add_nonneg (h.available_nonneg j) (given_nonneg s.allocation h.allocation_nonneg done j),
      h.given_le hdone j⟩
  refine .append (.perResource fun j => ?_) (.flatMap fun ⟨i, t⟩ hvisit => ?_)
  · simpa using hwork [] List.nodup_nil j
  -- an iteration works with what the processes done so far have given back
  obtain ⟨done, hdone⟩ := Reaches.progress (decide_forall_le s.request)
    (Scan.reaches_of_mem_loopVisits hvisit)
  unfold detectionBodyInts
  split
  · exact .nil
  next hfin =>
  split
  swap
  · exact .nil
  next hcovered =>
  refine .perResource ?_
  intro j
  have hstep := hdone.step (decide_forall_le _) ((reduceStep_eq_some _ _).mpr
    ⟨by simpa using hfin, by simpa using hcovered, rfl⟩)
  have heq := congrFun hstep.work_eq j
  simp only [detectionStart, Pi.add_apply] at heq
  rw [heq]
  exact hwork _ hstep.nodup j

/-! ## Grants -/

theorem ResourceInv.grantInts_inRange (h : ResourceInv s) {i : Fin n} {req : Vec m}
    (hfit : Fits s i req) : InRange s.existing (grantInts s i req) := by
  refine .append (.append (.perResource fun j => ?_) (.perResource fun j => ?_)) ?_
  · simpa using h.safeWork_inRange hfit List.nodup_nil j
  · have h₁ := h.available_add_allocation i j
    have h₂ := hfit.nonneg j
    have h₃ := hfit.available j
    have h₄ := h.allocation_nonneg i j
    omega
  split
  · next havoid =>
    refine .perResource ?_
    intro j
    simpa [safeNeed] using (h.safeRows_inRange havoid hfit i j).1
  · exact .nil

theorem ResourceInv.grantWaitingInts_inRange (h : ResourceInv s) (i : Fin n) :
    InRange s.existing (grantWaitingInts i s) := by
  unfold grantWaitingInts
  split
  · exact .nil
  next hw =>
  simp only [Bool.or_eq_true, not_or] at hw
  split
  · exact .nil
  next havail =>
  rw [not_not] at havail
  -- the tests of the source say that the request fits
  have hfit : Fits s i (s.request i) :=
    ⟨(h.rows i).request_nonneg, havail,
      fun hav => (h.rows i).request_le_need hav (show s.waiting i = true by simpa using hw.1)⟩
  refine .append ?_ ?_
  · split
    · next havoid => exact h.isSafeInts_inRange havoid hfit
    · exact .nil
  · split
    · exact .nil
    · exact h.grantInts_inRange hfit

/-- The rescan: every body runs in a state that satisfies the invariant. -/
theorem ResourceInv.trySatisfyWaitingInts_inRange (h : ResourceInv s) :
    InRange s.existing (trySatisfyWaitingInts s) := by
  refine .flatMap ?_
  rintro ⟨i, t⟩ hvisit
  have ht : ResourceInv t ∧ t.existing = s.existing := by
    refine (Scan.reaches_of_mem_loopVisits hvisit).preserves
      (P := fun t => ResourceInv t ∧ t.existing = s.existing) ?_ ⟨h, rfl⟩
    rintro k u u' hk ⟨hu, hex⟩
    obtain ⟨⟨hw, hact, hcan⟩, rfl⟩ := grantWaiting_eq_some.mp hk
    exact ⟨hu.grantAndWake hw hact hcan, hex⟩
  rw [← ht.2]
  exact ht.1.grantWaitingInts_inRange i

/-! ## The calls -/

theorem ResourceInv.rsmProcessEndedInts_inRange (h : ResourceInv s) (pid : Int)
    (g : Option (Fin n)) : InRange s.existing (rsmProcessEndedInts pid g s) := by
  unfold rsmProcessEndedInts
  split
  · exact .nil
  next a _ _ =>
  split
  · exact .nil
  refine .append (.perResource fun j => ?_) ?_
  · exact ⟨add_nonneg (h.available_nonneg j) (h.allocation_nonneg a j),
      h.available_add_allocation a j⟩
  · exact (h.endProcess a).trySatisfyWaitingInts_inRange

theorem ResourceInv.rsmRequestInts_inRange (h : ResourceInv s) (pid : Int)
    (g : Option (Fin n)) (req : Vec m) : InRange s.existing (rsmRequestInts pid g s req) := by
  unfold rsmRequestInts
  split
  · exact .nil
  next hvalid =>
  split
  · exact .nil
  next a _ _ =>
  split
  · exact .nil
  split
  · exact .nil
  split
  · exact .nil
  split
  · exact .nil
  next hneed =>
  push Not at hneed
  -- the tests of `rsm_request` are what the two computations rely on
  have hfit : (∀ j, req j ≤ s.available j) → Fits s a req := fun hav =>
    ⟨by simpa [validateVectorBounds] using hvalid, hav, hneed⟩
  refine .append ?_ ?_
  · split
    · next hcall =>
      rw [Bool.and_eq_true, decide_eq_true_eq] at hcall
      exact h.isSafeInts_inRange hcall.2 (hfit hcall.1)
    · exact .nil
  · split
    · next hgrant =>
      rw [Bool.and_eq_true, decide_eq_true_eq] at hgrant
      exact h.grantInts_inRange (hfit hgrant.1)
    · exact .nil

theorem ResourceInv.rsmReleaseInts_inRange (h : ResourceInv s) {pid : Int} (g : Option (Fin n))
    (rel : Vec m) (hidle : ∀ a, s.apidToPid a = pid → s.waiting a = false) :
    InRange s.existing (rsmReleaseInts pid g s rel) := by
  unfold rsmReleaseInts
  split
  · exact .nil
  next hvalid =>
  split
  · exact .nil
  next a _ hcur =>
  split
  · exact .nil
  next hact =>
  split
  · exact .nil
  next hle =>
  push Not at hle
  have hnonneg : ∀ j, 0 ≤ rel j := by simpa [validateVectorBounds] using hvalid
  have howner := (currentApidLocked_owner (g := g) (by rw [hcur])).2
  refine .append (.append (.append (.perResource fun j => ?_) (.perResource fun j => ?_)) ?_) ?_
  · have h₁ := h.available_add_allocation a j
    have h₂ := hle j
    have h₃ := hnonneg j
    have h₄ := h.available_nonneg j
    omega
  · have h₁ := h.available_add_allocation a j
    have h₂ := hle j
    have h₃ := hnonneg j
    have h₄ := h.available_nonneg j
    omega
  · split
    · next havoid =>
      refine .perResource ?_
      intro j
      -- need and allocation together are the claim
      have hdemand : s.need a j + s.allocation a j = s.maxDemand a j := (h.rows a).demand havoid j
      have hmax : s.maxDemand a j ≤ s.existing j := (h.rows a).demand_le havoid j
      have h₂ := hle j
      have h₃ := hnonneg j
      have h₄ := h.need_nonneg a j
      omega
    · exact .nil
  · exact (h.giveBack (by simpa using hact) (hidle a howner) hnonneg
      hle).trySatisfyWaitingInts_inRange

theorem ResourceInv.callInts_inRange (h : ResourceInv s) (c : Call m) {pid : Int}
    (g : Option (Fin n)) (hidle : ∀ a, s.apidToPid a = pid → s.waiting a = false) :
    InRange s.existing (c.ints pid g s) := by
  cases c with
  | processStarted _ => exact .nil
  | processEnded => exact h.rsmProcessEndedInts_inRange pid g
  | claim _ => exact .nil
  | request v => exact h.rsmRequestInts_inRange pid g v
  | release v => exact h.rsmReleaseInts_inRange g v hidle

/-! ## Reachable states -/

theorem Effect.existing_eq {s' : RsmSharedState n m} (heff : Effect s s') :
    s'.existing = s.existing := by
  cases heff with
  | quiet hq => cases hq <;> rfl
  | ended a _ _ => exact (trySatisfyWaiting_sameOwners _).existing
  | released a rel _ _ _ _ => exact (trySatisfyWaiting_sameOwners _).existing

/--
**No overflow in the resource arithmetic.** Let the entries of `exist` be at
most `INT_MAX`. In every reachable state of either mode, the stored amounts of
a resource, every integer the next call of an awake process would compute, and
every integer `rsm_detection` would compute, lie between 0 and the units that
exist, which are those `rsm_init` was given.
-/
theorem reachable_ints_inRange {pCount rCount avoid : Int} {exist : Vec rCount.toNat}
    {s₀ : RsmSharedState pCount.toNat rCount.toNat}
    (hinit : rsmInit pCount rCount exist avoid = some s₀) (hmax : ∀ j, exist j ≤ INT_MAX)
    {sys : System pCount.toNat rCount.toNat} (h : Reachable s₀ sys) :
    sys.shared.existing = exist ∧ (∀ j, sys.shared.existing j ≤ INT_MAX) ∧
    (∀ j, (0 ≤ sys.shared.available j ∧ sys.shared.available j ≤ sys.shared.existing j) ∧
      ∀ i, (0 ≤ sys.shared.allocation i j ∧
          sys.shared.allocation i j ≤ sys.shared.existing j) ∧
        (sys.shared.avoidEnabled = true →
          0 ≤ sys.shared.need i j ∧ sys.shared.need i j ≤ sys.shared.existing j)) ∧
    (∀ pid (c : Call rCount.toNat), sys.asleep pid = none →
      ∀ j v, (j, v) ∈ c.ints pid (sys.gLocalApid pid) sys.shared →
        0 ≤ v ∧ v ≤ sys.shared.existing j) ∧
    ∀ j v, (j, v) ∈ rsmDetectionInts sys.shared → 0 ≤ v ∧ v ≤ sys.shared.existing j := by
  obtain ⟨rfl, hexist⟩ := rsmInit_eq_some hinit
  have hres := Reachable.resourceInv hexist h
  -- no call changes `existing`
  have hex : sys.shared.existing = exist :=
    h.shared_induction (P := fun s => s.existing = exist) rfl
      fun _ _ heff hs => heff.existing_eq.trans hs
  refine ⟨hex, fun j => by rw [hex]; exact hmax j, fun j => ⟨⟨hres.available_nonneg j, ?_⟩,
    fun i => ⟨⟨hres.allocation_nonneg i j, ?_⟩, fun havoid => ⟨hres.need_nonneg i j, ?_⟩⟩⟩,
    fun pid c hawake => hres.callInts_inRange c _ fun a ho =>
      h.sleepInv.caller_not_waiting hawake ho, hres.rsmDetectionInts_inRange⟩
  · simpa using hres.given_le List.nodup_nil j
  · have h₁ := hres.available_add_allocation i j
    have h₂ := hres.available_nonneg j
    omega
  · have hdemand : sys.shared.need i j + sys.shared.allocation i j = sys.shared.maxDemand i j :=
      (hres.rows i).demand havoid j
    have hmaxDemand : sys.shared.maxDemand i j ≤ sys.shared.existing j :=
      (hres.rows i).demand_le havoid j
    have h₁ := hres.allocation_nonneg i j
    omega

/-- In the demo scenario, when P0 gives its unit back, the rescan runs
`is_safe` for P1 and grants. -/
theorem reachable_ints_inRange_demo :
    (Call.release fun j => if j = 0 then 1 else 0).ints 10 (some 0) (demoSystem true).shared ≠ [] ∧
    ∀ j v, (j, v) ∈ (Call.release fun j => if j = 0 then 1 else 0).ints 10 (some 0)
      (demoSystem true).shared → 0 ≤ v ∧ v ≤ (demoSystem true).shared.existing j := by
  refine ⟨by decide, ?_⟩
  exact (reachable_ints_inRange (rsmInit_demo true) (by decide)
    (demoSystem_reachable true)).2.2.2.1 10 (.release fun j => if j = (0 : Fin 2) then 1 else 0) rfl

end OsProjects.Rsm
