import Mathlib.Algebra.BigOperators.Fin
import OsProjects.Rsm.Sleep

/-!
# Resource manager — representation invariant

`RepInv` is what the matrices of the segment satisfy in every reachable
state: units are conserved, nothing is negative, the rows of a free
application id are zero, and in avoidance mode a process never holds more
than it claimed (`reachable_repInv`).

The inductive form is `ResourceInv`: the global part of `RepInv`, and
`RowInv` for the row of each application id. Every operation changes one row
and `available`, so each case only has to look at that row
(`ResourceInv.update_row`).
-/

namespace OsProjects.Rsm

variable {n m : Nat}

/-- The representation invariant of the resource manager. -/
structure RepInv (s : RsmSharedState n m) : Prop where
  conserved : ∀ j, s.available j + ∑ i, s.allocation i j = s.existing j
  available_nonneg : ∀ j, 0 ≤ s.available j
  nonneg : ∀ i j, 0 ≤ s.allocation i j ∧ 0 ≤ s.request i j ∧ 0 ≤ s.need i j
  inactive : ∀ i, s.active i = false → s.waiting i = false ∧ ∀ j, s.allocation i j = 0 ∧
    s.request i j = 0 ∧ s.need i j = 0 ∧ s.maxDemand i j = 0
  idle_request : ∀ i, s.waiting i = false → ∀ j, s.request i j = 0
  demand : s.avoidEnabled = true → ∀ i j,
    s.need i j + s.allocation i j = s.maxDemand i j ∧ s.maxDemand i j ≤ s.existing j
  request_le_need : s.avoidEnabled = true → ∀ i, s.waiting i = true →
    ∀ j, s.request i j ≤ s.need i j

/-! ## Rows -/

/-- What the segment stores for one application id. -/
structure Row (m : Nat) where
  allocation : Vec m
  request : Vec m
  maxDemand : Vec m
  need : Vec m
  started : Bool
  active : Bool
  claimed : Bool
  waiting : Bool

/-- What the segment has for one application id. -/
def RsmSharedState.row (s : RsmSharedState n m) (i : Fin n) : Row m where
  allocation := s.allocation i
  request := s.request i
  maxDemand := s.maxDemand i
  need := s.need i
  started := s.started i
  active := s.active i
  claimed := s.claimed i
  waiting := s.waiting i

/-- The invariant of one row. -/
structure RowInv (avoid : Bool) (existing : Vec m) (r : Row m) : Prop where
  allocation_nonneg : ∀ j, 0 ≤ r.allocation j
  request_nonneg : ∀ j, 0 ≤ r.request j
  need_nonneg : ∀ j, 0 ≤ r.need j
  started_active : r.started = r.active
  inactive : r.active = false → r.waiting = false ∧ ∀ j, r.allocation j = 0 ∧
    r.request j = 0 ∧ r.need j = 0 ∧ r.maxDemand j = 0
  idle_request : r.waiting = false → ∀ j, r.request j = 0
  demand : avoid = true → ∀ j, r.need j + r.allocation j = r.maxDemand j
  demand_le : avoid = true → ∀ j, r.maxDemand j ≤ existing j
  request_le_need : avoid = true → r.waiting = true → ∀ j, r.request j ≤ r.need j
  unclaimed : avoid = true → r.claimed = false → ∀ j, r.maxDemand j = 0

/-- The inductive form of `RepInv`. -/
structure ResourceInv (s : RsmSharedState n m) : Prop where
  conserved : ∀ j, s.available j + ∑ i, s.allocation i j = s.existing j
  available_nonneg : ∀ j, 0 ≤ s.available j
  rows : ∀ i, RowInv s.avoidEnabled s.existing (s.row i)

/-- The part of the invariant that speaks of rows and columns. -/
theorem ResourceInv.repInv {s : RsmSharedState n m} (h : ResourceInv s) : RepInv s where
  conserved := h.conserved
  available_nonneg := h.available_nonneg
  nonneg i j := ⟨(h.rows i).allocation_nonneg j, (h.rows i).request_nonneg j,
    (h.rows i).need_nonneg j⟩
  inactive i := (h.rows i).inactive
  idle_request i := (h.rows i).idle_request
  demand ha i j := ⟨(h.rows i).demand ha j, (h.rows i).demand_le ha j⟩
  request_le_need ha i := (h.rows i).request_le_need ha

section Accessors

variable {s : RsmSharedState n m} (h : ResourceInv s)

include h

/-- A process is active as soon as it is registered. -/
theorem ResourceInv.started_eq (i : Fin n) : s.started i = s.active i :=
  (h.rows i).started_active

/-- Nobody holds, needs or asks for a negative number. -/
theorem ResourceInv.allocation_nonneg (i : Fin n) (j : Fin m) : 0 ≤ s.allocation i j :=
  (h.rows i).allocation_nonneg j

theorem ResourceInv.need_nonneg (i : Fin n) (j : Fin m) : 0 ≤ s.need i j :=
  (h.rows i).need_nonneg j

/-- A process that does not wait asks for nothing. -/
theorem ResourceInv.idle_request {i : Fin n} (hidle : s.waiting i = false) (j : Fin m) :
    s.request i j = 0 :=
  (h.rows i).idle_request hidle j

/-- A process that is gone holds nothing. -/
theorem ResourceInv.inactive_allocation {i : Fin n} (hinactive : s.active i = false)
    (j : Fin m) : s.allocation i j = 0 :=
  (((h.rows i).inactive hinactive).2 j).1

end Accessors

/-- In avoidance mode an id that has not claimed holds and needs nothing. -/
theorem ResourceInv.unclaimed_rows {s : RsmSharedState n m} (h : ResourceInv s)
    (havoid : s.avoidEnabled = true) {i : Fin n} (hnew : s.claimed i = false) (j : Fin m) :
    s.allocation i j = 0 ∧ s.need i j = 0 := by
  have h₁ : s.maxDemand i j = 0 := (h.rows i).unclaimed havoid hnew j
  have h₂ : s.need i j + s.allocation i j = s.maxDemand i j := (h.rows i).demand havoid j
  have h₃ := h.allocation_nonneg i j
  have h₄ := h.need_nonneg i j
  omega

/-- Replacing one row changes a column sum by the difference. -/
theorem sum_update_row (f : Fin n → Vec m) (a : Fin n) (v : Vec m) (j : Fin m) :
    ∑ i, Function.update f a v i j = ∑ i, f i j - f a j + v j := by
  have h₁ := Finset.sum_erase_add Finset.univ (fun i => f i j) (Finset.mem_univ a)
  have h₂ := Finset.sum_erase_add Finset.univ (fun i => Function.update f a v i j)
    (Finset.mem_univ a)
  have h₃ : ∑ i ∈ Finset.univ.erase a, Function.update f a v i j =
      ∑ i ∈ Finset.univ.erase a, f i j :=
    Finset.sum_congr rfl fun i hi => by rw [Function.update_of_ne (Finset.ne_of_mem_erase hi)]
  simp only [Function.update_self] at h₂
  omega

/-- An operation that changes the row of `a` and `available` keeps the
invariant if the new row is fine and the units it moves balance. -/
theorem ResourceInv.update_row {s s' : RsmSharedState n m} (h : ResourceInv s) (a : Fin n)
    (hex : s'.existing = s.existing) (hav : s'.avoidEnabled = s.avoidEnabled)
    (hother : ∀ i, i ≠ a → s'.row i = s.row i)
    (halloc : ∃ v, s'.allocation = Function.update s.allocation a v ∧
      ∀ j, s'.available j + v j = s.available j + s.allocation a j)
    (hnonneg : ∀ j, 0 ≤ s'.available j)
    (hrow : RowInv s.avoidEnabled s.existing (s'.row a)) : ResourceInv s' where
  conserved := by
    intro j
    obtain ⟨v, hv, hbal⟩ := halloc
    have h₁ := h.conserved j
    have h₂ := hbal j
    rw [hv, sum_update_row, hex]
    omega
  available_nonneg := hnonneg
  rows := by
    intro i
    rw [hex, hav]
    by_cases hi : i = a
    · rw [hi]
      exact hrow
    · rw [hother i hi]
      exact h.rows i

/-- An operation that moves no units keeps the invariant if the row of `a`
stays fine. -/
theorem ResourceInv.update_flags {s s' : RsmSharedState n m} (h : ResourceInv s) (a : Fin n)
    (hex : s'.existing = s.existing) (hav : s'.avoidEnabled = s.avoidEnabled)
    (havail : s'.available = s.available) (halloc : s'.allocation = s.allocation)
    (hother : ∀ i, i ≠ a → s'.row i = s.row i)
    (hrow : RowInv s.avoidEnabled s.existing (s'.row a)) : ResourceInv s' :=
  h.update_row a hex hav hother
    ⟨s.allocation a, by rw [halloc, Function.update_eq_self], fun j => by rw [havail]⟩
    (by rw [havail]; exact h.available_nonneg) hrow

/-! ## The operations keep the invariant -/

variable {s : RsmSharedState n m}

/-- The segment as `rsm_init` leaves it. -/
theorem ResourceInv.initial {exist : Vec m} (avoid : Bool) (hexist : ∀ j, 0 ≤ exist j) :
    ResourceInv (initialState n m exist avoid) where
  conserved := by simp [initialState]
  available_nonneg := hexist
  rows := by
    intro i
    constructor <;> simp [initialState, RsmSharedState.row]
    exact fun _ => hexist

/-- A row that is free is taken. -/
theorem ResourceInv.startProcess (h : ResourceInv s) (pid : Int) {a : Fin n}
    (hfree : s.started a = false) : ResourceInv (startProcess s pid a) := by
  have hr := h.rows a
  -- a row that is not started is empty, so clearing its request changes nothing
  have hempty := hr.inactive (hr.started_active ▸ hfree)
  refine h.update_flags a rfl rfl rfl rfl (fun i hi => ?_) ?_
  · simp [RsmSharedState.row, Rsm.startProcess, hi]
  · refine ⟨hr.allocation_nonneg, ?_, hr.need_nonneg, ?_, ?_, ?_, hr.demand, hr.demand_le, ?_, ?_⟩
    all_goals simp only [RsmSharedState.row, Rsm.startProcess, Function.update_self]
    · simp
    · simp
    · simp
    · simp
    · exact fun _ _ j => (hempty.2 j).2.2.2

/-- A row is cleared and what it held becomes available. -/
theorem ResourceInv.endProcess (h : ResourceInv s) (a : Fin n) :
    ResourceInv (endProcess s a) := by
  have hr := h.rows a
  -- the whole allocation of `a` moves back to `available`
  refine h.update_row a rfl rfl (fun i hi => ?_) ⟨fun _ => 0, rfl, by simp [Rsm.endProcess]⟩
    (fun j => ?_) ?_
  · simp [RsmSharedState.row, Rsm.endProcess, hi]
  · exact add_nonneg (h.available_nonneg j) (hr.allocation_nonneg j)
  · constructor <;> simp [RsmSharedState.row, Rsm.endProcess]
    exact fun ha j => (hr.demand ha j ▸ hr.demand_le ha j).trans' (add_nonneg (hr.need_nonneg j)
      (hr.allocation_nonneg j))

/-- A first claim of what exists. -/
theorem ResourceInv.recordClaim (h : ResourceInv s) {a : Fin n} {v : Vec m}
    (hstarted : s.started a = true) (hidle : s.waiting a = false) (hnonneg : ∀ j, 0 ≤ v j)
    (havoid : s.avoidEnabled = true) (hnew : s.claimed a = false)
    (hle : ∀ j, v j ≤ s.existing j) : ResourceInv (recordClaim s a v) := by
  have hr := h.rows a
  refine h.update_flags a rfl rfl rfl rfl (fun i hi => ?_) ?_
  · simp [RsmSharedState.row, Rsm.recordClaim, hi]
  · refine ⟨hr.allocation_nonneg, hr.request_nonneg, ?_, hr.started_active, ?_,
      hr.idle_request, ?_, ?_, ?_, ?_⟩
    all_goals simp only [RsmSharedState.row, Rsm.recordClaim, Function.update_self]
    · exact hnonneg
    · intro hinactive
      have : s.started a = s.active a := hr.started_active
      rw [hstarted, hinactive] at this
      exact absurd this (by simp)
    · intro _ j
      -- before its claim the process holds nothing, so need equals demand
      rw [(h.unclaimed_rows havoid hnew j).1, add_zero]
    · exact fun _ => hle
    · rw [hidle]
      simp
    · simp

/-- Recording a request is not an operation of its own: the row is only
consistent again once the request is granted or waits. -/
theorem ResourceInv.setWaiting (h : ResourceInv s) {a : Fin n} {req : Vec m}
    (hok : RequestOk s a req) : ResourceInv (setWaiting (recordRequest s a req) a) := by
  have hr := h.rows a
  refine h.update_flags a rfl rfl rfl rfl (fun i hi => ?_) ?_
  · simp [RsmSharedState.row, Rsm.setWaiting, recordRequest, hi]
  · refine ⟨hr.allocation_nonneg, ?_, hr.need_nonneg, hr.started_active, ?_, ?_, hr.demand,
      hr.demand_le, ?_, hr.unclaimed⟩
    all_goals simp only [RsmSharedState.row, Rsm.setWaiting, recordRequest, Function.update_self]
    · exact hok.nonneg
    · rw [hok.active]
      simp
    · simp
    · exact fun ha _ => hok.le_need ha

/-- Granting `req` to `a` is fine whenever it is available and, in avoidance
mode, within the need of `a`. -/
theorem ResourceInv.grant (h : ResourceInv s) {a : Fin n} {req : Vec m}
    (hactive : s.active a = true) (hnonneg : ∀ j, 0 ≤ req j)
    (havail : ∀ j, req j ≤ s.available j)
    (hneed : s.avoidEnabled = true → ∀ j, req j ≤ s.need a j)
    {w r : Fin n → Bool} {sem : Fin n → Nat} (hw : ∀ i, i ≠ a → w i = s.waiting i)
    (hwa : w a = false) :
    ResourceInv { grant s a req with waiting := w, requestedOnce := r, processSem := sem } := by
  have hr := h.rows a
  -- `req` moves from `available` to the allocation of `a`
  refine h.update_row a rfl rfl (fun i hi => ?_)
    ⟨fun j => s.allocation a j + req j, rfl, fun j => by simp only [Rsm.grant]; omega⟩
    (fun j => ?_) ?_
  · cases ha : s.avoidEnabled <;> simp [RsmSharedState.row, Rsm.grant, hi, ha, hw i hi]
  · simp only [Rsm.grant]
    have := havail j
    omega
  · refine ⟨?_, ?_, ?_, hr.started_active, ?_, ?_, ?_, hr.demand_le, ?_, hr.unclaimed⟩
    all_goals simp only [RsmSharedState.row, Rsm.grant, Function.update_self]
    · exact fun j => add_nonneg (hr.allocation_nonneg j) (hnonneg j)
    · simp
    · intro j
      cases ha : s.avoidEnabled with
      | false => exact hr.need_nonneg j
      | true =>
        -- in avoidance mode the grant is paid out of the need
        have := hneed ha j
        simp only [if_true, Function.update_self]
        omega
    · rw [hactive]
      simp
    · simp
    · intro ha j
      have : s.need a j + s.allocation a j = s.maxDemand a j := hr.demand ha j
      simp only [ha, if_true, Function.update_self]
      omega
    · rw [hwa]
      simp

/-- A request that is granted on the spot. -/
theorem ResourceInv.grantRequest (h : ResourceInv s) {a : Fin n} {req : Vec m}
    (hidle : s.waiting a = false) (hok : RequestOk s a req)
    (hcan : CanGrant (recordRequest s a req) a req) :
    ResourceInv (Rsm.grant (recordRequest s a req) a req) := by
  -- recording and granting write the request row twice; the last write stays
  have heq : Rsm.grant (recordRequest s a req) a req =
      { Rsm.grant s a req with
        waiting := s.waiting
        requestedOnce := Function.update s.requestedOnce a true
        processSem := s.processSem } := by
    simp only [Rsm.grant, recordRequest, Function.update_idem]
    rfl
  rw [heq]
  exact h.grant hok.active hok.nonneg hcan.1 hok.le_need (fun _ _ => rfl) hidle

/-- A request that had to wait and is granted. -/
theorem ResourceInv.grantAndWake (h : ResourceInv s) {a : Fin n} (hw : s.waiting a = true)
    (hactive : s.active a = true) (hcan : CanGrant s a (s.request a)) :
    ResourceInv (grantAndWake s a) :=
  h.grant hactive (h.rows a).request_nonneg hcan.1
    (fun ha => (h.rows a).request_le_need ha hw)
    (fun _ hi => Function.update_of_ne hi _ _) (Function.update_self _ _ _)

/-- The scan is a sequence of such grants. -/
theorem ResourceInv.trySatisfyWaiting (h : ResourceInv s) :
    ResourceInv (trySatisfyWaiting s) :=
  trySatisfyWaiting_preserves (fun _ _ hw hactive hcan ht => ht.grantAndWake hw hactive hcan) h

/-- A release of what is held. -/
theorem ResourceInv.giveBack (h : ResourceInv s) {a : Fin n} {rel : Vec m}
    (hactive : s.active a = true) (hidle : s.waiting a = false) (hnonneg : ∀ j, 0 ≤ rel j)
    (hle : ∀ j, rel j ≤ s.allocation a j) : ResourceInv (giveBack s a rel) := by
  have hr := h.rows a
  -- `rel` moves the other way, and back into the need
  refine h.update_row a rfl rfl (fun i hi => ?_)
    ⟨fun j => s.allocation a j - rel j, rfl, fun j => by simp only [Rsm.giveBack]; omega⟩
    (fun j => add_nonneg (h.available_nonneg j) (hnonneg j)) ?_
  · cases ha : s.avoidEnabled <;> simp [RsmSharedState.row, Rsm.giveBack, hi, ha]
  · refine ⟨?_, hr.request_nonneg, ?_, hr.started_active, ?_, hr.idle_request, ?_,
      hr.demand_le, ?_, hr.unclaimed⟩
    all_goals simp only [RsmSharedState.row, Rsm.giveBack, Function.update_self]
    · intro j
      have := hle j
      omega
    · intro j
      cases ha : s.avoidEnabled with
      | false => exact hr.need_nonneg j
      | true =>
        have h₁ : 0 ≤ s.need a j := hr.need_nonneg j
        have h₂ := hnonneg j
        simp only [if_true, Function.update_self]
        omega
    · rw [hactive]
      simp
    · intro ha j
      have : s.need a j + s.allocation a j = s.maxDemand a j := hr.demand ha j
      simp only [ha, if_true, Function.update_self]
      omega
    · rw [hidle]
      simp

/-- A call without a scan does one of these or nothing. -/
theorem ResourceInv.quiet {s' : RsmSharedState n m} (heff : QuietEffect s s')
    (h : ResourceInv s) : ResourceInv s' := by
  cases heff with
  | unchanged => exact h
  | started pid a hfree => exact h.startProcess pid hfree
  | claimed a v hstarted hidle hnonneg havoid hnew hle =>
    exact h.recordClaim hstarted hidle hnonneg havoid hnew hle
  | granted a req hidle hok hcan => exact h.grantRequest hidle hok hcan
  | waits a req _ hok _ => exact h.setWaiting hok
  | woken _ => exact ⟨h.conserved, h.available_nonneg, h.rows⟩

/-- A call with a scan does one of these, and the scan. -/
theorem ResourceInv.effect {s' : RsmSharedState n m} (heff : Effect s s')
    (h : ResourceInv s) : ResourceInv s' := by
  cases heff with
  | quiet hq => exact h.quiet hq
  | ended a _ _ => exact (h.endProcess a).trySatisfyWaiting
  | released a rel hactive hidle hnonneg hle =>
    exact (h.giveBack hactive hidle hnonneg hle).trySatisfyWaiting

/-! ## Reachable states -/

/-- What a successful `rsm_init` leaves. -/
theorem rsmInit_eq_some {pCount rCount avoid : Int} {exist : Vec rCount.toNat}
    {s₀ : RsmSharedState pCount.toNat rCount.toNat}
    (h : rsmInit pCount rCount exist avoid = some s₀) :
    s₀ = initialState _ _ exist (avoid == 1) ∧ ∀ j, 0 ≤ exist j := by
  unfold rsmInit at h
  split at h
  · exact absurd h (by simp)
  split at h
  · exact absurd h (by simp)
  split at h
  · exact absurd h (by simp)
  next hvalid =>
  split at h
  · exact absurd h (by simp)
  · exact ⟨(Option.some.inj h).symm, by simpa [validateVectorBounds] using hvalid⟩

/-- Every reachable state keeps the invariant. -/
theorem Reachable.resourceInv {exist : Vec m} {avoid : Bool} {sys : System n m}
    (hexist : ∀ j, 0 ≤ exist j) (h : Reachable (initialState n m exist avoid) sys) :
    ResourceInv sys.shared :=
  h.shared_induction (ResourceInv.initial avoid hexist) fun _ _ heff hs => hs.effect heff

/--
**Representation invariant.** In either mode, whatever the processes do, the
segment of every reachable state satisfies `RepInv`.
-/
theorem reachable_repInv {pCount rCount avoid : Int} {exist : Vec rCount.toNat}
    {s₀ : RsmSharedState pCount.toNat rCount.toNat}
    (hinit : rsmInit pCount rCount exist avoid = some s₀)
    {sys : System pCount.toNat rCount.toNat} (h : Reachable s₀ sys) : RepInv sys.shared := by
  obtain ⟨rfl, hexist⟩ := rsmInit_eq_some hinit
  exact (h.resourceInv hexist).repInv

/-! ## The demo scenario -/

/-- Two processes on two resource types with one unit each: both claim both
units, P0 (pid 10) asks for R0, then P1 (pid 11) for R1. Without avoidance
both get what they ask for; with avoidance P1 has to wait. -/
def demoSystem (avoid : Bool) : System 2 2 :=
  let s₁ := (System.init (initialState 2 2 (fun _ => 1) avoid)).call 10 (.processStarted 0)
  let s₂ := (s₁.call 11 (.processStarted 1)).call 10 (.claim fun _ => 1)
  let s₃ := (s₂.call 11 (.claim fun _ => 1)).call 10 (.request fun j => if j.val = 0 then 1 else 0)
  s₃.call 11 (.request fun j => if j.val = 1 then 1 else 0)

theorem demoSystem_reachable (avoid : Bool) :
    Reachable (initialState 2 2 (fun _ => 1) avoid) (demoSystem avoid) := by
  refine .step (.step (.step (.step (.step (.step .init (.call _ ?_)) (.call _ ?_)) (.call _ ?_))
    (.call _ ?_)) (.call _ ?_)) (.call _ ?_)
  all_goals cases avoid <;> rfl

theorem rsmInit_demo (avoid : Bool) :
    rsmInit 2 2 (fun _ => 1) (if avoid then 1 else 0) =
      some (initialState 2 2 (fun _ => 1) avoid) := by
  cases avoid <;> rfl

/-- With avoidance, P1 waits in the demo scenario. -/
theorem reachable_repInv_demo :
    (demoSystem true).shared.waiting 1 = true ∧ RepInv (demoSystem true).shared :=
  ⟨by decide, reachable_repInv (rsmInit_demo true) (demoSystem_reachable true)⟩

end OsProjects.Rsm
