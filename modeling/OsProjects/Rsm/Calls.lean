import OsProjects.Rsm.Definitions

/-!
# Resource manager — what a call can do

`CallEffect` lists, with their guards, all the ways a critical section can
leave the segment; `Call.run_effect` says the list is complete. Every
invariant of the library is proved from this list, never by unfolding the
calls again.
-/

namespace OsProjects.Rsm

variable {n m : Nat}

/-- The entrywise comparisons of the source decide the order of vectors. -/
theorem decide_forall_le (demand : Fin n → Vec m) (i : Fin n) (w : Vec m) :
    decide (∀ j, demand i j ≤ w j) = true ↔ demand i ≤ w := by
  simp [Pi.le_def]

/-! ## The caller -/

/-- The application id a call is charged to is started and owned by the caller. -/
theorem currentApidLocked_owner {s : RsmSharedState n m} {pid : Int} {g : Option (Fin n)}
    {a : Fin n} (h : (currentApidLocked s pid g).1 = some a) :
    s.started a = true ∧ s.apidToPid a = pid := by
  -- the cached id and the scan are checked against the same test
  have hscan : ∀ b, (List.finRange n).find? (fun i => s.started i && s.apidToPid i == pid) =
      some b → s.started b = true ∧ s.apidToPid b = pid := by
    intro b hb
    simpa using List.find?_some hb
  unfold currentApidLocked at h
  cases g with
  | none =>
    cases hf : (List.finRange n).find? fun i => s.started i && s.apidToPid i == pid with
    | none => simp [hf] at h
    | some b =>
      simp only [hf, Option.some.injEq] at h
      exact h ▸ hscan b hf
  | some c =>
    by_cases hc : (s.started c && s.apidToPid c == pid) = true
    · simp only [hc, if_true, Option.some.injEq] at h
      subst h
      simpa using hc
    · cases hf : (List.finRange n).find? fun i => s.started i && s.apidToPid i == pid with
      | none => simp [hf, hc] at h
      | some b =>
        simp only [hf, hc, Bool.false_eq_true, if_false, Option.some.injEq] at h
        exact h ▸ hscan b hf

/-! ## The effects -/

/-- The argument checks of `rsm_request`, all passed. -/
structure RequestOk (s : RsmSharedState n m) (apid : Fin n) (req : Vec m) : Prop where
  active : s.active apid = true
  nonneg : ∀ j, 0 ≤ req j
  le_existing : ∀ j, req j ≤ s.existing j
  claimed : s.avoidEnabled = true → s.claimed apid = true
  le_need : s.avoidEnabled = true → ∀ j, req j ≤ s.need apid j

/-- A request of `req` by `apid` can be granted: it is available and, in
avoidance mode, safe. -/
def CanGrant (s : RsmSharedState n m) (apid : Fin n) (req : Vec m) : Prop :=
  (∀ j, req j ≤ s.available j) ∧ (s.avoidEnabled = true → isSafe s apid req = true)

/-! A caller that goes to sleep changes no row but its own. -/

section Asleep

variable {s : RsmSharedState n m} {a i : Fin n} {req : Vec m}

/-- The wait leaves the recorded request as it is. -/
theorem request_setWaiting_self : (setWaiting (recordRequest s a req) a).request a = req := by
  simp [setWaiting, recordRequest]

theorem request_setWaiting_of_ne (hia : i ≠ a) :
    (setWaiting (recordRequest s a req) a).request i = s.request i := by
  simp [setWaiting, recordRequest, hia]

theorem waiting_setWaiting_self : (setWaiting (recordRequest s a req) a).waiting a = true := by
  simp [setWaiting]

theorem waiting_setWaiting_of_ne (hia : i ≠ a) :
    (setWaiting (recordRequest s a req) a).waiting i = s.waiting i := by
  simp [setWaiting, recordRequest, hia]

end Asleep

/-- The ways a critical section entered by process `pid` can end without a
rescan of the waiting processes. Every failing call is `unchanged`. -/
inductive QuietCall (pid : Int) (s : RsmSharedState n m) : Result n m → Prop where
  | unchanged (v : Int) (g : Option (Fin n)) : QuietCall pid s ⟨.ret v, s, g⟩
  | started (a : Fin n) (hfree : s.started a = false) :
      QuietCall pid s ⟨.ret 0, startProcess s pid a, some a⟩
  | claimed (a : Fin n) (g : Option (Fin n)) (v : Vec m)
      (howner : s.started a = true ∧ s.apidToPid a = pid) (hnonneg : ∀ j, 0 ≤ v j)
      (havoid : s.avoidEnabled = true)
      (hnew : s.claimed a = false ∧ s.requestedOnce a = false)
      (hle : ∀ j, v j ≤ s.existing j) : QuietCall pid s ⟨.ret 0, recordClaim s a v, g⟩
  | granted (a : Fin n) (g : Option (Fin n)) (req : Vec m)
      (howner : s.started a = true ∧ s.apidToPid a = pid) (hok : RequestOk s a req)
      (hcan : CanGrant (recordRequest s a req) a req) :
      QuietCall pid s ⟨.ret 0, grant (recordRequest s a req) a req, g⟩
  | waits (a : Fin n) (g : Option (Fin n)) (req : Vec m)
      (howner : s.started a = true ∧ s.apidToPid a = pid) (hok : RequestOk s a req)
      (hcannot : ¬ CanGrant (recordRequest s a req) a req) :
      QuietCall pid s ⟨.sleeping a, setWaiting (recordRequest s a req) a, g⟩

/-- The ways a critical section entered by process `pid` can end. -/
inductive CallEffect (pid : Int) (s : RsmSharedState n m) : Result n m → Prop where
  | quiet {r : Result n m} (h : QuietCall pid s r) : CallEffect pid s r
  | ended (a : Fin n) (howner : s.started a = true ∧ s.apidToPid a = pid)
      (hactive : s.active a = true) :
      CallEffect pid s ⟨.ret 0, trySatisfyWaiting (endProcess s a), none⟩
  | released (a : Fin n) (g : Option (Fin n)) (rel : Vec m)
      (howner : s.started a = true ∧ s.apidToPid a = pid) (hactive : s.active a = true)
      (hnonneg : ∀ j, 0 ≤ rel j) (hle : ∀ j, rel j ≤ s.allocation a j) :
      CallEffect pid s ⟨.ret 0, trySatisfyWaiting (giveBack s a rel), g⟩

/-- A registration takes a free row or fails. -/
theorem rsmProcessStarted_quiet (pid : Int) (g : Option (Fin n)) (s : RsmSharedState n m)
    (apid : Int) : QuietCall pid s (rsmProcessStarted pid g s apid) := by
  unfold rsmProcessStarted
  split
  · next h =>
    dsimp only
    split
    -- already started
    · exact .unchanged _ _
    · next hfree =>
      simp only [Bool.or_eq_true, not_or, Bool.not_eq_true] at hfree
      exact .started _ hfree.2
  · exact .unchanged _ _

/-- An end frees what the process held, and the scan follows. -/
theorem rsmProcessEnded_effect (pid : Int) (g : Option (Fin n)) (s : RsmSharedState n m) :
    CallEffect pid s (rsmProcessEnded pid g s) := by
  unfold rsmProcessEnded
  split
  · exact .quiet (.unchanged _ _)
  · next a g' hcur =>
    split
    · exact .quiet (.unchanged _ _)
    · next hact =>
      exact .ended a (currentApidLocked_owner (g := g) (by rw [hcur])) (by simpa using hact)

theorem rsmClaim_quiet (pid : Int) (g : Option (Fin n)) (s : RsmSharedState n m)
    (v : Vec m) : QuietCall pid s (rsmClaim pid g s v) := by
  unfold rsmClaim
  split
  · exact .unchanged _ _
  next hvalid =>
  split
  · exact .unchanged _ _
  next a g' hcur =>
  split
  · exact .unchanged _ _
  split
  · exact .unchanged _ _
  next havoid =>
  split
  · exact .unchanged _ _
  next hnew =>
  split
  · exact .unchanged _ _
  next hle =>
  -- every check has passed; what is left is the branch that records the claim
  simp only [Bool.or_eq_true, not_or, Bool.not_eq_true] at hnew
  push Not at hle
  exact .claimed a g' v (currentApidLocked_owner (g := g) (by rw [hcur]))
    (by simpa [validateVectorBounds] using hvalid) (by simpa using havoid) hnew hle

/-- The test of `rsm_request`, as the source writes it. -/
theorem canGrant_iff {s : RsmSharedState n m} {a : Fin n} {req : Vec m} :
    CanGrant s a req ↔
      (decide (∀ j, req j ≤ s.available j) &&
        (decide (∀ j, req j ≤ s.available j) && (!s.avoidEnabled || isSafe s a req))) =
        true := by
  unfold CanGrant
  cases s.avoidEnabled <;> simp

theorem rsmRequest_quiet (pid : Int) (g : Option (Fin n)) (s : RsmSharedState n m)
    (req : Vec m) : QuietCall pid s (rsmRequest pid g s req) := by
  unfold rsmRequest
  split
  · exact .unchanged _ _
  next hvalid =>
  split
  · exact .unchanged _ _
  next a g' hcur =>
  split
  · exact .unchanged _ _
  next hact =>
  split
  · exact .unchanged _ _
  next hex =>
  split
  · exact .unchanged _ _
  next hclaimed =>
  split
  · exact .unchanged _ _
  next hneed =>
  -- the seven checks have passed
  push Not at hex hneed
  have howner : s.started a = true ∧ s.apidToPid a = pid :=
    currentApidLocked_owner (g := g) (by rw [hcur])
  have hok : RequestOk s a req :=
    { active := by simpa using hact
      nonneg := by simpa [validateVectorBounds] using hvalid
      le_existing := hex
      claimed := fun hav => by simpa [hav] using hclaimed
      le_need := hneed }
  dsimp only
  split
  -- granted at once, or asleep
  · next hcan => exact .granted a g' req howner hok (canGrant_iff.mpr hcan)
  · next hcan => exact .waits a g' req howner hok (fun h => hcan (canGrant_iff.mp h))

/-- A release frees resources, and the scan follows. -/
theorem rsmRelease_effect (pid : Int) (g : Option (Fin n)) (s : RsmSharedState n m)
    (rel : Vec m) : CallEffect pid s (rsmRelease pid g s rel) := by
  unfold rsmRelease
  -- three checks and the lookup leave the state alone
  split
  · exact .quiet (.unchanged _ _)
  next hvalid =>
  split
  · exact .quiet (.unchanged _ _)
  next a g' hcur =>
  split
  · exact .quiet (.unchanged _ _)
  next hact =>
  split
  · exact .quiet (.unchanged _ _)
  next hle =>
  push Not at hle
  exact .released a g' rel (currentApidLocked_owner (g := g) (by rw [hcur]))
    (by simpa using hact) (by simpa [validateVectorBounds] using hvalid) hle

/-- The calls that end with a rescan of the waiting processes. -/
def Call.rescans : Call m → Bool
  | .processEnded => true
  | .release _ => true
  | _ => false

/-- The calls without a scan. -/
theorem Call.run_quiet {c : Call m} (hc : c.rescans = false) (pid : Int) (g : Option (Fin n))
    (s : RsmSharedState n m) : QuietCall pid s (c.run pid g s) := by
  cases c with
  | processStarted apid => exact rsmProcessStarted_quiet pid g s apid
  | claim v => exact rsmClaim_quiet pid g s v
  | request v => exact rsmRequest_quiet pid g s v
  | processEnded => exact absurd hc (by simp [Call.rescans])
  | release v => exact absurd hc (by simp [Call.rescans])

/-- Every call has one of the listed effects. -/
theorem Call.run_effect (c : Call m) (pid : Int) (g : Option (Fin n))
    (s : RsmSharedState n m) : CallEffect pid s (c.run pid g s) := by
  cases c with
  | processStarted apid => exact .quiet (rsmProcessStarted_quiet pid g s apid)
  | processEnded => exact rsmProcessEnded_effect pid g s
  | claim v => exact .quiet (rsmClaim_quiet pid g s v)
  | request v => exact .quiet (rsmRequest_quiet pid g s v)
  | release v => exact rsmRelease_effect pid g s v

/-- A call that returns -1 leaves the segment alone. -/
theorem Call.run_failed {c : Call m} {pid : Int} {g : Option (Fin n)}
    {s : RsmSharedState n m} (hfail : (c.run pid g s).outcome = .ret (-1)) :
    (c.run pid g s).shared = s := by
  have heff := c.run_effect pid g s
  generalize c.run pid g s = r at heff hfail ⊢
  -- every other effect returns 0 or goes to sleep
  cases heff with
  | quiet h =>
    cases h with
    | unchanged _ _ => rfl
    | started _ _ => simp at hfail
    | claimed _ _ _ _ _ _ _ _ => simp at hfail
    | granted _ _ _ _ _ _ => simp at hfail
    | waits _ _ _ _ _ _ => simp at hfail
  | ended _ _ _ => simp at hfail
  | released _ _ _ _ _ _ _ => simp at hfail

/-! ## Deferred grants -/

/-- When the body of `try_satisfy_waiting` grants, and what. -/
theorem grantWaiting_eq_some {i : Fin n} {s s' : RsmSharedState n m} :
    grantWaiting i s = some s' ↔
      (s.waiting i = true ∧ s.active i = true ∧ CanGrant s i (s.request i)) ∧
        s' = grantAndWake s i := by
  unfold grantWaiting CanGrant
  cases s.waiting i <;> cases s.active i <;> cases s.avoidEnabled <;>
    by_cases hav : ∀ j, s.request i j ≤ s.available j <;>
    cases isSafe s i (s.request i) <;> simp [hav, eq_comm]

/-- The invariant rule for `try_satisfy_waiting`. -/
theorem trySatisfyWaiting_preserves {P : RsmSharedState n m → Prop}
    (hgrant : ∀ i s, s.waiting i = true → s.active i = true → CanGrant s i (s.request i) →
      P s → P (grantAndWake s i))
    {s : RsmSharedState n m} (hs : P s) : P (trySatisfyWaiting s) := by
  refine (Scan.loop_reaches grantWaiting _ _ s).preserves (fun i t t' ht hP => ?_) hs
  obtain ⟨⟨hw, ha, hc⟩, rfl⟩ := grantWaiting_eq_some.mp ht
  exact hgrant i t hw ha hc hP

end OsProjects.Rsm
