import OsProjects.Rsm.Invariant

/-!
# Resource manager — grants seen from the other processes

A call changes the row of the application id it is charged to; in the row of
any other process it can do one thing, serve the request that process waits
for (`Call.run_frame`).

With `SleepInv` this gives the life of a request that blocks
(`reachable_wakeup`): until `sem_wait` returns, the id's row is as the request
left it or that request has been granted, `process_sem` holds the one post in
the second case only, and no second post can follow.
-/

namespace OsProjects.Rsm

variable {n m : Nat} {s : RsmSharedState n m}

/-! ## One process of the segment -/

/-- Everything the segment stores for one application id. -/
structure ProcessRow (m : Nat) where
  allocation : Vec m
  request : Vec m
  maxDemand : Vec m
  need : Vec m
  apidToPid : Int
  started : Bool
  active : Bool
  claimed : Bool
  requestedOnce : Bool
  waiting : Bool
  processSem : Nat

/-- All that the segment has about one process. -/
def RsmSharedState.process (s : RsmSharedState n m) (i : Fin n) : ProcessRow m where
  allocation := s.allocation i
  request := s.request i
  maxDemand := s.maxDemand i
  need := s.need i
  apidToPid := s.apidToPid i
  started := s.started i
  active := s.active i
  claimed := s.claimed i
  requestedOnce := s.requestedOnce i
  waiting := s.waiting i
  processSem := s.processSem i

/-- The row of a waiting process once its request is granted. -/
def ProcessRow.granted (avoid : Bool) (r : ProcessRow m) : ProcessRow m :=
  { r with
    allocation := fun j => r.allocation j + r.request j
    need := if avoid then fun j => r.need j - r.request j else r.need
    request := fun _ => 0
    waiting := false
    processSem := r.processSem + 1 }

section Rows

variable {a b : Fin n}

/-- A grant changes the row of its process only. -/
theorem process_grant_of_ne (hb : b ≠ a) (req : Vec m) :
    (grant s a req).process b = s.process b := by
  cases hav : s.avoidEnabled <;> simp [RsmSharedState.process, grant, hb, hav]

/-- So does a grant to a process that waits. -/
theorem process_grantAndWake_of_ne (hb : b ≠ a) :
    (grantAndWake s a).process b = s.process b := by
  cases hav : s.avoidEnabled <;> simp [RsmSharedState.process, grantAndWake, grant, hb, hav]

theorem process_grantAndWake_self :
    (grantAndWake s a).process a = (s.process a).granted s.avoidEnabled := by
  cases hav : s.avoidEnabled <;>
    simp [RsmSharedState.process, ProcessRow.granted, grantAndWake, grant, hav]

/-- A registration changes the row of the new process only. -/
theorem process_startProcess_of_ne (hb : b ≠ a) (pid : Int) :
    (startProcess s pid a).process b = s.process b := by
  simp [RsmSharedState.process, startProcess, hb]

/-- An end clears the row of its process only. -/
theorem process_endProcess_of_ne (hb : b ≠ a) : (endProcess s a).process b = s.process b := by
  simp [RsmSharedState.process, endProcess, hb]

/-- A claim is written to the row of its caller. -/
theorem process_recordClaim_of_ne (hb : b ≠ a) (v : Vec m) :
    (recordClaim s a v).process b = s.process b := by
  simp [RsmSharedState.process, recordClaim, hb]

/-- So is a request. -/
theorem process_recordRequest_of_ne (hb : b ≠ a) (v : Vec m) :
    (recordRequest s a v).process b = s.process b := by
  simp [RsmSharedState.process, recordRequest, hb]

/-- A caller marks itself as waiting, and nobody else. -/
theorem process_setWaiting_of_ne (hb : b ≠ a) : (setWaiting s a).process b = s.process b := by
  simp [RsmSharedState.process, setWaiting, hb]

/-- A release is taken from the row of its caller. -/
theorem process_giveBack_of_ne (hb : b ≠ a) (v : Vec m) :
    (giveBack s a v).process b = s.process b := by
  cases hav : s.avoidEnabled <;> simp [RsmSharedState.process, giveBack, hb, hav]

end Rows

/-! ## The rescan -/

/-- `t` is `s` after the waiting processes of `granted` were granted. -/
structure Granted (s t : RsmSharedState n m) (granted : List (Fin n)) : Prop where
  nodup : granted.Nodup
  avoid : t.avoidEnabled = s.avoidEnabled
  served : ∀ i ∈ granted, s.waiting i = true ∧ s.active i = true ∧
    t.process i = (s.process i).granted s.avoidEnabled
  others : ∀ i, i ∉ granted → t.process i = s.process i
  available : ∀ j, t.available j + (granted.map fun i => s.request i j).sum = s.available j

theorem Granted.refl (s : RsmSharedState n m) : Granted s s [] where
  nodup := List.nodup_nil
  avoid := rfl
  served := by simp
  others _ _ := rfl
  available := by simp

/-- One more grant. -/
theorem Granted.grantAndWake {t : RsmSharedState n m} {granted : List (Fin n)}
    (h : Granted s t granted) {i : Fin n} (hw : t.waiting i = true) (hact : t.active i = true) :
    Granted s (grantAndWake t i) (i :: granted) := by
  -- who has been served waits no more
  have hi : i ∉ granted := fun hi => by
    have := congrArg ProcessRow.waiting (h.served i hi).2.2
    exact absurd (hw.symm.trans this) (by simp [ProcessRow.granted])
  have hrow := h.others i hi
  refine ⟨List.nodup_cons.mpr ⟨hi, h.nodup⟩, h.avoid, ?_, ?_, ?_⟩
  · intro k hk
    rcases List.mem_cons.mp hk with rfl | hk'
    · rw [process_grantAndWake_self, h.avoid, hrow]
      exact ⟨(congrArg ProcessRow.waiting hrow).symm.trans hw,
        (congrArg ProcessRow.active hrow).symm.trans hact, rfl⟩
    · have hki : k ≠ i := by
        rintro rfl
        exact hi hk'
      rw [process_grantAndWake_of_ne hki]
      exact h.served k hk'
  · intro k hk
    rw [List.mem_cons, not_or] at hk
    rw [process_grantAndWake_of_ne hk.1, h.others k hk.2]
  · intro j
    have hreq : t.request i = s.request i := congrArg ProcessRow.request hrow
    have := h.available j
    simp only [Rsm.grantAndWake, grant, hreq, List.map_cons, List.sum_cons]
    omega

/-- The scan grants some requests and changes nothing else. -/
theorem trySatisfyWaiting_granted (s : RsmSharedState n m) :
    ∃ granted, Granted s (trySatisfyWaiting s) granted :=
  trySatisfyWaiting_preserves (P := fun t => ∃ granted, Granted s t granted)
    (fun i _ hw hact _ ⟨granted, h⟩ => ⟨i :: granted, h.grantAndWake hw hact⟩) ⟨[], .refl s⟩

/-! ## One call -/

/-- No call is charged to a started id of another process. -/
theorem Call.apid_ne {c : Call m} {pid : Int} {g : Option (Fin n)} {a : Fin n}
    (hstarted : s.started a = true) (hother : s.apidToPid a ≠ pid) :
    c.apid pid g s ≠ some a := by
  intro hc
  cases c with
  -- a registration takes a free id
  | processStarted apid =>
    simp only [Call.apid] at hc
    split at hc
    · split at hc
      · exact absurd hc (by simp)
      · next hfree =>
        obtain rfl := Option.some.inj hc
        exact hfree hstarted
    · exact absurd hc (by simp)
  -- the other calls run under the id of their caller
  | processEnded | claim _ | request _ | release _ =>
    exact hother (currentApidLocked_owner hc).2

/-- `mid` is `s` after the updates a call makes itself, in the row of the id
`apid` it is charged to. -/
structure OwnStep (apid : Option (Fin n)) (s mid : RsmSharedState n m) : Prop where
  avoid : mid.avoidEnabled = s.avoidEnabled
  others : ∀ b, apid ≠ some b → mid.process b = s.process b
  units : ∀ j, mid.available j + apid.elim 0 (mid.allocation · j) =
    s.available j + apid.elim 0 (s.allocation · j)

theorem OwnStep.refl (apid : Option (Fin n)) (s : RsmSharedState n m) : OwnStep apid s s :=
  ⟨rfl, fun _ _ => rfl, fun _ => rfl⟩

/-- An update of the row of `a` that keeps what is available and what `a`
holds together. -/
theorem OwnStep.of_row {mid : RsmSharedState n m} {a : Fin n}
    (havoid : mid.avoidEnabled = s.avoidEnabled)
    (hother : ∀ b, b ≠ a → mid.process b = s.process b)
    (hunits : ∀ j, mid.available j + mid.allocation a j = s.available j + s.allocation a j) :
    OwnStep (some a) s mid :=
  ⟨havoid, fun b hb => hother b fun h => hb (by rw [h]), hunits⟩

/-- The calls change the row of their caller only. -/
theorem rsmProcessStarted_own (pid : Int) (g : Option (Fin n)) (s : RsmSharedState n m)
    (apid : Int) : OwnStep ((Call.processStarted (m := m) apid).apid pid g s) s
      (rsmProcessStarted pid g s apid).shared := by
  unfold rsmProcessStarted Call.apid
  dsimp only
  split
  · next h =>
    -- a taken id is refused
    cases s.started ⟨apid.toNat, by omega⟩ with
    | true => simpa using OwnStep.refl none s
    | false =>
      simp only [Bool.or_false, Bool.false_eq_true, if_false]
      split
      · exact .refl _ s
      · exact OwnStep.of_row rfl (fun b hb => process_startProcess_of_ne hb pid) fun _ => rfl
  · exact .refl _ s

theorem rsmClaim_own (pid : Int) (g : Option (Fin n)) (s : RsmSharedState n m) (v : Vec m) :
    OwnStep (currentApidLocked s pid g).1 s (rsmClaim pid g s v).shared := by
  unfold rsmClaim
  split
  · exact .refl _ s
  -- the checks of the call, none of which changes anything
  split
  · exact .refl _ s
  next a g' hcur =>
  rw [hcur]
  split
  · exact .refl _ s
  split
  · exact .refl _ s
  split
  · exact .refl _ s
  split
  · exact .refl _ s
  exact OwnStep.of_row rfl (fun b hb => process_recordClaim_of_ne hb v) fun _ => rfl

theorem rsmRequest_own (pid : Int) (g : Option (Fin n)) (s : RsmSharedState n m) (v : Vec m) :
    OwnStep (currentApidLocked s pid g).1 s (rsmRequest pid g s v).shared := by
  unfold rsmRequest
  split
  · exact .refl _ s
  split
  · exact .refl _ s
  next a g' hcur =>
  rw [hcur]
  split
  · exact .refl _ s
  split
  · exact .refl _ s
  split
  · exact .refl _ s
  split
  · exact .refl _ s
  dsimp only
  split
  -- granted at once
  · refine OwnStep.of_row rfl (fun b hb => ?_) fun j => ?_
    · rw [process_grant_of_ne hb, process_recordRequest_of_ne hb]
    · simp only [grant, recordRequest, Function.update_self]
      omega
  -- asleep
  · refine OwnStep.of_row rfl (fun b hb => ?_) fun _ => rfl
    rw [process_setWaiting_of_ne hb, process_recordRequest_of_ne hb]

/-- A call first updates the row it is charged to, and then grants to waiting
processes; an idle caller is not among them. -/
theorem Call.run_own (c : Call m) (pid : Int) (g : Option (Fin n)) (s : RsmSharedState n m) :
    ∃ mid granted, OwnStep (c.apid pid g s) s mid ∧
      Granted mid (c.run pid g s).shared granted ∧
      ((∀ a, s.apidToPid a = pid → s.waiting a = false) →
        ∀ a, c.apid pid g s = some a → a ∉ granted) := by
  cases c with
  | processStarted apid => exact ⟨_, [], rsmProcessStarted_own pid g s apid, .refl _, by simp⟩
  | claim v => exact ⟨_, [], rsmClaim_own pid g s v, .refl _, by simp⟩
  | request v => exact ⟨_, [], rsmRequest_own pid g s v, .refl _, by simp⟩
  | processEnded =>
    simp only [Call.run, Call.apid, rsmProcessEnded]
    split
    · exact ⟨s, [], .refl _ s, .refl s, by simp⟩
    next a g' hcur =>
    rw [hcur]
    split
    · exact ⟨s, [], .refl _ s, .refl s, by simp⟩
    -- the units of the ended process go to those that wait
    obtain ⟨granted, hgranted⟩ := trySatisfyWaiting_granted (endProcess s a)
    refine ⟨endProcess s a, granted,
      .of_row rfl (fun b hb => process_endProcess_of_ne hb) fun j => ?_, hgranted, ?_⟩
    · simp [endProcess]
    · rintro - b hb hmem
      obtain rfl := Option.some.inj hb
      simpa [endProcess] using (hgranted.served a hmem).1
  | release v =>
    simp only [Call.run, Call.apid, rsmRelease]
    split
    · exact ⟨s, [], .refl _ s, .refl s, by simp⟩
    split
    · exact ⟨s, [], .refl _ s, .refl s, by simp⟩
    next a g' hcur =>
    rw [hcur]
    split
    · exact ⟨s, [], .refl _ s, .refl s, by simp⟩
    split
    · exact ⟨s, [], .refl _ s, .refl s, by simp⟩
    obtain ⟨granted, hgranted⟩ := trySatisfyWaiting_granted (giveBack s a v)
    refine ⟨giveBack s a v, granted,
      .of_row rfl (fun b hb => process_giveBack_of_ne hb v) fun j => ?_, hgranted, ?_⟩
    · simp only [giveBack, Function.update_self]
      omega
    · intro hidle b hb hmem
      obtain rfl := Option.some.inj hb
      have howner := (currentApidLocked_owner (g := g) (by rw [hcur])).2
      have hw : s.waiting a = true := (hgranted.served a hmem).1
      rw [hidle a howner] at hw
      exact absurd hw (by simp)

/-- **Frame of a call** by a process that is not waiting. The rows of the
other ids are kept, except that the requests of some waiting processes are
granted, out of what is available or was the caller's. -/
theorem Call.run_frame (c : Call m) {pid : Int} {g : Option (Fin n)} {s : RsmSharedState n m}
    (hidle : ∀ a, s.apidToPid a = pid → s.waiting a = false) :
    ∃ granted : List (Fin n), granted.Nodup ∧
      (∀ b ∈ granted, c.apid pid g s ≠ some b ∧ s.waiting b = true ∧ s.active b = true ∧
        (c.run pid g s).shared.process b = (s.process b).granted s.avoidEnabled) ∧
      (∀ b, c.apid pid g s ≠ some b → b ∉ granted →
        (c.run pid g s).shared.process b = s.process b) ∧
      ∀ j, (c.run pid g s).shared.available j +
          (c.apid pid g s).elim 0 ((c.run pid g s).shared.allocation · j) +
          (granted.map fun b => s.request b j).sum =
        s.available j + (c.apid pid g s).elim 0 (s.allocation · j) := by
  obtain ⟨mid, granted, hown, hgranted, hcaller⟩ := c.run_own pid g s
  have hne : ∀ b ∈ granted, c.apid pid g s ≠ some b := fun b hb hc => hcaller hidle b hc hb
  have hrow : ∀ b ∈ granted, mid.process b = s.process b := fun b hb => hown.others b (hne b hb)
  refine ⟨granted, hgranted.nodup, ?_, ?_, ?_⟩
  · intro b hb
    obtain ⟨hw, hact, hserved⟩ := hgranted.served b hb
    rw [hrow b hb, hown.avoid] at hserved
    exact ⟨hne b hb, (congrArg ProcessRow.waiting (hrow b hb)).symm.trans hw,
      (congrArg ProcessRow.active (hrow b hb)).symm.trans hact, hserved⟩
  · intro b hb hmem
    exact (hgranted.others b hmem).trans (hown.others b hb)
  · intro j
    have hreq : (granted.map fun b => mid.request b j).sum =
        (granted.map fun b => s.request b j).sum := by
      congr 1
      refine List.map_congr_left fun b hb => ?_
      exact congrFun (congrArg ProcessRow.request (hrow b hb)) j
    -- the rescan leaves the caller's row alone
    have hkept : (c.apid pid g s).elim 0 ((c.run pid g s).shared.allocation · j) =
        (c.apid pid g s).elim 0 (mid.allocation · j) := by
      cases ha : c.apid pid g s with
      | none => rfl
      | some a =>
        exact congrFun (congrArg ProcessRow.allocation
          (hgranted.others a (hcaller hidle a ha))) j
    have havail := hgranted.available j
    have hunits := hown.units j
    rw [hreq] at havail
    rw [hkept]
    omega

/-! ## A blocked request -/

/-- A call puts nobody else to sleep. -/
theorem System.call_asleep_of_ne (sys : System n m) {pid q : Int} (c : Call m) (hq : pid ≠ q) :
    (sys.call q c).asleep pid = sys.asleep pid := by
  unfold System.call
  dsimp only
  cases (c.run q (sys.gLocalApid q) sys.shared).outcome with
  | ret _ => rfl
  | sleeping apid => exact Function.update_of_ne hq _ _

/-- The process that makes a step. -/
def Event.pid : Event m → Int
  | .call pid _ => pid
  | .wake pid => pid
  | .fork parent _ => parent

/-- A step of another process either leaves the row of a process alone, or
grants the request that waits there. -/
theorem Step.owned_row {sys sys' : System n m} {e : Event m} (hstep : Step sys e sys')
    (hinv : SleepInv sys.shared sys.asleep) {a : Fin n} (hstarted : sys.shared.started a = true)
    (he : sys.shared.apidToPid a ≠ e.pid) :
    sys'.shared.process a = sys.shared.process a ∨
      (sys.shared.waiting a = true ∧ ∃ avoid,
        sys'.shared.process a = (sys.shared.process a).granted avoid) := by
  cases hstep with
  -- the scan may have granted the request of `a`
  | @call q c hawake =>
    obtain ⟨granted, -, hserved, hothers, -⟩ := c.run_frame (g := sys.gLocalApid q)
      (fun b hb => hinv.caller_not_waiting hawake hb)
    by_cases hmem : a ∈ granted
    · obtain ⟨-, hw, -, hgrant⟩ := hserved a hmem
      exact .inr ⟨hw, _, hgrant⟩
    · exact .inl (hothers a (Call.apid_ne hstarted he) hmem)
  -- a wake-up takes the token of the one who sleeps
  | @wake q b hqb htoken =>
    have hba : a ≠ b := by
      rintro rfl
      exact he (hinv.pending q a hqb).2.1
    exact .inl (by simp [RsmSharedState.process, System.wake, hba])
  | fork _ _ _ => exact .inl rfl

/-- A process that sleeps makes no step but its wake-up. -/
theorem Step.asleep_row {sys sys' : System n m} {e : Event m} (hstep : Step sys e sys')
    (hinv : SleepInv sys.shared sys.asleep) {pid : Int} {a : Fin n}
    (hasleep : sys.asleep pid = some a) (he : e ≠ .wake pid) :
    sys'.asleep pid = some a ∧
      (sys'.shared.process a = sys.shared.process a ∨
        (sys.shared.waiting a = true ∧ ∃ avoid,
          sys'.shared.process a = (sys.shared.process a).granted avoid)) := by
  obtain ⟨hstarted, howner, -⟩ := hinv.pending pid a hasleep
  -- a sleeper makes no call
  have hother : pid ≠ e.pid := by
    rintro rfl
    cases hstep with
    | call c hawake => exact absurd (hasleep.symm.trans hawake) (by simp)
    | wake _ _ => exact he rfl
    | fork hawake _ _ => exact absurd (hasleep.symm.trans hawake) (by simp)
  refine ⟨?_, hstep.owned_row hinv hstarted (by rwa [howner])⟩
  -- nobody else wakes it
  cases hstep with
  | call c _ => exact (sys.call_asleep_of_ne c hother).trans hasleep
  | wake _ _ => exact (Function.update_of_ne hother _ _).trans hasleep
  | fork _ _ _ => exact hasleep

/-- Runs in which process `pid` does not return from `sem_wait`; `k` counts
the posts of `process_sem[a]`. -/
inductive BlockedRun (pid : Int) (a : Fin n) : System n m → Nat → System n m → Prop where
  | refl (sys : System n m) : BlockedRun pid a sys 0 sys
  | step {sys mid sys' : System n m} {k : Nat} {e : Event m} (h : BlockedRun pid a sys k mid)
      (he : e ≠ .wake pid) (hstep : Step mid e sys') :
      BlockedRun pid a sys (k + (sys'.shared.processSem a - mid.shared.processSem a)) sys'

/-- The others go on from a reachable state. -/
theorem BlockedRun.reachable {s₀ : RsmSharedState n m} {pid : Int} {a : Fin n}
    {sys sys' : System n m} {k : Nat} (h : BlockedRun pid a sys k sys') (hr : Reachable s₀ sys) :
    Reachable s₀ sys' := by
  induction h with
  | refl => exact hr
  | step _ _ hstep ih => exact .step ih hstep

/-- The run form of `Step.asleep_row`: nothing has happened to the row, or
exactly one post together with the grant. -/
theorem BlockedRun.row {exist : Vec m} {avoid : Bool} {pid : Int} {a : Fin n}
    {sys sys' : System n m} {k : Nat} (h : BlockedRun pid a sys k sys')
    (hr : Reachable (initialState n m exist avoid) sys) (hasleep : sys.asleep pid = some a) :
    sys'.asleep pid = some a ∧
      ((k = 0 ∧ sys'.shared.process a = sys.shared.process a) ∨
        (k = 1 ∧ ∃ avoid, sys'.shared.process a = (sys.shared.process a).granted avoid)) := by
  induction h with
  | refl => exact ⟨hasleep, .inl ⟨rfl, rfl⟩⟩
  | @step mid sys' k e hrun he hstep ih =>
    obtain ⟨hmid, hrow⟩ := ih
    obtain ⟨hasleep', hstep'⟩ := hstep.asleep_row (hrun.reachable hr).sleepInv hmid he
    refine ⟨hasleep', ?_⟩
    have hsem : sys'.shared.processSem a = (sys'.shared.process a).processSem := rfl
    have hsemMid : mid.shared.processSem a = (mid.shared.process a).processSem := rfl
    rw [hsem, hsemMid]
    rcases hrow with ⟨rfl, hsame⟩ | ⟨rfl, av, hgranted⟩
    · rcases hstep' with hkeep | ⟨-, av, hgrant⟩
      · exact .inl ⟨by rw [hkeep, hsame]; omega, hkeep.trans hsame⟩
      · refine .inr ⟨?_, av, by rw [hgrant, hsame]⟩
        rw [hgrant, hsame]
        simp [ProcessRow.granted]
    · rcases hstep' with hkeep | ⟨hwait, -⟩
      · exact .inr ⟨by rw [hkeep]; omega, av, hkeep.trans hgranted⟩
      -- it has been granted, so it does not wait any more
      · have : mid.shared.waiting a = false := congrArg ProcessRow.waiting hgranted
        rw [this] at hwait
        exact absurd hwait (by simp)

/-- A request that goes to sleep is on record, waits, and has been given
nothing. -/
theorem rsmRequest_sleeping {pid : Int} {g : Option (Fin n)} {v : Vec m} {a : Fin n}
    (h : (rsmRequest pid g s v).outcome = .sleeping a) :
    s.apidToPid a = pid ∧
      (rsmRequest pid g s v).shared = setWaiting (recordRequest s a v) a := by
  unfold rsmRequest at h ⊢
  split at h
  · exact absurd h (by simp)
  next hvalid =>
  split at h
  · exact absurd h (by simp)
  next b g' hcur =>
  -- every other way out returns; only the last one sleeps
  have howner := (currentApidLocked_owner (g := g) (by rw [hcur])).2
  simp only [hvalid]
  split at h
  · exact absurd h (by simp)
  split at h
  · exact absurd h (by simp)
  split at h
  · exact absurd h (by simp)
  split at h
  · exact absurd h (by simp)
  dsimp only at h
  split at h
  · exact absurd h (by simp)
  next hact hex hclaimed hneed hcan =>
  obtain rfl := Outcome.sleeping.inj h
  simp [hact, hex, hclaimed, hneed, hcan, howner]

/-- The two places where a pending id can be. -/
theorem SleepInv.tokens {asleep : Int → Option (Fin n)} (h : SleepInv s asleep) (a : Fin n) :
    s.processSem a ≤ 1 ∧
      ((∃ pid, asleep pid = some a) ↔ Xor (s.waiting a = true) (s.processSem a = 1)) ∧
      ((¬ ∃ pid, asleep pid = some a) → s.waiting a = false ∧ s.processSem a = 0) := by
  by_cases ha : ∃ pid, asleep pid = some a
  · obtain ⟨pid, hpid⟩ := ha
    have hex : ∃ pid, asleep pid = some a := ⟨pid, hpid⟩
    rcases (h.pending pid a hpid).2.2 with ⟨hw, hsem⟩ | ⟨hw, hsem⟩
    · simp [hex, hw, hsem]
    · simp [hex, hw, hsem]
  · obtain ⟨hw, hsem⟩ := h.idle a fun hsl => ha ⟨_, hsl⟩
    simp [ha, hw, hsem]

/-- A process that sleeps on `a` can wake iff `a` has a token. -/
theorem exists_wake_iff {sys : System n m} {pid : Int} {a : Fin n}
    (hasleep : sys.asleep pid = some a) :
    (∃ sys', Step sys (.wake pid) sys') ↔ 0 < sys.shared.processSem a := by
  constructor
  · rintro ⟨_, hstep⟩
    cases hstep with
    | wake hb htoken =>
      obtain rfl := Option.some.inj (hasleep.symm.trans hb)
      exact htoken
  · exact fun htoken => ⟨_, .wake hasleep htoken⟩

/-- The life of a request that blocks, up to the return of `sem_wait`. -/
theorem blocked_request {exist : Vec m} {avoid : Bool} {sys : System n m}
    (hr : Reachable (initialState n m exist avoid) sys) {pid : Int} {v : Vec m} {a : Fin n}
    (hawake : sys.asleep pid = none)
    (hout : ((Call.request v).run pid (sys.gLocalApid pid) sys.shared).outcome = .sleeping a)
    {k : Nat} {sys' : System n m} (hrun : BlockedRun pid a (sys.call pid (.request v)) k sys') :
    sys'.asleep pid = some a ∧
      ((k = 0 ∧ sys'.shared.waiting a = true ∧ sys'.shared.processSem a = 0 ∧
          sys'.shared.request a = v ∧ sys'.shared.allocation a = sys.shared.allocation a) ∨
        (k = 1 ∧ sys'.shared.waiting a = false ∧ sys'.shared.processSem a = 1 ∧
          sys'.shared.request a = 0 ∧
          sys'.shared.allocation a = fun j => sys.shared.allocation a j + v j)) := by
  obtain ⟨howner, hshared⟩ := rsmRequest_sleeping hout
  have hsem := (hr.sleepInv.owner_idle hawake howner).2
  -- the row right after the critical section
  have hcall : (sys.call pid (.request v)).shared =
      setWaiting (recordRequest sys.shared a v) a := hshared
  have hasleep : (sys.call pid (.request v)).asleep pid = some a := by
    unfold System.call
    dsimp only
    rw [hout]
    exact Function.update_self _ _ _
  obtain ⟨hasleep', hrow⟩ := hrun.row (.step hr (.call _ hawake)) hasleep
  have hwaiting : sys'.shared.waiting a = (sys'.shared.process a).waiting := rfl
  have hpost : sys'.shared.processSem a = (sys'.shared.process a).processSem := rfl
  have hreq : sys'.shared.request a = (sys'.shared.process a).request := rfl
  have halloc : sys'.shared.allocation a = (sys'.shared.process a).allocation := rfl
  refine ⟨hasleep', hrow.imp (fun ⟨hk, hsame⟩ => ⟨hk, ?_⟩) (fun ⟨hk, av, hgranted⟩ => ⟨hk, ?_⟩)⟩
  · rw [hwaiting, hpost, hreq, halloc, hsame, hcall]
    simp [RsmSharedState.process, setWaiting, recordRequest, hsem]
  · rw [hwaiting, hpost, hreq, halloc, hgranted, hcall]
    simp only [RsmSharedState.process, ProcessRow.granted, setWaiting, recordRequest,
      Function.update_self, hsem]
    exact ⟨trivial, trivial, rfl, trivial⟩

/--
**Exactly-once wake-up and frame of grants.** In either mode, in every
reachable state,

1. `process_sem[a]` is 0 or 1; a process is between its critical section and
   the return of `sem_wait` on `a` iff exactly one of `waiting[a] = 1` and
   `process_sem[a] = 1` holds, and otherwise both are 0;
2. a call leaves the row of every id it is not charged to alone, except that
   it may grant the requests of some waiting processes, and those vectors come
   out of what was available or the caller's own;
3. take any run from a request that went to sleep in which its process has
   not woken: `process_sem[a]` was posted at most once, by the step that moved
   the requested vector to its allocation. The process can wake exactly when
   there was a post, and that leaves neither a token nor the flag behind.
-/
theorem reachable_wakeup {pCount rCount avoid : Int} {exist : Vec rCount.toNat}
    {s₀ : RsmSharedState pCount.toNat rCount.toNat}
    (hinit : rsmInit pCount rCount exist avoid = some s₀)
    {sys : System pCount.toNat rCount.toNat} (h : Reachable s₀ sys) :
    (∀ a, sys.shared.processSem a ≤ 1 ∧
      ((∃ pid, sys.asleep pid = some a) ↔
        Xor (sys.shared.waiting a = true) (sys.shared.processSem a = 1)) ∧
      ((¬ ∃ pid, sys.asleep pid = some a) →
        sys.shared.waiting a = false ∧ sys.shared.processSem a = 0)) ∧
    (∀ pid (c : Call rCount.toNat), sys.asleep pid = none →
      ∃ granted : List (Fin pCount.toNat), granted.Nodup ∧
        (∀ b ∈ granted, c.apid pid (sys.gLocalApid pid) sys.shared ≠ some b ∧
          sys.shared.waiting b = true ∧
          (sys.call pid c).shared.process b =
            { sys.shared.process b with
              allocation := fun j => sys.shared.allocation b j + sys.shared.request b j
              need := if sys.shared.avoidEnabled then
                  fun j => sys.shared.need b j - sys.shared.request b j
                else sys.shared.need b
              request := fun _ => 0
              waiting := false
              processSem := 1 }) ∧
        (∀ b, c.apid pid (sys.gLocalApid pid) sys.shared ≠ some b → b ∉ granted →
          (sys.call pid c).shared.process b = sys.shared.process b) ∧
        ∀ j, (sys.call pid c).shared.available j +
            (c.apid pid (sys.gLocalApid pid) sys.shared).elim 0
              ((sys.call pid c).shared.allocation · j) +
            (granted.map fun b => sys.shared.request b j).sum =
          sys.shared.available j +
            (c.apid pid (sys.gLocalApid pid) sys.shared).elim 0 (sys.shared.allocation · j)) ∧
    ∀ pid (v : Vec rCount.toNat) a, sys.asleep pid = none →
      ((Call.request v).run pid (sys.gLocalApid pid) sys.shared).outcome = .sleeping a →
      ∀ k sys', BlockedRun pid a (sys.call pid (.request v)) k sys' →
        sys'.asleep pid = some a ∧
        ((k = 0 ∧ sys'.shared.waiting a = true ∧ sys'.shared.processSem a = 0 ∧
            sys'.shared.request a = v ∧ sys'.shared.allocation a = sys.shared.allocation a) ∨
          (k = 1 ∧ sys'.shared.waiting a = false ∧ sys'.shared.processSem a = 1 ∧
            sys'.shared.request a = 0 ∧
            sys'.shared.allocation a = fun j => sys.shared.allocation a j + v j)) ∧
        ((∃ sys'', Step sys' (.wake pid) sys'') ↔ k = 1) ∧
        ∀ sys'', Step sys' (.wake pid) sys'' → sys''.asleep pid = none ∧
          sys''.shared.waiting a = false ∧ sys''.shared.processSem a = 0 ∧
          sys''.shared.allocation a = fun j => sys.shared.allocation a j + v j := by
  obtain ⟨rfl, hexist⟩ := rsmInit_eq_some hinit
  have hsleep := h.sleepInv
  refine ⟨hsleep.tokens, ?_, ?_⟩
  · intro pid c hawake
    obtain ⟨granted, hnodup, hserved, hothers, hunits⟩ := c.run_frame (g := sys.gLocalApid pid)
      (fun b hb => hsleep.caller_not_waiting (a := b) hawake hb)
    refine ⟨granted, hnodup, ?_, hothers, hunits⟩
    intro b hb
    obtain ⟨hne, hw, -, hrow⟩ := hserved b hb
    -- a waiting id has no token, so the post is the only one
    have hsem : sys.shared.processSem b = 0 := by
      by_contra hpos
      have htok := hsleep.tokens b
      by_cases hasl : ∃ pid, sys.asleep pid = some b
      · have hxor := htok.2.1.mp hasl
        have hone : sys.shared.processSem b = 1 := by omega
        simp [hw, hone] at hxor
      · exact hpos (htok.2.2 hasl).2
    have hone : ((sys.shared.process b).granted sys.shared.avoidEnabled).processSem = 1 := by
      simp [ProcessRow.granted, RsmSharedState.process, hsem]
    refine ⟨hne, hw, hrow.trans ?_⟩
    rw [← hone]
    rfl
  · intro pid v a hawake hout k sys' hrun
    obtain ⟨hasleep, hlife⟩ := blocked_request h hawake hout hrun
    have hwake := exists_wake_iff hasleep
    refine ⟨hasleep, hlife, ?_, ?_⟩
    · rw [hwake]
      rcases hlife with ⟨hk, -, hsem, -⟩ | ⟨hk, -, hsem, -⟩
      · omega
      · omega
    · intro sys'' hstep
      have htoken := hwake.mp ⟨sys'', hstep⟩
      obtain ⟨-, -, hsem, -⟩ | ⟨-, hw, hsem, -, halloc⟩ := hlife
      · omega
      · cases hstep with
        | wake hb _ =>
          obtain rfl := Option.some.inj (hasleep.symm.trans hb)
          simp [System.wake, hw, hsem, halloc]

/-- In the demo scenario without avoidance, P0 asks for the unit P1 holds: it
sleeps, and cannot wake before a grant. -/
theorem reachable_wakeup_demo :
    ((demoSystem false).call 10 (.request fun j => if j = 1 then 1 else 0)).asleep 10 = some 0 ∧
      ¬ ∃ sys', Step ((demoSystem false).call 10 (.request fun j => if j = 1 then 1 else 0))
        (.wake 10) sys' := by
  obtain ⟨hasleep, -, hwake, -⟩ :=
    (reachable_wakeup (rsmInit_demo false) (demoSystem_reachable false)).2.2 10
      (fun j => if j = (1 : Fin 2) then 1 else 0) (0 : Fin 2) rfl (by decide) 0 _ (.refl _)
  exact ⟨hasleep, fun hex => absurd (hwake.mp hex) (by decide)⟩

end OsProjects.Rsm
