import OsProjects.Rsm.Calls

/-!
# Resource manager — sleeping processes

`SleepInv` ties the `waiting` flags and the semaphores of the segment to the
processes that are inside `sem_wait`. It gives the one fact the segment alone
cannot: a process that makes a call is not waiting
(`SleepInv.caller_not_waiting`), because its application id is its own and a
waiting owner is asleep.

`Step.effect` folds that fact into the list of effects, and
`Reachable.shared_induction` is the induction rule for invariants of the
segment.
-/

namespace OsProjects.Rsm

variable {n m : Nat}

/-- Application id `a` is pending in exactly one way: its request still
waits, or it was granted and the token not yet taken. -/
def Pending (s : RsmSharedState n m) (a : Fin n) : Prop :=
  (s.waiting a = true ∧ s.processSem a = 0) ∨ (s.waiting a = false ∧ s.processSem a = 1)

/-- The processes inside `sem_wait` are the owners of the pending ids. -/
structure SleepInv (s : RsmSharedState n m) (asleep : Int → Option (Fin n)) : Prop where
  idle : ∀ a, asleep (s.apidToPid a) ≠ some a → s.waiting a = false ∧ s.processSem a = 0
  pending : ∀ pid a, asleep pid = some a →
    s.started a = true ∧ s.apidToPid a = pid ∧ Pending s a

variable {s : RsmSharedState n m} {asleep : Int → Option (Fin n)}

/-- What an awake process owns is not pending. -/
theorem SleepInv.owner_idle (h : SleepInv s asleep) {pid : Int} {a : Fin n}
    (hawake : asleep pid = none) (howner : s.apidToPid a = pid) :
    s.waiting a = false ∧ s.processSem a = 0 :=
  h.idle a (by rw [howner, hawake]; simp)

/-- A process that makes a call is not waiting. -/
theorem SleepInv.caller_not_waiting (h : SleepInv s asleep) {pid : Int} {a : Fin n}
    (hawake : asleep pid = none) (howner : s.apidToPid a = pid) : s.waiting a = false :=
  (h.owner_idle hawake howner).1

/-- An id that is not started is not pending. -/
theorem SleepInv.free_idle (h : SleepInv s asleep) {a : Fin n} (hfree : s.started a = false) :
    s.waiting a = false ∧ s.processSem a = 0 := by
  refine h.idle a ?_
  intro hsleep
  have := (h.pending _ a hsleep).1
  rw [hfree] at this
  exact absurd this (by simp)

theorem SleepInv.init (exist : Vec m) (avoid : Bool) :
    SleepInv (initialState n m exist avoid) fun _ => none where
  idle := by simp [initialState]
  pending := by simp

/-- Only these four fields matter. -/
theorem SleepInv.congr {s' : RsmSharedState n m} (h : SleepInv s asleep)
    (hw : s'.waiting = s.waiting) (hsem : s'.processSem = s.processSem)
    (hst : s'.started = s.started) (hpid : s'.apidToPid = s.apidToPid) :
    SleepInv s' asleep where
  idle := by rw [hw, hsem, hpid]; exact h.idle
  pending := by unfold Pending; rw [hw, hsem, hst, hpid]; exact h.pending

/-- A deferred grant turns `waiting` into one token. -/
theorem SleepInv.grantAndWake (h : SleepInv s asleep) {i : Fin n} (hw : s.waiting i = true) :
    SleepInv (grantAndWake s i) asleep where
  idle := by
    intro a ha
    have hidle := h.idle a ha
    -- `i` is waiting, so its owner is asleep on it
    have hne : a ≠ i := by
      rintro rfl
      rw [hw] at hidle
      exact absurd hidle.1 (by simp)
    simpa [Rsm.grantAndWake, grant, hne] using hidle
  pending := by
    intro pid a ha
    obtain ⟨hst, hpid, hp⟩ := h.pending pid a ha
    refine ⟨hst, hpid, ?_⟩
    by_cases hai : a = i
    · subst hai
      -- it was waiting without a token; now it has one and waits no more
      rcases hp with ⟨_, hsem⟩ | ⟨hnw, _⟩
      · right
        simp [Rsm.grantAndWake, hsem]
      · rw [hw] at hnw
        exact absurd hnw (by simp)
    · simpa [Pending, Rsm.grantAndWake, grant, hai] using hp

theorem SleepInv.trySatisfyWaiting (h : SleepInv s asleep) :
    SleepInv (trySatisfyWaiting s) asleep :=
  trySatisfyWaiting_preserves (P := fun t => SleepInv t asleep)
    (fun _ _ hw _ _ ht => ht.grantAndWake hw) h

theorem SleepInv.startProcess (h : SleepInv s asleep) {pid : Int} {a : Fin n}
    (hfree : s.started a = false) : SleepInv (startProcess s pid a) asleep where
  idle := by
    intro b hb
    by_cases hba : b = a
    · subst hba
      simpa [Rsm.startProcess] using (h.free_idle hfree).2
    · simp only [Rsm.startProcess, Function.update_of_ne hba] at hb ⊢
      exact h.idle b hb
  pending := by
    intro q b hb
    obtain ⟨hst, hpid, hp⟩ := h.pending q b hb
    -- nobody sleeps on an id that is not started
    have hba : b ≠ a := by
      rintro rfl
      rw [hfree] at hst
      exact absurd hst (by simp)
    simp only [Pending, Rsm.startProcess, Function.update_of_ne hba]
    exact ⟨hst, hpid, hp⟩

theorem SleepInv.endProcess (h : SleepInv s asleep) {a : Fin n}
    (hawake : asleep (s.apidToPid a) = none) : SleepInv (endProcess s a) asleep where
  idle := by
    intro b hb
    by_cases hba : b = a
    · subst hba
      simpa [Rsm.endProcess] using (h.owner_idle hawake rfl).2
    · simp only [Rsm.endProcess, Function.update_of_ne hba] at hb ⊢
      exact h.idle b hb
  pending := by
    intro q b hb
    obtain ⟨hst, hpid, hp⟩ := h.pending q b hb
    -- the owner of `a` makes this call, so it is not asleep
    have hba : b ≠ a := by
      rintro rfl
      rw [hpid, hb] at hawake
      exact absurd hawake (by simp)
    simp only [Pending, Rsm.endProcess, Function.update_of_ne hba]
    exact ⟨hst, hpid, hp⟩

/-- Going to sleep: the id becomes pending and its owner sleeps on it. -/
theorem SleepInv.setWaiting (h : SleepInv s asleep) {a : Fin n} (hst : s.started a = true)
    (hawake : asleep (s.apidToPid a) = none) :
    SleepInv (setWaiting s a) (Function.update asleep (s.apidToPid a) (some a)) where
  idle := by
    intro b hb
    by_cases hba : b = a
    · subst hba
      simp [Rsm.setWaiting] at hb
    · simp only [Rsm.setWaiting, Function.update_of_ne hba] at hb ⊢
      -- another id of the same owner was idle, because the owner was awake
      by_cases hpid : s.apidToPid b = s.apidToPid a
      · exact h.idle b (by rw [hpid, hawake]; simp)
      · exact h.idle b (by simpa [Function.update_of_ne hpid] using hb)
  pending := by
    intro q b hb
    by_cases hq : q = s.apidToPid a
    · subst hq
      simp only [Function.update_self, Option.some.injEq] at hb
      subst hb
      refine ⟨hst, rfl, Or.inl ⟨by simp [Rsm.setWaiting], ?_⟩⟩
      exact (h.owner_idle hawake rfl).2
    · rw [Function.update_of_ne hq] at hb
      obtain ⟨hst', hpid, hp⟩ := h.pending q b hb
      have hba : b ≠ a := by
        rintro rfl
        exact hq hpid.symm
      simp only [Pending, Rsm.setWaiting, Function.update_of_ne hba]
      exact ⟨hst', hpid, hp⟩

theorem SleepInv.wake {sys : System n m} (h : SleepInv sys.shared sys.asleep) {pid : Int}
    {a : Fin n} (hsleep : sys.asleep pid = some a) (htoken : 0 < sys.shared.processSem a) :
    SleepInv (sys.wake pid a).shared (sys.wake pid a).asleep := by
  obtain ⟨hst, hpid, hp⟩ := h.pending pid a hsleep
  -- a token means that the grant has been made
  have hsem : sys.shared.waiting a = false ∧ sys.shared.processSem a = 1 := by
    rcases hp with ⟨_, h0⟩ | hp
    · omega
    · exact hp
  constructor
  · intro b hb
    by_cases hba : b = a
    · subst hba
      simp [System.wake, hsem]
    · simp only [System.wake, Function.update_of_ne hba] at hb ⊢
      by_cases hbp : sys.shared.apidToPid b = pid
      · exact h.idle b (by rw [hbp, hsleep]; simpa using Ne.symm hba)
      · exact h.idle b (by simpa [Function.update_of_ne hbp] using hb)
  · intro q b hb
    by_cases hq : q = pid
    · subst hq
      simp [System.wake] at hb
    · simp only [System.wake, Function.update_of_ne hq] at hb
      obtain ⟨hst', hpid', hp'⟩ := h.pending q b hb
      have hba : b ≠ a := by
        rintro rfl
        exact hq (hpid'.symm.trans hpid)
      simp only [Pending, System.wake, Function.update_of_ne hba]
      exact ⟨hst', hpid', hp'⟩

/-- Every step of the system keeps the bookkeeping. -/
theorem SleepInv.step {sys sys' : System n m} {e : Event m} (hstep : Step sys e sys')
    (h : SleepInv sys.shared sys.asleep) : SleepInv sys'.shared sys'.asleep := by
  cases hstep with
  | @call pid c hawake =>
    unfold System.call
    dsimp only
    generalize hr : c.run pid (sys.gLocalApid pid) sys.shared = r
    have heff := c.run_effect pid (sys.gLocalApid pid) sys.shared
    rw [hr] at heff
    cases heff with
    | quiet hq =>
      cases hq with
      | unchanged v g => exact h
      | started a hfree => exact h.startProcess hfree
      | claimed a g v _ _ _ _ _ => exact h.congr rfl rfl rfl rfl
      | granted a g req _ _ _ => exact h.congr rfl rfl rfl rfl
      | waits a g req howner _ _ =>
        obtain ⟨hst, rfl⟩ := howner
        -- recording the request touches none of the four fields
        have hrec : SleepInv (recordRequest sys.shared a req) sys.asleep :=
          h.congr rfl rfl rfl rfl
        exact hrec.setWaiting hst hawake
    | ended a howner hactive =>
      exact (h.endProcess (by rw [howner.2]; exact hawake)).trySatisfyWaiting
    | released a g rel _ _ _ _ =>
      have hback : SleepInv (giveBack sys.shared a rel) sys.asleep := h.congr rfl rfl rfl rfl
      exact hback.trySatisfyWaiting
  | wake hasleep htoken => exact h.wake hasleep htoken
  | fork _ _ _ => exact h

theorem Reachable.sleepInv {exist : Vec m} {avoid : Bool} {sys : System n m}
    (h : Reachable (initialState n m exist avoid) sys) : SleepInv sys.shared sys.asleep := by
  induction h with
  | init => exact SleepInv.init exist avoid
  | step _ hstep ih => exact ih.step hstep

/-! ## What a step does to the segment -/

/-- The changes of the segment that involve no rescan, by a caller that is
not waiting. -/
inductive QuietEffect (s : RsmSharedState n m) : RsmSharedState n m → Prop where
  | unchanged : QuietEffect s s
  | started (pid : Int) (a : Fin n) (hfree : s.started a = false) :
      QuietEffect s (startProcess s pid a)
  | claimed (a : Fin n) (v : Vec m) (hstarted : s.started a = true)
      (hidle : s.waiting a = false) (hnonneg : ∀ j, 0 ≤ v j) (havoid : s.avoidEnabled = true)
      (hnew : s.claimed a = false) (hle : ∀ j, v j ≤ s.existing j) :
      QuietEffect s (recordClaim s a v)
  | granted (a : Fin n) (req : Vec m) (hidle : s.waiting a = false) (hok : RequestOk s a req)
      (hcan : CanGrant (recordRequest s a req) a req) :
      QuietEffect s (grant (recordRequest s a req) a req)
  | waits (a : Fin n) (req : Vec m) (hidle : s.waiting a = false) (hok : RequestOk s a req)
      (hcannot : ¬ CanGrant (recordRequest s a req) a req) :
      QuietEffect s (setWaiting (recordRequest s a req) a)
  | woken (sem : Fin n → Nat) : QuietEffect s { s with processSem := sem }

/-- The ways one step of the system can change the segment. -/
inductive Effect (s : RsmSharedState n m) : RsmSharedState n m → Prop where
  | quiet {s' : RsmSharedState n m} (h : QuietEffect s s') : Effect s s'
  | ended (a : Fin n) (hactive : s.active a = true) (hidle : s.waiting a = false) :
      Effect s (trySatisfyWaiting (endProcess s a))
  | released (a : Fin n) (rel : Vec m) (hactive : s.active a = true)
      (hidle : s.waiting a = false) (hnonneg : ∀ j, 0 ≤ rel j)
      (hle : ∀ j, rel j ≤ s.allocation a j) :
      Effect s (trySatisfyWaiting (giveBack s a rel))

theorem QuietCall.effect {pid : Int} {r : Result n m} (hq : QuietCall pid s r)
    (hidle : ∀ a, s.apidToPid a = pid → s.waiting a = false) : QuietEffect s r.shared := by
  cases hq with
  | unchanged v g => exact .unchanged
  | started a hfree => exact .started pid a hfree
  | claimed a g v howner hnonneg havoid hnew hle =>
    exact .claimed a v howner.1 (hidle a howner.2) hnonneg havoid hnew.1 hle
  | granted a g req howner hok hcan => exact .granted a req (hidle a howner.2) hok hcan
  | waits a g req howner hok hcannot => exact .waits a req (hidle a howner.2) hok hcannot

theorem Step.effect {sys sys' : System n m} {e : Event m} (hstep : Step sys e sys')
    (h : SleepInv sys.shared sys.asleep) : Effect sys.shared sys'.shared := by
  cases hstep with
  | @call pid c hawake =>
    unfold System.call
    dsimp only
    have heff := c.run_effect pid (sys.gLocalApid pid) sys.shared
    generalize c.run pid (sys.gLocalApid pid) sys.shared = r at heff ⊢
    have hidle := fun a ho => h.caller_not_waiting (a := a) hawake ho
    cases heff with
    | quiet hq => exact .quiet (hq.effect hidle)
    | ended a howner hactive => exact .ended a hactive (hidle a howner.2)
    | released a g rel howner hactive hnonneg hle =>
      exact .released a rel hactive (hidle a howner.2) hnonneg hle
  | wake _ _ => exact .quiet (.woken _)
  | fork _ _ _ => exact .quiet .unchanged

/-- What holds after `rsm_init` and survives every effect holds in every
reachable segment. -/
theorem Reachable.shared_induction {P : RsmSharedState n m → Prop} {exist : Vec m}
    {avoid : Bool} (hinit : P (initialState n m exist avoid))
    (heffect : ∀ s s', Effect s s' → P s → P s') {sys : System n m}
    (h : Reachable (initialState n m exist avoid) sys) : P sys.shared := by
  induction h with
  | init => exact hinit
  | step hr hstep ih => exact heffect _ _ (hstep.effect hr.sleepInv) ih

end OsProjects.Rsm
