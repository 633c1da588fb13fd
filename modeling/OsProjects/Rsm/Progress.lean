import OsProjects.Rsm.Grants

/-!
# Resource manager — runs of `rsm_process_ended`

From some reachable state the processes only end: every process that is
active and not waiting calls `rsm_process_ended`, in any order, and a process
that has been granted its request wakes up first (`EndRun`).

In avoidance mode such a run never gets stuck, and ends every process after
as many calls as there were active ones (`reachable_deadlock_free`). Here
each application id is one actor: no OS process owns two of them at a time (`SoleOwner`),
so a process that sleeps for one id cannot keep another from ending.
-/

namespace OsProjects.Rsm

open Completion Reduction

variable {n m : Nat}

/-- A run in which processes only end, or wake up after a grant; `k` counts
the calls. The caller owns an active process that is not waiting. -/
inductive EndRun (sys : System n m) : Nat → System n m → Prop where
  | refl : EndRun sys 0 sys
  | ended {k : Nat} {mid sys' : System n m} {pid : Int} {a : Fin n} (h : EndRun sys k mid)
      (hactive : mid.shared.active a = true) (hidle : mid.shared.waiting a = false)
      (howner : mid.shared.apidToPid a = pid)
      (hstep : Step mid (.call pid .processEnded) sys') : EndRun sys (k + 1) sys'
  | wake {k : Nat} {mid sys' : System n m} {pid : Int} (h : EndRun sys k mid)
      (hstep : Step mid (.wake pid) sys') : EndRun sys k sys'

theorem EndRun.reachable {s₀ : RsmSharedState n m} {sys sys' : System n m} {k : Nat}
    (hr : Reachable s₀ sys) (h : EndRun sys k sys') : Reachable s₀ sys' := by
  induction h with
  | refl => exact hr
  | ended _ _ _ _ hstep ih => exact .step ih hstep
  | wake _ hstep ih => exact .step ih hstep

/-- The owner of a started id is always resolved to some id. -/
theorem currentApidLocked_isSome {s : RsmSharedState n m} {pid : Int} {a : Fin n}
    (hstarted : s.started a = true) (howner : s.apidToPid a = pid) (g : Option (Fin n)) :
    ∃ b, (currentApidLocked s pid g).1 = some b := by
  have hscan : ∃ b, (List.finRange n).find? (fun i => s.started i && s.apidToPid i == pid) =
      some b := by
    rw [← Option.isSome_iff_exists, List.find?_isSome]
    exact ⟨a, List.mem_finRange a, by simp [hstarted, howner]⟩
  obtain ⟨b, hb⟩ := hscan
  unfold currentApidLocked
  cases g with
  | none => exact ⟨b, by simp [hb]⟩
  | some c =>
    by_cases hc : (s.started c && s.apidToPid c == pid) = true
    · exact ⟨c, by simp [hc]⟩
    · exact ⟨b, by simp [hc, hb]⟩

/-- A call of `rsm_process_ended` by an awake owner ends one of its ids. -/
theorem call_processEnded {sys : System n m} (hres : ResourceInv sys.shared)
    (hsleep : SleepInv sys.shared sys.asleep) {pid : Int} {a : Fin n}
    (hactive : sys.shared.active a = true) (howner : sys.shared.apidToPid a = pid)
    (hawake : sys.asleep pid = none) :
    ∃ b, sys.shared.active b = true ∧ sys.shared.waiting b = false ∧
      sys.shared.apidToPid b = pid ∧
      (sys.call pid .processEnded).shared = trySatisfyWaiting (endProcess sys.shared b) ∧
      (sys.call pid .processEnded).asleep = sys.asleep := by
  obtain ⟨b, hb⟩ := currentApidLocked_isSome (by rw [hres.started_eq a, hactive]) howner
    (sys.gLocalApid pid)
  obtain ⟨hbst, hbown⟩ := currentApidLocked_owner hb
  have hbact : sys.shared.active b = true := by rw [← hres.started_eq b, hbst]
  -- `b` is the id the call is charged to, which need not be `a`
  have hrun : rsmProcessEnded pid (sys.gLocalApid pid) sys.shared =
      ⟨.ret 0, trySatisfyWaiting (endProcess sys.shared b), none⟩ := by
    unfold rsmProcessEnded
    split
    · next hcur => rw [hcur] at hb; exact absurd hb (by simp)
    · next c g hcur =>
      rw [hcur] at hb
      obtain rfl : c = b := by simpa using hb
      simp [hbact]
  refine ⟨b, hbact, hsleep.caller_not_waiting hawake hbown, hbown, ?_, ?_⟩ <;>
    simp [System.call, Call.run, hrun]

/-! ## What a rescan leaves alone -/

/-- The fields a rescan never writes. -/
structure SameOwners (s t : RsmSharedState n m) : Prop where
  active : t.active = s.active
  started : t.started = s.started
  apidToPid : t.apidToPid = s.apidToPid
  avoid : t.avoidEnabled = s.avoidEnabled
  existing : t.existing = s.existing

theorem trySatisfyWaiting_sameOwners (s : RsmSharedState n m) :
    SameOwners s (trySatisfyWaiting s) :=
  trySatisfyWaiting_preserves (P := SameOwners s)
    (fun _ _ _ _ _ h => ⟨h.active, h.started, h.apidToPid, h.avoid, h.existing⟩)
    ⟨rfl, rfl, rfl, rfl, rfl⟩

/-! ## Deadlock freedom of avoidance mode -/

/-- No OS process owns two application ids. -/
def SoleOwner (s : RsmSharedState n m) : Prop :=
  ∀ a b, s.started a = true → s.started b = true → s.apidToPid a = s.apidToPid b → a = b

/-- The systems reachable while each application id is one actor. -/
inductive ReachableSole (s₀ : RsmSharedState n m) : System n m → Prop where
  | init : ReachableSole s₀ (System.init s₀)
  | step {sys sys' : System n m} {e : Event m} (h : ReachableSole s₀ sys)
      (hstep : Step sys e sys') (hsole : SoleOwner sys'.shared) : ReachableSole s₀ sys'

theorem ReachableSole.reachable {s₀ : RsmSharedState n m} {sys : System n m}
    (h : ReachableSole s₀ sys) : Reachable s₀ sys := by
  induction h with
  | init => exact .init
  | step _ hstep _ ih => exact .step ih hstep

theorem ReachableSole.sole {exist : Vec m} {avoid : Bool} {sys : System n m}
    (h : ReachableSole (initialState n m exist avoid) sys) : SoleOwner sys.shared := by
  cases h with
  | init => exact fun a _ ha => by simp [System.init, initialState] at ha
  | step _ _ hsole => exact hsole

theorem SoleOwner.endProcess {s : RsmSharedState n m} (h : SoleOwner s) (a : Fin n) :
    SoleOwner (trySatisfyWaiting (Rsm.endProcess s a)) := by
  have hsame := trySatisfyWaiting_sameOwners (Rsm.endProcess s a)
  intro b c hb hc hbc
  rw [hsame.started] at hb hc
  rw [hsame.apidToPid] at hbc
  -- `a` is no longer started, so `b` and `c` keep their owners
  have hba : b ≠ a := by
    rintro rfl
    simp [Rsm.endProcess] at hb
  have hca : c ≠ a := by
    rintro rfl
    simp [Rsm.endProcess] at hc
  simp only [Rsm.endProcess, Function.update_of_ne hba, Function.update_of_ne hca] at hb hc hbc
  exact h b c hb hc hbc

/-- **Somebody can go on.** In a safe state without grantable requests, not
all active processes wait: the first one of a safe ordering could have been
granted whatever part of its need it asked for. -/
theorem exists_active_not_waiting {s : RsmSharedState n m} (hsafe : SafeInv s)
    (hgrant : GrantInv s) (hactive : ∃ i, s.active i = true) :
    ∃ i, s.active i = true ∧ s.waiting i = false := by
  by_contra hall
  push Not at hall
  simp only [Bool.not_eq_false, ne_eq] at hall
  obtain ⟨order, hnodup, hmem, hc⟩ := hsafe.safe
  obtain ⟨i, hi⟩ := hactive
  -- `f` comes first: its whole need is available
  obtain ⟨f, rest, rfl⟩ : ∃ f rest, order = f :: rest := by
    cases order with
    | nil => simpa using (hmem i).mpr hi
    | cons f rest => exact ⟨f, rest, rfl⟩
  have hf : s.active f = true := (hmem f).mp (List.mem_cons_self ..)
  have hwait := hall f hf
  have hreq : ∀ j, s.request f j ≤ s.need f j :=
    (hsafe.rows f).request_le_need hsafe.avoid hwait
  have havail : ∀ j, s.request f j ≤ s.available j := fun j => (hreq j).trans (hc.1 j)
  refine hgrant.none_grantable f hf hwait ⟨havail, fun hav => ?_⟩
  -- after the grant the same ordering still works, with `f` first
  refine ⟨f :: rest, hnodup, hmem, ?_⟩
  rw [grant_need hav, grant_allocation]
  obtain ⟨hfrest, -⟩ := List.nodup_cons.mp hnodup
  refine ⟨?_, hc.2.imp fun pre k post hsplit hle => ?_⟩
  · intro j
    have : s.need f j ≤ s.available j := hc.1 j
    simp only [safeNeed, ↓reduceIte, grant]
    omega
  · have hk : k ≠ f := fun h => hfrest (by rw [hsplit, h]; simp)
    have hpre : f ∉ pre := fun h => hfrest (by rw [hsplit]; simp [h])
    have hgiven : given (safeAllocation s f (s.request f)) pre = given s.allocation pre :=
      given_congr fun x hx => by
        have hxf : x ≠ f := fun h => hpre (h ▸ hx)
        funext j
        simp [safeAllocation, hxf]
    intro j
    have := hle j
    simp only [safeNeed, safeAllocation, hgiven, hk, ↓reduceIte, grant, Pi.add_apply]
      at this ⊢
    omega

/-- How many processes are active. -/
def activeCount (s : RsmSharedState n m) : Nat :=
  (Finset.univ.filter fun i => s.active i = true).card

theorem activeCount_endProcess {s : RsmSharedState n m} {a : Fin n}
    (hactive : s.active a = true) :
    activeCount (trySatisfyWaiting (endProcess s a)) + 1 = activeCount s := by
  have hsame := (trySatisfyWaiting_sameOwners (endProcess s a)).active
  have herase : (Finset.univ.filter fun i => (endProcess s a).active i = true) =
      (Finset.univ.filter fun i => s.active i = true).erase a := by
    ext i
    rw [Finset.mem_erase, Finset.mem_filter, Finset.mem_filter]
    by_cases hi : i = a
    · simp [hi, endProcess]
    · simp [hi, endProcess]
  rw [activeCount, activeCount, hsame, herase, Finset.card_erase_add_one]
  simpa using hactive

theorem EndRun.activeCount_add {exist : Vec m} {avoid : Bool} {sys sys' : System n m} {k : Nat}
    (hexist : ∀ j, 0 ≤ exist j) (hr : Reachable (initialState n m exist avoid) sys)
    (h : EndRun sys k sys') : activeCount sys'.shared + k = activeCount sys.shared := by
  induction h with
  | refl => rfl
  | @ended k mid sys' pid a hmid hactive _ howner hstep ih =>
    have hmr := hmid.reachable hr
    cases hstep with
    | call _ hawake =>
      obtain ⟨b, hb, -, -, hshared, -⟩ := call_processEnded (hmr.resourceInv hexist) hmr.sleepInv
        hactive howner hawake
      -- one call, one active process less
      have := activeCount_endProcess hb
      rw [hshared]
      omega
  | wake _ hstep ih =>
    cases hstep with
    | wake _ _ => exact ih

theorem EndRun.sole {exist : Vec m} {avoid : Bool} {sys sys' : System n m} {k : Nat}
    (hexist : ∀ j, 0 ≤ exist j) (hr : Reachable (initialState n m exist avoid) sys)
    (hsole : SoleOwner sys.shared) (h : EndRun sys k sys') : SoleOwner sys'.shared := by
  induction h with
  | refl => exact hsole
  | @ended k mid sys' pid a hmid hactive _ howner hstep ih =>
    have hmr := hmid.reachable hr
    cases hstep with
    | call _ hawake =>
      obtain ⟨b, -, -, -, hshared, -⟩ := call_processEnded (hmr.resourceInv hexist) hmr.sleepInv
        hactive howner hawake
      rw [hshared]
      exact ih.endProcess b
  | wake _ hstep ih =>
    cases hstep with
    | wake _ _ => exact ih

/-- The next step of an `EndRun` is possible. -/
def CanGoOn (sys : System n m) (a : Fin n) : Prop :=
  sys.shared.active a = true ∧ sys.shared.waiting a = false ∧
    ((∃ sys', Step sys (.call (sys.shared.apidToPid a) .processEnded) sys') ∨
      ∃ sys', Step sys (.wake (sys.shared.apidToPid a)) sys')

/-- An active process that is not waiting can end, or wake up first. -/
theorem canGoOn {sys : System n m} (hres : ResourceInv sys.shared)
    (hsleep : SleepInv sys.shared sys.asleep) (hsole : SoleOwner sys.shared) {a : Fin n}
    (hactive : sys.shared.active a = true) (hidle : sys.shared.waiting a = false) :
    CanGoOn sys a := by
  refine ⟨hactive, hidle, ?_⟩
  cases hs : sys.asleep (sys.shared.apidToPid a) with
  | none => exact Or.inl ⟨_, .call _ hs⟩
  | some b =>
    obtain ⟨hst, hown, hp⟩ := hsleep.pending _ b hs
    -- the owner sleeps, and it has no other id to sleep on
    obtain rfl : b = a := hsole b a hst (by rw [hres.started_eq a, hactive]) hown
    rcases hp with ⟨hw, _⟩ | ⟨_, hsem⟩
    · rw [hidle] at hw
      exact absurd hw (by simp)
    · exact Or.inr ⟨_, .wake hs (by omega)⟩

/--
**Deadlock freedom of avoidance mode.** In every reachable state with an
active process some active process is not waiting. And if the active
processes that are not waiting keep calling `rsm_process_ended`, in any
order, the run never gets stuck while somebody is active, and after as many
calls as there were active processes nobody is active and nobody is blocked
in `rsm_request`.
-/
theorem reachable_deadlock_free {pCount rCount : Int} {exist : Vec rCount.toNat}
    {s₀ : RsmSharedState pCount.toNat rCount.toNat}
    (hinit : rsmInit pCount rCount exist 1 = some s₀)
    {sys : System pCount.toNat rCount.toNat} (h : ReachableSole s₀ sys) :
    ((∃ i, sys.shared.active i = true) →
      ∃ i, sys.shared.active i = true ∧ sys.shared.waiting i = false) ∧
    ∀ k sys', EndRun sys k sys' →
      ((∃ i, sys'.shared.active i = true) → ∃ a, CanGoOn sys' a) ∧
      k ≤ activeCount sys.shared ∧
      (k = activeCount sys.shared →
        (∀ i, sys'.shared.active i = false) ∧ ∀ pid, sys'.asleep pid = none) := by
  obtain ⟨rfl, hexist⟩ := rsmInit_eq_some hinit
  have hsole := h.sole
  have hr := h.reachable
  refine ⟨exists_active_not_waiting (hr.safeInv hexist) (hr.grantInv hexist),
    fun k sys' hrun => ?_⟩
  have hr' := hrun.reachable hr
  have hres' := hr'.resourceInv hexist
  have hcount := hrun.activeCount_add hexist hr
  refine ⟨fun hact => ?_, by omega, fun hk => ?_⟩
  · obtain ⟨a, ha, hidle⟩ := exists_active_not_waiting (hr'.safeInv hexist)
      (hr'.grantInv hexist) hact
    exact ⟨a, canGoOn hres' hr'.sleepInv (hrun.sole hexist hr hsole) ha hidle⟩
  -- every active process has been counted, so none is left
  · have hnone : ∀ i, sys'.shared.active i = false := by
      have hzero : activeCount sys'.shared = 0 := by omega
      intro i
      by_contra hi
      rw [activeCount, Finset.card_eq_zero, Finset.filter_eq_empty_iff] at hzero
      exact hzero (Finset.mem_univ i) (by simpa using hi)
    refine ⟨hnone, ?_⟩
    intro pid
    -- whoever sleeps owns a started id
    cases hs : sys'.asleep pid with
    | none => rfl
    | some a =>
      have := (hr'.sleepInv.pending pid a hs).1
      rw [hres'.started_eq a, hnone a] at this
      exact absurd this (by simp)

theorem demoSystem_reachableSole :
    ReachableSole (initialState 2 2 (fun _ => 1) true) (demoSystem true) := by
  refine .step (.step (.step (.step (.step (.step .init (.call _ ?_) ?_) (.call _ ?_) ?_)
    (.call _ ?_) ?_) (.call _ ?_) ?_) (.call _ ?_) ?_) (.call _ ?_) ?_
  all_goals first
    | rfl
    | (unfold SoleOwner; decide)

/-- In the demo scenario P0 can go on while P1 waits. -/
theorem reachable_deadlock_free_demo :
    ∃ i, (demoSystem true).shared.active i = true ∧ (demoSystem true).shared.waiting i = false :=
  (reachable_deadlock_free (rsmInit_demo true) demoSystem_reachableSole).1
    ⟨(0 : Fin 2), by decide⟩

end OsProjects.Rsm
