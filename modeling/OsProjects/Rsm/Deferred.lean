import OsProjects.Rsm.Grants

/-!
# Resource manager — the two grant paths agree

`rsm_request` grants a request that can be granted at once, with its own copy
of the test and of the four updates that `try_satisfy_waiting` has.
`rsmRequestDeferred` is the version without that copy: it always records the
request, marks the process as waiting and rescans.

The two agree in every reachable state (`reachable_request_deferred`), because
no other waiting process is grantable before the call, and granting the
caller's request makes none grantable (`QuietEffect.grantable_before`).
-/

namespace OsProjects.Rsm

variable {n m : Nat} {s : RsmSharedState n m}

/-- `rsm_request` without its own grant path, for a request that has passed
the checks. A post of `process_sem[apid]` is taken back, because the caller
does not go to sleep. -/
def rsmRequestDeferred (s : RsmSharedState n m) (apid : Fin n) (request : Vec m) :
    RsmSharedState n m :=
  let t := trySatisfyWaiting (setWaiting (recordRequest s apid request) apid)
  if t.waiting apid then t
  else { t with processSem := Function.update t.processSem apid (t.processSem apid - 1) }

/-- What `rsm_request` does once the checks have passed. -/
theorem rsmRequest_of_ok {pid : Int} {g g' : Option (Fin n)} {a : Fin n} {req : Vec m}
    (hcur : currentApidLocked s pid g = (some a, g')) (hok : RequestOk s a req) :
    (CanGrant (recordRequest s a req) a req ∧
      rsmRequest pid g s req = ⟨.ret 0, grant (recordRequest s a req) a req, g'⟩) ∨
    (¬ CanGrant (recordRequest s a req) a req ∧
      rsmRequest pid g s req = ⟨.sleeping a, setWaiting (recordRequest s a req) a, g'⟩) := by
  have hvalid : validateVectorBounds req = true := by simpa [validateVectorBounds] using hok.nonneg
  have hex : ¬ ∃ j, req j > s.existing j := by simpa using hok.le_existing
  have hclaimed : (s.avoidEnabled && !s.claimed a) = false := by
    cases hav : s.avoidEnabled
    · rfl
    · simp [hok.claimed hav]
  have hneed : ¬ (s.avoidEnabled = true ∧ ∃ j, req j > s.need a j) := by
    rintro ⟨hav, j, hj⟩
    exact absurd (hok.le_need hav j) (not_le.mpr hj)
  unfold rsmRequest
  simp only [hvalid, hcur, hok.active, hex, hclaimed, hneed, Bool.not_true, Bool.false_eq_true,
    if_false]
  by_cases hcan : CanGrant (recordRequest s a req) a req
  · exact .inl ⟨hcan, if_pos (canGrant_iff.mp hcan)⟩
  · exact .inr ⟨hcan, if_neg fun h => hcan (canGrant_iff.mpr h)⟩

/-- Recording a request makes no other request grantable. -/
theorem grantable_of_setWaiting {a i : Fin n} {req : Vec m} (hia : i ≠ a)
    (hg : Grantable (setWaiting (recordRequest s a req) a) i) : Grantable s i := by
  obtain ⟨hle, hsafe⟩ := hg
  rw [request_setWaiting_of_ne hia] at hle hsafe
  exact ⟨hle, fun hav => (hsafe hav).congr rfl rfl rfl rfl⟩

/-- The body of the rescan passes over a process that is not grantable. -/
theorem grantWaiting_eq_none (h : ResourceInv s) {i : Fin n}
    (hno : s.waiting i = true → s.active i = true → ¬ Grantable s i) :
    grantWaiting i s = none := by
  rw [Option.eq_none_iff_forall_ne_some]
  intro t ht
  obtain ⟨⟨hw, hact, hcan⟩, -⟩ := grantWaiting_eq_some.mp ht
  exact hno hw hact ((canGrant_iff_grantable h i).mp hcan)

section Rescan

variable {a : Fin n} {req : Vec m} (h : GrantInv s) (hidle : s.waiting a = false)
  (hok : RequestOk s a req)

include h hok

/-- The rescan starts with no other process grantable. -/
theorem GrantInv.others_quiet {i : Fin n} (hia : i ≠ a) :
    grantWaiting i (Rsm.setWaiting (recordRequest s a req) a) = none := by
  refine grantWaiting_eq_none (h.toResourceInv.setWaiting hok) ?_
  intro hw hact hg
  have hw' : s.waiting i = true := (waiting_setWaiting_of_ne hia).symm.trans hw
  exact h.none_grantable i hact hw' (grantable_of_setWaiting hia hg)

omit h hok in
/-- The caller is granted exactly when the test of `rsm_request` says so. -/
theorem grantWaiting_caller (hact : s.active a = true) {t : RsmSharedState n m} :
    grantWaiting a (Rsm.setWaiting (recordRequest s a req) a) = some t ↔
      CanGrant (recordRequest s a req) a req ∧
        t = Rsm.grantAndWake (Rsm.setWaiting (recordRequest s a req) a) a := by
  rw [grantWaiting_eq_some]
  have hw : (Rsm.setWaiting (recordRequest s a req) a).waiting a = true := waiting_setWaiting_self
  have hact' : (Rsm.setWaiting (recordRequest s a req) a).active a = true := hact
  -- `is_safe` does not read the waiting flags
  have hcan : CanGrant (Rsm.setWaiting (recordRequest s a req) a) a req ↔
      CanGrant (recordRequest s a req) a req := Iff.rfl
  rw [request_setWaiting_self, hcan]
  tauto

include hidle in
/-- After the grant to the caller nothing is grantable. -/
theorem GrantInv.quiet_after (hcan : CanGrant (recordRequest s a req) a req) (i : Fin n) :
    grantWaiting i (Rsm.grantAndWake (Rsm.setWaiting (recordRequest s a req) a) a) = none := by
  have hres : ResourceInv (Rsm.grantAndWake (Rsm.setWaiting (recordRequest s a req) a) a) := by
    refine (h.toResourceInv.setWaiting hok).grantAndWake waiting_setWaiting_self hok.active ?_
    rw [request_setWaiting_self]
    exact hcan
  refine grantWaiting_eq_none hres ?_
  intro hw hact hg
  have hia : i ≠ a := by
    rintro rfl
    simp [Rsm.grantAndWake] at hw
  have hw' : s.waiting i = true := by
    simpa [Rsm.grantAndWake, grant, Rsm.setWaiting, recordRequest, hia] using hw
  refine h.none_grantable i hact hw' ?_
  -- the matrices are those after the immediate grant
  refine (QuietEffect.granted a req hidle hok hcan).grantable_before h.toResourceInv hw' ?_
  obtain ⟨hle, hsafe⟩ := hg
  simp only [Rsm.grantAndWake, request_setWaiting_self] at hle hsafe
  exact ⟨hle, fun hav => (hsafe hav).congr rfl rfl rfl rfl⟩

end Rescan

/-- Taking back the post of a deferred grant leaves the immediate one. -/
theorem grantAndWake_takeBack {a : Fin n} {req : Vec m} (hidle : s.waiting a = false) :
    (let t := grantAndWake (setWaiting (recordRequest s a req) a) a
     { t with processSem := Function.update t.processSem a (t.processSem a - 1) }) =
      grant (recordRequest s a req) a req := by
  have hw : Function.update (Function.update s.waiting a true) a false = s.waiting := by
    rw [Function.update_idem, ← hidle, Function.update_eq_self]
  cases hav : s.avoidEnabled <;>
    simp [grantAndWake, grant, setWaiting, recordRequest, hw, hav]

/--
**The immediate grant path agrees with the deferred one.** In every reachable
state of either mode, let a process that is not waiting make an `rsm_request`
that passes the checks. Its critical section leaves the segment as
`rsmRequestDeferred` does; and at no point of the rescan of that version is
another process granted.
-/
theorem reachable_request_deferred {pCount rCount avoid : Int} {exist : Vec rCount.toNat}
    {s₀ : RsmSharedState pCount.toNat rCount.toNat}
    (hinit : rsmInit pCount rCount exist avoid = some s₀)
    {sys : System pCount.toNat rCount.toNat} (h : Reachable s₀ sys) {pid : Int}
    {g : Option (Fin pCount.toNat)} {a : Fin pCount.toNat} {req : Vec rCount.toNat}
    (hcur : (currentApidLocked sys.shared pid g).1 = some a)
    (hidle : sys.shared.waiting a = false) (hok : RequestOk sys.shared a req) :
    (rsmRequest pid g sys.shared req).shared = rsmRequestDeferred sys.shared a req ∧
    ∀ mid, Scan.Reaches grantWaiting (setWaiting (recordRequest sys.shared a req) a) mid →
      ∀ i, i ≠ a → grantWaiting i mid = none := by
  obtain ⟨rfl, hexist⟩ := rsmInit_eq_some hinit
  have hinv := Reachable.grantInv hexist h
  set s := sys.shared
  have hothers : ∀ i, i ≠ a → grantWaiting i (setWaiting (recordRequest s a req) a) = none :=
    fun i hia => hinv.others_quiet hok hia
  have hcaller : ∀ t, grantWaiting a (setWaiting (recordRequest s a req) a) = some t ↔
      CanGrant (recordRequest s a req) a req ∧
        t = grantAndWake (setWaiting (recordRequest s a req) a) a :=
    fun _ => grantWaiting_caller hok.active
  obtain ⟨hcan, hres⟩ | ⟨hcannot, hres⟩ :=
    rsmRequest_of_ok (Prod.ext hcur rfl : currentApidLocked s pid g = (some a, _)) hok
  -- granted at once: the rescan grants the caller, and nobody else
  · have hfire := (hcaller _).mpr ⟨hcan, rfl⟩
    have hquiet := hinv.quiet_after hidle hok hcan
    have hloop : trySatisfyWaiting (setWaiting (recordRequest s a req) a) =
        grantAndWake (setWaiting (recordRequest s a req) a) a :=
      Scan.loop_eq_single (fun _ _ _ => waitingCount_lt) (List.mem_finRange a) hfire hothers hquiet
    constructor
    · have hw : (grantAndWake (setWaiting (recordRequest s a req) a) a).waiting a = false := by
        simp [grantAndWake]
      rw [hres, rsmRequestDeferred, hloop]
      simp only [hw, Bool.false_eq_true, if_false]
      exact (grantAndWake_takeBack hidle).symm
    · intro mid hmid i hia
      rcases Relation.ReflTransGen.cases_head hmid with rfl | ⟨mid', ⟨k, hk⟩, hrest⟩
      · exact hothers i hia
      · have hka : k = a := by
          by_contra hka
          rw [hothers k hka] at hk
          exact absurd hk (by simp)
        subst hka
        rw [hfire] at hk
        obtain rfl := Option.some.inj hk
        rw [Scan.Reaches.eq_of_quiet hquiet hrest]
        exact hquiet i
  -- asleep: the rescan finds nothing to grant
  · have hquiet : ∀ i, grantWaiting i (setWaiting (recordRequest s a req) a) = none := by
      intro i
      by_cases hia : i = a
      · subst hia
        rw [Option.eq_none_iff_forall_ne_some]
        exact fun t ht => hcannot ((hcaller t).mp ht).1
      · exact hothers i hia
    have hloop : trySatisfyWaiting (setWaiting (recordRequest s a req) a) =
        setWaiting (recordRequest s a req) a :=
      Scan.Reaches.eq_of_quiet hquiet (Scan.loop_reaches _ _ _ _)
    constructor
    · have hw : (setWaiting (recordRequest s a req) a).waiting a = true :=
        waiting_setWaiting_self
      rw [hres, rsmRequestDeferred, hloop]
      simp only [hw, if_true]
    · intro mid hmid i _
      rw [Scan.Reaches.eq_of_quiet hquiet hmid]
      exact hquiet i

/-- In the demo scenario P0 asks for the unit P1 waits for, and gets it. -/
theorem reachable_request_deferred_demo :
    (rsmRequestDeferred (demoSystem true).shared 0 fun j => if j = 1 then 1 else 0).allocation 0 1 =
      1 ∧
    (rsmRequest 10 (some 0) (demoSystem true).shared fun j => if j = 1 then 1 else 0).shared =
      rsmRequestDeferred (demoSystem true).shared 0 fun j => if j = 1 then 1 else 0 := by
  have hok : RequestOk (demoSystem true).shared 0 fun j => if j = 1 then 1 else 0 :=
    { active := by decide
      nonneg := by decide
      le_existing := by decide
      claimed := by decide
      le_need := by decide }
  have hcur : (currentApidLocked (demoSystem true).shared 10 (some (0 : Fin 2))).1 = some 0 := by
    decide
  have heq := (reachable_request_deferred (rsmInit_demo true) (demoSystem_reachable true) hcur
    (by decide) hok).1
  exact ⟨heq ▸ by decide, heq⟩

end OsProjects.Rsm
