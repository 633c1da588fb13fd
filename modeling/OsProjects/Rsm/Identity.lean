import OsProjects.Rsm.Invariant

/-!
# Resource manager — who a call is charged to

`current_apid_locked` answers from the cached `g_local_apid` while its row is
still the caller's, and otherwise searches `apid_to_pid`. The two differ in
one case only (`identity_agrees_iff`): the process owns two application ids
and has a higher one in its cache, because nothing keeps a process from
calling `rsm_process_started` twice. A process that owns one id at most is
never told apart by its cache, however stale or inherited that is.
-/

namespace OsProjects.Rsm

variable {n m : Nat} {s : RsmSharedState n m} {pid : Int}

/-- Application id `a` is registered for process `pid`. -/
def Owns (s : RsmSharedState n m) (pid : Int) (a : Fin n) : Prop :=
  s.started a = true ∧ s.apidToPid a = pid

/-- The search returns the caller's lowest id. -/
theorem currentApidLocked_scan {a : Fin n} :
    (currentApidLocked s pid none).1 = some a ↔ Owns s pid a ∧ ∀ b < a, ¬ Owns s pid b := by
  have hscan : (currentApidLocked s pid none).1 =
      (List.finRange n).find? fun i => s.started i && s.apidToPid i == pid := by
    unfold currentApidLocked
    cases (List.finRange n).find? fun i => s.started i && s.apidToPid i == pid <;> rfl
  have howns : ∀ i, (s.started i && s.apidToPid i == pid) = true ↔ Owns s pid i := fun i => by
    simp [Owns]
  rw [hscan, List.find?_eq_some_iff_append, howns]
  refine and_congr_right fun ha => ⟨?_, fun hlow => ?_⟩
  · rintro ⟨pre, post, hsplit, hpre⟩ b hb hob
    -- the indices before `a` in the scan are the lower ones
    have hmem : b ∈ pre ++ a :: post := hsplit ▸ List.mem_finRange b
    have hsorted : (pre ++ a :: post).Pairwise (· < ·) := hsplit ▸ List.pairwise_lt_finRange n
    obtain ⟨-, hapost, -⟩ := List.pairwise_append.mp hsorted
    rcases List.mem_append.mp hmem with hb' | hb'
    · have := hpre b hb'
      rw [(howns b).mpr hob] at this
      exact absurd this (by simp)
    · rcases List.mem_cons.mp hb' with rfl | hb'
      · exact absurd hb (lt_irrefl b)
      · exact absurd hb (not_lt.mpr (List.rel_of_pairwise_cons hapost hb').le)
  · obtain ⟨pre, post, hsplit⟩ := List.append_of_mem (List.mem_finRange a)
    refine ⟨pre, post, hsplit, ?_⟩
    intro b hb
    have hsorted : (pre ++ a :: post).Pairwise (· < ·) := hsplit ▸ List.pairwise_lt_finRange n
    have hlt : b < a := (List.pairwise_append.mp hsorted).2.2 b hb a (by simp)
    have hno := hlow b hlt
    rw [← howns, Bool.not_eq_true] at hno
    rw [hno]
    rfl

/-- The cached id is taken while its row is the caller's. -/
theorem currentApidLocked_cached {a : Fin n} (ha : Owns s pid a) :
    (currentApidLocked s pid (some a)).1 = some a := by
  unfold currentApidLocked
  simp [ha.1, ha.2]

/-- A cached id that is not the caller's is ignored. -/
theorem currentApidLocked_stale {a : Fin n} (ha : ¬ Owns s pid a) :
    (currentApidLocked s pid (some a)).1 = (currentApidLocked s pid none).1 := by
  have ha' : (s.started a && s.apidToPid a == pid) = false := by
    rw [← Bool.not_eq_true]
    simpa [Owns] using ha
  unfold currentApidLocked
  simp only [ha', Bool.false_eq_true, if_false]
  cases (List.finRange n).find? fun i => s.started i && s.apidToPid i == pid <;> rfl

theorem identity_agrees_iff (s : RsmSharedState n m) (pid : Int) (g : Option (Fin n)) :
    (currentApidLocked s pid g).1 = (currentApidLocked s pid none).1 ↔
      ¬ ∃ a b, g = some a ∧ Owns s pid a ∧ Owns s pid b ∧ b < a := by
  cases g with
  | none => simp
  | some a =>
    by_cases ha : Owns s pid a
    · rw [currentApidLocked_cached ha, eq_comm, currentApidLocked_scan]
      constructor
      · rintro ⟨-, hlow⟩ ⟨a', b, hcache, -, hb, hlt⟩
        obtain rfl := Option.some.inj hcache
        exact hlow b hlt hb
      · exact fun hno => ⟨ha, fun b hlt hb => hno ⟨a, b, rfl, ha, hb, hlt⟩⟩
    · refine iff_of_true (currentApidLocked_stale ha) ?_
      rintro ⟨a', b, hcache, ha', -⟩
      obtain rfl := Option.some.inj hcache
      exact ha ha'

/-- A call reads its caller's identity in no other way. -/
theorem Call.run_congr (c : Call m) {g g' : Option (Fin n)}
    (h : (currentApidLocked s pid g).1 = (currentApidLocked s pid g').1) :
    (c.run pid g s).outcome = (c.run pid g' s).outcome ∧
      (c.run pid g s).shared = (c.run pid g' s).shared := by
  rcases hg : currentApidLocked s pid g with ⟨o, g₁⟩
  rcases hg' : currentApidLocked s pid g' with ⟨o', g₁'⟩
  rw [hg, hg'] at h
  obtain rfl : o = o' := h
  -- a call uses the id the lookup returns, and nothing else of `g`
  cases c with
  | processStarted apid =>
    simp only [Call.run, rsmProcessStarted]
    split
    · split <;> exact ⟨rfl, rfl⟩
    · exact ⟨rfl, rfl⟩
  | processEnded =>
    simp only [Call.run, rsmProcessEnded, hg, hg']
    cases o with
    | none => exact ⟨rfl, rfl⟩
    | some a => dsimp only; split <;> exact ⟨rfl, rfl⟩
  | claim v =>
    simp only [Call.run, rsmClaim, hg, hg']
    cases o with
    | none => split <;> exact ⟨rfl, rfl⟩
    | some a => dsimp only; split_ifs <;> exact ⟨rfl, rfl⟩
  | request v =>
    simp only [Call.run, rsmRequest, hg, hg']
    cases o with
    | none => split <;> exact ⟨rfl, rfl⟩
    | some a => dsimp only; split_ifs <;> exact ⟨rfl, rfl⟩
  | release v =>
    simp only [Call.run, rsmRelease, hg, hg']
    cases o with
    | none => split <;> exact ⟨rfl, rfl⟩
    | some a => dsimp only; split_ifs <;> exact ⟨rfl, rfl⟩

/--
**The cached identity.** In any state, for any process and any value of its
`g_local_apid`,

1. the cached answer differs from the search exactly when the cache holds an
   id of the process and the process also owns a lower one;
2. so it never does for a process that owns one id at most;
3. where the two answers agree, every call returns the same and does the same
   to the segment with the cache as without it.
-/
theorem identity_cached_or_scanned (s : RsmSharedState n m) (pid : Int) (g : Option (Fin n)) :
    ((currentApidLocked s pid g).1 = (currentApidLocked s pid none).1 ↔
      ¬ ∃ a b, g = some a ∧ Owns s pid a ∧ Owns s pid b ∧ b < a) ∧
    ((∀ a b, Owns s pid a → Owns s pid b → a = b) →
      (currentApidLocked s pid g).1 = (currentApidLocked s pid none).1) ∧
    ((currentApidLocked s pid g).1 = (currentApidLocked s pid none).1 → ∀ c : Call m,
      (c.run pid g s).outcome = (c.run pid none s).outcome ∧
      (c.run pid g s).shared = (c.run pid none s).shared) := by
  refine ⟨identity_agrees_iff s pid g, ?_, fun h c => c.run_congr h⟩
  intro hone
  rw [identity_agrees_iff]
  rintro ⟨a, b, -, ha, hb, hlt⟩
  exact absurd (hone a b ha hb) (ne_of_gt hlt)

/-- A process that registers as P0 and then as P1. -/
def twoIds : System 2 1 :=
  ((System.init (initialState 2 1 (fun _ => 1) false)).call 10 (.processStarted 0)).call 10
    (.processStarted 1)

/-- The cache of that process says P1 and the search says P0, and a request
is charged accordingly. -/
theorem twoIds_identity_differs :
    rsmInit 2 1 (fun _ => 1) 0 = some (initialState 2 1 (fun _ => 1) false) ∧
    Reachable (initialState 2 1 (fun _ => 1) false) twoIds ∧
    (currentApidLocked twoIds.shared 10 (twoIds.gLocalApid 10)).1 = some 1 ∧
    (currentApidLocked twoIds.shared 10 none).1 = some 0 ∧
    (rsmRequest 10 (twoIds.gLocalApid 10) twoIds.shared fun _ => 1).shared.allocation 1 0 = 1 ∧
    (rsmRequest 10 none twoIds.shared fun _ => 1).shared.allocation 1 0 = 0 :=
  ⟨rfl, .step (.step .init (.call _ rfl)) (.call _ rfl), by decide, by decide, by decide,
    by decide⟩

end OsProjects.Rsm
