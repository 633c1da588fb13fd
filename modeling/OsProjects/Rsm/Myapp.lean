import Mathlib.Tactic.FinCases
import OsProjects.Lib.Arrays
import OsProjects.Rsm.Outcomes

/-!
# Resource manager — the demo programs

The child processes of `myapp_modified.c`, for any number of resource types,
and of `myapp.c`, as the calls they make: printing and sleeping are left out,
and so is the parent, which calls nothing that changes the segment between
`rsm_init` and `rsm_destroy`.

The arrays of `myapp_modified.c` are functions from their indices. Its three
loops only reorder: whatever the mode, `order` lists each claimed resource
once (`perm_order`), so `run_process` is disciplined
(`disciplined_runProcess`) and the results on disciplined applications are
results on this program (`myapp_outcomes`).
-/

namespace OsProjects.Rsm

open Arrays

variable {m : Nat}

/-! ## `myapp_modified.c` -/

/-- A vector with a 1 for one resource: `req[j] = 1` after a `memset`. -/
def unitVec (m : Nat) (o : Nat) : Vec m := fun j => if j.val = o then 1 else 0

/-- `build_claim_range`. -/
def buildClaimRange (m start span : Nat) : Vec m :=
  (List.range span).foldl
    (fun claim i => fun j => if j.val = (start + i) % m then 1 else claim j) fun _ => 0

/-- `build_order_from_claim`: the array `order` and the count. -/
def buildOrderFromClaim (claim : Vec m) : (Nat → Nat) × Nat :=
  (List.finRange m).foldl
    (fun s i => if claim i ≠ 0 then (Function.update s.1 s.2 i.val, s.2 + 1) else s)
    (fun _ => 0, 0)

/-- `reverse_order`. -/
def reverseOrder (arr : Nat → Nat) (n : Nat) : Nat → Nat :=
  (List.range (n / 2)).foldl
    (fun arr i =>
      let tmp := arr i
      let arr := Function.update arr i (arr (n - 1 - i))
      Function.update arr (n - 1 - i) tmp) arr

/-- `rotate_left`. -/
def rotateLeft (arr : Nat → Nat) (n k : Int) : Nat → Nat :=
  if n ≤ 0 then arr
  else
    let k := k.tmod n
    let k := if k < 0 then k + n else k
    let tmp : Nat → Nat := fun i => arr ((i + k).tmod n).toNat
    fun i => if i < n then tmp i else arr i

/-- `order` of `run_process` after the reordering of its mode. -/
def orderOf (claim : Vec m) (mode : Nat) : Nat → Nat :=
  let (order, count) := buildOrderFromClaim claim
  if mode = 1 then reverseOrder order count
  else if mode = 2 then rotateLeft order count (count / 2 : Nat)
  else order

/-- `run_process`. -/
def runProcess (avoid : Bool) (m apid start span mode : Nat) : List (Call m) :=
  let claim := buildClaimRange m start span
  let order := orderOf claim mode
  let count := (buildOrderFromClaim claim).2
  [.processStarted apid] ++ (if avoid then [.claim claim] else []) ++
    -- Request claimed resources one by one
    (List.range count).map (fun i => .request (unitVec m (order i))) ++
    -- Release everything in the same order
    (List.range count).map (fun i => .release (unitVec m (order i))) ++
    [.processEnded]

/-- `span` of `func_p0`, `func_p1` and `func_p2`. -/
def spanOf (m : Nat) : Nat := if m / 2 < 2 then 2 else m / 2

/-- `func_p0`. -/
def MyappModified.funcP0 (avoid : Bool) (m apid : Nat) : List (Call m) :=
  runProcess avoid m apid 0 (spanOf m) 0

/-- `func_p1`. -/
def MyappModified.funcP1 (avoid : Bool) (m apid : Nat) : List (Call m) :=
  runProcess avoid m apid (m / 4) (spanOf m) 1

/-- `func_p2`. -/
def MyappModified.funcP2 (avoid : Bool) (m apid : Nat) : List (Call m) :=
  runProcess avoid m apid (m / 2) (spanOf m) 2

/-- The three children that `main` forks. -/
def MyappModified.children (avoid : Bool) (m : Nat) : Fin 3 → List (Call m) :=
  ![funcP0 avoid m 0, funcP1 avoid m 1, funcP2 avoid m 2]

/-! ## The order array -/

theorem buildClaimRange_apply (start span : Nat) (j : Fin m) :
    buildClaimRange m start span j = if ∃ i < span, j.val = (start + i) % m then 1 else 0 := by
  -- on the length of the range
  induction span with
  | zero => simp [buildClaimRange]
  | succ span ih =>
    rw [buildClaimRange, List.range_succ, List.foldl_append, List.foldl_cons, List.foldl_nil,
      ← buildClaimRange, ih]
    -- the last cell of the range, or one of those before
    by_cases hj : j.val = (start + span) % m
    · rw [if_pos hj, if_pos ⟨span, Nat.lt_succ_self span, hj⟩]
    · rw [if_neg hj]
      refine if_congr ⟨?_, ?_⟩ rfl rfl
      · rintro ⟨i, hi, heq⟩
        exact ⟨i, by omega, heq⟩
      · rintro ⟨i, hi, heq⟩
        refine ⟨i, lt_of_le_of_ne (by omega) ?_, heq⟩
        rintro rfl
        exact hj heq

/-- The claimed resources, in ascending order. -/
def claimedList (claim : Vec m) : List Nat :=
  ((List.finRange m).filter fun i => decide (claim i ≠ 0)).map Fin.val

theorem claimedList_nodup (claim : Vec m) : (claimedList claim).Nodup :=
  ((List.nodup_finRange m).filter _).map Fin.val_injective

theorem mem_claimedList {claim : Vec m} {o : Nat} :
    o ∈ claimedList claim ↔ ∃ i : Fin m, i.val = o ∧ claim i ≠ 0 := by
  simp only [claimedList, List.mem_map, List.mem_filter, List.mem_finRange, true_and,
    decide_eq_true_eq]
  exact exists_congr fun i => and_comm

theorem cells_buildOrderFromClaim (claim : Vec m) :
    cells (buildOrderFromClaim claim).1 (buildOrderFromClaim claim).2 = claimedList claim := by
  -- the loop appends to what it has stored
  have hloop : ∀ (l : List (Fin m)) (s : (Nat → Nat) × Nat),
      let r := l.foldl
        (fun s i => if claim i ≠ 0 then (Function.update s.1 s.2 i.val, s.2 + 1) else s) s
      cells r.1 r.2 =
        cells s.1 s.2 ++ (l.filter fun i => decide (claim i ≠ 0)).map Fin.val := by
    intro l
    induction l with
    | nil => simp
    | cons i l ih =>
      intro s
      rw [List.foldl_cons]
      refine (ih _).trans ?_
      by_cases hi : claim i = 0
      · simp [hi]
      · simp [hi, cells_push]
  exact hloop _ _

theorem cells_reverseOrder (arr : Nat → Nat) (n : Nat) :
    cells (reverseOrder arr n) n = (cells arr n).reverse :=
  cells_foldl_swap arr n

theorem cells_rotateLeft (arr : Nat → Nat) (n : Nat) {k : Nat} (hk : k ≤ n) :
    cells (rotateLeft arr n k) n = (cells arr n).rotate k := by
  rcases Nat.eq_zero_or_pos n with rfl | hn
  · simp [cells]
  rw [← cells_rotate]
  refine cells_congr fun i hi => ?_
  have hk' : ¬ ((k : Int).tmod n < 0) := by
    rw [← Int.ofNat_tmod]
    omega
  simp only [rotateLeft]
  rw [if_neg (by omega), if_neg hk', if_pos (by omega), ← Int.ofNat_tmod, ← Int.natCast_add,
    ← Int.ofNat_tmod, Int.toNat_natCast, Nat.add_mod_mod]

/-- **The loops only reorder.** In every mode `order` lists each claimed
resource once. -/
theorem perm_order (claim : Vec m) (mode : Nat) :
    (cells (orderOf claim mode) (buildOrderFromClaim claim).2).Perm (claimedList claim) := by
  rw [← cells_buildOrderFromClaim]
  unfold orderOf
  generalize buildOrderFromClaim claim = s
  obtain ⟨order, count⟩ := s
  dsimp only
  -- reversed, rotated or as it is
  split
  · rw [cells_reverseOrder]
    exact List.reverse_perm _
  · split
    · rw [cells_rotateLeft _ _ (Nat.div_le_self ..)]
      exact List.rotate_perm _ _
    · exact .refl _

/-! ## The scripts are disciplined -/

/-- One unit of each resource in `os`. -/
def unitsOf (m : Nat) (os : List Nat) : Vec m := fun j => if j.val ∈ os then 1 else 0

section Discipline

variable {avoid : Bool} {existing : Vec m} {apid : Nat} {l : Ledger m}

/-- Requesting `os`, one after the other, on top of `held`. -/
theorem after_requests (avoid : Bool) (apid : Nat) {l : Ledger m} (held os : List Nat)
    (hexist : ∀ j, 1 ≤ existing j)
    (hclaim : avoid = true → l.claimed = true) (hnodup : (held ++ os).Nodup)
    (hle : avoid = true → ∀ j, unitsOf m (held ++ os) j ≤ l.claim j)
    (hl : l.started = true ∧ l.held = unitsOf m held) :
    ∃ r, l.after avoid existing apid (os.map fun o => .request (unitVec m o)) =
      some { l with requested := r, held := unitsOf m (held ++ os) } := by
  induction os generalizing held l with
  | nil =>
    refine ⟨l.requested, ?_⟩
    rw [List.map_nil, Ledger.after, List.append_nil, ← hl.2]
  | cons o os ih =>
    have hsplit : held ++ o :: os = held ++ [o] ++ os := by simp
    have ho : o ∉ held := fun ho =>
      (List.nodup_append.mp hnodup).2.2 o ho o (List.mem_cons_self ..) rfl
    have hheld : ∀ j, unitsOf m held j + unitVec m o j = unitsOf m (held ++ [o]) j := by
      intro j
      simp only [unitsOf, unitVec, List.mem_append, List.mem_singleton]
      by_cases hj : j.val = o
      · rw [if_neg (hj ▸ ho), if_pos hj, if_pos (Or.inr hj), zero_add]
      · rw [if_neg hj, add_zero]
        exact if_congr (by simp [hj]) rfl rfl
    have hnext : l.next avoid existing apid (.request (unitVec m o)) =
        some { l with requested := true, held := unitsOf m (held ++ [o]) } := by
      simp only [Ledger.next, hl.2, hheld]
      refine if_pos ⟨hl.1, fun j => ?_, fun j => ?_, fun hav => ⟨hclaim hav, fun j => ?_⟩⟩
      · unfold unitVec
        split <;> omega
      · have := hexist j
        unfold unitsOf
        split <;> omega
      -- what is held so far is part of the claim
      · refine le_trans ?_ (hle hav j)
        unfold unitsOf
        split
        · next hmem => rw [if_pos (by rw [hsplit]; exact List.mem_append_left _ hmem)]
        · split <;> omega
    rw [hsplit] at hnodup hle ⊢
    rw [List.map_cons, Ledger.after, hnext, Option.bind_some]
    exact ih (held ++ [o]) hclaim hnodup hle ⟨hl.1, rfl⟩

/-- Releasing all that is held, one after the other. -/
theorem after_releases {os : List Nat} (hnodup : os.Nodup)
    (hl : l.started = true ∧ l.held = unitsOf m os) :
    l.after avoid existing apid (os.map fun o => .release (unitVec m o)) =
      some { l with held := 0 } := by
  -- on the units that are left
  induction os generalizing l with
  | nil =>
    rw [List.map_nil, Ledger.after]
    have : l.held = 0 := by
      rw [hl.2]
      funext j
      simp [unitsOf]
    rw [← this]
  | cons o os ih =>
    obtain ⟨ho, hnodup⟩ := List.nodup_cons.mp hnodup
    -- a unit fewer is held
    have hheld : ∀ j, unitsOf m (o :: os) j - unitVec m o j = unitsOf m os j := by
      intro j
      simp only [unitsOf, unitVec, List.mem_cons]
      by_cases hj : j.val = o
      · rw [if_pos (Or.inl hj), if_pos hj, if_neg (hj ▸ ho), sub_self]
      · rw [if_neg hj, sub_zero]
        exact if_congr (by simp [hj]) rfl rfl
    -- the release is one of what is held
    have hnext : l.next avoid existing apid (.release (unitVec m o)) =
        some { l with held := unitsOf m os } := by
      simp only [Ledger.next, hl.2, hheld]
      refine if_pos ⟨hl.1, fun j => ?_, fun j => ?_⟩
      · unfold unitVec
        split <;> omega
      · have := hheld j
        have hpos : 0 ≤ unitsOf m os j := by
          unfold unitsOf
          split <;> omega
        omega
    rw [List.map_cons, Ledger.after, hnext, Option.bind_some]
    exact ih hnodup ⟨hl.1, rfl⟩

/-- **`run_process` is disciplined**, in every mode and for every range it
claims. -/
theorem disciplined_runProcess (hexist : ∀ j, 1 ≤ existing j) (apid start span mode : Nat) :
    Disciplined avoid existing apid (runProcess avoid m apid start span mode) := by
  generalize hclaim : buildClaimRange m start span = claim
  have hunit : ∀ j, claim j = 0 ∨ claim j = 1 := by
    intro j
    rw [← hclaim, buildClaimRange_apply]
    split
    · exact .inr rfl
    · exact .inl rfl
  -- the resources in the order of the two loops, as a list
  obtain ⟨os, hos⟩ : ∃ os, cells (orderOf claim mode) (buildOrderFromClaim claim).2 = os :=
    ⟨_, rfl⟩
  have hperm : os.Perm (claimedList claim) := hos ▸ perm_order claim mode
  have hmap : ∀ f : Nat → Call m, (List.range (buildOrderFromClaim claim).2).map
      (fun i => f (orderOf claim mode i)) = os.map f := by
    intro f
    rw [← hos, cells, List.map_map]
    rfl
  have hnodup := hperm.nodup_iff.mpr (claimedList_nodup claim)
  have hle : ∀ j, unitsOf m os j ≤ claim j := by
    intro j
    unfold unitsOf
    split
    · next hmem =>
      obtain ⟨i, hi, hne⟩ := mem_claimedList.mp (hperm.mem_iff.mp hmem)
      obtain rfl := Fin.val_injective hi
      rcases hunit i with h | h
      · exact absurd h hne
      · rw [h]
    · rcases hunit j with h | h <;> omega
  -- start, and claim in avoidance mode
  have hstart : Ledger.outside.after avoid existing apid
      ([.processStarted apid] ++ if avoid then [.claim claim] else []) =
      some ⟨true, avoid, if avoid then claim else 0, false, 0⟩ := by
    cases avoid with
    | false => simp [Ledger.after, Ledger.next, Ledger.outside]
    | true =>
      have hnonneg : ∀ j, 0 ≤ claim j := fun j => by rcases hunit j with h | h <;> omega
      have hfits : ∀ j, claim j ≤ existing j := fun j => by
        have := hexist j
        rcases hunit j with h | h <;> omega
      simp [Ledger.after, Ledger.next, Ledger.outside, hnonneg, hfits]
  have hempty : (0 : Vec m) = unitsOf m [] := funext fun j => by simp [unitsOf]
  obtain ⟨r, hrequests⟩ := after_requests avoid apid [] os hexist
    (l := ⟨true, avoid, if avoid then claim else 0, false, 0⟩) id hnodup
    (fun hav j => by simpa [hav] using hle j) ⟨rfl, hempty⟩
  unfold Disciplined runProcess
  simp only [hclaim]
  rw [Ledger.after_append, Ledger.after_append, Ledger.after_append, hstart, Option.bind_some,
    hmap fun o => .request (unitVec m o), hrequests, Option.bind_some,
    hmap fun o => .release (unitVec m o), after_releases hnodup ⟨rfl, rfl⟩, Option.bind_some]
  simp [Ledger.after, Ledger.next]

end Discipline

theorem MyappModified.disciplined (avoid : Bool) {existing : Vec m}
    (hexist : ∀ j, 1 ≤ existing j) (i : Fin 3) :
    Disciplined avoid existing i (children avoid m i) := by
  fin_cases i
  · exact disciplined_runProcess hexist _ _ _ _
  · exact disciplined_runProcess hexist _ _ _ _
  · exact disciplined_runProcess hexist _ _ _ _

theorem length_runProcess_le (avoid : Bool) (m apid start span mode : Nat) :
    (runProcess avoid m apid start span mode).length ≤ 2 * m + 3 := by
  have hcount : (buildOrderFromClaim (buildClaimRange m start span)).2 ≤ m := by
    have hlength := congrArg List.length
      (cells_buildOrderFromClaim (buildClaimRange m start span))
    rw [length_cells, claimedList, List.length_map] at hlength
    have hfilter := List.length_filter_le
      (fun i => decide (buildClaimRange m start span i ≠ 0)) (List.finRange m)
    rw [List.length_finRange] at hfilter
    omega
  unfold runProcess
  cases avoid <;> simp <;> omega

theorem MyappModified.sum_length_le (avoid : Bool) (m : Nat) :
    ∑ i, (children avoid m i).length ≤ 6 * m + 9 := by
  have h₀ := length_runProcess_le avoid m 0 0 (spanOf m) 0
  have h₁ := length_runProcess_le avoid m 1 (m / 4) (spanOf m) 1
  have h₂ := length_runProcess_le avoid m 2 (m / 2) (spanOf m) 2
  rw [Fin.sum_univ_three]
  show (funcP0 avoid m 0).length + (funcP1 avoid m 1).length + (funcP2 avoid m 2).length ≤ _
  unfold funcP0 funcP1 funcP2
  omega

/--
**`myapp_modified.c` does what its header says**, for any number of resource
types and in every interleaving of its three children. No call of the library
is refused, and a run takes at most `12 * num_resource_types + 18` steps. With
flag 1 no deadlock is ever reported, and a run that cannot go on has all
children finished and all resources back. With flag 0 such a run has either
that, with no deadlock reported on the way, or `rsm_detection` returns the
number of children that are left and hold something, at least two.
-/
theorem myappModified_outcomes {gNumr avoid : Int}
    {s₀ : RsmSharedState (3 : Int).toNat gNumr.toNat}
    (hinit : rsmInit 3 gNumr (fun _ => 1) avoid = some s₀) {pids : Fin 3 → Int}
    (hinj : pids.Injective) {k : Nat} {app : App 3 gNumr.toNat}
    (hrun : AppRun pids
      (App.start s₀ (MyappModified.children (avoid == 1) gNumr.toNat)) k app) :
    k ≤ 12 * gNumr.toNat + 18 ∧ app.Accepted pids ∧
    (avoid = 1 → rsmDetection app.sys.shared = 0 ∧ (app.Stuck pids → app.Complete s₀)) ∧
    (avoid = 0 → ∀ k' app', AppRun pids app k' app' → app'.Stuck pids →
      (app'.Complete s₀ ∧ rsmDetection app.sys.shared = 0) ∨ app'.Deadlock) := by
  obtain ⟨rfl, hexist⟩ := rsmInit_eq_some hinit
  have hinv := hrun.inv (MyappModified.disciplined (avoid == 1) fun _ => le_refl _) hinj hexist
  refine ⟨?_, hinv.allAccepted hinj hexist, ?_, ?_⟩
  · -- the bound is twice the length of the scripts
    have h₁ := hrun.length_le hinj
    have h₂ := MyappModified.sum_length_le (avoid == 1) gNumr.toNat
    omega
  · -- avoidance mode
    rintro rfl
    exact ⟨(hinv.reachable.safeInv hexist).detection,
      fun hstuck => hinv.complete hexist (hinv.done hexist hinj hstuck)⟩
  · -- detection mode
    rintro rfl k' app' hrun' hstuck
    exact hinv.detected hexist hinj hrun' hstuck

theorem rsmInit_ones (rCount avoid : Int) (hpos : 0 < rCount) (hle : rCount ≤ 100)
    (havoid : avoid = 0 ∨ avoid = 1) :
    rsmInit 3 rCount (fun _ => 1) avoid = some (initialState _ _ (fun _ => 1) (avoid == 1)) := by
  have hvalid : validateVectorBounds (fun _ => 1 : Vec rCount.toNat) = true := by
    simp [validateVectorBounds]
  rcases havoid with rfl | rfl <;>
    simp [rsmInit, MAX_PR, MAX_RT, hvalid, not_le.mpr hpos, not_lt.mpr hle]

/-- The processes the demo programs fork. -/
def myappPids : Fin 3 → Int := ![10, 11, 12]

theorem myappPids_injective : Function.Injective myappPids := by decide

/-- Four resource types, flag 1, and the children take turns. -/
def MyappModified.completed : App 3 4 :=
  (List.replicate 11 [0, 1, 2]).flatten.foldl (App.turn myappPids)
    (App.start (initialState 3 4 (fun _ => 1) true) (children true 4))

theorem myappModified_outcomes_demo :
    MyappModified.completed.Complete (initialState 3 4 (fun _ => 1) true) := by
  obtain ⟨k, hrun⟩ := App.turns_run myappPids
    (App.start (initialState 3 4 (fun _ => 1) true) (MyappModified.children true 4))
    (List.replicate 11 [0, 1, 2]).flatten
  exact ((myappModified_outcomes (rsmInit_ones 4 1 (by decide) (by decide)
    (.inr rfl)) myappPids_injective hrun).2.2.1 rfl).2
    (App.stuck_of_turns (by decide) (by decide))

/-! ## `myapp.c` -/

/-- `func_p0`: R0, then R1. -/
def Myapp.funcP0 (avoid : Bool) (apid : Nat) : List (Call 5) :=
  [.processStarted apid] ++ (if avoid then [.claim ![1, 1, 0, 0, 0]] else []) ++
    [.request ![1, 0, 0, 0, 0], .request ![0, 1, 0, 0, 0],
      .release ![1, 0, 0, 0, 0], .release ![0, 1, 0, 0, 0], .processEnded]

/-- `func_p1`: R1, then R0. -/
def Myapp.funcP1 (avoid : Bool) (apid : Nat) : List (Call 5) :=
  [.processStarted apid] ++ (if avoid then [.claim ![1, 1, 0, 0, 0]] else []) ++
    [.request ![0, 1, 0, 0, 0], .request ![1, 0, 0, 0, 0],
      .release ![0, 1, 0, 0, 0], .release ![1, 0, 0, 0, 0], .processEnded]

/-- `func_p2`: R2, then R3; both are released together. -/
def Myapp.funcP2 (avoid : Bool) (apid : Nat) : List (Call 5) :=
  [.processStarted apid] ++ (if avoid then [.claim ![0, 0, 1, 1, 0]] else []) ++
    [.request ![0, 0, 1, 0, 0], .request ![0, 0, 0, 1, 0],
      .release ![0, 0, 1, 1, 0], .processEnded]

/-- The three children that `main` forks. -/
def Myapp.children (avoid : Bool) : Fin 3 → List (Call 5) :=
  ![funcP0 avoid 0, funcP1 avoid 1, funcP2 avoid 2]

/-- What each child ever holds: P0 and P1 use R0 and R1, P2 uses R2 and R3. -/
def Myapp.reach : Fin 3 → Vec 5 := ![![1, 1, 0, 0, 0], ![1, 1, 0, 0, 0], ![0, 0, 1, 1, 0]]

theorem Myapp.disciplined : ∀ avoid, ∀ i : Fin 3,
    Disciplined avoid (fun _ => 1) i (children avoid i) := by
  decide

/-- At every point of its script a child holds no more than its reach. -/
theorem Myapp.held_le {avoid : Bool} {i : Fin 3} {rest : List (Call 5)} {l : Ledger 5}
    (h : l.At avoid (fun _ => 1) i (children avoid i) rest) (j : Fin 5) :
    l.held j ≤ reach i j := by
  have hinits : ∀ avoid, ∀ i : Fin 3, ∀ pre ∈ (children avoid i).inits,
      (Ledger.outside.after avoid (fun _ => 1) i pre).all
        (fun l => decide (∀ j, l.held j ≤ reach i j)) = true := by
    decide
  obtain ⟨pre, hpre, hafter⟩ := h
  have := hinits avoid i pre (List.mem_inits _ _ |>.mpr ⟨rest, hpre.symm⟩)
  rw [hafter] at this
  exact of_decide_eq_true this j

/-- P2 is not part of any deadlock: nobody else uses R2 and R3. -/
theorem Myapp.third_done {pids : Fin 3 → Int} {app : App 3 5}
    (h : AppInv (fun _ => 1) false pids (children false) app) (hinj : pids.Injective)
    (hstuck : app.Stuck pids) : app.rest 2 = [] := by
  have hexist : ∀ j : Fin 5, 0 ≤ (fun _ => 1 : Vec 5) j := fun _ => Int.one_nonneg
  have hres := h.reachable.resourceInv hexist
  by_contra hleft
  obtain ⟨hsleep, -⟩ := h.waits hinj hstuck hleft
  have hactive : app.sys.shared.active 2 = true := by
    rw [← hres.started_eq 2]
    exact (h.reachable.sleepInv.pending _ 2 hsleep).1
  obtain ⟨j, hreq, k, hk, hheld⟩ := h.exists_holder hexist hinj hstuck hactive
  obtain ⟨l, hl, hat⟩ := h.ledgers 2
  obtain ⟨l', hl', hat'⟩ := h.ledgers k
  -- `j` is in the reach of P2 and of another child
  have h₁ : 0 < reach 2 j := by
    have := hl.held j
    have := hres.allocation_nonneg 2 j
    have := held_le hat j
    omega
  have h₂ : 0 < reach k j := by
    have := hl'.held j
    have := (h.reachable.resourceInv hexist).repInv.nonneg k j
    have := held_le hat' j
    omega
  have hdisjoint : ∀ k : Fin 3, k ≠ 2 → ∀ j, ¬ (0 < reach 2 j ∧ 0 < reach k j) := by decide
  exact hdisjoint k hk j ⟨h₁, h₂⟩

/-- The only deadlock of the three children. -/
theorem Myapp.deadlock_eq {pids : Fin 3 → Int} {app : App 3 5}
    (h : AppInv (fun _ => 1) false pids (children false) app) (hinj : pids.Injective)
    (hstuck : app.Stuck pids) (hdead : app.Deadlock) :
    app.rest 2 = [] ∧ app.holders = {0, 1} ∧ rsmDetection app.sys.shared = 2 := by
  have hthird := Myapp.third_done h hinj hstuck
  -- two of the first two children hold something
  have hsub : app.holders ⊆ {0, 1} := by
    intro i hi
    have hne : i ≠ 2 := by
      rintro rfl
      exact (Finset.mem_filter.mp hi).2.1 hthird
    have hall : ∀ i : Fin 3, i ≠ 2 → i ∈ ({0, 1} : Finset (Fin 3)) := by decide
    exact hall i hne
  have heq := Finset.eq_of_subset_of_card_le hsub hdead.two_le
  refine ⟨hthird, heq, ?_⟩
  rw [hdead.detection, heq]
  rfl

/--
**`myapp.c` shows what its comments say**, in every interleaving of its three
children. No call of the library is refused. With flag 1 no deadlock is ever
reported, and a run that cannot go on is complete. With flag 0 it is complete
and no deadlock was reported, or P2 is done, P0 and P1 are deadlocked, and
`rsm_detection` returns 2.
-/
theorem myapp_outcomes {avoid : Int} {s₀ : RsmSharedState 3 5}
    (hinit : rsmInit 3 5 (fun _ => 1) avoid = some s₀) {pids : Fin 3 → Int}
    (hinj : pids.Injective) {k : Nat} {app : App 3 5}
    (hrun : AppRun pids (App.start s₀ (Myapp.children (avoid == 1))) k app) :
    app.Accepted pids ∧
    (avoid = 1 → rsmDetection app.sys.shared = 0 ∧ (app.Stuck pids → app.Complete s₀)) ∧
    (avoid = 0 → ∀ k' app', AppRun pids app k' app' → app'.Stuck pids →
      (app'.Complete s₀ ∧ rsmDetection app.sys.shared = 0) ∨
      (app'.rest 2 = [] ∧ app'.holders = {0, 1} ∧ rsmDetection app'.sys.shared = 2)) := by
  obtain ⟨rfl, hexist⟩ := rsmInit_eq_some hinit
  have hinv := hrun.inv (Myapp.disciplined (avoid == 1)) hinj hexist
  refine ⟨hinv.allAccepted hinj hexist, ?_, ?_⟩
  · -- avoidance mode
    rintro rfl
    exact ⟨(hinv.reachable.safeInv hexist).detection,
      fun hstuck => hinv.complete hexist (hinv.done hexist hinj hstuck)⟩
  · -- detection mode
    rintro rfl k' app' hrun' hstuck
    refine (hinv.detected hexist hinj hrun' hstuck).imp id fun hdead => ?_
    exact Myapp.deadlock_eq (hinv.run hinj hexist hrun') hinj hstuck hdead

/-- P0 takes R0, P1 takes R1, and each asks for the other's. -/
def Myapp.deadlocked : App 3 5 :=
  [0, 0, 1, 1, 0, 1, 2, 2, 2, 2, 2].foldl (App.turn myappPids)
    (App.start (initialState 3 5 (fun _ => 1) false) (children false))

theorem myapp_outcomes_demo : rsmDetection Myapp.deadlocked.sys.shared = 2 := by
  obtain ⟨k, hrun⟩ := App.turns_run myappPids
    (App.start (initialState 3 5 (fun _ => 1) false) (Myapp.children false))
    [0, 0, 1, 1, 0, 1, 2, 2, 2, 2, 2]
  have hend := ((myapp_outcomes (rsmInit_ones 5 0 (by decide) (by decide) (.inl rfl))
    myappPids_injective hrun).2.2 rfl 0 _ .refl (App.stuck_of_turns (by decide) (by decide)))
  -- the run is not complete
  refine (hend.resolve_left fun h => ?_).2.2
  exact absurd (h.1.done 0) (by decide)

end OsProjects.Rsm
