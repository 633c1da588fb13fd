import OsProjects.Lib.Reduction

/-!
# Resource manager — executable model

The library of `Project3/rsm.c`. The shared segment is `RsmSharedState n m`,
with `n = process_count` and `m = resource_count`; everything between
`lock_state` and `unlock_state` is one function on it, because the mutex
makes it atomic. Mapping the segment and taking the mutex are taken to
succeed.

An OS process has a pid, and its own copy of `g_local_apid` (`none` for -1).
`rsm_request` may go to sleep on `process_sem[apid]` after its critical
section; its model then returns `Outcome.sleeping apid`, and the return of
`sem_wait` is a step of its own (`Event.wake`).

`int` values are unbounded integers here: no operation below leaves the range
`0 .. existing[j]`.
-/

namespace OsProjects.Rsm

open Reduction

def MAX_RT : Nat := 100
def MAX_PR : Nat := 100

/-- One amount per resource type. -/
abbrev Vec (m : Nat) := Fin m → Int

/-- `rsm_shared_state`, without the mutex and the two counts. -/
structure RsmSharedState (n m : Nat) where
  initialized : Bool
  avoidEnabled : Bool
  existing : Vec m
  available : Vec m
  allocation : Fin n → Vec m
  request : Fin n → Vec m
  maxDemand : Fin n → Vec m
  need : Fin n → Vec m
  apidToPid : Fin n → Int
  started : Fin n → Bool
  active : Fin n → Bool
  claimed : Fin n → Bool
  requestedOnce : Fin n → Bool
  waiting : Fin n → Bool
  processSem : Fin n → Nat

variable {n m : Nat}

/-- `validate_vector_bounds`: no entry is negative. -/
def validateVectorBounds (vec : Vec m) : Bool := decide (∀ j, 0 ≤ vec j)

/-- `current_apid_locked`: the caller's application id, and its
`g_local_apid` afterwards. -/
def currentApidLocked (s : RsmSharedState n m) (pid : Int) (gLocalApid : Option (Fin n)) :
    Option (Fin n) × Option (Fin n) :=
  -- the search by `getpid()`, which also refreshes the cached id
  let scan :=
    match (List.finRange n).find? fun i => s.started i && s.apidToPid i == pid with
    | some i => (some i, some i)
    | none => (none, gLocalApid)
  -- the cached id counts only while its row is still this process's
  match gLocalApid with
  | some a => if s.started a && s.apidToPid a == pid then (some a, some a) else scan
  | none => scan

/-! ## Safety test, grants and detection -/

/-- `need_ij` of `is_safe`: the need after the hypothetical grant. -/
def safeNeed (s : RsmSharedState n m) (apid : Fin n) (req : Vec m) (i : Fin n) : Vec m :=
  fun j => s.need i j - if i = apid then req j else 0

/-- What `is_safe` adds to `work` when `i` finishes. -/
def safeAllocation (s : RsmSharedState n m) (apid : Fin n) (req : Vec m) (i : Fin n) : Vec m :=
  fun j => s.allocation i j + if i = apid then req j else 0

/-- `is_safe`. -/
def isSafe (s : RsmSharedState n m) (apid : Fin n) (req : Vec m) : Bool :=
  -- `work[j] < 0` returns 0 before the search starts
  if ∀ j, 0 ≤ s.available j - req j then
    let final := reduce (fun i work => decide (∀ j, safeNeed s apid req i j ≤ work j))
      (safeAllocation s apid req) (List.finRange n)
      ⟨fun j => s.available j - req j, fun i => !s.active i⟩
    decide (∀ i, final.finish i = true)
  else false

/-- The four updates of a grant: `req` moves from `available` to the
allocation of `i`, and out of its need in avoidance mode. -/
def grant (s : RsmSharedState n m) (i : Fin n) (req : Vec m) : RsmSharedState n m :=
  { s with
    available := fun j => s.available j - req j
    allocation := Function.update s.allocation i fun j => s.allocation i j + req j
    need := if s.avoidEnabled then Function.update s.need i fun j => s.need i j - req j
      else s.need
    request := Function.update s.request i fun _ => 0 }

/-- A grant by `try_satisfy_waiting`: the waiting request of `i` is served
and its semaphore posted. -/
def grantAndWake (s : RsmSharedState n m) (i : Fin n) : RsmSharedState n m :=
  { grant s i (s.request i) with
    waiting := Function.update s.waiting i false
    processSem := Function.update s.processSem i (s.processSem i + 1) }

/-- The body of `try_satisfy_waiting` for process `i`: `none` where the
source says `continue`. -/
def grantWaiting (i : Fin n) (s : RsmSharedState n m) : Option (RsmSharedState n m) :=
  if !s.waiting i || !s.active i then none
  else if ¬ ∀ j, s.request i j ≤ s.available j then none
  else if s.avoidEnabled && !isSafe s i (s.request i) then none
  else some (grantAndWake s i)

/-- How many processes are waiting. -/
def waitingCount (s : RsmSharedState n m) : Nat :=
  (Finset.univ.filter fun i => s.waiting i = true).card

/-- `try_satisfy_waiting`. -/
def trySatisfyWaiting (s : RsmSharedState n m) : RsmSharedState n m :=
  -- `while (progress)`: a pass that grants nothing is the last one
  Scan.loop grantWaiting (List.finRange n) waitingCount s

/-- `holds` of `rsm_detection`. -/
def holds (s : RsmSharedState n m) (i : Fin n) : Bool := decide (∃ j, 0 < s.allocation i j)

/-- The variables of `rsm_detection` after its loop. -/
def detectionFinal (s : RsmSharedState n m) : State (Fin n) (Vec m) :=
  -- a process that holds nothing counts as finished from the start
  reduce (fun i work => decide (∀ j, s.request i j ≤ work j)) s.allocation (List.finRange n)
    ⟨s.available, fun i => if s.active i then !holds s i else true⟩

/-- `rsm_detection`. -/
def rsmDetection (s : RsmSharedState n m) : Nat :=
  (Finset.univ.filter fun i => (detectionFinal s).finish i = false).card

/-! ## The library calls -/

/-- The segment as `rsm_init` leaves it. -/
def initialState (n m : Nat) (exist : Vec m) (avoid : Bool) : RsmSharedState n m where
  initialized := true
  avoidEnabled := avoid
  existing := exist
  available := exist
  allocation := fun _ _ => 0
  request := fun _ _ => 0
  maxDemand := fun _ _ => 0
  need := fun _ _ => 0
  apidToPid := fun _ => -1
  started := fun _ => false
  active := fun _ => false
  claimed := fun _ => false
  requestedOnce := fun _ => false
  waiting := fun _ => false
  processSem := fun _ => 0

/-- `rsm_init`: `none` where the source returns -1. -/
def rsmInit (pCount rCount : Int) (exist : Vec rCount.toNat) (avoid : Int) :
    Option (RsmSharedState pCount.toNat rCount.toNat) :=
  if pCount ≤ 0 ∨ pCount > MAX_PR then none
  else if rCount ≤ 0 ∨ rCount > MAX_RT then none
  else if !validateVectorBounds exist then none
  else if avoid ≠ 0 ∧ avoid ≠ 1 then none
  else some (initialState _ _ exist (avoid == 1))

/-- How a call leaves its critical section: it returns, or it goes on to
`sem_wait(&process_sem[apid])`. -/
inductive Outcome (n : Nat) where
  | ret (value : Int)
  | sleeping (apid : Fin n)
  deriving DecidableEq

/-- The effect of one call's critical section. -/
structure Result (n m : Nat) where
  outcome : Outcome n
  shared : RsmSharedState n m
  gLocalApid : Option (Fin n)

/-- The rows of `rsm_process_started`. -/
def startProcess (s : RsmSharedState n m) (pid : Int) (apid : Fin n) : RsmSharedState n m :=
  -- `max_demand` and `need` are not written here: `rsm_process_ended` has cleared them
  { s with
    apidToPid := Function.update s.apidToPid apid pid
    started := Function.update s.started apid true
    active := Function.update s.active apid true
    claimed := Function.update s.claimed apid false
    requestedOnce := Function.update s.requestedOnce apid false
    waiting := Function.update s.waiting apid false
    request := Function.update s.request apid fun _ => 0 }

/-- `rsm_process_started`. -/
def rsmProcessStarted (pid : Int) (gLocalApid : Option (Fin n)) (s : RsmSharedState n m)
    (apid : Int) : Result n m :=
  if h : 0 ≤ apid ∧ apid < n then
    let a : Fin n := ⟨apid.toNat, by omega⟩
    if !s.initialized || s.started a then ⟨.ret (-1), s, gLocalApid⟩
    else ⟨.ret 0, startProcess s pid a, some a⟩
  else ⟨.ret (-1), s, gLocalApid⟩

/-- The rows of `rsm_process_ended`. -/
def endProcess (s : RsmSharedState n m) (apid : Fin n) : RsmSharedState n m :=
  -- the semaphore of the id is not reset
  { s with
    available := fun j => s.available j + s.allocation apid j
    allocation := Function.update s.allocation apid fun _ => 0
    request := Function.update s.request apid fun _ => 0
    maxDemand := Function.update s.maxDemand apid fun _ => 0
    need := Function.update s.need apid fun _ => 0
    waiting := Function.update s.waiting apid false
    apidToPid := Function.update s.apidToPid apid (-1)
    started := Function.update s.started apid false
    active := Function.update s.active apid false
    claimed := Function.update s.claimed apid false
    requestedOnce := Function.update s.requestedOnce apid false }

/-- `rsm_process_ended`. -/
def rsmProcessEnded (pid : Int) (gLocalApid : Option (Fin n)) (s : RsmSharedState n m) :
    Result n m :=
  match currentApidLocked s pid gLocalApid with
  | (none, g) => ⟨.ret (-1), s, g⟩
  | (some apid, g) =>
    if !s.active apid then ⟨.ret (-1), s, g⟩
    -- only a call that succeeds forgets `g_local_apid`
    else ⟨.ret 0, trySatisfyWaiting (endProcess s apid), none⟩

/-- The rows of `rsm_claim`. -/
def recordClaim (s : RsmSharedState n m) (apid : Fin n) (claim : Vec m) : RsmSharedState n m :=
  { s with
    maxDemand := Function.update s.maxDemand apid claim
    need := Function.update s.need apid claim
    claimed := Function.update s.claimed apid true }

/-- `rsm_claim`. -/
def rsmClaim (pid : Int) (gLocalApid : Option (Fin n)) (s : RsmSharedState n m)
    (claim : Vec m) : Result n m :=
  if !validateVectorBounds claim then ⟨.ret (-1), s, gLocalApid⟩
  else
    match currentApidLocked s pid gLocalApid with
    | (none, g) => ⟨.ret (-1), s, g⟩
    | (some apid, g) =>
      if !s.started apid then ⟨.ret (-1), s, g⟩
      -- without avoidance a claim is accepted and not recorded
      else if !s.avoidEnabled then ⟨.ret 0, s, g⟩
      else if s.claimed apid || s.requestedOnce apid then ⟨.ret (-1), s, g⟩
      else if ∃ j, claim j > s.existing j then ⟨.ret (-1), s, g⟩
      else ⟨.ret 0, recordClaim s apid claim, g⟩

/-- `requested_once` and the request row, as `rsm_request` sets them. -/
def recordRequest (s : RsmSharedState n m) (apid : Fin n) (request : Vec m) :
    RsmSharedState n m :=
  { s with
    requestedOnce := Function.update s.requestedOnce apid true
    request := Function.update s.request apid request }

/-- `waiting[apid] = 1`. -/
def setWaiting (s : RsmSharedState n m) (apid : Fin n) : RsmSharedState n m :=
  { s with waiting := Function.update s.waiting apid true }

/-- `rsm_request`, up to the release of the mutex. -/
def rsmRequest (pid : Int) (gLocalApid : Option (Fin n)) (s : RsmSharedState n m)
    (request : Vec m) : Result n m :=
  if !validateVectorBounds request then ⟨.ret (-1), s, gLocalApid⟩
  else
    match currentApidLocked s pid gLocalApid with
    | (none, g) => ⟨.ret (-1), s, g⟩
    | (some apid, g) =>
      if !s.active apid then ⟨.ret (-1), s, g⟩
      else if ∃ j, request j > s.existing j then ⟨.ret (-1), s, g⟩
      else if s.avoidEnabled && !s.claimed apid then ⟨.ret (-1), s, g⟩
      else if s.avoidEnabled ∧ ∃ j, request j > s.need apid j then ⟨.ret (-1), s, g⟩
      else
        -- from here on the request is on record, granted or not
        let s₁ := recordRequest s apid request
        let avail := decide (∀ j, request j ≤ s₁.available j)
        let safe := avail && (!s₁.avoidEnabled || isSafe s₁ apid request)
        if avail && safe then ⟨.ret 0, grant s₁ apid request, g⟩
        else ⟨.sleeping apid, setWaiting s₁ apid, g⟩

/-- The updates of `rsm_release`. -/
def giveBack (s : RsmSharedState n m) (apid : Fin n) (release : Vec m) : RsmSharedState n m :=
  { s with
    available := fun j => s.available j + release j
    allocation := Function.update s.allocation apid fun j => s.allocation apid j - release j
    need := if s.avoidEnabled then
        Function.update s.need apid fun j => s.need apid j + release j
      else s.need }

/-- `rsm_release`. -/
def rsmRelease (pid : Int) (gLocalApid : Option (Fin n)) (s : RsmSharedState n m)
    (release : Vec m) : Result n m :=
  if !validateVectorBounds release then ⟨.ret (-1), s, gLocalApid⟩
  else
    match currentApidLocked s pid gLocalApid with
    | (none, g) => ⟨.ret (-1), s, g⟩
    | (some apid, g) =>
      if !s.active apid then ⟨.ret (-1), s, g⟩
      else if ∃ j, release j > s.allocation apid j then ⟨.ret (-1), s, g⟩
      -- what is given back may serve a waiting process at once
      else ⟨.ret 0, trySatisfyWaiting (giveBack s apid release), g⟩

/-! ## The system of processes -/

/-- The calls that change the segment. -/
inductive Call (m : Nat) where
  | processStarted (apid : Int)
  | processEnded
  | claim (claim : Vec m)
  | request (request : Vec m)
  | release (release : Vec m)

/-- The critical section of a call by process `pid`. -/
def Call.run (c : Call m) (pid : Int) (gLocalApid : Option (Fin n)) (s : RsmSharedState n m) :
    Result n m :=
  match c with
  | .processStarted apid => rsmProcessStarted pid gLocalApid s apid
  | .processEnded => rsmProcessEnded pid gLocalApid s
  | .claim v => rsmClaim pid gLocalApid s v
  | .request v => rsmRequest pid gLocalApid s v
  | .release v => rsmRelease pid gLocalApid s v

/-- The application id a call is charged to: the caller's, or the free id that
is being started. -/
def Call.apid (c : Call m) (pid : Int) (gLocalApid : Option (Fin n)) (s : RsmSharedState n m) :
    Option (Fin n) :=
  match c with
  | .processStarted apid =>
    if h : 0 ≤ apid ∧ apid < n then
      if s.started ⟨apid.toNat, by omega⟩ then none else some ⟨apid.toNat, by omega⟩
    else none
  | _ => (currentApidLocked s pid gLocalApid).1

/-- The segment with all OS processes: each has its own `g_local_apid`, and
`asleep pid = some a` while process `pid` is between its critical section of
`rsm_request` and the return of `sem_wait(&process_sem[a])`. -/
structure System (n m : Nat) where
  shared : RsmSharedState n m
  gLocalApid : Int → Option (Fin n)
  asleep : Int → Option (Fin n)

/-- The system right after `rsm_init`. -/
def System.init (s₀ : RsmSharedState n m) : System n m where
  shared := s₀
  gLocalApid := fun _ => none
  asleep := fun _ => none

/-- Process `pid` runs the critical section of a call. -/
def System.call (sys : System n m) (pid : Int) (c : Call m) : System n m :=
  let r := c.run pid (sys.gLocalApid pid) sys.shared
  { shared := r.shared
    gLocalApid := Function.update sys.gLocalApid pid r.gLocalApid
    asleep :=
      match r.outcome with
      | .ret _ => sys.asleep
      | .sleeping apid => Function.update sys.asleep pid (some apid) }

/-- `sem_wait(&process_sem[apid])` takes the token and returns. -/
def System.wake (sys : System n m) (pid : Int) (apid : Fin n) : System n m :=
  { sys with
    shared := { sys.shared with
      processSem := Function.update sys.shared.processSem apid
        (sys.shared.processSem apid - 1) }
    asleep := Function.update sys.asleep pid none }

/-- A forked child starts with its parent's `g_local_apid`. -/
def System.fork (sys : System n m) (parent child : Int) : System n m :=
  { sys with
    gLocalApid := Function.update sys.gLocalApid child (sys.gLocalApid parent) }

/-- What can happen in the system. -/
inductive Event (m : Nat) where
  | call (pid : Int) (c : Call m)
  | wake (pid : Int)
  | fork (parent child : Int)

/-- One step of the system. A process that is asleep makes no call; it wakes
when its semaphore has a token. A child's pid is not in use. -/
inductive Step : System n m → Event m → System n m → Prop where
  | call {sys : System n m} {pid : Int} (c : Call m) (hawake : sys.asleep pid = none) :
      Step sys (.call pid c) (sys.call pid c)
  | wake {sys : System n m} {pid : Int} {apid : Fin n} (hasleep : sys.asleep pid = some apid)
      (htoken : 0 < sys.shared.processSem apid) : Step sys (.wake pid) (sys.wake pid apid)
  | fork {sys : System n m} {parent child : Int} (hawake : sys.asleep parent = none)
      (hfresh : sys.asleep child = none)
      (hunused : ∀ a, sys.shared.started a = true → sys.shared.apidToPid a ≠ child) :
      Step sys (.fork parent child) (sys.fork parent child)

/-- The systems reachable from the segment `s₀` by any order of events. -/
inductive Reachable (s₀ : RsmSharedState n m) : System n m → Prop where
  | init : Reachable s₀ (System.init s₀)
  | step {sys sys' : System n m} {e : Event m} (h : Reachable s₀ sys) (hstep : Step sys e sys') :
      Reachable s₀ sys'

end OsProjects.Rsm
