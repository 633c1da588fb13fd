import Mathlib.Data.Multiset.AddSub
import OsProjects.Rsm.Definitions

/-!
# Resource manager — the shared memory object

The rest of the library takes the segment for given. Here it comes and goes: `rsm_init`
makes the object behind `RSM_SHM_NAME` in several system calls, any of which may fail, the
other processes map what the name stands for when they first need it, `fork` copies the
mapping, and `rsm_destroy` takes the semaphores and the name away.

A `World` has the name, the objects and the processes. `g_state` and `g_shm_fd` are numbers
of objects, `fds` and `maps` is what the kernel has open and mapped for the process. Whoever
waits on a semaphore that is not initialised, or no longer, has left what is defined: the
world is then at `fault`, and nothing is said about it from there on.
-/

namespace OsProjects.Rsm

/-! ## Objects and processes -/

/-- What `rsm_init` writes, with the two counts. -/
structure Segment where
  processCount : Int
  resourceCount : Int
  shared : RsmSharedState processCount.toNat resourceCount.toNat

/-- A shared memory object is under construction, in use, or of no use any more. -/
inductive Object
  | building
  | live (seg : Segment)
  | destroyed

/-- Which system call of `rsm_init` comes next: `ftruncate`, `mmap`, or `sem_init` after `sems`
semaphores, the mutex first. -/
inductive Stage
  | opened
  | sized
  | mapped (sems : Nat)

/-- What a process is doing: `rsm_init` behind its `shm_open`, or `sem_wait` in `rsm_request`. -/
inductive Activity
  | awake
  | building (obj : Nat) (seg : Segment) (stage : Stage)
  | asleep (apid : Nat)

/-- Behind the critical section. -/
def Outcome.activity {n : Nat} : Outcome n → Activity
  | .ret _ => .awake
  | .sleeping apid => .asleep apid

/-- The static variables of `rsm.c` in one process, and what its system calls have left. -/
structure Proc where
  gState : Option Nat
  gShmFd : Option Nat
  gLocalApid : Option Nat
  activity : Activity
  fds : Multiset Nat
  maps : Multiset Nat
  /-- It has returned from `main`, or was killed. -/
  gone : Bool

structure World where
  name : Option Nat
  objects : Nat → Option Object
  /-- The number of objects so far. -/
  count : Nat
  procs : Int → Option Proc
  fault : Bool

/-- A call, with the array of the caller. -/
inductive UserCall
  | processStarted (apid : Int)
  | processEnded
  | claim (claim : Nat → Int)
  | request (request : Nat → Int)
  | release (release : Nat → Int)

/-- The first `resource_count` entries are looked at. -/
def UserCall.on (m : Nat) : UserCall → Call m
  | .processStarted apid => .processStarted apid
  | .processEnded => .processEnded
  | .claim v => .claim fun j => v j
  | .request v => .request fun j => v j
  | .release v => .release fun j => v j

/-- A step of a process. The flags say whether a system call succeeds. -/
inductive Act
  | init (pCount rCount : Int) (exist : Nat → Int) (avoid : Int) (opens : Bool)
  | initNext (ok unlinks : Bool)
  | map (opens maps : Bool)
  | call (c : UserCall)
  /-- `rsm_detection` and `rsm_print_state`, which only read. -/
  | look
  | wake
  | destroy (unlinks : Bool)
  | fork (child : Int)
  | exit

namespace Proc

/-- `g_local_apid` as the functions of the library see it. -/
def cached (p : Proc) (n : Nat) : Option (Fin n) :=
  p.gLocalApid.bind fun a => if h : a < n then some ⟨a, h⟩ else none

/-- The semaphore the process sleeps on. -/
def sleepsOn (p : Proc) (n : Nat) : Option (Fin n) :=
  match p.activity with
  | .asleep a => if h : a < n then some ⟨a, h⟩ else none
  | _ => none

/-- `unmap_state`. -/
def unmapState (p : Proc) : Proc :=
  { p with
    gState := none
    gShmFd := none
    gLocalApid := none
    maps := p.gState.elim p.maps p.maps.erase
    fds := p.gShmFd.elim p.fds p.fds.erase }

/-- `map_existing_state`, where the name stands for `name`. -/
def mapExistingState (p : Proc) (name : Option Nat) (opens maps : Bool) : Proc :=
  if p.gState.isSome then p
  else
    match name with
    | none => { p with gShmFd := none }
    | some o =>
      if !opens then { p with gShmFd := none }
      -- the descriptor is closed again
      else if !maps then { p with gShmFd := none }
      else { p with gState := some o, gShmFd := some o, fds := o ::ₘ p.fds, maps := o ::ₘ p.maps }

end Proc

namespace World

def setProc (w : World) (pid : Int) (p : Proc) : World :=
  { w with procs := Function.update w.procs pid (some p) }

def setObject (w : World) (o : Nat) (obj : Object) : World :=
  { w with objects := Function.update w.objects o (some obj) }

/-- `rsm_init` up to `shm_open` with `O_CREAT | O_EXCL`. -/
def initStart (w : World) (pid : Int) (p : Proc) (pCount rCount : Int) (exist : Nat → Int)
    (avoid : Int) (opens : Bool) : World :=
  match rsmInit pCount rCount (fun j => exist j) avoid with
  | none => w
  | some s₀ =>
    if w.name.isSome || !opens then w
    else
      { (w.setObject w.count .building).setProc pid { p with
          activity := .building w.count ⟨pCount, rCount, s₀⟩ .opened
          fds := w.count ::ₘ p.fds } with
        name := some w.count
        count := w.count + 1 }

/-- The error paths of `rsm_init`: `munmap` if need be, `close` and `shm_unlink`. -/
def giveUp (w : World) (pid : Int) (p : Proc) (o : Nat) (mapped unlinks : Bool) : World :=
  { (w.setObject o .destroyed).setProc pid { p with
      activity := .awake
      maps := if mapped then p.maps.erase o else p.maps
      fds := p.fds.erase o } with
    name := if unlinks then none else w.name }

/-- The end of `rsm_init`. -/
def publish (w : World) (pid : Int) (p : Proc) (o : Nat) (seg : Segment) : World :=
  (w.setObject o (.live seg)).setProc pid { p.unmapState with
    gState := some o
    gShmFd := some o
    gLocalApid := none
    activity := .awake }

/-- The next system call of `rsm_init`. -/
def initNext (w : World) (pid : Int) (p : Proc) (o : Nat) (seg : Segment) (stage : Stage)
    (ok unlinks : Bool) : World :=
  match stage with
  | .opened =>
    if !ok then w.giveUp pid p o false unlinks
    else w.setProc pid { p with activity := .building o seg .sized }
  | .sized =>
    if !ok then w.giveUp pid p o false unlinks
    else w.setProc pid { p with
      activity := .building o seg (.mapped 0), maps := o ::ₘ p.maps }
  | .mapped sems =>
    if !ok then w.giveUp pid p o true unlinks
    -- the mutex and one semaphore for each process
    else if (sems : Int) < seg.processCount then
      w.setProc pid { p with activity := .building o seg (.mapped (sems + 1)) }
    else w.publish pid p o seg

/-- `g_state`, and what there is. -/
def mapped (w : World) (p : Proc) : Option (Nat × Option Object) :=
  p.gState.map fun o => (o, w.objects o)

/-- A call of the library from `lock_state` on; -1 where the segment could not be mapped. -/
def call (w : World) (pid : Int) (p : Proc) (c : UserCall) : World :=
  match w.mapped p with
  | none => w
  | some (o, some (.live seg)) =>
    let r := (c.on seg.resourceCount.toNat).run pid (p.cached seg.processCount.toNat) seg.shared
    (w.setObject o (.live { seg with shared := r.shared })).setProc pid { p with
      gLocalApid := r.gLocalApid.map Fin.val
      activity := r.outcome.activity }
  | some _ => { w with fault := true }

def look (w : World) (p : Proc) : World :=
  match w.mapped p with
  | none => w
  | some (_, some (.live _)) => w
  | some _ => { w with fault := true }

/-- The return of `sem_wait(&process_sem[apid])`. -/
def wake (w : World) (pid : Int) (p : Proc) : Option World :=
  match w.mapped p with
  | some (o, some (.live seg)) =>
    match p.sleepsOn seg.processCount.toNat with
    | none => none
    | some apid =>
      if 0 < seg.shared.processSem apid then
        some <| (w.setObject o (.live { seg with shared := { seg.shared with
          processSem := Function.update seg.shared.processSem apid
            (seg.shared.processSem apid - 1) } })).setProc pid { p with activity := .awake }
      else none
  | _ => none

/-- `rsm_destroy` of the segment the process has mapped; the name may be that of another. -/
def destroy (w : World) (pid : Int) (p : Proc) (unlinks : Bool) : World :=
  match w.mapped p with
  | none => w
  | some (o, some (.live _)) =>
    { (w.setObject o .destroyed).setProc pid p.unmapState with
      name := if unlinks then none else w.name }
  | some _ => { w with fault := true }

/-- One step of the process `pid`; `none` when it cannot take place. A child has a new pid. -/
def step (w : World) (pid : Int) (a : Act) : Option World :=
  match w.procs pid with
  | none => none
  | some p =>
    if w.fault || p.gone then none
    else
      match p.activity, a with
      | _, .exit => some (w.setProc pid { p with fds := 0, maps := 0, gone := true })
      | .awake, .init pCount rCount exist avoid opens =>
        some (w.initStart pid p pCount rCount exist avoid opens)
      | .awake, .map opens maps => some (w.setProc pid (p.mapExistingState w.name opens maps))
      | .awake, .call c => some (w.call pid p c)
      | .awake, .look => some (w.look p)
      | .awake, .destroy unlinks => some (w.destroy pid p unlinks)
      | .awake, .fork child => if (w.procs child).isSome then none else some (w.setProc child p)
      | .building o seg stage, .initNext ok unlinks =>
        some (w.initNext pid p o seg stage ok unlinks)
      | .asleep _, .wake => w.wake pid p
      | _, _ => none

def run (w : World) : List (Int × Act) → Option World
  | [] => some w
  | (pid, a) :: acts => (w.step pid a).bind fun w => w.run acts

/-- One process, before it has called anything. -/
def boot (pid : Int) : World where
  name := none
  objects := fun _ => none
  count := 0
  procs := Function.update (fun _ => none) pid (some ⟨none, none, none, .awake, 0, 0, false⟩)
  fault := false

end World

/-! ## The system of one segment -/

/-- What the processes that have mapped the object `o` are to its segment. -/
def Proc.at (p : Proc) (o n : Nat) : Option (Fin n) × Option (Fin n) :=
  if p.gState = some o then (p.cached n, p.sleepsOn n) else (none, none)

/-- The segment with the processes that have mapped it. -/
def World.view (w : World) (o : Nat) (seg : Segment) :
    System seg.processCount.toNat seg.resourceCount.toNat where
  shared := seg.shared
  gLocalApid := fun pid => ((w.procs pid).map fun p => (p.at o seg.processCount.toNat).1).join
  asleep := fun pid => ((w.procs pid).map fun p => (p.at o seg.processCount.toNat).2).join

end OsProjects.Rsm
