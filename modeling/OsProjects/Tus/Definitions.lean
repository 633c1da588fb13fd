import OsProjects.Lib.RingBuffer

/-!
# Thread library — executable model

The library of `Project2/tus.c`: the thread table, the ready queue and the
calls. A `TCB *` is the index of its slot in `threads`; the one pointer that is
kept while other threads run, `caller` in `tus_yield`, carries the serial number
of the block as well, so that a slot that has been freed and reused since is not
mistaken for the old block.

A context is the place at which `setcontext` continues: the start of the
thread, or the code behind `getcontext` in one call of `tus_yield`. A switch
leaves the call that makes it (`Pc.resume`), and the next step goes on in the
context that was switched to. `tus_join` calls `tus_yield`, so its loop is a
program point of its own (`Pc.joinLoop`).

`malloc`, `getcontext` and `setcontext` are taken to succeed. `rand` is an input
of each step.
-/

namespace OsProjects.Tus

abbrev TUS_MAXTHREADS : Nat := 64

abbrev TUS_SUCCESS : Int := 0
abbrev TUS_ERROR : Int := -1
abbrev TUS_ANY : Int := 0

abbrev ALG_FCFS : Int := 1
abbrev ALG_RANDOM : Int := 2

/-! ## The ready queue -/

/-- `ready_q`, `rq_head`, `rq_tail` and `rq_size`. `refused` counts the calls of
`rq_push` and `rq_push_front` that found the queue full. -/
structure ReadyQ where
  ring : Ring Int TUS_MAXTHREADS
  refused : Nat

namespace ReadyQ

/-- The queued ids, front first. -/
def toList (q : ReadyQ) : List Int := q.ring.toList

/-- `rq_init`. -/
def rqInit (q : ReadyQ) : ReadyQ := { q with ring := q.ring.clear }

/-- `rq_empty`. -/
def rqEmpty (q : ReadyQ) : Bool := q.ring.size == 0

/-- `rq_push`. -/
def rqPush (q : ReadyQ) (tid : Int) : Int × ReadyQ :=
  match q.ring.push tid with
  | none => (TUS_ERROR, { q with refused := q.refused + 1 })
  | some ring => (TUS_SUCCESS, { q with ring := ring })

/-- `rq_pop`. -/
def rqPop (q : ReadyQ) : Int × ReadyQ :=
  match q.ring.pop with
  | none => (TUS_ERROR, q)
  | some (tid, ring) => (tid, { q with ring := ring })

/-- `rq_push_front`. -/
def rqPushFront (q : ReadyQ) (tid : Int) : Int × ReadyQ :=
  match q.ring.pushFront tid with
  | none => (TUS_ERROR, { q with refused := q.refused + 1 })
  | some ring => (TUS_SUCCESS, { q with ring := ring })

/-- `rq_push(temp[i])` for every `i`, the results not looked at. -/
def pushAll (q : ReadyQ) (temp : List Int) : ReadyQ :=
  temp.foldl (fun q x => (q.rqPush x).2) q

/-- The first loop of `rq_remove_tid`, `n` rounds of it. -/
def removeLoop (tid : Int) : Nat → ReadyQ → List Int → Bool → ReadyQ × List Int × Bool
  | 0, q, temp, found => (q, temp, found)
  | n + 1, q, temp, found =>
    let (x, q) := q.rqPop
    if x = tid ∧ found = false then removeLoop tid n q temp true
    else removeLoop tid n q (temp ++ [x]) found

/-- `rq_remove_tid`. -/
def rqRemoveTid (q : ReadyQ) (tid : Int) : Int × ReadyQ :=
  let (drained, temp, found) := removeLoop tid q.ring.size q [] false
  -- what was kept goes back in the order it came out
  (if found then TUS_SUCCESS else TUS_ERROR, drained.pushAll temp)

/-- `temp[i] = rq_pop()`, `n` times. -/
def drain : Nat → ReadyQ → List Int → ReadyQ × List Int
  | 0, q, temp => (q, temp)
  | n + 1, q, temp =>
    let (x, q) := q.rqPop
    drain n q (temp ++ [x])

/-- The second loop of `pick_next_tid_by_sched` from index `i` on: what is at
`idx` is picked, the rest goes back into the queue. -/
def refill (idx : Nat) : List Int → Nat → Int → ReadyQ → Int × ReadyQ
  | [], _, picked, q => (picked, q)
  | x :: temp, i, picked, q =>
    if i = idx then refill idx temp (i + 1) x q
    else refill idx temp (i + 1) picked (q.rqPush x).2

end ReadyQ

/-! ## Threads -/

/-- `thread_state_t`. -/
inductive ThreadState
  | ready
  | running
  | ended
  deriving DecidableEq, Repr

/-- An index of the table `threads`. -/
abbrev Slot := Fin TUS_MAXTHREADS

/-- Who called `tus_yield`: the program, or `tus_join`. `asked` is the serial
number of the block that had `tid` when `tus_join` was called. -/
inductive YieldCaller
  | user
  | join (tid : Int) (asked : Nat)
  deriving DecidableEq, Repr

/-- A saved `ucontext_t`. `inYield` is the code behind `getcontext` in
`tus_yield(tid)`, with its local variable `caller`; `call` numbers the calls of
`tus_yield`. -/
inductive Context
  | inInit
  | start (tsf targ : Nat)
  | inYield (caller : Slot) (serial : Nat) (tid : Int) (site : YieldCaller) (call : Nat)
  deriving DecidableEq, Repr

/-- `TCB`. The last three fields record the past of the thread: which block this
is, whether the thread has run, and its `tus_yield` that has not returned. -/
structure Tcb where
  tid : Int
  state : ThreadState
  context : Context
  resumeFlag : Bool
  yieldResult : Int
  serial : Nat
  ran : Bool
  unfinished : Option Nat
  deriving DecidableEq, Repr

/-- The branches that handle what should not happen: no block for the current thread,
none for the thread picked, no thread to pick, a ready thread that is not queued, no slot
or no id with fewer than 64 threads. -/
inductive Recovery
  | noCaller
  | noNext
  | noPick
  | notQueued
  | noSlot
  | noTid
  deriving DecidableEq, Repr

/-- The static variables, with the number of `tus_yield` calls and of blocks so
far, and the recovery branches that were taken. -/
structure TusState where
  threads : Slot → Option Tcb
  currentTid : Int
  initialized : Bool
  schedAlg : Int
  readyQ : ReadyQ
  calls : Nat
  serials : Nat
  recoveries : List Recovery

namespace TusState

/-- An assignment to a field of the block in a slot. -/
def modify (s : TusState) (i : Slot) (f : Tcb → Tcb) : TusState :=
  { s with threads := Function.update s.threads i ((s.threads i).map f) }

def setState (s : TusState) (i : Slot) (state : ThreadState) : TusState :=
  s.modify i fun t => { t with state := state }

def setResumeFlag (s : TusState) (i : Slot) (flag : Bool) : TusState :=
  s.modify i fun t => { t with resumeFlag := flag }

def setQueue (s : TusState) (q : ReadyQ) : TusState := { s with readyQ := q }

def recover (s : TusState) (r : Recovery) : TusState :=
  { s with recoveries := s.recoveries ++ [r] }

/-- `find_slot_by_tid`. -/
def findSlotByTid (s : TusState) (tid : Int) : Option Slot :=
  (List.finRange TUS_MAXTHREADS).find? fun i => (s.threads i).any fun t => t.tid == tid

/-- `get_tcb_by_tid`: the slot and what is in it. -/
def getTcbByTid (s : TusState) (tid : Int) : Option (Slot × Tcb) :=
  -- `current_tid` is -1 before `tus_init`
  if tid ≤ 0 then none
  else
    match s.findSlotByTid tid with
    | none => none
    | some slot => (s.threads slot).map fun t => (slot, t)

/-- `find_free_slot`. -/
def findFreeSlot (s : TusState) : Option Slot :=
  (List.finRange TUS_MAXTHREADS).find? fun i => (s.threads i).isNone

/-- `current_tcb`. -/
def currentTcb (s : TusState) : Option (Slot × Tcb) := s.getTcbByTid s.currentTid

/-- `count_existing_threads`. -/
def countExistingThreads (s : TusState) : Nat :=
  (List.finRange TUS_MAXTHREADS).countP fun i => (s.threads i).isSome

/-- `allocate_tid`. -/
def allocateTid (s : TusState) : Int :=
  let tids := (List.range TUS_MAXTHREADS).map fun (k : Nat) => (k : Int) + 1
  match tids.find? fun tid => (s.getTcbByTid tid).isNone with
  | some tid => tid
  | none => TUS_ERROR

/-- `destroy_thread`. -/
def destroyThread (s : TusState) (tid : Int) : TusState :=
  match s.findSlotByTid tid with
  | none => s
  | some slot => { s with threads := Function.update s.threads slot none }

/-- `pick_next_tid_by_sched`. -/
def pickNextTidBySched (s : TusState) (rand : Nat) : Int × TusState :=
  if s.readyQ.rqEmpty then (TUS_ERROR, s)
  else if s.schedAlg = ALG_FCFS then
    let (tid, q) := s.readyQ.rqPop
    (tid, s.setQueue q)
  else if s.schedAlg = ALG_RANDOM then
    -- the queue is drained and refilled without the one at `rand() % n`
    let n := s.readyQ.ring.size
    let (q, temp) := ReadyQ.drain n s.readyQ []
    let (picked, q) := ReadyQ.refill (rand % n) temp 0 TUS_ERROR q
    (picked, s.setQueue q)
  else (TUS_ERROR, s)

end TusState

/-! ## The calls -/

/-- Where the execution stands. `user rc` is the code of the current thread,
after a call that returned `rc`; `resume` is what `setcontext` has been called
on; `joinLoop` is the loop of `tus_join(tid)` after `tus_yield` returned `rc`.
`stray` is a context whose caller block is gone, or that of `tus_init`. -/
inductive Pc
  | user (rc : Option Int)
  | resume (ctx : Context)
  | joinLoop (tid : Int) (asked : Nat) (rc : Int)
  | exited
  | stray
  deriving DecidableEq, Repr

/-- The library and the place where the running thread is. -/
structure Machine where
  tus : TusState
  pc : Pc

namespace TusState

/-- Return to the program. -/
def ret (s : TusState) (rc : Int) : Machine := ⟨s, .user (some rc)⟩

/-- Return from `tus_yield` to whoever called it. -/
def yieldReturn (s : TusState) (site : YieldCaller) (rc : Int) : Machine :=
  match site with
  | .user => ⟨s, .user (some rc)⟩
  | .join tid asked => ⟨s, .joinLoop tid asked rc⟩

/-- A return of `tus_yield` behind `getcontext`: the call of the block in slot
`c` is finished. -/
def yieldDone (s : TusState) (c : Slot) (site : YieldCaller) (rc : Int) : Machine :=
  (s.modify c fun t => { t with unfinished := none }).yieldReturn site rc

/-- `next_tcb->state = T_RUNNING; current_tid = tid; setcontext(&next_tcb->context)`. -/
def dispatch (s : TusState) (next : Slot) (nextTcb : Tcb) (tid : Int) : Machine :=
  ⟨{ s.setState next .running with currentTid := tid }, .resume nextTcb.context⟩

/-- `tus_yield` from the choice of the next thread on. -/
def yieldSwitch (s : TusState) (c : Slot) (caller : Tcb) (tid : Int) (site : YieldCaller)
    (nextTidLocal : Int) : Machine :=
  match s.getTcbByTid nextTidLocal with
  | none =>
    let s := s.recover .noNext
    -- only `tus_yield(TUS_ANY)` takes the caller out of the queue again
    let s := if tid = TUS_ANY then s.setQueue (s.readyQ.rqRemoveTid caller.tid).2 else s
    ((s.setResumeFlag c false).setState c .running).yieldDone c site TUS_ERROR
  | some (next, nextTcb) =>
    -- what this call will return when the caller is resumed
    let s := s.modify c fun t => { t with yieldResult := nextTidLocal }
    (s.setState c .ready).dispatch next nextTcb nextTidLocal

/-- `tus_yield(TUS_ANY)` from the pick of the next thread on. -/
def yieldPick (s : TusState) (c : Slot) (caller : Tcb) (site : YieldCaller) (rand : Nat) :
    Machine :=
  let (nextTidLocal, s) := s.pickNextTidBySched rand
  if nextTidLocal = TUS_ERROR then
    let s := s.recover .noPick
    let s := s.setQueue (s.readyQ.rqRemoveTid caller.tid).2
    ((s.setResumeFlag c false).setState c .running).yieldDone c site TUS_ERROR
  else s.yieldSwitch c caller TUS_ANY site nextTidLocal

/-- `tus_yield(TUS_ANY)` behind the resume test. -/
def yieldAny (s : TusState) (c : Slot) (caller : Tcb) (site : YieldCaller) (rand : Nat) :
    Machine :=
  let s := s.setState c .ready
  let (rc, q) := s.readyQ.rqPush caller.tid
  let s := s.setQueue q
  if rc = TUS_ERROR then
    ((s.setResumeFlag c false).setState c .running).yieldDone c site TUS_ERROR
  else s.yieldPick c caller site rand

/-- `tus_yield(tid)` once `tid` is known to be another thread, and ready. -/
def yieldTake (s : TusState) (c : Slot) (caller : Tcb) (tid : Int) (site : YieldCaller) :
    Machine :=
  let (rc, q) := s.readyQ.rqRemoveTid tid
  let s := s.setQueue q
  if rc = TUS_ERROR then ((s.recover .notQueued).setResumeFlag c false).yieldDone c site TUS_ERROR
  else
    let s := s.setState c .ready
    let (rc, q) := s.readyQ.rqPush caller.tid
    let s := s.setQueue q
    if rc = TUS_ERROR then
      -- the thread taken out goes back to the front
      let s := s.setQueue (s.readyQ.rqPushFront tid).2
      ((s.setResumeFlag c false).setState c .running).yieldDone c site TUS_ERROR
    else s.yieldSwitch c caller tid site tid

/-- `tus_yield(tid)` behind the resume test, for a positive `tid`. -/
def yieldTo (s : TusState) (c : Slot) (caller : Tcb) (tid : Int) (site : YieldCaller) : Machine :=
  if tid = caller.tid then
    -- a yield to itself returns at once
    let s := s.modify c fun t => { t with yieldResult := caller.tid }
    ((s.setState c .running).setResumeFlag c false).yieldDone c site caller.tid
  else
    match s.getTcbByTid tid with
    | none => (s.setResumeFlag c false).yieldDone c site TUS_ERROR
    | some (_, nextTcb) =>
      if nextTcb.state ≠ .ready then (s.setResumeFlag c false).yieldDone c site TUS_ERROR
      else s.yieldTake c caller tid site

/-- `tus_yield` behind `getcontext`, with `caller` the block in slot `c`. This
is also what runs when `setcontext` continues the thread. -/
def yieldBody (s : TusState) (c : Slot) (caller : Tcb) (tid : Int) (site : YieldCaller)
    (rand : Nat) : Machine :=
  -- the second return of `getcontext`
  if caller.resumeFlag then
    let s := (s.setResumeFlag c false).setState c .running
    { s with currentTid := caller.tid }.yieldDone c site caller.yieldResult
  else
    let s := s.setResumeFlag c true
    if tid = TUS_ANY then s.yieldAny c caller site rand
    else if tid > 0 then s.yieldTo c caller tid site
    else (s.setResumeFlag c false).yieldDone c site TUS_ERROR

/-- `getcontext(&caller->context)` in the call of `tus_yield` that begins. -/
def saveContext (s : TusState) (c : Slot) (caller : Tcb) (tid : Int) (site : YieldCaller) :
    TusState :=
  { s.modify c fun t =>
      { t with context := .inYield c caller.serial tid site s.calls, unfinished := some s.calls }
    with calls := s.calls + 1 }

/-- `tus_yield`. -/
def tusYield (s : TusState) (tid : Int) (site : YieldCaller) (rand : Nat) : Machine :=
  if s.initialized = false then s.yieldReturn site TUS_ERROR
  else
    match s.currentTcb with
    | none => (s.recover .noCaller).yieldReturn site TUS_ERROR
    | some (c, caller) => (s.saveContext c caller tid site).yieldBody c caller tid site rand

/-- `tus_exit` from the pick of the next thread on. -/
def exitPick (s : TusState) (rand : Nat) : Machine :=
  let (nextTidLocal, s) := s.pickNextTidBySched rand
  -- `exit(0)`: nobody is left to run
  if nextTidLocal = TUS_ERROR then ⟨s, .exited⟩
  else
    match s.getTcbByTid nextTidLocal with
    | none => ⟨s.recover .noNext, .exited⟩
    | some (next, nextTcb) => s.dispatch next nextTcb nextTidLocal

/-- `tus_exit`. -/
def tusExit (s : TusState) (rand : Nat) : Machine :=
  if s.initialized = false then ⟨s, .exited⟩
  else
    match s.currentTcb with
    | none => ⟨s.recover .noCaller, .exited⟩
    | some (c, _) => ((s.setState c .ended).setResumeFlag c false).exitPick rand

/-- The loop test of `tus_join` with `target` resolved, and what follows it. -/
def joinTest (s : TusState) (tid : Int) (asked : Nat) (target : Tcb) (rand : Nat) : Machine :=
  if target.state ≠ .ended then s.tusYield TUS_ANY (.join tid asked) rand
  -- the ended thread is given back, by its id
  else (s.destroyThread tid).ret tid

/-- `tus_join`. -/
def tusJoin (s : TusState) (tid : Int) (rand : Nat) : Machine :=
  if s.initialized = false ∨ tid ≤ 0 then s.ret TUS_ERROR
  else
    match s.currentTcb with
    | none => (s.recover .noCaller).ret TUS_ERROR
    | some (_, caller) =>
      if tid = caller.tid then s.ret TUS_ERROR
      else
        match s.getTcbByTid tid with
        | none => s.ret TUS_ERROR
        | some (_, target) => s.joinTest tid target.serial target rand

/-- The loop of `tus_join` once `tus_yield` has returned `rc`. -/
def joinAgain (s : TusState) (tid : Int) (asked : Nat) (rc : Int) (rand : Nat) : Machine :=
  if rc = TUS_ERROR then s.ret TUS_ERROR
  else
    -- the block is looked up anew, so it may be another one by now
    match s.getTcbByTid tid with
    | none => s.ret TUS_ERROR
    | some (_, target) => s.joinTest tid asked target rand

/-- `tus_cancel`. -/
def tusCancel (s : TusState) (tid : Int) : Machine :=
  if s.initialized = false ∨ tid ≤ 0 ∨ tid = s.currentTid then s.ret TUS_ERROR
  else
    match s.getTcbByTid tid with
    | none => s.ret TUS_ERROR
    | some (i, target) =>
      if target.state = .ended then s.ret TUS_ERROR
      else
        -- only a ready thread is queued
        let (rc, q) :=
          if target.state = .ready then s.readyQ.rqRemoveTid tid else (TUS_SUCCESS, s.readyQ)
        let s := s.setQueue q
        if rc = TUS_ERROR then (s.recover .notQueued).ret TUS_ERROR
        else ((s.setState i .ended).setResumeFlag i false).ret TUS_SUCCESS

/-- The block of a new thread. -/
def newTcb (s : TusState) (tid : Int) (tsf targ : Nat) : Tcb where
  tid := tid
  state := .ready
  context := .start tsf targ
  resumeFlag := false
  yieldResult := TUS_ERROR
  serial := s.serials
  ran := false
  unfinished := none

/-- `tus_create_thread(tsf, targ)`; a `tsf` of 0 is `NULL`. -/
def tusCreateThread (s : TusState) (tsf targ : Nat) : Machine :=
  if s.initialized = false ∨ tsf = 0 then s.ret TUS_ERROR
  else if s.countExistingThreads ≥ TUS_MAXTHREADS then s.ret TUS_ERROR
  else
    match s.findFreeSlot with
    | none => (s.recover .noSlot).ret TUS_ERROR
    | some slot =>
      let tid := s.allocateTid
      if tid = TUS_ERROR then (s.recover .noTid).ret TUS_ERROR
      else
        let threads := Function.update s.threads slot (some (s.newTcb tid tsf targ))
        -- the block is in the table before it is queued, and leaves it if that fails
        let (rc, q) := s.readyQ.rqPush tid
        let s := { s with readyQ := q, serials := s.serials + 1 }
        if rc = TUS_ERROR then { s with threads := Function.update threads slot none }.ret TUS_ERROR
        else { s with threads := threads }.ret tid

/-! ## Runs -/

/-- The static variables before `tus_init`. -/
def static : TusState where
  threads := fun _ => none
  currentTid := -1
  initialized := false
  schedAlg := 0
  readyQ := ⟨⟨fun _ => 0, 0, 0, 0, by decide, by decide, by decide⟩, 0⟩
  calls := 0
  serials := 0
  recoveries := []

/-- `valid_sched_alg`. -/
def validSchedAlg (salg : Int) : Bool := salg = ALG_FCFS ∨ salg = ALG_RANDOM

/-- The block of the main thread. -/
def mainTcb (s : TusState) : Tcb where
  tid := 1
  state := .running
  context := .inInit
  resumeFlag := false
  yieldResult := TUS_ERROR
  serial := s.serials
  ran := true
  unfinished := none

/-- `tus_init`. -/
def tusInit (s : TusState) (salg : Int) : Machine :=
  if s.initialized ∨ validSchedAlg salg = false then s.ret TUS_ERROR
  else
    let s := { s with threads := fun _ => none, readyQ := s.readyQ.rqInit, schedAlg := salg }
    match s.findFreeSlot with
    | none => (s.recover .noSlot).ret TUS_ERROR
    | some slot =>
      { s with
        threads := Function.update s.threads slot (some s.mainTcb)
        currentTid := 1
        initialized := true
        serials := s.serials + 1 }.ret 1

/-- `setcontext(ctx)`: `stub` begins, or `tus_yield` goes on behind `getcontext`. -/
def resume (s : TusState) (ctx : Context) (rand : Nat) : Machine :=
  match ctx with
  | .inInit => ⟨s, .stray⟩
  | .start _ _ =>
    match s.currentTcb with
    | none => ⟨s, .stray⟩
    | some (c, _) => ⟨s.modify c fun t => { t with ran := true }, .user none⟩
  | .inYield c serial tid site _ =>
    match s.threads c with
    | none => ⟨s, .stray⟩
    | some caller =>
      if caller.serial = serial then s.yieldBody c caller tid site rand else ⟨s, .stray⟩

end TusState

/-- A call of the program. A thread function that returns calls `tus_exit`. -/
inductive Call
  | init (salg : Int)
  | createThread (tsf targ : Nat)
  | yield (tid : Int)
  | join (tid : Int)
  | cancel (tid : Int)
  | exit
  deriving DecidableEq, Repr

/-- What the library leaves open: the next call of the program, and what `rand`
returns if this step asks for it. -/
structure Event where
  call : Call
  rand : Nat
  deriving DecidableEq, Repr

/-- A call of the library by the running thread. -/
def TusState.call (s : TusState) : Call → Nat → Machine
  | .init salg, _ => s.tusInit salg
  | .createThread tsf targ, _ => s.tusCreateThread tsf targ
  | .yield tid, rand => s.tusYield tid .user rand
  | .join tid, rand => s.tusJoin tid rand
  | .cancel tid, _ => s.tusCancel tid
  | .exit, rand => s.tusExit rand

namespace Machine

/-- One step. The call of the event is made if the program is to act. -/
def step (m : Machine) (e : Event) : Machine :=
  match m.pc with
  | .user _ => m.tus.call e.call e.rand
  | .resume ctx => m.tus.resume ctx e.rand
  | .joinLoop tid asked rc => m.tus.joinAgain tid asked rc e.rand
  | .exited => m
  | .stray => m

def run (m : Machine) (es : List Event) : Machine := es.foldl step m

/-- After `tus_init(salg)`. -/
def boot (salg : Int) : Machine := TusState.static.tusInit salg

end Machine

end OsProjects.Tus
