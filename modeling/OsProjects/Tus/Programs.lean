import OsProjects.Tus.Joins

/-!
# Thread library — the programs on top of it

What a thread does is a `Code`: its calls of the library, and how it goes on with the value
each returns. A `Process` is the library together with the code every thread has in front
of it, by the serial number of its block; `rand` stays open. `testBasic` and `testPerf` are
the thread functions and the `main` of `test_basic.c` and `test_perf.c` behind their
`tus_init`.

Both create threads that do nothing but `tus_yield(TUS_ANY)` for a number of rounds and
join them in order (`ForkJoin`). The second half says exactly what the calls of such a
program do to the blocks: `tusYield_any`, `tusExit_dispatched`, `resume_inYield`,
`tusCreateThread_room`.
-/

namespace OsProjects.Tus

/-! ## Programs -/

/-- The code of a thread function, or the rest of it; `status` is what `main` returns. -/
inductive Code
  | done (status : Nat)
  | call (c : Call) (next : Int → Code)

structure Process where
  machine : Machine
  /-- What a thread does next, with the value its call returns. -/
  next : Nat → Int → Code
  /-- What `main` has returned. -/
  status : Option Nat
  /-- How often a thread has called `tus_yield`. -/
  yields : Nat

namespace Process

/-- A call of the current thread, whose block has the number `serial`. A new thread begins
with its function (`fn`). -/
def issue (fn : Nat → Nat → Code) (p : Process) (serial : Nat) (c : Call) (next : Int → Code)
    (rand : Nat) : Process :=
  { p with
    machine := p.machine.step ⟨c, rand⟩
    next :=
      match c with
      | .createThread tsf targ =>
        Function.update (Function.update p.next serial next) p.machine.tus.serials
          fun _ => fn tsf targ
      | _ => Function.update p.next serial next
    yields :=
      match c with
      | .yield _ => p.yields + 1
      | _ => p.yields }

/-- The current thread goes on with the value `rc`; `stub` calls `tus_exit` when its
function returns, and when `main` returns the process ends. -/
def act (fn : Nat → Nat → Code) (p : Process) (t : Tcb) (rc : Int) (rand : Nat) : Process :=
  match p.next t.serial rc with
  | .done status =>
    if t.serial = 0 then { p with status := some status }
    else { p with machine := p.machine.step ⟨.exit, rand⟩ }
  | .call c next => p.issue fn t.serial c next rand

/-- One step; the call of the event is not looked at outside the program. -/
def step (fn : Nat → Nat → Code) (p : Process) (rand : Nat) : Process :=
  if p.status.isSome then p
  else
    match p.machine.pc, p.machine.tus.currentTcb with
    | .user rc, some (_, t) => p.act fn t (rc.getD 0) rand
    | _, _ => { p with machine := p.machine.step ⟨.exit, rand⟩ }

/-- The first `n` steps, with what `rand` returns in each. -/
def run (fn : Nat → Nat → Code) (rands : Nat → Nat) (p : Process) : Nat → Process
  | 0 => p
  | n + 1 => (p.run fn rands n).step fn (rands n)

/-- Behind `tus_init(salg)`, with the rest of `main`. -/
def start (salg : Int) (main : Int → Code) : Process :=
  ⟨Machine.boot salg, fun _ => main, none, 0⟩

end Process

/-! ## The test programs -/

/-- `for (int i = 0; i < loops; i++) tus_yield(TUS_ANY);` -/
def yieldLoop : Nat → Code → Code
  | 0, rest => rest
  | loops + 1, rest => .call (.yield TUS_ANY) fun _ => yieldLoop loops rest

/-- `worker_a`, `worker_b` and `perf_worker`; the output of the first two is left out. -/
def worker (loops : Nat) : Code := yieldLoop loops (.done 0)

/-- The functions of the test programs, numbered from 1; each takes its number of rounds. -/
def workers : Nat → Nat → Code := fun _ loops => worker loops

/-- The two threads of `test_basic.c` are created before either is looked at. -/
def testBasic (loopsA loopsB : Nat) : Int → Code := fun mainTid =>
  if mainTid = TUS_ERROR then .done 1
  else
    .call (.createThread 1 loopsA) fun tidA =>
      .call (.createThread 2 loopsB) fun tidB =>
        if tidA = TUS_ERROR ∨ tidB = TUS_ERROR then .done 1
        else
          .call (.join tidA) fun rc =>
            if rc ≠ tidA then .done 1
            else .call (.join tidB) fun rc => if rc ≠ tidB then .done 1 else .done 0

/-- The second loop of `test_perf.c`. -/
def joinAll : List Int → Code
  | [] => .done 0
  | tid :: tids =>
    .call (.join tid) fun rc => if rc = TUS_ERROR then .done 1 else joinAll tids

/-- The first loop, with `nthreads` rounds to go. -/
def createAll (iterations : Nat) : Nat → List Int → Code
  | 0, tids => joinAll tids
  | nthreads + 1, tids =>
    .call (.createThread 1 iterations) fun tid =>
      if tid = TUS_ERROR then .done 1 else createAll iterations nthreads (tids ++ [tid])

def testPerf (nthreads iterations : Nat) : Int → Code := fun mainTid =>
  if mainTid = TUS_ERROR then .done 1 else createAll iterations nthreads []

/-! ## Programs that fork and join -/

/-- `tus_yield(TUS_ANY)` a number of times, whatever it returns, and the end. -/
inductive Rounds : Nat → Code → Prop
  | done (status : Nat) : Rounds 0 (.done status)
  | yield {r : Nat} {next : Int → Code} (h : ∀ rc, Rounds r (next rc)) :
      Rounds (r + 1) (.call (.yield TUS_ANY) next)

/-- Joins of these threads, in order, for a `main` that returns 0 if each returns the id. -/
inductive Joins : List Int → Code → Prop
  | done : Joins [] (.done 0)
  | join {tid : Int} {tids : List Int} {next : Int → Code} (h : Joins tids (next tid)) :
      Joins (tid :: tids) (.call (.join tid) next)

/-- The creation of threads with the functions and arguments `fs`, behind those with the ids
`made`, and then the joins. -/
inductive ForkJoin : List (Nat × Nat) → List Int → Code → Prop
  | joins {made : List Int} {code : Code} (h : Joins made code) : ForkJoin [] made code
  | create {tsf targ : Nat} {fs : List (Nat × Nat)} {made : List Int} {next : Int → Code}
      (htsf : tsf ≠ 0) (h : ∀ tid, tid ≠ TUS_ERROR → ForkJoin fs (made ++ [tid]) (next tid)) :
      ForkJoin ((tsf, targ) :: fs) made (.call (.createThread tsf targ) next)

theorem rounds_worker (loops : Nat) : Rounds loops (worker loops) := by
  induction loops with
  | zero => exact .done 0
  | succ loops ih => exact .yield fun _ => ih

theorem joins_joinAll (tids : List Int) (h : ∀ tid ∈ tids, tid ≠ TUS_ERROR) :
    Joins tids (joinAll tids) := by
  induction tids with
  | nil => exact .done
  | cons tid tids ih =>
    refine .join ?_
    rw [if_neg (h tid List.mem_cons_self)]
    exact ih fun x hx => h x (List.mem_cons_of_mem _ hx)

theorem forkJoin_createAll (iterations nthreads : Nat) (tids : List Int)
    (h : ∀ tid ∈ tids, tid ≠ TUS_ERROR) :
    ForkJoin (List.replicate nthreads (1, iterations)) tids
      (createAll iterations nthreads tids) := by
  -- on the threads still to be created
  induction nthreads generalizing tids with
  | zero => exact .joins (joins_joinAll tids h)
  | succ nthreads ih =>
    refine .create (by decide) fun tid htid => ?_
    rw [if_neg htid]
    refine ih (tids ++ [tid]) fun x hx => ?_
    -- the ids of before, and the new one
    rcases List.mem_append.mp hx with hold | hnew
    · exact h x hold
    · rw [List.mem_singleton.mp hnew]
      exact htid

theorem forkJoin_testPerf (nthreads iterations : Nat) :
    ForkJoin (List.replicate nthreads (1, iterations)) [] (testPerf nthreads iterations 1) :=
  forkJoin_createAll iterations nthreads [] fun _ hx => absurd hx List.not_mem_nil

theorem forkJoin_testBasic (loopsA loopsB : Nat) :
    ForkJoin [(1, loopsA), (2, loopsB)] [] (testBasic loopsA loopsB 1) := by
  refine .create (by decide) fun tidA hA => .create (by decide) fun tidB hB => .joins ?_
  rw [if_neg (not_or.mpr ⟨hA, hB⟩)]
  refine .join ?_
  rw [if_neg (not_not.mpr rfl)]
  refine .join ?_
  rw [if_neg (not_not.mpr rfl)]
  exact .done

/-! ## What the calls do to the blocks -/

/-- A call has left the blocks `threads` and the queue `q`, and has switched to the queued
thread `u`. -/
structure Dispatched (s : TusState) (threads : Slot → Option Tcb) (q : List Int) (n : Slot)
    (u : Tcb) (m : Machine) : Prop where
  slot : threads n = some u
  ready : u.state = .ready
  queued : u.tid ∈ q
  threads : m.tus.threads = Function.update threads n (some { u with state := .running })
  pc : m.pc = .resume u.context
  currentTid : m.tus.currentTid = u.tid
  queue : m.tus.readyQ.toList = q.erase u.tid
  serials : m.tus.serials = s.serials
  alg : m.tus.schedAlg = s.schedAlg

/-- The choice falls on the front of the queue. -/
def PicksFront (s : TusState) (rand : Nat) : Prop := s.schedAlg = ALG_FCFS ∨ rand = 0

variable {s : TusState} {c : Slot} {t : Tcb}

/-- The pick takes a queued thread, and with a `rand` of 0 the front. -/
theorem pick_spec (hs : Sound s) (hnodup : s.readyQ.toList.Nodup) (hne : s.readyQ.toList ≠ [])
    (rand : Nat) : ∃ x ∈ s.readyQ.toList, ∃ q, s.pickNextTidBySched rand = (x, s.setQueue q) ∧
      ReadyQ.Becomes s.readyQ q (s.readyQ.toList.erase x) ∧
      (PicksFront s rand → s.readyQ.toList.head? = some x) := by
  -- the element at place 0 is the front
  have hfront (k : Nat) (hk : k < s.readyQ.toList.length) (hzero : k = 0) :
      s.readyQ.toList.head? = some s.readyQ.toList[k] := by
    subst hzero
    rw [List.head?_eq_getElem?, List.getElem?_eq_getElem hk]
  -- `ALG_FCFS` takes the front
  rcases hs.alg with hfcfs | hrandom
  · obtain ⟨k, hk, q, hpick, hq, hzero⟩ := TusState.pickNextTidBySched_spec hs.alg rand hne
    refine ⟨_, List.getElem_mem hk, q, hpick, ?_, fun _ => hfront k hk (hzero hfcfs)⟩
    rw [hnodup.erase_getElem k hk]
    exact hq
  · -- `ALG_RANDOM` takes the one at `rand` modulo the length
    obtain ⟨hk, q, hpick, hq⟩ := TusState.pickNextTidBySched_random rand hne hrandom
    refine ⟨_, List.getElem_mem hk, q, hpick, ?_, fun hpicks => hfront _ hk ?_⟩
    · rw [hnodup.erase_getElem _ hk]
      exact hq
    · have hrand : rand = 0 := hpicks.resolve_left (by rw [hrandom]; decide)
      rw [hrand, Nat.zero_mod]

/-- Only the algorithm and the serial numbers of the state before are looked at. -/
theorem Dispatched.of_eq {s' : TusState} {threads : Slot → Option Tcb} {q : List Int} {n : Slot}
    {u : Tcb} {m : Machine} (h : Dispatched s threads q n u m) (hserials : s.serials = s'.serials)
    (halg : s.schedAlg = s'.schedAlg) : Dispatched s' threads q n u m :=
  { h with serials := h.serials.trans hserials, alg := h.alg.trans halg }

/-- `next_tcb->state = T_RUNNING` and the switch. -/
theorem dispatch_dispatched {q : List Int} {n : Slot} {u nextTcb : Tcb} (hn : s.threads n = some u)
    (hready : u.state = .ready) (hqueued : u.tid ∈ q) (hq : s.readyQ.toList = q.erase u.tid)
    (hctx : nextTcb.context = u.context) :
    Dispatched s s.threads q n u (s.dispatch n nextTcb u.tid) := by
  rw [TusState.dispatch, TusState.setState_eq hn]
  exact ⟨hn, hready, hqueued, rfl, congrArg Pc.resume hctx, rfl, hq, rfl, rfl⟩

/-- The switch of `tus_yield(TUS_ANY)` to the thread `x`, which has left the queue. -/
theorem yieldSwitch_dispatched {q : List Int} {x : Int} (h : Schedule s.threads q none)
    (hx : x ∈ q) (hq : s.readyQ.toList = q.erase x) (hc : s.threads c = some t) (caller : Tcb)
    (site : YieldCaller) :
    ∃ n u, Dispatched s
      (Function.update s.threads c (some { t with yieldResult := u.tid, state := .ready })) q n u
      (s.yieldSwitch c caller TUS_ANY site x) ∧ u.tid = x := by
  obtain ⟨n, u, hn, hu, rfl⟩ := (h.mem_iff x).mp hx
  simp only [TusState.yieldSwitch, TusState.getTcbByTid_eq h hn, TusState.modify_eq hc,
    TusState.setState_put]
  by_cases hnc : n = c
  · -- the caller itself
    subst hnc
    obtain rfl := Option.some.inj (hc.symm.trans hn)
    have hself : (s.put n { t with yieldResult := t.tid, state := .ready }).threads n =
        some { t with yieldResult := t.tid, state := .ready } := TusState.put_self ..
    exact ⟨n, { t with yieldResult := t.tid, state := .ready },
      Dispatched.of_eq (dispatch_dispatched hself rfl hx hq rfl) rfl rfl, rfl⟩
  · -- another thread
    have hn' : (s.put c { t with yieldResult := u.tid, state := .ready }).threads n = some u :=
      (Function.update_of_ne hnc ..).trans hn
    exact ⟨n, u, Dispatched.of_eq (dispatch_dispatched hn' hu hx hq rfl) rfl rfl, rfl⟩

/-- `tus_yield(TUS_ANY)` behind the resume test. -/
theorem yieldAny_dispatched (hs : Sound s) (h : Current s c t) (hflag : t.resumeFlag = true)
    (hinside : InsideYield c t) (caller : Tcb) (hcaller : caller.tid = t.tid)
    (site : YieldCaller) (rand : Nat) : ∃ n u, Dispatched s
      (Function.update s.threads c (some { t with yieldResult := u.tid, state := .ready }))
      (s.readyQ.toList ++ [t.tid]) n u (s.yieldAny c caller site rand) ∧
      (PicksFront s rand → (s.readyQ.toList ++ [t.tid]).head? = some u.tid) := by
  obtain ⟨q, hany, hq⟩ := yieldAny_eq h hcaller site rand
  -- the caller is ready and at the end of the queue
  have hpark := h.schedule.park h.slot { t with state := .ready } rfl rfl (.inYield hflag hinside)
  rw [← hq.toList] at hpark
  set parked := (s.put c { t with state := .ready }).setQueue q with hparked
  have hsound : Sound parked := hs.put.queue hq
  -- so there is somebody to run
  have hne : parked.readyQ.toList ≠ [] :=
    List.ne_nil_of_mem (hpark.queued (TusState.put_self ..) rfl)
  obtain ⟨x, hx, q', hpick, hq', hfront⟩ := pick_spec hsound hpark.nodup hne rand
  have hswitch := yieldSwitch_dispatched (s := parked.setQueue q') (c := c) hpark hx hq'.toList
    (TusState.put_self ..) caller site
  obtain ⟨n, u, hdispatched, rfl⟩ := hswitch
  -- the block of the caller is written twice
  have hthreads : Function.update (parked.setQueue q').threads c
      (some { { t with state := .ready } with yieldResult := u.tid, state := .ready }) =
      Function.update s.threads c (some { t with yieldResult := u.tid, state := .ready }) :=
    Function.update_idem ..
  have hqueue : parked.readyQ.toList = s.readyQ.toList ++ [t.tid] := hq.toList
  have hpushed : q.toList = s.readyQ.toList ++ [t.tid] := hq.toList
  rw [hthreads, hpushed] at hdispatched
  rw [hqueue] at hfront
  refine ⟨n, u, ?_, hfront⟩
  rw [hany]
  simp only [TusState.yieldPick, hpick, if_neg (hpark.queued_ne_error hx)]
  exact hdispatched.of_eq rfl rfl

/-- The block of a thread that has given up the processor in `tus_yield(TUS_ANY)`. -/
def Tcb.parked (t : Tcb) (c : Slot) (site : YieldCaller) (call : Nat) (result : Int) : Tcb :=
  { t with
    context := .inYield c t.serial TUS_ANY site call
    unfinished := some call
    resumeFlag := true
    yieldResult := result
    state := .ready }

/-- `tus_yield(TUS_ANY)`: the caller is parked, and a thread of the queue with it runs. -/
theorem tusYield_any (hs : Sound s) (h : Current s c t) (hawake : Awake t) (site : YieldCaller)
    (rand : Nat) : ∃ n u, Dispatched s
      (Function.update s.threads c (some (t.parked c site s.calls u.tid)))
      (s.readyQ.toList ++ [t.tid]) n u (s.tusYield TUS_ANY site rand) ∧
      (PicksFront s rand → (s.readyQ.toList ++ [t.tid]).head? = some u.tid) := by
  set t' : Tcb := { t with
    context := .inYield c t.serial TUS_ANY site s.calls, unfinished := some s.calls } with ht'
  have hput := h.put t' rfl h.state
  have hsaved : Current { s.put c t' with calls := s.calls + 1 } c t' :=
    ⟨hput.schedule, hput.slot, hput.tid⟩
  have hup := hsaved.put { t' with resumeFlag := true } rfl h.state
  have hsound : Sound (({ s.put c t' with calls := s.calls + 1 } : TusState).put c
      { t' with resumeFlag := true }) :=
    ⟨hs.initialized, hs.alg, hs.refused, hs.recoveries⟩
  obtain ⟨n, u, hdispatched, hfront⟩ := yieldAny_dispatched hsound hup rfl
    ⟨TUS_ANY, site, s.calls, rfl, rfl⟩ t rfl site rand
  refine ⟨n, u, ?_, hfront⟩
  have hthreads (v : Option Tcb) : Function.update (({ s.put c t' with calls := s.calls + 1 } :
      TusState).put c { t' with resumeFlag := true }).threads c v =
      Function.update s.threads c v := by
    simp only [TusState.put, Function.update_idem]
  rw [hthreads] at hdispatched
  rw [TusState.tusYield, if_neg (by rw [hs.initialized]; exact Bool.noConfusion), h.currentTcb]
  simp only [TusState.saveContext, TusState.modify_eq h.slot, ← ht']
  -- behind `getcontext` for the first time
  rw [TusState.yieldBody, if_neg (by rw [hawake.flag]; exact Bool.false_ne_true),
    TusState.setResumeFlag_eq hsaved.slot]
  simp only [if_true]
  exact hdispatched.of_eq rfl rfl

/-- `tus_exit` while somebody is ready: the caller ends, and a queued thread runs. -/
theorem tusExit_dispatched (hs : Sound s) (h : Current s c t) (hne : s.readyQ.toList ≠ [])
    (rand : Nat) : ∃ n u, Dispatched s
      (Function.update s.threads c (some { t with state := .ended, resumeFlag := false }))
      s.readyQ.toList n u (s.tusExit rand) ∧
      (PicksFront s rand → s.readyQ.toList.head? = some u.tid) := by
  -- the caller has ended
  have hretire := h.schedule.retire h.slot { t with state := .ended, resumeFlag := false } rfl rfl
    rfl
  set retired := s.put c { t with state := .ended, resumeFlag := false } with hretired
  have hsound : Sound retired := hs.put
  obtain ⟨x, hx, q, hpick, hq, hfront⟩ := pick_spec hsound hretire.nodup hne rand
  obtain ⟨n, u, hn, hready, rfl⟩ := (hretire.mem_iff x).mp hx
  have hget : (retired.setQueue q).getTcbByTid u.tid = some (n, u) :=
    TusState.getTcbByTid_eq (s := retired.setQueue q) hretire hn
  refine ⟨n, u, ?_, hfront⟩
  rw [TusState.tusExit, if_neg (by rw [hs.initialized]; exact Bool.noConfusion), h.currentTcb]
  simp only [TusState.setState_eq h.slot, TusState.setResumeFlag_put, ← hretired,
    TusState.exitPick, hpick, if_neg (hretire.queued_ne_error hx), hget]
  exact Dispatched.of_eq (s := retired.setQueue q) (dispatch_dispatched hn hready hx hq.toList rfl)
    rfl rfl

/-- `setcontext` to a thread inside `tus_yield`, which returns there. -/
theorem resume_inYield (h : Current s c t) (hflag : t.resumeFlag = true) {tid : Int}
    {site : YieldCaller} {call : Nat}
    (hctx : t.context = .inYield c t.serial tid site call) (rand : Nat) :
    s.resume t.context rand = (s.put c { t with
      resumeFlag := false, state := .running, unfinished := none }).yieldReturn site
        t.yieldResult := by
  conv_lhs => rw [hctx]
  simp only [TusState.resume, h.slot, if_true]
  rw [yieldBody_resumed h hflag, TusState.yieldDone, TusState.modify_put]

/-- `tus_create_thread` with room in the table: a new block in a free slot, under a free id, at
the back of the queue. -/
theorem tusCreateThread_room (hs : Sound s) (h : Current s c t)
    (hroom : s.countExistingThreads < TUS_MAXTHREADS) {tsf : Nat} (htsf : tsf ≠ 0) (targ : Nat) :
    ∃ i tid q, s.threads i = none ∧ tid ≠ TUS_ERROR ∧
      (∀ j u, s.threads j = some u → u.tid ≠ tid) ∧ s.tusCreateThread tsf targ =
        ({ s with
          threads := Function.update s.threads i (some (s.newTcb tid tsf targ))
          readyQ := q
          serials := s.serials + 1 } : TusState).ret tid := by
  -- a free slot, a free id and room in the queue
  obtain ⟨i, hslot⟩ := TusState.findFreeSlot_isSome hroom
  have hfree := TusState.findFreeSlot_some hslot
  obtain ⟨hrange, hfresh⟩ := TusState.allocateTid_spec hfree
  obtain ⟨hcode, -⟩ := ReadyQ.rqPush_spec s.allocateTid h.room
  have hne : s.allocateTid ≠ TUS_ERROR := by
    show s.allocateTid ≠ -1
    omega
  refine ⟨i, s.allocateTid, (s.readyQ.rqPush s.allocateTid).2, hfree, hne, hfresh, ?_⟩
  rw [TusState.tusCreateThread, if_neg (by rw [hs.initialized]; simp [htsf]),
    if_neg (Nat.not_le_of_lt hroom)]
  simp only [hslot, if_neg hne, hcode]
  exact if_neg (by decide)

end OsProjects.Tus
