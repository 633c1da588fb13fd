import OsProjects.Lib.Fifo
import OsProjects.Tus.Scheduler

/-!
# Thread library — first come, first served

Under `ALG_FCFS` every step changes the ready queue by the moves of a fair
queue (`Inv.queueStep`): newcomers and yielding threads join at the back, the
pick serves the front, and a directed yield or a cancel takes one thread out
of turn. The ring may wrap around, and directed yields and cancels drain and
refill it, but none of that shows in the order.

**Main result** (`run_fcfs`): nobody overtakes a ready thread except by being
named in a `tus_yield`, no step moves a ready thread back or swaps two, and a
thread with `p` others in front of it runs within `p + 1` undirected switches.
-/

namespace OsProjects.Tus

open Fifo

variable {s : TusState} {c i : Slot} {t : Tcb} {q rest : List Int} {x : Int}

/-! ## What a step switches to -/

/-- The thread that `setcontext` has just been called on. -/
def Machine.switched (m : Machine) : Option Int :=
  match m.pc with
  | .resume _ => some m.tus.currentTid
  | _ => none

/-- The thread that this step dispatches. -/
def Machine.dispatched (m : Machine) (e : Event) : Option Int := (m.step e).switched

/-- The thread named in a `tus_yield` of this step. -/
def Machine.directed (m : Machine) (e : Event) : Option Int :=
  match m.pc, e.call with
  | .user _, .yield tid => if 0 < tid then some tid else none
  | _, _ => none

/-- The thread named in a `tus_cancel` of this step. -/
def Machine.cancelled (m : Machine) (e : Event) : Option Int :=
  match m.pc, e.call with
  | .user _, .cancel tid => some tid
  | _, _ => none

/-- A dispatch by `tus_yield(TUS_ANY)`, also inside `tus_join`, or by `tus_exit`. -/
def Machine.servesNext (m : Machine) (e : Event) : Bool :=
  (m.dispatched e).isSome && (m.directed e).isNone

/-! ## Moves of the queue -/

/-- `m` has the queue `q`, still with `ALG_FCFS`, and is about to switch to `d`. -/
structure Moved (m : Machine) (q : List Int) (d : Option Int) : Prop where
  queue : m.tus.readyQ.toList = q
  alg : m.tus.schedAlg = ALG_FCFS
  switched : m.switched = d

/-- What one step can do to the queue `q`, with the moves it consists of. -/
inductive QueueStep (q : List Int) (cancelled directed : Option Int) (m : Machine) :
    List (Move Int) → Prop
  | stay (h : Moved m q none) : QueueStep q cancelled directed m []
  | create (x : Int) (hx : x ∉ q) (h : Moved m (q ++ [x]) none) :
      QueueStep q cancelled directed m [.push x]
  | cancel (y : Int) (hy : cancelled = some y) (h : Moved m (q.erase y) none) :
      QueueStep q cancelled directed m [.take y]
  | next (c x : Int) (rest : List Int) (hc : c ∉ q) (hq : q ++ [c] = x :: rest)
      (h : Moved m rest (some x)) : QueueStep q cancelled directed m [.push c, .pop x]
  | exit (x : Int) (rest : List Int) (hq : q = x :: rest) (h : Moved m rest (some x)) :
      QueueStep q cancelled directed m [.pop x]
  | direct (c y : Int) (hy : directed = some y) (hmem : y ∈ q) (hc : c ∉ q)
      (h : Moved m (q.erase y ++ [c]) (some y)) :
      QueueStep q cancelled directed m [.take y, .push c]

section Returns

variable (hfcfs : s.schedAlg = ALG_FCFS)

include hfcfs

/-- A return leaves the queue alone. -/
theorem moved_ret (rc : Int) : Moved (s.ret rc) s.readyQ.toList none := ⟨rfl, hfcfs, rfl⟩

theorem moved_yieldDone (c : Slot) (site : YieldCaller) (rc : Int)
    (hq : s.readyQ.toList = q) : Moved (s.yieldDone c site rc) q none := by
  cases site <;> exact ⟨hq, hfcfs, rfl⟩

/-! ## `tus_yield` -/

/-- A switch takes the next thread out of the queue. -/
theorem moved_yieldSwitch (h : Schedule s.threads q none) (hx : x ∈ q) (caller : Tcb) (tid : Int)
    (site : YieldCaller) :
    Moved (s.yieldSwitch c caller tid site x) s.readyQ.toList (some x) := by
  obtain ⟨n, u, hn, -, rfl⟩ := (h.mem_iff x).mp hx
  simp only [TusState.yieldSwitch, TusState.getTcbByTid_eq h hn]
  -- the assignments to the caller's block leave the queue alone
  exact ⟨rfl, hfcfs, rfl⟩

/-- The pick takes the front. -/
theorem moved_yieldPick (h : Schedule s.threads s.readyQ.toList none)
    (hq : s.readyQ.toList = x :: rest) (caller : Tcb) (site : YieldCaller) (rand : Nat) :
    Moved (s.yieldPick c caller site rand) rest (some x) := by
  -- `ALG_FCFS` picks the front
  obtain ⟨k, hk, q, hpick, hbecomes, hfront⟩ :=
    TusState.pickNextTidBySched_spec (Or.inl hfcfs) rand (by rw [hq]; exact List.cons_ne_nil _ _)
  obtain rfl := hfront hfcfs
  have hx : s.readyQ.toList[0] = x := by simp only [hq, List.getElem_cons_zero]
  have hmem : x ∈ s.readyQ.toList := by
    rw [hq]
    exact List.mem_cons_self
  simp only [TusState.yieldPick, hpick, hx, if_neg (h.queued_ne_error hmem)]
  have hswitch := moved_yieldSwitch (s := s.setQueue q) (c := c) hfcfs h hmem caller TUS_ANY site
  -- behind it the queue is the rest
  have hrest : (s.setQueue q).readyQ.toList = rest := by
    rw [TusState.setQueue, hbecomes.toList, hq]
    rfl
  rwa [hrest] at hswitch

end Returns

/-- `tus_yield(TUS_ANY)`: the caller goes to the back, and the front runs. -/
theorem yieldAny_queueStep {caller : Tcb} (hfcfs : s.schedAlg = ALG_FCFS) (h : Current s c t)
    (hflag : t.resumeFlag = true) (hinside : InsideYield c t) (hcaller : caller.tid = t.tid)
    (site : YieldCaller) (rand : Nat) (cancelled directed : Option Int) :
    ∃ ms, QueueStep s.readyQ.toList cancelled directed (s.yieldAny c caller site rand) ms := by
  obtain ⟨q, heq, hbecomes⟩ := yieldAny_eq h hcaller site rand
  have hpark := h.schedule.park h.slot { t with state := .ready } rfl rfl
    (.inYield hflag hinside)
  -- with the caller in it the queue is not empty
  obtain ⟨x, rest, hq⟩ := List.exists_cons_of_ne_nil
    (List.append_ne_nil_of_right_ne_nil s.readyQ.toList (List.cons_ne_nil t.tid []))
  rw [← hbecomes.toList] at hpark
  refine ⟨_, .next t.tid x rest (h.schedule.running_not_queued h.slot) hq ?_⟩
  rw [heq]
  exact moved_yieldPick (by exact hfcfs) hpark (hbecomes.toList.trans hq) _ _ _

/-- `tus_yield(tid)`: the caller goes to the back, and `tid` runs out of turn. -/
theorem yieldTake_queueStep {caller u : Tcb} {tid : Int} (hfcfs : s.schedAlg = ALG_FCFS)
    (h : Current s c t) (hflag : t.resumeFlag = true) (hinside : InsideYield c t)
    (hcaller : caller.tid = t.tid) (hi : s.threads i = some u) (hready : u.state = .ready)
    (htid : u.tid = tid) (site : YieldCaller) (cancelled : Option Int) :
    ∃ ms, QueueStep s.readyQ.toList cancelled (some tid) (s.yieldTake c caller tid site) ms := by
  subst htid
  have hmem := h.schedule.queued hi hready
  obtain ⟨q, heq, hq⟩ := yieldTake_eq h hcaller hmem site
  have hpark := h.schedule.park h.slot { t with state := .ready } rfl rfl
    (.inYield hflag hinside)
  -- the thread is taken out of the middle, the caller goes to the end
  refine ⟨_, .direct t.tid u.tid rfl hmem (h.schedule.running_not_queued h.slot) ?_⟩
  rw [heq]
  have hswitch := moved_yieldSwitch (s := (s.put c { t with state := .ready }).setQueue q)
    (c := c) (by exact hfcfs) hpark (List.mem_append_left _ hmem) caller u.tid site
  exact ⟨hswitch.queue.trans hq.toList, hswitch.alg, hswitch.switched⟩

/-- `tus_yield(tid)` behind the resume test. -/
theorem yieldTo_queueStep {caller : Tcb} (hfcfs : s.schedAlg = ALG_FCFS) (h : Current s c t)
    (hflag : t.resumeFlag = true) (hinside : InsideYield c t) (hcaller : caller.tid = t.tid)
    (tid : Int) (site : YieldCaller) (cancelled : Option Int) :
    ∃ ms, QueueStep s.readyQ.toList cancelled (some tid) (s.yieldTo c caller tid site) ms := by
  -- a yield that fails changes nothing
  have hfail : ∃ ms, QueueStep s.readyQ.toList cancelled (some tid)
      ((s.setResumeFlag c false).yieldDone c site TUS_ERROR) ms :=
    ⟨_, .stay (moved_yieldDone (by exact hfcfs) c site _ rfl)⟩
  unfold TusState.yieldTo
  split_ifs with hown
  · -- to itself
    exact ⟨_, .stay (moved_yieldDone (by exact hfcfs) c site _ rfl)⟩
  · split
    · exact hfail
    · rename_i j u hget
      obtain ⟨hj, htid, -⟩ := TusState.getTcbByTid_some hget
      split_ifs with hready
      · exact hfail
      · exact yieldTake_queueStep hfcfs h hflag hinside hcaller hj (not_not.mp hready) htid site _

/-- `tus_yield`: the caller goes to the end, and the next thread is served. -/
theorem tusYield_queueStep (hs : Sound s) (hfcfs : s.schedAlg = ALG_FCFS) (h : Current s c t)
    (hawake : Awake t) (tid : Int) (site : YieldCaller) (rand : Nat)
    (cancelled directed : Option Int) (hdir : 0 < tid → directed = some tid) :
    ∃ ms, QueueStep s.readyQ.toList cancelled directed (s.tusYield tid site rand) ms := by
  -- the block as `tus_yield` leaves it before it looks at `tid`
  set t' : Tcb := { t with
    context := .inYield c t.serial tid site s.calls, unfinished := some s.calls } with ht'
  set s' : TusState := { s.put c t' with calls := s.calls + 1 } with hs'
  have hput := h.put t' rfl h.state
  have hsaved : Current s' c t' := ⟨hput.schedule, hput.slot, hput.tid⟩
  have hcur := hsaved.put { t' with resumeFlag := true } rfl h.state
  have hinside : InsideYield c { t' with resumeFlag := true } := ⟨tid, site, s.calls, rfl, rfl⟩
  have hfcfs' : (s'.put c { t' with resumeFlag := true }).schedAlg = ALG_FCFS := hfcfs
  unfold TusState.tusYield
  rw [if_neg (by rw [hs.initialized]; exact Bool.noConfusion), h.currentTcb]
  simp only [TusState.saveContext, TusState.modify_eq h.slot, ← ht', ← hs']
  unfold TusState.yieldBody
  rw [if_neg (by rw [hawake.flag]; exact Bool.false_ne_true),
    TusState.setResumeFlag_eq hsaved.slot]
  simp only
  split_ifs with hany hpos
  · exact yieldAny_queueStep hfcfs' hcur rfl hinside rfl site rand _ _
  · rw [hdir hpos]
    exact yieldTo_queueStep hfcfs' hcur rfl hinside rfl tid site _
  · exact ⟨_, .stay (moved_yieldDone (by exact hfcfs) c site _ rfl)⟩

/-! ## The other calls -/

/-- `tus_exit`: the next thread is served. -/
theorem tusExit_queueStep (hs : Sound s) (hfcfs : s.schedAlg = ALG_FCFS) (h : Current s c t)
    (rand : Nat) (cancelled directed : Option Int) :
    ∃ ms, QueueStep s.readyQ.toList cancelled directed (s.tusExit rand) ms := by
  have hretire := h.schedule.retire h.slot { t with state := .ended, resumeFlag := false } rfl rfl
    rfl
  set s' : TusState := s.put c { t with state := .ended, resumeFlag := false } with hs'
  have hfcfs' : s'.schedAlg = ALG_FCFS := hfcfs
  unfold TusState.tusExit
  rw [if_neg (by rw [hs.initialized]; exact Bool.noConfusion), h.currentTcb]
  simp only [TusState.setState_eq h.slot, TusState.setResumeFlag_put, ← hs']
  unfold TusState.exitPick
  by_cases hempty : s.readyQ.toList = []
  -- nobody is left
  · rw [TusState.pickNextTidBySched_empty (s := s') rand hempty]
    exact ⟨_, .stay ⟨rfl, hfcfs, rfl⟩⟩
  · obtain ⟨k, hk, q, hpick, hbecomes, hfront⟩ :=
      TusState.pickNextTidBySched_spec (s := s') (Or.inl hfcfs') rand hempty
    obtain rfl := hfront hfcfs'
    obtain ⟨x, rest, hq⟩ := List.exists_cons_of_ne_nil hempty
    have hx : s'.readyQ.toList[0] = x := by
      simp only [show s'.readyQ = s.readyQ from rfl, hq, List.getElem_cons_zero]
    have hmem : x ∈ s.readyQ.toList := by
      rw [hq]
      exact List.mem_cons_self
    obtain ⟨n, u, hn, -, htid⟩ := (hretire.mem_iff x).mp hmem
    have hget : (s'.setQueue q).getTcbByTid x = some (n, u) := by
      rw [← htid]
      exact TusState.getTcbByTid_eq (s := s'.setQueue q) hretire hn
    simp only [hpick, hx, if_neg (hretire.queued_ne_error hmem), hget]
    refine ⟨_, .exit x rest hq ?_⟩
    have hlist : q.toList = rest := by
      rw [hbecomes.toList, show s'.readyQ = s.readyQ from rfl, hq]
      rfl
    exact ⟨hlist, hfcfs, rfl⟩

/-- A test in `tus_join`: the caller goes to the end when it has to wait. -/
theorem joinTest_queueStep (hs : Sound s) (hfcfs : s.schedAlg = ALG_FCFS) (h : Current s c t)
    (hawake : Awake t) (tid : Int) (asked : Nat) (target : Tcb) (rand : Nat)
    (cancelled directed : Option Int) :
    ∃ ms, QueueStep s.readyQ.toList cancelled directed (s.joinTest tid asked target rand) ms := by
  unfold TusState.joinTest
  split_ifs
  · exact tusYield_queueStep hs hfcfs h hawake _ _ _ _ _ fun hpos => absurd hpos (by decide)
  · unfold TusState.destroyThread
    split <;> exact ⟨_, .stay ⟨rfl, hfcfs, rfl⟩⟩

/-- The first test of `tus_join`, or a refusal. -/
theorem tusJoin_queueStep (hs : Sound s) (hfcfs : s.schedAlg = ALG_FCFS) (h : Current s c t)
    (hawake : Awake t) (tid : Int) (rand : Nat) (cancelled directed : Option Int) :
    ∃ ms, QueueStep s.readyQ.toList cancelled directed (s.tusJoin tid rand) ms := by
  unfold TusState.tusJoin
  rw [h.currentTcb]
  simp only
  split_ifs
  · exact ⟨_, .stay (moved_ret hfcfs _)⟩
  · exact ⟨_, .stay (moved_ret hfcfs _)⟩
  · split
    · exact ⟨_, .stay (moved_ret hfcfs _)⟩
    · exact joinTest_queueStep hs hfcfs h hawake _ _ _ _ _ _

/-- A later test of `tus_join`. -/
theorem joinAgain_queueStep (hs : Sound s) (hfcfs : s.schedAlg = ALG_FCFS) (h : Current s c t)
    (hawake : Awake t) (tid : Int) (asked : Nat) (rc : Int) (rand : Nat)
    (cancelled directed : Option Int) :
    ∃ ms, QueueStep s.readyQ.toList cancelled directed (s.joinAgain tid asked rc rand) ms := by
  unfold TusState.joinAgain
  split_ifs
  · exact ⟨_, .stay (moved_ret hfcfs _)⟩
  · split
    · exact ⟨_, .stay (moved_ret hfcfs _)⟩
    · exact joinTest_queueStep hs hfcfs h hawake _ _ _ _ _ _

/-- `tus_cancel`: the thread is taken out, or the queue stays as it is. -/
theorem tusCancel_queueStep (hfcfs : s.schedAlg = ALG_FCFS) (tid : Int)
    (directed : Option Int) :
    ∃ ms, QueueStep s.readyQ.toList (some tid) directed (s.tusCancel tid) ms := by
  unfold TusState.tusCancel
  split_ifs
  · exact ⟨_, .stay (moved_ret hfcfs _)⟩
  · -- no thread of that id
    split
    · exact ⟨_, .stay (moved_ret hfcfs _)⟩
    · rename_i i target hget
      split_ifs with hended hready
      · exact ⟨_, .stay (moved_ret hfcfs _)⟩
      · -- a ready thread leaves the queue
        have hbecomes := (ReadyQ.rqRemoveTid_spec s.readyQ tid).2
        simp only
        split_ifs
        all_goals exact ⟨_, .cancel tid rfl ⟨hbecomes.toList, hfcfs, rfl⟩⟩
      · exact ⟨_, .stay ⟨rfl, hfcfs, rfl⟩⟩

/-- `tus_create_thread`: the new thread joins at the end. -/
theorem tusCreateThread_queueStep (hfcfs : s.schedAlg = ALG_FCFS) (h : Current s c t)
    (tsf targ : Nat) (cancelled directed : Option Int) :
    ∃ ms, QueueStep s.readyQ.toList cancelled directed (s.tusCreateThread tsf targ) ms := by
  unfold TusState.tusCreateThread
  split_ifs with hbad hfull
  · exact ⟨_, .stay (moved_ret hfcfs _)⟩
  · exact ⟨_, .stay (moved_ret hfcfs _)⟩
  · obtain ⟨i, hslot⟩ := TusState.findFreeSlot_isSome (s := s) (by omega)
    have hfree := TusState.findFreeSlot_some hslot
    obtain ⟨hrange, hfresh⟩ := TusState.allocateTid_spec hfree
    obtain ⟨hcode, hpush⟩ := ReadyQ.rqPush_spec s.allocateTid h.room
    have hne : s.allocateTid ≠ TUS_ERROR := by
      intro herr
      rw [herr] at hrange
      exact absurd hrange.1 (by decide)
    -- the id is free, so it is not queued
    have hnew : s.allocateTid ∉ s.readyQ.toList := by
      intro hmem
      obtain ⟨j, u, hj, -, htid⟩ := (h.schedule.mem_iff _).mp hmem
      exact hfresh j u hj htid
    simp only [hslot, if_neg hne, hcode]
    rw [if_neg (by decide)]
    exact ⟨_, .create s.allocateTid hnew ⟨hpush.toList, hfcfs, rfl⟩⟩

/-- A thread that is resumed goes on with the call it was in. -/
theorem resume_queueStep {ctx : Context} (hfcfs : s.schedAlg = ALG_FCFS) (h : Current s c t)
    (hsuspended : Suspended c t) (hctx : t.context = ctx) (rand : Nat)
    (cancelled directed : Option Int) :
    ∃ ms, QueueStep s.readyQ.toList cancelled directed (s.resume ctx rand) ms := by
  -- suspended in `tus_yield`, or not started yet
  cases hsuspended with
  | inYield flag inside =>
    obtain ⟨tid, site, call, hcall, -⟩ := inside
    obtain rfl := hctx.symm.trans hcall
    simp only [TusState.resume, h.slot, if_true]
    rw [yieldBody_resumed h flag]
    exact ⟨_, .stay (moved_yieldDone (by exact hfcfs) c site _ rfl)⟩
  | atStart flag start unfinished =>
    obtain ⟨-, tsf, targ, hstart⟩ := start
    obtain rfl := hctx.symm.trans hstart
    simp only [TusState.resume, h.currentTcb]
    exact ⟨_, .stay ⟨rfl, hfcfs, rfl⟩⟩

/-! ## Steps -/

/-- **One step of an FCFS queue.** -/
theorem Inv.queueStep {m : Machine} (h : Inv m) (hfcfs : m.tus.schedAlg = ALG_FCFS) (e : Event) :
    ∃ ms, QueueStep m.tus.readyQ.toList (m.cancelled e) (m.directed e) (m.step e) ms := by
  obtain ⟨s, pc⟩ := m
  obtain ⟨call, rand⟩ := e
  have hs : Sound s := h.sound
  -- one case for each place the running thread can be in
  cases pc with
  | user rc =>
    obtain ⟨c, t, hcur, hawake⟩ := h.place
    cases call with
    | init salg =>
      refine ⟨_, .stay ?_⟩
      simp only [Machine.step, TusState.call, TusState.tusInit]
      rw [if_pos (Or.inl hs.initialized)]
      exact moved_ret hfcfs _
    | createThread tsf targ => exact tusCreateThread_queueStep hfcfs hcur tsf targ _ _
    | yield tid =>
      exact tusYield_queueStep hs hfcfs hcur hawake tid _ rand _ _ fun hpos => if_pos hpos
    | join tid => exact tusJoin_queueStep hs hfcfs hcur hawake tid rand _ _
    | cancel tid => exact tusCancel_queueStep hfcfs tid _
    | exit => exact tusExit_queueStep hs hfcfs hcur rand _ _
  | resume ctx =>
    obtain ⟨c, t, hcur, hsuspended, hctx⟩ := h.place
    exact resume_queueStep hfcfs hcur hsuspended hctx rand _ _
  | joinLoop tid asked rc =>
    obtain ⟨c, t, hcur, hawake⟩ := h.place
    exact joinAgain_queueStep hs hfcfs hcur hawake tid asked rc rand _ _
  | exited => exact ⟨_, .stay ⟨rfl, hfcfs, rfl⟩⟩
  | stray => exact h.place.elim

/-- What the moves of a step say about it. -/
structure StepMoves (q : List Int) (cancelled directed : Option Int) (m : Machine)
    (ms : List (Move Int)) : Prop where
  moves : Moves q ms m.tus.readyQ.toList
  alg : m.tus.schedAlg = ALG_FCFS
  /-- Serving the front is dispatching it. -/
  pop : ∀ x, .pop x ∈ ms → m.switched = some x
  /-- Who is taken out of turn is cancelled, or named in a `tus_yield` and dispatched. -/
  take : ∀ x, .take x ∈ ms → cancelled = some x ∨ directed = some x ∧ m.switched = some x
  dispatched : ∀ x, m.switched = some x → .pop x ∈ ms ∨ directed = some x
  /-- Nobody leaves the queue and is back in the same step. -/
  gone : q.Nodup → ∀ x, .pop x ∈ ms ∨ .take x ∈ ms → x ∉ m.tus.readyQ.toList

theorem QueueStep.stepMoves {cancelled directed : Option Int} {m : Machine} {ms : List (Move Int)}
    (h : QueueStep q cancelled directed m ms) : StepMoves q cancelled directed m ms := by
  cases h with
  | stay h =>
    refine ⟨?_, h.alg, by simp, by simp, by simp [h.switched], by simp⟩
    rw [h.queue]
    exact .nil q
  | create y hy h =>
    refine ⟨?_, h.alg, by simp, by simp, by simp [h.switched], by simp⟩
    rw [h.queue]
    exact .push y hy (.nil _)
  | cancel y hy h =>
    refine ⟨?_, h.alg, by simp, by simp [hy], by simp [h.switched], ?_⟩
    · rw [h.queue]
      exact .take y (.nil _)
    · intro hq z hz
      obtain rfl : z = y := by simpa using hz
      rw [h.queue]
      exact hq.not_mem_erase
  | next c y rest hc hq h =>
    refine ⟨?_, h.alg, by simp [h.switched], by simp, by simp [h.switched], ?_⟩
    · refine .push c hc ?_
      rw [h.queue, hq]
      exact .pop y (.nil _)
    · -- `y` was at the front once, and the caller is not `y`
      intro hnodup z hz
      obtain rfl : z = y := by simpa using hz
      have hall : (q ++ [c]).Nodup := List.nodup_append_comm.mp (List.nodup_cons.mpr ⟨hc, hnodup⟩)
      rw [h.queue]
      rw [hq] at hall
      exact (List.nodup_cons.mp hall).1
  | exit y rest hq h =>
    refine ⟨?_, h.alg, by simp [h.switched], by simp, by simp [h.switched], ?_⟩
    · rw [h.queue, hq]
      exact .pop y (.nil _)
    · intro hnodup z hz
      obtain rfl : z = y := by simpa using hz
      rw [h.queue]
      rw [hq] at hnodup
      exact (List.nodup_cons.mp hnodup).1
  | direct c y hy hmem hc h =>
    refine ⟨?_, h.alg, by simp, by simp [hy, h.switched], by simp [hy, h.switched],
      fun hnodup z hz => ?_⟩
    · rw [h.queue]
      -- taken out of the middle, then the caller at the end
      exact .take y (.push c (fun hc' => hc (List.mem_of_mem_erase hc')) (.nil _))
    · obtain rfl : z = y := by simpa using hz
      have hzc : z ≠ c := by
        rintro rfl
        exact hc hmem
      rw [h.queue, List.mem_append, List.mem_singleton, not_or]
      exact ⟨hnodup.not_mem_erase, hzc⟩

/-- A reachable machine under `ALG_FCFS`. -/
structure FcfsInv (m : Machine) : Prop extends Inv m where
  alg : m.tus.schedAlg = ALG_FCFS

/-- Every event is a move of the queue. -/
theorem FcfsInv.stepMoves {m : Machine} (h : FcfsInv m) (e : Event) :
    ∃ ms, StepMoves m.tus.readyQ.toList (m.cancelled e) (m.directed e) (m.step e) ms := by
  obtain ⟨ms, hstep⟩ := h.toInv.queueStep h.alg e
  exact ⟨ms, hstep.stepMoves⟩

/-- Every event keeps the invariant. -/
theorem FcfsInv.step {m : Machine} (h : FcfsInv m) (e : Event) : FcfsInv (m.step e) := by
  obtain ⟨ms, hmoves⟩ := h.stepMoves e
  exact ⟨h.toInv.step e, hmoves.alg⟩

/-- Every run keeps the invariant. -/
theorem FcfsInv.run {m : Machine} (h : FcfsInv m) (es : List Event) : FcfsInv (m.run es) := by
  induction es generalizing m with
  | nil => exact h
  | cons e es ih => exact ih (h.step e)

/-- No id is in the queue twice. -/
theorem FcfsInv.nodup {m : Machine} (h : FcfsInv m) : m.tus.readyQ.toList.Nodup :=
  h.toInv.scheduled.queue_nodup

theorem FcfsInv.boot : FcfsInv (Machine.boot ALG_FCFS) where
  toInv := boot_inv (Or.inl rfl)
  alg := by decide +kernel

/-! ## Runs -/

variable {m : Machine} {y : Int}

/-- In a step that neither dispatches nor cancels `x`, no move concerns it. -/
theorem StepMoves.stays {cancelled directed : Option Int} {ms : List (Move Int)}
    (h : StepMoves q cancelled directed m ms) (hdispatch : m.switched ≠ some x)
    (hcancel : cancelled ≠ some x) : .pop x ∉ ms ∧ .take x ∉ ms := by
  refine ⟨fun hpop => hdispatch (h.pop x hpop), ?_⟩
  intro htake
  rcases h.take x htake with hc | ⟨-, hd⟩
  · exact hcancel hc
  · exact hdispatch hd

/-- Nobody behind `x` is dispatched while `x` waits, except by name. -/
theorem FcfsInv.run_inFront (h : FcfsInv m) (hxy : InFront x y m.tus.readyQ.toList)
    (es : List Event)
    (hrun : ∀ p ∈ m.trace es, p.1.dispatched p.2 ≠ some x ∧ p.1.cancelled p.2 ≠ some x ∧
      p.1.directed p.2 ≠ some y) : ∀ p ∈ m.trace es, p.1.dispatched p.2 ≠ some y := by
  induction es generalizing m with
  | nil => exact fun p hp => absurd hp List.not_mem_nil
  | cons e es ih =>
    obtain ⟨hhead, htail⟩ := List.forall_mem_cons.mp hrun
    obtain ⟨ms, hmoves⟩ := h.stepMoves e
    obtain ⟨hpop, htake⟩ := hmoves.stays hhead.1 hhead.2.1
    obtain ⟨hfront, hno⟩ := hmoves.moves.inFront hxy hpop htake
    refine List.forall_mem_cons.mpr ⟨fun hy => ?_, ih (h.step e) hfront htail⟩
    -- a dispatch of `y` serves the front or was asked for
    rcases hmoves.dispatched y hy with hpopY | hdir
    · exact hno hpopY
    · exact hhead.2.2 hdir

/-- The places in front of `x` pay for the dispatches in turn. -/
theorem FcfsInv.run_rank (h : FcfsInv m) (hx : x ∈ m.tus.readyQ.toList) (es : List Event)
    (hrun : ∀ p ∈ m.trace es, p.1.dispatched p.2 ≠ some x ∧ p.1.cancelled p.2 ≠ some x) :
    (m.run es).tus.readyQ.toList.idxOf x + (m.trace es).countP (fun p => p.1.servesNext p.2) ≤
      m.tus.readyQ.toList.idxOf x := by
  induction es generalizing m with
  | nil => exact Nat.le_refl _
  | cons e es ih =>
    obtain ⟨hhead, htail⟩ := List.forall_mem_cons.mp hrun
    obtain ⟨ms, hmoves⟩ := h.stepMoves e
    obtain ⟨hpop, htake⟩ := hmoves.stays hhead.1 hhead.2
    obtain ⟨hmem, hrank⟩ := hmoves.moves.rank hx hpop htake
    have hrest := ih (h.step e) hmem htail
    -- a dispatch in turn is a service
    have hserves : (if m.servesNext e then 1 else 0) ≤ pops ms := by
      split_ifs with hs
      · rw [Machine.servesNext, Bool.and_eq_true, Option.isSome_iff_exists] at hs
        obtain ⟨⟨z, hz⟩, hundirected⟩ := hs
        refine pops_pos ((hmoves.dispatched z hz).resolve_right fun hdir => ?_)
        rw [hdir] at hundirected
        exact absurd hundirected (by simp)
      · exact Nat.zero_le _
    have hcount : (m.trace (e :: es)).countP (fun p => p.1.servesNext p.2) =
        ((m.step e).trace es).countP (fun p => p.1.servesNext p.2) +
          if m.servesNext e then 1 else 0 := List.countP_cons
    have hlast : m.run (e :: es) = (m.step e).run es := rfl
    rw [hlast, hcount]
    omega

/-- The queue of `m` is served in order, in every continuation of `m`. -/
structure FirstComeFirstServed (m : Machine) : Prop where
  /-- If `x` is queued in front of `y`, then `y` is only dispatched in a continuation
  that dispatches or cancels `x` as well, or names `y` in a `tus_yield`. -/
  no_overtaking : ∀ x y, y ∈ m.tus.readyQ.toList →
    m.tus.readyQ.toList.idxOf x < m.tus.readyQ.toList.idxOf y →
    ∀ es, (∃ p ∈ m.trace es, p.1.dispatched p.2 = some y) →
      ∃ p ∈ m.trace es, p.1.dispatched p.2 = some x ∨ p.1.cancelled p.2 = some x ∨
        p.1.directed p.2 = some y
  /-- No step moves a thread that stays ready further back, or swaps two of them. -/
  order_kept : ∀ e x, x ∈ m.tus.readyQ.toList → x ∈ (m.step e).tus.readyQ.toList →
    (m.step e).tus.readyQ.toList.idxOf x ≤ m.tus.readyQ.toList.idxOf x ∧
    ∀ y, m.tus.readyQ.toList.idxOf x < m.tus.readyQ.toList.idxOf y →
      (m.step e).tus.readyQ.toList.idxOf x < (m.step e).tus.readyQ.toList.idxOf y
  /-- With more dispatches by `tus_yield(TUS_ANY)` and `tus_exit` than there are
  threads in front of it, `x` is dispatched, unless it is cancelled. -/
  bounded_waiting : ∀ x ∈ m.tus.readyQ.toList, ∀ es,
    (∀ p ∈ m.trace es, p.1.cancelled p.2 ≠ some x) →
    m.tus.readyQ.toList.idxOf x < (m.trace es).countP (fun p => p.1.servesNext p.2) →
    ∃ p ∈ m.trace es, p.1.dispatched p.2 = some x

/-- **First come, first served.** With `ALG_FCFS`, in every machine that any run
reaches. -/
theorem run_fcfs (es : List Event) : FirstComeFirstServed ((Machine.boot ALG_FCFS).run es) where
  no_overtaking := by
    intro x y _ hxy es' ⟨p, hp, hd⟩
    by_contra hno
    push Not at hno
    exact (FcfsInv.boot.run es).run_inFront hxy es' hno p hp hd
  order_kept := by
    intro e x hx hx'
    have h := FcfsInv.boot.run es
    obtain ⟨ms, hmoves⟩ := h.stepMoves e
    -- an id that leaves the queue is not in it afterwards
    have hpop : .pop x ∉ ms := fun hpop => hmoves.gone h.nodup x (Or.inl hpop) hx'
    have htake : .take x ∉ ms := fun htake => hmoves.gone h.nodup x (Or.inr htake) hx'
    have hrank := (hmoves.moves.rank hx hpop htake).2
    exact ⟨by omega, fun y hxy => (hmoves.moves.inFront hxy hpop htake).1⟩
  bounded_waiting := by
    intro x hx es' hcancel hcount
    by_contra hno
    push Not at hno
    -- every switch takes one id from in front of `x`, and there are only so many
    have hrank := (FcfsInv.boot.run es).run_rank hx es' fun p hp => ⟨hno p hp, hcancel p hp⟩
    omega

end OsProjects.Tus
