import OsProjects.Tus.Schedule

/-!
# Thread library — every step keeps the schedule

`Inv` is the invariant of a machine: the table, the queue and the running
thread form a `Schedule`, no recovery branch was taken, and the running thread
fits the place the execution stands at. In the program it is awake; after
`setcontext` it is suspended, in the context that was switched to.

One lemma for each function of the library says that it ends in such a machine
(`tusYield_inv`, `tusExit_inv`, …), and `Inv.step` collects them. In
`tus_yield` the caller is parked (`Schedule.park`) before the next thread is
woken (`Schedule.wake`), so the schedule without a running thread is the
half-way point (`yieldSwitch_inv`).
-/

namespace OsProjects.Tus

variable {s : TusState} {c i : Slot} {t : Tcb} {q : List Int}

/-! ## Replacing a block -/

namespace TusState

/-- The table with `t` in slot `i`. -/
def put (s : TusState) (i : Slot) (t : Tcb) : TusState :=
  { s with threads := Function.update s.threads i (some t) }

@[simp] theorem put_self (s : TusState) (i : Slot) (t : Tcb) : (s.put i t).threads i = some t :=
  Function.update_self ..

/-- A block that is there is changed as a whole. -/
theorem modify_eq (h : s.threads i = some t) (f : Tcb → Tcb) : s.modify i f = s.put i (f t) := by
  rw [modify, h]
  rfl

@[simp] theorem modify_put (s : TusState) (i : Slot) (t : Tcb) (f : Tcb → Tcb) :
    (s.put i t).modify i f = s.put i (f t) := by
  rw [modify_eq (put_self s i t), put, put, put]
  simp only [Function.update_idem]

@[simp] theorem setState_put (s : TusState) (i : Slot) (t : Tcb) (state : ThreadState) :
    (s.put i t).setState i state = s.put i { t with state := state } :=
  modify_put ..

@[simp] theorem setResumeFlag_put (s : TusState) (i : Slot) (t : Tcb) (flag : Bool) :
    (s.put i t).setResumeFlag i flag = s.put i { t with resumeFlag := flag } :=
  modify_put ..

/-- The fields that the source assigns, as changes of the whole block. -/
theorem setState_eq (h : s.threads i = some t) (state : ThreadState) :
    s.setState i state = s.put i { t with state := state } :=
  modify_eq h _

theorem setResumeFlag_eq (h : s.threads i = some t) (flag : Bool) :
    s.setResumeFlag i flag = s.put i { t with resumeFlag := flag } :=
  modify_eq h _

end TusState

/-! ## The invariant -/

/-- What holds of the static variables wherever the execution stands. -/
structure Sound (s : TusState) : Prop where
  initialized : s.initialized = true
  alg : s.schedAlg = ALG_FCFS ∨ s.schedAlg = ALG_RANDOM
  refused : s.readyQ.refused = 0
  recoveries : s.recoveries = []

/-- `t` is in slot `c`, and it is the running thread. -/
structure Current (s : TusState) (c : Slot) (t : Tcb) : Prop where
  schedule : Schedule s.threads s.readyQ.toList (some c)
  slot : s.threads c = some t
  tid : s.currentTid = t.tid

/-- A thread that is not inside `tus_yield`. -/
structure Awake (t : Tcb) : Prop where
  flag : t.resumeFlag = false
  unfinished : t.unfinished = none

/-- The running thread fits the place. -/
def PcInv (s : TusState) : Pc → Prop
  | .user _ => ∃ c t, Current s c t ∧ Awake t
  | .joinLoop _ _ _ => ∃ c t, Current s c t ∧ Awake t
  | .resume ctx => ∃ c t, Current s c t ∧ Suspended c t ∧ t.context = ctx
  | .exited => s.readyQ.toList = [] ∧ Schedule s.threads [] none
  | .stray => False

/-- What holds of a machine between two events. -/
structure Inv (m : Machine) : Prop where
  sound : Sound m.tus
  place : PcInv m.tus m.pc

/-- A block may change what the queue does not look at. -/
theorem Sound.put (h : Sound s) : Sound (s.put i t) :=
  ⟨h.initialized, h.alg, h.refused, h.recoveries⟩

/-- The queue may be replaced by one with the right ids. -/
theorem Sound.queue {xs : List Int} {q : ReadyQ} (h : Sound s)
    (hq : ReadyQ.Becomes s.readyQ q xs) : Sound (s.setQueue q) :=
  ⟨h.initialized, h.alg, hq.refused.trans h.refused, h.recoveries⟩

/-- The running thread is in the state RUNNING. -/
theorem Current.state (h : Current s c t) : t.state = .running :=
  (h.schedule.slot c t h.slot).running_iff.mpr rfl

/-- It stays the running one if its id and state stay. -/
theorem Current.put (h : Current s c t) (t' : Tcb) (htid : t'.tid = t.tid)
    (hstate : t'.state = .running) : Current (s.put c t') c t' :=
  ⟨h.schedule.touch h.slot t' htid hstate, TusState.put_self s c t', h.tid.trans htid.symm⟩

/-- `current_tcb` finds it. -/
theorem Current.currentTcb (h : Current s c t) : s.currentTcb = some (c, t) := by
  rw [TusState.currentTcb, h.tid]
  exact TusState.getTcbByTid_eq h.schedule h.slot

/-- The running thread has room in the queue. -/
theorem Current.room (h : Current s c t) : s.readyQ.toList.length < TUS_MAXTHREADS :=
  h.schedule.length_lt h.slot

/-- A return to the program by a thread that is awake. -/
theorem Current.ret (h : Current s c t) (hs : Sound s) (hawake : Awake t) (rc : Int) :
    Inv (s.ret rc) :=
  ⟨hs, c, t, h, hawake⟩

/-! ## `tus_yield` -/

/-- A return of `tus_yield` by the running thread, with its flag down. -/
theorem Current.yieldDone (h : Current s c t) (hs : Sound s) (hflag : t.resumeFlag = false)
    (site : YieldCaller) (rc : Int) : Inv (s.yieldDone c site rc) := by
  have hput := h.put { t with unfinished := none } rfl h.state
  rw [TusState.yieldDone, TusState.modify_eq h.slot]
  cases site with
  | user => exact ⟨hs.put, c, _, hput, hflag, rfl⟩
  | join tid asked => exact ⟨hs.put, c, _, hput, hflag, rfl⟩

/-- The same, behind assignments to the block of the caller. -/
theorem Current.putDone (h : Current s c t) (hs : Sound s) (t' : Tcb) (htid : t'.tid = t.tid)
    (hstate : t'.state = .running) (hflag : t'.resumeFlag = false) (site : YieldCaller) (rc : Int) :
    Inv ((s.put c t').yieldDone c site rc) :=
  (h.put t' htid hstate).yieldDone hs.put hflag site rc

/-- The processor goes to a queued thread: what runs next is the context that
thread was suspended in. -/
theorem dispatch_inv {x : Int} {nextTcb : Tcb} (hs : Sound s) (h : Schedule s.threads q none)
    (hq : s.readyQ.toList = q.erase x) (hi : s.threads i = some t) (hready : t.state = .ready)
    (hx : t.tid = x) (hctx : nextTcb.context = t.context) : Inv (s.dispatch i nextTcb x) := by
  subst hx
  have hsuspended := (h.slot i t hi).suspended hready
  rw [TusState.dispatch, TusState.setState_eq hi]
  refine ⟨⟨hs.initialized, hs.alg, hs.refused, hs.recoveries⟩, i, { t with state := .running },
    ⟨?_, TusState.put_self .., rfl⟩, ?_, hctx.symm⟩
  · have hwake := h.wake hi { t with state := .running } rfl rfl
    rw [← hq] at hwake
    exact hwake
  · -- running or not makes no difference to where a thread is suspended
    cases hsuspended with
    | inYield flag inside => exact .inYield flag inside
    | atStart flag start unfinished => exact .atStart flag start unfinished

/-- The end of `tus_yield`: the caller is parked, and the next thread `x` has
been taken out of the queue. -/
theorem yieldSwitch_inv {x : Int} (hs : Sound s) (h : Schedule s.threads q none)
    (hq : s.readyQ.toList = q.erase x) (hx : x ∈ q) (hc : s.threads c = some t)
    (hready : t.state = .ready) (hflag : t.resumeFlag = true) (hinside : InsideYield c t)
    (caller : Tcb) (tid : Int) (site : YieldCaller) :
    Inv (s.yieldSwitch c caller tid site x) := by
  obtain ⟨n, u, hn, hu, rfl⟩ := (h.mem_iff x).mp hx
  simp only [TusState.yieldSwitch, TusState.getTcbByTid_eq h hn, TusState.modify_eq hc,
    TusState.setState_put]
  have hkeep := h.keep hc { t with yieldResult := u.tid, state := .ready } rfl hready rfl
    (.inYield hflag hinside)
  by_cases hnc : n = c
  · -- `rand` has picked the caller itself
    subst hnc
    obtain rfl := Option.some.inj (hc.symm.trans hn)
    exact dispatch_inv hs.put hkeep hq (TusState.put_self ..) rfl rfl rfl
  · have hn' := (Function.update_of_ne hnc
      (some { t with yieldResult := u.tid, state := .ready }) s.threads).trans hn
    exact dispatch_inv hs.put hkeep hq hn' hu rfl rfl

/-- The pick of `tus_yield(TUS_ANY)`, with the caller parked. -/
theorem yieldPick_inv (hs : Sound s) (h : Schedule s.threads s.readyQ.toList none)
    (hc : s.threads c = some t) (hready : t.state = .ready) (hflag : t.resumeFlag = true)
    (hinside : InsideYield c t) (caller : Tcb) (site : YieldCaller) (rand : Nat) :
    Inv (s.yieldPick c caller site rand) := by
  -- the caller is in the queue, so the pick finds a thread
  have hne : s.readyQ.toList ≠ [] := List.ne_nil_of_mem (h.queued hc hready)
  obtain ⟨k, hk, q, hpick, hq, -⟩ := TusState.pickNextTidBySched_spec hs.alg rand hne
  have hmem : s.readyQ.toList[k] ∈ s.readyQ.toList := List.getElem_mem hk
  simp only [TusState.yieldPick, hpick, if_neg (h.queued_ne_error hmem)]
  refine yieldSwitch_inv (hs.queue hq) h ?_ hmem hc hready hflag hinside _ _ _
  rw [h.nodup.erase_getElem k hk]
  exact hq.toList

/-- `tus_yield(TUS_ANY)` up to the pick: the caller goes to the back of the queue. -/
theorem yieldAny_eq {caller : Tcb} (h : Current s c t) (hcaller : caller.tid = t.tid)
    (site : YieldCaller) (rand : Nat) :
    ∃ q, s.yieldAny c caller site rand =
        ((s.put c { t with state := .ready }).setQueue q).yieldPick c caller site rand ∧
      ReadyQ.Becomes s.readyQ q (s.readyQ.toList ++ [t.tid]) := by
  obtain ⟨hcode, hpush⟩ := ReadyQ.rqPush_spec t.tid h.room
  have hput : (s.put c { t with state := .ready }).readyQ = s.readyQ := rfl
  refine ⟨(s.readyQ.rqPush t.tid).2, ?_, hpush⟩
  simp only [TusState.yieldAny, hcaller, TusState.setState_eq h.slot, hput, hcode]
  rw [if_neg (by decide)]

/-- `tus_yield(tid)` up to the switch: the target leaves the queue, so there is room for the
caller at the back. -/
theorem yieldTake_eq {caller : Tcb} {tid : Int} (h : Current s c t) (hcaller : caller.tid = t.tid)
    (hmem : tid ∈ s.readyQ.toList) (site : YieldCaller) :
    ∃ q, s.yieldTake c caller tid site =
        ((s.put c { t with state := .ready }).setQueue q).yieldSwitch c caller tid site tid ∧
      ReadyQ.Becomes s.readyQ q (s.readyQ.toList.erase tid ++ [t.tid]) := by
  obtain ⟨hremoved, hq⟩ := ReadyQ.rqRemoveTid_mem hmem
  have hroom : (s.readyQ.rqRemoveTid tid).2.toList.length < TUS_MAXTHREADS := by
    rw [hq.toList]
    exact Nat.lt_of_le_of_lt List.length_erase_le h.room
  obtain ⟨hcode, hpush⟩ := ReadyQ.rqPush_spec t.tid hroom
  rw [hq.toList] at hpush
  have hslot : (s.setQueue (s.readyQ.rqRemoveTid tid).2).threads c = some t := h.slot
  have hput : ((s.setQueue (s.readyQ.rqRemoveTid tid).2).put c
      { t with state := .ready }).readyQ = (s.readyQ.rqRemoveTid tid).2 := rfl
  refine ⟨((s.readyQ.rqRemoveTid tid).2.rqPush t.tid).2, ?_, hq.trans hpush⟩
  -- neither error of the source is met: the removal and the push return 0
  simp only [TusState.yieldTake, hremoved, hcaller, TusState.setState_eq hslot, hput, hcode]
  rw [if_neg (by decide), if_neg (by decide)]
  rfl

/-- `tus_yield(TUS_ANY)` behind the resume test, by the running thread, with its
flag up. -/
theorem yieldAny_inv {caller : Tcb} (hs : Sound s) (h : Current s c t)
    (hflag : t.resumeFlag = true) (hinside : InsideYield c t) (hcaller : caller.tid = t.tid)
    (site : YieldCaller) (rand : Nat) : Inv (s.yieldAny c caller site rand) := by
  obtain ⟨q, heq, hq⟩ := yieldAny_eq h hcaller site rand
  have hpark := h.schedule.park h.slot { t with state := .ready } rfl rfl
    (.inYield hflag hinside)
  rw [heq]
  rw [← hq.toList] at hpark
  exact yieldPick_inv (hs.put.queue hq) hpark (TusState.put_self ..) rfl hflag hinside _ _ _

/-- `tus_yield(tid)` to another thread that is ready. -/
theorem yieldTake_inv {caller u : Tcb} {tid : Int} (hs : Sound s) (h : Current s c t)
    (hflag : t.resumeFlag = true) (hinside : InsideYield c t) (hcaller : caller.tid = t.tid)
    (hi : s.threads i = some u) (hready : u.state = .ready) (htid : u.tid = tid)
    (site : YieldCaller) : Inv (s.yieldTake c caller tid site) := by
  subst htid
  have hmem := h.schedule.queued hi hready
  obtain ⟨q, heq, hq⟩ := yieldTake_eq h hcaller hmem site
  have hpark := h.schedule.park h.slot { t with state := .ready } rfl rfl
    (.inYield hflag hinside)
  rw [heq]
  refine yieldSwitch_inv (hs.put.queue hq) hpark ?_ (List.mem_append_left _ hmem)
    (TusState.put_self ..) rfl hflag hinside _ _ _
  -- taking the next thread out and parking the caller commute
  rw [List.erase_append_left _ hmem]
  exact hq.toList

/-- `tus_yield(tid)` behind the resume test. -/
theorem yieldTo_inv {caller : Tcb} (hs : Sound s) (h : Current s c t) (hflag : t.resumeFlag = true)
    (hinside : InsideYield c t) (hcaller : caller.tid = t.tid) (tid : Int) (site : YieldCaller) :
    Inv (s.yieldTo c caller tid site) := by
  -- the error returns put the flag down again
  have hfail : Inv ((s.setResumeFlag c false).yieldDone c site TUS_ERROR) := by
    rw [TusState.setResumeFlag_eq h.slot]
    exact h.putDone hs { t with resumeFlag := false } rfl h.state rfl site _
  unfold TusState.yieldTo
  split_ifs with hown
  · rw [TusState.modify_eq h.slot]
    simp only [TusState.setState_put, TusState.setResumeFlag_put]
    exact h.putDone hs { t with yieldResult := _, state := .running, resumeFlag := false } rfl rfl
      rfl site _
  · split
    · exact hfail
    · rename_i j u hget
      obtain ⟨hj, htid, -⟩ := TusState.getTcbByTid_some hget
      split_ifs with hready
      · exact hfail
      · exact yieldTake_inv hs h hflag hinside hcaller hj (not_not.mp hready) htid site

/-- The first pass through the code behind `getcontext`. -/
theorem yieldBody_inv {caller : Tcb} (hs : Sound s) (h : Current s c t)
    (hinside : InsideYield c t) (hcaller : caller.tid = t.tid) (hflag : caller.resumeFlag = false)
    (tid : Int) (site : YieldCaller) (rand : Nat) :
    Inv (s.yieldBody c caller tid site rand) := by
  have hput := h.put { t with resumeFlag := true } rfl h.state
  unfold TusState.yieldBody
  rw [if_neg (by rw [hflag]; exact Bool.false_ne_true), TusState.setResumeFlag_eq h.slot]
  simp only
  split_ifs with hany hpos
  · exact yieldAny_inv hs.put hput rfl hinside hcaller site rand
  · exact yieldTo_inv hs.put hput rfl hinside hcaller tid site
  · rw [TusState.setResumeFlag_put]
    exact h.putDone hs { t with resumeFlag := false } rfl h.state rfl site _

/-- The second pass, after a switch: `tus_yield` returns. -/
theorem yieldBody_resumed (h : Current s c t) (hflag : t.resumeFlag = true) (tid : Int)
    (site : YieldCaller) (rand : Nat) :
    s.yieldBody c t tid site rand = (s.put c { t with
      resumeFlag := false, state := .running }).yieldDone c site t.yieldResult := by
  have hcurrent : { s.put c { t with resumeFlag := false, state := .running } with
      currentTid := t.tid } = s.put c { t with resumeFlag := false, state := .running } := by
    rw [TusState.put, ← h.tid]
  rw [TusState.yieldBody, if_pos hflag, TusState.setResumeFlag_eq h.slot, TusState.setState_put]
  simp only [hcurrent]

/-- The running thread calls `tus_yield`, which goes on with another thread or returns. -/
theorem tusYield_inv (hs : Sound s) (h : Current s c t) (hawake : Awake t) (tid : Int)
    (site : YieldCaller) (rand : Nat) : Inv (s.tusYield tid site rand) := by
  -- the block with the context of this call saved
  set t' : Tcb := { t with
    context := .inYield c t.serial tid site s.calls, unfinished := some s.calls } with ht'
  have hput := h.put t' rfl h.state
  have hinside : InsideYield c t' := ⟨tid, site, s.calls, rfl, rfl⟩
  unfold TusState.tusYield
  rw [if_neg (by rw [hs.initialized]; exact Bool.noConfusion), h.currentTcb]
  simp only [TusState.saveContext, TusState.modify_eq h.slot, ← ht']
  have hsaved : Current { s.put c t' with calls := s.calls + 1 } c t' :=
    ⟨hput.schedule, hput.slot, hput.tid⟩
  have hsound : Sound { s.put c t' with calls := s.calls + 1 } :=
    ⟨hs.initialized, hs.alg, hs.refused, hs.recoveries⟩
  exact yieldBody_inv hsound hsaved hinside rfl hawake.flag tid site rand

/-! ## The other calls -/

/-- The pick of `tus_exit`, with the caller ended. -/
theorem exitPick_inv (hs : Sound s) (h : Schedule s.threads s.readyQ.toList none) (rand : Nat) :
    Inv (s.exitPick rand) := by
  unfold TusState.exitPick
  by_cases hempty : s.readyQ.toList = []
  · -- nobody is ready: the process ends
    rw [TusState.pickNextTidBySched_empty rand hempty]
    simp only [if_true]
    rw [hempty] at h
    exact ⟨hs, hempty, h⟩
  · -- FCFS picks the first id, RANDOM one at a random position `k`
    obtain ⟨k, hk, q, hpick, hq, -⟩ := TusState.pickNextTidBySched_spec hs.alg rand hempty
    have hmem : s.readyQ.toList[k] ∈ s.readyQ.toList := List.getElem_mem hk
    obtain ⟨n, u, hn, hready, htid⟩ := (h.mem_iff _).mp hmem
    have hget : (s.setQueue q).getTcbByTid s.readyQ.toList[k] = some (n, u) := by
      rw [← htid]
      exact TusState.getTcbByTid_eq (s := s.setQueue q) h hn
    simp only [hpick, if_neg (h.queued_ne_error hmem), hget]
    refine dispatch_inv (hs.queue hq) h ?_ hn hready htid rfl
    rw [h.nodup.erase_getElem k hk]
    exact hq.toList

/-- The running thread ends, and another one runs. -/
theorem tusExit_inv (hs : Sound s) (h : Current s c t) (rand : Nat) : Inv (s.tusExit rand) := by
  unfold TusState.tusExit
  rw [if_neg (by rw [hs.initialized]; exact Bool.noConfusion), h.currentTcb]
  simp only [TusState.setState_eq h.slot, TusState.setResumeFlag_put]
  have hretire := h.schedule.retire h.slot { t with state := .ended, resumeFlag := false } rfl rfl
    rfl
  exact exitPick_inv hs.put hretire rand

/-- A test in the loop of `tus_join` yields, or is the last one. -/
theorem joinTest_inv (hs : Sound s) (h : Current s c t) (hawake : Awake t) {tid : Int}
    {target : Tcb} (hget : s.getTcbByTid tid = some (i, target)) (asked rand : Nat) :
    Inv (s.joinTest tid asked target rand) := by
  obtain ⟨hi, htid, -⟩ := TusState.getTcbByTid_some hget
  unfold TusState.joinTest
  split_ifs with hended
  · exact tusYield_inv hs h hawake _ _ _
  · -- the block of the target is freed, which is not the one of the caller
    rw [not_not] at hended
    subst htid
    have hic : c ≠ i := by
      intro hci
      subst hci
      have hsame := Option.some.inj (h.slot.symm.trans hi)
      rw [← hsame, h.state] at hended
      exact ThreadState.noConfusion hended
    rw [TusState.destroyThread, TusState.findSlotByTid_eq h.schedule hi]
    refine ⟨⟨hs.initialized, hs.alg, hs.refused, hs.recoveries⟩, c, t, ⟨?_, ?_, h.tid⟩, hawake⟩
    · exact h.schedule.free hi hended
    · exact (Function.update_of_ne hic ..).trans h.slot

/-- `tus_join` refuses, or makes its first test. -/
theorem tusJoin_inv (hs : Sound s) (h : Current s c t) (hawake : Awake t) (tid : Int)
    (rand : Nat) : Inv (s.tusJoin tid rand) := by
  unfold TusState.tusJoin
  rw [h.currentTcb]
  simp only
  split_ifs
  · exact h.ret hs hawake _
  · exact h.ret hs hawake _
  · split
    · exact h.ret hs hawake _
    · rename_i i target hget
      exact joinTest_inv hs h hawake hget _ _

/-- A thread that was resumed in `tus_join` makes its next test. -/
theorem joinAgain_inv (hs : Sound s) (h : Current s c t) (hawake : Awake t) (tid : Int)
    (asked : Nat) (rc : Int) (rand : Nat) : Inv (s.joinAgain tid asked rc rand) := by
  unfold TusState.joinAgain
  split_ifs
  · exact h.ret hs hawake _
  · split
    · exact h.ret hs hawake _
    · rename_i i target hget
      exact joinTest_inv hs h hawake hget _ _

/-- The thread is marked as ended and is no longer in the queue, or nothing changes. -/
theorem tusCancel_inv (hs : Sound s) (h : Current s c t) (hawake : Awake t) (tid : Int) :
    Inv (s.tusCancel tid) := by
  unfold TusState.tusCancel
  split_ifs with hbad
  · exact h.ret hs hawake _
  · split
    · exact h.ret hs hawake _
    · rename_i i target hget
      obtain ⟨hi, rfl, -⟩ := TusState.getTcbByTid_some hget
      -- the current thread has been excluded by its id
      have hic : c ≠ i := by
        intro hci
        subst hci
        have hsame := Option.some.inj (h.slot.symm.trans hi)
        exact hbad (Or.inr (Or.inr (by rw [h.tid, hsame])))
      by_cases hended : target.state = .ended
      · rw [if_pos hended]
        exact h.ret hs hawake _
      · -- neither ended nor running
        have hready : target.state = .ready := by
          cases hstate : target.state with
          | ready => rfl
          | running =>
            have hrun := (h.schedule.slot i target hi).running_iff.mp hstate
            exact absurd (Option.some.inj hrun) hic
          | ended => exact absurd hstate hended
        obtain ⟨hremoved, hq⟩ := ReadyQ.rqRemoveTid_mem (h.schedule.queued hi hready)
        have hi' : (s.setQueue (s.readyQ.rqRemoveTid target.tid).2).threads i = some target := hi
        have hcancel := h.schedule.cancel hi { target with state := .ended, resumeFlag := false }
          rfl hready rfl rfl
        rw [← hq.toList] at hcancel
        rw [if_neg hended, if_pos hready]
        simp only [hremoved, TusState.setState_eq hi', TusState.setResumeFlag_put]
        rw [if_neg (by decide)]
        refine ⟨(hs.queue hq).put, c, t, ⟨hcancel, ?_, h.tid⟩, hawake⟩
        exact (Function.update_of_ne hic ..).trans h.slot

/-- The new thread has a free slot and a free id, and waits at the end of the queue. -/
theorem tusCreateThread_inv (hs : Sound s) (h : Current s c t) (hawake : Awake t)
    (tsf targ : Nat) : Inv (s.tusCreateThread tsf targ) := by
  unfold TusState.tusCreateThread
  split_ifs with hbad hfull
  · exact h.ret hs hawake _
  · exact h.ret hs hawake _
  · obtain ⟨i, hslot⟩ := TusState.findFreeSlot_isSome (s := s) (by omega)
    have hfree := TusState.findFreeSlot_some hslot
    obtain ⟨hrange, hfresh⟩ := TusState.allocateTid_spec hfree
    obtain ⟨hcode, hpush⟩ := ReadyQ.rqPush_spec s.allocateTid h.room
    -- a free slot means a free id
    have hne : s.allocateTid ≠ TUS_ERROR := by
      intro herr
      rw [herr] at hrange
      exact absurd hrange.1 (by decide)
    have hic : c ≠ i := by
      intro hci
      subst hci
      rw [h.slot] at hfree
      cases hfree
    -- the new thread is queued and has not run
    have hadd := h.schedule.add (t := s.newTcb s.allocateTid tsf targ) hfree hfresh hrange
      (fun hrun => hic (Option.some.inj hrun)) rfl (.atStart rfl ⟨rfl, tsf, targ, rfl⟩ rfl)
    have hlist : (s.readyQ.rqPush s.allocateTid).2.toList =
        s.readyQ.toList ++ [(s.newTcb s.allocateTid tsf targ).tid] := hpush.toList
    rw [← hlist] at hadd
    simp only [hslot, if_neg hne, hcode]
    rw [if_neg (by decide)]
    refine ⟨⟨hs.initialized, hs.alg, hpush.refused.trans hs.refused, hs.recoveries⟩, c, t,
      ⟨hadd, ?_, h.tid⟩, hawake⟩
    exact (Function.update_of_ne hic ..).trans h.slot

/-! ## Steps and runs -/

/-- Every call of the library. -/
theorem call_inv (hs : Sound s) (h : Current s c t) (hawake : Awake t) (call : Call)
    (rand : Nat) : Inv (s.call call rand) := by
  cases call with
  | init salg =>
    rw [TusState.call, TusState.tusInit, if_pos (Or.inl hs.initialized)]
    exact h.ret hs hawake _
  | createThread tsf targ => exact tusCreateThread_inv hs h hawake tsf targ
  | yield tid => exact tusYield_inv hs h hawake tid _ rand
  | join tid => exact tusJoin_inv hs h hawake tid rand
  | cancel tid => exact tusCancel_inv hs h hawake tid
  | exit => exact tusExit_inv hs h rand

/-- The thread that was switched to goes on: in its program, at its start, or
behind the call of `tus_yield` that it was suspended in. -/
theorem resume_inv {ctx : Context} (hs : Sound s) (h : Current s c t)
    (hsuspended : Suspended c t) (hctx : t.context = ctx) (rand : Nat) :
    Inv (s.resume ctx rand) := by
  cases hsuspended with
  | inYield flag inside =>
    obtain ⟨tid, site, call, hcall, -⟩ := inside
    obtain rfl := hctx.symm.trans hcall
    simp only [TusState.resume, h.slot, if_true]
    -- the flag is up, so `tus_yield` returns
    rw [yieldBody_resumed h flag]
    exact h.putDone hs { t with resumeFlag := false, state := .running } rfl rfl rfl site _
  | atStart flag start unfinished =>
    obtain ⟨-, tsf, targ, hstart⟩ := start
    obtain rfl := hctx.symm.trans hstart
    simp only [TusState.resume, h.currentTcb, TusState.modify_eq h.slot]
    exact ⟨hs.put, c, _, h.put { t with ran := true } rfl h.state, flag, unfinished⟩

/-- Every event keeps the invariant. -/
theorem Inv.step {m : Machine} (h : Inv m) (e : Event) : Inv (m.step e) := by
  obtain ⟨s, pc⟩ := m
  have hs : Sound s := h.sound
  cases pc with
  | user rc =>
    obtain ⟨c, t, hcur, hawake⟩ := h.place
    exact call_inv hs hcur hawake e.call e.rand
  | resume ctx =>
    obtain ⟨c, t, hcur, hsuspended, hctx⟩ := h.place
    exact resume_inv hs hcur hsuspended hctx e.rand
  | joinLoop tid asked rc =>
    obtain ⟨c, t, hcur, hawake⟩ := h.place
    exact joinAgain_inv hs hcur hawake tid asked rc e.rand
  | exited => exact h
  | stray => exact h.place.elim

/-- Every run keeps the invariant. -/
theorem Inv.run {m : Machine} (h : Inv m) (es : List Event) : Inv (m.run es) := by
  induction es generalizing m with
  | nil => exact h
  | cons e es ih => exact ih (h.step e)

/-- After `tus_init` there is one thread, which runs. -/
theorem boot_inv {salg : Int} (h : salg = ALG_FCFS ∨ salg = ALG_RANDOM) :
    Inv (Machine.boot salg) := by
  have hvalid : TusState.validSchedAlg salg = true := decide_eq_true h
  set s : TusState := { TusState.static with
    threads := fun _ => none, readyQ := TusState.static.readyQ.rqInit, schedAlg := salg } with hs
  -- the table is empty, so `find_free_slot` returns one
  have hcount : s.countExistingThreads < TUS_MAXTHREADS := by
    have hzero : s.countExistingThreads = 0 := List.countP_eq_zero.mpr fun i _ => Bool.noConfusion
    rw [hzero]
    decide
  obtain ⟨i, hslot⟩ := TusState.findFreeSlot_isSome hcount
  have hnone : ¬(TusState.static.initialized = true ∨ TusState.validSchedAlg salg = false) := by
    rw [hvalid]
    decide
  rw [Machine.boot, TusState.tusInit, if_neg hnone]
  simp only [← hs, hslot]
  have hrange : 1 ≤ s.mainTcb.tid ∧ s.mainTcb.tid ≤ TUS_MAXTHREADS := by
    show (1 : Int) ≤ 1 ∧ (1 : Int) ≤ 64
    decide
  refine ⟨⟨rfl, h, rfl, rfl⟩, i, s.mainTcb, ⟨Schedule.single rfl hrange, ?_, rfl⟩, rfl, rfl⟩
  exact TusState.put_self s i s.mainTcb

end OsProjects.Tus
