import OsProjects.Tus.Scheduler

/-!
# Thread library — whom `tus_join` waits for

`tus_join` keeps the id of its target while other threads run, and ids are given out
again as soon as somebody else has joined the target. `Machine.reused` is the state in
which that goes wrong: the loop looks the id up again, and a block made since then has
it. **Main result** (`run_joins_iff`): in a run in which this does not happen, and in no
other, each call of `tus_join` removes the block that had the id when the call was made,
or returns `TUS_ERROR` and removes nothing.

What carries it is that a block keeps its id and its serial number and that serial
numbers go up (`Follows`, `Booked`): of two blocks with one id, the later has the
greater serial number.
-/

namespace OsProjects.Tus

variable {s s' s'' : TusState} {c i : Slot} {t : Tcb} {site : YieldCaller} {q : List Int}
  {running : Option Slot} {rc : Option Int}

/-! ## Statements -/

/-- This step is one of a call `tus_join(tid)`: its first, or one behind a `tus_yield` in its
loop. The last argument is the block that had the id when the call was made. -/
inductive JoinStep (m : Machine) (e : Event) (tid : Int) : Option Nat → Prop
  | first {rc : Option Int} (hpc : m.pc = .user rc) (hcall : e.call = .join tid) :
      JoinStep m e tid ((m.tus.getTcbByTid tid).map fun x => x.2.serial)
  | again {asked : Nat} {rc : Int} (hpc : m.pc = .joinLoop tid asked rc) :
      JoinStep m e tid (some asked)

/-- A call of `tus_join` that takes this step waits for the thread it was asked for. -/
structure JoinsItsOwn (m : Machine) (e : Event) : Prop where
  /-- When it returns the id, the thread has ended and its block is what is removed. -/
  returned : ∀ tid asked, tid ≠ TUS_ERROR → JoinStep m e tid asked →
    (m.step e).pc = .user (some tid) → ∃ i t, m.tus.threads i = some t ∧ asked = some t.serial ∧
      t.state = .ended ∧ (m.step e).tus.threads = Function.update m.tus.threads i none
  /-- When the block is gone it returns `TUS_ERROR` and removes nothing. -/
  gone : ∀ tid asked, JoinStep m e tid asked →
    (∀ i t, m.tus.threads i = some t → asked ≠ some t.serial) →
    (m.step e).pc = .user (some TUS_ERROR) ∧ (m.step e).tus.threads = m.tus.threads

/-- The loop of a `tus_join` is about to look its target up again, and the id is that of a
block made after the one it asked for. -/
def Machine.reused (m : Machine) : Bool :=
  match m.pc with
  | .joinLoop tid asked rc =>
    rc != TUS_ERROR && (m.tus.getTcbByTid tid).any fun x => decide (asked < x.2.serial)
  | _ => false

/-! ## What a call does to the blocks -/

/-- The context of a call of `tus_yield` from `site`. -/
inductive SavedBy (site : YieldCaller) : Context → Prop
  | inYield (c : Slot) (serial : Nat) (tid : Int) (call : Nat) :
      SavedBy site (.inYield c serial tid site call)

/-- `s'` has blocks of `s` only, under their ids and serial numbers, and the only new
contexts are those of calls from `site`. -/
structure Follows (site : YieldCaller) (s s' : TusState) : Prop where
  serials : s.serials ≤ s'.serials
  block : ∀ i t', s'.threads i = some t' → ∃ t, s.threads i = some t ∧ t'.tid = t.tid ∧
    t'.serial = t.serial ∧ (t'.context = t.context ∨ SavedBy site t'.context)

/-- A call from `site` that starts in `s` may leave the machine `m`. -/
structure Lands (site : YieldCaller) (s : TusState) (m : Machine) : Prop where
  follows : Follows site s m.tus
  user : ∀ rc, m.pc = .user rc → site = .user
  loop : ∀ tid asked rc, m.pc = .joinLoop tid asked rc → site = .join tid asked
  resume : ∀ ctx, m.pc = .resume ctx →
    (∃ i t, s.threads i = some t ∧ t.context = ctx) ∨ SavedBy site ctx

/-- The blocks and the numbers given out are the same. -/
theorem Follows.of_threads (hthreads : s'.threads = s.threads) (hserials : s'.serials = s.serials) :
    Follows site s s' :=
  ⟨Nat.le_of_eq hserials.symm, fun i t hi => ⟨t, by rw [← hthreads, hi], rfl, rfl, Or.inl rfl⟩⟩

theorem Follows.refl (s : TusState) : Follows site s s := .of_threads rfl rfl

/-- One change after another. -/
theorem Follows.trans (h : Follows site s s') (h' : Follows site s' s'') : Follows site s s'' := by
  refine ⟨h.serials.trans h'.serials, ?_⟩
  intro i t'' hi
  obtain ⟨t', hi', htid', hserial', hctx'⟩ := h'.block i t'' hi
  obtain ⟨t, hi, htid, hserial, hctx⟩ := h.block i t' hi'
  refine ⟨t, hi, htid'.trans htid, hserial'.trans hserial, ?_⟩
  rcases hctx' with hctx' | hnew
  · rw [hctx']
    exact hctx
  · exact Or.inr hnew

/-- An assignment to a block that leaves its id and its serial number alone. -/
theorem follows_modify (s : TusState) (i : Slot) {f : Tcb → Tcb}
    (hf : ∀ t, (f t).tid = t.tid ∧ (f t).serial = t.serial ∧
      ((f t).context = t.context ∨ SavedBy site (f t).context)) :
    Follows site s (s.modify i f) := by
  refine ⟨Nat.le_refl _, ?_⟩
  intro j t' hj
  -- the block that is changed, or another one
  by_cases hji : j = i
  · subst hji
    change Function.update s.threads j ((s.threads j).map f) j = some t' at hj
    rw [Function.update_self, Option.map_eq_some_iff] at hj
    obtain ⟨t, ht, rfl⟩ := hj
    exact ⟨t, ht, hf t⟩
  · change Function.update s.threads i ((s.threads i).map f) j = some t' at hj
    rw [Function.update_of_ne hji] at hj
    exact ⟨t', hj, rfl, rfl, Or.inl rfl⟩

theorem follows_setState (s : TusState) (i : Slot) (state : ThreadState) :
    Follows site s (s.setState i state) :=
  follows_modify s i fun _ => ⟨rfl, rfl, Or.inl rfl⟩

theorem follows_setResumeFlag (s : TusState) (i : Slot) (flag : Bool) :
    Follows site s (s.setResumeFlag i flag) :=
  follows_modify s i fun _ => ⟨rfl, rfl, Or.inl rfl⟩

theorem follows_setQueue (s : TusState) (q : ReadyQ) : Follows site s (s.setQueue q) :=
  .of_threads rfl rfl

theorem follows_recover (s : TusState) (r : Recovery) : Follows site s (s.recover r) :=
  .of_threads rfl rfl

/-- The context that is saved is of this call. -/
theorem follows_saveContext (s : TusState) (c : Slot) (caller : Tcb) (tid : Int) :
    Follows site s (s.saveContext c caller tid site) := by
  have hsave : Follows site s (s.modify c fun t => { t with
      context := .inYield c caller.serial tid site s.calls, unfinished := some s.calls }) :=
    follows_modify s c fun _ => ⟨rfl, rfl, Or.inr (.inYield ..)⟩
  exact hsave.trans (.of_threads rfl rfl)

/-- A choice changes the queue only. -/
theorem follows_pickNextTidBySched (s : TusState) (rand : Nat) :
    Follows site s (s.pickNextTidBySched rand).2 := by
  unfold TusState.pickNextTidBySched
  split_ifs
  · exact .refl s
  · exact follows_setQueue s _
  · exact follows_setQueue s _
  · exact .refl s

/-- A block is removed. -/
theorem follows_remove {slot : Slot} (hthreads : s'.threads = Function.update s.threads slot none)
    (hserials : s.serials ≤ s'.serials) : Follows site s s' := by
  refine ⟨hserials, ?_⟩
  intro i t hi
  rw [hthreads] at hi
  -- the removed block is none of those that are left
  have hne : i ≠ slot := by
    rintro rfl
    rw [Function.update_self] at hi
    cases hi
  exact ⟨t, (Function.update_of_ne hne ..).symm.trans hi, rfl, rfl, Or.inl rfl⟩

/-- A block that is freed leaves no context behind. -/
theorem follows_destroyThread (s : TusState) (tid : Int) :
    Follows site s (s.destroyThread tid) := by
  unfold TusState.destroyThread
  cases s.findSlotByTid tid with
  | none => exact .refl s
  | some slot => exact follows_remove rfl (Nat.le_refl _)

/-- A change before the switch does not matter. -/
theorem Lands.of_follows {m : Machine} (h : Follows site s s') (hm : Lands site s' m) :
    Lands site s m := by
  refine ⟨h.trans hm.follows, hm.user, hm.loop, ?_⟩
  intro ctx hctx
  rcases hm.resume ctx hctx with ⟨i, t', hi, rfl⟩ | hnew
  · obtain ⟨t, ht, -, -, hsame | hnew⟩ := h.block i t' hi
    · exact Or.inl ⟨i, t, ht, hsame.symm⟩
    · exact Or.inr hnew
  · exact Or.inr hnew

/-! ### `tus_yield` -/

/-- `tus_yield` returns to the call that it was made in. -/
theorem lands_yieldReturn (s : TusState) (site : YieldCaller) (rc : Int) :
    Lands site s (s.yieldReturn site rc) := by
  cases site with
  | user => exact ⟨.refl s, fun _ _ => rfl, fun _ _ _ h => (by cases h), fun _ h => (by cases h)⟩
  | join tid asked =>
    refine ⟨.refl s, fun _ h => (by cases h), ?_, fun _ h => (by cases h)⟩
    intro _ _ _ h
    injection h with htid hasked
    rw [htid, hasked]

theorem lands_yieldDone (s : TusState) (c : Slot) (site : YieldCaller) (rc : Int) :
    Lands site s (s.yieldDone c site rc) := by
  refine (lands_yieldReturn _ site rc).of_follows (follows_modify s c fun _ => ?_)
  exact ⟨rfl, rfl, Or.inl rfl⟩

/-- The switch goes to a context that was saved before. -/
theorem lands_dispatch {next : Slot} {nextTcb : Tcb} (hnext : s.threads next = some nextTcb)
    (hs' : Follows site s s') (tid : Int) : Lands site s (s'.dispatch next nextTcb tid) := by
  refine ⟨hs'.trans ((follows_setState s' next .running).trans (.of_threads rfl rfl)),
    fun _ h => (by cases h), fun _ _ _ h => (by cases h), fun ctx h => ?_⟩
  injection h with hctx
  exact Or.inl ⟨next, nextTcb, hnext, hctx⟩

/-- A switch resumes a context that was saved. -/
theorem lands_yieldSwitch (s : TusState) (c : Slot) (caller : Tcb) (tid : Int)
    (site : YieldCaller) (x : Int) : Lands site s (s.yieldSwitch c caller tid site x) := by
  unfold TusState.yieldSwitch
  split
  · -- no thread of that id
    refine (lands_yieldDone _ c site TUS_ERROR).of_follows ?_
    refine (follows_recover s .noNext).trans (.trans ?_ ((follows_setResumeFlag _ c false).trans
      (follows_setState _ c .running)))
    split_ifs
    · exact follows_setQueue _ _
    · exact .refl _
  · next next nextTcb hget =>
    refine lands_dispatch (TusState.getTcbByTid_some hget).1 (.trans ?_
      (follows_setState _ c .ready)) x
    exact follows_modify s c fun _ => ⟨rfl, rfl, Or.inl rfl⟩

/-- An error return of `tus_yield`, with the flag down and the caller running again. -/
theorem lands_giveUp (s : TusState) (c : Slot) (site : YieldCaller) :
    Lands site s (((s.setResumeFlag c false).setState c .running).yieldDone c site TUS_ERROR) :=
  (lands_yieldDone _ c site TUS_ERROR).of_follows
    ((follows_setResumeFlag s c false).trans (follows_setState _ c .running))

theorem lands_yieldPick (s : TusState) (c : Slot) (caller : Tcb) (site : YieldCaller)
    (rand : Nat) : Lands site s (s.yieldPick c caller site rand) := by
  have hpick : Follows site s (s.pickNextTidBySched rand).2 := follows_pickNextTidBySched s rand
  unfold TusState.yieldPick
  simp only
  split_ifs
  · exact (lands_giveUp _ c site).of_follows
      ((hpick.trans (follows_recover _ .noPick)).trans (follows_setQueue _ _))
  · exact (lands_yieldSwitch _ c caller TUS_ANY site _).of_follows hpick

theorem lands_yieldAny (s : TusState) (c : Slot) (caller : Tcb) (site : YieldCaller)
    (rand : Nat) : Lands site s (s.yieldAny c caller site rand) := by
  have hpush : Follows site s ((s.setState c .ready).setQueue
      ((s.setState c .ready).readyQ.rqPush caller.tid).2) :=
    (follows_setState s c .ready).trans (follows_setQueue _ _)
  unfold TusState.yieldAny
  simp only
  split_ifs
  · exact (lands_giveUp _ c site).of_follows hpush
  · exact (lands_yieldPick _ c caller site rand).of_follows hpush

theorem lands_yieldTake (s : TusState) (c : Slot) (caller : Tcb) (tid : Int)
    (site : YieldCaller) : Lands site s (s.yieldTake c caller tid site) := by
  unfold TusState.yieldTake
  simp only
  split_ifs
  · exact (lands_yieldDone _ c site TUS_ERROR).of_follows
      (((follows_setQueue s _).trans (follows_recover _ _)).trans (follows_setResumeFlag _ c false))
  · exact (lands_giveUp _ c site).of_follows ((((follows_setQueue s _).trans
      (follows_setState _ c .ready)).trans (follows_setQueue _ _)).trans (follows_setQueue _ _))
  · exact (lands_yieldSwitch _ c caller tid site tid).of_follows (((follows_setQueue s _).trans
      (follows_setState _ c .ready)).trans (follows_setQueue _ _))

theorem lands_yieldTo (s : TusState) (c : Slot) (caller : Tcb) (tid : Int) (site : YieldCaller) :
    Lands site s (s.yieldTo c caller tid site) := by
  have hfail : Lands site s ((s.setResumeFlag c false).yieldDone c site TUS_ERROR) :=
    (lands_yieldDone _ c site TUS_ERROR).of_follows (follows_setResumeFlag s c false)
  unfold TusState.yieldTo
  split_ifs
  · -- a yield to itself
    refine (lands_yieldDone _ c site caller.tid).of_follows (.trans ?_
      ((follows_setState _ c .running).trans (follows_setResumeFlag _ c false)))
    exact follows_modify s c fun _ => ⟨rfl, rfl, Or.inl rfl⟩
  · split
    · exact hfail
    · split_ifs
      · exact hfail
      · exact lands_yieldTake s c caller tid site

theorem lands_yieldBody (s : TusState) (c : Slot) (caller : Tcb) (tid : Int) (site : YieldCaller)
    (rand : Nat) : Lands site s (s.yieldBody c caller tid site rand) := by
  have hup : Follows site s (s.setResumeFlag c true) := follows_setResumeFlag s c true
  unfold TusState.yieldBody
  split_ifs
  · -- the second return of `getcontext`
    refine (lands_yieldDone _ c site caller.yieldResult).of_follows ?_
    exact ((follows_setResumeFlag s c false).trans (follows_setState _ c .running)).trans
      (.of_threads rfl rfl)
  · exact (lands_yieldAny _ c caller site rand).of_follows hup
  · exact (lands_yieldTo _ c caller tid site).of_follows hup
  · exact (lands_yieldDone _ c site TUS_ERROR).of_follows
      (hup.trans (follows_setResumeFlag _ c false))

/-- `tus_yield` ends in a saved context or returns to its own call. -/
theorem lands_tusYield (s : TusState) (tid : Int) (site : YieldCaller) (rand : Nat) :
    Lands site s (s.tusYield tid site rand) := by
  unfold TusState.tusYield
  split_ifs
  · exact lands_yieldReturn s site TUS_ERROR
  · split
    · exact (lands_yieldReturn _ site TUS_ERROR).of_follows (follows_recover s .noCaller)
    · exact (lands_yieldBody _ _ _ tid site rand).of_follows (follows_saveContext s _ _ tid)

/-! ### The other calls -/

/-- A return to the program. -/
theorem lands_ret (h : Follows .user s s') (rc : Option Int) : Lands .user s ⟨s', .user rc⟩ :=
  ⟨h, fun _ _ => rfl, fun _ _ _ h => (by cases h), fun _ h => (by cases h)⟩

theorem lands_exited (h : Follows site s s') : Lands site s ⟨s', .exited⟩ :=
  ⟨h, fun _ h => (by cases h), fun _ _ _ h => (by cases h), fun _ h => (by cases h)⟩

theorem lands_stray (s : TusState) : Lands site s ⟨s, .stray⟩ :=
  ⟨.refl s, fun _ h => (by cases h), fun _ _ _ h => (by cases h), fun _ h => (by cases h)⟩

theorem lands_tusExit (s : TusState) (rand : Nat) : Lands .user s (s.tusExit rand) := by
  -- the caller is marked before the next thread is picked
  have hpick : ∀ u : TusState, Lands .user u (u.exitPick rand) := by
    intro u
    have hnext : Follows .user u (u.pickNextTidBySched rand).2 := follows_pickNextTidBySched u rand
    unfold TusState.exitPick
    simp only
    split_ifs
    · exact lands_exited hnext
    · split
      · exact lands_exited (hnext.trans (follows_recover _ .noNext))
      · next next nextTcb hget =>
        have hslot := (TusState.getTcbByTid_some hget).1
        exact (lands_dispatch hslot (.refl _) _).of_follows hnext
  unfold TusState.tusExit
  split_ifs
  · exact lands_exited (.refl s)
  · split
    · exact lands_exited (follows_recover s .noCaller)
    · exact (hpick _).of_follows ((follows_setState s _ .ended).trans (follows_setResumeFlag _ _ _))

theorem lands_tusCancel (s : TusState) (tid : Int) : Lands .user s (s.tusCancel tid) := by
  unfold TusState.tusCancel
  split_ifs
  · -- the checks, one after the other
    exact lands_ret (.refl s) _
  · split
    · exact lands_ret (.refl s) _
    · split_ifs
      · exact lands_ret (.refl s) _
      all_goals
        simp only
        split_ifs
        · -- the queue has lost the id
          exact lands_ret ((follows_setQueue s _).trans (follows_recover _ _)) _
        · exact lands_ret (((follows_setQueue s _).trans (follows_setState _ _ _)).trans
            (follows_setResumeFlag _ _ _)) _

/-- The loop test of `tus_join` ends the call or yields on its behalf. -/
theorem lands_joinTest (s : TusState) (tid : Int) (asked : Nat) (target : Tcb) (rand : Nat) :
    Lands .user s (s.joinTest tid asked target rand) ∨
      Lands (.join tid asked) s (s.joinTest tid asked target rand) := by
  unfold TusState.joinTest
  split_ifs
  · exact Or.inr (lands_tusYield s TUS_ANY _ rand)
  · exact Or.inl (lands_ret (follows_destroyThread s tid) _)

/-- `tus_join` returns to its caller or enters its loop, for the thread it has found. -/
theorem lands_tusJoin (s : TusState) (tid : Int) (rand : Nat) :
    Lands .user s (s.tusJoin tid rand) ∨ ∃ i target, s.getTcbByTid tid = some (i, target) ∧
      Lands (.join tid target.serial) s (s.tusJoin tid rand) := by
  unfold TusState.tusJoin
  split_ifs
  · -- the checks in front of the loop
    exact Or.inl (lands_ret (.refl s) _)
  · split
    · exact Or.inl (lands_ret (follows_recover s _) _)
    · split_ifs
      · exact Or.inl (lands_ret (.refl s) _)
      · split
        · exact Or.inl (lands_ret (.refl s) _)
        · -- the first test
          next i target hget =>
          rcases lands_joinTest s tid target.serial target rand with huser | hjoin
          · exact Or.inl huser
          · exact Or.inr ⟨i, target, hget, hjoin⟩

/-- In the loop it goes on for the same thread, or returns. -/
theorem lands_joinAgain (s : TusState) (tid : Int) (asked : Nat) (rc : Int) (rand : Nat) :
    Lands .user s (s.joinAgain tid asked rc rand) ∨
      Lands (.join tid asked) s (s.joinAgain tid asked rc rand) := by
  unfold TusState.joinAgain
  split_ifs
  · exact Or.inl (lands_ret (.refl s) _)
  · split
    · exact Or.inl (lands_ret (.refl s) _)
    · exact lands_joinTest s tid asked _ rand

/-- What `setcontext` continues is a call from the place that the context was saved for. -/
theorem lands_resume (s : TusState) (ctx : Context) (rand : Nat) :
    ∃ site, Lands site s (s.resume ctx rand) ∧ (site = .user ∨ SavedBy site ctx) := by
  cases ctx with
  -- no program has this context
  | inInit => exact ⟨.user, lands_stray s, Or.inl rfl⟩
  -- a thread starts
  | start tsf targ =>
    refine ⟨.user, ?_, Or.inl rfl⟩
    unfold TusState.resume
    simp only
    split
    · exact lands_stray s
    · refine lands_ret (follows_modify s _ fun _ => ?_) _
      exact ⟨rfl, rfl, Or.inl rfl⟩
  -- `tus_yield` goes on where it was suspended
  | inYield c serial tid site call =>
    refine ⟨site, ?_, Or.inr (.inYield ..)⟩
    unfold TusState.resume
    simp only
    split
    · exact lands_stray s
    · split_ifs
      · exact lands_yieldBody s c _ tid site rand
      · exact lands_stray s

/-! ## The books -/

/-- What is known of the block number `asked` that a `tus_join(tid)` was called for: a block
under this id is no older, and no block has its number under another id. -/
structure Asked (s : TusState) (tid : Int) (asked : Nat) : Prop where
  lt : asked < s.serials
  le : ∀ i t, s.threads i = some t → t.tid = tid → asked ≤ t.serial
  own : ∀ i t, s.threads i = some t → t.serial = asked → t.tid = tid

/-- A `tus_join(tid)` for the block number `asked` goes on in `m`, or may do so later. -/
inductive Pending (m : Machine) (tid : Int) (asked : Nat) : Prop
  | loop {rc : Int} (hpc : m.pc = .joinLoop tid asked rc)
  | saved {i : Slot} {t : Tcb} (hi : m.tus.threads i = some t)
      (hctx : SavedBy (.join tid asked) t.context)
  | switch {ctx : Context} (hpc : m.pc = .resume ctx) (hctx : SavedBy (.join tid asked) ctx)

/-- Serial numbers are given out once, in order, and every pending `tus_join` knows the one
it asked for. -/
structure Booked (m : Machine) : Prop where
  serial_lt : ∀ i t, m.tus.threads i = some t → t.serial < m.tus.serials
  serial_inj : ∀ i j t u, m.tus.threads i = some t → m.tus.threads j = some u →
    t.serial = u.serial → i = j
  pending : ∀ tid asked, Pending m tid asked → Asked m.tus tid asked

variable {m m' : Machine} {tid : Int} {asked : Nat} {e : Event}

/-- A context was saved by one call. -/
theorem SavedBy.unique {ctx : Context} {site' : YieldCaller} (h : SavedBy site ctx)
    (h' : SavedBy site' ctx) : site = site' := by
  cases h
  cases h'
  rfl

/-- The block that was found at the call is still that of the id, or the id is free, or has
been given out anew. -/
theorem Asked.follows (h : Asked s tid asked) (hs : Follows site s s') : Asked s' tid asked := by
  refine ⟨Nat.lt_of_lt_of_le h.lt hs.serials, ?_, ?_⟩
  · intro i t' hi htid
    obtain ⟨t, ht, htid', hserial, -⟩ := hs.block i t' hi
    rw [hserial]
    exact h.le i t ht (htid'.symm.trans htid)
  · intro i t' hi hserial
    obtain ⟨t, ht, htid', hserial', -⟩ := hs.block i t' hi
    rw [htid']
    exact h.own i t ht (hserial'.symm.trans hserial)

/-- A call that starts with the books in order leaves them so. -/
theorem Booked.lands (h : Booked m) (hm : Lands site m.tus m')
    (hsite : ∀ tid asked, site = .join tid asked → Asked m.tus tid asked) : Booked m' where
  serial_lt := by
    intro i t' hi
    obtain ⟨t, ht, -, hserial, -⟩ := hm.follows.block i t' hi
    rw [hserial]
    exact Nat.lt_of_lt_of_le (h.serial_lt i t ht) hm.follows.serials
  serial_inj := by
    intro i j t' u' hi hj hsame
    obtain ⟨t, ht, -, hserial, -⟩ := hm.follows.block i t' hi
    obtain ⟨u, hu, -, hserial', -⟩ := hm.follows.block j u' hj
    exact h.serial_inj i j t u ht hu (by rw [← hserial, ← hserial', hsame])
  pending := by
    intro tid asked hpending
    refine Asked.follows ?_ hm.follows
    -- it was pending before, or this call has just been made on behalf of it
    cases hpending with
    | loop hpc => exact hsite tid asked (hm.loop _ _ _ hpc)
    | saved hi hctx =>
      obtain ⟨t, ht, -, -, hsame | hnew⟩ := hm.follows.block _ _ hi
      · rw [hsame] at hctx
        exact h.pending tid asked (.saved ht hctx)
      · exact hsite tid asked (hnew.unique hctx)
    | switch hpc hctx =>
      rcases hm.resume _ hpc with ⟨i, t, ht, rfl⟩ | hnew
      · exact h.pending tid asked (.saved ht hctx)
      · exact hsite tid asked (hnew.unique hctx)

/-- A return into a program owes nothing. -/
theorem Booked.ret (h : Booked m) (hm : Lands .user m.tus m') : Booked m' :=
  h.lands hm fun _ _ hsite => (by cases hsite)

/-- Whoever has the id when the call is made is the one asked for. -/
theorem Booked.asked_of_get (h : Booked m) (hsched : Schedule m.tus.threads q running)
    (hget : m.tus.getTcbByTid tid = some (i, t)) : Asked m.tus tid t.serial := by
  obtain ⟨hi, htid, -⟩ := TusState.getTcbByTid_some hget
  refine ⟨h.serial_lt i t hi, ?_, ?_⟩
  · intro j u hj hu
    obtain rfl : j = i := hsched.tid_inj j i u t hj hi (hu.trans htid.symm)
    rw [Option.some.inj (hi.symm.trans hj)]
  · intro j u hj hu
    obtain rfl : j = i := h.serial_inj j i u t hj hi hu
    rw [← Option.some.inj (hi.symm.trans hj)]
    exact htid

/-- A new block has the next serial number. -/
theorem Booked.add (h : Booked ⟨s, .user rc⟩) {slot : Slot} (hserial : t.serial = s.serials)
    (hnew : ∀ tid asked, ¬ SavedBy (.join tid asked) t.context)
    (hthreads : s'.threads = Function.update s.threads slot (some t))
    (hserials : s'.serials = s.serials + 1) (rc' : Option Int) : Booked ⟨s', .user rc'⟩ := by
  -- a block of the new table is an old one or the new one
  have hblock : ∀ i u, s'.threads i = some u → s.threads i = some u ∨ i = slot ∧ u = t := by
    intro i u hi
    rw [hthreads] at hi
    by_cases hne : i = slot
    · subst hne
      rw [Function.update_self] at hi
      exact Or.inr ⟨rfl, (Option.some.inj hi).symm⟩
    · rw [Function.update_of_ne hne] at hi
      exact Or.inl hi
  have hlt : ∀ i u, s.threads i = some u → u.serial < s.serials := h.serial_lt
  refine ⟨?_, ?_, ?_⟩
  · intro i u hi
    show u.serial < s'.serials
    rw [hserials]
    rcases hblock i u hi with hold | ⟨-, rfl⟩
    · exact Nat.lt_succ_of_lt (hlt i u hold)
    · omega
  · intro i j u v hi hj hsame
    rcases hblock i u hi with hold | ⟨rfl, rfl⟩
    · rcases hblock j v hj with hold' | ⟨rfl, rfl⟩
      · exact h.serial_inj i j u v hold hold' hsame
      · have := hlt i u hold
        omega
    · rcases hblock j v hj with hold' | ⟨rfl, rfl⟩
      · have := hlt j v hold'
        omega
      · rfl
  · -- the new block waits for nobody, and nobody has asked for it yet
    intro tid asked hpending
    have hasked : Asked s tid asked := by
      cases hpending with
      | loop hpc => cases hpc
      | saved hi hctx =>
        rcases hblock _ _ hi with hold | ⟨-, rfl⟩
        · exact h.pending tid asked (.saved hold hctx)
        · exact absurd hctx (hnew tid asked)
      | switch hpc => cases hpc
    have hasked_lt := hasked.lt
    refine ⟨?_, ?_, ?_⟩
    · show asked < s'.serials
      omega
    · intro i u hi htid
      rcases hblock i u hi with hold | ⟨-, rfl⟩
      · exact hasked.le i u hold htid
      · omega
    · intro i u hi hsame
      rcases hblock i u hi with hold | ⟨-, rfl⟩
      · exact hasked.own i u hold hsame
      · omega

/-- A new thread takes a new number. -/
theorem Booked.create (h : Booked ⟨s, .user rc⟩) (tsf targ : Nat) :
    Booked (s.tusCreateThread tsf targ) := by
  unfold TusState.tusCreateThread
  split_ifs
  · -- the checks, and an id
    exact h.ret (lands_ret (.refl s) _)
  · exact h.ret (lands_ret (.refl s) _)
  · split
    · exact h.ret (lands_ret (follows_recover s _) _)
    · next slot hslot =>
      simp only
      split_ifs
      · exact h.ret (lands_ret (follows_recover s _) _)
      · -- the queue is full: the block is taken back
        exact h.ret (lands_ret (follows_remove (Function.update_idem ..) (Nat.le_succ _)) _)
      · -- the new block was never suspended
        refine h.add (t := s.newTcb s.allocateTid tsf targ) rfl (fun _ _ hctx => ?_) rfl rfl _
        cases hctx

/-! ## Steps -/

/-- Every event keeps the books. -/
theorem Booked.step (h : Booked m) (hinv : Inv m) (e : Event) : Booked (m.step e) := by
  obtain ⟨s, pc⟩ := m
  cases pc with
  | user rc =>
    obtain ⟨c, t, hcur, -⟩ := hinv.place
    -- a call, one case for each function of the library
    show Booked (s.call e.call e.rand)
    cases e.call with
    | init salg =>
      have hinit : s.initialized = true := hinv.sound.initialized
      rw [TusState.call, TusState.tusInit, if_pos (Or.inl hinit)]
      exact h.ret (lands_ret (.refl s) _)
    | createThread tsf targ => exact h.create tsf targ
    | yield tid => exact h.ret (lands_tusYield s tid .user e.rand)
    | join tid =>
      rcases lands_tusJoin s tid e.rand with huser | ⟨i, target, hget, hjoin⟩
      · exact h.ret huser
      · refine h.lands hjoin ?_
        -- `tus_join` notes the block that has the id now
        intro tid' asked hsite
        injection hsite with htid hasked
        subst htid hasked
        exact h.asked_of_get hcur.schedule hget
    | cancel tid => exact h.ret (lands_tusCancel s tid)
    | exit => exact h.ret (lands_tusExit s e.rand)
  | resume ctx =>
    obtain ⟨site, hland, huser | hsaved⟩ := lands_resume s ctx e.rand
    · exact h.lands hland fun tid asked hsite => (by rw [huser] at hsite; cases hsite)
    · -- the context was saved in a join, which goes on waiting for its block
      refine h.lands hland ?_
      intro tid asked hsite
      subst hsite
      exact h.pending tid asked (.switch rfl hsaved)
  | joinLoop tid asked rc =>
    rcases lands_joinAgain s tid asked rc e.rand with huser | hjoin
    · exact h.ret huser
    · refine h.lands hjoin ?_
      intro tid' asked' hsite
      injection hsite with htid hasked
      subst htid hasked
      exact h.pending tid asked (.loop rfl)
  | exited => exact h
  | stray => exact h

/-- The main thread has number 0. -/
theorem boot_booked {salg : Int} (h : salg = ALG_FCFS ∨ salg = ALG_RANDOM) :
    Booked (Machine.boot salg) := by
  have hnone : ¬(TusState.static.initialized = true ∨ TusState.validSchedAlg salg = false) := by
    have hvalid : TusState.validSchedAlg salg = true := decide_eq_true h
    rw [hvalid]
    decide
  -- with an empty table there is nothing to check
  have hempty : Booked ⟨{ TusState.static with
      threads := fun _ => none, readyQ := TusState.static.readyQ.rqInit, schedAlg := salg },
      .user none⟩ := by
    refine ⟨?_, ?_, ?_⟩
    · intro i t hi
      cases hi
    · intro i j t u hi
      cases hi
    · intro tid asked hpending
      cases hpending with
      | loop hpc => cases hpc
      | saved hi => cases hi
      | switch hpc => cases hpc
  rw [Machine.boot, TusState.tusInit, if_neg hnone]
  simp only
  split
  · exact hempty.ret (lands_ret (follows_recover _ _) _)
  · refine hempty.add (t := TusState.mainTcb _) rfl (fun _ _ hctx => ?_) rfl rfl _
    cases hctx

/-! ## One step of a join -/

/-- The loop ends with the block of whoever has the id now. -/
theorem joinTest_ended (hsched : Schedule s.threads q running) {target : Tcb}
    (hget : s.getTcbByTid tid = some (i, target)) (hended : target.state = .ended)
    (asked rand : Nat) : s.joinTest tid asked target rand =
      ⟨{ s with threads := Function.update s.threads i none }, .user (some tid)⟩ := by
  obtain ⟨hi, rfl, -⟩ := TusState.getTcbByTid_some hget
  unfold TusState.joinTest
  rw [if_neg (not_not_intro hended), TusState.destroyThread, TusState.findSlotByTid_eq hsched hi]
  rfl

/-- Before its target has ended, `tus_join` does not return. -/
theorem joinTest_waits {target : Tcb} (hstate : target.state ≠ .ended) (tid : Int)
    (asked rand : Nat) (rc : Option Int) : (s.joinTest tid asked target rand).pc ≠ .user rc := by
  intro hpc
  unfold TusState.joinTest at hpc
  rw [if_pos hstate] at hpc
  -- a return of this `tus_yield` goes to the loop
  have hsite := (lands_tusYield s TUS_ANY (.join tid asked) rand).user _ hpc
  cases hsite

/-- A return of the id by the loop test removes the target, which has ended. -/
theorem joinTest_returned (hsched : Schedule s.threads q running) {target : Tcb}
    (hget : s.getTcbByTid tid = some (i, target)) {asked rand : Nat} {rc : Option Int}
    (hpc : (s.joinTest tid asked target rand).pc = .user rc) : target.state = .ended ∧
      (s.joinTest tid asked target rand).tus.threads = Function.update s.threads i none := by
  by_cases hended : target.state = .ended
  · rw [joinTest_ended hsched hget hended]
    exact ⟨hended, rfl⟩
  · exact absurd hpc (joinTest_waits hended tid asked rand rc)

/-- The id belongs to a younger thread when the loop looks it up again. -/
theorem reused_iff : m.reused = true ↔ ∃ tid asked rc i t, m.pc = .joinLoop tid asked rc ∧
    rc ≠ TUS_ERROR ∧ m.tus.getTcbByTid tid = some (i, t) ∧ asked < t.serial := by
  unfold Machine.reused
  constructor
  · -- the library is at the test
    intro h
    split at h
    · next tid asked rc hpc =>
      rw [Bool.and_eq_true, bne_iff_ne, Option.any_eq_true] at h
      obtain ⟨hrc, ⟨i, t⟩, hget, hlt⟩ := h
      exact ⟨tid, asked, rc, i, t, hpc, hrc, hget, of_decide_eq_true hlt⟩
    · cases h
  · -- a younger thread has the id
    rintro ⟨tid, asked, rc, i, t, hpc, hrc, hget, hlt⟩
    rw [hpc]
    simp only [hget, Option.any_some, Bool.and_eq_true, bne_iff_ne]
    exact ⟨hrc, decide_eq_true hlt⟩

/-- With its id given out again, a pending join does not return `TUS_ERROR`. -/
theorem not_joinsItsOwn (hinv : Inv m) (h : Booked m) (hreused : m.reused = true) :
    ¬ JoinsItsOwn m e := by
  obtain ⟨tid, asked, rc, i, t, hpc, hrc, hget, hlt⟩ := reused_iff.mp hreused
  obtain ⟨s, pc⟩ := m
  obtain rfl : pc = .joinLoop tid asked rc := hpc
  obtain ⟨c, u, hcur, -⟩ := hinv.place
  have hasked := h.pending tid asked (.loop rfl)
  obtain ⟨hi, htid, hpos⟩ := TusState.getTcbByTid_some hget
  intro hjoin
  -- no block has the number that was asked for: it would have the same id
  have hgone : ∀ j v, s.threads j = some v → some asked ≠ some v.serial := by
    intro j v hj hsame
    have hserial : v.serial = asked := (Option.some.inj hsame).symm
    obtain rfl : j = i := hcur.schedule.tid_inj j i v t hj hi ((hasked.own j v hj hserial).trans
      htid.symm)
    have hvt := Option.some.inj (hj.symm.trans hi)
    rw [← hvt, hserial] at hlt
    exact Nat.lt_irrefl _ hlt
  obtain ⟨hreturn, -⟩ := hjoin.gone tid (some asked) (.again rfl) hgone
  have hstep : (Machine.mk s (.joinLoop tid asked rc)).step e = s.joinTest tid asked t e.rand := by
    show s.joinAgain tid asked rc e.rand = _
    unfold TusState.joinAgain
    rw [if_neg hrc, hget]
  rw [hstep] at hreturn
  by_cases hended : t.state = .ended
  · rw [joinTest_ended hcur.schedule hget hended] at hreturn
    injection hreturn with hsome
    rw [Option.some.inj hsome] at hpos
    exact absurd hpos (by decide)
  · exact joinTest_waits hended tid asked e.rand _ hreturn

theorem ret_error_pc {rc : Int} (hrc : rc ≠ TUS_ERROR) :
    (s.ret TUS_ERROR).pc ≠ .user (some rc) := by
  intro hpc
  injection hpc with hsome
  exact hrc (Option.some.inj hsome).symm

/-- The first step of a call: the target is whoever has the id. -/
theorem tusJoin_own (h : Current s c t) (tid : Int) (rand : Nat) :
    (∀ rc, rc ≠ TUS_ERROR → (s.tusJoin tid rand).pc = .user (some rc) →
      ∃ i target, s.getTcbByTid tid = some (i, target) ∧ target.state = .ended ∧
        (s.tusJoin tid rand).tus.threads = Function.update s.threads i none) ∧
    (s.getTcbByTid tid = none → (s.tusJoin tid rand).pc = .user (some TUS_ERROR) ∧
      (s.tusJoin tid rand).tus.threads = s.threads) := by
  unfold TusState.tusJoin
  rw [h.currentTcb]
  simp only
  -- the call is refused
  split_ifs with hbad hself
  · exact ⟨fun rc hrc hpc => absurd hpc (ret_error_pc hrc), fun _ => ⟨rfl, rfl⟩⟩
  · exact ⟨fun rc hrc hpc => absurd hpc (ret_error_pc hrc), fun _ => ⟨rfl, rfl⟩⟩
  · -- a thread is looked up
    cases hget : s.getTcbByTid tid with
    | none => exact ⟨fun rc hrc hpc => absurd hpc (ret_error_pc hrc), fun _ => ⟨rfl, rfl⟩⟩
    | some p =>
      obtain ⟨i, target⟩ := p
      refine ⟨?_, fun hnone => (by cases hnone)⟩
      intro rc _ hpc
      obtain ⟨hended, hthreads⟩ := joinTest_returned h.schedule hget hpc
      exact ⟨i, target, rfl, hended, hthreads⟩

/-- A later step of a call: the block found is the one that was asked for, or there is none. -/
theorem joinAgain_own (h : Current s c t) {rc : Int} (rand : Nat) (hasked : Asked s tid asked)
    (hfresh : rc ≠ TUS_ERROR → ∀ i target, s.getTcbByTid tid = some (i, target) →
      ¬ asked < target.serial) :
    (∀ rc', rc' ≠ TUS_ERROR → (s.joinAgain tid asked rc rand).pc = .user (some rc') →
      ∃ i target, s.threads i = some target ∧ target.serial = asked ∧ target.state = .ended ∧
        (s.joinAgain tid asked rc rand).tus.threads = Function.update s.threads i none) ∧
    ((∀ i target, s.threads i = some target → target.serial ≠ asked) →
      (s.joinAgain tid asked rc rand).pc = .user (some TUS_ERROR) ∧
      (s.joinAgain tid asked rc rand).tus.threads = s.threads) := by
  unfold TusState.joinAgain
  split_ifs with hrc
  · exact ⟨fun rc' hrc' hpc => absurd hpc (ret_error_pc hrc'), fun _ => ⟨rfl, rfl⟩⟩
  · cases hget : s.getTcbByTid tid with
    | none => exact ⟨fun rc' hrc' hpc => absurd hpc (ret_error_pc hrc'), fun _ => ⟨rfl, rfl⟩⟩
    | some p =>
      obtain ⟨i, target⟩ := p
      obtain ⟨hi, htid, -⟩ := TusState.getTcbByTid_some hget
      -- neither older nor younger
      have hle := hasked.le i target hi htid
      have hserial : target.serial = asked :=
        Nat.le_antisymm (Nat.not_lt.mp (hfresh hrc i target hget)) hle
      refine ⟨?_, fun hgone => absurd hserial (hgone i target hi)⟩
      intro rc' _ hpc
      obtain ⟨hended, hthreads⟩ := joinTest_returned h.schedule hget hpc
      exact ⟨i, target, hi, hserial, hended, hthreads⟩

/-- A step of a join whose id has not been given out again. -/
theorem joinStep_own (hinv : Inv m) (h : Booked m) (hfresh : m.reused = false)
    {asked : Option Nat} (hstep : JoinStep m e tid asked) :
    (tid ≠ TUS_ERROR → (m.step e).pc = .user (some tid) →
      ∃ i t, m.tus.threads i = some t ∧ asked = some t.serial ∧ t.state = .ended ∧
        (m.step e).tus.threads = Function.update m.tus.threads i none) ∧
    ((∀ i t, m.tus.threads i = some t → asked ≠ some t.serial) →
      (m.step e).pc = .user (some TUS_ERROR) ∧ (m.step e).tus.threads = m.tus.threads) := by
  obtain ⟨s, pc⟩ := m
  cases hstep with
  | @first rc hpc hcall =>
    obtain rfl : pc = .user rc := hpc
    obtain ⟨c, t, hcur, -⟩ := hinv.place
    obtain ⟨hreturned, hgone⟩ := tusJoin_own hcur tid e.rand
    rw [Machine.step, hcall]
    refine ⟨?_, fun habsent => hgone ?_⟩
    · intro herr hreturn
      obtain ⟨i, target, hget, hended, hthreads⟩ := hreturned tid herr hreturn
      refine ⟨i, target, (TusState.getTcbByTid_some hget).1, ?_, hended, hthreads⟩
      rw [hget]
      rfl
    · -- whoever had the id would be the block asked for
      cases hget : s.getTcbByTid tid with
      | none => rfl
      | some p =>
        obtain ⟨i, target⟩ := p
        refine absurd ?_ (habsent i target (TusState.getTcbByTid_some hget).1)
        rw [hget]
        rfl
  | @again asked rc hpc =>
    obtain rfl : pc = .joinLoop tid asked rc := hpc
    obtain ⟨c, t, hcur, -⟩ := hinv.place
    -- no later block has the id: that would be a reuse
    have hold : rc ≠ TUS_ERROR → ∀ i target, s.getTcbByTid tid = some (i, target) →
        ¬ asked < target.serial := by
      intro hrc i target hget hlt
      have hreused := (reused_iff (m := ⟨s, .joinLoop tid asked rc⟩)).mpr
        ⟨tid, asked, rc, i, target, rfl, hrc, hget, hlt⟩
      rw [hfresh] at hreused
      cases hreused
    obtain ⟨hreturned, hgone⟩ := joinAgain_own hcur e.rand (h.pending tid asked (.loop rfl)) hold
    refine ⟨?_, fun habsent => hgone fun i target hi hserial => ?_⟩
    · intro herr hreturn
      obtain ⟨i, target, hi, hserial, hended, hthreads⟩ := hreturned tid herr hreturn
      exact ⟨i, target, hi, congrArg some hserial.symm, hended, hthreads⟩
    · exact habsent i target hi (congrArg some hserial.symm)

/-- **One step of a join is as it should be, unless the id has been given out again.** -/
theorem joinsItsOwn_iff (hinv : Inv m) (h : Booked m) (e : Event) :
    JoinsItsOwn m e ↔ m.reused = false := by
  constructor
  · intro hjoin
    cases hreused : m.reused with
    | false => rfl
    | true => exact absurd hjoin (not_joinsItsOwn hinv h hreused)
  · intro hfresh
    exact ⟨fun tid asked herr hstep => (joinStep_own hinv h hfresh hstep).1 herr,
      fun tid asked hstep => (joinStep_own hinv h hfresh hstep).2⟩

/-! ## Runs -/

/-- The books are in order at every step of a run. -/
theorem Booked.trace (hinv : Inv m) (h : Booked m) (es : List Event) :
    ∀ p ∈ m.trace es, Inv p.1 ∧ Booked p.1 := by
  induction es generalizing m with
  | nil => exact fun p hp => absurd hp List.not_mem_nil
  | cons e es ih =>
    rw [Machine.trace, List.forall_mem_cons]
    exact ⟨⟨hinv, h⟩, ih (hinv.step e) (h.step hinv e)⟩

/-- **Every call of `tus_join` in a run waits for the thread it was asked for exactly when, at
every step of the run, a join that looks its target up again does not find its id given out
again.** -/
theorem run_joins_iff {salg : Int} (h : salg = ALG_FCFS ∨ salg = ALG_RANDOM) (es : List Event) :
    (∀ p ∈ (Machine.boot salg).trace es, JoinsItsOwn p.1 p.2) ↔
      ∀ p ∈ (Machine.boot salg).trace es, p.1.reused = false := by
  have hbooked := Booked.trace (boot_inv h) (boot_booked h) es
  refine forall₂_congr fun p hp => ?_
  obtain ⟨hinv, hb⟩ := hbooked p hp
  exact joinsItsOwn_iff hinv hb p.2

/-- In the run of `joinDemo` nobody creates a thread behind a join. -/
theorem run_joins_demo : (ALG_FCFS = ALG_FCFS ∨ ALG_FCFS = ALG_RANDOM) ∧
    ∀ p ∈ (Machine.boot ALG_FCFS).trace joinDemo, JoinsItsOwn p.1 p.2 :=
  ⟨Or.inl rfl, (run_joins_iff (Or.inl rfl) joinDemo).mpr (by decide +kernel)⟩

/-- The machine behind a run is the one in which the next event happens. -/
theorem Machine.mem_trace (m : Machine) (es : List Event) (e : Event) :
    (m.run es, e) ∈ m.trace (es ++ [e]) := by
  induction es generalizing m with
  | nil => exact List.mem_cons_self
  | cons e' es ih => exact List.mem_cons_of_mem _ (ih (m.step e'))

/-- The main thread and a second one join the first thread. It ends, the second one joins it,
creates another thread, which gets its id, and ends. The new thread ends as well. -/
def joinTwice : List Event :=
  [⟨.createThread 5 0, 0⟩, ⟨.createThread 6 0, 0⟩, ⟨.join 2, 0⟩,
    -- the first thread
    ⟨.exit, 0⟩, ⟨.yield TUS_ANY, 0⟩,
    -- the second one
    ⟨.exit, 0⟩, ⟨.join 2, 0⟩,
    -- the main thread in its loop
    ⟨.exit, 0⟩, ⟨.exit, 0⟩,
    -- the first one again
    ⟨.exit, 0⟩, ⟨.exit, 0⟩,
    -- the second one joins it and creates a thread
    ⟨.exit, 0⟩, ⟨.exit, 0⟩, ⟨.createThread 7 0, 0⟩, ⟨.exit, 0⟩,
    -- the main thread in its loop
    ⟨.exit, 0⟩, ⟨.exit, 0⟩,
    -- the new thread
    ⟨.exit, 0⟩, ⟨.exit, 0⟩,
    ⟨.exit, 0⟩]

/-- The main thread asked for block 1, and gets its `tus_join` answered by block 3. -/
theorem joins_another : ¬ ∀ (salg : Int) (es : List Event), salg = ALG_FCFS ∨ salg = ALG_RANDOM →
    ∀ p ∈ (Machine.boot salg).trace es, JoinsItsOwn p.1 p.2 := by
  intro h
  have hmem := (Machine.boot ALG_FCFS).mem_trace joinTwice ⟨.exit, 0⟩
  obtain ⟨hinv, hb⟩ := Booked.trace (boot_inv (Or.inl rfl)) (boot_booked (Or.inl rfl)) _ _ hmem
  have hreused : ((Machine.boot ALG_FCFS).run joinTwice).reused = true := by decide +kernel
  exact not_joinsItsOwn hinv hb hreused (h ALG_FCFS _ (Or.inl rfl) _ hmem)

end OsProjects.Tus
