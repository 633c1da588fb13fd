import OsProjects.Tus.Invariant

/-!
# Thread library — the scheduler over whole runs

`Scheduled` says what can be seen of a machine: the table, the queue, the flags, the
switch that is under way. **Main result** (`run_scheduled`): it holds after `tus_init` with
either algorithm and any run, whatever the program calls and whatever `rand` returns.

The pieces are read off `Inv`; `Suspended.continues` says what the step after a switch
does with the thread that was switched to.
-/

namespace OsProjects.Tus

variable {s : TusState} {c : Slot} {t : Tcb}

/-- The machine in which each event of a run happens. -/
def Machine.trace (m : Machine) : List Event → List (Machine × Event)
  | [] => []
  | e :: es => (m, e) :: (m.step e).trace es

/-- The next step of `m` goes on with the thread in slot `c` where it left off: it
returns from the `tus_yield` that has not returned yet, or, for a thread that has never
run, enters its function. -/
def Continues (m : Machine) (c : Slot) (t : Tcb) : Prop :=
  (∃ tid site call, t.context = .inYield c t.serial tid site call ∧ t.unfinished = some call ∧
    ∀ e, (m.step e).pc = (m.tus.yieldReturn site t.yieldResult).pc) ∨
  (AtStart t ∧ ∀ e, (m.step e).pc = .user none)

/-- What holds of a machine in every run. -/
structure Scheduled (m : Machine) : Prop where
  /-- The ids in the table are distinct. -/
  tid_inj : ∀ i j t u, m.tus.threads i = some t → m.tus.threads j = some u → t.tid = u.tid → i = j
  tid_range : ∀ i t, m.tus.threads i = some t → 1 ≤ t.tid ∧ t.tid ≤ TUS_MAXTHREADS
  /-- One thread runs, until the process ends: the current one. -/
  running : m.pc ≠ .exited → ∃ c t, m.tus.threads c = some t ∧ t.state = .running ∧
    t.tid = m.tus.currentTid ∧ ∀ i u, m.tus.threads i = some u → u.state = .running → i = c
  /-- The queue holds the id of every ready thread once, and nothing else. -/
  queue_nodup : m.tus.readyQ.toList.Nodup
  queue_iff : ∀ x, x ∈ m.tus.readyQ.toList ↔ Ready m.tus.threads x
  /-- The flag is up for the ready threads inside `tus_yield`. The thread that has just
  been switched to takes it down in its first step. -/
  flag_iff : ∀ i t, m.tus.threads i = some t → (t.state = .running → ∀ ctx, m.pc ≠ .resume ctx) →
    (t.resumeFlag = true ↔ t.state = .ready ∧ InsideYield i t)
  /-- A switch continues the current thread. -/
  switch : ∀ ctx, m.pc = .resume ctx → ∃ c t, m.tus.threads c = some t ∧ t.state = .running ∧
    t.tid = m.tus.currentTid ∧ t.context = ctx ∧ Continues m c t
  not_stray : m.pc ≠ .stray
  never_full : m.tus.readyQ.refused = 0
  no_recovery : m.tus.recoveries = []
  /-- The process only ends when every thread has. -/
  exit : m.pc = .exited → ∀ i t, m.tus.threads i = some t → t.state = .ended

theorem AtStart.not_insideYield (h : AtStart t) : ¬InsideYield c t := by
  obtain ⟨-, tsf, targ, hstart⟩ := h
  rintro ⟨tid, site, call, hcall, -⟩
  rw [hstart] at hcall
  cases hcall

/-- A thread that can be switched to has its flag up exactly inside `tus_yield`. -/
theorem Suspended.flag_iff (h : Suspended c t) : t.resumeFlag = true ↔ InsideYield c t := by
  cases h with
  | inYield flag inside => exact ⟨fun _ => inside, fun _ => flag⟩
  | atStart flag start unfinished =>
    constructor
    · intro hup
      rw [flag] at hup
      cases hup
    · exact fun hinside => absurd hinside start.not_insideYield

/-- After a switch to `t`, the next step continues it. -/
theorem Suspended.continues (h : Suspended c t) (hcur : Current s c t) :
    Continues ⟨s, .resume t.context⟩ c t := by
  cases h with
  | inYield flag inside =>
    obtain ⟨tid, site, call, hcall, hunfinished⟩ := inside
    refine Or.inl ⟨tid, site, call, hcall, hunfinished, fun e => ?_⟩
    simp only [Machine.step, hcall, TusState.resume, hcur.slot, if_true]
    rw [yieldBody_resumed hcur flag]
    -- where the call returns to does not depend on the state
    cases site with
    | user => rfl
    | join tid asked => rfl
  | atStart flag start unfinished =>
    refine Or.inr ⟨start, fun e => ?_⟩
    obtain ⟨-, tsf, targ, hstart⟩ := start
    simp only [Machine.step, hstart, TusState.resume, hcur.currentTcb]

/-- The part of `Scheduled` that every schedule has. -/
theorem Schedule.scheduled {pc : Pc} {running : Option Slot} (hs : Sound s)
    (h : Schedule s.threads s.readyQ.toList running)
    (hrunning : pc ≠ .exited → ∃ c t, s.threads c = some t ∧ running = some c ∧
      t.tid = s.currentTid)
    (hflag : ∀ c t, running = some c → s.threads c = some t → (∀ ctx, pc ≠ .resume ctx) →
      t.resumeFlag = false)
    (hswitch : ∀ ctx, pc = .resume ctx → ∃ c t, s.threads c = some t ∧ t.state = .running ∧
      t.tid = s.currentTid ∧ t.context = ctx ∧ Continues ⟨s, pc⟩ c t)
    (hstray : pc ≠ .stray)
    (hexit : pc = .exited → ∀ i t, s.threads i = some t → t.state = .ended) :
    Scheduled ⟨s, pc⟩ where
  tid_inj := h.tid_inj
  tid_range := fun i t hi => (h.slot i t hi).tid_range
  running := by
    intro hpc
    obtain ⟨c, t, hc, hrun, htid⟩ := hrunning hpc
    refine ⟨c, t, hc, (h.slot c t hc).running_iff.mpr hrun, htid, ?_⟩
    intro i u hi hu
    have hi' := (h.slot i u hi).running_iff.mp hu
    exact Option.some.inj (hi'.symm.trans hrun)
  queue_nodup := h.nodup
  queue_iff := h.mem_iff
  flag_iff := by
    intro i t hi hnot
    have hok := h.slot i t hi
    -- by state: a ready thread is suspended, an ended one has its flag down
    cases hstate : t.state with
    | ready => simp [(hok.suspended hstate).flag_iff]
    | running =>
      have hdown := hflag i t (hok.running_iff.mp hstate) hi (hnot hstate)
      simp [hdown]
    | ended => simp [hok.ended hstate]
  switch := hswitch
  not_stray := hstray
  never_full := hs.refused
  no_recovery := hs.recoveries
  exit := hexit

/-- In the program the running thread is awake. -/
theorem Current.scheduled {pc : Pc} (hs : Sound s) (h : Current s c t) (hawake : Awake t)
    (hresume : ∀ ctx, pc ≠ .resume ctx) (hexit : pc ≠ .exited) (hstray : pc ≠ .stray) :
    Scheduled ⟨s, pc⟩ := by
  refine h.schedule.scheduled hs (fun _ => ⟨c, t, h.slot, rfl, h.tid.symm⟩) ?_
    (fun ctx hpc => absurd hpc (hresume ctx)) hstray (fun hpc => absurd hpc hexit)
  intro d u hd hu _
  obtain rfl := Option.some.inj hd
  obtain rfl := Option.some.inj (h.slot.symm.trans hu)
  exact hawake.flag

theorem Inv.scheduled {m : Machine} (h : Inv m) : Scheduled m := by
  obtain ⟨s, pc⟩ := m
  have hs : Sound s := h.sound
  cases pc with
  | user rc =>
    obtain ⟨c, t, hcur, hawake⟩ := h.place
    exact hcur.scheduled hs hawake (fun _ => Pc.noConfusion) Pc.noConfusion Pc.noConfusion
  | joinLoop tid asked rc =>
    obtain ⟨c, t, hcur, hawake⟩ := h.place
    exact hcur.scheduled hs hawake (fun _ => Pc.noConfusion) Pc.noConfusion Pc.noConfusion
  | resume ctx =>
    obtain ⟨c, t, hcur, hsuspended, rfl⟩ := h.place
    refine hcur.schedule.scheduled hs (fun _ => ⟨c, t, hcur.slot, rfl, hcur.tid.symm⟩)
      (fun _ _ _ _ hpc => absurd rfl (hpc _)) ?_ Pc.noConfusion Pc.noConfusion
    intro ctx hctx
    -- the context that runs next is the one the thread saved
    obtain rfl := Pc.resume.inj hctx
    exact ⟨c, t, hcur.slot, hcur.state, hcur.tid.symm, rfl, hsuspended.continues hcur⟩
  | exited =>
    obtain ⟨hempty, hsched⟩ := h.place
    rw [← hempty] at hsched
    refine hsched.scheduled hs (fun hpc => absurd rfl hpc) ?_ (fun _ hpc => Pc.noConfusion hpc)
      Pc.noConfusion ?_
    · intro c t hrun
      cases hrun
    · -- an empty queue and no running thread leave only ended ones
      intro _ i t hi
      cases hstate : t.state with
      | ready =>
        have hmem := hsched.queued hi hstate
        rw [hempty] at hmem
        exact absurd hmem List.not_mem_nil
      | running => cases (hsched.slot i t hi).running_iff.mp hstate
      | ended => rfl
  | stray => exact h.place.elim

/-- **The scheduler keeps its books.** From `tus_init` with either algorithm, for any
sequence of calls by whichever thread is current and any values of `rand`. -/
theorem run_scheduled {salg : Int} (h : salg = ALG_FCFS ∨ salg = ALG_RANDOM) (es : List Event) :
    Scheduled ((Machine.boot salg).run es) :=
  ((boot_inv h).run es).scheduled

/-- Two threads are created; the main thread joins the first, which cancels the other
and ends. -/
def joinDemo : List Event :=
  [⟨.createThread 5 0, 0⟩, ⟨.createThread 6 0, 0⟩, ⟨.join 2, 0⟩, ⟨.exit, 0⟩, ⟨.cancel 3, 0⟩,
    ⟨.exit, 0⟩]

theorem run_scheduled_demo :
    (ALG_FCFS = ALG_FCFS ∨ ALG_FCFS = ALG_RANDOM) ∧
      ((Machine.boot ALG_FCFS).run joinDemo).pc = .resume (.inYield 0 0 0 (.join 2 1) 0) ∧
      Scheduled ((Machine.boot ALG_FCFS).run joinDemo) :=
  ⟨Or.inl rfl, by decide +kernel, run_scheduled (Or.inl rfl) joinDemo⟩

end OsProjects.Tus
