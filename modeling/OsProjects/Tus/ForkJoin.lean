import OsProjects.Lib.Measures
import OsProjects.Tus.Fcfs
import OsProjects.Tus.Programs

/-!
# Thread library — programs that fork and join

`main` creates its threads, joins them in order and returns; the threads yield for some
rounds each. `Crew` is the invariant of such a process: the blocks are those of `main` and
of the threads it has not joined yet (`Plan.js`), every thread has its rounds in front of it
(`Plan.todo`), and `main` is in its code or inside the `tus_join` of the first of them.

What a step does is in `Crew.step`: no call fails, whatever `rand` returns, and if the front
of the queue is picked the process is nearer to its end (`Plan.measure`): when `main` gives
up the processor inside `tus_join`, the front is a thread, and a thread that runs loses a
round. **Main result** (`tests_end`): `test_basic` and `test_perf` return 0 under either
algorithm, with the number of yields `test_perf` prints.
-/

namespace OsProjects.Tus

open Measures

/-! ## The plan of the program -/

/-- What a process has in front of it: the threads `main` has yet to create, those it has yet to
join, and the rounds of each thread, by the number of its block. -/
structure Plan where
  fs : List (Nat × Nat)
  js : List Int
  todo : Nat → Nat

/-- A block with this id and this number is in the table. -/
def Has (threads : Slot → Option Tcb) (tid : Int) (serial : Nat) : Prop :=
  ∃ i t, threads i = some t ∧ t.tid = tid ∧ t.serial = serial

/-- A block of the program; the one of `main` has the number 0. -/
structure BlockOk (next : Nat → Int → Code) (todo : Nat → Nat) (t : Tcb) : Prop where
  main : t.serial = 0 → t.state ≠ .ended
  rounds : t.serial ≠ 0 → t.state ≠ .ended → ∀ rc, Rounds (todo t.serial) (next t.serial rc)
  site : t.serial ≠ 0 → ∀ c k tid site call, t.context = .inYield c k tid site call → site = .user
  /-- What `tus_yield` is going to return is an id. -/
  result : t.unfinished ≠ none → t.yieldResult ≠ TUS_ERROR

/-- `main` is between two calls of `tus_join`, or inside one. -/
def JoinsNext (p : Process) (plan : Plan) (tid : Int) : Prop :=
  plan.fs = [] ∧ ∃ rest, plan.js = tid :: rest ∧ Joins rest (p.next 0 tid)

/-- Where `main` is. -/
inductive Place (p : Process) (plan : Plan) : Prop
  | user {rc : Option Int} {c : Slot} {t : Tcb} (hpc : p.machine.pc = .user rc)
      (hcur : p.machine.tus.currentTcb = some (c, t)) (hmain : t.serial = 0)
      (hcode : ForkJoin plan.fs plan.js (p.next 0 (rc.getD 0)))
  | loop {tid rc : Int} {asked : Nat} {c : Slot} {t : Tcb}
      (hpc : p.machine.pc = .joinLoop tid asked rc)
      (hcur : p.machine.tus.currentTcb = some (c, t)) (hmain : t.serial = 0)
      (hrc : rc ≠ TUS_ERROR) (hnext : JoinsNext p plan tid)
  | parked {tid : Int} {asked call : Nat} {i : Slot} {t : Tcb}
      (hi : p.machine.tus.threads i = some t) (hmain : t.serial = 0)
      (hctx : t.context = .inYield i t.serial TUS_ANY (.join tid asked) call)
      (hpc : (∃ ctx, p.machine.pc = .resume ctx) ∨ ∃ rc, p.machine.pc = .user rc ∧
        ∀ c u, p.machine.tus.currentTcb = some (c, u) → u.serial ≠ 0)
      (hnext : JoinsNext p plan tid)

/-- The invariant; `rounds` are the rounds of the functions `fn`. -/
structure Crew (fn : Nat → Nat → Code) (rounds : Nat → Nat → Nat) (p : Process) (plan : Plan) :
    Prop where
  inv : Inv p.machine
  booked : Booked p.machine
  status : p.status = none
  blocks : ∀ i t, p.machine.tus.threads i = some t → BlockOk p.next plan.todo t
  main : ∃ tid, Has p.machine.tus.threads tid 0
  member : ∀ tid k, Has p.machine.tus.threads tid k → k ≠ 0 → tid ∈ plan.js
  present : ∀ tid ∈ plan.js, ∃ k, k ≠ 0 ∧ Has p.machine.tus.threads tid k
  nodup : plan.js.Nodup
  functions : ∀ f ∈ plan.fs, Rounds (rounds f.1 f.2) (fn f.1 f.2)
  room : plan.js.length + plan.fs.length < TUS_MAXTHREADS
  place : Place p plan

/-- What the thread of a block counts, `f` of its rounds. -/
def weigh (f todo : Nat → Nat) : Option Tcb → Nat
  | none => 0
  | some t => if t.serial = 0 ∨ t.state = .ended then 0 else f (todo t.serial)

def crewSum (f todo : Nat → Nat) (threads : Slot → Option Tcb) : Nat :=
  ∑ i, weigh f todo (threads i)

/-- How long it takes from here to the next thread that is not `main`. -/
def phase (m : Machine) : Nat :=
  match m.pc, m.tus.currentTcb with
  | .user _, some (_, t) => if t.serial = 0 then 2 else 0
  | .joinLoop _ _ _, _ => 2
  | .resume _, some (_, t) => if t.serial = 0 then 3 else 1
  | _, _ => 0

/-- The steps to the end at most, when the front of the queue is picked. -/
def Plan.measure (rounds : Nat → Nat → Nat) (plan : Plan) (p : Process) : Nat :=
  4 * crewSum Nat.succ plan.todo p.machine.tus.threads +
    (plan.fs.map fun f => 4 * rounds f.1 f.2 + 9).sum + 4 * plan.js.length + phase p.machine

/-- The calls of `tus_yield` so far and those to come. -/
def Plan.total (rounds : Nat → Nat → Nat) (plan : Plan) (p : Process) : Nat :=
  p.yields + crewSum id plan.todo p.machine.tus.threads +
    (plan.fs.map fun f => rounds f.1 f.2).sum

/-- `main` has returned 0, and only its block is left. -/
structure Finished (yields : Nat) (p : Process) : Prop where
  status : p.status = some 0
  yields : p.yields = yields
  threads : ∀ i t, p.machine.tus.threads i = some t → t.serial = 0

/-! ## What a change of the table keeps -/

section Tables

variable {threads : Slot → Option Tcb} {c n : Slot} {t t' u : Tcb} {s : TusState} {m : Machine}
  {q : List Int} {next next' : Nat → Int → Code} {todo todo' f : Nat → Nat}

/-- A block that is replaced keeps its id and its number. -/
theorem has_update (hc : threads c = some t) (htid : t'.tid = t.tid)
    (hserial : t'.serial = t.serial) (tid : Int) (k : Nat) :
    Has (Function.update threads c (some t')) tid k ↔ Has threads tid k := by
  constructor
  · -- a block of the new table is the one replaced, or an old one
    rintro ⟨i, v, hi, rfl, rfl⟩
    by_cases hic : i = c
    · subst hic
      rw [Function.update_self] at hi
      obtain rfl := Option.some.inj hi
      exact ⟨i, t, hc, htid.symm, hserial.symm⟩
    · rw [Function.update_of_ne hic] at hi
      exact ⟨i, v, hi, rfl, rfl⟩
  · -- and the other way around
    rintro ⟨i, v, hi, rfl, rfl⟩
    by_cases hic : i = c
    · subst hic
      obtain rfl := Option.some.inj (hc.symm.trans hi)
      exact ⟨i, t', Function.update_self .., htid, hserial⟩
    · exact ⟨i, v, (Function.update_of_ne hic ..).trans hi, rfl, rfl⟩

theorem forall_update {P Q : Tcb → Prop} (h : ∀ i v, i ≠ c → threads i = some v → P v → Q v)
    (hblocks : ∀ i v, threads i = some v → P v) (ht' : Q t') :
    ∀ i v, Function.update threads c (some t') i = some v → Q v := by
  intro i v hi
  by_cases hic : i = c
  · subst hic
    rw [Function.update_self] at hi
    exact Option.some.inj hi ▸ ht'
  · rw [Function.update_of_ne hic] at hi
    exact h i v hic hi (hblocks i v hi)

theorem BlockOk.running (h : BlockOk next todo u) (hready : u.state = .ready) :
    BlockOk next todo { u with state := .running } where
  main _ := fun hstate => ThreadState.noConfusion hstate
  rounds hserial _ := h.rounds hserial (by rw [hready]; exact ThreadState.noConfusion)
  site := h.site
  result := h.result

theorem BlockOk.of_main (hmain : t.serial = 0) (hstate : t.state ≠ .ended)
    (hresult : t.unfinished ≠ none → t.yieldResult ≠ TUS_ERROR) : BlockOk next todo t where
  main _ := hstate
  rounds hne := absurd hmain hne
  site hne := absurd hmain hne
  result := hresult

/-- The calls of `main` and of the other threads do not matter. -/
theorem BlockOk.congr (h : BlockOk next todo t)
    (hnext : t.serial ≠ 0 → next' t.serial = next t.serial)
    (htodo : t.serial ≠ 0 → todo' t.serial = todo t.serial) : BlockOk next' todo' t where
  main := h.main
  rounds hserial hstate rc := by
    rw [hnext hserial, htodo hserial]
    exact h.rounds hserial hstate rc
  site := h.site
  result := h.result

namespace Dispatched

variable (h : Dispatched s threads q n u m)
include h

theorem has_iff (tid : Int) (k : Nat) : Has m.tus.threads tid k ↔ Has threads tid k := by
  rw [h.threads]
  have hsame : ({ u with state := .running } : Tcb).tid = u.tid := rfl
  exact has_update h.slot hsame rfl tid k

theorem blocks (hblocks : ∀ i t, threads i = some t → BlockOk next todo t) :
    ∀ i t, m.tus.threads i = some t → BlockOk next todo t := by
  rw [h.threads]
  exact forall_update (fun _ _ _ _ hP => hP) hblocks ((hblocks n u h.slot).running h.ready)

theorem crewSum_eq (f todo : Nat → Nat) :
    crewSum f todo m.tus.threads = crewSum f todo threads := by
  refine Finset.sum_congr rfl fun i _ => ?_
  rw [h.threads]
  by_cases hi : i = n
  · subst hi
    rw [Function.update_self, h.slot]
    simp [weigh, h.ready]
  · rw [Function.update_of_ne hi]

/-- A switch leaves the context of every thread as it is. -/
theorem kept {i : Slot} (hi : threads i = some t) :
    ∃ t', m.tus.threads i = some t' ∧ t'.serial = t.serial ∧ t'.context = t.context := by
  rw [h.threads]
  by_cases hin : i = n
  · subst hin
    obtain rfl := Option.some.inj (h.slot.symm.trans hi)
    exact ⟨_, Function.update_self .., rfl, rfl⟩
  · exact ⟨t, (Function.update_of_ne hin ..).trans hi, rfl, rfl⟩

end Dispatched

section Phases

variable {rc : Option Int} {ctx : Context} {tid asked : Int}

theorem phase_user (hpc : m.pc = .user rc) (hcur : m.tus.currentTcb = some (c, t)) :
    phase m = if t.serial = 0 then 2 else 0 := by
  rw [phase, hpc, hcur]

theorem phase_loop {asked : Nat} {rc : Int} (hpc : m.pc = .joinLoop tid asked rc) :
    phase m = 2 := by
  rw [phase, hpc]

theorem phase_resume (hpc : m.pc = .resume ctx) (hcur : m.tus.currentTcb = some (c, t)) :
    phase m = if t.serial = 0 then 3 else 1 := by
  rw [phase, hpc, hcur]

/-- The thread that was switched to is the current one. -/
theorem Dispatched.phase_eq (h : Dispatched s threads q n u m) (hinv : Inv m) :
    phase m = if u.serial = 0 then 3 else 1 := by
  have hplace := hinv.place
  rw [h.pc] at hplace
  obtain ⟨c, t, hcur, -, -⟩ := hplace
  have hn : m.tus.threads n = some { u with state := .running } := by
    rw [h.threads, Function.update_self]
  obtain rfl := hcur.schedule.tid_inj c n t _ hcur.slot hn (hcur.tid.symm.trans h.currentTid)
  have ht := Option.some.inj (hcur.slot.symm.trans hn)
  rw [phase_resume h.pc hcur.currentTcb, ht]

theorem phase_le (m : Machine) : phase m ≤ 3 := by
  unfold phase
  split
  · split <;> omega
  · omega
  · split <;> omega
  · omega

end Phases

/-- One slot changes: what the sum loses there and gains. -/
theorem crewSum_update (f : Nat → Nat) {todo : Nat → Nat} (todo' : Nat → Nat) {b : Option Tcb}
    (hc : threads c = b) (b' : Option Tcb)
    (htodo : ∀ j v, j ≠ c → threads j = some v → todo' v.serial = todo v.serial) :
    crewSum f todo' (Function.update threads c b') + weigh f todo b =
      crewSum f todo threads + weigh f todo' b' := by
  -- only the summand of slot `c` changes
  have hsum := sum_add_of_eq
    (a := fun j => weigh f todo' (Function.update threads c b' j))
    (b := fun j => weigh f todo (threads j)) c fun j hj => by
      rw [Function.update_of_ne hj]
      cases hv : threads j with
      | none => rfl
      | some v =>
        show (if _ then 0 else _) = if _ then 0 else _
        rw [htodo j v hj hv]
  rw [Function.update_self, hc] at hsum
  exact hsum

end Tables

namespace Crew

variable {fn : Nat → Nat → Code} {rounds : Nat → Nat → Nat} {p : Process} {plan : Plan}
  {c i n : Slot} {t t' u : Tcb} {m : Machine} {q : List Int} (h : Crew fn rounds p plan)
include h

theorem serial_ne (hc : p.machine.tus.threads c = some t) {j : Slot} (hj : j ≠ c)
    (hu : p.machine.tus.threads j = some u) : u.serial ≠ t.serial :=
  fun heq => hj (h.booked.serial_inj j c u t hu hc heq)

/-- An id has one block. -/
theorem serial_unique {tid : Int} {k k' : Nat} (hk : Has p.machine.tus.threads tid k)
    (hk' : Has p.machine.tus.threads tid k') : k = k' := by
  obtain ⟨i, t, hi, rfl, rfl⟩ := hk
  obtain ⟨j, u, hj, htid, rfl⟩ := hk'
  obtain rfl := h.inv.scheduled.tid_inj j i u t hj hi htid
  exact congrArg Tcb.serial (Option.some.inj (hi.symm.trans hj))

/-- A number has one id. -/
theorem tid_unique {tid tid' : Int} {k : Nat} (hk : Has p.machine.tus.threads tid k)
    (hk' : Has p.machine.tus.threads tid' k) : tid = tid' := by
  obtain ⟨i, t, hi, rfl, rfl⟩ := hk
  obtain ⟨j, u, hj, rfl, hserial⟩ := hk'
  obtain rfl := h.booked.serial_inj j i u t hj hi hserial
  exact congrArg Tcb.tid (Option.some.inj (hi.symm.trans hj))

theorem ne_error {tid : Int} {k : Nat} (hk : Has p.machine.tus.threads tid k) :
    tid ≠ TUS_ERROR := by
  obtain ⟨i, t, hi, rfl, -⟩ := hk
  have hrange := (h.inv.scheduled.tid_range i t hi).1
  show t.tid ≠ -1
  omega

omit h in
/-- Who is dispatched was there before. -/
theorem dispatched_has (hcur : Current p.machine.tus c t)
    (hd : Dispatched p.machine.tus (Function.update p.machine.tus.threads c (some t')) q n u m)
    (htid : t'.tid = t.tid) (hserial : t'.serial = t.serial) :
    Has p.machine.tus.threads u.tid u.serial :=
  (has_update hcur.slot htid hserial u.tid u.serial).mp ⟨n, u, hd.slot, rfl, rfl⟩

/-- The current thread gives up the processor. -/
theorem switch (next' : Nat → Int → Code) (todo' : Nat → Nat) (yields : Nat)
    (hcur : Current p.machine.tus c t)
    (hd : Dispatched p.machine.tus (Function.update p.machine.tus.threads c (some t')) q n u m)
    (htid : t'.tid = t.tid) (hserial : t'.serial = t.serial) (hinv : Inv m) (hbooked : Booked m)
    (hnext : ∀ k, k ≠ t.serial → next' k = p.next k)
    (htodo : ∀ k, k ≠ t.serial → todo' k = plan.todo k) (hblock : BlockOk next' todo' t')
    (hplace : Place ⟨m, next', none, yields⟩ { plan with todo := todo' }) :
    Crew fn rounds ⟨m, next', none, yields⟩ { plan with todo := todo' } := by
  have hhas (tid : Int) (k : Nat) : Has m.tus.threads tid k ↔ Has p.machine.tus.threads tid k :=
    (hd.has_iff tid k).trans (has_update hcur.slot htid hserial tid k)
  refine ⟨hinv, hbooked, rfl, hd.blocks (forall_update (fun j v hj hv hP => ?_) h.blocks hblock),
    ?_, fun tid k hk => ?_, fun tid hjs => ?_, h.nodup, h.functions, h.room, hplace⟩
  · -- the others keep their programs and what they have to do
    have hne := h.serial_ne hcur.slot hj hv
    exact BlockOk.congr hP (fun _ => hnext _ hne) fun _ => htodo _ hne
  · -- `main` is still there
    obtain ⟨tid, hmain⟩ := h.main
    exact ⟨tid, (hhas tid 0).mpr hmain⟩
  · -- no block comes or goes, so `js` has the same ids
    exact h.member tid k ((hhas tid k).mp hk)
  · obtain ⟨k, hk, hmem⟩ := h.present tid hjs
    exact ⟨k, hk, (hhas tid k).mpr hmem⟩

/-- The current thread goes on. -/
theorem touch (hcur : Current p.machine.tus c t) (htid : t'.tid = t.tid)
    (hserial : t'.serial = t.serial)
    (hthreads : m.tus.threads = Function.update p.machine.tus.threads c (some t'))
    (hinv : Inv m) (hbooked : Booked m) (hblock : BlockOk p.next plan.todo t')
    (hplace : Place { p with machine := m } plan) :
    Crew fn rounds { p with machine := m } plan := by
  have hhas (tid : Int) (k : Nat) : Has m.tus.threads tid k ↔ Has p.machine.tus.threads tid k := by
    rw [hthreads]
    exact has_update hcur.slot htid hserial tid k
  refine ⟨hinv, hbooked, h.status, ?_, ?_, fun tid k hk => ?_, fun tid hjs => ?_, h.nodup,
    h.functions, h.room, hplace⟩
  · show ∀ i v, m.tus.threads i = some v → BlockOk p.next plan.todo v
    rw [hthreads]
    -- only one block changes
    exact forall_update (fun _ _ _ _ hP => hP) h.blocks hblock
  · -- `main` is still there
    obtain ⟨tid, hmain⟩ := h.main
    exact ⟨tid, (hhas tid 0).mpr hmain⟩
  · exact h.member tid k ((hhas tid k).mp hk)
  · obtain ⟨k, hk, hmem⟩ := h.present tid hjs
    exact ⟨k, hk, (hhas tid k).mpr hmem⟩

end Crew

/-! ## `tus_join` -/

/-- The table without the block in slot `i`. -/
theorem has_erase {threads : Slot → Option Tcb} {i : Slot} {target : Tcb}
    (hi : threads i = some target)
    (hinj : ∀ j k t u, threads j = some t → threads k = some u → t.tid = u.tid → j = k)
    (tid : Int) (k : Nat) : Has (Function.update threads i none) tid k ↔
      tid ≠ target.tid ∧ Has threads tid k := by
  constructor
  · -- what is left was not in slot `i`
    rintro ⟨j, v, hj, rfl, rfl⟩
    have hji : j ≠ i := fun heq => by
      rw [heq, Function.update_self] at hj
      exact absurd hj (by simp)
    rw [Function.update_of_ne hji] at hj
    exact ⟨fun heq => hji (hinj j i v target hj hi heq), j, v, hj, rfl, rfl⟩
  · -- another id is in another slot
    rintro ⟨hne, j, v, hj, rfl, rfl⟩
    have hji : j ≠ i := fun heq => by
      rw [heq] at hj
      exact hne (congrArg Tcb.tid (Option.some.inj (hj.symm.trans hi)))
    exact ⟨j, v, (Function.update_of_ne hji ..).trans hj, rfl, rfl⟩

section Joining

variable {fn : Nat → Nat → Code} {rounds : Nat → Nat → Nat} {p : Process} {plan : Plan}
  {c i : Slot} {t target : Tcb} {next' : Nat → Int → Code} {tid : Int} {rest : List Int}

/-- A step of the process: nothing fails, and with the front picked it gets nearer to its end. -/
def Advances (fn : Nat → Nat → Code) (rounds : Nat → Nat → Nat) (p : Process) (plan : Plan)
    (rand : Nat) (p' : Process) : Prop :=
  ∃ plan', Crew fn rounds p' plan' ∧ plan'.total rounds p' = plan.total rounds p ∧
    (PicksFront p.machine.tus rand → plan'.measure rounds p' < plan.measure rounds p)

/-- The target of `main` has ended: its block is given back, and `main` goes on. -/
theorem join_ended (h : Crew fn rounds p plan) (hcur : Current p.machine.tus c t)
    (hmain : t.serial = 0) (hphase : phase p.machine = 2)
    (hnext : ∀ k, k ≠ 0 → next' k = p.next k) (hfs : plan.fs = []) (hjs : plan.js = tid :: rest)
    (hjoins : Joins rest (next' 0 tid)) (hi : p.machine.tus.threads i = some target)
    (htid : target.tid = tid) (hended : target.state = .ended) {m : Machine}
    (hm : m = ({ p.machine.tus with
      threads := Function.update p.machine.tus.threads i none } : TusState).ret tid)
    (hinv : Inv m) (hbooked : Booked m) (rand : Nat) :
    Advances fn rounds p plan rand { p with machine := m, next := next' } := by
  -- the running thread has not ended, so it is not the target
  have hic : c ≠ i := fun heq => by
    have hsame := Option.some.inj (hcur.slot.symm.trans (heq ▸ hi))
    rw [← hsame, hcur.state] at hended
    exact ThreadState.noConfusion hended
  have hthreads : m.tus.threads = Function.update p.machine.tus.threads i none := by rw [hm]; rfl
  -- one thread is gone
  have hhas (tid' : Int) (k : Nat) : Has m.tus.threads tid' k ↔
      tid' ≠ tid ∧ Has p.machine.tus.threads tid' k := by
    rw [hthreads, ← htid]
    exact has_erase hi h.inv.scheduled.tid_inj tid' k
  have hpc : m.pc = .user (some tid) := by rw [hm]; rfl
  have hcur' : m.tus.currentTcb = some (c, t) := by
    rw [hm]
    exact Current.currentTcb ⟨hcur.schedule.free hi hended,
      (Function.update_of_ne hic ..).trans hcur.slot, hcur.tid⟩
  -- a thread that has ended has nothing left to do
  have hsum (f : Nat → Nat) :
      crewSum f plan.todo m.tus.threads = crewSum f plan.todo p.machine.tus.threads := by
    have hadd := sum_update_add (weigh f plan.todo) p.machine.tus.threads i none
    rw [hi] at hadd
    simp only [weigh, hended, or_true, if_true, Nat.add_zero] at hadd
    rw [hthreads]
    exact hadd
  obtain ⟨hnotin, hnodup⟩ := List.nodup_cons.mp (hjs ▸ h.nodup)
  refine ⟨{ plan with js := rest }, ?_, ?_, fun _ => ?_⟩
  · refine ⟨hinv, hbooked, h.status, ?_, ?_, fun tid' k hk hne => ?_, fun tid' hmem => ?_, hnodup,
      h.functions, ?_, ?_⟩
    · -- the other blocks are the same
      intro j v hj
      rw [hthreads] at hj
      have hji : j ≠ i := fun heq => by
        rw [heq, Function.update_self] at hj
        exact absurd hj (by simp)
      rw [Function.update_of_ne hji] at hj
      exact (h.blocks j v hj).congr (fun hne => hnext _ hne) fun _ => rfl
    · -- `main` itself is not what is given back
      refine ⟨t.tid, (hhas _ _).mpr ⟨fun heq => hic ?_, c, t, hcur.slot, rfl, hmain⟩⟩
      exact h.inv.scheduled.tid_inj c i t target hcur.slot hi (heq.trans htid.symm)
    · -- who is left is one of the rest
      obtain ⟨hne', hold⟩ := (hhas tid' k).mp hk
      have hmem := h.member tid' k hold hne
      rw [hjs] at hmem
      exact (List.mem_cons.mp hmem).resolve_left hne'
    · -- the rest is still there
      obtain ⟨k, hk, hold⟩ := h.present tid' (hjs ▸ List.mem_cons_of_mem _ hmem)
      exact ⟨k, hk, (hhas tid' k).mpr ⟨fun heq => hnotin (heq ▸ hmem), hold⟩⟩
    · have hroom := h.room
      rw [hjs, List.length_cons] at hroom
      show rest.length + plan.fs.length < TUS_MAXTHREADS
      omega
    · -- behind the last join `main` ends, else it goes on with the next one
      have hcode : ForkJoin plan.fs rest (next' 0 tid) := by
        rw [hfs]
        exact .joins hjoins
      exact .user hpc hcur' hmain hcode
  · -- no `tus_yield` is made
    simp only [Plan.total, hsum]
  · -- one id fewer is to be joined
    have hphase' : phase m = 2 := by rw [phase_user hpc hcur', if_pos hmain]
    simp only [Plan.measure, hsum, hjs, List.length_cons, hphase, hphase']
    omega

/-- The target of `main` has not ended: `main` yields inside `tus_join`. -/
theorem join_waits (h : Crew fn rounds p plan) (hcur : Current p.machine.tus c t)
    (hawake : Awake t) (hmain : t.serial = 0) (hphase : phase p.machine = 2)
    (hnext : ∀ k, k ≠ 0 → next' k = p.next k) (hfs : plan.fs = []) (hjs : plan.js = tid :: rest)
    (hjoins : Joins rest (next' 0 tid)) (hi : p.machine.tus.threads i = some target)
    (htid : target.tid = tid) (hworks : target.state ≠ .ended) (asked rand : Nat)
    (hinv : Inv (p.machine.tus.tusYield TUS_ANY (.join tid asked) rand))
    (hbooked : Booked (p.machine.tus.tusYield TUS_ANY (.join tid asked) rand)) :
    Advances fn rounds p plan rand
      { p with
        machine := p.machine.tus.tusYield TUS_ANY (.join tid asked) rand
        next := next' } := by
  obtain ⟨n, u, hd, hfront⟩ := tusYield_any h.inv.sound hcur hawake (.join tid asked) rand
  set m := p.machine.tus.tusYield TUS_ANY (.join tid asked) rand
  have hhas := Crew.dispatched_has hcur hd rfl rfl
  -- `main` has saved its context in `tus_join`
  obtain ⟨v, hv, hvserial, hvctx⟩ := hd.kept (Function.update_self ..)
  have hplace : Place ⟨m, next', none, p.yields⟩ plan :=
    .parked hv (hvserial.trans hmain) (by rw [hvctx, hvserial]; rfl) (.inl ⟨u.context, hd.pc⟩)
      ⟨hfs, rest, hjs, hjoins⟩
  -- its block is as the invariant wants it
  have hblock : BlockOk next' plan.todo
      (t.parked c (.join tid asked) p.machine.tus.calls u.tid) :=
    .of_main hmain (fun hstate => ThreadState.noConfusion hstate) fun _ => h.ne_error hhas
  have hcrew := h.switch next' plan.todo p.yields hcur hd rfl rfl hinv hbooked
    (fun k hk => hnext k (hmain ▸ hk)) (fun _ _ => rfl) hblock hplace
  -- `main` is not counted
  have hsum (f : Nat → Nat) :
      crewSum f plan.todo m.tus.threads = crewSum f plan.todo p.machine.tus.threads := by
    have hadd := crewSum_update f plan.todo hcur.slot
      (some (t.parked c (.join tid asked) p.machine.tus.calls u.tid)) fun _ _ _ _ => rfl
    rw [hd.crewSum_eq f plan.todo]
    simpa [weigh, hmain, Tcb.parked] using hadd
  rw [show p.status = none from h.status]
  refine ⟨plan, hcrew, ?_, fun hpicks => ?_⟩
  · -- no `tus_yield` of a thread
    simp only [Plan.total, hsum]
  · -- the target is ready, so the front of the queue is not `main`
    have hqueued : target.tid ∈ p.machine.tus.readyQ.toList := by
      -- the target is another thread than `main`
      have hne : target.state ≠ .running := fun hrunning => by
        obtain rfl : c = i :=
          Option.some.inj ((hcur.schedule.slot i target hi).running_iff.mp hrunning)
        have hsame := Option.some.inj (hcur.slot.symm.trans hi)
        obtain ⟨k, hk, hmem⟩ := h.present tid (by rw [hjs]; exact List.mem_cons_self)
        exact hk (h.serial_unique hmem ⟨c, t, hcur.slot, by rw [hsame, htid], hmain⟩)
      refine hcur.schedule.queued hi ?_
      cases hstate : target.state with
      | ready => rfl
      | running => exact absurd hstate hne
      | ended => exact absurd hstate hworks
    obtain ⟨x, xs, hq⟩ := List.exists_cons_of_ne_nil (List.ne_nil_of_mem hqueued)
    -- the front of the queue is served
    have hx : x = u.tid := by
      have hhead := hfront hpicks
      rw [hq] at hhead
      exact Option.some.inj hhead
    -- `main` was running, and so not in the queue
    have hserial : u.serial ≠ 0 := fun hzero => by
      have hsame := h.tid_unique (hzero ▸ hhas) ⟨c, t, hcur.slot, rfl, hmain⟩
      refine hcur.schedule.running_not_queued hcur.slot ?_
      rw [hq, hx, hsame]
      exact List.mem_cons_self
    have hphase' : phase m = 1 := by rw [hd.phase_eq hinv, if_neg hserial]
    simp only [Plan.measure, hsum, hphase, hphase']
    omega

/-- The loop test of `tus_join`, of the call `main` is in. -/
theorem join_tests (h : Crew fn rounds p plan) (hcur : Current p.machine.tus c t)
    (hawake : Awake t) (hmain : t.serial = 0) (hphase : phase p.machine = 2)
    (hnext : ∀ k, k ≠ 0 → next' k = p.next k) (hfs : plan.fs = []) (hjs : plan.js = tid :: rest)
    (hjoins : Joins rest (next' 0 tid)) (hi : p.machine.tus.threads i = some target)
    (htid : target.tid = tid) (asked rand : Nat) {m : Machine}
    (hm : p.machine.tus.joinTest tid asked target rand = m) (hinv : Inv m) (hbooked : Booked m) :
    Advances fn rounds p plan rand { p with machine := m, next := next' } := by
  unfold TusState.joinTest at hm
  split_ifs at hm with hworks
  · -- the target has not ended
    subst hm
    exact join_waits h hcur hawake hmain hphase hnext hfs hjs hjoins hi htid hworks asked rand hinv
      hbooked
  · -- it has: `main` frees its slot
    have hslot : p.machine.tus.findSlotByTid tid = some i :=
      htid ▸ TusState.findSlotByTid_eq hcur.schedule hi
    rw [TusState.destroyThread, hslot] at hm
    exact join_ended h hcur hmain hphase hnext hfs hjs hjoins hi htid (not_not.mp hworks) hm.symm
      hinv hbooked rand

/-- The thread `main` joins next. -/
theorem exists_target (h : Crew fn rounds p plan) (hcur : Current p.machine.tus c t)
    (hmain : t.serial = 0) (hjs : plan.js = tid :: rest) :
    ∃ i target, p.machine.tus.threads i = some target ∧ target.tid = tid ∧
      p.machine.tus.getTcbByTid tid = some (i, target) ∧ tid ≠ t.tid ∧ 0 < tid := by
  obtain ⟨k, hk, i, target, hi, htid, rfl⟩ := h.present tid (hjs ▸ List.mem_cons_self)
  have hget := TusState.getTcbByTid_eq hcur.schedule hi
  rw [htid] at hget
  refine ⟨i, target, hi, htid, hget, fun heq => hk ?_, (TusState.getTcbByTid_some hget).2.2⟩
  exact h.serial_unique (heq ▸ ⟨i, target, hi, htid, rfl⟩) ⟨c, t, hcur.slot, rfl, hmain⟩

end Joining

/-! ## One step -/

section Steps

variable {fn : Nat → Nat → Code} {rounds : Nat → Nat → Nat} {p : Process} {plan : Plan}
  {c i : Slot} {t : Tcb} {rc : Option Int}

theorem currentTcb_eq {s : TusState} (h : Current s c t) {c' : Slot} {t' : Tcb}
    (h' : s.currentTcb = some (c', t')) : c' = c ∧ t' = t := by
  rw [h.currentTcb] at h'
  have heq := Option.some.inj h'
  exact ⟨(congrArg Prod.fst heq).symm, (congrArg Prod.snd heq).symm⟩

/-- `main` joins a thread. -/
theorem main_joins (h : Crew fn rounds p plan) (hpc : p.machine.pc = .user rc)
    (hcur : Current p.machine.tus c t) (hawake : Awake t) (hmain : t.serial = 0) {tid : Int}
    {rest : List Int} {next : Int → Code} (hfs : plan.fs = []) (hjs : plan.js = tid :: rest)
    (hjoins : Joins rest (next tid)) (rand : Nat) :
    Advances fn rounds p plan rand (p.issue fn 0 (.join tid) next rand) := by
  -- the target is one of the threads `main` has created
  obtain ⟨i, target, hi, htid, hget, hne, hpos⟩ := exists_target h hcur hmain hjs
  -- the call comes to its first test
  have hstep : p.machine.tus.joinTest tid target.serial target rand =
      p.machine.step ⟨.join tid, rand⟩ := by
    rw [Machine.step, hpc]
    simp only [TusState.call]
    rw [TusState.tusJoin, if_neg (by rw [h.inv.sound.initialized]; simp; omega), hcur.currentTcb]
    simp only [hne, if_false, hget]
  have hjoins' : Joins rest (Function.update p.next 0 next 0 tid) := by
    rw [Function.update_self]
    exact hjoins
  exact join_tests h hcur hawake hmain (by rw [phase_user hpc hcur.currentTcb, if_pos hmain])
    (fun k hk => Function.update_of_ne hk ..) hfs hjs hjoins' hi htid target.serial rand hstep
    (h.inv.step _) (h.booked.step h.inv _)

/-- `main` goes on inside `tus_join`. -/
theorem main_joins_on (h : Crew fn rounds p plan) {tid rc : Int} {asked : Nat}
    (hpc : p.machine.pc = .joinLoop tid asked rc) (hcur : Current p.machine.tus c t)
    (hawake : Awake t) (hmain : t.serial = 0) (hrc : rc ≠ TUS_ERROR)
    (hnext : JoinsNext p plan tid) (rand : Nat) :
    Advances fn rounds p plan rand { p with machine := p.machine.step ⟨.exit, rand⟩ } := by
  obtain ⟨hfs, rest, hjs, hjoins⟩ := hnext
  obtain ⟨i, target, hi, htid, hget, -, -⟩ := exists_target h hcur hmain hjs
  have hstep : p.machine.tus.joinTest tid asked target rand = p.machine.step ⟨.exit, rand⟩ := by
    rw [Machine.step, hpc]
    simp only [TusState.joinAgain, hrc, if_false, hget]
  exact join_tests h hcur hawake hmain (phase_loop hpc) (fun _ _ => rfl) hfs hjs hjoins hi htid
    asked rand hstep (h.inv.step _) (h.booked.step h.inv _)

/-- `main` while another thread runs. -/
theorem main_parked (h : Crew fn rounds p plan) (hpc : p.machine.pc = .user rc)
    (hcur : Current p.machine.tus c t) (hworker : t.serial ≠ 0) :
    ∃ tid asked call i v, p.machine.tus.threads i = some v ∧ v.serial = 0 ∧ i ≠ c ∧
      v.context = .inYield i v.serial TUS_ANY (.join tid asked) call ∧ JoinsNext p plan tid := by
  -- where `main` is while another thread runs
  cases h.place with
  | user _ hcur' hmain =>
    obtain ⟨-, rfl⟩ := currentTcb_eq hcur hcur'
    exact absurd hmain hworker
  | loop hpc' => exact absurd (hpc.symm.trans hpc') (by simp)
  | @parked tid asked call i v hi hmain hctx _ hnext =>
    refine ⟨tid, asked, call, i, v, hi, hmain, fun heq => hworker ?_, hctx, hnext⟩
    rw [heq] at hi
    rw [Option.some.inj (hcur.slot.symm.trans hi), hmain]

/-- A step of a thread other than `main` that gives up the processor. -/
theorem worker_switches (h : Crew fn rounds p plan) (hpc : p.machine.pc = .user rc)
    (hcur : Current p.machine.tus c t) (hworker : t.serial ≠ 0) {t' u : Tcb} {q : List Int}
    {n : Slot} {m : Machine} (next' : Nat → Int → Code) (todo' : Nat → Nat) (made yields : Nat)
    (hd : Dispatched p.machine.tus (Function.update p.machine.tus.threads c (some t')) q n u m)
    (htid : t'.tid = t.tid) (hserial : t'.serial = t.serial) (hinv : Inv m) (hbooked : Booked m)
    (hnext : ∀ k, k ≠ t.serial → next' k = p.next k)
    (htodo : ∀ k, k ≠ t.serial → todo' k = plan.todo k) (hblock : BlockOk next' todo' t')
    (hyields : yields = p.yields + made)
    (hid : weigh id todo' (some t') + made = weigh id plan.todo (some t))
    (hsucc : weigh Nat.succ todo' (some t') + 1 = weigh Nat.succ plan.todo (some t)) (rand : Nat) :
    Advances fn rounds p plan rand ⟨m, next', none, yields⟩ := by
  obtain ⟨tid, asked, call, i, v, hi, hmain, hic, hctx, hfs, rest, hjs, hjoins⟩ :=
    main_parked h hpc hcur hworker
  -- its block is still there, context and all
  obtain ⟨v', hv', hserial', hctx'⟩ := hd.kept ((Function.update_of_ne hic ..).trans hi)
  have hplace : Place ⟨m, next', none, yields⟩ { plan with todo := todo' } := by
    refine .parked hv' (hserial'.trans hmain) (by rw [hctx', hctx, hserial'])
      (.inl ⟨u.context, hd.pc⟩) ⟨hfs, rest, hjs, ?_⟩
    show Joins rest (next' 0 tid)
    rw [hnext 0 hworker.symm]
    exact hjoins
  -- only the block of the caller counts differently
  have hsum (f : Nat → Nat) := crewSum_update f todo' hcur.slot (some t') fun j v hj hv =>
    htodo v.serial (h.serial_ne hcur.slot hj hv)
  refine ⟨{ plan with todo := todo' }, h.switch next' todo' yields hcur hd htid hserial hinv hbooked
    hnext htodo hblock hplace, ?_, fun _ => ?_⟩
  · -- one call of `tus_yield` more, one fewer to make
    have hsum := hsum id
    simp only [Plan.total, hd.crewSum_eq]
    omega
  · -- one round fewer, which outweighs the phase
    have hsum := hsum Nat.succ
    have hphase := phase_le m
    have hphase' : phase p.machine = 0 := by rw [phase_user hpc hcur.currentTcb, if_neg hworker]
    simp only [Plan.measure, hd.crewSum_eq]
    omega

/-- A thread makes one of its rounds. -/
theorem worker_yields (h : Crew fn rounds p plan) (hpc : p.machine.pc = .user rc)
    (hcur : Current p.machine.tus c t) (hawake : Awake t) (hworker : t.serial ≠ 0) {r : Nat}
    {next : Int → Code} (hr : plan.todo t.serial = r + 1) (hrounds : ∀ rc, Rounds r (next rc))
    (rand : Nat) :
    Advances fn rounds p plan rand (p.issue fn t.serial (.yield TUS_ANY) next rand) := by
  obtain ⟨n, u, hd, -⟩ := tusYield_any h.inv.sound hcur hawake .user rand
  -- in the library it is `tus_yield(TUS_ANY)`
  have hstep : p.machine.step ⟨.yield TUS_ANY, rand⟩ =
      p.machine.tus.tusYield TUS_ANY .user rand := by
    rw [Machine.step, hpc]
    rfl
  rw [← hstep] at hd
  have hhas := Crew.dispatched_has hcur hd rfl rfl
  -- the block of the caller: one round fewer, suspended in this call
  have hblock : BlockOk (Function.update p.next t.serial next)
      (Function.update plan.todo t.serial r) (t.parked c .user p.machine.tus.calls u.tid) := by
    refine ⟨fun hmain => absurd hmain hworker, fun _ _ rc => ?_, fun _ _ _ _ _ _ hctx => ?_,
      fun _ => h.ne_error hhas⟩
    · show Rounds (Function.update plan.todo t.serial r t.serial)
        (Function.update p.next t.serial next t.serial rc)
      rw [Function.update_self, Function.update_self]
      exact hrounds rc
    · injection hctx with _ _ _ hsite
      exact hsite.symm
  have hrunning : t.state ≠ .ended := by rw [hcur.state]; exact ThreadState.noConfusion
  -- the caller has `r` rounds left
  have hweigh (f : Nat → Nat) : weigh f (Function.update plan.todo t.serial r)
      (some (t.parked c .user p.machine.tus.calls u.tid)) = f r := by
    simp [weigh, Tcb.parked, hworker]
  have hadvances := worker_switches h hpc hcur hworker (Function.update p.next t.serial next)
    (Function.update plan.todo t.serial r) 1 (p.yields + 1) hd rfl rfl (h.inv.step _)
    (h.booked.step h.inv _) (fun k hk => Function.update_of_ne hk ..)
    (fun k hk => Function.update_of_ne hk ..) hblock rfl
    (by rw [hweigh]; simp [weigh, hworker, hrunning, hr])
    (by rw [hweigh]; simp [weigh, hworker, hrunning, hr]) rand
  rw [← h.status] at hadvances
  exact hadvances

/-- A thread has made its rounds, and its function returns. -/
theorem worker_exits (h : Crew fn rounds p plan) (hpc : p.machine.pc = .user rc)
    (hcur : Current p.machine.tus c t) (hworker : t.serial ≠ 0) (hr : plan.todo t.serial = 0)
    (rand : Nat) :
    Advances fn rounds p plan rand { p with machine := p.machine.step ⟨.exit, rand⟩ } := by
  -- `main` is ready
  have hne : p.machine.tus.readyQ.toList ≠ [] := by
    obtain ⟨-, -, -, i, v, hi, hmain, hic, -⟩ := main_parked h hpc hcur hworker
    refine List.ne_nil_of_mem (hcur.schedule.queued hi ?_)
    have hrunning : v.state ≠ .running := fun hrunning => hic <| Eq.symm <|
      Option.some.inj ((hcur.schedule.slot i v hi).running_iff.mp hrunning)
    have hended := (h.blocks i v hi).main hmain
    cases hstate : v.state with
    | ready => rfl
    | running => exact absurd hstate hrunning
    | ended => exact absurd hstate hended
  obtain ⟨n, u, hd, -⟩ := tusExit_dispatched h.inv.sound hcur hne rand
  have hstep : p.machine.step ⟨.exit, rand⟩ = p.machine.tus.tusExit rand := by
    rw [Machine.step, hpc]
    rfl
  rw [← hstep] at hd
  have hold := h.blocks c t hcur.slot
  have hrunning : t.state ≠ .ended := by rw [hcur.state]; exact ThreadState.noConfusion
  have hadvances := worker_switches h hpc hcur hworker p.next plan.todo 0 p.yields hd rfl
    rfl (h.inv.step _) (h.booked.step h.inv _) (fun _ _ => rfl) (fun _ _ => rfl)
    ⟨fun hmain => absurd hmain hworker, fun _ hstate => absurd rfl hstate, hold.site, hold.result⟩
    rfl (by simp [weigh, hr]) (by simp [weigh, hworker, hrunning, hr]) rand
  rw [← h.status] at hadvances
  exact hadvances

/-- The current thread goes on, in a block that counts the same. -/
theorem goes_on (h : Crew fn rounds p plan) (hcur : Current p.machine.tus c t) {t' : Tcb} {pc : Pc}
    (htid : t'.tid = t.tid) (hserial : t'.serial = t.serial) (hrunning : t'.state = .running)
    (hinv : Inv ⟨p.machine.tus.put c t', pc⟩) (hbooked : Booked ⟨p.machine.tus.put c t', pc⟩)
    (hblock : BlockOk p.next plan.todo t')
    (hplace : Place { p with machine := ⟨p.machine.tus.put c t', pc⟩ } plan)
    (hphase : phase ⟨p.machine.tus.put c t', pc⟩ < phase p.machine) (rand : Nat) :
    Advances fn rounds p plan rand { p with machine := ⟨p.machine.tus.put c t', pc⟩ } := by
  -- the block counts as before
  have hsum (f : Nat → Nat) : crewSum f plan.todo (p.machine.tus.put c t').threads =
      crewSum f plan.todo p.machine.tus.threads := by
    have hadd := crewSum_update f plan.todo hcur.slot (some t') fun _ _ _ _ => rfl
    simp only [weigh, hserial, hrunning, hcur.state] at hadd
    exact Nat.add_right_cancel hadd
  refine ⟨plan, h.touch hcur htid hserial rfl hinv hbooked hblock hplace, ?_, fun _ => ?_⟩
  · -- no `tus_yield` is made
    simp only [Plan.total, hsum]
  · -- the phase goes down
    simp only [Plan.measure, hsum]
    omega

/-- A thread other than `main` goes on with its code. -/
theorem worker_goes_on (h : Crew fn rounds p plan) {ctx : Context}
    (hpc : p.machine.pc = .resume ctx) (hcur : Current p.machine.tus c t)
    (hworker : t.serial ≠ 0) {t' : Tcb} {m : Machine} (hm : m = ⟨p.machine.tus.put c t', .user rc⟩)
    (htid : t'.tid = t.tid) (hserial : t'.serial = t.serial) (hrunning : t'.state = .running)
    (hcontext : t'.context = t.context) (hresult : t'.unfinished = none) (hinv : Inv m)
    (hbooked : Booked m) (rand : Nat) : Advances fn rounds p plan rand { p with machine := m } := by
  subst hm
  have hcur' := hcur.put t' htid hrunning
  have hold := h.blocks c t hcur.slot
  have hended : t.state ≠ .ended := by rw [hcur.state]; exact ThreadState.noConfusion
  -- the block has the same program and the same rounds
  have hblock : BlockOk p.next plan.todo t' := by
    refine ⟨fun hmain => absurd (hserial.symm.trans hmain) hworker, fun _ _ => ?_, fun _ => ?_,
      fun hne => absurd hresult hne⟩
    · rw [hserial]
      exact hold.rounds hworker hended
    · rw [hcontext]
      exact hold.site hworker
  refine goes_on h hcur htid hserial hrunning hinv hbooked hblock ?_ ?_ rand
  · -- `main` is parked where it was
    cases h.place with
    | user hpc' => exact absurd (hpc.symm.trans hpc') (by simp)
    | loop hpc' => exact absurd (hpc.symm.trans hpc') (by simp)
    | @parked tid asked call i v hi hmain hctx _ hnext =>
      have hic : i ≠ c := fun heq => hworker <| by
        rw [heq] at hi
        rw [Option.some.inj (hcur.slot.symm.trans hi), hmain]
      refine .parked ((Function.update_of_ne hic ..).trans hi) hmain hctx (.inr ⟨rc, rfl, ?_⟩) hnext
      intro c' u hu
      obtain ⟨-, rfl⟩ := currentTcb_eq hcur' hu
      rw [hserial]
      exact hworker
  · -- from resuming to running, which is the next phase
    rw [phase_resume hpc hcur.currentTcb, if_neg hworker,
      phase_user (m := ⟨p.machine.tus.put c t', .user rc⟩) rfl hcur'.currentTcb,
      if_neg (by rw [hserial]; exact hworker)]
    exact Nat.zero_lt_one

/-- `tus_yield` returns to the loop of `tus_join` in `main`. -/
theorem main_goes_on (h : Crew fn rounds p plan) {ctx : Context}
    (hpc : p.machine.pc = .resume ctx) (hcur : Current p.machine.tus c t) (hmain : t.serial = 0)
    {tid : Int} {asked : Nat} (hresult : t.yieldResult ≠ TUS_ERROR)
    (hnext : JoinsNext p plan tid) {t' : Tcb} {m : Machine}
    (hm : m = ⟨p.machine.tus.put c t', .joinLoop tid asked t.yieldResult⟩)
    (htid : t'.tid = t.tid) (hserial : t'.serial = t.serial) (hrunning : t'.state = .running)
    (hdone : t'.unfinished = none) (hinv : Inv m)
    (hbooked : Booked m) (rand : Nat) : Advances fn rounds p plan rand { p with machine := m } := by
  subst hm
  have hcur' := hcur.put t' htid hrunning
  refine goes_on h hcur htid hserial hrunning hinv hbooked ?_ ?_ ?_ rand
  · -- the block is as the invariant wants it
    exact .of_main (hserial.trans hmain) (by rw [hrunning]; exact ThreadState.noConfusion)
      fun hne => absurd hdone hne
  · -- `main` is in the loop of `tus_join`
    exact .loop rfl hcur'.currentTcb (hserial.trans hmain) hresult hnext
  · -- from resuming to testing
    rw [phase_resume hpc hcur.currentTcb, if_pos hmain,
      phase_loop (m := ⟨p.machine.tus.put c t', .joinLoop tid asked t.yieldResult⟩) rfl]
    exact Nat.lt_succ_self 2

/-- The thread that was switched to goes on with its code, or inside `tus_join`. -/
theorem resumes (h : Crew fn rounds p plan) {ctx : Context} (hpc : p.machine.pc = .resume ctx)
    (rand : Nat) :
    Advances fn rounds p plan rand { p with machine := p.machine.step ⟨.exit, rand⟩ } := by
  have hinv := h.inv.step ⟨.exit, rand⟩
  have hbooked := h.booked.step h.inv ⟨.exit, rand⟩
  have hplace := h.inv.place
  rw [hpc] at hplace
  obtain ⟨c, t, hcur, hsuspended, hctx⟩ := hplace
  have hstep : p.machine.step ⟨.exit, rand⟩ = p.machine.tus.resume t.context rand := by
    rw [Machine.step, hpc, hctx]
  have hold := h.blocks c t hcur.slot
  -- `main` is inside `tus_join`
  obtain ⟨tid, asked, call, i, v, hi, hmain, hvctx, hnext⟩ : ∃ tid asked call i v,
      p.machine.tus.threads i = some v ∧ v.serial = 0 ∧
      v.context = .inYield i v.serial TUS_ANY (.join tid asked) call ∧ JoinsNext p plan tid := by
    cases h.place with
    | user hpc' => exact absurd (hpc.symm.trans hpc') (by simp)
    | loop hpc' => exact absurd (hpc.symm.trans hpc') (by simp)
    | parked hi hmain hctx _ hnext => exact ⟨_, _, _, _, _, hi, hmain, hctx, hnext⟩
  have hself (hzero : t.serial = 0) : v = t := by
    obtain rfl := h.booked.serial_inj i c v t hi hcur.slot (hmain.trans hzero.symm)
    exact Option.some.inj (hi.symm.trans hcur.slot)
  cases hsuspended with
  | inYield hflag hinside =>
    obtain ⟨tid', site, call', hctx', hunfinished⟩ := hinside
    have hresult : t.yieldResult ≠ TUS_ERROR := hold.result (by rw [hunfinished]; simp)
    rw [resume_inYield hcur hflag hctx'] at hstep
    by_cases hzero : t.serial = 0
    · obtain rfl := hself hzero
      obtain rfl : site = .join tid asked := by
        rw [hctx'] at hvctx
        injection hvctx
      exact main_goes_on h hpc hcur hmain hresult hnext hstep rfl rfl rfl rfl hinv hbooked rand
    · obtain rfl := hold.site hzero _ _ _ _ _ hctx'
      exact worker_goes_on h hpc hcur hzero hstep rfl rfl rfl rfl rfl hinv hbooked rand
  | atStart hflag hstart hunfinished =>
    obtain ⟨-, tsf, targ, hctx'⟩ := hstart
    have hzero : t.serial ≠ 0 := fun hzero => by
      rw [← hself hzero, hvctx] at hctx'
      exact Context.noConfusion hctx'
    conv_rhs at hstep => rw [hctx']
    simp only [TusState.resume, hcur.currentTcb, TusState.modify_eq hcur.slot] at hstep
    exact worker_goes_on h hpc hcur hzero hstep rfl rfl hcur.state rfl hunfinished hinv hbooked rand

end Steps

/-! ## `tus_create_thread` -/

section Creating

variable {fn : Nat → Nat → Code} {rounds : Nat → Nat → Nat} {p : Process} {plan : Plan}
  {c : Slot} {t : Tcb} {rc : Option Int}

/-- The blocks are those of `main` and of the threads it has not joined. -/
theorem Crew.count_lt (h : Crew fn rounds p plan) (hroom : plan.js.length + 1 < TUS_MAXTHREADS) :
    p.machine.tus.countExistingThreads < TUS_MAXTHREADS := by
  obtain ⟨mainTid, hmain⟩ := h.main
  by_contra hfull
  have hlength : (List.finRange TUS_MAXTHREADS).length = TUS_MAXTHREADS := List.length_finRange
  have hall : ∀ i, ∃ t, p.machine.tus.threads i = some t := fun i => by
    have hcount : p.machine.tus.countExistingThreads = (List.finRange TUS_MAXTHREADS).length :=
      Nat.le_antisymm List.countP_le_length (by omega)
    exact Option.isSome_iff_exists.mp (List.countP_eq_length.mp hcount i (List.mem_finRange i))
  choose block hblock using hall
  -- 64 different ids among those of the threads
  have hnodup : ((List.finRange TUS_MAXTHREADS).map fun i => (block i).tid).Nodup :=
    (List.nodup_finRange _).map fun i j hij =>
      h.inv.scheduled.tid_inj i j _ _ (hblock i) (hblock j) hij
  have hsub : ((List.finRange TUS_MAXTHREADS).map fun i => (block i).tid) ⊆
      mainTid :: plan.js := by
    intro x hx
    obtain ⟨i, -, rfl⟩ := List.mem_map.mp hx
    by_cases hserial : (block i).serial = 0
    · have hhas : Has p.machine.tus.threads (block i).tid 0 := ⟨i, _, hblock i, rfl, hserial⟩
      exact List.mem_cons.mpr (.inl (h.tid_unique hhas hmain))
    · exact List.mem_cons_of_mem _ (h.member _ _ ⟨i, _, hblock i, rfl, rfl⟩ hserial)
  have hle := (hnodup.subperm hsub).length_le
  rw [List.length_map, hlength, List.length_cons] at hle
  omega

/-- The table with a new block. -/
theorem has_add {threads : Slot → Option Tcb} {i : Slot} {t : Tcb} (hi : threads i = none)
    (tid : Int) (k : Nat) : Has (Function.update threads i (some t)) tid k ↔
      tid = t.tid ∧ k = t.serial ∨ Has threads tid k := by
  constructor
  · -- the new block, or an old one
    rintro ⟨j, v, hj, rfl, rfl⟩
    by_cases hji : j = i
    · subst hji
      rw [Function.update_self] at hj
      obtain rfl := Option.some.inj hj
      exact .inl ⟨rfl, rfl⟩
    · exact .inr ⟨j, v, (Function.update_of_ne hji ..).symm.trans hj, rfl, rfl⟩
  · -- in the new table both are there
    rintro (⟨rfl, rfl⟩ | ⟨j, v, hj, rfl, rfl⟩)
    · exact ⟨i, t, Function.update_self .., rfl, rfl⟩
    · have hji : j ≠ i := fun heq => by
        rw [heq, hi] at hj
        exact absurd hj (by simp)
      exact ⟨j, v, (Function.update_of_ne hji ..).trans hj, rfl, rfl⟩

/-- What a new block with `r` rounds adds to a sum. -/
theorem crewSum_add (f todo : Nat → Nat) {threads : Slot → Option Tcb} {i : Slot}
    (hi : threads i = none) {u : Tcb} (hserial : ∀ j v, threads j = some v → v.serial ≠ u.serial)
    (hk : u.serial ≠ 0) (hworks : u.state ≠ .ended) (r : Nat) :
    crewSum f (Function.update todo u.serial r) (Function.update threads i (some u)) =
      crewSum f todo threads + f r := by
  have hadd := crewSum_update f (Function.update todo u.serial r) hi (some u) fun j v _ hj =>
    Function.update_of_ne (hserial j v hj) ..
  have hnone : weigh f todo none = 0 := rfl
  have hsome : weigh f (Function.update todo u.serial r) (some u) = f r :=
    (if_neg (not_or.mpr ⟨hk, hworks⟩)).trans (congrArg f (Function.update_self ..))
  rw [hnone, hsome, Nat.add_zero] at hadd
  exact hadd

/-- The next thread, with a block of its own. -/
theorem Crew.fork (h : Crew fn rounds p plan) {m : Machine} {i : Slot} {u : Tcb}
    {next' : Nat → Int → Code} {r : Nat} {f : Nat × Nat} {fs : List (Nat × Nat)}
    (hi : p.machine.tus.threads i = none)
    (hthreads : m.tus.threads = Function.update p.machine.tus.threads i (some u))
    (hfresh : ∀ j v, p.machine.tus.threads j = some v → v.tid ≠ u.tid)
    (hserial : ∀ j v, p.machine.tus.threads j = some v → v.serial ≠ u.serial) (hk : u.serial ≠ 0)
    (hinv : Inv m) (hbooked : Booked m) (hfs : plan.fs = f :: fs)
    (hnext : ∀ k, k ≠ 0 → k ≠ u.serial → next' k = p.next k)
    (hblock : BlockOk next' (Function.update plan.todo u.serial r) u)
    (hplace : Place { p with machine := m, next := next' }
      ⟨fs, plan.js ++ [u.tid], Function.update plan.todo u.serial r⟩) :
    Crew fn rounds { p with machine := m, next := next' }
      ⟨fs, plan.js ++ [u.tid], Function.update plan.todo u.serial r⟩ := by
  -- one thread more
  have hhas (tid : Int) (k : Nat) : Has m.tus.threads tid k ↔
      tid = u.tid ∧ k = u.serial ∨ Has p.machine.tus.threads tid k := by
    rw [hthreads]
    exact has_add hi tid k
  -- its id is not among those to be joined
  have hnotin : u.tid ∉ plan.js := fun hmem => by
    obtain ⟨_, _, j, v, hj, htid, _⟩ := h.present u.tid hmem
    exact hfresh j v hj htid
  have hroom := h.room
  rw [hfs, List.length_cons] at hroom
  refine ⟨hinv, hbooked, h.status, ?_, ?_, fun tid k htid hne => ?_, fun tid htid => ?_, ?_,
    fun f' hf' => h.functions f' (hfs ▸ List.mem_cons_of_mem _ hf'), ?_, hplace⟩
  · -- the old blocks keep what they have, the new one is as given
    show ∀ j v, m.tus.threads j = some v → BlockOk _ _ v
    rw [hthreads]
    refine forall_update (fun j v _ hj hold => hold.congr (fun hne => ?_) fun _ => ?_) h.blocks
      hblock
    · exact hnext v.serial hne (hserial j v hj)
    · exact Function.update_of_ne (hserial j v hj) ..
  · obtain ⟨tid, hmain⟩ := h.main
    exact ⟨tid, (hhas tid 0).mpr (.inr hmain)⟩
  · -- the new id, or one of before
    rcases (hhas tid k).mp htid with ⟨rfl, -⟩ | hold
    · exact List.mem_append_right _ (List.mem_singleton_self _)
    · exact List.mem_append_left _ (h.member tid k hold hne)
  · -- every id that is to be joined has its thread
    rcases List.mem_append.mp htid with hold | hnew
    · obtain ⟨k, hne, hhad⟩ := h.present tid hold
      exact ⟨k, hne, (hhas tid k).mpr (.inr hhad)⟩
    · exact ⟨u.serial, hk, (hhas tid u.serial).mpr (.inl ⟨List.mem_singleton.mp hnew, rfl⟩)⟩
  · -- no id twice
    exact List.nodup_append_comm.mp (List.nodup_cons.mpr ⟨hnotin, h.nodup⟩)
  · -- one fewer to create, one more to join
    show (plan.js ++ [u.tid]).length + fs.length < TUS_MAXTHREADS
    rw [List.length_append, List.length_singleton]
    omega

/-- `main` creates a thread. -/
theorem main_creates (h : Crew fn rounds p plan) (hpc : p.machine.pc = .user rc)
    (hcur : Current p.machine.tus c t) (hmain : t.serial = 0) {tsf targ : Nat}
    {fs : List (Nat × Nat)} {next : Int → Code} (hfs : plan.fs = (tsf, targ) :: fs)
    (htsf : tsf ≠ 0)
    (hcode : ∀ tid, tid ≠ TUS_ERROR → ForkJoin fs (plan.js ++ [tid]) (next tid)) (rand : Nat) :
    Advances fn rounds p plan rand (p.issue fn 0 (.createThread tsf targ) next rand) := by
  have hroom := h.room
  rw [hfs, List.length_cons] at hroom
  obtain ⟨i, tid, q, hi, hne, hfresh, hcreate⟩ :=
    tusCreateThread_room h.inv.sound hcur (h.count_lt (by omega)) htsf targ
  have hstep : p.machine.step ⟨.createThread tsf targ, rand⟩ =
      p.machine.tus.tusCreateThread tsf targ := by
    rw [Machine.step, hpc]
    rfl
  have hinv := h.inv.step ⟨.createThread tsf targ, rand⟩
  have hbooked := h.booked.step h.inv ⟨.createThread tsf targ, rand⟩
  simp only [Process.issue]
  rw [hstep, hcreate] at hinv hbooked ⊢
  set u := p.machine.tus.newTcb tid tsf targ with hu
  set s : TusState := { p.machine.tus with
    threads := Function.update p.machine.tus.threads i (some u)
    readyQ := q
    serials := p.machine.tus.serials + 1 } with hs
  -- the number of the new block is above those of the others
  have hserial : ∀ j v, p.machine.tus.threads j = some v → v.serial ≠ u.serial := fun j v hj =>
    Nat.ne_of_lt (h.booked.serial_lt j v hj)
  have hk : u.serial ≠ 0 := fun hzero => hserial c t hcur.slot (hmain.trans hzero.symm)
  have hsum (f : Nat → Nat) := crewSum_add f plan.todo hi hserial hk
    (show u.state ≠ .ended from ThreadState.noConfusion) (rounds tsf targ)
  have hblock : BlockOk (Function.update (Function.update p.next 0 next) u.serial
      (fun _ => fn tsf targ)) (Function.update plan.todo u.serial (rounds tsf targ)) u := by
    refine ⟨fun hzero => absurd hzero hk, fun _ _ x => ?_, fun _ _ _ _ _ _ hctx =>
      Context.noConfusion hctx, fun hcall => absurd rfl hcall⟩
    rw [Function.update_self, Function.update_self]
    exact h.functions (tsf, targ) (hfs ▸ List.mem_cons_self)
  have hcur' : s.currentTcb = some (c, t) := by
    have hic : c ≠ i := fun heq => by
      have hslot := hcur.slot
      rw [heq, hi] at hslot
      exact absurd hslot (by simp)
    have hslot : s.threads c = some t := (Function.update_of_ne hic ..).trans hcur.slot
    obtain ⟨_, _, hnow, -⟩ : PcInv s (.user (some tid)) := hinv.place
    have hget := TusState.getTcbByTid_eq hnow.schedule hslot
    rw [← hcur.tid] at hget
    exact hget
  refine ⟨_, h.fork hi rfl hfresh hserial hk hinv hbooked hfs (fun k hne hk => ?_) hblock
    (.user rfl hcur' hmain ?_), ?_, fun _ => ?_⟩
  · exact (Function.update_of_ne hk ..).trans (Function.update_of_ne hne ..)
  · show ForkJoin fs (plan.js ++ [tid]) (Function.update (Function.update p.next 0 next) u.serial
      (fun _ => fn tsf targ) 0 tid)
    rw [Function.update_of_ne hk.symm, Function.update_self]
    exact hcode tid hne
  · show p.yields + crewSum _ _ s.threads + _ = _
    rw [hsum]
    simp only [Plan.total, hfs, List.map_cons, List.sum_cons, id]
    omega
  · have hphase : phase p.machine = 2 := by rw [phase_user hpc hcur.currentTcb, if_pos hmain]
    have hphase' : phase (s.ret tid) = 2 := by
      rw [phase_user (m := s.ret tid) rfl hcur', if_pos hmain]
    simp only [Plan.measure, hphase, hfs, List.map_cons, List.sum_cons]
    show 4 * crewSum _ _ s.threads + _ + 4 * (plan.js ++ [tid]).length + phase (s.ret tid) < _
    rw [hphase', hsum, List.length_append, List.length_singleton]
    omega

end Creating

/-! ## Any step -/

section AnyStep

variable {fn : Nat → Nat → Code} {rounds : Nat → Nat → Nat} {p : Process} {plan : Plan}
  {c : Slot} {t : Tcb} {rc : Option Int}

theorem Place.goes (h : Place p plan) : p.machine.pc ≠ .exited ∧ p.machine.pc ≠ .stray := by
  cases h with
  | user hpc => simp [hpc]
  | loop hpc => simp [hpc]
  | parked _ _ _ hpc =>
    rcases hpc with ⟨_, hpc⟩ | ⟨_, hpc, -⟩
    · simp [hpc]
    · simp [hpc]

/-- `main` returns. -/
theorem main_finishes (h : Crew fn rounds p plan) (hfs : plan.fs = []) (hjs : plan.js = []) :
    Finished (plan.total rounds p) { p with status := some 0 } := by
  -- nobody but `main` is left
  have hmain : ∀ i t, p.machine.tus.threads i = some t → t.serial = 0 := fun i t hi => by
    by_contra hne
    have hmem := h.member t.tid t.serial ⟨i, t, hi, rfl, rfl⟩ hne
    rw [hjs] at hmem
    exact List.not_mem_nil hmem
  -- so nobody has anything to do
  have hzero : crewSum id plan.todo p.machine.tus.threads = 0 := by
    refine Finset.sum_eq_zero fun i _ => ?_
    cases hi : p.machine.tus.threads i with
    | none => rfl
    | some t => exact if_pos (.inl (hmain i t hi))
  refine ⟨rfl, ?_, hmain⟩
  simp [Plan.total, hzero, hfs]

/-- The code of `main`. -/
theorem main_acts (h : Crew fn rounds p plan) (hpc : p.machine.pc = .user rc)
    (hcur : Current p.machine.tus c t) (hawake : Awake t) (hmain : t.serial = 0) (rand : Nat) :
    Advances fn rounds p plan rand (p.act fn t (rc.getD 0) rand) ∨
      Finished (plan.total rounds p) (p.act fn t (rc.getD 0) rand) := by
  -- `main` is at the program of its plan
  have hcode : ForkJoin plan.fs plan.js (p.next 0 (rc.getD 0)) := by
    cases h.place with
    | user hpc' _ _ hcode =>
      obtain rfl := Pc.user.inj (hpc.symm.trans hpc')
      exact hcode
    | loop hpc' => exact absurd (hpc.symm.trans hpc') (by simp)
    | parked _ _ _ hother =>
      rcases hother with ⟨_, hpc'⟩ | ⟨_, -, hother⟩
      · exact absurd (hpc.symm.trans hpc') (by simp)
      · exact absurd hmain (hother c t hcur.currentTcb)
  rw [Process.act, hmain]
  generalize hfs : plan.fs = fs at hcode
  generalize hjs : plan.js = js at hcode
  generalize p.next 0 (rc.getD 0) = code at hcode
  -- on what `main` does next
  cases hcode with
  | joins hjoins =>
    cases hjoins with
    | done => exact .inr (main_finishes h hfs hjs)
    | join hnext => exact .inl (main_joins h hpc hcur hawake hmain hfs hjs hnext rand)
  | create htsf hnext =>
    rw [← hjs] at hnext
    exact .inl (main_creates h hpc hcur hmain hfs htsf hnext rand)

/-- The code of another thread. -/
theorem worker_acts (h : Crew fn rounds p plan) (hpc : p.machine.pc = .user rc)
    (hcur : Current p.machine.tus c t) (hawake : Awake t) (hworker : t.serial ≠ 0) (rand : Nat) :
    Advances fn rounds p plan rand (p.act fn t (rc.getD 0) rand) := by
  have hrunning : t.state ≠ .ended := by rw [hcur.state]; exact ThreadState.noConfusion
  -- the caller has a call of its rounds in front of it, or its end
  have hrounds := (h.blocks c t hcur.slot).rounds hworker hrunning (rc.getD 0)
  rw [Process.act]
  generalize hr : plan.todo t.serial = r at hrounds
  generalize p.next t.serial (rc.getD 0) = code at hrounds
  cases hrounds with
  | done =>
    simp only [if_neg hworker]
    exact worker_exits h hpc hcur hworker hr rand
  | yield hnext => exact worker_yields h hpc hcur hawake hworker hr hnext rand

/-- Every step of the process. -/
theorem Crew.step (h : Crew fn rounds p plan) (rand : Nat) :
    Advances fn rounds p plan rand (p.step fn rand) ∨
      Finished (plan.total rounds p) (p.step fn rand) := by
  have hgoes : ¬ p.status.isSome := by rw [h.status]; exact Bool.false_ne_true
  have hplace := h.inv.place
  rw [Process.step, if_neg hgoes]
  -- on where the running thread is: in a program, in `tus_yield` or in `tus_join`
  cases hpc : p.machine.pc with
  | user rc =>
    rw [hpc] at hplace
    obtain ⟨c, t, hcur, hawake⟩ := hplace
    simp only [hcur.currentTcb]
    by_cases hmain : t.serial = 0
    · exact main_acts h hpc hcur hawake hmain rand
    · exact .inl (worker_acts h hpc hcur hawake hmain rand)
  | resume ctx => exact .inl (resumes h hpc rand)
  | joinLoop tid asked rc =>
    rw [hpc] at hplace
    obtain ⟨c, t, hcur, hawake⟩ := hplace
    refine .inl ?_
    -- only `main` joins
    cases h.place with
    | user hpc' => exact absurd (hpc.symm.trans hpc') (by simp)
    | loop hpc' hcur' hmain hrc hnext =>
      injection hpc.symm.trans hpc' with htid hasked hrc'
      subst htid hasked hrc'
      obtain ⟨-, rfl⟩ := currentTcb_eq hcur hcur'
      exact main_joins_on h hpc hcur hawake hmain hrc hnext rand
    | parked _ _ _ hother =>
      rcases hother with ⟨_, hpc'⟩ | ⟨_, hpc', -⟩
      · exact absurd (hpc.symm.trans hpc') (by simp)
      · exact absurd (hpc.symm.trans hpc') (by simp)
  -- the process would be over
  | exited => exact absurd hpc h.place.goes.1
  | stray => exact absurd hpc h.place.goes.2

end AnyStep

/-! ## Runs -/

/-- The program has not ended, and neither the library nor a lost context has ended it. -/
structure Goes (yields : Nat) (p : Process) : Prop where
  status : p.status = none
  exited : p.machine.pc ≠ .exited
  stray : p.machine.pc ≠ .stray
  yields_le : p.yields ≤ yields

/-- However `rand` picks, no call of the program fails: it goes on until `main` has returned 0,
behind `yields` calls of `tus_yield` by its threads. From wherever it is it can get there, and
under FCFS it is there after at most `bound` steps. -/
structure Returns (salg : Int) (main : Int → Code) (yields bound : Nat) : Prop where
  goes : ∀ (rands : Nat → Nat) n,
    Goes yields ((Process.start salg main).run workers rands n) ∨
      Finished yields ((Process.start salg main).run workers rands n)
  can_finish : ∀ (rands : Nat → Nat) n, ∃ rands' : Nat → Nat, (∀ i < n, rands' i = rands i) ∧
    ∃ k, Finished yields ((Process.start salg main).run workers rands' (n + k))
  fcfs : salg = ALG_FCFS → ∀ rands : Nat → Nat, ∃ n ≤ bound,
    Finished yields ((Process.start salg main).run workers rands n)

section Runs

variable {fn : Nat → Nat → Code} {rounds : Nat → Nat → Nat} {p : Process} {plan : Plan}

theorem Process.run_add (fn : Nat → Nat → Code) (rands : Nat → Nat) (p : Process) (n k : Nat) :
    p.run fn rands (n + k) = (p.run fn rands n).run fn (fun i => rands (n + i)) k := by
  induction k with
  | zero => rfl
  | succ k ih =>
    show (p.run fn rands (n + k)).step fn _ = _
    rw [ih]
    rfl

theorem Process.run_congr {rands rands' : Nat → Nat} {n : Nat} (h : ∀ i < n, rands' i = rands i) :
    p.run fn rands' n = p.run fn rands n := by
  induction n with
  | zero => rfl
  | succ n ih =>
    show (p.run fn rands' n).step fn (rands' n) = (p.run fn rands n).step fn (rands n)
    rw [ih fun i hi => h i (Nat.lt_succ_of_lt hi), h n (Nat.lt_succ_self n)]

/-- A step of the process is one of the library, or none. -/
theorem Process.step_machine (fn : Nat → Nat → Code) (p : Process) (rand : Nat) :
    (p.step fn rand).machine = p.machine ∨ ∃ e, (p.step fn rand).machine = p.machine.step e := by
  rw [Process.step]
  split
  · exact .inl rfl
  split
  · -- each call of a program is one event of the library
    rw [Process.act]
    split
    · split
      · exact .inl rfl
      · exact .inr ⟨_, rfl⟩
    · exact .inr ⟨_, rfl⟩
  · exact .inr ⟨_, rfl⟩

theorem Process.run_fcfsInv (h : FcfsInv p.machine) (rands : Nat → Nat) (n : Nat) :
    FcfsInv (p.run fn rands n).machine := by
  induction n with
  | zero => exact h
  | succ n ih =>
    rcases (p.run fn rands n).step_machine fn (rands n) with hstep | ⟨e, hstep⟩
    · exact hstep ▸ ih
    · exact hstep ▸ ih.step e

theorem Finished.step {yields : Nat} (h : Finished yields p) (rand : Nat) :
    p.step fn rand = p := by
  rw [Process.step, if_pos (by rw [h.status]; rfl)]

theorem Crew.goes (h : Crew fn rounds p plan) : Goes (plan.total rounds p) p := by
  refine ⟨h.status, fun hpc => ?_, fun hpc => ?_, Nat.le_trans (Nat.le_add_right ..)
    (Nat.le_add_right ..)⟩
  · exact h.place.goes.1 hpc
  · exact h.place.goes.2 hpc

theorem Crew.run (h : Crew fn rounds p plan) (rands : Nat → Nat) (n : Nat) :
    (∃ plan', Crew fn rounds (p.run fn rands n) plan' ∧
      plan'.total rounds (p.run fn rands n) = plan.total rounds p) ∨
      Finished (plan.total rounds p) (p.run fn rands n) := by
  induction n with
  | zero => exact .inl ⟨plan, h, rfl⟩
  | succ n ih =>
    -- by induction on the steps
    rcases ih with ⟨plan', hcrew, htotal⟩ | hfinished
    · rw [← htotal]
      rcases hcrew.step (rands n) with ⟨plan'', hcrew', htotal', -⟩ | hfinished
      · exact .inl ⟨plan'', hcrew', htotal'⟩
      · exact .inr hfinished
    · -- a process that is over stays as it is
      refine .inr ?_
      rw [← hfinished.step (rands n)] at hfinished
      exact hfinished

/-- While the front of the queue is picked, the measure goes down. -/
theorem Crew.finishes (h : Crew fn rounds p plan) (rands : Nat → Nat)
    (hfront : ∀ n, PicksFront (p.run fn rands n).machine.tus (rands n)) :
    ∃ n ≤ plan.measure rounds p + 1, Finished (plan.total rounds p) (p.run fn rands n) := by
  refine exists_done (p.run fn rands) (fun p' k => ∃ plan', Crew fn rounds p' plan' ∧
    plan'.total rounds p' = plan.total rounds p ∧ plan'.measure rounds p' = k)
    ⟨plan, h, rfl, rfl⟩ ?_
  rintro n _ - ⟨plan', hcrew, htotal, rfl⟩
  rcases hcrew.step (rands n) with ⟨plan'', hcrew', htotal', hmeasure⟩ | hfinished
  · exact .inr ⟨_, hmeasure (hfront n), plan'', hcrew', htotal'.trans htotal, rfl⟩
  · exact .inl (htotal ▸ hfinished)

/-- `tus_init` has returned 1, the id of the only block. -/
theorem boot_main {salg : Int} (h : salg = ALG_FCFS ∨ salg = ALG_RANDOM) :
    (Machine.boot salg).pc = .user (some 1) ∧ (Machine.boot salg).tus.serials = 1 := by
  rcases h with rfl | rfl
  · exact ⟨by decide +kernel, by decide +kernel⟩
  · exact ⟨by decide +kernel, by decide +kernel⟩

/-- The process behind `tus_init`. -/
theorem Crew.start {salg : Int} (hsalg : salg = ALG_FCFS ∨ salg = ALG_RANDOM)
    {main : Int → Code} {fs : List (Nat × Nat)} (hmain : ForkJoin fs [] (main 1))
    (hfs : ∀ f ∈ fs, Rounds (rounds f.1 f.2) (fn f.1 f.2)) (hroom : fs.length < TUS_MAXTHREADS) :
    Crew fn rounds (Process.start salg main) ⟨fs, [], fun _ => 0⟩ := by
  have hinv := boot_inv hsalg
  have hbooked := boot_booked hsalg
  obtain ⟨hpc, hserials⟩ := boot_main hsalg
  have hplace := hinv.place
  rw [hpc] at hplace
  obtain ⟨c, t, hcur, hawake⟩ := hplace
  -- there is no other block
  have hzero : ∀ i v, (Machine.boot salg).tus.threads i = some v → v.serial = 0 := fun i v hi => by
    have hlt := hbooked.serial_lt i v hi
    omega
  refine ⟨hinv, hbooked, rfl, fun i v hi => ?_, ⟨t.tid, c, t, hcur.slot, rfl, hzero c t hcur.slot⟩,
    ?_, fun tid htid => absurd htid List.not_mem_nil, List.nodup_nil, hfs, ?_,
    .user hpc hcur.currentTcb (hzero c t hcur.slot) hmain⟩
  · obtain rfl := hbooked.serial_inj i c v t hi hcur.slot
      ((hzero i v hi).trans (hzero c t hcur.slot).symm)
    obtain rfl := Option.some.inj (hi.symm.trans hcur.slot)
    refine .of_main (hzero i v hi) ?_ fun hne => absurd hawake.unfinished hne
    rw [hcur.state]
    exact ThreadState.noConfusion
  · rintro tid k ⟨i, v, hi, -, rfl⟩ hne
    exact absurd (hzero i v hi) hne
  · show 0 + fs.length < TUS_MAXTHREADS
    omega

end Runs

/-- A program that forks and joins, with the rounds of its threads. -/
theorem forkJoin_returns {salg : Int} (hsalg : salg = ALG_FCFS ∨ salg = ALG_RANDOM)
    {main : Int → Code} {fs : List (Nat × Nat)} (hmain : ForkJoin fs [] (main 1))
    (hroom : fs.length < TUS_MAXTHREADS) :
    Returns salg main (fs.map Prod.snd).sum ((fs.map fun f => 4 * f.2 + 9).sum + 4) := by
  set plan : Plan := ⟨fs, [], fun _ => 0⟩ with hplan
  have hstart : Crew workers (fun _ loops => loops) (Process.start salg main) plan :=
    Crew.start hsalg hmain (fun f _ => rounds_worker f.2) hroom
  -- nobody but `main` is there at the start, and `main` is not counted
  have hempty (f : Nat → Nat) :
      crewSum f plan.todo (Process.start salg main).machine.tus.threads = 0 := by
    refine Finset.sum_eq_zero fun i _ => ?_
    cases hi : (Process.start salg main).machine.tus.threads i with
    | none => rfl
    | some t =>
      have hlt := hstart.booked.serial_lt i t hi
      rw [show (Process.start salg main).machine.tus.serials = 1 from (boot_main hsalg).2] at hlt
      exact if_pos (.inl (by omega))
  have htotal : plan.total (fun _ loops => loops) (Process.start salg main) =
      (fs.map Prod.snd).sum := by
    simp only [Plan.total, hempty]
    exact Nat.zero_add _
  -- every thread costs `4 * rounds + 9`, and the phase at most 3
  have hmeasure : plan.measure (fun _ loops => loops) (Process.start salg main) ≤
      (fs.map fun f => 4 * f.2 + 9).sum + 3 := by
    have hphase := phase_le (Process.start salg main).machine
    have hjs : plan.js.length = 0 := rfl
    have hfs : plan.fs = fs := rfl
    simp only [Plan.measure, hempty, hjs, hfs]
    omega
  rw [← htotal]
  refine ⟨fun rands n => ?_, fun rands n => ?_, fun hfcfs rands => ?_⟩
  · rcases hstart.run rands n with ⟨plan', hcrew, hsame⟩ | hfinished
    · rw [← hsame]
      exact .inl hcrew.goes
    · exact .inr hfinished
  · -- the front of the queue is picked from here on
    refine ⟨fun i => if i < n then rands i else 0, fun i hi => if_pos hi, ?_⟩
    simp only [Process.run_add]
    rw [Process.run_congr fun i hi => if_pos hi]
    rcases hstart.run rands n with ⟨plan', hcrew, hsame⟩ | hfinished
    · obtain ⟨k, -, hdone⟩ := hcrew.finishes (fun i => if n + i < n then rands (n + i) else 0)
        fun i => .inr (if_neg (by omega))
      exact ⟨k, hsame ▸ hdone⟩
    · exact ⟨0, hfinished⟩
  · subst hfcfs
    -- `ALG_FCFS` picks the front at every switch
    obtain ⟨n, hn, hdone⟩ := hstart.finishes rands fun n =>
      .inl (Process.run_fcfsInv FcfsInv.boot rands n).alg
    exact ⟨n, by omega, hdone⟩

/-- **`test_perf` and `test_basic` return 0**, with as many yields as `test_perf` prints. -/
theorem tests_end {salg : Int} (hsalg : salg = ALG_FCFS ∨ salg = ALG_RANDOM) :
    (∀ nthreads iterations, nthreads < TUS_MAXTHREADS →
      Returns salg (testPerf nthreads iterations) (nthreads * iterations)
        (nthreads * (4 * iterations + 9) + 4)) ∧
    ∀ loopsA loopsB,
      Returns salg (testBasic loopsA loopsB) (loopsA + loopsB) (4 * (loopsA + loopsB) + 22) := by
  refine ⟨fun nthreads iterations hroom => ?_, fun loopsA loopsB => ?_⟩
  · have hreturns := forkJoin_returns hsalg (forkJoin_testPerf nthreads iterations)
      (by rwa [List.length_replicate])
    simpa using hreturns
  · have hreturns := forkJoin_returns hsalg (forkJoin_testBasic loopsA loopsB)
      (by show 2 < 64; decide)
    convert hreturns using 1
    · simp
    · simp
      omega

/-- Under RANDOM, with all the threads there is room for. -/
theorem tests_end_random :
    Returns ALG_RANDOM (testPerf 63 1000) (63 * 1000) (63 * (4 * 1000 + 9) + 4) ∧
      Returns ALG_RANDOM (testBasic 3 4) (3 + 4) (4 * (3 + 4) + 22) :=
  have hends := tests_end (.inr rfl)
  ⟨hends.1 63 1000 (by decide), hends.2 3 4⟩

end OsProjects.Tus
