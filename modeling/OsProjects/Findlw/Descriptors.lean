import OsProjects.Findlw.Processes

/-!
# Descriptors — the pipes end when the children do

The loop of the parent ends when every pipe has come to its end, and a pipe ends only when
no process has its writing end open. Child `i` inherits the writing ends of the pipes from
`i` on and closes all of them but its own, the parent closes the one of pipe `i` behind the
`fork` of child `i`. `ProcInv` keeps for each process which ends it has open (`Names`). A child
closes the writing ends before its own too, which it does not have: their numbers are free in
its table, and the `close` fails (`lookup_closes`).

* `Moved` — what a step can do, and never through a wrong number (`step_moved`);
* `Moved.simulates` — the processes do what the system of `Findlw/Pipes.lean` does;
* `Moved.inv` — every step keeps the invariant.
-/

namespace OsProjects.Findlw

open FdTable

variable {n : Nat}

/-! ## Which process has which end open -/

namespace Processes

/-- The ends of the pipes `main` has created. -/
def created (w : Processes n) : Set (PipeEnd n) := {e | e.1.val < w.piped}

/-- The ends `main` has open. -/
def parentEnds (w : Processes n) : Set (PipeEnd n) :=
  {e | e.1.val < w.piped ∧ w.failed = false ∧
    if e.2 = true then w.shut ≤ e.1.val else (w.sys.inbox e.1).closed = false}

/-- Child `i` has ended. -/
def Gone (w : Processes n) (i : Fin n) (c : Forked n) : Prop :=
  c.killed = true ∨ (w.sys.child i).exited = true

/-- The ends child `i` has open: the one it writes to, and those it has still to close but for
the writing ends that `main` had closed before the `fork`. -/
def childEnds (w : Processes n) (i : Fin n) (c : Forked n) : Set (PipeEnd n) :=
  {e | (e ∈ c.closes ∨ e = (i, true)) ∧ (e.2 = true → i ≤ e.1) ∧ ¬ w.Gone i c}

end Processes

/-- What holds of the processes between two calls. -/
structure ProcInv (records : Fin n → List Text) (w : Processes n) : Prop where
  sys : Inv records w.sys
  within : ∀ i, (w.sys.child i).Within
  straight : w.astray = false
  piped : w.piped ≤ n ∧ (w.forked = 0 ∨ w.piped = n)
  forked : w.forked ≤ n ∧ w.shut ≤ w.forked ∧ w.forked ≤ w.shut + 1
  injOn : Set.InjOn w.fd w.created
  low : ∀ e ∈ w.created, w.fd e < w.limit
  limit : w.limit ≤ FD_SETSIZE
  parent : Names w.fd .pipe w.created w.parentEnds w.parentEnds w.parent
  born : ∀ i, (w.child i).isSome = true ↔ i.val < w.forked
  child : ∀ i, ∀ c ∈ w.child i,
    Names w.fd .pipe w.created (w.childEnds i c) (w.childEnds i c) c.table ∧
      (i, true) ∉ c.closes ∧ c.closes.Nodup
  /-- `main` reads only behind the two loops. -/
  unread : ¬ w.Reading → w.sys.todo = [] ∧ ∀ i, (w.sys.inbox i).closed = false
  exited : ∀ i, (w.sys.child i).exited = true → (w.child i).isSome = true
  killed : ∀ i, ∀ c ∈ w.child i, c.killed = true → w.failed = true

theorem pipe_injective : Function.Injective (FileRef.pipe : PipeEnd n → FileRef n) :=
  fun _ _ h => FileRef.pipe.inj h

/-- A child closes every end but the one it writes to. -/
theorem mem_childCloses {i : Fin n} {e : PipeEnd n} : e ∈ childCloses i ↔ e ≠ (i, true) := by
  obtain ⟨j, writing⟩ := e
  simp only [childCloses, List.mem_flatMap, List.mem_finRange, true_and, List.mem_cons]
  -- the reading ends are all closed
  cases writing with
  | false => exact ⟨fun _ h => by simp at h, fun _ => ⟨j, .inl rfl⟩⟩
  -- of the writing ends all but its own
  | true =>
    constructor
    · rintro ⟨k, h | h⟩
      · exact absurd h (by simp)
      · split at h
        · obtain rfl : j = k := by simpa using h
          exact fun heq => ‹j ≠ i› (congrArg Prod.fst heq)
        · exact absurd h List.not_mem_nil
    · intro h
      have hne : j ≠ i := fun heq => h (by rw [heq])
      exact ⟨j, .inr (by simp [hne])⟩

/-- No end is closed twice. -/
theorem nodup_childCloses (i : Fin n) : (childCloses i).Nodup := by
  refine List.nodup_flatMap.mpr ⟨fun j _ => ?_, (List.nodup_finRange n).imp fun hne => ?_⟩
  · -- in one turn the reading end is first, and a writing end may follow
    by_cases hj : j ≠ i
    · simp [hj]
    · simp [hj]
  · -- two turns of the loop are about two pipes
    intro e hfirst hsecond
    refine hne (Eq.trans (b := e.1) ?_ ?_)
    · rcases List.mem_cons.mp hfirst with rfl | hfirst
      · rfl
      · split at hfirst
        · rw [List.mem_singleton.mp hfirst]
        · exact absurd hfirst List.not_mem_nil
    · rcases List.mem_cons.mp hsecond with rfl | hsecond
      · rfl
      · split at hsecond
        · rw [List.mem_singleton.mp hsecond]
        · exact absurd hsecond List.not_mem_nil

/-- At most two calls of `close` for each pipe. -/
theorem length_childCloses_le (i : Fin n) : (childCloses i).length ≤ 2 * n := by
  rw [childCloses, List.length_flatMap]
  refine (List.sum_le_card_nsmul _ 2 fun m hm => ?_).trans (by simp [mul_comm])
  obtain ⟨j, -, rfl⟩ := List.mem_map.mp hm
  by_cases hne : j ≠ i
  · simp [hne]
  · simp [hne]

variable {records : Fin n → List Text} {w w' : Processes n} {s : System n}

theorem parentEnds_subset : w.parentEnds ⊆ w.created := fun _ he => he.1

namespace ProcInv

variable (h : ProcInv records w)
include h

/-- There is a child only when all pipes are there. -/
theorem piped_eq (hforked : 0 < w.forked) : w.piped = n := h.piped.2.resolve_left (by omega)

/-- A child exists only when every pipe does. -/
theorem mem_created {i : Fin n} {c : Forked n} (hc : w.child i = some c) (e : PipeEnd n) :
    e ∈ w.created := by
  have hborn := (h.born i).mp (by rw [hc]; rfl)
  show e.1.val < w.piped
  rw [h.piped_eq (by omega)]
  exact e.1.isLt

/-- No child is killed as long as `main` reads. -/
theorem not_failed (hreading : w.Reading) {i : Fin n} {c : Forked n} (hc : w.child i = some c) :
    c.killed = false :=
  Bool.eq_false_of_not_eq_true fun hkilled =>
    absurd (h.killed i c hc hkilled) (by rw [hreading.1]; exact Bool.false_ne_true)

/-- A pipe is at its end only if its child is. -/
theorem exited_of_not_held (hreading : w.Reading) {i : Fin n} (hheld : ¬ w.Held (i, true)) :
    (w.sys.child i).exited = true := by
  have hborn : (w.child i).isSome = true := (h.born i).mpr (by rw [hreading.2.2.1]; exact i.isLt)
  obtain ⟨c, hc⟩ := Option.isSome_iff_exists.mp hborn
  by_contra hrunning
  have hgone : ¬ w.Gone i c := fun hgone => hgone.elim
    (fun hkilled => by rw [h.not_failed hreading hc] at hkilled; exact absurd hkilled (by simp))
    hrunning
  have hown : ((i, true) : PipeEnd n) ∈ w.childEnds i c := ⟨.inr rfl, fun _ => le_rfl, hgone⟩
  exact hheld (.inr ⟨i, c, hc, (h.child i c hc).1.open_of_keeps hown⟩)

/-- What `select` reports is what `Findlw/Pipes.lean` calls readable. -/
theorem readable (hreading : w.Reading) {i : Fin n} (hi : w.Readable i) : w.sys.readable i :=
  hi.imp_right (h.exited_of_not_held hreading)

/-- A child with records left has not exited. -/
theorem not_exited {i : Fin n} (hrecs : (w.sys.child i).recs ≠ []) :
    (w.sys.child i).exited = false :=
  Bool.eq_false_of_not_eq_true fun hexited => hrecs ((h.sys.pipes i).exited hexited)

/-- `main` reads pipe `i` as long as child `i` writes to it. -/
theorem held_of_recs (hfailed : w.failed = false) {i : Fin n} {c : Forked n}
    (hc : w.child i = some c) (hrecs : (w.sys.child i).recs ≠ []) : w.Held (i, false) := by
  have hopen : (w.sys.inbox i).closed = false := Bool.eq_false_of_not_eq_true fun hclosed =>
    absurd ((h.sys.pipes i).closed hclosed).2 (by rw [h.not_exited hrecs]; simp)
  exact .inl (h.parent.open_of_keeps ⟨h.mem_created hc (i, false), hfailed, by simpa using hopen⟩)

/-- The end a child writes to has the number the program has for it. -/
theorem aims_own {i : Fin n} {c : Forked n} (hc : w.child i = some c) (hgone : ¬ w.Gone i c) :
    Aims w.fd c.table (i, true) :=
  (h.child i c hc).1.keeps _ ⟨.inr rfl, fun _ => le_rfl, hgone⟩

/-- What the numbers in front of a child stand for in its table: their own pipes, but for the
writing ends before its own, which stand for nothing. -/
theorem lookup_closes {i : Fin n} {c : Forked n} (hc : w.child i = some c) (hgone : ¬ w.Gone i c)
    {e : PipeEnd n} (he : e ∈ c.closes ∨ e = (i, true)) :
    c.table.lookup (w.fd e) = if e.2 = true ∧ e.1 < i then none else some (.pipe e) := by
  have hnames := (h.child i c hc).1
  split
  · next hclosed =>
    refine (hnames.lookup_eq (h.mem_created hc e)).resolve_right fun hsome => ?_
    obtain ⟨-, hle, -⟩ := (hnames.only _ _ hsome).1
    exact absurd (hle hclosed.1) (not_le_of_gt hclosed.2)
  · next hopen =>
    exact hnames.keeps e ⟨he, fun hwriting => not_lt.mp fun hlt => hopen ⟨hwriting, hlt⟩, hgone⟩

/-- The end `main` reads from has the number the program has for it. -/
theorem aims_parent (hreading : w.Reading) {i : Fin n} (hopen : (w.sys.inbox i).closed = false) :
    Aims w.fd w.parent (i, false) :=
  h.parent.keeps _ ⟨by show i.val < w.piped; rw [hreading.2.1]; exact i.isLt, hreading.1,
    by simpa using hopen⟩

end ProcInv

/-- An `fd_set` has room for every pipe. -/
theorem ProcInv.fd_lt (h : ProcInv records w) (hreading : w.Reading) (e : PipeEnd n) :
    w.fd e < FD_SETSIZE :=
  lt_of_lt_of_le (h.low e (by show e.1.val < w.piped; rw [hreading.2.1]; exact e.1.isLt)) h.limit

/-- A `close` of the program closes what it means, or nothing. -/
theorem closeEnd_eq {keeps may created : Set (PipeEnd n)} {fd : PipeEnd n → Nat}
    {t : FdTable (FileRef n)} (h : Names fd .pipe created keeps may t) {e : PipeEnd n}
    (he : e ∈ created) : closeEnd fd t e = some (t.erase (fd e)) := by
  unfold closeEnd
  rcases h.lookup_eq he with hnone | hsome
  · rw [hnone, erase_of_lookup_eq_none hnone]
  · rw [hsome]
    exact if_pos rfl

/-! ## What a step can do -/

/-- A child in `child_process` has closed what it inherited. -/
theorem running_eq {i : Fin n} {c : Forked n} (h : w.running i = some c) :
    w.child i = some c ∧ c.killed = false ∧ c.closes = [] := by
  obtain ⟨hc, hrunning⟩ := Option.filter_eq_some_iff.mp h
  simp only [Bool.and_eq_true, Bool.not_eq_true', List.isEmpty_iff] at hrunning
  exact ⟨hc, hrunning⟩

/-- The calls of the processes, each with the state it leads to. -/
inductive Moved (fresh : Nat → UInt8) (dataLength room : Nat) (w : Processes n) :
    Action n → Processes n → Prop
  | pipe {readEnd writeEnd : Nat} (hpiped : w.piped < n) (hfailed : w.failed = false)
      (hfree : w.Free readEnd writeEnd) :
      Moved fresh dataLength room w (.pipe readEnd writeEnd)
        { w with
          fd := Function.update (Function.update w.fd (⟨w.piped, hpiped⟩, false) readEnd)
            (⟨w.piped, hpiped⟩, true) writeEnd
          parent := (w.parent.insert readEnd (.pipe (⟨w.piped, hpiped⟩, false))).insert writeEnd
            (.pipe (⟨w.piped, hpiped⟩, true))
          piped := w.piped + 1 }
  | fork (hforked : w.forked < n) (hfailed : w.failed = false) (hpiped : w.piped = n)
      (hshut : w.shut = w.forked) :
      Moved fresh dataLength room w .fork
        { w.setChild ⟨w.forked, hforked⟩ ⟨w.parent, childCloses ⟨w.forked, hforked⟩, false⟩ with
          forked := w.forked + 1 }
  | close (hshut : w.shut < n) (hfailed : w.failed = false) (hforked : w.shut < w.forked) :
      Moved fresh dataLength room w .close
        { w with parent := w.parent.erase (w.fd (⟨w.shut, hshut⟩, true)), shut := w.shut + 1 }
  | fail (hfailed : w.failed = false) (hsetup : ¬ w.Reading) :
      Moved fresh dataLength room w .fail { w with parent := ∅, failed := true }
  | childClose {i : Fin n} {c : Forked n} {e : PipeEnd n} {closes : List (PipeEnd n)}
      (hc : w.child i = some c) (hcloses : c.closes = e :: closes) (hkilled : c.killed = false) :
      Moved fresh dataLength room w (.childClose i)
        (w.setChild i ⟨c.table.erase (w.fd e), closes, false⟩)
  | write {i : Fin n} {c : Forked n} {sys : System n} (hc : w.running i = some c)
      (hstep : w.sys.write dataLength i (nextChunk dataLength (w.sys.child i)) = some sys) :
      Moved fresh dataLength room w (.write i) { w with sys := sys }
  | writeEintr {i : Fin n} {c : Forked n} (hc : w.running i = some c)
      (hrecs : (w.sys.child i).recs ≠ []) : Moved fresh dataLength room w (.writeEintr i) w
  | exit {i : Fin n} {c : Forked n} (hc : w.running i = some c)
      (hrecs : (w.sys.child i).recs = []) (hrunning : (w.sys.child i).exited = false) :
      Moved fresh dataLength room w (.exit i)
        { w.setChild i { c with table := ∅ } with sys := w.sys.exit i }
  | sigpipe {i : Fin n} {c : Forked n} (hc : w.running i = some c) (hfailed : w.failed = true) :
      Moved fresh dataLength room w (.sigpipe i)
        (w.setChild i { c with table := ∅, killed := true })
  | select {ready : List (Fin n)} (hreading : w.Reading) (htodo : w.sys.todo = [])
      (hopen : w.sys.openPipes > 0) (hne : ready ≠ [])
      (hready : ∀ i ∈ ready, (w.sys.inbox i).closed = false ∧ w.Readable i) :
      Moved fresh dataLength room w (.select ready)
        { w with sys := { w.sys with todo := (List.finRange n).filter (· ∈ ready) } }
  | selectEintr (hreading : w.Reading) (htodo : w.sys.todo = []) (hopen : w.sys.openPipes > 0) :
      Moved fresh dataLength room w .selectEintr w
  | read {i : Fin n} {todo : List (Fin n)} {r : Nat} (hreading : w.Reading)
      (htodo : w.sys.todo = i :: todo)
      (hr : 1 ≤ r ∧ r ≤ min dataLength 1024 ∧ r ≤ (w.sys.pipe i).length) :
      Moved fresh dataLength room w (.read r) { w with sys := w.sys.receive fresh i todo r }
  | readEof {i : Fin n} {todo : List (Fin n)} (hreading : w.Reading)
      (htodo : w.sys.todo = i :: todo) (hpipe : w.sys.pipe i = []) (hheld : ¬ w.Held (i, true)) :
      Moved fresh dataLength room w .readEof
        { w with
          sys := w.sys.closePipe i todo
          parent := w.parent.erase (w.fd (i, false)) }
  | readEintr {i : Fin n} {todo : List (Fin n)} (hreading : w.Reading)
      (htodo : w.sys.todo = i :: todo) :
      Moved fresh dataLength room w .readEintr { w with sys := { w.sys with todo := todo } }

section Steps

variable {fresh : Nat → UInt8} {dataLength room : Nat} (h : ProcInv records w)
include h

/-- The calls of `main` before the reading loop. -/
theorem setup_moved {a : Action n} (hfailed : w.failed = false) (hstep : w.setup a = some w') :
    Moved fresh dataLength room w a w' := by
  cases a with
  | pipe readEnd writeEnd =>
    simp only [Processes.setup] at hstep
    split_ifs at hstep with hpiped hfree
    obtain rfl := Option.some.inj hstep
    exact .pipe hpiped hfailed hfree
  | fork =>
    simp only [Processes.setup] at hstep
    split_ifs at hstep with hforked hready
    obtain rfl := Option.some.inj hstep
    exact .fork hforked hfailed hready.1 hready.2
  | close =>
    simp only [Processes.setup] at hstep
    split_ifs at hstep with hshut hforked
    -- the end is one of a pipe that was made
    have hcreated : ((⟨w.shut, hshut⟩, true) : PipeEnd n) ∈ w.created := by
      show w.shut < w.piped
      rw [h.piped_eq (by omega)]
      exact hshut
    rw [closeEnd_eq h.parent hcreated] at hstep
    obtain rfl := Option.some.inj hstep
    exact .close hshut hfailed hforked
  | fail =>
    simp only [Processes.setup] at hstep
    split_ifs at hstep with hsetup
    obtain rfl := Option.some.inj hstep
    -- with all pipes and children there is nothing left to fail
    refine .fail hfailed fun hreading => ?_
    obtain ⟨-, hpiped, hforked, -⟩ := hreading
    omega
  | _ => exact absurd hstep (by simp [Processes.setup])

/-- The calls of a child in `child_process`. -/
theorem work_moved {a : Action n} {i : Fin n} {c : Forked n} (hc : w.running i = some c)
    (ha : a = .write i ∨ a = .writeEintr i ∨ a = .exit i ∨ a = .sigpipe i)
    (hstep : w.work dataLength room i c a = some w') : Moved fresh dataLength room w a w' := by
  obtain ⟨hchild, hkilled, -⟩ := running_eq hc
  have haims (hrecs : (w.sys.child i).recs ≠ []) : Aims w.fd c.table (i, true) :=
    h.aims_own hchild (by rintro (hgone | hgone) <;> simp_all [h.not_exited hrecs])
  rcases ha with rfl | rfl | rfl | rfl
  · simp only [Processes.work] at hstep
    split_ifs at hstep with hrecs haim hroom
    · obtain ⟨sys, hsys, rfl⟩ := Option.map_eq_some_iff.mp hstep
      exact .write hc hsys
    · exact absurd (haims hrecs) haim
  · simp only [Processes.work] at hstep
    split_ifs at hstep with hrecs
    obtain rfl := Option.some.inj hstep
    exact .writeEintr hc hrecs
  · simp only [Processes.work] at hstep
    split_ifs at hstep with hrecs
    obtain rfl := Option.some.inj hstep
    exact .exit hc hrecs.1 hrecs.2
  · simp only [Processes.work] at hstep
    split_ifs at hstep with hrecs haim hheld
    · obtain rfl := Option.some.inj hstep
      -- without a reader `main` must have returned
      refine .sigpipe hc (Bool.eq_true_of_not_eq_false fun hfailed => hheld ?_)
      exact h.held_of_recs hfailed hchild hrecs
    · exact absurd (haims hrecs) haim

/-- The turn of `main` for one pipe. -/
theorem turn_moved {a : Action n} {i : Fin n} {todo : List (Fin n)} (hreading : w.Reading)
    (htodo : w.sys.todo = i :: todo) (hstep : w.turn fresh dataLength i todo a = some w') :
    Moved fresh dataLength room w a w' := by
  -- `select` reports open pipes only, and `main` has them under their numbers
  have hopen := (h.sys.todo_open i (by rw [htodo]; exact List.mem_cons_self)).1
  have haims := h.aims_parent hreading hopen
  cases a with
  | read r =>
    simp only [Processes.turn, haims, not_true_eq_false, if_false] at hstep
    split_ifs at hstep with hr
    obtain rfl := Option.some.inj hstep
    exact .read hreading htodo hr
  | readEof =>
    simp only [Processes.turn, haims, not_true_eq_false, if_false] at hstep
    split_ifs at hstep with hend
    -- the end is one of a pipe that was made
    have hcreated : ((i, false) : PipeEnd n) ∈ w.created := by
      show i.val < w.piped
      rw [hreading.2.1]
      exact i.isLt
    rw [closeEnd_eq h.parent hcreated] at hstep
    obtain rfl := Option.some.inj hstep
    exact .readEof hreading htodo hend.1 hend.2
  | readEintr =>
    obtain rfl := Option.some.inj hstep
    exact .readEintr hreading htodo
  | _ => exact absurd hstep (by simp [Processes.turn])

theorem select_moved {ready : List (Fin n)} (hreading : w.Reading) (htodo : w.sys.todo = [])
    (hopen : w.sys.openPipes > 0) (hstep : w.select ready = some w') :
    Moved fresh dataLength room w (.select ready) w' := by
  -- every number that `FD_SET` is called with is below its limit
  have haims : ∀ i, (w.sys.inbox i).closed = false →
      Aims w.fd w.parent (i, false) ∧ w.fd (i, false) < FD_SETSIZE :=
    fun i hi => ⟨h.aims_parent hreading hi, h.fd_lt hreading (i, false)⟩
  simp only [Processes.select] at hstep
  rw [if_neg (not_not.mpr haims)] at hstep
  split_ifs at hstep with hready
  obtain ⟨hne, hall⟩ := hready
  simp only [List.contains_eq_mem] at hstep
  obtain rfl := Option.some.inj hstep
  exact .select hreading htodo hopen hne fun i hi =>
    of_decide_eq_true (List.all_eq_true.mp hall i hi)

/-- The calls of the reading loop. -/
theorem loop_moved {a : Action n} (hreading : w.Reading)
    (hstep : w.loop fresh dataLength a = some w') : Moved fresh dataLength room w a w' := by
  unfold Processes.loop at hstep
  cases htodo : w.sys.todo with
  -- inside a round over the pipes
  | cons i todo =>
    rw [htodo] at hstep
    exact turn_moved h hreading htodo hstep
  -- between two rounds
  | nil =>
    rw [htodo] at hstep
    split_ifs at hstep with hopen
    cases a with
    | select ready => exact select_moved h hreading htodo hopen hstep
    | selectEintr =>
      obtain rfl := Option.some.inj hstep
      exact .selectEintr hreading htodo hopen
    | _ => exact absurd hstep (by simp)

/-- No call goes through a number that stands for another file. -/
theorem step_moved {a : Action n} (hstep : w.step fresh dataLength room a = some w') :
    Moved fresh dataLength room w a w' := by
  -- the calls of `main` before the loop,
  have hsetup (hstep : (if w.failed = false then w.setup a else none) = some w') :
      Moved fresh dataLength room w a w' := by
    split_ifs at hstep with hfailed
    exact setup_moved h hfailed hstep
  -- those of a child in `child_process`,
  have hwork {i : Fin n} (ha : a = .write i ∨ a = .writeEintr i ∨ a = .exit i ∨ a = .sigpipe i)
      (hstep : ((w.running i).bind fun c => w.work dataLength room i c a) = some w') :
      Moved fresh dataLength room w a w' := by
    obtain ⟨c, hc, hwork⟩ := Option.bind_eq_some_iff.mp hstep
    exact work_moved h hc ha hwork
  -- and those of the loop
  have hloop (hstep : (if w.Reading then w.loop fresh dataLength a else none) = some w') :
      Moved fresh dataLength room w a w' := by
    split_ifs at hstep with hreading
    exact loop_moved h hreading hstep
  cases a with
  | pipe | fork | close | fail => exact hsetup hstep
  | write i => exact hwork (.inl rfl) hstep
  | writeEintr i => exact hwork (.inr (.inl rfl)) hstep
  | exit i => exact hwork (.inr (.inr (.inl rfl))) hstep
  | sigpipe i => exact hwork (.inr (.inr (.inr rfl))) hstep
  | select | selectEintr | read | readEof | readEintr => exact hloop hstep
  | childClose i =>
    -- a `close` of a child, of a number it holds or of one it does not
    simp only [Processes.step] at hstep
    split at hstep
    · rename_i table e closes hc
      rw [closeEnd_eq (h.child i _ hc).1 (h.mem_created hc e)] at hstep
      obtain rfl := Option.some.inj hstep
      exact .childClose hc rfl rfl
    · exact absurd hstep (by simp)

end Steps

/-! ## The same bytes -/

/-- What an action does in the system of `Findlw/Pipes.lean`. -/
def Action.events (dataLength : Nat) (w : Processes n) : Action n → List (Event n)
  | .write i => [.write i (nextChunk dataLength (w.sys.child i))]
  | .writeEintr i => [.writeEintr i]
  | .exit i => [.exit i]
  | .select ready => [.select ready]
  | .selectEintr => [.selectEintr]
  | .read r => [.read r]
  | .readEof => [.readEof]
  | .readEintr => [.readEintr]
  | _ => []

theorem run_singleton {fresh : Nat → UInt8} {dataLength : Nat} {e : Event n} {s s' : System n}
    (h : s.step fresh dataLength e = some s') : System.run fresh dataLength [e] s = some s' := by
  show (s.step fresh dataLength e).bind _ = _
  rw [h]
  rfl

variable {fresh : Nat → UInt8} {dataLength room : Nat} {a : Action n}

/-- A `read` sees the end of the pipe where `Findlw/Pipes.lean` lets it. -/
theorem Moved.simulates (h : ProcInv records w) (hmove : Moved fresh dataLength room w a w') :
    System.run fresh dataLength (a.events dataLength w) w.sys = some w'.sys := by
  cases hmove with
  | pipe | fork | close | fail | childClose | sigpipe => rfl
  | write hc hstep => exact run_singleton hstep
  | writeEintr hc hrecs => exact run_singleton (if_pos hrecs)
  | exit hc hrecs hrunning => exact run_singleton (if_pos ⟨hrecs, hrunning⟩)
  | select hreading htodo hopen hne hready =>
    refine run_singleton (if_pos ⟨htodo, hopen, hne, fun i hi => ?_⟩)
    -- to `main` a pipe without writers and one whose child has exited are the same
    exact (hready i hi).imp_right (h.readable hreading)
  | selectEintr hreading htodo hopen => exact run_singleton (if_pos ⟨htodo, hopen⟩)
  | read hreading htodo hr =>
    refine run_singleton ?_
    simp only [System.step, htodo]
    exact if_pos hr
  | readEof hreading htodo hpipe hheld =>
    refine run_singleton ?_
    simp only [System.step, htodo]
    -- `read` returns 0 only when no writing end is left
    exact if_pos ⟨hpipe, h.exited_of_not_held hreading hheld⟩
  | readEintr hreading htodo =>
    refine run_singleton ?_
    simp only [System.step, htodo]

/-! ## The invariant -/

/-- Both ends of a new pipe, where all that were created are open. -/
theorem names_pipe {created : Set (PipeEnd n)} {fd : PipeEnd n → Nat} {t : FdTable (FileRef n)}
    (h : Names fd .pipe created created created t) {i : Fin n}
    (hi : ∀ writing, (i, writing) ∉ created) {readEnd writeEnd : Nat}
    (hread : t.lookup readEnd = none) (hwrite : t.lookup writeEnd = none)
    (hne : writeEnd ≠ readEnd) {created' : Set (PipeEnd n)}
    (hcreated : created' = insert (i, true) (insert (i, false) created)) :
    Names (Function.update (Function.update fd (i, false) readEnd) (i, true) writeEnd) .pipe
      created' created' created'
      ((t.insert readEnd (.pipe (i, false))).insert writeEnd (.pipe (i, true))) := by
  -- first the reading end
  have hfirst := h.insert pipe_injective subset_rfl (hi false) (hi false) hread
  rw [Set.sdiff_singleton_eq_self (hi false)] at hfirst
  have htrue : ((i, true) : PipeEnd n) ∉ insert (i, false) created := by
    rintro (heq | hmem)
    · exact absurd heq (by simp)
    · exact hi true hmem
  -- then the writing end, under a number that is still free
  have hsecond := hfirst.insert pipe_injective subset_rfl htrue htrue
    ((AList.lookup_insert_ne hne).trans hwrite)
  rw [Set.sdiff_singleton_eq_self htrue] at hsecond
  rw [hcreated]
  exact hsecond

namespace ProcInv

variable (h : ProcInv records w)
include h

/-- A step that leaves the descriptors alone. -/
theorem of_sys {sys : System n} (hinv : Inv records sys) (hwithin : ∀ i, (sys.child i).Within)
    (hexited : ∀ i, (sys.child i).exited = (w.sys.child i).exited)
    (hclosed : ∀ i, (sys.inbox i).closed = (w.sys.inbox i).closed)
    (htodo : ¬ w.Reading → sys.todo = []) : ProcInv records { w with sys := sys } := by
  -- the ends of `main` depend on which pipes are closed
  have hparent : ({ w with sys := sys } : Processes n).parentEnds = w.parentEnds := by
    ext e
    show _ ∧ _ ∧ _ ↔ _ ∧ _ ∧ _
    rw [hclosed]
  -- what a child has depends on whether it has exited
  have hgone (i : Fin n) (c : Forked n) :
      ({ w with sys := sys } : Processes n).Gone i c ↔ w.Gone i c := by
    show _ ∨ _ ↔ _ ∨ _
    rw [hexited]
  have hchild (i : Fin n) (c : Forked n) (hc : w.child i = some c) :
      Names w.fd .pipe w.created (({ w with sys := sys } : Processes n).childEnds i c)
        (({ w with sys := sys } : Processes n).childEnds i c) c.table := by
    refine (h.child i c hc).1.mono subset_rfl ?_ ?_
    · exact fun e he => ⟨he.1, he.2.1, mt (hgone i c).mpr he.2.2⟩
    · exact fun e he => ⟨he.1, he.2.1, mt (hgone i c).mp he.2.2⟩
  exact {
    sys := hinv
    within := hwithin
    straight := h.straight
    piped := h.piped
    forked := h.forked
    injOn := h.injOn
    low := h.low
    limit := h.limit
    parent := hparent ▸ h.parent
    born := h.born
    child := fun i c hc => ⟨hchild i c hc, (h.child i c hc).2⟩
    unread := fun hsetup => ⟨htodo hsetup, fun i => (hclosed i).trans ((h.unread hsetup).2 i)⟩
    exited := fun i hi => h.exited i ((hexited i).symm.trans hi)
    killed := h.killed }

/-- A new pipe, whose numbers were free and stay below the limit. -/
theorem pipe {readEnd writeEnd : Nat} (hpiped : w.piped < n) (hfailed : w.failed = false)
    (hfree : w.Free readEnd writeEnd) : ProcInv records
      { w with
        fd := Function.update (Function.update w.fd (⟨w.piped, hpiped⟩, false) readEnd)
          (⟨w.piped, hpiped⟩, true) writeEnd
        parent := (w.parent.insert readEnd (.pipe (⟨w.piped, hpiped⟩, false))).insert writeEnd
          (.pipe (⟨w.piped, hpiped⟩, true))
        piped := w.piped + 1 } := by
  obtain ⟨⟨hread, hwrite, hne⟩, hreadlow, hwritelow⟩ := hfree
  -- nothing is forked or closed yet
  have hforked : w.forked = 0 := h.piped.2.resolve_right (by omega)
  have hshut : w.shut = 0 := by have hle := h.forked.2.1; omega
  have hopen := (h.unread fun hreading => by have heq := hreading.2.1; omega).2
  have hunborn (i : Fin n) : w.child i = none := Option.not_isSome_iff_eq_none.mp fun hborn => by
    have hlt := (h.born i).mp hborn
    omega
  have hends : w.parentEnds = w.created := by
    ext e
    refine ⟨fun he => he.1, fun he => ⟨he, hfailed, ?_⟩⟩
    split
    · omega
    · exact hopen e.1
  have hcreated : ({e | e.1.val < w.piped + 1} : Set (PipeEnd n)) =
      insert (⟨w.piped, hpiped⟩, true) (insert (⟨w.piped, hpiped⟩, false) w.created) := by
    ext ⟨j, writing⟩
    simp only [Set.mem_ofPred_eq, Set.mem_insert_iff, Prod.mk.injEq, Fin.ext_iff,
      Processes.created]
    cases writing <;> simp <;> omega
  have hnames := h.parent
  rw [hends] at hnames
  have hnew (writing : Bool) : ((⟨w.piped, hpiped⟩, writing) : PipeEnd n) ∉ w.created :=
    lt_irrefl w.piped
  have hnames' := names_pipe hnames hnew hread hwrite hne hcreated
  have hlow (e : PipeEnd n) (he : e.1.val < w.piped + 1) :
      Function.update (Function.update w.fd (⟨w.piped, hpiped⟩, false) readEnd)
        (⟨w.piped, hpiped⟩, true) writeEnd e < w.limit := by
    by_cases hwriting : e = (⟨w.piped, hpiped⟩, true)
    · subst hwriting
      rw [Function.update_self]
      exact hwritelow
    · rw [Function.update_of_ne hwriting]
      by_cases hreading : e = (⟨w.piped, hpiped⟩, false)
      · subst hreading
        rw [Function.update_self]
        exact hreadlow
      · rw [Function.update_of_ne hreading]
        have hold := (Set.ext_iff.mp hcreated e).mp he
        exact h.low e ((hold.resolve_left hwriting).resolve_left hreading)
  have hends' (e : PipeEnd n) : (e.1.val < w.piped + 1 ∧ w.failed = false ∧
      if e.2 = true then w.shut ≤ e.1.val else (w.sys.inbox e.1).closed = false) ↔
        e.1.val < w.piped + 1 := by
    refine ⟨And.left, fun he => ⟨he, hfailed, ?_⟩⟩
    split
    · omega
    · exact hopen e.1
  exact {
    sys := h.sys
    within := h.within
    straight := h.straight
    piped := ⟨hpiped, .inl hforked⟩
    forked := h.forked
    injOn := hnames'.injOn pipe_injective
    low := hlow
    limit := h.limit
    parent := hnames'.mono subset_rfl (fun e he => (hends' e).mp he) fun e he => (hends' e).mpr he
    born := h.born
    child := fun i c hc => by rw [hunborn i] at hc; exact absurd hc (by simp)
    unread := fun _ => ⟨(h.unread fun hreading => by have heq := hreading.2.1; omega).1, hopen⟩
    exited := h.exited
    killed := h.killed }

/-- The child has a copy of the table, with the plan to close all but one end. -/
theorem fork (hforked : w.forked < n) (hfailed : w.failed = false) (hpiped : w.piped = n)
    (hshut : w.shut = w.forked) : ProcInv records
      { w.setChild ⟨w.forked, hforked⟩ ⟨w.parent, childCloses ⟨w.forked, hforked⟩, false⟩ with
        forked := w.forked + 1 } := by
  have hunread := h.unread fun hreading => by have heq := hreading.2.2.1; omega
  have hunborn : ¬ (w.child ⟨w.forked, hforked⟩).isSome = true := fun hborn =>
    lt_irrefl _ ((h.born _).mp hborn)
  have hcreated (e : PipeEnd n) : e ∈ w.created := by
    show e.1.val < w.piped
    rw [hpiped]
    exact e.1.isLt
  -- the parent has the writing ends from the one of the child on
  have hparent (e : PipeEnd n) : e ∈ w.parentEnds ↔ (e.2 = true → w.forked ≤ e.1.val) := by
    obtain ⟨j, writing⟩ := e
    refine (and_iff_right (hcreated _)).trans ((and_iff_right hfailed).trans ?_)
    cases writing with
    | false => exact iff_of_true (hunread.2 j) fun hwriting => absurd hwriting Bool.false_ne_true
    | true =>
      rw [← hshut]
      exact ⟨fun hle _ => hle, fun hle => hle rfl⟩
  refine { h with
    piped := ⟨hpiped.le, .inr hpiped⟩
    forked := ⟨hforked, ?_, ?_⟩
    born := fun i => ?_
    child := fun i c hc => ?_
    unread := fun _ => hunread
    exited := fun i hi => ?_
    killed := fun i c hc hkilled => ?_ }
  · exact hshut.le.trans (Nat.le_succ _)
  · exact Nat.succ_le_succ hshut.ge
  · by_cases hi : i = ⟨w.forked, hforked⟩
    · subst hi
      simp [Processes.setChild]
    · have hne : i.val ≠ w.forked := fun heq => hi (Fin.ext heq)
      simp only [Processes.setChild, Function.update_of_ne hi, h.born i]
      omega
  · by_cases hi : i = ⟨w.forked, hforked⟩
    · subst hi
      obtain rfl : _ = c := by simpa [Processes.setChild] using hc
      refine ⟨h.parent.mono subset_rfl (fun e he => (hparent e).mpr he.2.1) fun e he => ?_,
        fun hmem => mem_childCloses.mp hmem rfl, nodup_childCloses _⟩
      · refine ⟨?_, (hparent e).mp he, ?_⟩
        · by_cases he : e = (⟨w.forked, hforked⟩, true)
          · exact .inr he
          · exact .inl (mem_childCloses.mpr he)
        · rintro (hkilled | hexited)
          · exact absurd hkilled (by simp)
          · exact hunborn (h.exited _ hexited)
    · simp only [Processes.setChild, Function.update_of_ne hi] at hc
      exact h.child i c hc
  · by_cases hi' : i = ⟨w.forked, hforked⟩
    · subst hi'
      simp [Processes.setChild]
    · simpa only [Processes.setChild, Function.update_of_ne hi'] using h.exited i hi
  · by_cases hi : i = ⟨w.forked, hforked⟩
    · subst hi
      obtain rfl : _ = c := by simpa [Processes.setChild] using hc
      exact absurd hkilled (by simp)
    · simp only [Processes.setChild, Function.update_of_ne hi] at hc
      exact h.killed i c hc hkilled

/-- `main` gives up the writing end of the child it has just forked. -/
theorem close (hshut : w.shut < n) (hforked : w.shut < w.forked) : ProcInv records
    { w with parent := w.parent.erase (w.fd (⟨w.shut, hshut⟩, true)), shut := w.shut + 1 } := by
  -- `main` forks only with all pipes there
  have hpiped := h.piped_eq (by omega)
  have hunread := h.unread fun hreading => by have heq := hreading.2.2.2; omega
  have hcreated : ((⟨w.shut, hshut⟩, true) : PipeEnd n) ∈ w.created := by
    show w.shut < w.piped
    omega
  -- the number is that of the writing end
  have hnames := h.parent.erase h.injOn parentEnds_subset hcreated
  refine { h with
    forked := ⟨h.forked.1, hforked, h.forked.2.2.trans (Nat.le_succ _)⟩
    parent := hnames.mono subset_rfl ?_ ?_
    unread := fun _ => hunread }
  · -- the other ends of `main` stay
    rintro ⟨j, writing⟩ ⟨hj, hfailed, hopen⟩
    cases writing with
    | false => exact ⟨⟨hj, hfailed, hopen⟩, by simp⟩
    | true =>
      have hlt : w.shut + 1 ≤ j.val := hopen
      have hne : j.val ≠ w.shut := by omega
      exact ⟨⟨hj, hfailed, Nat.le_of_succ_le hlt⟩, by simp [Fin.ext_iff, hne]⟩
  · -- and there are no more
    rintro ⟨j, writing⟩ ⟨⟨hj, hfailed, hopen⟩, hne⟩
    refine ⟨hj, hfailed, ?_⟩
    cases writing with
    | false => exact hopen
    | true =>
      have hle : w.shut ≤ j.val := hopen
      have hne' : j.val ≠ w.shut := fun heq => hne (by simp [Fin.ext_iff, heq])
      show w.shut + 1 ≤ j.val
      omega

/-- Without `main` all its descriptors are closed. -/
theorem fail (hsetup : ¬ w.Reading) : ProcInv records { w with parent := ∅, failed := true } := by
  refine { h with
    parent := (Names.empty _ _ _ _).mono subset_rfl ?_ (Set.empty_subset _)
    unread := fun _ => h.unread hsetup
    killed := fun _ _ _ _ => rfl }
  rintro e ⟨-, hfailed, -⟩
  exact absurd hfailed (by simp)

/-- A step of child `i`, which changes its descriptors and its own part of the system. -/
theorem set_child {i : Fin n} {c : Forked n} (hborn : (w.child i).isSome = true) {sys : System n}
    (hinv : Inv records sys) (hwithin : ∀ j, (sys.child j).Within)
    (hexited : ∀ j, j ≠ i → (sys.child j).exited = (w.sys.child j).exited)
    (hinbox : sys.inbox = w.sys.inbox) (htodo : sys.todo = w.sys.todo)
    (hnames : Names w.fd .pipe w.created
      (({ w.setChild i c with sys := sys } : Processes n).childEnds i c)
      (({ w.setChild i c with sys := sys } : Processes n).childEnds i c) c.table)
    (hown : (i, true) ∉ c.closes ∧ c.closes.Nodup) (hkilled : c.killed = true → w.failed = true) :
    ProcInv records { w.setChild i c with sys := sys } := by
  -- the ends of `main` are as before
  have hparent : ({ w.setChild i c with sys := sys } : Processes n).parentEnds = w.parentEnds := by
    unfold Processes.parentEnds
    rw [hinbox]
    rfl
  have hisSome (j : Fin n) :
      (Function.update w.child i (some c) j).isSome = (w.child j).isSome := by
    by_cases hj : j = i
    · rw [hj, Function.update_self, hborn]
      rfl
    · rw [Function.update_of_ne hj]
  -- a child is the one replaced, or was there before
  have hother {j : Fin n} {d : Forked n} (hd : Function.update w.child i (some c) j = some d) :
      j = i ∧ d = c ∨ j ≠ i ∧ w.child j = some d := by
    by_cases hj : j = i
    · rw [hj, Function.update_self] at hd
      exact .inl ⟨hj, (Option.some.inj hd).symm⟩
    · rw [Function.update_of_ne hj] at hd
      exact .inr ⟨hj, hd⟩
  exact {
    sys := hinv
    within := hwithin
    straight := h.straight
    piped := h.piped
    forked := h.forked
    injOn := h.injOn
    low := h.low
    limit := h.limit
    parent := hparent ▸ h.parent
    born := fun j => by
      show (Function.update w.child i (some c) j).isSome = true ↔ j.val < w.forked
      rw [hisSome]
      exact h.born j
    child := fun j d hd => by
      obtain ⟨rfl, rfl⟩ | ⟨hj, hd⟩ := hother hd
      · exact ⟨hnames, hown⟩
      · have hgone : ({ w.setChild i c with sys := sys } : Processes n).Gone j d ↔ w.Gone j d := by
          show _ ∨ _ ↔ _ ∨ _
          rw [hexited j hj]
        refine ⟨(h.child j d hd).1.mono subset_rfl ?_ ?_, (h.child j d hd).2⟩
        · exact fun e he => ⟨he.1, he.2.1, mt hgone.mpr he.2.2⟩
        · exact fun e he => ⟨he.1, he.2.1, mt hgone.mp he.2.2⟩
    unread := fun hsetup => by
      show sys.todo = [] ∧ ∀ j, (sys.inbox j).closed = false
      rw [hinbox, htodo]
      exact h.unread hsetup
    exited := fun j hj => by
      show (Function.update w.child i (some c) j).isSome = true
      rw [hisSome]
      by_cases hij : j = i
      · rw [hij, hborn]
      · exact h.exited j ((hexited j hij).symm.trans hj)
    killed := fun j d hd hdead => by
      obtain ⟨rfl, rfl⟩ | ⟨hj, hd⟩ := hother hd
      · exact hkilled hdead
      · exact h.killed j d hd hdead }

/-- The next `close` of a child, of an end it holds or of one it does not hold. -/
theorem childClose {i : Fin n} {c : Forked n} {e : PipeEnd n} {closes : List (PipeEnd n)}
    (hc : w.child i = some c) (hcloses : c.closes = e :: closes) (hkilled : c.killed = false) :
    ProcInv records (w.setChild i ⟨c.table.erase (w.fd e), closes, false⟩) := by
  obtain ⟨hnames, hown, hnodup⟩ := h.child i c hc
  -- its own end is not in the plan, and no end is in it twice
  rw [hcloses] at hown hnodup
  obtain ⟨hne, hrest⟩ := not_or.mp fun hmem => hown (List.mem_cons.mpr hmem)
  obtain ⟨hfresh, hnodup⟩ := List.nodup_cons.mp hnodup
  have hgone {d : Forked n} (hd : d.killed = false) : w.Gone i d ↔ w.Gone i c := by
    show _ ∨ _ ↔ _ ∨ _
    rw [hd, hkilled]
  -- the number goes, whether or not it stood for something
  have herase := hnames.erase h.injOn (fun e' _ => h.mem_created hc e') (h.mem_created hc e)
  refine h.set_child (by rw [hc]; rfl) h.sys h.within (fun _ _ => rfl) rfl rfl
    (herase.mono subset_rfl ?_ ?_) ⟨hrest, hnodup⟩ (fun hdead => absurd hdead (by simp))
  · -- what is left to close is not the end that was closed
    rintro e' ⟨hmem, hle, hrunning⟩
    refine ⟨⟨?_, hle, mt (hgone rfl).mpr hrunning⟩, ?_⟩
    · rw [hcloses]
      exact hmem.imp_left (List.mem_cons_of_mem e)
    · rintro rfl
      exact hmem.elim hfresh fun heq => hne heq.symm
  · -- an end that is not the one that was closed is as before
    rintro e' ⟨⟨hmem, hle, hrunning⟩, hother⟩
    refine ⟨hmem.imp_left fun hmem => ?_, hle, mt (hgone rfl).mp hrunning⟩
    rw [hcloses] at hmem
    exact (List.mem_cons.mp hmem).resolve_left hother

/-- A child that has ended has nothing open. -/
theorem childEnd {i : Fin n} {c d : Forked n} (hc : w.child i = some c) {sys : System n}
    (hinv : Inv records sys) (hwithin : ∀ j, (sys.child j).Within)
    (hexited : ∀ j, j ≠ i → (sys.child j).exited = (w.sys.child j).exited)
    (hinbox : sys.inbox = w.sys.inbox) (htodo : sys.todo = w.sys.todo)
    (htable : d.table = ∅) (hcloses : d.closes = [])
    (hgone : d.killed = true ∨ (sys.child i).exited = true)
    (hkilled : d.killed = true → w.failed = true) :
    ProcInv records { w.setChild i d with sys := sys } := by
  refine h.set_child (by rw [hc]; rfl) hinv hwithin hexited hinbox htodo ?_ ?_ hkilled
  · -- it holds nothing
    rw [htable]
    refine (Names.empty _ _ _ _).mono subset_rfl ?_ (Set.empty_subset _)
    exact fun e he => absurd hgone he.2.2
  · -- it closes nothing
    rw [hcloses]
    exact ⟨List.not_mem_nil, List.nodup_nil⟩

/-- `main` closes a pipe at its end. -/
theorem readEof {i : Fin n} {todo : List (Fin n)} (hreading : w.Reading)
    (htodo : w.sys.todo = i :: todo) (hpipe : w.sys.pipe i = []) (hheld : ¬ w.Held (i, true)) :
    ProcInv records
      { w with sys := w.sys.closePipe i todo, parent := w.parent.erase (w.fd (i, false)) } := by
  have hcreated : ((i, false) : PipeEnd n) ∈ w.created := by
    show i.val < w.piped
    rw [hreading.2.1]
    exact i.isLt
  -- the number is that of the reading end
  have hnames := h.parent.erase h.injOn parentEnds_subset hcreated
  -- one pipe is closed
  have hclosed (j : Fin n) : ((w.sys.closePipe i todo).inbox j).closed = false ↔
      j ≠ i ∧ (w.sys.inbox j).closed = false := by
    by_cases hj : j = i
    · subst hj
      simp [System.closePipe]
    · simp [System.closePipe, hj]
  refine { h with
    sys := h.sys.closePipe htodo hpipe (h.exited_of_not_held hreading hheld)
    within := h.within
    parent := hnames.mono subset_rfl ?_ ?_
    unread := fun hsetup => absurd hreading hsetup }
  · -- the other ends of `main` stay
    rintro ⟨j, writing⟩ ⟨hj, hfailed, hopen⟩
    cases writing with
    | false =>
      obtain ⟨hne, hopen⟩ := (hclosed j).mp hopen
      exact ⟨⟨hj, hfailed, hopen⟩, by simp [hne]⟩
    | true => exact ⟨⟨hj, hfailed, hopen⟩, by simp⟩
  · -- and there are no more
    rintro ⟨j, writing⟩ ⟨⟨hj, hfailed, hopen⟩, hne⟩
    refine ⟨hj, hfailed, ?_⟩
    cases writing with
    | false => exact (hclosed j).mpr ⟨fun heq => hne (by rw [heq]; rfl), hopen⟩
    | true => exact hopen

end ProcInv

/-- Bytes that arrive do not close a pipe. -/
theorem receive_closed (h : Inv records s) {i : Fin n} (todo : List (Fin n)) (r : Nat)
    (j : Fin n) : ((s.receive fresh i todo r).inbox j).closed = (s.inbox j).closed := by
  obtain ⟨box, lines, hreceive, hclosed, -⟩ := (h.pipes i).receive fresh r s.all
  unfold System.receive
  rw [hreceive]
  by_cases hj : j = i
  · subst hj
    simp [hclosed]
  · simp [Function.update_of_ne hj]

/-- Every call keeps the invariant. -/
theorem Moved.inv (h : ProcInv records w) (hmove : Moved fresh dataLength room w a w') :
    ProcInv records w' := by
  -- what the bytes do is known from the run of the system
  have hrun := hmove.simulates h
  have hinv := h.sys.run hrun
  have hwithin := run_within h.within hrun
  cases hmove with
  | pipe hpiped hfailed hfree => exact h.pipe hpiped hfailed hfree
  | fork hforked hfailed hpiped hshut => exact h.fork hforked hfailed hpiped hshut
  | close hshut _ hforked => exact h.close hshut hforked
  | fail _ hsetup => exact h.fail hsetup
  | childClose hc hcloses hkilled => exact h.childClose hc hcloses hkilled
  | @write i c sys hc hstep =>
    obtain ⟨⟨child, data⟩, hwrite, rfl⟩ := Option.map_eq_some_iff.mp hstep
    refine h.of_sys hinv hwithin (fun j => ?_) (fun _ => rfl) fun hsetup => (h.unread hsetup).1
    by_cases hj : j = i
    · subst hj
      simp [(writeToParent_spec hwrite).2.1]
    · simp [Function.update_of_ne hj]
  | writeEintr | selectEintr => exact h
  -- a child that returns from `child_process`
  | @exit i c hc hrecs hrunning =>
    obtain ⟨hchild, hkilled, hcloses⟩ := running_eq hc
    refine h.childEnd hchild hinv hwithin (fun j hj => ?_) rfl rfl rfl hcloses (.inr ?_) ?_
    · simp [System.exit, Function.update_of_ne hj]
    · simp [System.exit]
    · exact fun hdead => absurd hdead (by simp [hkilled])
  -- without `main` a `write` ends the child
  | @sigpipe i c hc hfailed =>
    obtain ⟨hchild, -, hcloses⟩ := running_eq hc
    have hend : ProcInv records
        { w.setChild i { c with table := ∅, killed := true } with sys := w.sys } :=
      h.childEnd hchild hinv hwithin (fun _ _ => rfl) rfl rfl rfl hcloses (.inl rfl)
        fun _ => hfailed
    exact hend
  | select hreading =>
    exact h.of_sys hinv hwithin (fun _ => rfl) (fun _ => rfl) fun hsetup => absurd hreading hsetup
  | read hreading htodo =>
    refine h.of_sys hinv hwithin (fun j => ?_) (receive_closed h.sys _ _)
      fun hsetup => absurd hreading hsetup
    unfold System.receive
    split
    · rfl
    · rfl
  | readEof hreading htodo hpipe hheld => exact h.readEof hreading htodo hpipe hheld
  | readEintr hreading =>
    exact h.of_sys hinv hwithin (fun _ => rfl) (fun _ => rfl) fun hsetup => absurd hreading hsetup

end OsProjects.Findlw
