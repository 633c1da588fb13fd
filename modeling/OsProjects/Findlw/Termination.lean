import OsProjects.Lib.Measures
import OsProjects.Findlw.Descriptors

/-!
# Termination — the processes come to their end

Every call but an interrupted one brings the processes nearer to their end
(`Moved.effort_le`), and until they are there some process can go on (`exists_action`): the
children close what they inherited whatever the others do, a child waits only for a parent
that reads or will read, and when `main` has given up, `SIGPIPE` ends the children that
still write. So `findlwp` needs no luck from the scheduler.

`processes_end` is the whole program, from the command line to the output file.
-/

namespace OsProjects.Findlw

open FdTable Measures

variable {n : Nat} {records : Fin n → List Text} {w w' : Processes n}
  {fresh : Nat → UInt8} {dataLength room : Nat} {a : Action n}

/-! ## Some process can go on -/

/-- The children that live have closed what they inherited. -/
def Processes.Settled (w : Processes n) : Prop :=
  ∀ i, ∀ c ∈ w.child i, c.killed = false → c.closes = []

/-- Every process is behind the setup, or `main` has given up. -/
theorem not_held_of_settled (h : ProcInv records w) (hsettled : w.Settled)
    (hmain : w.failed = true ∨ w.Reading) {e : PipeEnd n} (hparent : e.2 = true ∨ w.failed = true)
    (hchild : ∀ c ∈ w.child e.1, e.2 = true → w.Gone e.1 c) : ¬ w.Held e := by
  -- a holder is `main` or a child
  rintro (hopen | ⟨j, c, hc, hopen⟩)
  · -- `main` has closed its writing ends, and a failed `main` has nothing open
    obtain ⟨-, hfailed, hend⟩ := h.parent.mem_may hopen
    obtain hdead | hreading := hmain
    · rw [hfailed] at hdead
      exact absurd hdead Bool.false_ne_true
    · rcases hparent with hwriting | hdead
      · rw [if_pos hwriting, hreading.2.2.2] at hend
        exact absurd e.1.isLt (by omega)
      · rw [hfailed] at hdead
        exact absurd hdead Bool.false_ne_true
  · -- a child that has closed what it inherited holds its own end only
    obtain ⟨hmem, -, hlives⟩ := (h.child j c hc).1.mem_may hopen
    rw [hsettled j c hc (Bool.eq_false_of_not_eq_true fun hkilled => hlives (.inl hkilled))]
      at hmem
    obtain rfl := hmem.resolve_left List.not_mem_nil
    exact hlives (hchild c hc rfl)

/-- A child that lives and has closed everything is in `child_process`. -/
theorem running_of_settled (hsettled : w.Settled) {i : Fin n} {c : Forked n}
    (hc : w.child i = some c) (hkilled : c.killed = false) : w.running i = some c := by
  simp [Processes.running, hc, hkilled, hsettled i c hc hkilled]

/-- A call that returns with `EINTR`. -/
def Action.interrupted : Action n → Bool
  | .writeEintr _ => true
  | .selectEintr => true
  | .readEintr => true
  | _ => false

/-- `pipe` or `fork` fails. -/
def Action.fails : Action n → Bool
  | .fail => true
  | _ => false

/-- A call that brings the processes nearer to their end; `pipe` need fail only when the
numbers have run out. -/
def Processes.CanStep (fresh : Nat → UInt8) (dataLength room : Nat) (w : Processes n) : Prop :=
  ∃ a w', w.step fresh dataLength room a = some w' ∧ a.interrupted = false ∧
    (a.fails = true → ∀ readEnd writeEnd, ¬ w.Free readEnd writeEnd)

theorem canStep_of_isSome (h : (w.step fresh dataLength room a).isSome = true)
    (ha : a.interrupted = false) (hfails : a.fails = false) :
    w.CanStep fresh dataLength room := by
  obtain ⟨w', hstep⟩ := Option.isSome_iff_exists.mp h
  exact ⟨a, w', hstep, ha, fun hfail => absurd hfail (by rw [hfails]; exact Bool.false_ne_true)⟩

/-- A child without records can exit. -/
theorem exit_canStep {i : Fin n} {c : Forked n} (hc : w.running i = some c)
    (hrecs : (w.sys.child i).recs = []) (hrunning : (w.sys.child i).exited = false) :
    w.CanStep fresh dataLength room := by
  refine canStep_of_isSome (a := .exit i) ?_ rfl rfl
  simp only [Processes.step, hc, Option.bind_some, Processes.work]
  rw [if_pos ⟨hrecs, hrunning⟩, Option.isSome_some]

section Progress

variable (h : ProcInv records w)
include h

/-- `main` can go on with its two loops. -/
theorem setup_canStep (hfailed : w.failed = false) (hsetup : ¬ w.Reading) :
    w.CanStep fresh dataLength room := by
  -- on which of the two loops `main` is in
  have hpipes := h.piped
  have hforks := h.forked
  by_cases hpiped : w.piped < n
  · -- `pipe` needs two free numbers
    by_cases hnumbers : ∃ readEnd writeEnd, w.Free readEnd writeEnd
    · obtain ⟨readEnd, writeEnd, hfree⟩ := hnumbers
      refine canStep_of_isSome (a := .pipe readEnd writeEnd) ?_ rfl rfl
      simp only [Processes.step, Processes.setup]
      rw [if_pos hfailed, dif_pos hpiped, if_pos hfree, Option.isSome_some]
    · -- `EMFILE`
      refine ⟨.fail, { w with parent := ∅, failed := true }, ?_, rfl,
        fun _ readEnd writeEnd hfree => hnumbers ⟨readEnd, writeEnd, hfree⟩⟩
      simp only [Processes.step, Processes.setup]
      rw [if_pos hfailed, if_pos (.inl hpiped)]
  · -- behind a `fork` comes the `close` of the writing end
    by_cases hshut : w.shut < w.forked
    · have hcreated : ((⟨w.shut, by omega⟩, true) : PipeEnd n) ∈ w.created := by
        show w.shut < w.piped
        omega
      refine canStep_of_isSome (a := .close) ?_ rfl rfl
      simp only [Processes.step, Processes.setup]
      rw [if_pos hfailed, dif_pos (by omega), if_pos hshut, closeEnd_eq h.parent hcreated,
        Option.isSome_some]
    · have hforked : w.forked < n := by
        by_contra hall
        exact hsetup ⟨hfailed, by omega, by omega, by omega⟩
      refine canStep_of_isSome (a := .fork) ?_ rfl rfl
      simp only [Processes.step, Processes.setup]
      rw [if_pos hfailed, dif_pos hforked, if_pos ⟨by omega, by omega⟩, Option.isSome_some]

/-- A child can close what it inherited, whatever the others do. -/
theorem childClose_canStep (hsettled : ¬ w.Settled) : w.CanStep fresh dataLength room := by
  simp only [Processes.Settled, not_forall] at hsettled
  obtain ⟨i, ⟨table, closes, killed⟩, hc, hkilled, hcloses⟩ := hsettled
  obtain rfl : killed = false := hkilled
  obtain ⟨e, closes, rfl⟩ := List.exists_cons_of_ne_nil hcloses
  have hchild : w.child i = some ⟨table, e :: closes, false⟩ := hc
  refine canStep_of_isSome (a := .childClose i) ?_ rfl rfl
  simp only [Processes.step, hchild]
  rw [closeEnd_eq (h.child i _ hc).1 (h.mem_created hc e), Option.isSome_some]

/-- The next chunk is not empty, and the child may write it. -/
theorem nextChunk_spec (hdata : 1 ≤ dataLength) {i : Fin n} (hrecs : (w.sys.child i).recs ≠ []) :
    1 ≤ nextChunk dataLength (w.sys.child i) ∧ nextChunk dataLength (w.sys.child i) ≤ dataLength ∧
      (w.sys.write dataLength i (nextChunk dataLength (w.sys.child i))).isSome = true := by
  obtain ⟨buffer, recs, hcons⟩ := List.exists_cons_of_ne_nil hrecs
  have hoff := (h.within i).off_lt buffer (by simp [hcons])
  simp only [nextChunk, hcons, System.write, Option.isSome_map, writeToParent, le_refl, if_true,
    Option.isSome_some, and_true]
  omega

/-- A child that lives and has records has not ended. -/
theorem not_gone {i : Fin n} {c : Forked n} (hkilled : c.killed = false)
    (hrecs : (w.sys.child i).recs ≠ []) : ¬ w.Gone i c := by
  rintro (hdead | hexited)
  · rw [hkilled] at hdead
    exact absurd hdead Bool.false_ne_true
  · exact hrecs ((h.sys.pipes i).exited hexited)

/-- Without a reader `SIGPIPE` ends the child that writes. -/
theorem sigpipe_canStep {i : Fin n} {c : Forked n} (hc : w.running i = some c)
    (hrecs : (w.sys.child i).recs ≠ []) (hheld : ¬ w.Held (i, false)) :
    w.CanStep fresh dataLength room := by
  obtain ⟨hchild, hkilled, -⟩ := running_eq hc
  have hlives := not_gone h hkilled hrecs
  refine canStep_of_isSome (a := .sigpipe i) ?_ rfl rfl
  simp only [Processes.step, hc, Option.bind_some, Processes.work]
  rw [if_neg hrecs, if_neg (not_not.mpr (h.aims_own hchild hlives)), if_pos hheld,
    Option.isSome_some]

/-- A child whose pipe is empty need not wait. -/
theorem write_canStep (hdata : 1 ≤ dataLength) (hroom : dataLength ≤ room) (hreading : w.Reading)
    {i : Fin n} {c : Forked n} (hc : w.running i = some c) (hrecs : (w.sys.child i).recs ≠ [])
    (hpipe : w.sys.pipe i = []) : w.CanStep fresh dataLength room := by
  obtain ⟨hchild, hkilled, -⟩ := running_eq hc
  obtain ⟨-, hle, hwrite⟩ := nextChunk_spec h hdata hrecs
  have hlives := not_gone h hkilled hrecs
  have hheld := h.held_of_recs hreading.1 hchild hrecs
  refine canStep_of_isSome (a := .write i) ?_ rfl rfl
  simp only [Processes.step, hc, Option.bind_some, Processes.work]
  rw [if_neg hrecs, if_neg (not_not.mpr (h.aims_own hchild hlives)),
    if_pos ⟨hheld, by rw [hpipe, List.length_nil]; omega⟩, Option.isSome_map, hwrite]

/-- `main` in its reading loop. -/
theorem loop_canStep (hdata : 1 ≤ dataLength) (hroom : dataLength ≤ room) (hreading : w.Reading)
    (hsettled : w.Settled) (hend : ¬ w.sys.finished) : w.CanStep fresh dataLength room := by
  have hopen : w.sys.openPipes > 0 := Nat.pos_of_ne_zero hend
  -- a child that has exited was the last one to hold the end
  have hheld {i : Fin n} (hexited : (w.sys.child i).exited = true) : ¬ w.Held (i, true) :=
    not_held_of_settled h hsettled (.inr hreading) (.inl rfl) fun c _ _ => .inr hexited
  cases htodo : w.sys.todo with
  -- the round goes on with its next pipe
  | cons i todo =>
    obtain ⟨hclosed, hready⟩ := h.sys.todo_open i (by rw [htodo]; exact List.mem_cons_self)
    have haims := h.aims_parent hreading hclosed
    -- at the end of a pipe `main` closes it, else it reads
    by_cases hpipe : w.sys.pipe i = []
    · have hexited := hready.resolve_left (not_not.mpr hpipe)
      have hcreated : ((i, false) : PipeEnd n) ∈ w.created := by
        show i.val < w.piped
        rw [hreading.2.1]
        exact i.isLt
      refine canStep_of_isSome (a := .readEof) ?_ rfl rfl
      simp only [Processes.step, Processes.loop, htodo, Processes.turn]
      rw [if_pos hreading, if_neg (not_not.mpr haims), if_pos ⟨hpipe, hheld hexited⟩,
        closeEnd_eq h.parent hcreated, Option.isSome_some]
    · have hlength : 0 < (w.sys.pipe i).length := List.length_pos_of_ne_nil hpipe
      refine canStep_of_isSome (a := .read 1) ?_ rfl rfl
      simp only [Processes.step, Processes.loop, htodo, Processes.turn]
      rw [if_pos hreading, if_neg (not_not.mpr haims), if_pos ⟨le_rfl, by omega, hlength⟩,
        Option.isSome_some]
  -- a new round: some pipe is open
  | nil =>
    have hnot : ¬ ∀ i, (w.sys.inbox i).closed = true := fun hall =>
      hend (h.sys.finished_iff.mpr hall)
    obtain ⟨i, hi⟩ := not_forall.mp hnot
    have hclosed : (w.sys.inbox i).closed = false := Bool.eq_false_of_not_eq_true hi
    by_cases hready : w.sys.readable i
    · have hready' : w.Readable i := hready.imp_right hheld
      refine canStep_of_isSome (a := .select [i]) ?_ rfl rfl
      simp only [Processes.step, Processes.loop, htodo, Processes.select]
      rw [if_pos hreading, if_pos hopen,
        if_neg (not_not.mpr fun j hj =>
          ⟨h.aims_parent hreading hj, h.fd_lt hreading (j, false)⟩),
        if_pos ⟨List.cons_ne_nil _ _, List.all_eq_true.mpr fun j hj => by
          rw [List.mem_singleton.mp hj]
          exact decide_eq_true ⟨hclosed, hready'⟩⟩, Option.isSome_some]
    · -- nothing to read yet, so the child goes on
      obtain ⟨hpipe, hexited⟩ := not_or.mp hready
      have hborn : (w.child i).isSome = true :=
        (h.born i).mpr (by rw [hreading.2.2.1]; exact i.isLt)
      obtain ⟨c, hc⟩ := Option.isSome_iff_exists.mp hborn
      have hrunning := running_of_settled hsettled hc (h.not_failed hreading hc)
      by_cases hrecs : (w.sys.child i).recs = []
      · exact exit_canStep hrunning hrecs (Bool.eq_false_of_not_eq_true hexited)
      · exact write_canStep h hdata hroom hreading hrunning hrecs (not_not.mp hpipe)

/-- The children that are left when `main` has given up. -/
theorem orphan_canStep (hfailed : w.failed = true) (hsettled : w.Settled)
    (hleft : ¬ w.ChildrenGone) : w.CanStep fresh dataLength room := by
  simp only [Processes.ChildrenGone, not_forall, not_or] at hleft
  obtain ⟨i, c, hc, hkilled, hexited⟩ := hleft
  have hrunning := running_of_settled hsettled hc (Bool.eq_false_of_not_eq_true hkilled)
  by_cases hrecs : (w.sys.child i).recs = []
  · exact exit_canStep hrunning hrecs (Bool.eq_false_of_not_eq_true hexited)
  · exact sigpipe_canStep h hrunning hrecs
      (not_held_of_settled h hsettled (.inl hfailed) (.inr hfailed) fun _ _ hwriting =>
        absurd hwriting Bool.false_ne_true)

/-- Until everything is over some process can go on. -/
theorem exists_action (hdata : 1 ≤ dataLength) (hroom : dataLength ≤ room) (hover : ¬ w.Over) :
    w.CanStep fresh dataLength room := by
  -- on the stage the processes are in
  by_cases hsettled : w.Settled
  · by_cases hfailed : w.failed = true
    · exact orphan_canStep h hfailed hsettled fun hgone => hover ⟨hgone, .inl hfailed⟩
    · by_cases hreading : w.Reading
      · by_cases hend : w.sys.finished
        · refine absurd ⟨fun i c hc => .inr ?_, .inr ⟨hreading, hend⟩⟩ hover
          exact ((h.sys.pipes i).closed (h.sys.finished_iff.mp hend i)).2
        · exact loop_canStep h hdata hroom hreading hsettled hend
      · exact setup_canStep h (Bool.eq_false_of_not_eq_true hfailed) hreading
  · exact childClose_canStep h hsettled

end Progress

/-! ## Every call counts -/

/-- What a child has in front of it beside the bytes it writes. -/
def forkedEffort : Option (Forked n) → Nat
  | none => 0
  | some c => c.closes.length + (!c.killed).toNat

theorem forkedEffort_none : forkedEffort (none : Option (Forked n)) = 0 := rfl

theorem forkedEffort_some (c : Forked n) :
    forkedEffort (some c) = c.closes.length + (!c.killed).toNat := rfl

/-- What is left to do; a `fork` is worth the work of the child behind it. -/
def Processes.effort (w : Processes n) : Nat :=
  w.sys.potential + ∑ i, forkedEffort (w.child i) + (n - w.piped) +
    (n - w.forked) * (2 * n + 2) + (n - w.shut) + (!w.failed).toNat

/-- What the bytes cost, for a step that is an event of `Findlw/Pipes.lean`. -/
theorem potential_le (h : ProcInv records w) (hmove : Moved fresh dataLength room w a w')
    {e : Event n} (he : a.events dataLength w = [e]) :
    w'.sys.potential + (if e.interrupted then 0 else 1) ≤
      w.sys.potential + if e.interrupted then 1 else 0 := by
  have hrun := hmove.simulates h
  rw [he] at hrun
  obtain ⟨s, hstep, hs⟩ := Option.bind_eq_some_iff.mp hrun
  obtain rfl := Option.some.inj hs
  exact (step_move hstep).potential_le h.sys

/-- Every call but an interrupted one lowers the effort, and that one raises it by at most 1. -/
theorem Moved.effort_le (h : ProcInv records w) (hdata : 1 ≤ dataLength)
    (hmove : Moved fresh dataLength room w a w') :
    w'.effort + (if a.interrupted then 0 else 1) ≤
      w.effort + if a.interrupted then 1 else 0 := by
  have hbytes {e : Event n} (he : a.events dataLength w = [e]) := potential_le h hmove he
  cases hmove with
  | pipe hpiped =>
    simp only [Processes.effort, Action.interrupted, Bool.false_eq_true, if_false]
    omega
  | fork hforked =>
    -- the child closes at most two ends of every pipe
    have hsum := sum_update_add forkedEffort w.child ⟨w.forked, hforked⟩
      (some ⟨w.parent, childCloses ⟨w.forked, hforked⟩, false⟩)
    have hcloses := length_childCloses_le (⟨w.forked, hforked⟩ : Fin n)
    have hunborn : w.child ⟨w.forked, hforked⟩ = none :=
      Option.not_isSome_iff_eq_none.mp fun hborn => lt_irrefl _ ((h.born _).mp hborn)
    simp only [hunborn, forkedEffort_none, forkedEffort_some, Bool.not_false,
      Bool.toNat_true] at hsum
    obtain ⟨left, hleft⟩ : ∃ left, n - w.forked = left + 1 := ⟨n - w.forked - 1, by omega⟩
    have hnext : n - (w.forked + 1) = left := by omega
    simp only [Processes.effort, Processes.setChild, Action.interrupted, Bool.false_eq_true,
      if_false, hleft, hnext, add_mul, one_mul]
    omega
  | close hshut =>
    simp only [Processes.effort, Action.interrupted, Bool.false_eq_true, if_false]
    omega
  | fail hfailed =>
    simp only [Processes.effort, Action.interrupted, hfailed, Bool.not_true, Bool.not_false,
      Bool.toNat_true, Bool.toNat_false, Bool.false_eq_true, if_false]
    omega
  | @childClose i c e closes hc hcloses hkilled =>
    have hsum := sum_update_add forkedEffort w.child i
      (some ⟨c.table.erase (w.fd e), closes, false⟩)
    simp only [hc, forkedEffort_some, hcloses, hkilled, List.length_cons] at hsum
    simp only [Processes.effort, Processes.setChild, Action.interrupted, Bool.false_eq_true,
      if_false]
    omega
  | @write i c sys hc hstep =>
    have hbyte := hbytes rfl
    have hrecs : (w.sys.child i).recs ≠ [] := by
      obtain ⟨⟨child, data⟩, hwrite, -⟩ := Option.map_eq_some_iff.mp hstep
      exact (writeToParent_spec hwrite).2.2.2
    have hchunk := (nextChunk_spec h hdata hrecs).1
    have hplain : (nextChunk dataLength (w.sys.child i) == 0) = false := by
      rw [beq_eq_false_iff_ne]
      omega
    simp only [Event.interrupted, hplain, Bool.false_eq_true, if_false] at hbyte
    simp only [Processes.effort, Action.interrupted, Bool.false_eq_true, if_false]
    omega
  | writeEintr | selectEintr | readEintr =>
    have hbyte := hbytes rfl
    simp only [Event.interrupted, if_true] at hbyte
    simp only [Processes.effort, Action.interrupted, if_true]
    omega
  | @exit i c hc hrecs hrunning =>
    have hbyte := hbytes rfl
    have hsum := sum_update_add forkedEffort w.child i (some { c with table := ∅ })
    simp only [(running_eq hc).1, forkedEffort_some] at hsum
    simp only [Event.interrupted, Bool.false_eq_true, if_false] at hbyte
    simp only [Processes.effort, Processes.setChild, Action.interrupted, Bool.false_eq_true,
      if_false]
    omega
  | @sigpipe i c hc hfailed =>
    have hsum := sum_update_add forkedEffort w.child i (some { c with table := ∅, killed := true })
    simp only [(running_eq hc).1, forkedEffort_some, (running_eq hc).2.1, Bool.not_true,
      Bool.not_false, Bool.toNat_true, Bool.toNat_false] at hsum
    simp only [Processes.effort, Processes.setChild, Action.interrupted, Bool.false_eq_true,
      if_false]
    omega
  | select | read | readEof =>
    have hbyte := hbytes rfl
    simp only [Event.interrupted, Bool.false_eq_true, if_false] at hbyte
    simp only [Processes.effort, Action.interrupted, Bool.false_eq_true, if_false]
    omega

/-! ## Runs -/

/-- A run keeps the invariant, does to the bytes what a run of `Findlw/Pipes.lean` does, and
is no longer than the effort and the interrupted calls allow. -/
theorem run_simulates (hdata : 1 ≤ dataLength) {as : List (Action n)} (h : ProcInv records w)
    (hrun : w.run fresh dataLength room as = some w') :
    ProcInv records w' ∧ (∃ es, System.run fresh dataLength es w.sys = some w'.sys) ∧
      w'.effort + as.length ≤ w.effort + 2 * as.countP Action.interrupted := by
  -- on the calls, the first one first
  induction as generalizing w with
  | nil =>
    obtain rfl := Option.some.inj hrun
    exact ⟨h, ⟨[], rfl⟩, le_rfl⟩
  | cons a as ih =>
    obtain ⟨u, hstep, hrest⟩ := Option.bind_eq_some_iff.mp hrun
    have hmove := step_moved h hstep
    obtain ⟨hinv, ⟨es, hes⟩, hlength⟩ := ih (hmove.inv h) hrest
    have hfirst := hmove.effort_le h hdata
    refine ⟨hinv, ⟨a.events dataLength w ++ es, ?_⟩, ?_⟩
    · -- the runs of the system, one behind the other
      have hhead := hmove.simulates h
      unfold System.run at hhead hes ⊢
      rw [List.foldlM_append, hhead]
      exact hes
    · -- an interrupted call may raise the effort by 1
      rw [List.length_cons, List.countP_cons]
      split at hfirst <;> split <;> omega

/-! ## The program -/

/-- The inherited files are no pipes of the program. -/
theorem lookup_inherited (inherited : List Nat) (t : FdTable (FileRef n))
    (ht : ∀ fd e, t.lookup fd ≠ some (.pipe e)) (fd : Nat) (e : PipeEnd n) :
    (inherited.foldl (fun t number => t.insert number .other) t).lookup fd ≠ some (.pipe e) := by
  induction inherited generalizing t with
  | nil => exact ht fd e
  | cons number inherited ih =>
    -- the next number is another one or the same
    refine ih (t.insert number .other) fun fd' e' => ?_
    by_cases hfd : fd' = number
    · rw [hfd, AList.lookup_insert]
      simp
    · rw [AList.lookup_insert_ne hfd]
      exact ht fd' e'

/-- The invariant holds before the first call. -/
theorem start_inv (fs : Files) (filePrefix : CString) (n : Nat) (k : Int) {limit : Nat}
    (hlimit : limit ≤ FD_SETSIZE) (inherited : List Nat) (fd : PipeEnd n → Nat) :
    ProcInv (recordLines fs filePrefix k)
      (Processes.start fs filePrefix n k limit inherited fd) where
  sys := findlwp_start
  within := findlwp_within
  straight := rfl
  -- nothing has been made
  piped := ⟨Nat.zero_le n, .inl rfl⟩
  forked := ⟨Nat.zero_le n, le_rfl, Nat.zero_le 1⟩
  injOn _ he := absurd he (Nat.not_lt_zero _)
  low _ he := absurd he (Nat.not_lt_zero _)
  limit := hlimit
  -- what is inherited is no end of a pipe
  parent := {
    own := fun _ he => absurd he (Nat.not_lt_zero _)
    only := fun e number hlookup => absurd hlookup <|
      lookup_inherited inherited ∅ (fun _ _ hempty => by simp at hempty) number e
    keeps := fun _ he => absurd he.1 (Nat.not_lt_zero _) }
  born _ := iff_of_false Bool.false_ne_true (Nat.not_lt_zero _)
  child _ _ hc := absurd hc (by simp [Processes.start])
  unread _ := ⟨rfl, fun _ => rfl⟩
  exited _ hexited := absurd hexited Bool.false_ne_true
  killed _ _ hc := absurd hc (by simp [Processes.start])

/-- The bytes that a `write` transfers as a whole. -/
def PIPE_BUF : Nat := 4096

/-- `findlwp` from its command line on, with any scheduling of its processes, any free
numbers for its descriptors and any moment at which `pipe` or `fork` fails, when the limit
for descriptors is at most `FD_SETSIZE`. No call goes through a number that stands for
another file or that `select` has no bit for, and no access leaves a buffer. A child holds
what it closes, but for the writing ends before its own, whose numbers are free: these
`close` calls fail and change nothing. A run in which only finitely many calls are
interrupted ends, and it ends only when `main` and all its children have come to their end.
If `main` has not given up, no child was killed, and the output is the one of the thread
version exactly when the input has the same words for both. -/
theorem processes_end (qsort qsort' : Qsort Occurrence) (program : CString)
    (args : List CString) (o : Options) (hoptions : options program args = .ok o) (fs : Files)
    (fresh : Nat → UInt8) (room : Nat) (hroom : PIPE_BUF ≤ room) (limit : Nat)
    (hlimit : limit ≤ FD_SETSIZE) (inherited : List Nat) (fd : PipeEnd o.n → Nat) :
    (∃ bound, ∀ as w, (Processes.start fs o.filePrefix o.n o.k limit inherited fd).run fresh
        o.dataLength room as = some w → as.length ≤ bound + 2 * as.countP Action.interrupted) ∧
    ∀ as w, (Processes.start fs o.filePrefix o.n o.k limit inherited fd).run fresh o.dataLength
        room as = some w →
      w.astray = false ∧ w.sys.fault = false ∧
      (∀ i, ∀ c ∈ w.child i, ¬ w.Gone i c → ∀ e, e ∈ c.closes ∨ e = (i, true) →
        c.table.lookup (w.fd e) = if e.2 = true ∧ e.1 < i then none else some (.pipe e)) ∧
      (w.Over ∨ w.CanStep fresh o.dataLength room) ∧
      (w.Over → w.failed = false →
        (∀ i, ∃ c, w.child i = some c ∧ c.killed = false) ∧
        (some (w.sys.outfile qsort') = findlwt qsort fs o.filePrefix o.n o.k ↔
          SameWords fs o.filePrefix o.n o.k)) := by
  obtain ⟨⟨-, hn⟩, -, hdata, hmax⟩ := options_inRange hoptions
  have hstart := start_inv fs o.filePrefix o.n o.k hlimit inherited fd
  refine ⟨⟨(Processes.start fs o.filePrefix o.n o.k limit inherited fd).effort,
    fun as w hrun => ?_⟩, fun as w hrun => ?_⟩
  · -- the bound is the effort at the start
    exact (Nat.le_add_left _ _).trans (run_simulates hdata hstart hrun).2.2
  obtain ⟨h, ⟨es, hes⟩, -⟩ := run_simulates hdata hstart hrun
  refine ⟨h.straight, h.sys.fault, fun i c hc hgone e he => h.lookup_closes hc hgone he, ?_,
    fun hover hfailed => ?_⟩
  · -- a run goes on or is over
    by_cases hover : w.Over
    · exact .inl hover
    · exact .inr (exists_action h hdata (hmax.trans (le_trans (by decide) hroom)) hover)
  · obtain ⟨hreading, hend⟩ := hover.2.resolve_left (by rw [hfailed]; exact Bool.false_ne_true)
    refine ⟨fun i => ?_, sameWords_of_eq qsort qsort' hn hes hend, fun hsame => ?_⟩
    · -- every child was forked, and none was killed
      have hborn : (w.child i).isSome = true :=
        (h.born i).mpr (by rw [hreading.2.2.1]; exact i.isLt)
      obtain ⟨c, hc⟩ := Option.isSome_iff_exists.mp hborn
      exact ⟨c, hc, h.not_failed hreading hc⟩
    · -- and the bytes that arrive are those of the words
      exact outfile_of_sameWords qsort qsort' hn hsame hes hend

/-- `findlwp w 1 1 10 out` with three files open, and room for three more. -/
def oneFileArgs : List CString :=
  [⟨ascii "w", by decide⟩, ⟨ascii "1", by decide⟩, ⟨ascii "1", by decide⟩,
    ⟨ascii "10", by decide⟩, ⟨ascii "out", by decide⟩]

def oneFileOptions : Options :=
  ⟨⟨ascii "w", by decide⟩, 1, 1, 10, ⟨ascii "out", by decide⟩⟩

/-- The parent is in `select` before its only child has closed anything. -/
def oneFileRun (i : Fin 1) : List (Action 1) :=
  [.pipe 3 4, .fork, .close, .selectEintr, .childClose i, .writeEintr i, .write i, .select [i],
    .read 8, .exit i, .select [i], .readEof]

/-- A run to the end, with an interrupted `select` and an interrupted `write` in it. -/
theorem processes_end_demo : ∃ w, (Processes.start (oneFile (ascii "abc\n"))
      oneFileOptions.filePrefix 1 1 6 [0, 1, 2] fun _ => 0).run (fun _ => 255) 10 4096
        (oneFileRun 0) = some w ∧
    w.Over ∧ w.astray = false ∧
    SameWords (oneFile (ascii "abc\n")) oneFileOptions.filePrefix 1 1 := by
  -- the run is evaluated to its end
  have hresult : ((Processes.start (oneFile (ascii "abc\n")) oneFileOptions.filePrefix 1 1
      6 [0, 1, 2] fun _ => 0).run (fun _ => 255) 10 4096 (oneFileRun 0)).map (fun w =>
        (decide w.Reading, w.sys.openPipes, (w.sys.child 0).exited,
          some (w.sys.outfile (Qsort.merge _)))) =
      some (true, 0, true, findlwt (Qsort.merge _) (oneFile (ascii "abc\n"))
        oneFileOptions.filePrefix 1 1) := by
    decide +kernel
  obtain ⟨w, hrun, hw⟩ := Option.map_eq_some_iff.mp hresult
  simp only [Prod.mk.injEq] at hw
  obtain ⟨hreading, hopen, hexited, hout⟩ := hw
  have hreading := of_decide_eq_true hreading
  -- the one child has exited
  have hover : w.Over :=
    ⟨fun i c _ => .inr (Subsingleton.elim 0 i ▸ hexited), .inr ⟨hreading, hopen⟩⟩
  obtain ⟨-, hall⟩ := processes_end (Qsort.merge _) (Qsort.merge _) ⟨ascii "findlwp", by decide⟩
    oneFileArgs oneFileOptions (by decide +kernel) (oneFile (ascii "abc\n")) (fun _ => 255) 4096
    le_rfl 6 (by decide) [0, 1, 2] fun _ => 0
  obtain ⟨hstraight, -, -, -, hend⟩ := hall (oneFileRun 0) w hrun
  exact ⟨w, hrun, hover, hstraight, ((hend hover hreading.1).2).mp hout⟩

end OsProjects.Findlw
