import OsProjects.Findlw.Reassembly
import Mathlib.Algebra.BigOperators.Group.Finset.Basic
import Mathlib.Algebra.Order.BigOperators.Group.Finset

/-!
# Progress — the reading loop comes to its end

Every event that transfers something, reports a descriptor or closes a pipe brings
the system nearer to its end (`Move.potential_lt`); only the interrupted calls do
not, and each of them sets it back by at most one step. As long as the loop is not
over one of the former is possible (`exists_step`). So a run in which only finitely
many calls are interrupted ends (`run_length`), and every run can be continued to
its end (`exists_finish`).
-/

namespace OsProjects.Findlw

variable {n : Nat} {fresh : Nat → UInt8} {dataLength : Nat} {records : Fin n → List Text}
  {s s' : System n} {e : Event n}

/-- The records are not empty, and `off` is inside the one being written. -/
structure Child.Within (c : Child) : Prop where
  nonempty : ∀ buffer ∈ c.recs, buffer ≠ []
  off_lt : ∀ buffer ∈ c.recs.head?, c.off < buffer.length

/-- What a pipe still has to go through: every byte is written and read, the child
exits and the parent closes its end. -/
def weight (c : Child) (pipe : Text) (inbox : Inbox) : Nat :=
  2 * c.unsent.length + pipe.length + (!c.exited).toNat + (!inbox.closed).toNat

/-- The steps that are left for all bytes. -/
def System.work (s : System n) : Nat := ∑ i, weight (s.child i) (s.pipe i) (s.inbox i)

/-- A `select` counts half as much as the step it leads to. -/
def System.potential (s : System n) : Nat := 2 * s.work + if s.todo = [] then 1 else 0

/-- A call that a signal interrupts, or a `write` that accepts nothing. -/
def Event.interrupted : Event n → Bool
  | .write _ w => w == 0
  | .writeEintr _ => true
  | .selectEintr => true
  | .readEintr => true
  | _ => false

/-- The steps left for one pipe. -/
def System.weight (s : System n) (i : Fin n) : Nat :=
  Findlw.weight (s.child i) (s.pipe i) (s.inbox i)

/-- A step on pipe `i` alone. -/
theorem work_add (s s' : System n) (i : Fin n) (hother : ∀ j, j ≠ i → s'.weight j = s.weight j) :
    s'.work + s.weight i = s.work + s'.weight i := by
  have hsum : ∑ j ∈ Finset.univ.erase i, s'.weight j = ∑ j ∈ Finset.univ.erase i, s.weight j :=
    Finset.sum_congr rfl fun j hj => hother j (Finset.ne_of_mem_erase hj)
  have hold : s.weight i + ∑ j ∈ Finset.univ.erase i, s.weight j = s.work :=
    Finset.add_sum_erase _ _ (Finset.mem_univ i)
  have hnew : s'.weight i + ∑ j ∈ Finset.univ.erase i, s'.weight j = s'.work :=
    Finset.add_sum_erase _ _ (Finset.mem_univ i)
  omega

/-! ## What each event does to the potential -/

/-- A byte that is written is one step nearer to its end. -/
theorem write_work {i : Fin n} {w : Nat} (h : s.write dataLength i w = some s') :
    s'.work + w = s.work ∧ s'.todo = s.todo := by
  obtain ⟨⟨c, data⟩, hwrite, hs'⟩ := Option.map_eq_some_iff.mp h
  obtain ⟨hunsent, hexited, hdata, -⟩ := writeToParent_spec hwrite
  -- a byte written moves from the child, where it counts two, to the pipe
  have hlength : w + c.unsent.length = (s.child i).unsent.length := by
    rw [← hunsent, List.length_append, hdata]
  have hsum := work_add s s' i (fun j hj => by
    subst hs'
    simp only [System.weight, Function.update_of_ne hj])
  have hself : s'.weight i + w = s.weight i := by
    subst hs'
    simp only [System.weight, Findlw.weight, Function.update_self, hexited, List.length_append,
      hdata]
    omega
  refine ⟨by omega, ?_⟩
  subst hs'
  rfl

/-- An exit is one step less. -/
theorem exit_work {i : Fin n} (hrunning : (s.child i).exited = false) :
    (s.exit i).work + 1 = s.work := by
  have hsum := work_add s (s.exit i) i (fun j hj => by
    simp only [System.weight, System.exit, Function.update_of_ne hj])
  have hunsent : ({ s.child i with exited := true } : Child).unsent = (s.child i).unsent := rfl
  have hself : (s.exit i).weight i + 1 = s.weight i := by
    simp only [System.weight, System.exit, Findlw.weight, Function.update_self, hunsent, hrunning,
      Bool.not_true, Bool.not_false, Bool.toNat_true, Bool.toNat_false]
    omega
  omega

/-- A byte that is read has no step left. -/
theorem receive_work (fresh : Nat → UInt8) (h : Inv records s) {i : Fin n} (todo : List (Fin n))
    {r : Nat} (hr : r ≤ (s.pipe i).length) :
    (s.receive fresh i todo r).work + r = s.work ∧ (s.receive fresh i todo r).todo = todo := by
  obtain ⟨inbox', lines, hreceive, hclosed, -⟩ := (h.pipes i).receive fresh r s.all
  rw [System.receive, hreceive]
  refine ⟨?_, rfl⟩
  simp only
  generalize hs' : ({ s with
    pipe := Function.update s.pipe i ((s.pipe i).drop r)
    inbox := Function.update s.inbox i inbox'
    todo := todo
    all := s.all ++ lines.filterMap parse_record_line
    handed := Function.update s.handed i (s.handed i ++ lines) } : System n) = s'
  -- only pipe `i` has changed its weight
  have hsum := work_add s s' i (fun j hj => by
    subst hs'
    simp only [System.weight, Function.update_of_ne hj])
  have hself : s'.weight i + r = s.weight i := by
    subst hs'
    simp only [System.weight, Findlw.weight, Function.update_self, hclosed, List.length_drop]
    omega
  omega

/-- A pipe that is closed is one step less. -/
theorem closePipe_work {i : Fin n} (todo : List (Fin n)) (hopen : (s.inbox i).closed = false) :
    (s.closePipe i todo).work + 1 = s.work := by
  have hsum := work_add s (s.closePipe i todo) i (fun j hj => by
    simp only [System.weight, System.closePipe, Function.update_of_ne hj])
  have hself : (s.closePipe i todo).weight i + 1 = s.weight i := by
    simp only [System.weight, System.closePipe, Findlw.weight, Function.update_self, hopen,
      Bool.not_true, Bool.not_false, Bool.toNat_true, Bool.toNat_false]
  omega

/-- The loop over a non-empty set of descriptors visits one. -/
theorem filter_ne_nil {ready : List (Fin n)} (h : ready ≠ []) :
    (List.finRange n).filter (· ∈ ready) ≠ [] := by
  obtain ⟨i, hi⟩ := List.exists_mem_of_ne_nil ready h
  exact List.ne_nil_of_mem (List.mem_filter.mpr ⟨List.mem_finRange i, decide_eq_true hi⟩)

/-- An interrupted call sets the system back by at most one step, every other
event brings it nearer to its end. -/
theorem Move.potential_le (h : Inv records s) (hmove : Move fresh dataLength s e s') :
    s'.potential + (if e.interrupted then 0 else 1) ≤
      s.potential + if e.interrupted then 1 else 0 := by
  cases hmove with
  | @write i w _ hwrite =>
    obtain ⟨hwork, htodo⟩ := write_work hwrite
    simp only [System.potential, Event.interrupted, htodo, beq_iff_eq]
    by_cases hw : w = 0
    · rw [if_pos hw, if_pos hw]
      omega
    · rw [if_neg hw, if_neg hw]
      omega
  | writeEintr => simp [Event.interrupted]
  | @exit i _ hrunning =>
    have hwork := exit_work hrunning
    simp only [System.potential, Event.interrupted, Bool.false_eq_true, if_false]
    have htodo : (s.exit i).todo = s.todo := rfl
    rw [htodo]
    omega
  | select htodo hne _ =>
    have hnew := filter_ne_nil hne
    -- the empty list of reported pipes is what counts one here
    simp only [System.potential, Event.interrupted, if_pos htodo, if_neg hnew]
    exact le_rfl
  | selectEintr => simp [Event.interrupted]
  | @read i todo r htodo hr hpipe =>
    obtain ⟨hwork, -⟩ := receive_work fresh h todo hpipe
    simp only [System.potential, Event.interrupted]
    split <;> simp <;> omega
  | @readEof i todo htodo _ _ =>
    have hopen := (h.todo_open i (htodo ▸ List.mem_cons_self)).1
    have hwork := closePipe_work todo hopen
    simp only [System.potential, Event.interrupted]
    split <;> simp <;> omega
  | @readEintr i todo _ =>
    have hwork : ({ s with todo := todo } : System n).work = s.work := rfl
    simp only [System.potential, Event.interrupted, hwork, if_true]
    split <;> omega

/-! ## The children stay inside their records -/

/-- No record has been started. -/
theorem Child.Within.boot {recs : List Text} (h : ∀ buffer ∈ recs, buffer ≠ []) :
    Child.Within ⟨recs, 0, false⟩ where
  nonempty := h
  off_lt buffer hb := List.length_pos_iff.mpr (h buffer (List.mem_of_mem_head? hb))

/-- `writeToParent` stays inside its buffer. -/
theorem Child.Within.write {c c' : Child} {w : Nat} {data : Text} (h : c.Within)
    (hwrite : writeToParent dataLength w c = some (c', data)) : c'.Within := by
  unfold writeToParent at hwrite
  cases hrecs : c.recs with
  | nil => simp [hrecs] at hwrite
  | cons buffer recs =>
    simp only [hrecs] at hwrite
    split at hwrite
    · split at hwrite
      · -- inside the record
        rename_i hlt
        obtain ⟨rfl, -⟩ := Prod.mk.inj (Option.some.inj hwrite)
        refine ⟨hrecs ▸ h.nonempty, ?_⟩
        intro b hb
        obtain rfl : buffer = b := by simpa using hb
        exact hlt
      · -- at the start of the next one
        obtain ⟨rfl, -⟩ := Prod.mk.inj (Option.some.inj hwrite)
        have hrest : ∀ b ∈ recs, b ≠ [] := fun b hb =>
          h.nonempty b (hrecs ▸ List.mem_cons_of_mem _ hb)
        exact ⟨hrest, fun b hb => List.length_pos_iff.mpr (hrest b (List.mem_of_mem_head? hb))⟩
    · exact absurd hwrite (by simp)

/-- Every child stays inside its buffer in a step. -/
theorem Move.within (h : ∀ i, (s.child i).Within) (hmove : Move fresh dataLength s e s') :
    ∀ i, (s'.child i).Within := by
  cases hmove with
  | @write i w _ hwrite =>
    obtain ⟨⟨c, data⟩, hw, rfl⟩ := Option.map_eq_some_iff.mp hwrite
    intro j
    show (Function.update s.child i c j).Within
    by_cases hji : j = i
    · subst hji
      rw [Function.update_self]
      exact (h j).write hw
    · rw [Function.update_of_ne hji]
      exact h j
  -- the parent leaves the children alone
  | writeEintr => exact h
  | @exit i _ _ =>
    intro j
    show (Function.update s.child i _ j).Within
    by_cases hji : j = i
    · subst hji
      rw [Function.update_self]
      exact ⟨(h j).nonempty, (h j).off_lt⟩
    · rw [Function.update_of_ne hji]
      exact h j
  | select => exact h
  | selectEintr => exact h
  | @read i todo r _ _ _ =>
    unfold System.receive
    split
    · exact h
    · exact h
  | readEof => exact h
  | readEintr => exact h

/-! ## There is always a next step -/

/-- As long as the loop is not over, something can happen that is no interruption. -/
theorem exists_step (fresh : Nat → UInt8) (h : Inv records s) (hwithin : ∀ i, (s.child i).Within)
    (hdata : 1 ≤ dataLength) (hrunning : ¬ s.finished) :
    ∃ e s', s.step fresh dataLength e = some s' ∧ e.interrupted = false := by
  cases htodo : s.todo with
  | cons i todo =>
    -- a reported pipe is read, and closed when it has run dry
    by_cases hbytes : s.pipe i = []
    · have hready := (h.todo_open i (htodo ▸ List.mem_cons_self)).2
      have hexited := hready.resolve_left (not_not_intro hbytes)
      refine ⟨.readEof, s.closePipe i todo, ?_, rfl⟩
      simp only [System.step, htodo]
      exact if_pos ⟨hbytes, hexited⟩
    · have hlength : 1 ≤ (s.pipe i).length := List.length_pos_iff.mpr hbytes
      refine ⟨.read 1, s.receive fresh i todo 1, ?_, rfl⟩
      simp only [System.step, htodo]
      exact if_pos ⟨le_rfl, by omega, hlength⟩
  | nil =>
    have hopenPipes : s.openPipes > 0 := Nat.pos_of_ne_zero hrunning
    -- some pipe is still open
    have hnot : ¬ ∀ i, (s.inbox i).closed = true := fun hall =>
      hrunning (h.finished_iff.mpr hall)
    obtain ⟨i, hi⟩ := not_forall.mp hnot
    have hopen : (s.inbox i).closed = false := Bool.eq_false_of_not_eq_true hi
    by_cases hready : s.readable i
    · refine ⟨.select [i], _, if_pos ⟨htodo, hopenPipes, List.cons_ne_nil _ _, ?_⟩, rfl⟩
      intro j hj
      rw [List.mem_singleton.mp hj]
      exact ⟨hopen, hready⟩
    · -- nothing to read yet, so the child goes on
      obtain ⟨-, hexited⟩ := not_or.mp hready
      cases hrecs : (s.child i).recs with
      | nil => exact ⟨.exit i, _, if_pos ⟨hrecs, Bool.eq_false_of_not_eq_true hexited⟩, rfl⟩
      | cons buffer recs =>
        have hoff := (hwithin i).off_lt buffer (by simp [hrecs])
        have hwrite : (s.write dataLength i 1).isSome := by
          simp only [System.write, writeToParent, hrecs, Option.isSome_map]
          rw [if_pos (by omega), Option.isSome_some]
        obtain ⟨s', hs'⟩ := Option.isSome_iff_exists.mp hwrite
        exact ⟨.write i 1, s', hs', rfl⟩

/-! ## Runs -/

/-- Every child stays inside its buffer in a run. -/
theorem run_within {es : List (Event n)} (h : ∀ i, (s.child i).Within)
    (hrun : System.run fresh dataLength es s = some s') : ∀ i, (s'.child i).Within := by
  induction es generalizing s with
  | nil => exact Option.some.inj hrun ▸ h
  | cons e es ih =>
    obtain ⟨t, hstep, hrest⟩ := Option.bind_eq_some_iff.mp hrun
    exact ih ((step_move hstep).within h) hrest

/-- The length of a run is bounded by what it has to transfer and by the number of
interrupted calls in it. -/
theorem run_length (h : Inv records s) {es : List (Event n)}
    (hrun : System.run fresh dataLength es s = some s') :
    es.length ≤ s.potential + 2 * es.countP Event.interrupted := by
  have hbound : s'.potential + es.length ≤ s.potential + 2 * es.countP Event.interrupted := by
    -- on the events
    induction es generalizing s with
    | nil =>
      obtain rfl := Option.some.inj hrun
      exact le_rfl
    | cons e es ih =>
      obtain ⟨t, hstep, hrest⟩ := Option.bind_eq_some_iff.mp hrun
      have hmore := ih (h.step hstep) hrest
      have hfirst := (step_move hstep).potential_le h
      rw [List.length_cons, List.countP_cons]
      split at hfirst <;> split <;> omega
  omega

/-- Every run can be continued until all pipes are closed. -/
theorem exists_finish (h : Inv records s) (hwithin : ∀ i, (s.child i).Within)
    (hdata : 1 ≤ dataLength) :
    ∃ es s', System.run fresh dataLength es s = some s' ∧ s'.finished := by
  -- on the potential
  induction hp : s.potential using Nat.strong_induction_on generalizing s with
  | _ p ih =>
    by_cases hrunning : s.finished
    · exact ⟨[], s, rfl, hrunning⟩
    · obtain ⟨e, t, hstep, hplain⟩ := exists_step fresh h hwithin hdata hrunning
      have hmove := step_move hstep
      have hless := hmove.potential_le h
      rw [hplain] at hless
      obtain ⟨es, s', hrun, hend⟩ := ih t.potential (by simp at hless; omega) (h.step hstep)
        (hmove.within hwithin) rfl
      refine ⟨e :: es, s', ?_, hend⟩
      show (s.step fresh dataLength e).bind _ = _
      rw [hstep]
      exact hrun

end OsProjects.Findlw
