import OsProjects.Findlw.Buffer
import Mathlib.Data.Fintype.Card
import Mathlib.Data.Finset.Card

/-!
# Reassembly — no record is lost, repeated or mixed with another

The invariant of a whole run, pipe by pipe (`PipeInv`): the bytes the parent has
read, the bytes in the pipe and the bytes the child has yet to write are together
the stream of the child, and the bytes read mean the lines handed on so far and
the unfinished line in the buffer. Whatever the schedule does keeps it
(`Inv.step`, `Inv.run`), so that at the end of the run the lines handed on are the
records of the child (`run_reassembles`).
-/

namespace OsProjects.Findlw

variable {n : Nat} {fresh : Nat → UInt8} {dataLength : Nat} {records : Fin n → List Text}

/-! ## The writing side -/

/-- The bytes the child has yet to write. -/
def Child.unsent (c : Child) : Text :=
  match c.recs with
  | [] => []
  | buffer :: recs => buffer.drop c.off ++ recs.flatten

/-- At the start of a record everything is still to be sent. -/
theorem Child.unsent_of_off_zero {c : Child} (h : c.off = 0) : c.unsent = c.recs.flatten := by
  unfold Child.unsent
  cases c.recs with
  | nil => rfl
  | cons buffer recs =>
    show buffer.drop c.off ++ recs.flatten = _
    rw [h, List.drop_zero, List.flatten_cons]

/-- Whatever `write` accepts, the bytes leave the child in order. -/
theorem writeToParent_spec {w : Nat} {c c' : Child} {data : Text}
    (h : writeToParent dataLength w c = some (c', data)) :
    data ++ c'.unsent = c.unsent ∧ c'.exited = c.exited ∧ data.length = w ∧ c.recs ≠ [] := by
  unfold writeToParent at h
  cases hrecs : c.recs with
  | nil => simp [hrecs] at h
  | cons buffer recs =>
    -- what is unsent is the rest of the record and the records behind it
    have hunsent : c.unsent = buffer.drop c.off ++ recs.flatten := by rw [Child.unsent, hrecs]
    simp only [hrecs] at h
    split at h
    · rename_i hw
      have hlength : ((buffer.drop c.off).take w).length = w := by
        rw [List.length_take, List.length_drop]
        omega
      split at h
      · -- the record goes on
        obtain ⟨rfl, rfl⟩ := Prod.mk.inj (Option.some.inj h)
        refine ⟨?_, rfl, hlength, List.cons_ne_nil _ _⟩
        show (buffer.drop c.off).take w ++ (buffer.drop (c.off + w) ++ recs.flatten) = _
        rw [hunsent, ← List.append_assoc, ← List.drop_drop, List.take_append_drop]
      · -- the record is complete
        rename_i hend
        obtain ⟨rfl, rfl⟩ := Prod.mk.inj (Option.some.inj h)
        refine ⟨?_, rfl, hlength, List.cons_ne_nil _ _⟩
        have hrest : (⟨recs, 0, c.exited⟩ : Child).unsent = recs.flatten :=
          Child.unsent_of_off_zero rfl
        rw [hunsent, hrest, List.take_of_length_le (by rw [List.length_drop]; omega)]
    · exact absurd h (by simp)

/-! ## One pipe -/

/-- What holds of pipe `i`, whose child writes `stream` in all: `handed` are the
lines handed on so far. -/
structure PipeInv (stream : Text) (child : Child) (pipe : Text) (inbox : Inbox)
    (handed : List Text) : Prop where
  reads : ∃ read tail, inbox.Holds tail ∧ Lines 10 read handed tail ∧
    read ++ (pipe ++ child.unsent) = stream
  exited : child.exited = true → child.recs = []
  closed : inbox.closed = true → pipe = [] ∧ child.exited = true

variable {stream pipe : Text} {child child' : Child} {inbox : Inbox} {handed : List Text}

/-- All bytes are still with the child. -/
theorem PipeInv.boot (recs : List Text) :
    PipeInv recs.flatten ⟨recs, 0, false⟩ [] ⟨[], 0, 0, false⟩ [] where
  reads := ⟨[], [], ⟨rfl, le_rfl, rfl⟩, Lines.of_tail List.not_mem_nil,
    Child.unsent_of_off_zero rfl⟩
  exited h := absurd h Bool.false_ne_true
  closed h := absurd h Bool.false_ne_true

/-- A `write` moves bytes from the child into the pipe. -/
theorem PipeInv.write (h : PipeInv stream child pipe inbox handed) {w : Nat} {data : Text}
    (hwrite : writeToParent dataLength w child = some (child', data)) :
    PipeInv stream child' (pipe ++ data) inbox handed := by
  obtain ⟨hunsent, hexited, -, hrecs⟩ := writeToParent_spec hwrite
  -- an exited child has nothing to write
  have hrunning : child.exited = false := by
    rw [← Bool.not_eq_true]
    intro hex
    exact hrecs (h.exited hex)
  refine ⟨?_, ?_, ?_⟩
  · -- the bytes only move from the child to the pipe
    obtain ⟨read, tail, hbox, hlines, hall⟩ := h.reads
    refine ⟨read, tail, hbox, hlines, ?_⟩
    rw [List.append_assoc, hunsent, hall]
  · intro hex
    rw [hexited, hrunning] at hex
    exact absurd hex Bool.false_ne_true
  · -- a closed pipe has an exited child
    intro hclosed
    rw [(h.closed hclosed).2] at hrunning
    exact absurd hrunning (by decide)

/-- A child exits when it has sent everything. -/
theorem PipeInv.exit (h : PipeInv stream child pipe inbox handed) (hrecs : child.recs = []) :
    PipeInv stream { child with exited := true } pipe inbox handed where
  reads := h.reads
  exited _ := hrecs
  closed hclosed := ⟨(h.closed hclosed).1, rfl⟩

/-- A `read` moves bytes from the pipe into the buffer or, behind a newline, into lines. -/
theorem PipeInv.receive (fresh : Nat → UInt8) (h : PipeInv stream child pipe inbox handed)
    (r : Nat) (all : List Occurrence) : ∃ inbox' lines,
      receive fresh inbox (pipe.take r) all =
        some (inbox', lines, all ++ lines.filterMap parse_record_line) ∧
      inbox'.closed = inbox.closed ∧
      PipeInv stream child (pipe.drop r) inbox' (handed ++ lines) := by
  obtain ⟨read, tail, hbox, hlines, hstream⟩ := h.reads
  obtain ⟨inbox', lines, tail', hreceive, hbox', hclosed, hnew⟩ :=
    receive_spec fresh hbox (pipe.take r) all
  refine ⟨inbox', lines, hreceive, hclosed, ?_, h.exited, ?_⟩
  · -- what was read is longer by what has arrived
    refine ⟨read ++ pipe.take r, tail', hbox', hlines.append hnew, ?_⟩
    rw [← hstream, List.append_assoc, ← List.append_assoc (pipe.take r), List.take_append_drop]
  · -- a closed pipe has nothing left to read
    intro hc
    obtain ⟨hempty, hex⟩ := h.closed (hclosed ▸ hc)
    exact ⟨by rw [hempty, List.drop_nil], hex⟩

/-- A pipe is closed when nothing can come any more. -/
theorem PipeInv.close (h : PipeInv stream child pipe inbox handed) (hpipe : pipe = [])
    (hexited : child.exited = true) :
    PipeInv stream child pipe { inbox with closed := true } handed where
  reads := by
    obtain ⟨read, tail, hbox, hlines, hstream⟩ := h.reads
    exact ⟨read, tail, ⟨hbox.size, hbox.room, hbox.take_len⟩, hlines, hstream⟩
  exited := h.exited
  closed _ := ⟨hpipe, hexited⟩

/-- At the end of the stream the lines handed on are its records. -/
theorem PipeInv.handed_eq {recs : List Text} (hrecs : ∀ r ∈ recs, 10 ∉ r)
    (h : PipeInv (Lines.join 10 recs) child pipe inbox handed) (hclosed : inbox.closed = true) :
    handed = recs := by
  obtain ⟨read, tail, -, hlines, hstream⟩ := h.reads
  obtain ⟨hpipe, hexited⟩ := h.closed hclosed
  -- nothing is on its way any more
  have hunsent : child.unsent = [] := by rw [Child.unsent, h.exited hexited]
  rw [hpipe, hunsent, List.append_nil, List.append_nil] at hstream
  exact (Lines.eq_records hrecs (hstream ▸ hlines)).1

/-! ## All pipes -/

/-- The occurrences in the lines handed on, pipe by pipe. -/
def occurrencesIn (handed : Fin n → List Text) : List Occurrence :=
  (List.finRange n).flatMap fun i => (handed i).filterMap parse_record_line

/-- What holds in every state a schedule leads to. -/
structure Inv (records : Fin n → List Text) (s : System n) : Prop where
  pipes : ∀ i, PipeInv (Lines.join 10 (records i)) (s.child i) (s.pipe i) (s.inbox i) (s.handed i)
  openPipes : s.openPipes = (Finset.univ.filter fun i => (s.inbox i).closed = false).card
  todo_open : ∀ i ∈ s.todo, (s.inbox i).closed = false ∧ s.readable i
  todo_nodup : s.todo.Nodup
  all : s.all.Perm (occurrencesIn s.handed)
  fault : s.fault = false

/-- A longer list in one place. -/
theorem flatMap_update_perm {ι α : Type*} [DecidableEq ι] {l : List ι} (hl : l.Nodup)
    (f : ι → List α) {i : ι} (hi : i ∈ l) (x : List α) :
    (l.flatMap (Function.update f i (f i ++ x))).Perm (l.flatMap f ++ x) := by
  induction l with
  | nil => exact absurd hi (by simp)
  | cons j l ih =>
    obtain ⟨hj, hl⟩ := List.nodup_cons.mp hl
    rw [List.flatMap_cons, List.flatMap_cons]
    by_cases hij : i = j
    · -- `i` is nowhere else in the list
      subst hij
      have hrest : l.flatMap (Function.update f i (f i ++ x)) = l.flatMap f := by
        apply List.flatMap_congr
        intro k hk
        have hne : k ≠ i := by
          rintro rfl
          exact hj hk
        exact Function.update_of_ne hne _ _
      rw [Function.update_self, hrest, List.append_assoc, List.append_assoc]
      exact List.Perm.append_left _ List.perm_append_comm
    · -- `i` is further back, and the head is as before
      have hmem : i ∈ l := (List.mem_cons.mp hi).resolve_left hij
      rw [Function.update_of_ne (Ne.symm hij), List.append_assoc]
      exact List.Perm.append_left _ (ih hl hmem)

/-- What the new lines of one pipe add to all of them. -/
theorem occurrencesIn_update (handed : Fin n → List Text) (i : Fin n) (lines : List Text) :
    (occurrencesIn (Function.update handed i (handed i ++ lines))).Perm
      (occurrencesIn handed ++ lines.filterMap parse_record_line) := by
  have hfun : (fun j => (Function.update handed i (handed i ++ lines) j).filterMap
      parse_record_line) =
      Function.update (fun j => (handed j).filterMap parse_record_line) i
        ((handed i).filterMap parse_record_line ++ lines.filterMap parse_record_line) := by
    -- only the lines of pipe `i` are more
    funext j
    by_cases hji : j = i
    · subst hji
      rw [Function.update_self, Function.update_self, List.filterMap_append]
    · rw [Function.update_of_ne hji, Function.update_of_ne hji]
  rw [occurrencesIn, hfun]
  exact flatMap_update_perm (List.nodup_finRange n) _ (List.mem_finRange i) _

variable {s s' : System n} {i : Fin n} {todo : List (Fin n)}

/-- A step on pipe `i` alone. -/
theorem Inv.pipes_update (h : Inv records s) {c : Child} {p : Text} {box : Inbox} {l : List Text}
    (hi : PipeInv (Lines.join 10 (records i)) c p box l) (j : Fin n) :
    PipeInv (Lines.join 10 (records j)) (Function.update s.child i c j)
      (Function.update s.pipe i p j) (Function.update s.inbox i box j)
      (Function.update s.handed i l j) := by
  by_cases hji : j = i
  · subst hji
    simp only [Function.update_self]
    exact hi
  · simp only [Function.update_of_ne hji]
    exact h.pipes j

/-- The `for` loop visits every pipe once. -/
theorem Inv.todo_ne (h : Inv records s) (htodo : s.todo = i :: todo) : ∀ j ∈ todo, j ≠ i := by
  have hnodup := h.todo_nodup
  rw [htodo] at hnodup
  intro j hj hji
  exact (List.nodup_cons.mp hnodup).1 (hji ▸ hj)

theorem Inv.boot (records : Fin n → List Text) :
    Inv records (.boot fun i => (records i).map (· ++ [10])) where
  pipes i := PipeInv.boot _
  openPipes := by
    show n = (Finset.univ.filter fun _ : Fin n => false = false).card
    simp
  todo_open _ hi := absurd hi (by simp [System.boot])
  todo_nodup := List.nodup_nil
  all := by
    -- nothing has been handed on
    have hnone : occurrencesIn (fun _ : Fin n => []) = [] := by simp [occurrencesIn]
    show ([] : List Occurrence).Perm (occurrencesIn fun _ => [])
    rw [hnone]
  fault := rfl

/-- A pipe that stays readable for the parent. -/
theorem readable_of_append {p data : Text} {ex : Bool} (h : p ≠ [] ∨ ex = true) :
    p ++ data ≠ [] ∨ ex = true := by
  rcases h with h | h
  · exact Or.inl (by simp [h])
  · exact Or.inr h

/-- The steps of the system, each of which concerns one pipe. -/
theorem Inv.write (h : Inv records s) {w : Nat} (hstep : s.write dataLength i w = some s') :
    Inv records s' := by
  obtain ⟨⟨c, data⟩, hwrite, rfl⟩ := Option.map_eq_some_iff.mp hstep
  obtain ⟨-, hexited, -, -⟩ := writeToParent_spec hwrite
  refine ⟨?_, h.openPipes, ?_, h.todo_nodup, h.all, h.fault⟩
  · have hpipes := h.pipes_update ((h.pipes i).write hwrite)
    simpa only [Function.update_eq_self] using hpipes
  · intro j hj
    obtain ⟨hopen, hready⟩ := h.todo_open j hj
    refine ⟨hopen, ?_⟩
    -- a pipe that could be read still can
    show Function.update s.pipe i (s.pipe i ++ data) j ≠ [] ∨
      (Function.update s.child i c j).exited = true
    by_cases hji : j = i
    · subst hji
      rw [Function.update_self, Function.update_self, hexited]
      exact readable_of_append hready
    · rw [Function.update_of_ne hji, Function.update_of_ne hji]
      exact hready

theorem Inv.exit (h : Inv records s) (hrecs : (s.child i).recs = []) :
    Inv records (s.exit i) := by
  refine ⟨?_, h.openPipes, ?_, h.todo_nodup, h.all, h.fault⟩
  · -- the pipe of the child
    have hpipes := h.pipes_update ((h.pipes i).exit hrecs)
    simp only [Function.update_eq_self] at hpipes
    exact hpipes
  · -- a pipe of this round still has its bytes, or its end
    intro j hj
    obtain ⟨hopen, hready⟩ := h.todo_open j hj
    refine ⟨hopen, ?_⟩
    show s.pipe j ≠ [] ∨
      (Function.update s.child i { s.child i with exited := true } j).exited = true
    by_cases hji : j = i
    · subst hji
      exact Or.inr (by rw [Function.update_self])
    · rw [Function.update_of_ne hji]
      exact hready

theorem Inv.select (h : Inv records s) {ready : List (Fin n)}
    (hready : ∀ i ∈ ready, (s.inbox i).closed = false ∧ s.readable i) :
    Inv records { s with todo := (List.finRange n).filter (· ∈ ready) } := by
  refine ⟨h.pipes, h.openPipes, ?_, (List.nodup_finRange n).filter _, h.all, h.fault⟩
  intro i hi
  exact hready i (of_decide_eq_true (List.mem_filter.mp hi).2)

/-- The turn of the `for` loop is over without a change. -/
theorem Inv.skip (h : Inv records s) (htodo : s.todo = i :: todo) :
    Inv records { s with todo := todo } := by
  have hsub : ∀ j ∈ todo, j ∈ s.todo := fun j hj => htodo ▸ List.mem_cons_of_mem _ hj
  refine ⟨h.pipes, h.openPipes, fun j hj => h.todo_open j (hsub j hj), ?_, h.all, h.fault⟩
  have hnodup := h.todo_nodup
  rw [htodo] at hnodup
  exact (List.nodup_cons.mp hnodup).2

theorem Inv.receive (h : Inv records s) (htodo : s.todo = i :: todo) (r : Nat) :
    Inv records (s.receive fresh i todo r) := by
  obtain ⟨inbox', lines, hreceive, hclosed, hpipe⟩ := (h.pipes i).receive fresh r s.all
  have hskip := h.skip htodo
  have hopen : ∀ j, (Function.update s.inbox i inbox' j).closed = (s.inbox j).closed := by
    intro j
    by_cases hji : j = i
    · subst hji
      rw [Function.update_self, hclosed]
    · rw [Function.update_of_ne hji]
  rw [System.receive, hreceive]
  refine ⟨?_, ?_, ?_, hskip.todo_nodup, ?_, h.fault⟩
  · have hpipes := h.pipes_update hpipe
    simpa only [Function.update_eq_self] using hpipes
  · -- a `read` with bytes opens and closes nothing
    show s.openPipes =
      (Finset.univ.filter fun j => (Function.update s.inbox i inbox' j).closed = false).card
    simp only [hopen]
    exact h.openPipes
  · intro j hj
    -- the other readable pipes are not touched
    have hji := h.todo_ne htodo j hj
    obtain ⟨hjopen, hready⟩ := hskip.todo_open j hj
    show (Function.update s.inbox i inbox' j).closed = false ∧
      (Function.update s.pipe i _ j ≠ [] ∨ (s.child j).exited = true)
    rw [Function.update_of_ne hji, Function.update_of_ne hji]
    exact ⟨hjopen, hready⟩
  · exact (h.all.append_right _).trans (occurrencesIn_update s.handed i lines).symm

theorem Inv.closePipe (h : Inv records s) (htodo : s.todo = i :: todo) (hpipe : s.pipe i = [])
    (hexited : (s.child i).exited = true) : Inv records (s.closePipe i todo) := by
  have hskip := h.skip htodo
  refine ⟨?_, ?_, ?_, hskip.todo_nodup, h.all, h.fault⟩
  · -- the pipe that is closed
    have hpipes := h.pipes_update ((h.pipes i).close hpipe hexited)
    simp only [Function.update_eq_self] at hpipes
    exact hpipes
  · -- one open pipe less
    have hi : (s.inbox i).closed = false := (h.todo_open i (htodo ▸ List.mem_cons_self)).1
    have herase : (Finset.univ.filter fun j => ((s.closePipe i todo).inbox j).closed = false) =
        (Finset.univ.filter fun j => (s.inbox j).closed = false).erase i := by
      ext j
      rw [Finset.mem_erase, Finset.mem_filter, Finset.mem_filter]
      by_cases hji : j = i
      · subst hji
        simp [System.closePipe]
      · simp [System.closePipe, hji]
    show s.openPipes - 1 = _
    rw [herase, Finset.card_erase_of_mem (Finset.mem_filter.mpr ⟨Finset.mem_univ i, hi⟩),
      h.openPipes]
  · -- the other pipes of this round
    intro j hj
    have hji := h.todo_ne htodo j hj
    obtain ⟨hjopen, hready⟩ := hskip.todo_open j hj
    refine ⟨?_, hready⟩
    show (Function.update s.inbox i _ j).closed = false
    rw [Function.update_of_ne hji]
    exact hjopen

/-- What an event does, with what it takes for it to happen. -/
inductive Move (fresh : Nat → UInt8) (dataLength : Nat) (s : System n) :
    Event n → System n → Prop
  | write {i : Fin n} {w : Nat} {s' : System n} (h : s.write dataLength i w = some s') :
      Move fresh dataLength s (.write i w) s'
  | writeEintr {i : Fin n} : Move fresh dataLength s (.writeEintr i) s
  | exit {i : Fin n} (hrecs : (s.child i).recs = []) (hrunning : (s.child i).exited = false) :
      Move fresh dataLength s (.exit i) (s.exit i)
  | select {ready : List (Fin n)} (htodo : s.todo = []) (hne : ready ≠ [])
      (hready : ∀ i ∈ ready, (s.inbox i).closed = false ∧ s.readable i) :
      Move fresh dataLength s (.select ready)
        { s with todo := (List.finRange n).filter (· ∈ ready) }
  | selectEintr : Move fresh dataLength s .selectEintr s
  | read {i : Fin n} {todo : List (Fin n)} {r : Nat} (htodo : s.todo = i :: todo) (hr : 1 ≤ r)
      (hpipe : r ≤ (s.pipe i).length) :
      Move fresh dataLength s (.read r) (s.receive fresh i todo r)
  | readEof {i : Fin n} {todo : List (Fin n)} (htodo : s.todo = i :: todo) (hpipe : s.pipe i = [])
      (hexited : (s.child i).exited = true) :
      Move fresh dataLength s .readEof (s.closePipe i todo)
  | readEintr {i : Fin n} {todo : List (Fin n)} (htodo : s.todo = i :: todo) :
      Move fresh dataLength s .readEintr { s with todo := todo }

/-- What a step can do, once for all proofs about steps. -/
theorem step_move {e : Event n} (h : s.step fresh dataLength e = some s') :
    Move fresh dataLength s e s' := by
  -- each event has its guard; without it the step is not there
  cases e with
  | write i w => exact .write h
  | writeEintr i =>
    obtain ⟨-, ⟨⟩⟩ := Option.ite_none_right_eq_some.mp h
    exact .writeEintr
  | exit i =>
    obtain ⟨hexit, ⟨⟩⟩ := Option.ite_none_right_eq_some.mp h
    exact .exit hexit.1 hexit.2
  | select ready =>
    obtain ⟨hselect, ⟨⟩⟩ := Option.ite_none_right_eq_some.mp h
    exact .select hselect.1 hselect.2.2.1 hselect.2.2.2
  | selectEintr =>
    obtain ⟨-, ⟨⟩⟩ := Option.ite_none_right_eq_some.mp h
    exact .selectEintr
  | read r =>
    cases htodo : s.todo with
    | nil => simp [System.step, htodo] at h
    | cons i todo =>
      simp only [System.step, htodo] at h
      obtain ⟨hread, ⟨⟩⟩ := Option.ite_none_right_eq_some.mp h
      exact .read htodo hread.1 hread.2.2
  | readEof =>
    cases htodo : s.todo with
    | nil => simp [System.step, htodo] at h
    | cons i todo =>
      simp only [System.step, htodo] at h
      obtain ⟨heof, ⟨⟩⟩ := Option.ite_none_right_eq_some.mp h
      exact .readEof htodo heof.1 heof.2
  | readEintr =>
    cases htodo : s.todo with
    | nil => simp [System.step, htodo] at h
    | cons i todo =>
      simp only [System.step, htodo] at h
      obtain rfl := Option.some.inj h
      exact .readEintr htodo

/-- Every step keeps the invariant. -/
theorem Inv.step (h : Inv records s) {e : Event n}
    (hstep : s.step fresh dataLength e = some s') : Inv records s' := by
  cases step_move hstep with
  | write hwrite => exact h.write hwrite
  | writeEintr => exact h
  | exit hrecs _ => exact h.exit hrecs
  | select _ _ hready => exact h.select hready
  | selectEintr => exact h
  | read htodo _ _ => exact h.receive htodo _
  | readEof htodo hpipe hexited => exact h.closePipe htodo hpipe hexited
  | readEintr htodo => exact h.skip htodo

/-- Every run keeps the invariant. -/
theorem Inv.run (h : Inv records s) {es : List (Event n)}
    (hrun : System.run fresh dataLength es s = some s') : Inv records s' := by
  induction es generalizing s with
  | nil => exact Option.some.inj hrun ▸ h
  | cons e es ih =>
    obtain ⟨t, hstep, hrest⟩ := Option.bind_eq_some_iff.mp hrun
    exact ih (h.step hstep) hrest

/-- The counter of open pipes is right. -/
theorem Inv.finished_iff (h : Inv records s) : s.finished ↔ ∀ i, (s.inbox i).closed = true := by
  rw [System.finished, h.openPipes, Finset.card_eq_zero, Finset.filter_eq_empty_iff]
  constructor
  · intro hnone i
    exact Bool.not_eq_false _ ▸ hnone (Finset.mem_univ i)
  · intro hclosed i _
    rw [hclosed i]
    decide

/-- The parent reassembles the records of every child, whatever the size of the
writes and reads and their order, and collects the occurrences of all of them. No
access leaves a buffer on the way. -/
theorem run_reassembles (fresh : Nat → UInt8) (dataLength : Nat) (records : Fin n → List Text)
    (hrecords : ∀ i, ∀ r ∈ records i, 10 ∉ r) (es : List (Event n)) (s : System n)
    (hrun : System.run fresh dataLength es (.boot fun i => (records i).map (· ++ [10])) = some s) :
    s.fault = false ∧
    (∀ i, (s.inbox i).mem.length = (s.inbox i).cap ∧ (s.inbox i).len ≤ (s.inbox i).cap) ∧
    (s.finished ↔ ∀ i, (s.inbox i).closed = true) ∧
    (s.finished → (∀ i, s.handed i = records i) ∧ s.all.Perm (occurrencesIn records)) := by
  have hinv : Inv records s := (Inv.boot records).run hrun
  refine ⟨hinv.fault, ?_, hinv.finished_iff, ?_⟩
  · -- the buffers
    intro i
    obtain ⟨read, tail, hbox, -, -⟩ := (hinv.pipes i).reads
    exact ⟨hbox.size, hbox.room⟩
  · -- what has been read in the end
    intro hfinished
    have hclosed := hinv.finished_iff.mp hfinished
    have hhanded : ∀ i, s.handed i = records i := fun i =>
      (hinv.pipes i).handed_eq (hrecords i) (hclosed i)
    have hfun : s.handed = records := funext hhanded
    exact ⟨hhanded, hfun ▸ hinv.all⟩

/-- Two children, `a 1 1` and `b 2 3`: a record cut in the middle, an interrupted
write and an interrupted read, and a chunk that ends behind a newline. -/
def demoRecords : Fin 2 → List Text := fun i =>
  if i = 0 then [ascii "a 1 1"] else [ascii "b 2 3"]

def demoSchedule : List (Event 2) :=
  [.write 0 3, .writeEintr 1, .write 1 2, .select [0, 1], .read 3, .readEintr, .write 0 1,
    .write 1 3, .write 0 2, .exit 0, .select [1, 0], .read 3, .read 1, .write 1 1, .exit 1,
    .select [1], .read 3, .select [0, 1], .readEof, .read 2, .select [1], .readEof]

theorem demoSchedule_ends :
    (System.run (fun _ => 255) 3 demoSchedule (.boot fun i => (demoRecords i).map (· ++ [10]))).map
      System.openPipes = some 0 := by decide +kernel

theorem run_reassembles_demo :
    ∃ s, System.run (fun _ => 255) 3 demoSchedule
        (.boot fun i => (demoRecords i).map (· ++ [10])) = some s ∧
      s.finished ∧ s.fault = false ∧ (∀ i, s.handed i = demoRecords i) ∧
      s.all.Perm (occurrencesIn demoRecords) := by
  obtain ⟨s, hrun, hopen⟩ := Option.map_eq_some_iff.mp demoSchedule_ends
  obtain ⟨hfault, -, -, hend⟩ :=
    run_reassembles (fun _ => 255) 3 demoRecords (by decide) demoSchedule s hrun
  exact ⟨s, hrun, hopen, hfault, (hend hopen).1, (hend hopen).2⟩

end OsProjects.Findlw
