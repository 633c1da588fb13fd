import OsProjects.Lib.Measures
import OsProjects.Findlw.Processes
import Mathlib.Data.Prod.Lex
import Mathlib.Order.WellFounded

/-!
# Threads — the command line, the worker threads and the output of `findlwt.c`

`findlwt` of `Findlw/Definitions.lean` has the workers run one after another. Here they are
threads beside `main`, which creates them in a loop, joins them in a second one, merges
what they have left in `results` and prints it. A step is one call: `fopen`, `getline` or
`strtok_r` of a worker with what it does to the worker's own entry of `results`,
`pthread_create`, `pthread_join`, the merge, which no other thread can see, the `fopen` of
the output file, a transfer of some of its bytes, `fclose`. An `exit` in any thread ends the
program.

Calls may fail. `pthread_create`, the `realloc` and `strdup` of `occ_push` and the `fopen` of
the output file make the program exit with 1 (`Turn.fatal`). The others are ignored: a
worker that cannot open or read its file goes on as if it were not there or over, and nobody
looks at what `fprintf` and `fclose` return (`Turn.lossy`).

What a worker is going to return can be told wherever it is (`Work.ends`), and no step of
anybody changes it, as long as no call is lost. So the program prints what the workers print
one after another, whatever the scheduling (`threads_end`).
-/

namespace OsProjects.Findlw

open Measures

namespace Findlwt

/-! ## The command line -/

/-- What `message` of `findlwt.c` writes. -/
def message (program : CString) : Text :=
  ascii "Usage: " ++ program.val ++ ascii " FilePrefix N K OutFilename\n"

/-- What `main` goes on with. -/
structure Options where
  filePrefix : CString
  n : Nat
  k : Int
  outFile : CString
  deriving DecidableEq

/-- The checks at the beginning of `main`, as in `findlwp.c` but for the data length. -/
def options (program : CString) : List CString → Except Text Options
  | [filePrefix, n, k, outFile] =>
    if atoi n < 1 ∨ atoi n > 10 then .error (ascii "Invalid range for N\n")
    else if atoi k < 1 ∨ atoi k > 100 then .error (ascii "Invalid range for K\n")
    else .ok ⟨filePrefix, (atoi n).toNat, atoi k, outFile⟩
  | _ => .error (message program)

/-- The arrays `tids` and `results` have ten entries. -/
theorem options_le {program : CString} {args : List CString} {o : Options}
    (h : options program args = .ok o) : o.n ≤ 10 := by
  unfold options at h
  split at h
  · split_ifs at h with hn hk
    obtain rfl := Except.ok.inj h
    show Int.toNat _ ≤ 10
    omega
  · exact absurd h (by simp)

/-! ## The threads -/

/-- Where a worker is. -/
inductive Work
  | opens
  /-- Before a `getline`, with the rest of the file. -/
  | reads (f : Text) (lineNo : Int)
  /-- Before a `strtok_r` in the line `lineNo`, with the rest of that line. -/
  | splits (save f : Text) (lineNo : Int)
  | returned
  deriving DecidableEq

/-- Where `main` is. -/
inductive Stage
  /-- In the loops that create and join the threads, -/
  | joins
  /-- behind the merge, -/
  | merged (all : List Occurrence)
  /-- or printing, with the bytes that have not been transferred yet. -/
  | prints (rest : Text)
  deriving DecidableEq

/-- The arrays of `main`, where its threads are, and what the program has left behind. -/
structure Threads (n : Nat) where
  results : Fin n → ThreadResult
  work : Fin n → Work
  /-- How many threads `main` has created, -/
  created : Nat
  /-- and how many of them it has joined. -/
  joined : Nat
  stage : Stage
  /-- `none` until `fopen` has created or emptied it. -/
  outFile : Option Text
  /-- What the program has exited with. -/
  status : Option Nat

/-- The calls of the threads. -/
inductive Turn (n : Nat)
  | create (ok : Bool)
  | work (i : Fin n)
  /-- `fopen` or `getline` of worker `i` fails. -/
  | unread (i : Fin n)
  /-- `realloc` or `strdup` of worker `i` fails. -/
  | noMemory (i : Fin n)
  | join
  /-- The loop behind the joins; its `realloc` or a `strdup` may fail. -/
  | merge (ok : Bool)
  | fopen (ok : Bool)
  /-- `r` bytes of the text that `fprintf` formats leave the buffer of the stream, for the
  output file or, when the `write` fails, for nowhere. -/
  | print (r : Nat) (ok : Bool)
  /-- `fclose`, which finds the buffer empty, and `return 0`. -/
  | fclose
  deriving DecidableEq

/-- A failing call that ends the program. -/
def Turn.fatal {n : Nat} : Turn n → Bool
  | .create ok => !ok
  | .noMemory _ => true
  | .merge ok => !ok
  | .fopen ok => !ok
  | _ => false

/-- A failing call that nobody looks at. -/
def Turn.lossy {n : Nat} : Turn n → Bool
  | .unread _ => true
  | .print _ ok => !ok
  | _ => false

namespace Threads

variable {n : Nat}

/-- One worker moves on, and its entry of `results` changes. -/
def put (w : Threads n) (i : Fin n) (x : Work) (tr : ThreadResult) : Threads n :=
  { w with work := Function.update w.work i x, results := Function.update w.results i tr }

/-- The next call of worker `i`. -/
def turn (fs : Files) (filePrefix : CString) (k : Int) (w : Threads n) (i : Fin n) :
    Option (Threads n) :=
  let tr := w.results i
  match w.work i with
  | .opens =>
    match makeInputFilename 512 filePrefix ((i : Nat) + 1) with
    | none => some { w with status := some 1 }
    | some filename =>
      match fs filename with
      | none => some (w.put i .returned { tr with ok := false })
      | some f => some (w.put i (.reads f 0) { tr with ok := true })
  | .reads f lineNo =>
    match getline f with
    | none => some (w.put i .returned tr)
    | some (line, f) => some (w.put i (.splits line f (toInt (lineNo + 1))) tr)
  | .splits save f lineNo =>
    match strtok_r save with
    | none => some (w.put i (.reads f lineNo) tr)
    | some (token, save) =>
      some (w.put i (.splits save f lineNo) { tr with
        arr := if toInt token.val.length ≥ k then push tr.arr token ((i : Nat) + 1) lineNo
          else tr.arr })
  | .returned => none

/-- The next call of worker `i` is a `fopen` or a `getline`, and it fails. -/
def unread (filePrefix : CString) (w : Threads n) (i : Fin n) : Option (Threads n) :=
  let tr := w.results i
  match w.work i with
  | .opens =>
    match makeInputFilename 512 filePrefix ((i : Nat) + 1) with
    | none => none
    | some _ => some (w.put i .returned { tr with ok := false })
  | .reads _ _ => some (w.put i .returned tr)
  | _ => none

/-- The next call of worker `i` finds a word that is long enough, and there is no memory
for it. -/
def noMemory (k : Int) (w : Threads n) (i : Fin n) : Option (Threads n) :=
  match w.work i with
  | .splits save _ _ =>
    match strtok_r save with
    | none => none
    | some (token, _) =>
      if toInt token.val.length ≥ k then some { w with status := some 1 } else none
  | _ => none

/-- What `main` does behind the joins. -/
def output (qsort : Qsort Occurrence) (w : Threads n) : Turn n → Option (Threads n)
  | .merge ok =>
    if w.created = n ∧ w.joined = n ∧ w.stage = .joins then
      let all := merge (List.ofFn w.results)
      if ok then some { w with stage := .merged all }
      -- `occ_push` is called for each occurrence
      else if all ≠ [] then some { w with status := some 1 }
      else none
    else none
  | .fopen ok =>
    match w.stage with
    | .merged all =>
      some (if ok then { w with stage := .prints (writeIndex qsort all), outFile := some [] }
        else { w with status := some 1 })
    | _ => none
  | .print r ok =>
    match w.stage with
    | .prints rest =>
      if 1 ≤ r ∧ r ≤ rest.length then
        some { w with
          stage := .prints (rest.drop r)
          outFile := w.outFile.map (· ++ if ok then rest.take r else []) }
      else none
    | _ => none
  | .fclose => if w.stage = .prints [] then some { w with status := some 0 } else none
  | _ => none

/-- One call of one thread; `none` when it cannot take place. -/
def step (qsort : Qsort Occurrence) (fs : Files) (filePrefix : CString) (k : Int)
    (w : Threads n) (t : Turn n) : Option (Threads n) :=
  if w.status.isSome then none
  else
    match t with
    | .create ok =>
      if h : w.created < n then
        -- the entry is filled in before the thread is there
        let w := w.put ⟨w.created, h⟩ .opens ⟨[], false⟩
        some (if ok then { w with created := w.created + 1 } else { w with status := some 1 })
      else none
    | .work i => if i < w.created then w.turn fs filePrefix k i else none
    | .unread i => if i < w.created then w.unread filePrefix i else none
    | .noMemory i => if i < w.created then w.noMemory k i else none
    | .join =>
      if h : w.created = n ∧ w.joined < n then
        -- `pthread_join` waits for the thread
        if w.work ⟨w.joined, h.2⟩ = .returned then some { w with joined := w.joined + 1 } else none
      else none
    | .merge _ | .fopen _ | .print _ _ | .fclose => w.output qsort t

/-- Some calls one after another. -/
def run (qsort : Qsort Occurrence) (fs : Files) (filePrefix : CString) (k : Int)
    (ts : List (Turn n)) (w : Threads n) : Option (Threads n) :=
  ts.foldlM (step qsort fs filePrefix k) w

/-- `main` behind the checks and the `memset`. -/
def start (n : Nat) : Threads n where
  results _ := ⟨[], false⟩
  work _ := .opens
  created := 0
  joined := 0
  stage := .joins
  outFile := none
  status := none

end Threads

/-! ## The loops of a worker -/

section Loops

variable {k fileIndex lineNo : Int} {save save' f rest line : Text} {token : CString}
  {o : List Occurrence}

/-- With a turn for every byte there is, more of them change nothing. -/
theorem tokenLoop_fuel {fuel fuel' : Nat} (hfuel : save.length ≤ fuel)
    (hfuel' : save.length ≤ fuel') :
    tokenLoop k fileIndex lineNo fuel save o = tokenLoop k fileIndex lineNo fuel' save o := by
  -- on the fuel; every pass leaves fewer bytes
  induction fuel generalizing save o fuel' with
  | zero =>
    obtain rfl := List.length_eq_zero_iff.mp (Nat.le_zero.mp hfuel)
    cases fuel' with
    | zero => rfl
    | succ fuel' => rfl
  | succ fuel ih =>
    cases fuel' with
    | zero =>
      obtain rfl := List.length_eq_zero_iff.mp (Nat.le_zero.mp hfuel')
      rfl
    | succ fuel' =>
      rw [tokenLoop, tokenLoop]
      cases htok : strtok_r save with
      | none => rfl
      | some result =>
        obtain ⟨token, save'⟩ := result
        obtain ⟨-, hlt, -⟩ := strtok_r_some (w := []) htok
        exact ih (by omega) (by omega)

theorem lineLoop_fuel {fuel fuel' : Nat} (hfuel : f.length ≤ fuel) (hfuel' : f.length ≤ fuel') :
    lineLoop k fileIndex fuel f lineNo o = lineLoop k fileIndex fuel' f lineNo o := by
  -- on the fuel; every line leaves fewer bytes
  induction fuel generalizing f lineNo o fuel' with
  | zero =>
    obtain rfl := List.length_eq_zero_iff.mp (Nat.le_zero.mp hfuel)
    cases fuel' with
    | zero => rfl
    | succ fuel' => rfl
  | succ fuel ih =>
    cases fuel' with
    | zero =>
      obtain rfl := List.length_eq_zero_iff.mp (Nat.le_zero.mp hfuel')
      rfl
    | succ fuel' =>
      rw [lineLoop, lineLoop]
      cases hget : getline f with
      | none => rfl
      | some result =>
        obtain ⟨line, rest⟩ := result
        have hlt := getline_length hget
        exact ih (by omega) (by omega)

theorem tokenLoop_none (h : strtok_r save = none) :
    tokenLoop k fileIndex lineNo save.length save o = o := by
  rw [tokenLoop_fuel le_rfl (Nat.le_succ _), tokenLoop, h]

/-- One pass of the loop over a line. -/
theorem tokenLoop_some (h : strtok_r save = some (token, save')) :
    tokenLoop k fileIndex lineNo save.length save o =
      tokenLoop k fileIndex lineNo save'.length save'
        (if toInt token.val.length ≥ k then push o token fileIndex lineNo else o) := by
  obtain ⟨-, hlt, -⟩ := strtok_r_some (w := []) h
  rw [tokenLoop_fuel le_rfl (Nat.le_succ _), tokenLoop, h]
  exact tokenLoop_fuel (by omega) le_rfl

theorem lineLoop_none (h : getline f = none) : lineLoop k fileIndex f.length f lineNo o = o := by
  rw [lineLoop_fuel le_rfl (Nat.le_succ _), lineLoop, h]

/-- One pass of the loop over the lines. -/
theorem lineLoop_some (h : getline f = some (line, rest)) :
    lineLoop k fileIndex f.length f lineNo o =
      lineLoop k fileIndex rest.length rest (toInt (lineNo + 1))
        (tokenLoop k fileIndex (toInt (lineNo + 1)) line.length line o) := by
  have hlt := getline_length h
  rw [lineLoop_fuel le_rfl (Nat.le_succ _), lineLoop, h]
  exact lineLoop_fuel (by omega) le_rfl

/-- `getline` loses no byte. -/
theorem getline_append (h : getline f = some (line, rest)) :
    line.length + rest.length = f.length := by
  unfold getline at h
  split at h
  · exact absurd h (by simp)
  · obtain ⟨rfl, rfl⟩ := Prod.mk.inj (Option.some.inj h)
    have hsplit := congrArg List.length
      (List.takeWhile_append_dropWhile (p := (· != 10)) (l := f))
    have hrest := congrArg List.length (List.take_append_drop 1 (f.dropWhile (· != 10)))
    rw [List.length_append] at hsplit hrest ⊢
    omega

end Loops

/-! ## What a worker is going to return -/

/-- The result of the worker for file `i`, told from where it is and what it has. -/
def Work.ends (fs : Files) (filePrefix : CString) (k i : Int) (tr : ThreadResult) :
    Work → Option ThreadResult
  | .opens => worker fs filePrefix k i
  | .reads f lineNo => some { tr with arr := lineLoop k i f.length f lineNo tr.arr }
  | .splits save f lineNo =>
    some { tr with
      arr := lineLoop k i f.length f lineNo (tokenLoop k i lineNo save.length save tr.arr) }
  | .returned => some tr

/-- A bound on the calls the worker for file `i` still makes. -/
def Work.effort (fs : Files) (filePrefix : CString) (i : Int) : Work → Nat
  | .opens =>
    ((makeInputFilename 512 filePrefix i).bind fs).elim 1 fun f => 3 * f.length + 2
  | .reads f _ => 3 * f.length + 1
  | .splits save f _ => save.length + 3 * f.length + 2
  | .returned => 0

/-- How many of the merge and the `fopen` are left, and how many bytes. -/
def Stage.effort : Stage → Nat × Nat
  | .joins => (2, 0)
  | .merged _ => (1, 0)
  | .prints rest => (0, rest.length)

namespace Threads

variable {n : Nat} {qsort : Qsort Occurrence} {fs : Files} {filePrefix : CString} {k : Int}
  {w w' : Threads n} {t : Turn n} {ts : List (Turn n)} {i : Fin n} {clean : Prop}

/-- What `main` has done behind the joins. -/
def Staged (qsort : Qsort Occurrence) (clean : Prop) (w : Threads n) : Stage → Prop
  | .joins => w.outFile = none
  | .merged all =>
    (w.created = n ∧ w.joined = n) ∧ w.outFile = none ∧ all = merge (List.ofFn w.results)
  | .prints rest =>
    (w.created = n ∧ w.joined = n) ∧ ∃ written, w.outFile = some written ∧
      (clean → written ++ rest = writeIndex qsort (merge (List.ofFn w.results)))

/-- What holds until the program exits; `clean` says that no failing call was ignored. -/
structure Inv (qsort : Qsort Occurrence) (fs : Files) (filePrefix : CString) (k : Int)
    (clean : Prop) (w : Threads n) : Prop where
  ends : clean → ∀ i : Fin n, (w.work i).ends fs filePrefix k ((i : Nat) + 1) (w.results i) =
    worker fs filePrefix k ((i : Nat) + 1)
  empty : ∀ i, w.work i = .opens → w.results i = ⟨[], false⟩
  unborn : ∀ i : Fin n, w.created ≤ i → w.work i = .opens
  joined : ∀ i : Fin n, i < w.joined → w.work i = .returned
  created_le : w.created ≤ n
  joined_le : w.joined ≤ n
  staged : w.Staged qsort clean w.stage
  status : w.status = none

/-- The calls of the workers and the loops of `main` that are left. -/
def calls (fs : Files) (filePrefix : CString) (w : Threads n) : Nat :=
  ∑ i : Fin n, (w.work i).effort fs filePrefix ((i : Nat) + 1) + (n - w.created) + (n - w.joined)

/-- How long the text is comes out with the last of these calls, so its bytes count less than
any of them. -/
def effort (fs : Files) (filePrefix : CString) (w : Threads n) : ℕ ×ₗ ℕ :=
  toLex (w.calls fs filePrefix + w.stage.effort.1, w.stage.effort.2)

/-- The program has printed what the workers print one after another. -/
structure Printed (qsort : Qsort Occurrence) (fs : Files) (filePrefix : CString) (k : Int)
    (clean : Prop) (w : Threads n) : Prop where
  status : w.status = some 0
  returned : ∀ i, w.work i = .returned
  written : w.outFile ≠ none
  outFile : clean → w.outFile = findlwt qsort fs filePrefix n k

/-- It has exited with 1, before it opened the output file, because a call has failed or
because one of the names does not fit. -/
structure GaveUp (filePrefix : CString) (failed : Prop) (w : Threads n) : Prop where
  status : w.status = some 1
  outFile : w.outFile = none
  reason : failed ∨ ∃ i < n, makeInputFilename 512 filePrefix (i + 1) = none

/-- A worker that has not returned is there and not joined, so `main` waits. -/
theorem Inv.stage_eq (h : Inv qsort fs filePrefix k clean w) (hbusy : w.work i ≠ .returned) :
    w.stage = .joins := by
  have hstaged := h.staged
  -- a worker that is not done has not been joined
  have hwaits : ¬ (w.created = n ∧ w.joined = n) := fun hall =>
    hbusy (h.joined i (by rw [hall.2]; exact i.isLt))
  cases hstage : w.stage with
  | joins => rfl
  | merged all =>
    rw [hstage] at hstaged
    exact absurd hstaged.1 hwaits
  | prints rest =>
    rw [hstage] at hstaged
    exact absurd hstaged.1 hwaits

/-- No output file is there before all workers have returned. -/
theorem Inv.outFile_eq (h : Inv qsort fs filePrefix k clean w) (hstage : w.stage = .joins) :
    w.outFile = none := by
  have hstaged := h.staged
  rw [hstage] at hstaged
  exact hstaged

/-- One worker moves to `x`, with the result `tr` so far. -/
theorem Inv.put (h : Inv qsort fs filePrefix k clean w) (hi : i < w.created) {x : Work}
    {tr : ThreadResult} {clean' : Prop} (hclean : clean' → clean)
    (hbusy : w.work i ≠ .returned) (hopens : x ≠ .opens)
    (hends : clean' → x.ends fs filePrefix k ((i : Nat) + 1) tr =
      (w.work i).ends fs filePrefix k ((i : Nat) + 1) (w.results i)) :
    Inv qsort fs filePrefix k clean' (w.put i x tr) where
  ends hc j := by
    by_cases hj : j = i
    · subst hj
      simp only [Threads.put, Function.update_self]
      exact (hends hc).trans (h.ends (hclean hc) j)
    · simp only [Threads.put, Function.update_of_ne hj]
      exact h.ends (hclean hc) j
  empty j hj := by
    -- it has been opened, so `empty` says nothing about it
    by_cases hji : j = i
    · subst hji
      simp only [Threads.put, Function.update_self] at hj
      exact absurd hj hopens
    · simp only [Threads.put, Function.update_of_ne hji] at hj ⊢
      exact h.empty j hj
  unborn j hj := by
    -- the worker was created
    have hji : j ≠ i := fun heq => by
      subst heq
      exact absurd hj (Nat.not_le_of_lt hi)
    simp only [Threads.put, Function.update_of_ne hji]
    exact h.unborn j hj
  joined j hj := by
    -- nobody waits for a worker that is not done
    have hji : j ≠ i := fun heq => by
      subst heq
      exact hbusy (h.joined j hj)
    simp only [Threads.put, Function.update_of_ne hji]
    exact h.joined j hj
  created_le := h.created_le
  joined_le := h.joined_le
  staged := by
    show Staged qsort clean' (w.put i x tr) w.stage
    rw [h.stage_eq hbusy]
    exact h.outFile_eq (h.stage_eq hbusy)
  status := h.status

/-- A call is worth more than all bytes of the output. -/
theorem effort_lt {w₁ w₂ : Threads n}
    (h : w₁.calls fs filePrefix + w₁.stage.effort.1 < w₂.calls fs filePrefix + w₂.stage.effort.1) :
    w₁.effort fs filePrefix < w₂.effort fs filePrefix :=
  Prod.Lex.toLex_lt_toLex.mpr (.inl h)

/-- A step of one worker lowers the effort if it lowers its own. -/
theorem effort_put {x : Work} {tr : ThreadResult}
    (h : x.effort fs filePrefix ((i : Nat) + 1) <
      (w.work i).effort fs filePrefix ((i : Nat) + 1)) :
    (w.put i x tr).effort fs filePrefix < w.effort fs filePrefix := by
  -- the other workers have as much to do as before
  have hsum := sum_add_of_eq
    (a := fun j : Fin n => ((w.put i x tr).work j).effort fs filePrefix ((j : Nat) + 1))
    (b := fun j : Fin n => (w.work j).effort fs filePrefix ((j : Nat) + 1)) i fun j hj => by
      simp only [Threads.put, Function.update_of_ne hj]
  have hself : (w.put i x tr).work i = x := Function.update_self ..
  simp only [hself] at hsum
  refine effort_lt ?_
  show ∑ _, _ + (n - w.created) + (n - w.joined) + w.stage.effort.1 < _
  unfold calls
  omega

/-- A worker goes on: what it will return stays the same, and it has less to do. -/
theorem Inv.moves (h : Inv qsort fs filePrefix k clean w) (hi : i < w.created) {x y : Work}
    {tr : ThreadResult} {clean' : Prop} (hclean : clean' → clean) (hwork : w.work i = y)
    (hbusy : y ≠ .returned) (hopens : x ≠ .opens)
    (hends : clean' → x.ends fs filePrefix k ((i : Nat) + 1) tr =
      y.ends fs filePrefix k ((i : Nat) + 1) (w.results i))
    (hless : x.effort fs filePrefix ((i : Nat) + 1) < y.effort fs filePrefix ((i : Nat) + 1)) :
    Inv qsort fs filePrefix k clean' (w.put i x tr) ∧
      (w.put i x tr).effort fs filePrefix < w.effort fs filePrefix := by
  subst hwork
  exact ⟨h.put hi hclean hbusy hopens hends, effort_put hless⟩

/-! ## One step -/

/-- A call of a worker. -/
theorem turn_spec (h : Inv qsort fs filePrefix k clean w) (hi : i < w.created)
    (hturn : w.turn fs filePrefix k i = some w') :
    (Inv qsort fs filePrefix k clean w' ∧ w'.effort fs filePrefix < w.effort fs filePrefix) ∨
      GaveUp filePrefix False w' := by
  unfold turn at hturn
  cases hwork : w.work i with
  | opens =>
    have hresult := h.empty i hwork
    rw [hwork] at hturn
    simp only at hturn
    -- the name of the input file may not fit
    cases hname : makeInputFilename 512 filePrefix ((i : Nat) + 1) with
    | none =>
      rw [hname] at hturn
      obtain rfl := Option.some.inj hturn
      have hstage := h.stage_eq (i := i) (by rw [hwork]; simp)
      exact .inr ⟨rfl, h.outFile_eq hstage, .inr ⟨i, i.isLt, hname⟩⟩
    | some filename =>
      simp only [hname] at hturn
      refine .inl ?_
      cases hfile : fs filename with
      -- no such file: the worker returns with `ok` unset
      | none =>
        rw [hfile] at hturn
        obtain rfl := Option.some.inj hturn
        refine h.moves hi id hwork (by simp) (by simp) (fun _ => ?_) ?_
        · simp [hresult, Work.ends, worker, hname, hfile]
        · simp [Work.effort, hname, hfile]
      -- the file is open, and nothing has been collected
      | some f =>
        rw [hfile] at hturn
        obtain rfl := Option.some.inj hturn
        refine h.moves hi id hwork (by simp) (by simp) (fun _ => ?_) ?_
        · simp [hresult, Work.ends, worker, hname, hfile, collect]
        · simp [Work.effort, hname, hfile]
  | reads f lineNo =>
    rw [hwork] at hturn
    simp only at hturn
    refine .inl ?_
    cases hget : getline f with
    -- the last line has been read: the worker returns
    | none =>
      rw [hget] at hturn
      obtain rfl := Option.some.inj hturn
      refine h.moves hi id hwork (by simp) (by simp) (fun _ => ?_) ?_
      · simp [Work.ends, lineLoop_none hget]
      · simp [Work.effort]
    -- one more line, to be split
    | some result =>
      obtain ⟨line, rest⟩ := result
      have hlt := getline_length hget
      have hlength := getline_append hget
      rw [hget] at hturn
      obtain rfl := Option.some.inj hturn
      refine h.moves hi id hwork (by simp) (by simp) (fun _ => ?_) ?_
      · simp [Work.ends, lineLoop_some hget]
      · simp only [Work.effort]
        omega
  | splits save f lineNo =>
    rw [hwork] at hturn
    simp only at hturn
    refine .inl ?_
    cases htok : strtok_r save with
    -- the line is at its end: back to `getline`
    | none =>
      rw [htok] at hturn
      obtain rfl := Option.some.inj hturn
      refine h.moves hi id hwork (by simp) (by simp) (fun _ => ?_) ?_
      · simp [Work.ends, tokenLoop_none htok]
      · simp only [Work.effort]
        omega
    -- one more token, pushed if it is long enough
    | some result =>
      obtain ⟨token, save'⟩ := result
      obtain ⟨-, hlt, -⟩ := strtok_r_some (w := []) htok
      rw [htok] at hturn
      obtain rfl := Option.some.inj hturn
      refine h.moves hi id hwork (by simp) (by simp) (fun _ => ?_) ?_
      · simp only [Work.ends, tokenLoop_some htok]
      · simp only [Work.effort]
        omega
  | returned =>
    rw [hwork] at hturn
    exact absurd hturn (by simp)

/-- A worker that cannot open or read its file returns. -/
theorem unread_spec (h : Inv qsort fs filePrefix k clean w) (hi : i < w.created)
    (hturn : w.unread filePrefix i = some w') :
    Inv qsort fs filePrefix k False w' ∧ w'.effort fs filePrefix < w.effort fs filePrefix := by
  unfold unread at hturn
  cases hwork : w.work i with
  | opens =>
    rw [hwork] at hturn
    simp only at hturn
    -- with a name that does not fit there is no `fopen`
    cases hname : makeInputFilename 512 filePrefix ((i : Nat) + 1) with
    | none =>
      rw [hname] at hturn
      exact absurd hturn (by simp)
    | some filename =>
      rw [hname] at hturn
      obtain rfl := Option.some.inj hturn
      refine h.moves hi False.elim hwork (by simp) (by simp) False.elim ?_
      simp only [Work.effort, hname, Option.bind_some]
      -- the file is given up, however long it is
      cases fs filename with
      | none => exact Nat.one_pos
      | some f => exact Nat.succ_pos _
  | reads f lineNo =>
    rw [hwork] at hturn
    obtain rfl := Option.some.inj hturn
    refine h.moves hi False.elim hwork (by simp) (by simp) False.elim ?_
    simp [Work.effort]
  -- no file is touched while a line is split
  | splits save f lineNo =>
    rw [hwork] at hturn
    exact absurd hturn (by simp)
  | returned =>
    rw [hwork] at hturn
    exact absurd hturn (by simp)

/-- Without memory the program ends, and all workers that have a word to keep are still to be
joined. -/
theorem noMemory_spec (h : Inv qsort fs filePrefix k clean w)
    (hturn : w.noMemory k i = some w') {failed : Prop} (hfailed : failed) :
    GaveUp filePrefix failed w' := by
  unfold noMemory at hturn
  cases hwork : w.work i with
  | splits save f lineNo =>
    have hstage := h.stage_eq (i := i) (by rw [hwork]; simp)
    rw [hwork] at hturn
    simp only at hturn
    split at hturn
    · -- without a token nothing is pushed
      exact absurd hturn (by simp)
    · split_ifs at hturn
      obtain rfl := Option.some.inj hturn
      exact ⟨rfl, h.outFile_eq hstage, .inl hfailed⟩
  | _ =>
    rw [hwork] at hturn
    exact absurd hturn (by simp)

/-- The results of the workers, all of which have returned. -/
theorem findlwt_eq (hends : ∀ i : Fin n, worker fs filePrefix k ((i : Nat) + 1) =
    some (w.results i)) :
    findlwt qsort fs filePrefix n k = some (writeIndex qsort (merge (List.ofFn w.results))) := by
  rw [findlwt, ← List.map_coe_finRange_eq_range, List.mapM_map, List.ofFn_eq_map]
  simp only [Function.comp_def, hends]
  have hmap : (List.finRange n).mapM (fun i => some (w.results i)) =
      some ((List.finRange n).map w.results) := List.mapM_pure
  rw [hmap, Option.map_some]

/-- Behind the joins, without a lost call, the results are those of the workers one after
another. -/
theorem Inv.findlwt_eq (h : Inv qsort fs filePrefix k clean w) (hclean : clean)
    (hjoined : w.joined = n) :
    findlwt qsort fs filePrefix n k = some (writeIndex qsort (merge (List.ofFn w.results))) := by
  refine Threads.findlwt_eq fun i => ?_
  have hends := h.ends hclean i
  rw [h.joined i (by rw [hjoined]; exact i.isLt)] at hends
  exact hends.symm

/-- What `main` does behind the joins. -/
theorem output_spec (h : Inv qsort fs filePrefix k clean w)
    (hstep : w.output qsort t = some w') :
    (Inv qsort fs filePrefix k (clean ∧ t.lossy = false) w' ∧
        w'.effort fs filePrefix < w.effort fs filePrefix) ∨
      Printed qsort fs filePrefix k (clean ∧ t.lossy = false) w' ∨
      GaveUp filePrefix (t.fatal = true) w' := by
  have hstaged := h.staged
  cases t with
  | merge ok =>
    simp only [output] at hstep
    -- the loop behind the joins
    split_ifs at hstep with hall hok hsome
    · obtain rfl := Option.some.inj hstep
      obtain ⟨hcreated, hjoined, hstage⟩ := hall
      refine .inl ⟨{ h with ends := fun hc => h.ends hc.1, staged := ?_ }, effort_lt ?_⟩
      · exact ⟨⟨hcreated, hjoined⟩, h.outFile_eq hstage, rfl⟩
      · rw [hstage]
        exact Nat.lt_succ_self _
    · -- its memory has run out
      obtain rfl := Option.some.inj hstep
      refine .inr (.inr ⟨rfl, h.outFile_eq hall.2.2, .inl ?_⟩)
      exact Bool.not_eq_true' _ ▸ Bool.eq_false_of_not_eq_true hok
  | fopen ok =>
    simp only [output] at hstep
    cases hstage : w.stage with
    | merged all =>
      rw [hstage] at hstep hstaged
      obtain ⟨hall, hout, rfl⟩ := hstaged
      cases ok with
      -- no output file
      | false =>
        obtain rfl := Option.some.inj hstep
        exact .inr (.inr ⟨rfl, hout, .inl rfl⟩)
      -- the file is there, and it is empty
      | true =>
        obtain rfl := Option.some.inj hstep
        refine .inl ⟨{ h with ends := fun hc => h.ends hc.1, staged := ?_ }, effort_lt ?_⟩
        · exact ⟨hall, [], rfl, fun _ => rfl⟩
        · rw [hstage]
          exact Nat.lt_succ_self _
    | _ =>
      rw [hstage] at hstep
      exact absurd hstep (by simp)
  | print r ok =>
    simp only [output] at hstep
    cases hstage : w.stage with
    | prints rest =>
      rw [hstage] at hstep hstaged
      simp only at hstep
      by_cases hr : 1 ≤ r ∧ r ≤ rest.length
      swap
      · rw [if_neg hr] at hstep
        exact absurd hstep (by simp)
      -- the next bytes of the text
      rw [if_pos hr] at hstep
      obtain rfl := Option.some.inj hstep
      obtain ⟨hall, written, hout, htext⟩ := hstaged
      refine .inl ⟨{ h with ends := fun hc => h.ends hc.1, staged := ?_ }, ?_⟩
      · -- what was written is the beginning of the text, and what is left its end
        refine ⟨hall, _, by rw [hout, Option.map_some], fun hc => ?_⟩
        obtain ⟨hclean, hok⟩ := hc
        obtain rfl : ok = true := by simpa [Turn.lossy] using hok
        rw [if_pos rfl, List.append_assoc, List.take_append_drop]
        exact htext hclean
      · -- the stage is the same, and fewer bytes are left
        refine Prod.Lex.toLex_lt_toLex.mpr (.inr ⟨?_, ?_⟩)
        · rw [hstage]
          rfl
        · rw [hstage]
          show (rest.drop r).length < rest.length
          rw [List.length_drop]
          omega
    | _ =>
      rw [hstage] at hstep
      exact absurd hstep (by simp)
  | fclose =>
    simp only [output] at hstep
    split_ifs at hstep with hstage
    -- the file is closed, and `main` returns 0
    obtain rfl := Option.some.inj hstep
    rw [hstage] at hstaged
    obtain ⟨⟨hcreated, hjoined⟩, written, hout, htext⟩ := hstaged
    refine .inr (.inl ⟨rfl, fun i => h.joined i (by rw [hjoined]; exact i.isLt), ?_, ?_⟩)
    · -- there is a file
      show w.outFile ≠ none
      rw [hout]
      exact Option.some_ne_none _
    · -- if nothing was lost, it has the whole text
      rintro ⟨hclean, -⟩
      show w.outFile = _
      rw [hout, h.findlwt_eq hclean hjoined, ← htext hclean, List.append_nil]
  | _ => exact absurd hstep (by simp [output])

/-- A call of any thread. -/
theorem step_spec (h : Inv qsort fs filePrefix k clean w)
    (hstep : w.step qsort fs filePrefix k t = some w') :
    (Inv qsort fs filePrefix k (clean ∧ t.lossy = false) w' ∧
        w'.effort fs filePrefix < w.effort fs filePrefix) ∨
      Printed qsort fs filePrefix k (clean ∧ t.lossy = false) w' ∨
      GaveUp filePrefix (t.fatal = true) w' := by
  unfold step at hstep
  rw [if_neg (by rw [h.status]; exact Bool.false_ne_true)] at hstep
  cases t with
  | create ok =>
    by_cases hlt : w.created < n
    swap
    · simp only [dif_neg hlt] at hstep
      exact absurd hstep (by simp)
    simp only [dif_pos hlt] at hstep
    have hopens := h.unborn ⟨w.created, hlt⟩ le_rfl
    have hstage := h.stage_eq (i := ⟨w.created, hlt⟩) (by rw [hopens]; simp)
    -- the entry is as the `memset` has left it
    have hput : w.put ⟨w.created, hlt⟩ .opens ⟨[], false⟩ = w := by
      rw [← hopens, ← h.empty _ hopens]
      simp only [put, Function.update_eq_self]
    rw [hput] at hstep
    cases ok with
    | false =>
      obtain rfl := Option.some.inj hstep
      exact .inr (.inr ⟨rfl, h.outFile_eq hstage, .inl rfl⟩)
    | true =>
      obtain rfl := Option.some.inj hstep
      refine .inl ⟨{ h with
        ends := fun hc => h.ends hc.1
        unborn := fun i hi => h.unborn i (Nat.le_of_succ_le hi)
        created_le := hlt
        staged := ?_ }, effort_lt ?_⟩
      · show Staged _ _ _ w.stage
        rw [hstage]
        exact h.outFile_eq hstage
      · simp only [calls, if_true]
        omega
  | work i =>
    simp only at hstep
    split_ifs at hstep with hi
    rcases turn_spec h hi hstep with ⟨hinv, heffort⟩ | ⟨hstatus, hout, hreason⟩
    · exact .inl ⟨by simpa only [Turn.lossy, and_true] using hinv, heffort⟩
    · exact .inr (.inr ⟨hstatus, hout, .inr (hreason.resolve_left id)⟩)
  | unread i =>
    simp only at hstep
    split_ifs at hstep with hi
    obtain ⟨hinv, heffort⟩ := unread_spec h hi hstep
    exact .inl ⟨by simpa only [Turn.lossy, Bool.true_eq_false, and_false] using hinv, heffort⟩
  | noMemory i =>
    simp only at hstep
    split_ifs at hstep with hi
    exact .inr (.inr (noMemory_spec h hstep rfl))
  | join =>
    simp only at hstep
    split_ifs at hstep with hlt hreturned
    obtain rfl := Option.some.inj hstep
    have hstage : w.stage = .joins := by
      have hstaged := h.staged
      have hwaits : ¬ (w.created = n ∧ w.joined = n) := fun hall => by omega
      cases hstage : w.stage with
      | joins => rfl
      | _ =>
        rw [hstage] at hstaged
        exact absurd hstaged.1 hwaits
    refine .inl ⟨{ h with
      ends := fun hc => h.ends hc.1
      joined := fun i hi => ?_
      joined_le := hlt.2
      staged := ?_ }, effort_lt ?_⟩
    · rcases Nat.lt_succ_iff_lt_or_eq.mp hi with hbefore | heq
      · exact h.joined i hbefore
      · have hsame : i = ⟨w.joined, hlt.2⟩ := Fin.ext heq
        rw [hsame]
        exact hreturned
    · show Staged _ _ _ w.stage
      rw [hstage]
      exact h.outFile_eq hstage
    · simp only [calls]
      omega
  | merge ok => exact output_spec h hstep
  | fopen ok => exact output_spec h hstep
  | print r ok => exact output_spec h hstep
  | fclose => exact output_spec h hstep

/-- As long as the program has not exited, some thread can make a call that does not fail. -/
theorem exists_turn (h : Inv qsort fs filePrefix k clean w) :
    ∃ t : Turn n, t.fatal = false ∧ t.lossy = false ∧
      (w.step qsort fs filePrefix k t).isSome := by
  have hgoes : ¬ w.status.isSome := by rw [h.status]; exact Bool.false_ne_true
  by_cases hcreated : w.created < n
  · refine ⟨.create true, rfl, rfl, ?_⟩
    rw [step, if_neg hgoes]
    simp only [hcreated, dif_pos, if_true, Option.isSome_some]
  have hall : w.created = n := Nat.le_antisymm h.created_le (Nat.le_of_not_lt hcreated)
  by_cases hreturned : ∀ i, w.work i = .returned
  · by_cases hjoined : w.joined < n
    · refine ⟨.join, rfl, rfl, ?_⟩
      rw [step, if_neg hgoes]
      simp only [hall, hjoined, hreturned, and_self, dif_pos, if_true, Option.isSome_some]
    · have hjoins : w.joined = n := Nat.le_antisymm h.joined_le (Nat.le_of_not_lt hjoined)
      -- `main` goes on
      cases hstage : w.stage with
      | joins =>
        refine ⟨.merge true, rfl, rfl, ?_⟩
        rw [step, if_neg hgoes]
        simp only [output, hall, hjoins, hstage, and_self, if_true, Option.isSome_some]
      | merged all =>
        refine ⟨.fopen true, rfl, rfl, ?_⟩
        rw [step, if_neg hgoes]
        simp only [output, hstage, Option.isSome_some]
      | prints rest =>
        by_cases hrest : rest = []
        · refine ⟨.fclose, rfl, rfl, ?_⟩
          rw [step, if_neg hgoes]
          simp only [output, hstage, hrest, if_true, Option.isSome_some]
        · have hpos : 1 ≤ rest.length := List.length_pos_of_ne_nil hrest
          refine ⟨.print 1 true, rfl, rfl, ?_⟩
          rw [step, if_neg hgoes]
          simp only [output, hstage, le_refl, hpos, and_self, if_true, Option.isSome_some]
  · obtain ⟨i, hi⟩ := not_forall.mp hreturned
    refine ⟨.work i, rfl, rfl, ?_⟩
    rw [step, if_neg hgoes]
    simp only [hall, i.isLt, if_true, turn]
    cases hwork : w.work i with
    | opens =>
      simp only
      split
      · rfl
      · split <;> rfl
    | reads f lineNo =>
      simp only
      split <;> rfl
    | splits save f lineNo =>
      simp only
      split <;> rfl
    | returned => exact absurd hwork hi

/-- The output file so far is the beginning of the one to come. -/
theorem Inv.prefix (h : Inv qsort fs filePrefix k clean w) (hclean : clean) {text : Text}
    (htext : w.outFile = some text) :
    ∃ full, findlwt qsort fs filePrefix n k = some full ∧ text <+: full := by
  have hstaged := h.staged
  cases hstage : w.stage with
  | joins =>
    -- no file yet
    rw [h.outFile_eq hstage] at htext
    exact absurd htext (by simp)
  | merged all =>
    rw [hstage] at hstaged
    -- nor between the joins and `fopen`
    rw [hstaged.2.1] at htext
    exact absurd htext (by simp)
  | prints rest =>
    rw [hstage] at hstaged
    obtain ⟨⟨-, hjoined⟩, written, hout, hsplit⟩ := hstaged
    obtain rfl := Option.some.inj (hout.symm.trans htext)
    exact ⟨_, h.findlwt_eq hclean hjoined, rest, hsplit hclean⟩

/-! ## Runs -/

/-- Nothing happens once the program has exited. -/
theorem step_exited (h : w.status.isSome) : w.step qsort fs filePrefix k t = none := by
  unfold step
  exact if_pos h

/-- A run that may have lost more calls promises less. -/
theorem Inv.mono (h : Inv qsort fs filePrefix k clean w) {clean' : Prop} (hclean : clean' → clean) :
    Inv qsort fs filePrefix k clean' w := by
  refine { h with ends := fun hc => h.ends (hclean hc), staged := ?_ }
  have hstaged := h.staged
  -- only the stage of the output says something about the bytes written
  cases hstage : w.stage with
  | joins =>
    rw [hstage] at hstaged
    exact hstaged
  | merged all =>
    rw [hstage] at hstaged
    exact hstaged
  | prints rest =>
    rw [hstage] at hstaged
    obtain ⟨hall, written, hout, htext⟩ := hstaged
    exact ⟨hall, written, hout, fun hc => htext (hclean hc)⟩

/-- A run keeps the invariant until the program exits, and then it is over. -/
theorem run_spec (h : Inv qsort fs filePrefix k clean w)
    (hrun : w.run qsort fs filePrefix k ts = some w') :
    Inv qsort fs filePrefix k (clean ∧ ∀ t ∈ ts, t.lossy = false) w' ∨
      Printed qsort fs filePrefix k (clean ∧ ∀ t ∈ ts, t.lossy = false) w' ∨
      GaveUp filePrefix (∃ t ∈ ts, t.fatal = true) w' := by
  induction ts generalizing w clean with
  | nil =>
    obtain rfl := Option.some.inj hrun
    exact .inl (h.mono And.left)
  | cons t ts ih =>
    obtain ⟨w₁, hstep, hrest⟩ := Option.bind_eq_some_iff.mp hrun
    have hlossy : (clean ∧ ∀ u ∈ t :: ts, u.lossy = false) →
        (clean ∧ t.lossy = false) ∧ ∀ u ∈ ts, u.lossy = false := by
      simp only [List.forall_mem_cons, and_assoc, imp_self]
    -- behind an exit the run is over
    have hover (hexited : w₁.status.isSome) : ts = [] ∧ w' = w₁ := by
      cases ts with
      | nil => exact ⟨rfl, (Option.some.inj hrest).symm⟩
      | cons t' ts =>
        obtain ⟨w₂, hnext, -⟩ := Option.bind_eq_some_iff.mp hrest
        rw [step_exited hexited] at hnext
        exact absurd hnext (by simp)
    rcases step_spec h hstep with ⟨h₁, -⟩ | hprinted | hgave
    · rcases ih h₁ hrest with hinv | hprinted | hgave
      · exact .inl (hinv.mono hlossy)
      · exact .inr (.inl { hprinted with outFile := fun hc => hprinted.outFile (hlossy hc) })
      · refine .inr (.inr ⟨hgave.status, hgave.outFile, hgave.reason.imp_left ?_⟩)
        rintro ⟨t', ht', hfailed⟩
        exact ⟨t', List.mem_cons_of_mem _ ht', hfailed⟩
    · obtain ⟨rfl, rfl⟩ := hover (by rw [hprinted.status]; rfl)
      exact .inr (.inl { hprinted with outFile := fun hc => hprinted.outFile (hlossy hc).1 })
    · obtain ⟨rfl, rfl⟩ := hover (by rw [hgave.status]; rfl)
      refine .inr (.inr ⟨hgave.status, hgave.outFile, hgave.reason.imp_left ?_⟩)
      exact fun hfailed => ⟨t, List.mem_cons_self, hfailed⟩

/-- The invariant holds before the first thread is created. -/
theorem start_inv (n : Nat) : Inv qsort fs filePrefix k True (start n) where
  ends _ _ := rfl
  empty _ _ := rfl
  unborn _ _ := rfl
  joined _ hi := absurd hi (Nat.not_lt_zero _)
  created_le := Nat.zero_le _
  joined_le := Nat.zero_le _
  staged := rfl
  status := rfl

/-- The threads cannot go on for ever. -/
theorem exists_run_none (turns : ℕ → Turn n) :
    ∃ m, (start n).run qsort fs filePrefix k ((List.range m).map turns) = none := by
  by_contra! hruns
  have hsome (m : ℕ) : ∃ w, (start n).run qsort fs filePrefix k ((List.range m).map turns) =
      some w := Option.ne_none_iff_exists'.mp (hruns m)
  choose s hs using hsome
  have hstep (m : ℕ) : (s m).step qsort fs filePrefix k (turns m) = some (s (m + 1)) := by
    have hnext := hs (m + 1)
    rw [List.range_succ, List.map_append, run, List.foldlM_append] at hnext
    have hlast := hs m
    rw [run] at hlast
    rw [hlast] at hnext
    simpa using hnext
  -- a state that has a successor is none of an exited program
  obtain ⟨m, hm⟩ := WellFounded.not_rel_apply_succ (r := (· < ·)) fun m =>
    (s m).effort fs filePrefix
  have hgoes : ¬ (s (m + 1)).status.isSome := fun hexited => by
    have hnext := hstep (m + 1)
    rw [step_exited hexited] at hnext
    exact absurd hnext (by simp)
  have hexit {x : Nat} (hstatus : (s (m + 1)).status = some x) : False :=
    hgoes (by rw [hstatus]; rfl)
  have hrunning : ¬ (s m).status.isSome := fun hexited => by
    have hnext := hstep m
    rw [step_exited hexited] at hnext
    exact absurd hnext (by simp)
  rcases run_spec (start_inv n) (hs m) with hinv | hprinted | hgave
  · rcases step_spec hinv (hstep m) with ⟨-, heffort⟩ | hprinted | hgave
    · exact hm heffort
    · exact hexit hprinted.status
    · exact hexit hgave.status
  · exact hrunning (by rw [hprinted.status]; rfl)
  · exact hrunning (by rw [hgave.status]; rfl)

end Threads

/-- `findlwt` from its command line on, under any scheduling and with any of its calls failing.
The arrays of ten are long enough, the threads cannot go on for ever, and until the program
has exited some thread can make a call that does not fail. It exits with 1 only before the
output file is opened, and only because memory, a thread or that file was refused or a name
does not fit. It exits with 0 when all workers have returned. If no failing call was ignored,
the output file is then the one of the workers run one after another, and before that the
beginning of it. -/
theorem threads_end (qsort : Qsort Occurrence) (program : CString) (args : List CString)
    (o : Options) (hoptions : options program args = .ok o) (fs : Files) :
    o.n ≤ 10 ∧
    (∀ turns : ℕ → Turn o.n, ∃ m,
      (Threads.start o.n).run qsort fs o.filePrefix o.k ((List.range m).map turns) = none) ∧
    ∀ ts w, (Threads.start o.n).run qsort fs o.filePrefix o.k ts = some w →
      (w.status = none ∧
          (∃ t : Turn o.n, t.fatal = false ∧ t.lossy = false ∧
            (w.step qsort fs o.filePrefix o.k t).isSome) ∧
          ∀ text, w.outFile = some text → (∀ t ∈ ts, t.lossy = false) →
            ∃ full, findlwt qsort fs o.filePrefix o.n o.k = some full ∧ text <+: full) ∨
        w.Printed qsort fs o.filePrefix o.k (∀ t ∈ ts, t.lossy = false) ∨
        w.GaveUp o.filePrefix (∃ t ∈ ts, t.fatal = true) := by
  -- from the invariant: it goes on, it has printed, or it has given up
  refine ⟨options_le hoptions, Threads.exists_run_none, fun ts w hrun => ?_⟩
  rcases Threads.run_spec (Threads.start_inv o.n) hrun with hinv | hprinted | hgave
  · exact .inl ⟨hinv.status, Threads.exists_turn hinv, fun text htext hlossy =>
      hinv.prefix ⟨trivial, hlossy⟩ htext⟩
  · exact .inr (.inl { hprinted with outFile := fun hlossy => hprinted.outFile ⟨trivial, hlossy⟩ })
  · exact .inr (.inr hgave)

/-- The second worker, whose file is not there, returns before the first one, and the output
comes in two pieces. -/
def twoWorkersRun (i j : Fin 2) : List (Turn 2) :=
  [.create true, .work i, .work i, .create true, .work j, .work i, .work i, .work i, .join, .join,
    .merge true, .fopen true, .print 5 true, .print 13 true, .fclose]

theorem threads_end_demo : ∃ w, (Threads.start 2).run (Qsort.merge _) (oneFile (ascii "ab\n"))
      ⟨ascii "w", by decide⟩ 1 (twoWorkersRun 0 1) = some w ∧
    w.status = some 0 ∧
    w.outFile = findlwt (Qsort.merge _) (oneFile (ascii "ab\n")) ⟨ascii "w", by decide⟩ 2 1 := by
  have hresult : ((Threads.start 2).run (Qsort.merge _) (oneFile (ascii "ab\n"))
      ⟨ascii "w", by decide⟩ 1 (twoWorkersRun 0 1)).map Threads.status = some (some 0) := by
    decide +kernel
  obtain ⟨w, hrun, hstatus⟩ := Option.map_eq_some_iff.mp hresult
  -- `findlwt w 2 1 out`
  obtain ⟨-, -, hall⟩ := threads_end (Qsort.merge _) ⟨ascii "findlwt", by decide⟩
    [⟨ascii "w", by decide⟩, ⟨ascii "2", by decide⟩, ⟨ascii "1", by decide⟩,
      ⟨ascii "out", by decide⟩]
    ⟨⟨ascii "w", by decide⟩, 2, 1, ⟨ascii "out", by decide⟩⟩ (by decide +kernel)
    (oneFile (ascii "ab\n"))
  rcases hall (twoWorkersRun 0 1) w hrun with ⟨hgoes, -⟩ | hprinted | hgave
  · exact absurd (hstatus.symm.trans hgoes) (by simp)
  · exact ⟨w, hrun, hstatus, hprinted.outFile (by decide)⟩
  · exact absurd (hstatus.symm.trans hgave.status) (by simp)

end Findlwt

end OsProjects.Findlw
