import OsProjects.Lib.Descriptors
import OsProjects.Findlw.Agreement

/-!
# Processes — the command line, the pipes and the children of `findlwp.c`

`Findlw/Pipes.lean` starts where every child is running and a pipe ends when its child has
exited. Here `main` gets there: it creates the pipes, forks the children one by one and
closes its writing ends, while the children that exist already close theirs and write. A
descriptor is a number, a child has a copy of the table its parent had when it was forked,
a `read` sees the end of a pipe when no process has its writing end open, and a `write` of
up to `PIPE_BUF` bytes waits until the pipe has room for all of them.

`Processes.step` does what the call does with the number it is given. Should the number
stand for another file than the program means, or have no bit in the `fd_set` of `select`,
`astray` is set.
-/

namespace OsProjects.Findlw

/-! ## The command line -/

/-- `atoi`, the `int` that `strtol` finds. -/
def atoi (p : CString) : Int :=
  match strtol p.val with
  | some (value, _) => toInt value
  | none => 0

/-- What `message` writes. -/
def message (program : CString) : Text :=
  ascii "Usage: " ++ program.val ++ ascii " FilePrefix N K DataLen OutFilename\n"

structure Options where
  filePrefix : CString
  n : Nat
  k : Int
  dataLength : Nat
  outputFileName : CString
  deriving DecidableEq

/-- The checks at the beginning of `main`, for the arguments behind the program's name. An
error is what is written to `stderr` before `main` returns 1. -/
def options (program : CString) : List CString → Except Text Options
  | [filePrefix, n, k, dataLength, outputFileName] =>
    if atoi n < 1 ∨ atoi n > 10 then .error (ascii "Invalid range for N\n")
    else if atoi k < 1 ∨ atoi k > 100 then .error (ascii "Invalid range for K\n")
    else if atoi dataLength < 1 ∨ atoi dataLength > 1000 then
      .error (ascii "Invalid range for data length\n")
    else .ok ⟨filePrefix, (atoi n).toNat, atoi k, (atoi dataLength).toNat, outputFileName⟩
  | _ => .error (message program)

/-- The ranges of the numbers that `main` goes on with. -/
structure Options.InRange (o : Options) : Prop where
  n : 1 ≤ o.n ∧ o.n ≤ 10
  k : 1 ≤ o.k ∧ o.k ≤ 100
  dataLength : 1 ≤ o.dataLength ∧ o.dataLength ≤ 1000

theorem options_inRange {program : CString} {args : List CString} {o : Options}
    (h : options program args = .ok o) : o.InRange := by
  unfold options at h
  split at h
  · split_ifs at h with hn hk hd
    obtain rfl := Except.ok.inj h
    refine ⟨?_, ?_, ?_⟩
    · show 1 ≤ Int.toNat _ ∧ Int.toNat _ ≤ 10
      omega
    · show 1 ≤ atoi _ ∧ atoi _ ≤ 100
      omega
    · show 1 ≤ Int.toNat _ ∧ Int.toNat _ ≤ 1000
      omega
  · exact absurd h (by simp)

/-! ## The descriptors -/

/-- How many bits an `fd_set` has. -/
def FD_SETSIZE : Nat := 1024

/-- `(i, false)` is the end `fd[i][0]`, which is read, and `(i, true)` is `fd[i][1]`. -/
abbrev PipeEnd (n : Nat) := Fin n × Bool

/-- An open file: an end of one of the pipes, or a file the program was started with. -/
inductive FileRef (n : Nat)
  | pipe (e : PipeEnd n)
  | other
  deriving DecidableEq

/-- A child as `fork` has left it, with the `close` calls it still has in front of it. -/
structure Forked (n : Nat) where
  table : FdTable (FileRef n)
  closes : List (PipeEnd n)
  /-- By `SIGPIPE`. -/
  killed : Bool

structure Processes (n : Nat) where
  /-- What the processes do with the bytes, as in `Findlw/Pipes.lean`. -/
  sys : System n
  /-- The array `fd`. -/
  fd : PipeEnd n → Nat
  /-- `RLIMIT_NOFILE`: no number from here on is given out. -/
  limit : Nat
  parent : FdTable (FileRef n)
  child : Fin n → Option (Forked n)
  /-- How many pipes `main` has created, -/
  piped : Nat
  /-- how many children it has forked, -/
  forked : Nat
  /-- and of how many pipes it has closed the writing end. -/
  shut : Nat
  /-- `pipe` or `fork` has failed, and `main` has returned 1. -/
  failed : Bool
  /-- A descriptor was used that stood for another file, or that no `fd_set` has room for. -/
  astray : Bool

/-- `for (j = 0; j < n; j++) { close(fd[j][0]); if (j != i) close(fd[j][1]); }` -/
def childCloses {n : Nat} (i : Fin n) : List (PipeEnd n) :=
  (List.finRange n).flatMap fun j => (j, false) :: if j ≠ i then [(j, true)] else []

/-- The number the program has for `e` is the number of `e`. -/
def Aims {n : Nat} (fd : PipeEnd n → Nat) (t : FdTable (FileRef n)) (e : PipeEnd n) : Prop :=
  t.lookup (fd e) = some (.pipe e)

instance {n : Nat} (fd : PipeEnd n → Nat) (t : FdTable (FileRef n)) (e : PipeEnd n) :
    Decidable (Aims fd t e) := inferInstanceAs (Decidable (_ = _))

/-- `close(fd[e])`; a number that is not open is `EBADF`, which nobody looks at. Nothing
when another file would be closed. -/
def closeEnd {n : Nat} (fd : PipeEnd n → Nat) (t : FdTable (FileRef n)) (e : PipeEnd n) :
    Option (FdTable (FileRef n)) :=
  match t.lookup (fd e) with
  | none => some t
  | some file => if file = .pipe e then some (t.erase (fd e)) else none

/-- The bytes the child offers to the next `write`. -/
def nextChunk (dataLength : Nat) (c : Child) : Nat :=
  match c.recs with
  | [] => 0
  | buffer :: _ => min (buffer.length - c.off) dataLength

/-! ## The steps -/

inductive Action (n : Nat)
  /-- `pipe` of `main` returns these two numbers. -/
  | pipe (readEnd writeEnd : Nat)
  | fork
  /-- `close(fd[i][1])` of `main`. -/
  | close
  /-- `pipe` or `fork` returns -1. -/
  | fail
  /-- The next `close` of child `i`. -/
  | childClose (i : Fin n)
  | write (i : Fin n)
  | writeEintr (i : Fin n)
  | exit (i : Fin n)
  /-- Child `i` writes to a pipe that nobody reads. -/
  | sigpipe (i : Fin n)
  | select (ready : List (Fin n))
  | selectEintr
  | read (r : Nat)
  | readEof
  | readEintr

namespace Processes

variable {n : Nat}

/-- Some process has the end `e` open. -/
def Held (w : Processes n) (e : PipeEnd n) : Prop :=
  w.parent.Open (.pipe e) ∨ ∃ j, ∃ c ∈ w.child j, c.table.Open (.pipe e)

instance (w : Processes n) (e : PipeEnd n) : Decidable (w.Held e) :=
  inferInstanceAs (Decidable (_ ∨ _))

/-- `main` is in the reading loop. -/
def Reading (w : Processes n) : Prop :=
  w.failed = false ∧ w.piped = n ∧ w.forked = n ∧ w.shut = n

instance (w : Processes n) : Decidable w.Reading := inferInstanceAs (Decidable (_ ∧ _))

/-- A `read` of `fd[i][0]` would not block. -/
def Readable (w : Processes n) (i : Fin n) : Prop := w.sys.pipe i ≠ [] ∨ ¬ w.Held (i, true)

instance (w : Processes n) (i : Fin n) : Decidable (w.Readable i) :=
  inferInstanceAs (Decidable (_ ∨ _))

/-- Child `i` while it runs `child_process`. -/
def running (w : Processes n) (i : Fin n) : Option (Forked n) :=
  (w.child i).filter fun c => !c.killed && c.closes.isEmpty

def setChild (w : Processes n) (i : Fin n) (c : Forked n) : Processes n :=
  { w with child := Function.update w.child i (some c) }

/-- Two numbers that `pipe` may return. -/
def Free (w : Processes n) (readEnd writeEnd : Nat) : Prop :=
  (w.parent.lookup readEnd = none ∧ w.parent.lookup writeEnd = none ∧ writeEnd ≠ readEnd) ∧
    readEnd < w.limit ∧ writeEnd < w.limit

instance (w : Processes n) (readEnd writeEnd : Nat) : Decidable (w.Free readEnd writeEnd) :=
  inferInstanceAs (Decidable (_ ∧ _))

/-- The next call of the two loops of `main` that set everything up. -/
def setup (w : Processes n) : Action n → Option (Processes n)
  | .pipe readEnd writeEnd =>
    if h : w.piped < n then
      if w.Free readEnd writeEnd then
        let i : Fin n := ⟨w.piped, h⟩
        some { w with
          fd := Function.update (Function.update w.fd (i, false) readEnd) (i, true) writeEnd
          parent := (w.parent.insert readEnd (.pipe (i, false))).insert writeEnd (.pipe (i, true))
          piped := w.piped + 1 }
      else none
    else none
  | .fork =>
    if h : w.forked < n then
      if w.piped = n ∧ w.shut = w.forked then
        let i : Fin n := ⟨w.forked, h⟩
        some { w.setChild i ⟨w.parent, childCloses i, false⟩ with forked := w.forked + 1 }
      else none
    else none
  | .close =>
    if h : w.shut < n then
      if w.shut < w.forked then
        match closeEnd w.fd w.parent (⟨w.shut, h⟩, true) with
        | some parent => some { w with parent := parent, shut := w.shut + 1 }
        | none => some { w with astray := true }
      else none
    else none
  | .fail =>
    if w.piped < n ∨ (w.forked < n ∧ w.shut = w.forked) then
      some { w with parent := ∅, failed := true }
    else none
  | _ => none

/-- What child `i` does in `child_process`. -/
def work (dataLength room : Nat) (w : Processes n) (i : Fin n) (c : Forked n) :
    Action n → Option (Processes n)
  | .write _ =>
    if (w.sys.child i).recs = [] then none
    else if ¬ Aims w.fd c.table (i, true) then some { w with astray := true }
    else
      let chunk := nextChunk dataLength (w.sys.child i)
      if w.Held (i, false) ∧ (w.sys.pipe i).length + chunk ≤ room then
        (w.sys.write dataLength i chunk).map fun sys => { w with sys := sys }
      else none
  | .writeEintr _ => if (w.sys.child i).recs ≠ [] then some w else none
  | .sigpipe _ =>
    if (w.sys.child i).recs = [] then none
    else if ¬ Aims w.fd c.table (i, true) then some { w with astray := true }
    else if ¬ w.Held (i, false) then some (w.setChild i { c with table := ∅, killed := true })
    else none
  | .exit _ =>
    if (w.sys.child i).recs = [] ∧ (w.sys.child i).exited = false then
      some { w.setChild i { c with table := ∅ } with sys := w.sys.exit i }
    else none
  | _ => none

/-- The reading loop, in the turn of the `for` loop for pipe `i` before `todo`. -/
def turn (fresh : Nat → UInt8) (dataLength : Nat) (w : Processes n) (i : Fin n)
    (todo : List (Fin n)) : Action n → Option (Processes n)
  | .read r =>
    if ¬ Aims w.fd w.parent (i, false) then some { w with astray := true }
    else if 1 ≤ r ∧ r ≤ min dataLength 1024 ∧ r ≤ (w.sys.pipe i).length then
      some { w with sys := w.sys.receive fresh i todo r }
    else none
  | .readEof =>
    if ¬ Aims w.fd w.parent (i, false) then some { w with astray := true }
    else if w.sys.pipe i = [] ∧ ¬ w.Held (i, true) then
      match closeEnd w.fd w.parent (i, false) with
      | some parent => some { w with sys := w.sys.closePipe i todo, parent := parent }
      | none => some { w with astray := true }
    else none
  | .readEintr => some { w with sys := { w.sys with todo := todo } }
  | _ => none

/-- `select` on the descriptors of the pipes that are not closed. -/
def select (w : Processes n) (ready : List (Fin n)) : Option (Processes n) :=
  if ¬ ∀ i, (w.sys.inbox i).closed = false →
      Aims w.fd w.parent (i, false) ∧ w.fd (i, false) < FD_SETSIZE then
    some { w with astray := true }
  else if ready ≠ [] ∧ ready.all fun i => (w.sys.inbox i).closed = false ∧ w.Readable i then
    some { w with sys := { w.sys with todo := (List.finRange n).filter fun i => ready.contains i } }
  else none

/-- The reading loop of `main`. -/
def loop (fresh : Nat → UInt8) (dataLength : Nat) (w : Processes n) (a : Action n) :
    Option (Processes n) :=
  match w.sys.todo with
  | i :: todo => w.turn fresh dataLength i todo a
  | [] =>
    if w.sys.openPipes > 0 then
      match a with
      | .select ready => w.select ready
      | .selectEintr => some w
      | _ => none
    else none

/-- One call of one process; `none` when it cannot take place. -/
def step (fresh : Nat → UInt8) (dataLength room : Nat) (w : Processes n) (a : Action n) :
    Option (Processes n) :=
  match a with
  | .pipe _ _ | .fork | .close | .fail => if w.failed = false then w.setup a else none
  | .childClose i =>
    match w.child i with
    | some ⟨table, e :: closes, false⟩ =>
      match closeEnd w.fd table e with
      | some table => some (w.setChild i ⟨table, closes, false⟩)
      | none => some { w with astray := true }
    | _ => none
  | .write i | .writeEintr i | .exit i | .sigpipe i =>
    (w.running i).bind fun c => w.work dataLength room i c a
  | .select _ | .selectEintr | .read _ | .readEof | .readEintr =>
    if w.Reading then w.loop fresh dataLength a else none

def run (fresh : Nat → UInt8) (dataLength room : Nat) (as : List (Action n)) (w : Processes n) :
    Option (Processes n) :=
  as.foldlM (step fresh dataLength room) w

/-- `main` behind the checks of the command line; the numbers in `inherited` are in use, and
the array `fd` holds anything. -/
def start (fs : Files) (filePrefix : CString) (n : Nat) (k : Int) (limit : Nat)
    (inherited : List Nat) (fd : PipeEnd n → Nat) : Processes n where
  sys := findlwp fs filePrefix n k
  fd := fd
  limit := limit
  parent := inherited.foldl (fun t number => t.insert number .other) ∅
  child _ := none
  piped := 0
  forked := 0
  shut := 0
  failed := false
  astray := false

/-- Every child that was forked has come to its end. -/
def ChildrenGone (w : Processes n) : Prop :=
  ∀ i, ∀ c ∈ w.child i, c.killed = true ∨ (w.sys.child i).exited = true

/-- `main` has come to its end, and so have the children. -/
def Over (w : Processes n) : Prop :=
  w.ChildrenGone ∧ (w.failed = true ∨ (w.Reading ∧ w.sys.finished))

end Processes

end OsProjects.Findlw
