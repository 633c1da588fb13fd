import OsProjects.Findlw.Definitions
import Mathlib.Data.List.FinRange
import Mathlib.Logic.Function.Basic

/-!
# Pipes — the children, the pipes and the reading parent of `findlwp.c`

`System n` is the state of `n` children that write their records and of the parent
that reads them, with what is on its way in the pipes. What the code leaves to the
kernel is an `Event`: which process goes on, how many bytes a `write` or a `read`
transfers, which descriptors `select` reports, and when a signal interrupts one of
them. A schedule is a list of events, and `System.step` refuses the ones the
system calls do not allow (`none`).

A buffer of the parent is its allocated bytes. `load` and `store` check every
access against them, and an access outside sets `fault`.
-/

namespace OsProjects.Findlw

/-! ## Memory -/

/-- `count` bytes from `off` on. -/
def load (mem : Text) (off count : Nat) : Option Text :=
  if off + count ≤ mem.length then some ((mem.drop off).take count) else none

/-- `src` written from `off` on. -/
def store (mem : Text) (off : Nat) (src : Text) : Option Text :=
  if off + src.length ≤ mem.length then
    some (mem.take off ++ src ++ mem.drop (off + src.length))
  else none

/-- `realloc` to a larger size; nothing is known of the bytes that are added. -/
def realloc (fresh : Nat → UInt8) (mem : Text) (size : Nat) : Text :=
  mem ++ (List.range' mem.length (size - mem.length)).map fresh

/-! ## The parent's side of one pipe -/

/-- `buffers[i]`, `buf_len[i]`, `buf_cap[i]` and `closed[i]`. -/
structure Inbox where
  mem : Text
  len : Nat
  cap : Nat
  closed : Bool
  deriving DecidableEq

/-- `while (new_cap < need) new_cap *= 2`; `none` when the turns do not suffice. -/
def growCap (need : Nat) : Nat → Nat → Option Nat
  | 0, _ => none
  | fuel + 1, newCap => if newCap < need then growCap need fuel (newCap * 2) else some newCap

/-- The buffer with room for `r` more bytes and a terminator. -/
def ensureRoom (fresh : Nat → UInt8) (box : Inbox) (r : Nat) : Option Inbox :=
  let need := box.len + r + 1
  if need > box.cap then
    (growCap need (need + 1) (if box.cap = 0 then 1024 else box.cap * 2)).map fun newCap =>
      { box with mem := realloc fresh box.mem newCap, cap := newCap }
  else some box

/-- What the scan for newlines changes. `lines` records the lines handed to
`parse_record_line`, each up to the newline that became its terminator. -/
structure Scanned where
  mem : Text
  start : Nat
  lines : List Text
  all : List Occurrence

/-- One line parsed, and pushed when it is a record. -/
def pushParsed (all : List Occurrence) (line : Text) : List Occurrence :=
  match parse_record_line line with
  | some o => push all o.word o.fileIndex o.lineNo
  | none => all

/-- The `memchr` loop from `start` on; `none` for an access outside the buffer, and
when the turns do not suffice. -/
def scanLines (len : Nat) : Nat → Scanned → Option Scanned
  | 0, _ => none
  | fuel + 1, s => do
    let rest ← load s.mem s.start (len - s.start)
    match rest.idxOf? 10 with
    | none => some s
    | some d =>
      let nl := s.start + d
      let mem ← store s.mem nl [0]
      let line ← load mem s.start d
      scanLines len fuel ⟨mem, nl + 1, s.lines ++ [line], pushParsed s.all line⟩

/-- The `memmove` of the unfinished line to the beginning of the buffer. -/
def moveRest (mem : Text) (start remaining : Nat) : Option Text :=
  if remaining > 0 ∧ start ≠ 0 then
    (load mem start remaining).bind fun rest => store mem 0 rest
  else some mem

/-- What the parent does with the bytes of one `read`. -/
def receive (fresh : Nat → UInt8) (box : Inbox) (tmp : Text) (all : List Occurrence) :
    Option (Inbox × List Text × List Occurrence) := do
  let box ← ensureRoom fresh box tmp.length
  let mem ← store box.mem box.len tmp
  let len := box.len + tmp.length
  let mem ← store mem len [0]
  let s ← scanLines len (len + 1) ⟨mem, 0, [], all⟩
  let remaining := len - s.start
  let mem ← moveRest s.mem s.start remaining
  let mem ← store mem remaining [0]
  some ({ box with mem := mem, len := remaining }, s.lines, s.all)

/-! ## The children -/

/-- A child with the records it has yet to write, the one `writeToParent` is
writing in front, of which `off` bytes are written. -/
structure Child where
  recs : List Text
  off : Nat
  exited : Bool
  deriving DecidableEq

/-- One turn of the loop in `writeToParent`: of the bytes offered, `write` accepts
`w`. When the record is complete the child turns to the next one. -/
def writeToParent (dataLength w : Nat) (c : Child) : Option (Child × Text) :=
  match c.recs with
  | [] => none
  | buffer :: recs =>
    let chunk := min (buffer.length - c.off) dataLength
    if w ≤ chunk then
      let off := c.off + w
      let next :=
        if off < buffer.length then { c with off := off } else { c with recs := recs, off := 0 }
      some (next, (buffer.drop c.off).take w)
    else none

/-! ## The system -/

inductive Event (n : Nat)
  /-- `write` of child `i` accepts `w` bytes. -/
  | write (i : Fin n) (w : Nat)
  /-- `write` of child `i` is interrupted. -/
  | writeEintr (i : Fin n)
  /-- Child `i` has written everything, closes its pipe and exits. -/
  | exit (i : Fin n)
  /-- `select` reports the descriptors in `ready`. -/
  | select (ready : List (Fin n))
  | selectEintr
  /-- The next `read` of the `for` loop transfers `r` bytes. -/
  | read (r : Nat)
  | readEof
  | readEintr

structure System (n : Nat) where
  child : Fin n → Child
  /-- The bytes written and not yet read. -/
  pipe : Fin n → Text
  inbox : Fin n → Inbox
  /-- The reported descriptors the `for` loop has yet to visit; none in `select`. -/
  todo : List (Fin n)
  openPipes : Nat
  all : List Occurrence
  /-- The lines handed to `parse_record_line`, pipe by pipe. -/
  handed : Fin n → List Text
  /-- An access outside a buffer took place. -/
  fault : Bool

namespace System

variable {n : Nat}

/-- After the pipes and the children were created. -/
def boot (recs : Fin n → List Text) : System n where
  child i := ⟨recs i, 0, false⟩
  pipe _ := []
  inbox _ := ⟨[], 0, 0, false⟩
  todo := []
  openPipes := n
  all := []
  handed _ := []
  fault := false

/-- A `read` on pipe `i` would not block: there are bytes, or no writer is left. -/
def readable (s : System n) (i : Fin n) : Prop := s.pipe i ≠ [] ∨ (s.child i).exited = true

instance (s : System n) (i : Fin n) : Decidable (s.readable i) :=
  inferInstanceAs (Decidable (_ ∨ _))

/-- The `while` loop is over. -/
def finished (s : System n) : Prop := s.openPipes = 0

instance (s : System n) : Decidable s.finished := inferInstanceAs (Decidable (_ = _))

/-- `write` of child `i` accepts `w` bytes. -/
def write (dataLength : Nat) (s : System n) (i : Fin n) (w : Nat) : Option (System n) :=
  (writeToParent dataLength w (s.child i)).map fun (c, data) =>
    { s with
      child := Function.update s.child i c
      pipe := Function.update s.pipe i (s.pipe i ++ data) }

/-- `r` bytes of pipe `i` are read, in the turn of the `for` loop before `todo`. -/
def receive (fresh : Nat → UInt8) (s : System n) (i : Fin n) (todo : List (Fin n)) (r : Nat) :
    System n :=
  match Findlw.receive fresh (s.inbox i) ((s.pipe i).take r) s.all with
  | none => { s with fault := true }
  | some (box, lines, all) =>
    { s with
      pipe := Function.update s.pipe i ((s.pipe i).drop r)
      inbox := Function.update s.inbox i box
      todo := todo
      all := all
      handed := Function.update s.handed i (s.handed i ++ lines) }

/-- `close` of pipe `i` at its end. -/
def closePipe (s : System n) (i : Fin n) (todo : List (Fin n)) : System n :=
  { s with
    inbox := Function.update s.inbox i { s.inbox i with closed := true }
    openPipes := s.openPipes - 1
    todo := todo }

/-- Child `i` closes its end of the pipe and exits. -/
def exit (s : System n) (i : Fin n) : System n :=
  { s with child := Function.update s.child i { s.child i with exited := true } }

/-- One event; `none` when it cannot take place. -/
def step (fresh : Nat → UInt8) (dataLength : Nat) (s : System n) : Event n → Option (System n)
  | .write i w => s.write dataLength i w
  | .writeEintr i => if (s.child i).recs ≠ [] then some s else none
  | .exit i =>
    if (s.child i).recs = [] ∧ (s.child i).exited = false then some (s.exit i) else none
  | .select ready =>
    if s.todo = [] ∧ s.openPipes > 0 ∧ ready ≠ [] ∧
        ∀ i ∈ ready, (s.inbox i).closed = false ∧ s.readable i then
      some { s with todo := (List.finRange n).filter (· ∈ ready) }
    else none
  | .selectEintr => if s.todo = [] ∧ s.openPipes > 0 then some s else none
  | .read r =>
    match s.todo with
    | [] => none
    | i :: todo =>
      -- `tmp` holds 1024 bytes
      let chunk := min dataLength 1024
      if 1 ≤ r ∧ r ≤ chunk ∧ r ≤ (s.pipe i).length then some (s.receive fresh i todo r) else none
  | .readEof =>
    match s.todo with
    | [] => none
    | i :: todo =>
      if s.pipe i = [] ∧ (s.child i).exited = true then some (s.closePipe i todo) else none
  | .readEintr =>
    match s.todo with
    | [] => none
    | _ :: todo => some { s with todo := todo }

/-- A whole schedule. -/
def run (fresh : Nat → UInt8) (dataLength : Nat) (es : List (Event n)) (s : System n) :
    Option (System n) :=
  es.foldlM (step fresh dataLength) s

end System

/-! ## The process version -/

/-- The state of `findlwp` after its pipes and children were created. -/
def findlwp (fs : Files) (filePrefix : CString) (n : Nat) (k : Int) : System n :=
  .boot fun i => child_process fs filePrefix k (i + 1 : Nat)

/-- The output file of `findlwp`, once the reading loop is over. -/
def System.outfile {n : Nat} (qsort : Qsort Occurrence) (s : System n) : Text :=
  writeIndex qsort s.all

end OsProjects.Findlw
