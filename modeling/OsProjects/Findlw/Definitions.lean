import OsProjects.Lib.CString
import OsProjects.Lib.Decimal
import OsProjects.Lib.Sorting
import Mathlib.Data.List.TakeWhile

/-!
# Findlw — the word finder, on one file and on the collected occurrences

What `findlwp.c` and `findlwt.c` share: reading a file line by line and word by
word, the comparator, and the index that is printed in the end. On top of it the
thread version, whose workers touch nothing but their own result, and the text
records of the process version (`child_process` and `parse_record_line`); the
pipes between the processes are in `Findlw/Pipes.lean`.

A file, a line or a record is the list of its bytes. A pointer into a C string is
the rest of the list, and its end is the terminating NUL (`peek`). Lengths, counts
and array sizes are natural numbers; file indices, line numbers and the lengths the
code turns into `int`s are kept in their range by `toInt`, and `snprintf` counts up
to `INT_MAX`.
-/

namespace OsProjects.Findlw

open Decimal

abbrev Text := List UInt8

/-- The bytes of an ASCII literal. -/
def ascii (s : String) : Text := s.toList.map fun c => UInt8.ofNat c.toNat

/-- Conversion to `int`. -/
def toInt (x : Int) : Int := x.bmod (2 ^ 32)

def INT_MAX : Int := 2 ^ 31 - 1

def LONG_MAX : Int := 2 ^ 63 - 1

def LONG_MIN : Int := -2 ^ 63

/-- `*p` -/
def peek (p : Text) : UInt8 := p.headD 0

/-- `isspace` in the C locale: blank, `\t`, `\n`, `\v`, `\f`, `\r`. -/
def isspace (c : UInt8) : Bool := c == 32 || c == 9 || c == 10 || c == 11 || c == 12 || c == 13

/-- The delimiters given to `strtok_r`, `" \t\r\n"`. -/
def isDelim (c : UInt8) : Bool := c == 32 || c == 9 || c == 13 || c == 10

structure Occurrence where
  fileIndex : Int
  lineNo : Int
  word : CString
  deriving DecidableEq

/-- The bytes from `p` on that satisfy `q`, up to the end of the string. -/
def span (q : UInt8 → Bool) (p : Text) : CString :=
  ⟨p.takeWhile fun c => c != 0 && q c, fun h => by
    have hzero := List.mem_takeWhile_imp h
    simp at hzero⟩

/-- Where `span` ends. -/
def afterSpan (q : UInt8 → Bool) (p : Text) : Text := p.dropWhile fun c => c != 0 && q c

/-! ## Reading a file -/

/-- The next line, its newline included, and the rest of the file; nothing at the
end of the file. -/
def getline (f : Text) : Option (Text × Text) :=
  if f = [] then none
  else
    -- the last line of a file may come without a newline
    let rest := f.dropWhile (· != 10)
    some (f.takeWhile (· != 10) ++ rest.take 1, rest.drop 1)

/-- The next token and the new `save` pointer. -/
def strtok_r (save : Text) : Option (CString × Text) :=
  let s := afterSpan isDelim save
  -- only delimiters were left
  if peek s = 0 then none
  else
    -- the delimiter behind a token is overwritten and stepped over, the NUL is not
    let e := afterSpan (!isDelim ·) s
    some (span (!isDelim ·) s, if peek e = 0 then e else e.drop 1)

/-- `pipe_push` and `occ_push`: one more occurrence at the end of the array. -/
def push (arr : List Occurrence) (word : CString) (fileIndex lineNo : Int) : List Occurrence :=
  arr ++ [⟨fileIndex, lineNo, word⟩]

/-- The loop over the tokens of one line; every turn uses up a byte of it. -/
def tokenLoop (k fileIndex lineNo : Int) : Nat → Text → List Occurrence → List Occurrence
  | 0, _, o => o
  | fuel + 1, save, o =>
    match strtok_r save with
    | none => o
    | some (token, save) =>
      tokenLoop k fileIndex lineNo fuel save
        (if toInt token.val.length ≥ k then push o token fileIndex lineNo else o)

/-- The loop over the lines of a file; every turn uses up a byte of it. -/
def lineLoop (k fileIndex : Int) : Nat → Text → Int → List Occurrence → List Occurrence
  | 0, _, _, o => o
  | fuel + 1, f, lineNo, o =>
    match getline f with
    | none => o
    | some (line, f) =>
      let lineNo := toInt (lineNo + 1)
      lineLoop k fileIndex fuel f lineNo (tokenLoop k fileIndex lineNo line.length line o)

/-- The occurrences both programs collect from a file they could open. -/
def collect (k fileIndex : Int) (f : Text) : List Occurrence :=
  lineLoop k fileIndex f.length f 0 []

/-- `makeInputFilename` with a buffer of `buffersize` bytes; `none` is its `exit(1)`. -/
def makeInputFilename (buffersize : Nat) (filePrefix : CString) (i : Int) : Option Text :=
  -- `snprintf` returns the length without the NUL
  let name := filePrefix.val ++ formatInt i
  if name.length ≥ buffersize then none else some name

/-- The files that can be opened, by name. -/
abbrev Files := Text → Option Text

/-! ## The index -/

/-- `strcmp` on two texts, each with its terminator behind it. -/
def strcmpText : Text → Text → Int
  | [], [] => 0
  | [], d :: _ => -(d.toNat : Int)
  | c :: _, [] => c.toNat
  | c :: s, d :: t => if c = d then strcmpText s t else (c.toNat : Int) - d.toNat

def strcmp (a b : CString) : Int := strcmpText a.val b.val

/-- The differences stay in the range of `int` on what the two programs produce,
file indices and line numbers from 1 on (`cmp_occurrence_inRange`). -/
def cmp_occurrence (oa ob : Occurrence) : Int :=
  let c := strcmp oa.word ob.word
  if c ≠ 0 then c
  else if oa.fileIndex ≠ ob.fileIndex then oa.fileIndex - ob.fileIndex
  else oa.lineNo - ob.lineNo

/-- `"%d-%d"` -/
def pairText (o : Occurrence) : Text := formatInt o.fileIndex ++ ascii "-" ++ formatInt o.lineNo

/-- The pairs of one group, `", "` between them. -/
def pairsText : List Occurrence → Text
  | [] => []
  | [o] => pairText o
  | o :: p :: os => pairText o ++ ascii ", " ++ pairsText (p :: os)

/-- The line of one group. -/
def groupText (word : CString) (group : List Occurrence) : Text :=
  word.val ++ ascii " (count=" ++ formatInt group.length ++ ascii "): " ++ pairsText group ++
    ascii "\n"

/-- The final loop: from the occurrence at `i`, the group runs on as long as the
word is the same. -/
def printLoop : Nat → List Occurrence → Text
  | 0, _ => []
  | _ + 1, [] => []
  | fuel + 1, o :: rest =>
    let same := fun x : Occurrence => strcmp o.word x.word == 0
    groupText o.word (o :: rest.takeWhile same) ++ printLoop fuel (rest.dropWhile same)

/-- Sorting and printing, the same text in both programs. -/
def writeIndex (qsort : Qsort Occurrence) (all : List Occurrence) : Text :=
  -- fewer than two occurrences are not sorted
  let all := if all.length > 1 then qsort.sort cmp_occurrence all else all
  printLoop all.length all

/-! ## The thread version -/

structure ThreadResult where
  arr : List Occurrence
  ok : Bool
  deriving DecidableEq

/-- One worker; `none` is the `exit(1)` of the whole program in `makeInputFilename`. -/
def worker (fs : Files) (filePrefix : CString) (k fileIndex : Int) : Option ThreadResult :=
  match makeInputFilename 512 filePrefix fileIndex with
  | none => none
  | some filename =>
    match fs filename with
    | none => some ⟨[], false⟩
    | some f => some ⟨collect k fileIndex f, true⟩

/-- The merge loop of `main`. -/
def merge (results : List ThreadResult) : List Occurrence :=
  results.foldl (fun all tr =>
    if tr.ok then tr.arr.foldl (fun all o => push all o.word o.fileIndex o.lineNo) all else all) []

/-- The output file of `findlwt`, `none` when the program exits without writing one. -/
def findlwt (qsort : Qsort Occurrence) (fs : Files) (filePrefix : CString) (n : Nat) (k : Int) :
    Option Text :=
  ((List.range n).mapM fun i : Nat => worker fs filePrefix k (i + 1)).map fun results =>
    writeIndex qsort (merge results)

/-! ## The records of the process version -/

/-- `"%s %d %d\n"` -/
def record (o : Occurrence) : Text :=
  o.word.val ++ ascii " " ++ formatInt o.fileIndex ++ ascii " " ++ formatInt o.lineNo ++ ascii "\n"

/-- What `snprintf` returns for this text; one that `int` cannot count is an error
(`EOVERFLOW`). -/
def snprintf (text : Text) : Int := if text.length ≤ INT_MAX then text.length else -1

/-- The records `child_process` gives to `writeToParent`, one call each. The child
that leaves early, by `exit(1)` in `makeInputFilename` or by `_exit(2)` without the
file, gives none. -/
def child_process (fs : Files) (filePrefix : CString) (k fileIndex : Int) : List Text :=
  match makeInputFilename 512 filePrefix fileIndex with
  | none => []
  | some filename =>
    match fs filename with
    | none => []
    | some f =>
      (collect k fileIndex f).filterMap fun o =>
        let m := snprintf (record o)
        if m ≤ 0 then none else some (record o)

/-- `strtol` with base 10: the number and `endptr`, or nothing when no digits were
found. -/
def strtol (p : Text) : Option (Int × Text) :=
  (readInt (p.dropWhile isspace)).map fun (value, endptr) =>
    (max LONG_MIN (min value LONG_MAX), endptr)

/-- `none` is the return value -1. -/
def parse_record_line (line : Text) : Option Occurrence :=
  let p := afterSpan isspace line
  if peek p = 0 then none
  else
    let word := span (!isspace ·) p
    if word.val = [] then none
    else
      -- the file index
      let p := afterSpan isspace (afterSpan (!isspace ·) p)
      if peek p = 0 then none
      else
        match strtol p with
        | none => none
        | some (file_idx, endptr) =>
          -- the line number; what follows it is not looked at
          let p := afterSpan isspace endptr
          if peek p = 0 then none
          else
            match strtol p with
            | none => none
            | some (line_no, _) => some ⟨toInt file_idx, toInt line_no, word⟩

end OsProjects.Findlw
