import OsProjects.Findlw.Canonical
import OsProjects.Findlw.Progress
import OsProjects.Findlw.Tokens

/-!
# Agreement — the process version against the thread version

Both versions collect the same occurrences from the files (`occurrencesOf`). The
threads hand them over in memory, the processes as text; the text loses nothing as
long as `isspace` and the delimiters of `strtok_r` see the same words. They differ
on `\v` and `\f`: a word with one of them is printed by the thread version and
never by the process version. There are two other differences. A record whose length
is no `int` is not sent. A file name that is too long ends the whole program of
threads, but only one of the processes.

* `outfile_plain` — the process version never prints `\v` or `\f`;
* `occurrencesIn_recordLines` — without these the parent reads what was sent;
* `findlwp_agrees_iff` — the exact condition, for every schedule.
-/

namespace OsProjects.Findlw

open Decimal

variable {fs : Files} {filePrefix : CString} {n : Nat} {k fileIndex : Int}

/-! ## What is collected -/

/-- The occurrences collected from one file, none from a missing one. -/
def occurrencesOf (fs : Files) (filePrefix : CString) (k fileIndex : Int) : List Occurrence :=
  match fs (filePrefix.val ++ formatInt fileIndex) with
  | none => []
  | some f => collect k fileIndex f

/-- The file name fits into the buffer of 512 bytes, its terminator included. -/
def NameFits (filePrefix : CString) (fileIndex : Int) : Prop :=
  (filePrefix.val ++ formatInt fileIndex).length < 512

instance : Decidable (NameFits filePrefix fileIndex) := inferInstanceAs (Decidable (_ < _))

/-- What the two programs need to print the same index: every file name fits, and
no word of a file that can be opened and whose length is at least `k`, as an `int`,
holds `\v` or `\f` or has a record of more than `INT_MAX` bytes. -/
structure SameWords (fs : Files) (filePrefix : CString) (n : Nat) (k : Int) : Prop where
  fits : ∀ i < n, NameFits filePrefix (i + 1)
  plain : ∀ i < n, ∀ f, fs (filePrefix.val ++ formatInt (i + 1)) = some f →
    ∀ w, WordOf f w → k ≤ toInt w.length → 11 ∉ w ∧ 12 ∉ w
  counted : ∀ i < n, ∀ f, fs (filePrefix.val ++ formatInt (i + 1)) = some f →
    ∀ line w, WordAt f line w → k ≤ toInt w.length →
      w.length + (formatInt (i + 1)).length + (formatInt (toInt line)).length + 3 ≤ INT_MAX

/-- The buffer holds the name and its NUL. -/
theorem makeInputFilename_of_fits (h : NameFits filePrefix fileIndex) :
    makeInputFilename 512 filePrefix fileIndex =
      some (filePrefix.val ++ formatInt fileIndex) :=
  if_neg (Nat.not_le.mpr h)

theorem makeInputFilename_of_not_fits (h : ¬ NameFits filePrefix fileIndex) :
    makeInputFilename 512 filePrefix fileIndex = none :=
  if_pos (Nat.not_lt.mp h)

/-- The occurrences of a file are its words that are long enough, with their lines. -/
theorem mem_occurrencesOf {o : Occurrence} : o ∈ occurrencesOf fs filePrefix k fileIndex ↔
    ∃ f, fs (filePrefix.val ++ formatInt fileIndex) = some f ∧ o.fileIndex = fileIndex ∧
      k ≤ toInt o.word.val.length ∧
        ∃ line : Nat, o.lineNo = toInt line ∧ WordAt f line o.word.val := by
  unfold occurrencesOf
  cases fs (filePrefix.val ++ formatInt fileIndex) with
  | none => exact iff_of_false List.not_mem_nil fun ⟨f, hf, _⟩ => absurd hf (by simp)
  | some f =>
    simp only [Option.some.injEq, exists_eq_left']
    exact mem_collect

/-- A word ends before a NUL. -/
theorem zero_not_mem_word {f w : Text} {line : Nat} (h : WordAt f line w) : 0 ∉ w := by
  obtain ⟨a, l, b, -, -, -, -, -, -, hword, -⟩ := h
  intro hzero
  have hbyte := hword.2 0 hzero
  exact absurd hbyte Bool.false_ne_true

/-- A word that is long enough is collected. -/
theorem mem_occurrencesOf_word {f w : Text} {line : Nat}
    (hf : fs (filePrefix.val ++ formatInt fileIndex) = some f) (hlength : k ≤ toInt w.length)
    (hat : WordAt f line w) :
    ⟨fileIndex, toInt line, ⟨w, zero_not_mem_word hat⟩⟩ ∈
      occurrencesOf fs filePrefix k fileIndex := by
  rw [mem_occurrencesOf]
  refine ⟨f, hf, rfl, hlength, line, ?_, hat⟩
  simp only

/-- An occurrence has the index of its file, a line number of an `int`, and a word. -/
theorem isWord_of_mem {o : Occurrence} (ho : o ∈ occurrencesOf fs filePrefix k fileIndex) :
    o.fileIndex = fileIndex ∧ InInt o.lineNo ∧ IsWord o.word.val := by
  obtain ⟨f, -, hfile, -, line, hline, a, l, b, -, -, -, -, -, -, hword, -⟩ :=
    mem_occurrencesOf.mp ho
  exact ⟨hfile, hline ▸ toInt_inInt _, hword⟩

/-! ## The thread version -/

/-- A worker whose name fits returns the occurrences of its file. -/
theorem worker_of_fits (fs : Files) (k : Int) (h : NameFits filePrefix fileIndex) :
    ∃ tr, worker fs filePrefix k fileIndex = some tr ∧
      (if tr.ok then tr.arr else []) = occurrencesOf fs filePrefix k fileIndex := by
  simp only [worker, makeInputFilename_of_fits h, occurrencesOf]
  cases fs (filePrefix.val ++ formatInt fileIndex) with
  | none => exact ⟨⟨[], false⟩, rfl, rfl⟩
  | some f => exact ⟨⟨collect k fileIndex f, true⟩, rfl, rfl⟩

/-- Pushing an array occurrence by occurrence appends it. -/
theorem foldl_push (arr all : List Occurrence) :
    arr.foldl (fun all o => push all o.word o.fileIndex o.lineNo) all = all ++ arr := by
  induction arr generalizing all with
  | nil => simp
  | cons o arr ih =>
    rw [List.foldl_cons, ih]
    show all ++ [o] ++ arr = all ++ o :: arr
    simp

/-- The merge puts the arrays one behind the other. -/
theorem merge_eq (results : List ThreadResult) :
    merge results = results.flatMap fun tr => if tr.ok then tr.arr else [] := by
  have hloop : ∀ all, results.foldl (fun all tr => if tr.ok then
      tr.arr.foldl (fun all o => push all o.word o.fileIndex o.lineNo) all else all) all =
      all ++ results.flatMap fun tr => if tr.ok then tr.arr else [] := by
    -- on the results
    induction results with
    | nil => simp
    | cons tr results ih =>
      intro all
      rw [List.foldl_cons, ih, List.flatMap_cons]
      split
      · rw [foldl_push, List.append_assoc]
      · rw [List.nil_append]
  exact hloop []

/-- Every worker succeeds, and the merged array is theirs in order. -/
theorem mapM_worker (fs : Files) (k : Int) {l : List Nat}
    (h : ∀ i ∈ l, NameFits filePrefix (i + 1)) :
    ∃ results, l.mapM (fun i : Nat => worker fs filePrefix k (i + 1)) = some results ∧
      merge results = l.flatMap fun i : Nat => occurrencesOf fs filePrefix k (i + 1) := by
  -- on the workers
  induction l with
  | nil => exact ⟨[], rfl, rfl⟩
  | cons i l ih =>
    obtain ⟨results, hresults, hmerge⟩ := ih fun j hj => h j (List.mem_cons_of_mem _ hj)
    obtain ⟨tr, htr, harr⟩ := worker_of_fits fs k (h i List.mem_cons_self)
    refine ⟨tr :: results, ?_, ?_⟩
    · rw [List.mapM_cons, htr, hresults]
      rfl
    · rw [merge_eq, List.flatMap_cons, harr, ← merge_eq, hmerge, List.flatMap_cons]

/-- The thread version prints the index of all occurrences. -/
theorem findlwt_of_fits (qsort : Qsort Occurrence) (h : ∀ i < n, NameFits filePrefix (i + 1)) :
    findlwt qsort fs filePrefix n k = some (writeIndex qsort
      ((List.range n).flatMap fun i : Nat => occurrencesOf fs filePrefix k (i + 1))) := by
  obtain ⟨results, hresults, hmerge⟩ :=
    mapM_worker fs k fun i hi => h i (List.mem_range.mp hi)
  rw [findlwt, hresults, Option.map_some, hmerge]

/-- A name that is too long ends the program before it writes. -/
theorem findlwt_of_not_fits (qsort : Qsort Occurrence) {i : Nat} (hi : i < n)
    (h : ¬ NameFits filePrefix (i + 1)) : findlwt qsort fs filePrefix n k = none := by
  have hworker : worker fs filePrefix k (i + 1) = none := by
    rw [worker, makeInputFilename_of_not_fits h]
  -- one worker without a name ends the whole run
  have hnone : ∀ l : List Nat, i ∈ l →
      l.mapM (fun i : Nat => worker fs filePrefix k (i + 1)) = none := by
    intro l hl
    induction l with
    | nil => exact absurd hl List.not_mem_nil
    | cons j l ih =>
      rw [List.mapM_cons]
      rcases List.mem_cons.mp hl with rfl | hl
      · rw [hworker]
        rfl
      · rw [ih hl]
        cases worker fs filePrefix k (j + 1) <;> rfl
  rw [findlwt, hnone _ (List.mem_range.mpr hi), Option.map_none]

/-! ## The process version -/

/-- A record is one line. -/
theorem newline_not_mem_recordLine {o : Occurrence} (ho : IsWord o.word.val) :
    10 ∉ recordLine o := by
  have hnumber : ∀ x, (10 : UInt8) ∉ formatInt x := by
    intro x hx
    have hspace := (isspace_digit (mem_formatInt hx)).2
    exact absurd hspace (by decide)
  have hblank : (10 : UInt8) ∉ ascii " " := by decide
  simp [recordLine, not_newline_mem_word ho, hnumber, hblank]

/-- What the process sends of the occurrences of one file. -/
def sentOf (fs : Files) (filePrefix : CString) (k fileIndex : Int) : List Occurrence :=
  (occurrencesOf fs filePrefix k fileIndex).filter fun o => Counted o

/-- The records of the process for file `i + 1`, without their newlines. -/
def recordLines (fs : Files) (filePrefix : CString) (k : Int) (i : Fin n) : List Text :=
  if NameFits filePrefix (i + 1 : Nat) then
    (sentOf fs filePrefix k (i + 1 : Nat)).map recordLine
  else []

/-- The loop over the occurrences sends the records that `snprintf` can count. -/
theorem filterMap_record (l : List Occurrence) :
    (l.filterMap fun o =>
      let m := snprintf (record o)
      if m ≤ 0 then none else some (record o)) =
    ((l.filter fun o => Counted o).map recordLine).map (· ++ [10]) := by
  -- on the occurrences
  induction l with
  | nil => rfl
  | cons o l ih =>
    rw [List.filterMap_cons, List.filter_cons]
    by_cases ho : Counted o
    · simp only [if_neg (mt (snprintf_record o).mp (not_not_intro ho)), ho, decide_true, if_true]
      rw [ih, List.map_cons, List.map_cons, record_eq]
    · simp only [if_pos ((snprintf_record o).mpr ho), ho, decide_false]
      exact ih

/-- A child sends the records of its occurrences that `int` can count. -/
theorem child_process_eq : child_process fs filePrefix k fileIndex =
    (if NameFits filePrefix fileIndex then
      (sentOf fs filePrefix k fileIndex).map recordLine else []).map (· ++ [10]) := by
  unfold child_process
  -- without a name the child sends nothing
  by_cases hfits : NameFits filePrefix fileIndex
  · rw [makeInputFilename_of_fits hfits, if_pos hfits, sentOf, occurrencesOf]
    -- nor without a file
    cases hf : fs (filePrefix.val ++ formatInt fileIndex) with
    | none => simp only [hf, List.filter_nil, List.map_nil]
    | some f =>
      simp only [hf]
      exact filterMap_record _
  · rw [makeInputFilename_of_not_fits hfits, if_neg hfits]
    rfl

/-- The children start with these records. -/
theorem findlwp_eq : findlwp fs filePrefix n k =
    .boot fun i => (recordLines fs filePrefix k i).map (· ++ [10]) := by
  unfold findlwp
  congr 1
  funext i
  exact child_process_eq

theorem newline_not_mem_recordLines (i : Fin n) :
    ∀ r ∈ recordLines fs filePrefix k i, 10 ∉ r := by
  intro r hr
  unfold recordLines at hr
  split at hr
  · obtain ⟨o, ho, rfl⟩ := List.mem_map.mp hr
    exact newline_not_mem_recordLine (isWord_of_mem (List.mem_of_mem_filter ho)).2.2
  · exact absurd hr List.not_mem_nil

variable {fresh : Nat → UInt8} {dataLength : Nat} {es : List (Event n)} {s : System n}

theorem findlwp_start : Inv (recordLines fs filePrefix k) (findlwp fs filePrefix n k) := by
  rw [findlwp_eq]
  exact Inv.boot _

/-- A run of the processes, as `Findlw/Reassembly.lean` has it. -/
theorem findlwp_inv (hrun : System.run fresh dataLength es (findlwp fs filePrefix n k) = some s) :
    Inv (recordLines fs filePrefix k) s :=
  findlwp_start.run hrun

theorem findlwp_within : ∀ i, ((findlwp fs filePrefix n k).child i).Within := by
  intro i
  rw [findlwp_eq]
  apply Child.Within.boot
  intro buffer hbuffer
  obtain ⟨r, -, rfl⟩ := List.mem_map.mp hbuffer
  simp

/-- What the parent has collected in the end. -/
theorem findlwp_all (hrun : System.run fresh dataLength es (findlwp fs filePrefix n k) = some s)
    (hend : s.finished) : s.all.Perm (occurrencesIn (recordLines (n := n) fs filePrefix k)) := by
  have hinv := findlwp_inv hrun
  have hclosed := hinv.finished_iff.mp hend
  have hhanded : s.handed = recordLines fs filePrefix k := funext fun i =>
    (hinv.pipes i).handed_eq (newline_not_mem_recordLines i) (hclosed i)
  exact hhanded ▸ hinv.all

/-! ## Agreement -/

/-- Neither `\v` nor `\f`, and so no white space at all. -/
theorem plain_of_word {word : CString} (hword : IsWord word.val)
    (hvf : 11 ∉ word.val ∧ 12 ∉ word.val) : Plain word := by
  intro c hc
  have hbyte := hword.2 c hc
  have h11 : c ≠ 11 := fun h => hvf.1 (h ▸ hc)
  have h12 : c ≠ 12 := fun h => hvf.2 (h ▸ hc)
  simp only [isWordByte, isDelim, Bool.and_eq_true, Bool.not_eq_true', Bool.or_eq_false_iff,
    beq_eq_false_iff_ne] at hbyte
  simp [isspace, h11, h12, hbyte]

/-- The record of a token comes back as it was written exactly when there is neither
`\v` nor `\f` in the token: the delimiters of `strtok_r` leave these two out, and
`isspace` counts them. -/
theorem parse_record_line_recordLine_iff {o : Occurrence} (hword : IsWord o.word.val)
    (hfile : 1 ≤ o.fileIndex ∧ o.fileIndex ≤ 10) (hline : 1 ≤ o.lineNo ∧ o.lineNo ≤ 2 ^ 31 - 1) :
    parse_record_line (recordLine o) = some o ↔ 11 ∉ o.word.val ∧ 12 ∉ o.word.val := by
  constructor
  · -- a record that is read back has no white space in its word
    intro hparse
    obtain ⟨hplain, -⟩ := parse_word hparse
    exact ⟨fun h11 => absurd (hplain 11 h11) (by decide),
      fun h12 => absurd (hplain 12 h12) (by decide)⟩
  · -- the parser stops at the blank behind the word, and its numbers are those printed
    intro hvf
    have hfileInt : InInt o.fileIndex := by
      unfold InInt
      omega
    have hlineInt : InInt o.lineNo := by
      unfold InInt
      omega
    exact parse_recordLine hword.1 (plain_of_word hword hvf) hfileInt hlineInt

/-- The word `ab` of file 10 on the last line that `int` can count. -/
theorem parse_record_line_ab :
    parse_record_line (recordLine ⟨10, 2 ^ 31 - 1, ⟨[97, 98], by decide⟩⟩) =
      some ⟨10, 2 ^ 31 - 1, ⟨[97, 98], by decide⟩⟩ := by
  refine (parse_record_line_recordLine_iff ⟨?_, ?_⟩ ?_ ?_).mpr ?_
  · simp
  · simp [isWordByte, isDelim]
  · simp
  · simp
  · simp

/-- The word `a\v7` of file 2 on line 3 comes back as the word `a` of file 7 on line 2. -/
theorem vertical_tab_misread :
    ¬ ∀ o : Occurrence, IsWord o.word.val → 1 ≤ o.fileIndex ∧ o.fileIndex ≤ 10 →
      1 ≤ o.lineNo ∧ o.lineNo ≤ 2 ^ 31 - 1 → parse_record_line (recordLine o) = some o := by
  intro h
  have hread : parse_record_line (recordLine ⟨2, 3, ⟨[97, 11, 55], by decide⟩⟩) =
      some ⟨7, 2, ⟨[97], by decide⟩⟩ := by
    decide +kernel
  have hsame := h ⟨2, 3, ⟨[97, 11, 55], by decide⟩⟩ (by simp [IsWord, isWordByte, isDelim])
    (by simp) (by simp)
  rw [hread] at hsame
  exact absurd hsame (by decide)

/-- Records of plain words are read back as they were written. -/
theorem filterMap_recordLine {l : List Occurrence} (h : ∀ o ∈ l, o.word.val ≠ [] ∧ Plain o.word ∧
    InInt o.fileIndex ∧ InInt o.lineNo) :
    (l.map recordLine).filterMap parse_record_line = l := by
  induction l with
  | nil => rfl
  | cons o l ih =>
    obtain ⟨hne, hplain, hfile, hline⟩ := h o List.mem_cons_self
    rw [List.map_cons, List.filterMap_cons, parse_recordLine hne hplain hfile hline,
      ih fun x hx => h x (List.mem_cons_of_mem _ hx)]

/-- What the parent reads from the records, as long as every word that is sent is plain. -/
theorem occurrencesIn_recordLines (hn : n ≤ 10) (hfits : ∀ i < n, NameFits filePrefix (i + 1))
    (hplain : ∀ i < n, ∀ f, fs (filePrefix.val ++ formatInt (i + 1)) = some f →
      ∀ w, WordOf f w → k ≤ toInt w.length → 11 ∉ w ∧ 12 ∉ w) :
    occurrencesIn (recordLines (n := n) fs filePrefix k) =
      ((List.range n).flatMap fun i : Nat => occurrencesOf fs filePrefix k (i + 1)).filter
        fun o => Counted o := by
  have hrange : List.range n = (List.finRange n).map Fin.val := by simp
  rw [hrange, List.flatMap_map, List.filter_flatMap, occurrencesIn]
  apply List.flatMap_congr
  intro i _
  have hcast : ((i + 1 : Nat) : Int) = (i : Int) + 1 := by push_cast; rfl
  have hname : NameFits filePrefix (i + 1 : Nat) := hcast ▸ hfits i i.isLt
  unfold recordLines
  rw [if_pos hname, hcast]
  -- each record line is read back as its occurrence
  apply filterMap_recordLine
  intro o ho
  have hmem := List.mem_of_mem_filter ho
  obtain ⟨hfile, hline, hword⟩ := isWord_of_mem hmem
  refine ⟨hword.1, ?_, ?_, hline⟩
  · obtain ⟨f, hf, -, hlength, line, -, hat⟩ := mem_occurrencesOf.mp hmem
    exact plain_of_word hword (hplain i i.isLt f hf _ (wordOf_iff.mpr ⟨line, hat⟩) hlength)
  · have hi := i.isLt
    rw [hfile]
    unfold InInt
    omega

/-- Word, numbers, two blanks and a newline. -/
theorem counted_iff (o : Occurrence) : Counted o ↔
    o.word.val.length + (formatInt o.fileIndex).length + (formatInt o.lineNo).length + 3 ≤
      INT_MAX := by
  have hlength : (record o).length =
      o.word.val.length + (formatInt o.fileIndex).length + (formatInt o.lineNo).length + 3 := by
    have hblank : (ascii " ").length = 1 := rfl
    have hnewline : (ascii "\n").length = 1 := rfl
    simp only [record, List.length_append, hblank, hnewline]
    omega
  rw [Counted, hlength]
  push_cast
  rfl

/-- Where the words are the same for both, both versions write the same file. -/
theorem outfile_of_sameWords (qsort qsort' : Qsort Occurrence) (hn : n ≤ 10)
    (h : SameWords fs filePrefix n k)
    (hrun : System.run fresh dataLength es (findlwp fs filePrefix n k) = some s)
    (hend : s.finished) : some (s.outfile qsort') = findlwt qsort fs filePrefix n k := by
  have hall := findlwp_all hrun hend
  -- every record is sent
  have hsent : ((List.range n).flatMap fun i : Nat =>
      occurrencesOf fs filePrefix k (i + 1)).filter (fun o => Counted o) =
      (List.range n).flatMap fun i : Nat => occurrencesOf fs filePrefix k (i + 1) := by
    refine List.filter_eq_self.mpr fun o ho => decide_eq_true ?_
    obtain ⟨i, hi, hmem⟩ := List.mem_flatMap.mp ho
    obtain ⟨f, hf, hfile, hlength, line, hline, hat⟩ := mem_occurrencesOf.mp hmem
    rw [counted_iff, hfile, hline]
    exact h.counted i (List.mem_range.mp hi) f hf line _ hat hlength
  rw [occurrencesIn_recordLines hn h.fits h.plain, hsent] at hall
  rw [findlwt_of_fits qsort h.fits, System.outfile, writeIndex_perm qsort' qsort hall]

/-- The process version prints no white space but blanks and newlines. -/
theorem outfile_plain (qsort : Qsort Occurrence)
    (hrun : System.run fresh dataLength es (findlwp fs filePrefix n k) = some s)
    (hend : s.finished) {c : UInt8} (hc : c ∈ s.outfile qsort) : c ≠ 11 ∧ c ≠ 12 := by
  rcases writeIndex_bytes hc with ⟨o, ho, hword⟩ | hpunct
  · -- the word of a record that was read back
    have hmem : o ∈ occurrencesIn (recordLines (n := n) fs filePrefix k) :=
      (findlwp_all hrun hend).mem_iff.mp ho
    obtain ⟨i, -, hi⟩ := List.mem_flatMap.mp hmem
    obtain ⟨line, -, hparse⟩ := List.mem_filterMap.mp hi
    have hspace := (parse_word hparse).1 c hword
    exact ⟨by rintro rfl; exact absurd hspace (by decide),
      by rintro rfl; exact absurd hspace (by decide)⟩
  · -- the punctuation has neither
    have h11 : ¬ IsPunctuation 11 := by unfold IsPunctuation; decide
    have h12 : ¬ IsPunctuation 12 := by unfold IsPunctuation; decide
    exact ⟨by rintro rfl; exact h11 hpunct, by rintro rfl; exact h12 hpunct⟩

/-- There is an output only if every name had room. -/
theorem fits_of_findlwt {qsort : Qsort Occurrence} {out : Text}
    (hout : findlwt qsort fs filePrefix n k = some out) : ∀ i < n, NameFits filePrefix (i + 1) := by
  intro i hi
  by_contra hnot
  rw [findlwt_of_not_fits qsort hi hnot] at hout
  exact absurd hout (by simp)

/-- The thread version prints every word that is long enough. -/
theorem mem_findlwt (qsort : Qsort Occurrence) {out : Text}
    (hout : findlwt qsort fs filePrefix n k = some out) {i : Nat} (hi : i < n) {f : Text}
    (hf : fs (filePrefix.val ++ formatInt (i + 1)) = some f) {w : Text} (hw : WordOf f w)
    (hlength : k ≤ toInt w.length) {c : UInt8} (hc : c ∈ w) : c ∈ out := by
  rw [findlwt_of_fits qsort (fits_of_findlwt hout)] at hout
  obtain rfl := Option.some.inj hout
  obtain ⟨line, hat⟩ := wordOf_iff.mp hw
  have hmem := mem_occurrencesOf_word hf hlength hat
  have hall : _ ∈ (List.range n).flatMap fun i : Nat => occurrencesOf fs filePrefix k (i + 1) :=
    List.mem_flatMap.mpr ⟨i, List.mem_range.mpr hi, hmem⟩
  exact mem_writeIndex hall hc

/-- A record that was not sent is missing in the file of the process version. -/
theorem counted_of_eq (qsort qsort' : Qsort Occurrence) (hn : n ≤ 10)
    (hrun : System.run fresh dataLength es (findlwp fs filePrefix n k) = some s)
    (hend : s.finished) (h : some (s.outfile qsort') = findlwt qsort fs filePrefix n k)
    (hfits : ∀ i < n, NameFits filePrefix (i + 1))
    (hplain : ∀ i < n, ∀ f, fs (filePrefix.val ++ formatInt (i + 1)) = some f →
      ∀ w, WordOf f w → k ≤ toInt w.length → 11 ∉ w ∧ 12 ∉ w) {i : Nat} (hi : i < n)
    {o : Occurrence} (ho : o ∈ occurrencesOf fs filePrefix k (i + 1)) : Counted o := by
  by_contra hnot
  -- the process version has the counted occurrences only
  have hall := findlwp_all hrun hend
  rw [occurrencesIn_recordLines hn hfits hplain] at hall
  rw [findlwt_of_fits qsort hfits, System.outfile, writeIndex_perm qsort' qsort hall] at h
  have hmem : o ∈ (List.range n).flatMap fun i : Nat => occurrencesOf fs filePrefix k (i + 1) :=
    List.mem_flatMap.mpr ⟨i, List.mem_range.mpr hi, ho⟩
  exact writeIndex_filter_ne qsort qsort hmem (decide_eq_false hnot) (Option.some.inj h)

/-- Equal outputs need the same words: names that fit, none that the parser cuts, and none too
long to send. -/
theorem sameWords_of_eq (qsort qsort' : Qsort Occurrence) (hn : n ≤ 10)
    (hrun : System.run fresh dataLength es (findlwp fs filePrefix n k) = some s)
    (hend : s.finished) (h : some (s.outfile qsort') = findlwt qsort fs filePrefix n k) :
    SameWords fs filePrefix n k := by
  have hfits : ∀ i < n, NameFits filePrefix (i + 1) := by
    intro i hi
    by_contra hnot
    rw [findlwt_of_not_fits qsort hi hnot] at h
    exact absurd h (by simp)
  have hplain : ∀ i < n, ∀ f, fs (filePrefix.val ++ formatInt (i + 1)) = some f →
      ∀ w, WordOf f w → k ≤ toInt w.length → 11 ∉ w ∧ 12 ∉ w := by
    intro i hi f hf w hw hlength
    -- a byte of the word would be in both files
    have hboth : ∀ c ∈ w, c ≠ 11 ∧ c ≠ 12 := fun c hc =>
      outfile_plain qsort' hrun hend (mem_findlwt qsort h.symm hi hf hw hlength hc)
    exact ⟨fun h11 => (hboth 11 h11).1 rfl, fun h12 => (hboth 12 h12).2 rfl⟩
  refine ⟨hfits, hplain, fun i hi f hf line w hat hlength => ?_⟩
  have hmem := mem_occurrencesOf_word hf hlength hat
  have hcounted := counted_of_eq qsort qsort' hn hrun hend h hfits hplain hi hmem
  rw [counted_iff] at hcounted
  simpa only using hcounted

/-- When the process version writes the file of the thread version. Its reading
loop comes to the end in every run in which only finitely many calls are
interrupted, and whatever the schedule the two files are equal exactly when the
input has the same words for both. -/
theorem findlwp_agrees_iff (qsort qsort' : Qsort Occurrence) (fs : Files) (filePrefix : CString)
    (n : Nat) (hn : n ≤ 10) (k : Int) (fresh : Nat → UInt8) (dataLength : Nat)
    (hdata : 1 ≤ dataLength) :
    (∃ bound, ∀ es s, System.run fresh dataLength es (findlwp fs filePrefix n k) = some s →
      es.length ≤ bound + 2 * es.countP Event.interrupted) ∧
    (∀ es s, System.run fresh dataLength es (findlwp fs filePrefix n k) = some s →
      ∃ es' s', System.run fresh dataLength es' s = some s' ∧ s'.finished) ∧
    (∀ es s, System.run fresh dataLength es (findlwp fs filePrefix n k) = some s → s.finished →
      (some (s.outfile qsort') = findlwt qsort fs filePrefix n k ↔
        SameWords fs filePrefix n k)) := by
  refine ⟨?_, ?_, ?_⟩
  · -- the bound is the number of steps left at the start
    refine ⟨(findlwp fs filePrefix n k).potential, ?_⟩
    intro es s hrun
    exact run_length findlwp_start hrun
  · -- from any point the run can be finished
    intro es s hrun
    exact exists_finish (findlwp_inv hrun) (run_within findlwp_within hrun) hdata
  · intro es s hrun hend
    constructor
    · exact sameWords_of_eq qsort qsort' hn hrun hend
    · intro hsame
      exact outfile_of_sameWords qsort qsort' hn hsame hrun hend

/-! ## Two runs -/

/-- A single file `w1` with these bytes. -/
def oneFile (f : Text) : Files := fun name => if name = ascii "w1" then some f else none

/-- Child 0 writes 8 bytes and exits; the parent reads them and sees the end. -/
def oneRecord : List (Event 1) :=
  [.write 0 8, .exit 0, .select [0], .read 8, .select [0], .readEof]

theorem findlwp_agrees_iff_demo :
    ∃ s, System.run (fun _ => 255) 10 oneRecord
        (findlwp (oneFile (ascii "abc\n")) ⟨ascii "w", by decide⟩ 1 1) = some s ∧
      s.finished ∧ SameWords (oneFile (ascii "abc\n")) ⟨ascii "w", by decide⟩ 1 1 := by
  have hfile : (System.run (fun _ => 255) 10 oneRecord
      (findlwp (oneFile (ascii "abc\n")) ⟨ascii "w", by decide⟩ 1 1)).map (fun s =>
        (s.openPipes, some (s.outfile (Qsort.merge _)))) =
      some (0, findlwt (Qsort.merge _) (oneFile (ascii "abc\n")) ⟨ascii "w", by decide⟩ 1 1) := by
    decide +kernel
  obtain ⟨s, hrun, hs⟩ := Option.map_eq_some_iff.mp hfile
  obtain ⟨hopen, hout⟩ := Prod.mk.inj hs
  obtain ⟨-, -, hiff⟩ := findlwp_agrees_iff (Qsort.merge _) (Qsort.merge _)
    (oneFile (ascii "abc\n")) ⟨ascii "w", by decide⟩ 1 (by decide) 1 (fun _ => 255) 10 (by decide)
  exact ⟨s, hrun, hopen, (hiff oneRecord s hrun hopen).mp hout⟩

/-- The file `a\vb`: the threads print the word, the parent drops its record. -/
theorem vertical_tab_differs :
    ¬ ∀ (qsort : Qsort Occurrence) (fs : Files) (filePrefix : CString) (n : Nat) (k : Int)
        (fresh : Nat → UInt8) (dataLength : Nat) (es : List (Event n)) (s : System n),
      1 ≤ n ∧ n ≤ 10 → 1 ≤ k ∧ k ≤ 100 → 1 ≤ dataLength ∧ dataLength ≤ 1000 →
      System.run fresh dataLength es (findlwp fs filePrefix n k) = some s → s.finished →
      some (s.outfile qsort) = findlwt qsort fs filePrefix n k := by
  intro h
  have hfile : (System.run (fun _ => 255) 10 oneRecord
      (findlwp (oneFile [97, 11, 98]) ⟨ascii "w", by decide⟩ 1 1)).map (fun s =>
        (s.openPipes, s.outfile (Qsort.merge _))) = some (0, []) := by
    decide +kernel
  have hthreads : findlwt (Qsort.merge _) (oneFile [97, 11, 98]) ⟨ascii "w", by decide⟩ 1 1 =
      some ([97, 11, 98] ++ ascii " (count=1): 1-1\n") := by
    decide +kernel
  obtain ⟨s, hrun, hs⟩ := Option.map_eq_some_iff.mp hfile
  obtain ⟨hopen, hout⟩ := Prod.mk.inj hs
  have heq := h (Qsort.merge _) (oneFile [97, 11, 98]) ⟨ascii "w", by decide⟩ 1 1 (fun _ => 255) 10
    oneRecord s (by decide) (by decide) (by decide) hrun hopen
  rw [hout, hthreads] at heq
  exact absurd heq (by decide)

end OsProjects.Findlw
