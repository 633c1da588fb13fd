import OsProjects.Findlw.Definitions

/-!
# Codec — records written as text and read back

`parse_record_line` finds the word of a record by `isspace`, the tokenizer has
found it by the delimiters of `strtok_r`. For a word without any white space the
record comes back as it was (`parse_recordLine`); and no record comes back with
white space in its word (`parse_word`).
-/

namespace OsProjects.Findlw

open Decimal

/-! ## The range of `int` -/

/-- A value of an `int`. -/
def InInt (x : Int) : Prop := -2 ^ 31 ≤ x ∧ x < 2 ^ 31

/-- A conversion gives a value of an `int`. -/
theorem toInt_inInt (x : Int) : InInt (toInt x) := by
  have hlow := Int.le_bmod (x := x) (m := 2 ^ 32) (by omega)
  have hhigh := Int.bmod_lt (x := x) (m := 2 ^ 32) (by omega)
  unfold InInt toInt
  omega

/-- A value of an `int` is converted to itself. -/
theorem toInt_of_inInt {x : Int} (h : InInt x) : toInt x = x := by
  unfold InInt at h
  unfold toInt
  rw [Int.bmod_eq_emod]
  split <;> omega

/-- `long` holds every `int`. -/
theorem clamp_of_inInt {x : Int} (h : InInt x) : max LONG_MIN (min x LONG_MAX) = x := by
  unfold InInt at h
  unfold LONG_MIN LONG_MAX
  omega

/-! ## Spans -/

variable {q : UInt8 → Bool} {w rest p : Text}

/-- The first byte of a text stops the span `q`. -/
def Stops (q : UInt8 → Bool) (p : Text) : Prop := ∀ c ∈ p.head?, c = 0 ∨ q c = false

/-- A word is read up to the byte that ends it. -/
theorem span_word (hw : ∀ c ∈ w, c ≠ 0 ∧ q c = true) (hrest : Stops q rest) :
    (span q (w ++ rest)).val = w ∧ afterSpan q (w ++ rest) = rest := by
  apply takeWhile_word
  · intro c hc
    simp [hw c hc]
  · intro c hc
    rcases hrest c hc with rfl | hq
    · rfl
    · simp [hq]

/-- Nothing to skip. -/
theorem afterSpan_stops (h : Stops q p) : afterSpan q p = p :=
  (span_word (w := []) (fun _ hc => absurd hc List.not_mem_nil) h).2

/-- A span has bytes of its class only. -/
theorem mem_span {c : UInt8} (hc : c ∈ (span q p).val) : c ≠ 0 ∧ q c = true := by
  have hboth := List.mem_takeWhile_imp hc
  simpa using hboth

/-! ## One record -/

/-- A record without its newline. -/
def recordLine (o : Occurrence) : Text :=
  o.word.val ++ ascii " " ++ formatInt o.fileIndex ++ ascii " " ++ formatInt o.lineNo

/-- A record is its line and a newline. -/
theorem record_eq (o : Occurrence) : record o = recordLine o ++ [10] := by
  rw [record, recordLine]
  rfl

/-- `snprintf` can count the bytes of the record. -/
def Counted (o : Occurrence) : Prop := (record o).length ≤ INT_MAX

instance (o : Occurrence) : Decidable (Counted o) := inferInstanceAs (Decidable (_ ≤ _))

/-- A record has its newline, so `snprintf` returns 0 or less only for an error. -/
theorem snprintf_record (o : Occurrence) : snprintf (record o) ≤ 0 ↔ ¬ Counted o := by
  have hlength : (record o).length = (recordLine o).length + 1 := by
    rw [record_eq, List.length_append, List.length_singleton]
  unfold snprintf Counted
  split
  · rename_i hle
    refine iff_of_false (fun hzero => ?_) (not_not_intro hle)
    omega
  · rename_i hnot
    exact iff_of_true (by decide) hnot

/-- A word is plain when there is no white space in it. -/
def Plain (word : CString) : Prop := ∀ c ∈ word.val, isspace c = false

instance (word : CString) : Decidable (Plain word) := inferInstanceAs (Decidable (∀ _ ∈ _, _))

/-- No byte of a number is white space. -/
theorem isspace_digit {c : UInt8} (hc : c = 45 ∨ isDigit c = true) : c ≠ 0 ∧ isspace c = false := by
  rcases hc with rfl | hc
  · decide
  · unfold isDigit at hc
    rw [Bool.and_eq_true, decide_eq_true_eq, decide_eq_true_eq, UInt8.le_iff_toNat_le,
      UInt8.le_iff_toNat_le] at hc
    replace hc : 48 ≤ c.toNat ∧ c.toNat ≤ 57 := hc
    have hne : ∀ d : UInt8, d.toNat < 48 → c ≠ d := by
      rintro d hd rfl
      omega
    refine ⟨hne 0 (by decide), ?_⟩
    simp [isspace, hne 32 (by decide), hne 9 (by decide), hne 10 (by decide), hne 11 (by decide),
      hne 12 (by decide), hne 13 (by decide)]

/-- A number is in front: it does not end the string and is no white space. -/
theorem formatInt_head (x : Int) (rest : Text) :
    Stops isspace (formatInt x ++ rest) ∧ peek (formatInt x ++ rest) ≠ 0 := by
  obtain ⟨c, w, hw⟩ := List.exists_cons_of_ne_nil (formatInt_ne_nil x)
  have hc := isspace_digit (mem_formatInt (hw ▸ List.mem_cons_self))
  rw [hw]
  constructor
  · intro d hd
    obtain rfl : c = d := by simpa using hd
    exact Or.inr hc.2
  · exact hc.1

/-- `strtol` reads what `%d` has written. -/
theorem strtol_formatInt {x : Int} (hx : InInt x) (hrest : ∀ c ∈ rest.head?, isDigit c = false) :
    strtol (formatInt x ++ rest) = some (x, rest) := by
  have hskip : (formatInt x ++ rest).dropWhile isspace = formatInt x ++ rest := by
    obtain ⟨c, w, hw⟩ := List.exists_cons_of_ne_nil (formatInt_ne_nil x)
    have hc := isspace_digit (mem_formatInt (hw ▸ List.mem_cons_self))
    rw [hw, List.cons_append, List.dropWhile_cons_of_neg (by simp [hc.2])]
  rw [strtol, hskip, readInt_formatInt x hrest]
  show some (max LONG_MIN (min x LONG_MAX), rest) = _
  rw [clamp_of_inInt hx]

/-- A plain word comes back with its file index and line number. -/
theorem parse_recordLine {o : Occurrence} (hne : o.word.val ≠ []) (hplain : Plain o.word)
    (hfile : InInt o.fileIndex) (hline : InInt o.lineNo) :
    parse_record_line (recordLine o) = some o := by
  obtain ⟨fileIndex, lineNo, word⟩ := o
  have hword : ∀ c ∈ word.val, c ≠ 0 ∧ isspace c = false := fun c hc =>
    ⟨fun h => word.property (h ▸ hc), hplain c hc⟩
  have hblankByte : ∀ c ∈ ([32] : Text), c ≠ 0 ∧ isspace c = true := by
    intro c hc
    rw [List.mem_singleton.mp hc]
    decide
  -- the blanks in front of the two numbers
  have hblank : ∀ x rest, afterSpan isspace (32 :: (formatInt x ++ rest)) = formatInt x ++ rest :=
    fun x rest => (span_word (q := isspace) (w := [32]) hblankByte (formatInt_head x rest).1).2
  have hstop : ∀ p, Stops (!isspace ·) (32 :: p) := by
    intro p c hc
    obtain rfl : 32 = c := by simpa using hc
    exact Or.inr (by decide)
  have htext : recordLine ⟨fileIndex, lineNo, word⟩ =
      word.val ++ 32 :: (formatInt fileIndex ++ 32 :: (formatInt lineNo ++ [])) := by
    show word.val ++ [32] ++ formatInt fileIndex ++ [32] ++ formatInt lineNo = _
    simp
  generalize hrest : formatInt fileIndex ++ 32 :: (formatInt lineNo ++ []) = rest at htext
  have hstart : afterSpan isspace (word.val ++ 32 :: rest) = word.val ++ 32 :: rest ∧
      peek (word.val ++ 32 :: rest) ≠ 0 := by
    obtain ⟨c, w, hw⟩ := List.exists_cons_of_ne_nil hne
    have hc := hword c (hw ▸ List.mem_cons_self)
    rw [hw, List.cons_append]
    refine ⟨afterSpan_stops ?_, hc.1⟩
    intro d hd
    obtain rfl : c = d := by simpa using hd
    exact Or.inr hc.2
  obtain ⟨hspan, hafter⟩ := span_word (q := (!isspace ·)) (w := word.val)
    (fun c hc => ⟨(hword c hc).1, by simp [(hword c hc).2]⟩) (hstop rest)
  have hspan' : span (!isspace ·) (word.val ++ 32 :: rest) = word := Subtype.ext hspan
  have hfileText : strtol rest = some (fileIndex, 32 :: (formatInt lineNo ++ [])) := by
    rw [← hrest]
    exact strtol_formatInt hfile (by
      intro c hc
      obtain rfl : 32 = c := by simpa using hc
      decide)
  have hlineText : strtol (formatInt lineNo ++ []) = some (lineNo, []) :=
    strtol_formatInt hline (by simp)
  have hskip : afterSpan isspace (32 :: rest) = rest := by
    rw [← hrest]
    exact hblank _ _
  have hpeek : peek rest ≠ 0 := by
    rw [← hrest]
    exact (formatInt_head _ _).2
  rw [htext]
  simp only [parse_record_line, hstart.1, if_neg hstart.2, hspan', if_neg hne, hafter, hskip,
    if_neg hpeek, hfileText, hblank, if_neg (formatInt_head lineNo []).2, hlineText,
    toInt_of_inInt hfile, toInt_of_inInt hline]

/-- Nothing comes back with white space in its word. -/
theorem parse_word {line : Text} {o : Occurrence} (h : parse_record_line line = some o) :
    Plain o.word ∧ o.word.val ≠ [] := by
  simp only [parse_record_line] at h
  -- the word, the file number and the line number, in this order
  split at h
  · exact absurd h (by simp)
  split at h
  · exact absurd h (by simp)
  rename_i hne
  split at h
  · exact absurd h (by simp)
  cases hfile : strtol (afterSpan isspace (afterSpan (!isspace ·) (afterSpan isspace line))) with
  | none => simp [hfile] at h
  | some file =>
    simp only [hfile] at h
    split at h
    · exact absurd h (by simp)
    cases hnumber : strtol (afterSpan isspace file.2) with
    | none => simp [hnumber] at h
    | some number =>
      simp only [hnumber] at h
      obtain rfl := Option.some.inj h
      exact ⟨fun c hc => by simpa using (mem_span hc).2, hne⟩

end OsProjects.Findlw
