import OsProjects.Findlw.Codec

/-!
# Index — sorting and printing

`cmp_occurrence` is a consistent comparator whose ties are equal occurrences, so
the index depends on the multiset of occurrences only (`writeIndex_perm`). Every
word that was collected is printed, and the text around the words is digits and
punctuation (`mem_writeIndex`, `writeIndex_bytes`).
-/

namespace OsProjects.Findlw

open Decimal

/-! ## The comparator -/

/-- The sign of `strcmp` turns around with its arguments. -/
theorem strcmpText_swap (a b : Text) : strcmpText b a = -strcmpText a b := by
  induction a generalizing b with
  | nil => cases b <;> simp [strcmpText]
  | cons c a ih =>
    cases b with
    | nil => simp [strcmpText]
    | cons d b =>
      rw [strcmpText, strcmpText]
      by_cases hcd : c = d
      · rw [if_pos hcd, if_pos hcd.symm, ih]
      · rw [if_neg hcd, if_neg (Ne.symm hcd)]
        omega

theorem strcmpText_self (a : Text) : strcmpText a a = 0 := by
  induction a with
  | nil => rfl
  | cons c a ih => rw [strcmpText, if_pos rfl, ih]

/-- A byte of a string is not its NUL. -/
theorem toNat_pos {c : UInt8} (hc : c ≠ 0) : 0 < c.toNat :=
  Nat.pos_of_ne_zero fun h => hc (UInt8.toNat_inj.mp h)

/-- The first difference decides, and the terminator is smaller than every byte. -/
theorem strcmpText_trans {a b c : Text} (ha : 0 ∉ a) (hb : 0 ∉ b) (hab : strcmpText a b ≤ 0)
    (hbc : strcmpText b c ≤ 0) : strcmpText a c ≤ 0 := by
  -- on the common prefix; a text that ends first is the smaller one
  induction a generalizing b c with
  | nil =>
    cases c with
    | nil => exact le_rfl
    | cons z c =>
      rw [strcmpText]
      omega
  | cons x a ih =>
    have hx : 0 < x.toNat := toNat_pos fun h => ha (h ▸ List.mem_cons_self)
    cases b with
    | nil =>
      rw [strcmpText] at hab
      omega
    | cons y b =>
      have hy : 0 < y.toNat := toNat_pos fun h => hb (h ▸ List.mem_cons_self)
      cases c with
      | nil =>
        rw [strcmpText] at hbc
        omega
      | cons z c =>
        rw [strcmpText] at hab hbc ⊢
        split at hab
        · rename_i hxy
          subst hxy
          split at hbc
          · -- all three agree here
            rename_i hxz
            rw [if_pos hxz]
            exact ih (fun h => ha (List.mem_cons_of_mem _ h))
              (fun h => hb (List.mem_cons_of_mem _ h)) hab hbc
          · rename_i hxz
            rw [if_neg hxz]
            exact hbc
        · rename_i hxy
          have hne : x.toNat ≠ y.toNat := fun h => hxy (UInt8.toNat_inj.mp h)
          split at hbc
          · -- the first text is smaller already
            rename_i hyz
            subst hyz
            rw [if_neg hxy]
            exact hab
          · -- two differences at one position
            have hxz : x ≠ z := by
              rintro rfl
              omega
            rw [if_neg hxz]
            omega

/-- Texts without a NUL that compare equal are equal. -/
theorem eq_of_strcmpText {a b : Text} (ha : 0 ∉ a) (hb : 0 ∉ b) (h : strcmpText a b = 0) :
    a = b := by
  induction a generalizing b with
  | nil =>
    cases b with
    | nil => rfl
    | cons d b =>
      have hd : 0 < d.toNat := toNat_pos fun h => hb (h ▸ List.mem_cons_self)
      rw [strcmpText] at h
      omega
  | cons c a ih =>
    cases b with
    | nil =>
      have hc : 0 < c.toNat := toNat_pos fun h => ha (h ▸ List.mem_cons_self)
      rw [strcmpText] at h
      omega
    | cons d b =>
      rw [strcmpText] at h
      split at h
      · rename_i hcd
        rw [hcd, ih (fun h => ha (List.mem_cons_of_mem _ h))
          (fun h => hb (List.mem_cons_of_mem _ h)) h]
      · rename_i hcd
        -- the difference of two bytes that are not equal
        have hne : c.toNat ≠ d.toNat := fun h => hcd (UInt8.toNat_inj.mp h)
        omega

/-- The test with which the groups of the output are made. -/
theorem strcmp_eq_zero {a b : CString} : strcmp a b = 0 ↔ a = b := by
  constructor
  · intro h
    exact Subtype.ext (eq_of_strcmpText a.property b.property h)
  · rintro rfl
    exact strcmpText_self _

theorem strcmp_swap (a b : CString) : strcmp b a = -strcmp a b := strcmpText_swap a.val b.val

/-- `strcmp` orders the words. -/
theorem strcmp_trans {a b c : CString} (hab : strcmp a b ≤ 0) (hbc : strcmp b c ≤ 0) :
    strcmp a c ≤ 0 :=
  strcmpText_trans a.property b.property hab hbc

/-- The order of the comparator: by word, then by file, then by line. -/
theorem cmp_occurrence_le_iff (a b : Occurrence) : cmp_occurrence a b ≤ 0 ↔
    strcmp a.word b.word < 0 ∨ a.word = b.word ∧
      (a.fileIndex < b.fileIndex ∨ a.fileIndex = b.fileIndex ∧ a.lineNo ≤ b.lineNo) := by
  have hword := strcmp_eq_zero (a := a.word) (b := b.word)
  simp only [cmp_occurrence]
  by_cases hc : strcmp a.word b.word = 0
  · have heq : a.word = b.word := hword.mp hc
    have hnot : ¬ strcmp a.word b.word < 0 := by omega
    rw [if_neg (not_not_intro hc), or_iff_right hnot, and_iff_right heq]
    split <;> omega
  · have hne : a.word ≠ b.word := fun h => hc (hword.mpr h)
    rw [if_pos hc]
    constructor
    · intro hle
      exact Or.inl (by omega)
    · rintro (hlt | ⟨heq, -⟩)
      · exact hlt.le
      · exact absurd heq hne

/-- The differences of `cmp_occurrence` do not overflow on what the program collects. -/
theorem cmp_occurrence_swap (a b : Occurrence) : cmp_occurrence b a = -cmp_occurrence a b := by
  simp only [cmp_occurrence, strcmp_swap a.word b.word]
  by_cases hc : strcmp a.word b.word = 0
  · rw [if_neg (not_not_intro hc), if_neg (by omega)]
    by_cases hfile : a.fileIndex = b.fileIndex
    · rw [if_neg (not_not_intro hfile), if_neg (not_not_intro hfile.symm)]
      omega
    · rw [if_pos hfile, if_pos (Ne.symm hfile)]
      omega
  · rw [if_pos hc, if_pos (by omega)]

/-- `qsort` may be called with it. -/
theorem cmp_occurrence_comparator : Comparator cmp_occurrence where
  swap a b := by
    rw [cmp_occurrence_swap a b]
    omega
  trans a b c hab hbc := by
    have hword := strcmp_trans (a := a.word) (b := b.word) (c := c.word)
    rw [cmp_occurrence_le_iff] at hab hbc ⊢
    rcases hab with hab | ⟨heq, hab⟩
    · -- the words differ from the first step on
      left
      have hle : strcmp b.word c.word ≤ 0 := by
        rcases hbc with hbc | ⟨heq, -⟩
        · exact hbc.le
        · exact (strcmp_eq_zero.mpr heq).le
      rcases (hword hab.le hle).lt_or_eq with hlt | hzero
      · exact hlt
      · have heq : a.word = c.word := strcmp_eq_zero.mp hzero
        rw [← heq, strcmp_swap a.word b.word] at hle
        omega
    · rw [heq]
      -- equal words: file and line number decide
      rcases hbc with hbc | ⟨heq', hbc⟩
      · exact Or.inl hbc
      · exact Or.inr ⟨heq', by omega⟩

/-- Occurrences that compare equal are equal. -/
theorem eq_of_cmp_occurrence {a b : Occurrence} (h : cmp_occurrence a b = 0) : a = b := by
  have hle : cmp_occurrence b a ≤ 0 := by
    rw [cmp_occurrence_swap a b]
    omega
  have hsmall := (cmp_occurrence_le_iff a b).mp h.le
  have hlarge := (cmp_occurrence_le_iff b a).mp hle
  rw [strcmp_swap a.word b.word] at hlarge
  have hword : a.word = b.word := by
    rcases hsmall with hlt | hsmall
    · rcases hlarge with hgt | hlarge
      · omega
      · exact hlarge.1.symm
    · exact hsmall.1
  have hzero : strcmp a.word b.word = 0 := strcmp_eq_zero.mpr hword
  -- with one word the two other differences are both zero
  obtain ⟨af, al, aw⟩ := a
  obtain ⟨bf, bl, bw⟩ := b
  simp only at hword hzero hsmall hlarge
  rw [Occurrence.mk.injEq]
  exact ⟨by omega, by omega, hword⟩

/-- No difference leaves the range of `int`, for file indices and line numbers from
1 on. -/
theorem cmp_occurrence_inRange {a b : Occurrence} (ha : 1 ≤ a.fileIndex ∧ 1 ≤ a.lineNo)
    (hb : 1 ≤ b.fileIndex ∧ 1 ≤ b.lineNo) (hfile : InInt a.fileIndex ∧ InInt b.fileIndex)
    (hline : InInt a.lineNo ∧ InInt b.lineNo) : InInt (a.fileIndex - b.fileIndex) ∧
      InInt (a.lineNo - b.lineNo) := by
  unfold InInt at *
  omega

/-- The index depends on the occurrences only, not on their order, nor on the
sorting algorithm. -/
theorem writeIndex_perm (qsort qsort' : Qsort Occurrence) {all all' : List Occurrence}
    (h : all.Perm all') : writeIndex qsort all = writeIndex qsort' all' := by
  have hlength := h.length_eq
  have hsorted : (if all.length > 1 then qsort.sort cmp_occurrence all else all) =
      if all'.length > 1 then qsort'.sort cmp_occurrence all' else all' := by
    by_cases hmany : all.length > 1
    · rw [if_pos hmany, if_pos (hlength ▸ hmany)]
      exact qsort.sort_eq_of_perm qsort' cmp_occurrence_comparator
        (fun _ _ => eq_of_cmp_occurrence) h
    · rw [if_neg hmany, if_neg (hlength ▸ hmany)]
      -- at most one occurrence
      match all, hmany with
      | [], _ => exact (List.nil_perm.mp h).symm
      | [o], _ => exact List.singleton_perm.mp h
      | _ :: _ :: _, hmany => exact absurd (by simp) hmany
  simp only [writeIndex, hsorted]

/-! ## The printed text -/

/-- The line of a group has the bytes of its word. -/
theorem mem_groupText {word : CString} {group : List Occurrence} {c : UInt8}
    (hc : c ∈ word.val) : c ∈ groupText word group := by
  simp [groupText, hc]

/-- The output has the bytes of every word that was collected. -/
theorem mem_printLoop {fuel : Nat} {all : List Occurrence} (hfuel : all.length ≤ fuel)
    {o : Occurrence} (ho : o ∈ all) {c : UInt8} (hc : c ∈ o.word.val) : c ∈ printLoop fuel all := by
  induction fuel generalizing all with
  | zero =>
    rw [List.length_eq_zero_iff.mp (Nat.le_zero.mp hfuel)] at ho
    exact absurd ho List.not_mem_nil
  | succ fuel ih =>
    cases all with
    | nil => exact absurd ho List.not_mem_nil
    | cons p rest =>
      rw [printLoop, List.mem_append]
      -- the occurrences behind the head: its group, and the rest
      have hsplit : rest.takeWhile (fun x => strcmp p.word x.word == 0) ++
          rest.dropWhile (fun x => strcmp p.word x.word == 0) = rest :=
        List.takeWhile_append_dropWhile
      have hlength := congrArg List.length hsplit
      rw [List.length_append] at hlength
      rw [List.length_cons] at hfuel
      rcases List.mem_cons.mp ho with rfl | hrest
      · exact Or.inl (mem_groupText hc)
      · rw [← hsplit] at hrest
        rcases List.mem_append.mp hrest with hgroup | hafter
        · -- a group is printed under the word of its first occurrence
          have heq : strcmp p.word o.word = 0 := by simpa using List.mem_takeWhile_imp hgroup
          exact Or.inl (mem_groupText (strcmp_eq_zero.mp heq ▸ hc))
        · exact Or.inr (ih (by omega) hafter)

/-- Every word that was collected is printed. -/
theorem mem_writeIndex {qsort : Qsort Occurrence} {all : List Occurrence} {o : Occurrence}
    (ho : o ∈ all) {c : UInt8} (hc : c ∈ o.word.val) : c ∈ writeIndex qsort all := by
  simp only [writeIndex]
  split
  · exact mem_printLoop le_rfl (qsort.mem_sort.mpr ho) hc
  · exact mem_printLoop le_rfl ho hc

/-- The literals of the format strings. -/
def formatBytes : Text := ascii " (count=" ++ ascii "): " ++ ascii ", " ++ ascii "\n"

/-- The bytes the index adds to the words: digits, minus signs and literals. -/
def IsPunctuation (c : UInt8) : Prop := c = 45 ∨ isDigit c = true ∨ c ∈ formatBytes

/-- The format strings have blanks, separators and a newline. -/
theorem punctuation_format {c : UInt8} (hc : c ∈ formatBytes) : IsPunctuation c :=
  Or.inr (Or.inr hc)

/-- A number has digits and a sign. -/
theorem punctuation_formatInt {x : Int} {c : UInt8} (hc : c ∈ formatInt x) : IsPunctuation c := by
  rcases mem_formatInt hc with hc | hc
  · exact Or.inl hc
  · exact Or.inr (Or.inl hc)

theorem punctuation_pairText {o : Occurrence} {c : UInt8} (hc : c ∈ pairText o) :
    IsPunctuation c := by
  rw [pairText, List.mem_append, List.mem_append] at hc
  rcases hc with (hc | hc) | hc
  · exact punctuation_formatInt hc
  · exact Or.inl (List.mem_singleton.mp hc)
  · exact punctuation_formatInt hc

/-- The pairs of a line are numbers and separators. -/
theorem punctuation_pairsText {group : List Occurrence} {c : UInt8} (hc : c ∈ pairsText group) :
    IsPunctuation c := by
  induction group with
  | nil => exact absurd hc List.not_mem_nil
  | cons o os ih =>
    cases os with
    | nil => exact punctuation_pairText hc
    | cons p os =>
      rw [pairsText, List.mem_append, List.mem_append] at hc
      rcases hc with (hc | hc) | hc
      · exact punctuation_pairText hc
      · exact punctuation_format (by simp [formatBytes, hc])
      · exact ih hc

/-- Other bytes in a line come from its word. -/
theorem groupText_bytes {word : CString} {group : List Occurrence} {c : UInt8}
    (hc : c ∈ groupText word group) : c ∈ word.val ∨ IsPunctuation c := by
  simp only [groupText, List.mem_append] at hc
  rcases hc with ((((hc | hc) | hc) | hc) | hc) | hc
  · exact Or.inl hc
  · exact Or.inr (punctuation_format (by simp [formatBytes, hc]))
  · exact Or.inr (punctuation_formatInt hc)
  · exact Or.inr (punctuation_format (by simp [formatBytes, hc]))
  · exact Or.inr (punctuation_pairsText hc)
  · exact Or.inr (punctuation_format (by simp [formatBytes, hc]))

/-- Other bytes in the output come from a word that was collected. -/
theorem printLoop_bytes {fuel : Nat} {all : List Occurrence} {c : UInt8}
    (hc : c ∈ printLoop fuel all) : (∃ o ∈ all, c ∈ o.word.val) ∨ IsPunctuation c := by
  induction fuel generalizing all with
  | zero => exact absurd hc List.not_mem_nil
  | succ fuel ih =>
    cases all with
    | nil => exact absurd hc List.not_mem_nil
    | cons p rest =>
      rw [printLoop, List.mem_append] at hc
      rcases hc with hc | hc
      · -- the group at the head
        rcases groupText_bytes hc with hword | hpunct
        · exact Or.inl ⟨p, List.mem_cons_self, hword⟩
        · exact Or.inr hpunct
      · rcases ih hc with ⟨o, ho, hword⟩ | hpunct
        · -- a later group
          have hrest : o ∈ rest := (List.dropWhile_sublist _).subset ho
          exact Or.inl ⟨o, List.mem_cons_of_mem _ hrest, hword⟩
        · exact Or.inr hpunct

/-- Nothing else is printed than the words and the punctuation of the format. -/
theorem writeIndex_bytes {qsort : Qsort Occurrence} {all : List Occurrence} {c : UInt8}
    (hc : c ∈ writeIndex qsort all) : (∃ o ∈ all, c ∈ o.word.val) ∨ IsPunctuation c := by
  simp only [writeIndex] at hc
  rcases printLoop_bytes hc with ⟨o, ho, hword⟩ | hpunct
  · left
    split at ho
    · exact ⟨o, qsort.mem_sort.mp ho, hword⟩
    · exact ⟨o, ho, hword⟩
  · exact Or.inr hpunct

end OsProjects.Findlw
