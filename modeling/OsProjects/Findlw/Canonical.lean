import Mathlib.Algebra.Order.BigOperators.Group.Finset
import Mathlib.Algebra.Order.BigOperators.Group.List
import Mathlib.Data.Prod.Lex
import OsProjects.Findlw.Index
import OsProjects.Lib.Grouping
import OsProjects.Lib.Lines

/-!
# Canonical — what the printed index is

`IsIndex all lines` describes the index of the occurrences `all` without sorting or looping:
one line per word, the words increasing, each line with the number and the sorted places of
its word. There is one such list of lines (`IsIndex.unique`), and it is what the program
prints, whatever the order in which the occurrences come in.

* `cmp_occurrence_inInt` — the comparator does not overflow;
* `printLoop_grouping` — the final loop prints the stretches of equal words;
* `isIndex_of_grouping` — in a sorted list these are the lines of the index;
* `writeIndex_canonical` — the text that is written, for every list of occurrences;
* `writeIndex_filter_ne` — no occurrence can be left out without a trace.
-/

namespace OsProjects.Findlw

open Decimal

/-! ## The comparator -/

/-- The order of `strcmp`. -/
def WordLt (a b : CString) : Prop := strcmp a b < 0

/-- The words are in a strict order. -/
theorem WordLt.trans {a b c : CString} (hab : WordLt a b) (hbc : WordLt b c) : WordLt a c := by
  refine Int.lt_iff_le_and_ne.mpr ⟨strcmp_trans (le_of_lt hab) (le_of_lt hbc), fun hzero => ?_⟩
  unfold WordLt at hab hbc
  -- the first word would be the last one too
  rw [strcmp_eq_zero.mp hzero, strcmp_swap b c] at hab
  omega

instance : IsStrictOrder CString WordLt where
  irrefl a h := by
    unfold WordLt at h
    rw [strcmp_eq_zero.mpr rfl] at h
    exact Int.lt_irrefl 0 h
  trans _ _ _ := WordLt.trans

/-- A difference of two bytes. -/
theorem strcmpText_range (a b : Text) : -255 ≤ strcmpText a b ∧ strcmpText a b ≤ 255 := by
  -- on the first text; the second is taken apart along with it
  induction a generalizing b with
  | nil =>
    cases b with
    | nil => decide
    | cons d b =>
      have hd := d.toNat_lt
      rw [strcmpText]
      omega
  | cons c a ih =>
    have hc := c.toNat_lt
    cases b with
    | nil =>
      rw [strcmpText]
      omega
    | cons d b =>
      have hd := d.toNat_lt
      rw [strcmpText]
      split
      · exact ih b
      · omega

/-- The comparator stays in the range of `int`, for file indices and line numbers from 1 on. -/
theorem cmp_occurrence_inInt {a b : Occurrence} (ha : 1 ≤ a.fileIndex ∧ 1 ≤ a.lineNo)
    (hb : 1 ≤ b.fileIndex ∧ 1 ≤ b.lineNo) (hfile : InInt a.fileIndex ∧ InInt b.fileIndex)
    (hline : InInt a.lineNo ∧ InInt b.lineNo) : InInt (cmp_occurrence a b) := by
  obtain ⟨hfiles, hlines⟩ := cmp_occurrence_inRange ha hb hfile hline
  have hword := strcmpText_range a.word.val b.word.val
  simp only [cmp_occurrence]
  split_ifs
  · unfold InInt strcmp
    omega
  · exact hfiles
  · exact hlines

/-- Among the occurrences of one word, file and line decide. -/
theorem cmp_occurrence_le_lex {a b : Occurrence} (h : a.word = b.word) :
    cmp_occurrence a b ≤ 0 ↔ toLex (a.fileIndex, a.lineNo) ≤ toLex (b.fileIndex, b.lineNo) := by
  have hnot : ¬ strcmp a.word b.word < 0 := by
    rw [strcmp_eq_zero.mpr h]
    exact Int.lt_irrefl 0
  rw [cmp_occurrence_le_iff, or_iff_right hnot, and_iff_right h, Prod.Lex.toLex_le_toLex]

/-! ## The lines of an index -/

/-- A line of an index: a word, how often it occurs, and where. -/
structure IndexLine where
  word : CString
  count : Nat
  pairs : List (Int × Int)
  deriving DecidableEq

/-- The line as it is printed, without the newline. -/
def IndexLine.text (line : IndexLine) : Text :=
  line.word.val ++ ascii " (count=" ++ formatInt line.count ++ ascii "): " ++
    (ascii ", ").intercalate
      (line.pairs.map fun p => formatInt p.1 ++ ascii "-" ++ formatInt p.2)

/-- What the line lists. -/
def IndexLine.occurrences (line : IndexLine) : List Occurrence :=
  line.pairs.map fun p => ⟨p.1, p.2, line.word⟩

/-- `lines` is the index of the occurrences `all`. -/
structure IsIndex (all : List Occurrence) (lines : List IndexLine) : Prop where
  increasing : lines.Pairwise fun a b => strcmp a.word b.word < 0
  words : ∀ w, (∃ line ∈ lines, line.word = w) ↔ ∃ o ∈ all, o.word = w
  count : ∀ line ∈ lines, line.count = all.countP fun o => o.word = line.word
  sorted : ∀ line ∈ lines, line.pairs.Pairwise fun p q => toLex p ≤ toLex q
  perm : (lines.flatMap IndexLine.occurrences).Perm all

/-- The line of a stretch of equal words. -/
def lineOf (g : CString × List Occurrence) : IndexLine where
  word := g.1
  count := g.2.length
  pairs := g.2.map fun o => (o.fileIndex, o.lineNo)

/-- The loop over a group separates its pairs by commas. -/
theorem pairsText_eq (group : List Occurrence) :
    pairsText group = (ascii ", ").intercalate (group.map pairText) := by
  induction group with
  | nil => rfl
  | cons o os ih =>
    cases os with
    | nil => rw [pairsText, List.map_singleton, List.intercalate_singleton]
    | cons p os =>
      rw [pairsText, ih]
      rw [List.map_cons, List.map_cons, List.map_cons, List.intercalate_cons_cons]

/-- A group is printed as its line. -/
theorem groupText_eq (g : CString × List Occurrence) :
    groupText g.1 g.2 = (lineOf g).text ++ [10] := by
  rw [groupText, pairsText_eq, IndexLine.text, lineOf, List.map_map]
  rfl

/-- A line says where its group was found. -/
theorem lineOf_occurrences {g : CString × List Occurrence} (h : ∀ o ∈ g.2, o.word = g.1) :
    (lineOf g).occurrences = g.2 := by
  rw [IndexLine.occurrences, lineOf, List.map_map]
  conv_rhs => rw [← List.map_id g.2]
  refine List.map_congr_left fun o ho => ?_
  rw [Function.comp_apply, ← h o ho]
  rfl

/-! ## What is printed -/

/-- The final loop prints a line for each stretch of equal words. -/
theorem printLoop_grouping {fuel : Nat} {all : List Occurrence} (hfuel : all.length ≤ fuel)
    (hsorted : KeySorted Occurrence.word WordLt all) :
    ∃ gs, Grouping Occurrence.word WordLt all gs ∧
      printLoop fuel all = Lines.join 10 (gs.map fun g => (lineOf g).text) := by
  -- on the fuel, with the rest behind the first group
  induction fuel generalizing all with
  | zero =>
    rw [List.length_eq_zero_iff.mp (Nat.le_zero.mp hfuel)]
    exact ⟨[], .nil, rfl⟩
  | succ fuel ih =>
    cases all with
    | nil => exact ⟨[], .nil, rfl⟩
    | cons o rest =>
      rw [List.length_cons] at hfuel
      let same := fun x : Occurrence => strcmp o.word x.word == 0
      -- what is behind the group is shorter, and sorted
      have hsub : (rest.dropWhile same).Sublist rest := List.dropWhile_sublist _
      have hlength : (rest.dropWhile same).length ≤ fuel :=
        Nat.le_trans hsub.length_le (Nat.le_of_succ_le_succ hfuel)
      obtain ⟨gs, hgs, hprint⟩ := ih hlength ((List.pairwise_cons.mp hsorted).2.sublist hsub)
      -- the loop groups by `strcmp`
      have hsame : ∀ x, same x = true ↔ o.word = x.word := fun x => by
        rw [beq_iff_eq, strcmp_eq_zero]
      refine ⟨_, .cons hsorted hsame hgs, ?_⟩
      rw [printLoop, hprint, List.map_cons, Lines.join_cons,
        groupText_eq (o.word, o :: rest.takeWhile same), List.append_assoc,
        List.singleton_append]

/-- Sorted occurrences have sorted words. -/
theorem keySorted_of_sorted {l : List Occurrence}
    (h : l.Pairwise fun a b => cmp_occurrence a b ≤ 0) : KeySorted Occurrence.word WordLt l := by
  refine h.imp fun {a b} hle => ?_
  rcases (cmp_occurrence_le_iff a b).mp hle with hlt | ⟨heq, -⟩
  · exact Or.inl hlt
  · exact Or.inr heq

/-- The stretches of a sorted list are the lines of its index. -/
theorem isIndex_of_grouping {all l : List Occurrence} {gs : List (CString × List Occurrence)}
    (hperm : l.Perm all) (hsorted : l.Pairwise fun a b => cmp_occurrence a b ≤ 0)
    (hgs : Grouping Occurrence.word WordLt l gs) : IsIndex all (gs.map lineOf) where
  increasing := List.pairwise_map.mpr hgs.increasing
  words w := by
    -- the groups have the words that occur
    have hmem := hgs.key_mem (k := w)
    rw [List.mem_map] at hmem
    simp only [List.mem_map, exists_exists_and_eq_and, lineOf]
    rw [hmem]
    simp only [hperm.mem_iff]
  count line hline := by
    obtain ⟨g, hg, rfl⟩ := List.mem_map.mp hline
    -- the group of a word has all its occurrences
    rw [← hperm.countP_eq, List.countP_eq_length_filter, lineOf, hgs.filter_eq hg]
  sorted line hline := by
    obtain ⟨g, hg, rfl⟩ := List.mem_map.mp hline
    -- within a group the order is that of file and line
    have hgroup : g.2.Pairwise fun a b => cmp_occurrence a b ≤ 0 := by
      rw [← hgs.filter_eq hg]
      exact hsorted.sublist List.filter_sublist
    refine List.pairwise_map.mpr (hgroup.imp_of_mem fun {a b} ha hb hle => ?_)
    have hword : a.word = b.word := (hgs.keyed g hg a ha).trans (hgs.keyed g hg b hb).symm
    exact (cmp_occurrence_le_lex hword).mp hle
  perm := by
    -- the groups, one behind the other, are the sorted list
    have hflat : (gs.map lineOf).flatMap IndexLine.occurrences = l := by
      rw [List.flatMap_map, ← hgs.flatten]
      exact List.flatMap_congr fun g hg => lineOf_occurrences (hgs.keyed g hg)
    rw [hflat]
    exact hperm

/-! ## There is one index -/

namespace IsIndex

variable {all : List Occurrence} {lines lines' : List IndexLine}

/-- No word has two lines. -/
theorem words_nodup (h : IsIndex all lines) : (lines.map IndexLine.word).Nodup := by
  refine List.pairwise_map.mpr (h.increasing.imp fun {a b} (hlt : WordLt a.word b.word) heq => ?_)
  rw [heq] at hlt
  exact irrefl_of WordLt _ hlt

/-- No line is without a place. -/
theorem occurrences_ne_nil (h : IsIndex all lines) {line : IndexLine} (hline : line ∈ lines) :
    line.occurrences ≠ [] := by
  obtain ⟨o, ho, hword⟩ := (h.words line.word).mp ⟨line, hline, rfl⟩
  obtain ⟨line', hline', hmem⟩ := List.mem_flatMap.mp (h.perm.mem_iff.mpr ho)
  -- the line that lists an occurrence has its word
  have hsame : line'.word = line.word := by
    obtain ⟨p, -, rfl⟩ := List.mem_map.mp hmem
    exact hword
  rw [← List.inj_on_of_nodup_map h.words_nodup hline' hline hsame]
  exact List.ne_nil_of_mem hmem

/-- The lines are the stretches of equal words in what they list together. -/
theorem grouping (h : IsIndex all lines) :
    Grouping Occurrence.word WordLt (lines.flatMap IndexLine.occurrences)
      (lines.map fun line => (line.word, line.occurrences)) where
  flatten := by rw [List.flatMap_map]
  nonempty := by
    -- a line counts at least one occurrence
    intro g hg
    obtain ⟨line, hline, rfl⟩ := List.mem_map.mp hg
    exact h.occurrences_ne_nil hline
  keyed := by
    intro g hg o ho
    obtain ⟨line, -, rfl⟩ := List.mem_map.mp hg
    obtain ⟨p, -, rfl⟩ := List.mem_map.mp ho
    rfl
  increasing := List.pairwise_map.mpr h.increasing

/-- The lines, taken apart again, are the sorted occurrences. -/
theorem sorted_flatMap (h : IsIndex all lines) :
    (lines.flatMap IndexLine.occurrences).Pairwise fun a b => cmp_occurrence a b ≤ 0 := by
  refine List.pairwise_flatMap.mpr ⟨fun line hline => ?_, ?_⟩
  · refine List.pairwise_map.mpr ((h.sorted line hline).imp fun {p q} hle => ?_)
    exact (cmp_occurrence_le_lex (a := ⟨p.1, p.2, line.word⟩) (b := ⟨q.1, q.2, line.word⟩)
      rfl).mpr hle
  · refine h.increasing.imp fun {line line'} hlt o ho o' ho' => ?_
    obtain ⟨p, -, rfl⟩ := List.mem_map.mp ho
    obtain ⟨q, -, rfl⟩ := List.mem_map.mp ho'
    exact (cmp_occurrence_le_iff _ _).mpr (Or.inl hlt)

/-- A line is told by its word and its occurrences. -/
theorem lineOf_eq (h : IsIndex all lines) {line : IndexLine} (hline : line ∈ lines) :
    lineOf (line.word, line.occurrences) = line := by
  have hlength : line.occurrences.length = line.count := by
    rw [h.count line hline, ← h.perm.countP_eq, List.countP_eq_length_filter,
      h.grouping.filter_eq (List.mem_map.mpr ⟨line, hline, rfl⟩)]
  rw [lineOf, hlength, IndexLine.occurrences, List.map_map]
  simp only [Function.comp_def, Prod.mk.eta, List.map_id']

/-- There is only one index of a list of occurrences. -/
theorem unique (h : IsIndex all lines) (h' : IsIndex all lines') : lines = lines' := by
  -- the two have the same occurrences in the same order
  have hflat : lines.flatMap IndexLine.occurrences = lines'.flatMap IndexLine.occurrences := by
    refine (h.perm.trans h'.perm.symm).eq_of_pairwise ?_ h.sorted_flatMap h'.sorted_flatMap
    intro a b _ _ hab hba
    rw [cmp_occurrence_swap a b] at hba
    exact eq_of_cmp_occurrence (by omega)
  -- so they have the same groups
  have hgroups := h.grouping.unique (hflat ▸ h'.grouping)
  -- a line is what `printLoop` makes of its group
  have hlines : ∀ {lines : List IndexLine}, IsIndex all lines →
      lines = (lines.map fun line => (line.word, line.occurrences)).map lineOf := by
    intro lines h
    rw [List.map_map]
    conv_lhs => rw [← List.map_id lines]
    exact List.map_congr_left fun line hline => (h.lineOf_eq hline).symm
  rw [hlines h, hlines h', hgroups]

end IsIndex

/-! ## The text as lines -/

theorem newline_notMem_formatInt (x : Int) : 10 ∉ formatInt x := fun hmem => by
  rcases mem_formatInt hmem with hminus | hdigit
  · exact absurd hminus (by decide)
  · exact absurd hdigit (by decide)

theorem newline_notMem_intercalate {texts : List Text} (h : ∀ t ∈ texts, 10 ∉ t) :
    10 ∉ (ascii ", ").intercalate texts := by
  -- on the texts
  induction texts with
  | nil => exact List.not_mem_nil
  | cons t texts ih =>
    have ht := h t List.mem_cons_self
    cases texts with
    | nil =>
      rw [List.intercalate_singleton]
      exact ht
    | cons u texts =>
      rw [List.intercalate_cons_cons, List.mem_append, List.mem_append]
      rintro ((hmem | hmem) | hmem)
      · exact ht hmem
      · exact absurd hmem (by decide)
      · exact ih (fun v hv => h v (List.mem_cons_of_mem _ hv)) hmem

/-- The line of a word without a newline is one line. -/
theorem newline_notMem_text {line : IndexLine} (h : 10 ∉ line.word.val) : 10 ∉ line.text := by
  simp only [IndexLine.text, List.mem_append, not_or]
  refine ⟨⟨⟨⟨h, by decide⟩, newline_notMem_formatInt _⟩, by decide⟩,
    newline_notMem_intercalate fun t ht => ?_⟩
  obtain ⟨p, -, rfl⟩ := List.mem_map.mp ht
  simp only [List.mem_append, not_or]
  exact ⟨⟨newline_notMem_formatInt _, by decide⟩, newline_notMem_formatInt _⟩

/-! ## The output file -/

/-- What the final loop goes through: the occurrences in order. -/
theorem writeIndex_sorted (qsort : Qsort Occurrence) (all : List Occurrence) :
    ∃ l : List Occurrence, l.Perm all ∧ (l.Pairwise fun a b => cmp_occurrence a b ≤ 0) ∧
      writeIndex qsort all = printLoop l.length l := by
  -- `qsort` is called for more than one occurrence
  by_cases hmany : all.length > 1
  · refine ⟨qsort.sort cmp_occurrence all, qsort.perm _ _,
      qsort.sorted _ _ cmp_occurrence_comparator, ?_⟩
    simp only [writeIndex, if_pos hmany]
  · refine ⟨all, List.Perm.refl _, ?_, ?_⟩
    · -- a list of at most one is sorted
      cases all with
      | nil => exact .nil
      | cons o os =>
        rw [List.length_cons] at hmany
        have hnil : os = [] := List.eq_nil_of_length_eq_zero (by omega)
        rw [hnil]
        exact List.pairwise_singleton _ _
    · simp only [writeIndex, if_neg hmany]

/-- The index is written, one line after the other. -/
theorem exists_isIndex (qsort : Qsort Occurrence) (all : List Occurrence) :
    ∃ lines, IsIndex all lines ∧
      writeIndex qsort all = Lines.join 10 (lines.map IndexLine.text) := by
  obtain ⟨l, hperm, hsorted, hwrite⟩ := writeIndex_sorted qsort all
  obtain ⟨gs, hgs, hprint⟩ := printLoop_grouping le_rfl (keySorted_of_sorted hsorted)
  refine ⟨gs.map lineOf, isIndex_of_grouping hperm hsorted hgs, ?_⟩
  rw [hwrite, hprint, List.map_map]
  rfl

/-- Without a newline in a word, the lines of the text are the lines of the index. -/
theorem IsIndex.lines_of_words {all : List Occurrence} {lines : List IndexLine} {out : Text}
    (h : IsIndex all lines) (hout : out = Lines.join 10 (lines.map IndexLine.text))
    (hwords : ∀ o ∈ all, 10 ∉ o.word.val) : Lines 10 out (lines.map IndexLine.text) [] := by
  rw [hout]
  refine Lines.of_records fun text htext => ?_
  obtain ⟨line, hline, rfl⟩ := List.mem_map.mp htext
  -- every word of a line is a word of an occurrence
  obtain ⟨o, ho, hword⟩ := (h.words line.word).mp ⟨line, hline, rfl⟩
  exact newline_notMem_text (hword ▸ hwords o ho)

/-- Sorting and grouping print the canonical index of the occurrences. -/
theorem writeIndex_canonical (qsort : Qsort Occurrence) {all : List Occurrence}
    (hall : ∀ o ∈ all, (1 ≤ o.fileIndex ∧ InInt o.fileIndex) ∧ 1 ≤ o.lineNo ∧ InInt o.lineNo) :
    (∃ lines, IsIndex all lines ∧ (∀ lines', IsIndex all lines' → lines' = lines) ∧
      writeIndex qsort all = Lines.join 10 (lines.map IndexLine.text) ∧
      ((∀ o ∈ all, 10 ∉ o.word.val) →
        Lines 10 (writeIndex qsort all) (lines.map IndexLine.text) [])) ∧
    (∀ (qsort' : Qsort Occurrence) (all' : List Occurrence), all.Perm all' →
      writeIndex qsort' all' = writeIndex qsort all) ∧
    Comparator cmp_occurrence ∧ (∀ a b, cmp_occurrence a b = 0 ↔ a = b) ∧
    ∀ a ∈ all, ∀ b ∈ all, InInt (cmp_occurrence a b) := by
  refine ⟨?_, ?_, cmp_occurrence_comparator, ?_, ?_⟩
  · -- the lines, and that there are no others
    obtain ⟨lines, hindex, hwrite⟩ := exists_isIndex qsort all
    exact ⟨lines, hindex, fun _ h => h.unique hindex, hwrite, hindex.lines_of_words hwrite⟩
  · -- the order of the input does not matter
    exact fun qsort' all' hperm => writeIndex_perm qsort' qsort hperm.symm
  · -- the comparator tells occurrences apart
    refine fun a b => ⟨eq_of_cmp_occurrence, ?_⟩
    rintro rfl
    have hswap := cmp_occurrence_swap a a
    omega
  · -- its differences are values of an `int`
    intro a ha b hb
    obtain ⟨⟨hfa, hia⟩, hla, hja⟩ := hall a ha
    obtain ⟨⟨hfb, hib⟩, hlb, hjb⟩ := hall b hb
    exact cmp_occurrence_inInt ⟨hfa, hla⟩ ⟨hfb, hlb⟩ ⟨hia, hib⟩ ⟨hja, hjb⟩

def wordA : CString := ⟨ascii "a", by decide⟩

def wordB : CString := ⟨ascii "b", by decide⟩

/-- Two words, one of them in two files, and not in order. -/
def places : List Occurrence := [⟨2, 7, wordB⟩, ⟨2, 10, wordA⟩, ⟨1, 3, wordB⟩]

/-- The two lines of this example. -/
theorem places_isIndex : IsIndex places [⟨wordA, 1, [(2, 10)]⟩, ⟨wordB, 2, [(1, 3), (2, 7)]⟩] where
  increasing := by decide
  words w := by
    simp only [places, List.mem_cons, List.not_mem_nil, or_false, exists_eq_or_imp, exists_eq_left]
    tauto
  count := by decide
  sorted := by
    simp only [Prod.Lex.toLex_le_toLex]
    decide
  perm := by decide

theorem writeIndex_canonical_places : writeIndex (Qsort.merge _) places =
    ascii "a (count=1): 2-10\nb (count=2): 1-3, 2-7\n" := by
  have hall : ∀ o ∈ places,
      (1 ≤ o.fileIndex ∧ InInt o.fileIndex) ∧ 1 ≤ o.lineNo ∧ InInt o.lineNo := by
    unfold InInt
    decide
  obtain ⟨⟨lines, -, hunique, hwrite, -⟩, -⟩ := writeIndex_canonical (Qsort.merge _) hall
  rw [hwrite, ← hunique _ places_isIndex]
  decide +kernel

/-! ## Nothing can be left out -/

/-- The `-` in the index of `all`: those between the numbers, and those of each word once. -/
def dashes (all : List Occurrence) : Nat :=
  (all.map fun o => (pairText o).count 45).sum +
    ∑ w ∈ (all.map Occurrence.word).toFinset, w.val.count 45

/-- A number that is not negative has no dash. -/
theorem count_dash_formatInt (n : Nat) : (formatInt n).count 45 = 0 := by
  refine List.count_eq_zero.mpr fun hmem => ?_
  have hdigit : isDigit 45 = true := by
    refine isDigit_of_mem_decimal (n := n) ?_
    rwa [formatInt, if_neg (by omega), Int.natAbs_natCast] at hmem
  exact absurd hdigit (by decide)

/-- The separators between the pairs have no dash. -/
theorem count_dash_intercalate (texts : List Text) :
    ((ascii ", ").intercalate texts).count 45 = (texts.map fun t => t.count 45).sum := by
  have hsep : (ascii ", ").count 45 = 0 := by decide
  induction texts with
  | nil => rfl
  | cons t texts ih =>
    cases texts with
    | nil => rw [List.intercalate_singleton, List.map_singleton, List.sum_singleton]
    | cons u texts =>
      rw [List.intercalate_cons_cons, List.count_append, List.count_append, ih, hsep,
        List.map_cons, List.map_cons, List.sum_cons, List.sum_cons, List.map_cons, List.sum_cons,
        Nat.add_zero]

/-- A line has the dashes of its word and of its pairs. -/
theorem IndexLine.count_dash (line : IndexLine) : line.text.count 45 =
    line.word.val.count 45 + (line.occurrences.map fun o => (pairText o).count 45).sum := by
  have hopen : (ascii " (count=").count 45 = 0 := by decide
  have hclose : (ascii "): ").count 45 = 0 := by decide
  simp only [IndexLine.text, List.count_append, hopen, hclose, count_dash_formatInt,
    count_dash_intercalate, Nat.add_zero, IndexLine.occurrences, List.map_map]
  rfl

theorem count_dash_join (texts : List Text) :
    (Lines.join 10 texts).count 45 = (texts.map fun t => t.count 45).sum := by
  induction texts with
  | nil => rfl
  | cons t texts ih =>
    rw [Lines.join_cons, List.count_append, List.count_cons_of_ne (by decide), ih, List.map_cons,
      List.sum_cons]

/-- The output has one dash for each pair and those in the words. -/
theorem count_dash_writeIndex (qsort : Qsort Occurrence) (all : List Occurrence) :
    (writeIndex qsort all).count 45 = dashes all := by
  obtain ⟨lines, hindex, hwrite⟩ := exists_isIndex qsort all
  have hpairs : (all.map fun o => (pairText o).count 45).sum =
      (lines.map fun line => (line.occurrences.map fun o => (pairText o).count 45).sum).sum := by
    rw [← (hindex.perm.map fun o => (pairText o).count 45).sum_eq, List.flatMap_def,
      List.map_flatten, List.sum_flatten, List.map_map, List.map_map]
    rfl
  -- the lines have the words of the occurrences, each once
  have hwords : (all.map Occurrence.word).toFinset = (lines.map IndexLine.word).toFinset := by
    ext w
    rw [List.mem_toFinset, List.mem_toFinset, List.mem_map, List.mem_map]
    exact (hindex.words w).symm
  rw [hwrite, count_dash_join, List.map_map, dashes, hpairs, hwords,
    List.sum_toFinset _ hindex.words_nodup, List.map_map, add_comm, ← List.sum_map_add]
  exact congrArg List.sum (List.map_congr_left fun line _ => line.count_dash)

/-- The index of some of the occurrences is not the index of all of them. -/
theorem writeIndex_filter_ne (qsort qsort' : Qsort Occurrence) {all : List Occurrence}
    {p : Occurrence → Bool} {o : Occurrence} (ho : o ∈ all) (hp : p o = false) :
    writeIndex qsort (all.filter p) ≠ writeIndex qsort' all := by
  intro heq
  have hcount := congrArg (List.count 45) heq
  rw [count_dash_writeIndex, count_dash_writeIndex] at hcount
  have hsplit := ((List.filter_append_perm p all).map fun o => (pairText o).count 45).sum_eq
  rw [List.map_append, List.sum_append] at hsplit
  -- the pair of the occurrence that is left out
  have hpair : 0 < (pairText o).count 45 := by
    rw [pairText, List.count_append, List.count_append]
    have hdash : (ascii "-").count 45 = 1 := by decide
    omega
  have hout : (pairText o).count 45 ≤
      ((all.filter fun o => !p o).map fun o => (pairText o).count 45).sum := by
    refine List.le_sum_of_mem (List.mem_map.mpr ⟨o, ?_, rfl⟩)
    exact List.mem_filter.mpr ⟨ho, by rw [hp]; rfl⟩
  have hwords : ∑ w ∈ ((all.filter p).map Occurrence.word).toFinset, w.val.count 45 ≤
      ∑ w ∈ (all.map Occurrence.word).toFinset, w.val.count 45 := by
    refine Finset.sum_le_sum_of_subset fun w hw => ?_
    rw [List.mem_toFinset] at hw ⊢
    exact (List.filter_sublist.map _).subset hw
  unfold dashes at hcount
  omega

end OsProjects.Findlw
