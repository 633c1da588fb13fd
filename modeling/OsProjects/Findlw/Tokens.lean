import OsProjects.Findlw.Codec

/-!
# Tokens — which words a file has

`WordOf f w` says without any loop that `w` is a word of the file `f`: it stands in
a line of the file, with no NUL in front of it on that line, between delimiters or
the ends of the text; `WordAt` also has the number of the line. `mem_collect` is the
correctness of the two loops of `child_process` and `worker`: they collect the words
whose length is at least `k` as an `int`, with their lines, and nothing else.
-/

namespace OsProjects.Findlw

variable {save f w p : Text}

/-- A byte that belongs to a word. -/
def isWordByte (c : UInt8) : Bool := c != 0 && !isDelim c

/-- A non-empty text of such bytes. -/
def IsWord (w : Text) : Prop := w ≠ [] ∧ ∀ c ∈ w, isWordByte c = true

/-- Where a word can begin: at the beginning, or behind a delimiter. -/
def AfterDelim (p : Text) : Prop := ∀ c ∈ p.getLast?, isDelim c = true

/-- Where a word ends: at the end, or in front of a delimiter or a NUL. -/
def EndsWord (p : Text) : Prop := ∀ c ∈ p.head?, isWordByte c = false

/-- `w` is a word of the line `save`. -/
def WordIn (save w : Text) : Prop :=
  ∃ l b, save = l ++ (w ++ b) ∧ 0 ∉ l ∧ AfterDelim l ∧ IsWord w ∧ EndsWord b

/-- `w` is a word of the file `f`: of the line that begins behind `a`. -/
def WordOf (f w : Text) : Prop :=
  ∃ a l b, f = a ++ (l ++ (w ++ b)) ∧ (∀ c ∈ a.getLast?, c = 10) ∧ 10 ∉ l ∧ 0 ∉ l ∧
    AfterDelim l ∧ IsWord w ∧ EndsWord b

/-- `w` is a word of the line `line` of the file `f`, counted from 1. -/
def WordAt (f : Text) (line : Nat) (w : Text) : Prop :=
  ∃ a l b, f = a ++ (l ++ (w ++ b)) ∧ (∀ c ∈ a.getLast?, c = 10) ∧ line = a.count 10 + 1 ∧
    10 ∉ l ∧ 0 ∉ l ∧ AfterDelim l ∧ IsWord w ∧ EndsWord b

theorem wordOf_iff : WordOf f w ↔ ∃ line, WordAt f line w := by
  constructor
  · rintro ⟨a, l, b, hf, ha, hrest⟩
    exact ⟨a.count 10 + 1, a, l, b, hf, ha, rfl, hrest⟩
  · rintro ⟨line, a, l, b, hf, ha, -, hrest⟩
    exact ⟨a, l, b, hf, ha, hrest⟩

/-! ## One line -/

theorem isWordByte_delim {c : UInt8} (hc : isDelim c = true) : isWordByte c = false := by
  simp [isWordByte, hc]

theorem isDelim_of_not_isWordByte {c : UInt8} (hc : isWordByte c = false) (hzero : c ≠ 0) :
    isDelim c = true := by
  simpa [isWordByte, hzero] using hc

theorem not_isWordByte_zero : isWordByte 0 = false := by decide

theorem AfterDelim.nil : AfterDelim [] := by simp [AfterDelim]

theorem AfterDelim.cons {c : UInt8} {l : Text} (h : AfterDelim l) (hc : isDelim c = true) :
    AfterDelim (c :: l) := by
  cases l with
  | nil =>
    intro d hd
    obtain rfl : c = d := by simpa using hd
    exact hc
  | cons d l => rwa [AfterDelim, List.getLast?_cons_cons]

theorem AfterDelim.tail {c : UInt8} {l : Text} (h : AfterDelim (c :: l)) : AfterDelim l := by
  cases l with
  | nil => exact AfterDelim.nil
  | cons d l => rwa [AfterDelim, List.getLast?_cons_cons] at h

theorem AfterDelim.append {x l : Text} (h : AfterDelim l) (hl : l ≠ []) : AfterDelim (x ++ l) := by
  rw [AfterDelim, List.getLast?_append_of_ne_nil _ hl]
  exact h

/-- A word begins with a byte of a word. -/
theorem IsWord.head {b s : Text} {c : UInt8} (hw : IsWord w) (h : c :: s = w ++ b) :
    isWordByte c = true := by
  obtain ⟨d, w', rfl⟩ := List.exists_cons_of_ne_nil hw.1
  obtain ⟨rfl, -⟩ := List.cons.inj h
  exact hw.2 _ List.mem_cons_self

/-- A delimiter in front belongs to no word. -/
theorem wordIn_delim {c : UInt8} {s : Text} (hc : isDelim c = true) (hzero : c ≠ 0) :
    WordIn (c :: s) w ↔ WordIn s w := by
  constructor
  · rintro ⟨l, b, hs, hl, hafter, hw, hb⟩
    cases l with
    | nil =>
      have hbyte := hw.head hs
      rw [isWordByte_delim hc] at hbyte
      exact absurd hbyte Bool.false_ne_true
    | cons d l =>
      obtain ⟨rfl, hrest⟩ := List.cons.inj hs
      exact ⟨l, b, hrest, fun h => hl (List.mem_cons_of_mem _ h), hafter.tail, hw, hb⟩
  · rintro ⟨l, b, rfl, hl, hafter, hw, hb⟩
    refine ⟨c :: l, b, rfl, ?_, hafter.cons hc, hw, hb⟩
    simpa [Ne.symm hzero] using hl

/-- No word is behind a NUL, nor in an empty line. -/
theorem not_wordIn_of_peek (h : peek save = 0) : ¬ WordIn save w := by
  rintro ⟨l, b, hs, hl, -, hw, -⟩
  cases l with
  | nil =>
    obtain ⟨c, w', rfl⟩ := List.exists_cons_of_ne_nil hw.1
    have hc : c = 0 := by simpa [peek, hs] using h
    have hbyte := hw.2 c List.mem_cons_self
    rw [hc, not_isWordByte_zero] at hbyte
    exact absurd hbyte Bool.false_ne_true
  | cons c l =>
    have hc : c = 0 := by simpa [peek, hs] using h
    exact hl (hc ▸ List.mem_cons_self)

/-- The delimiters in front are skipped, as `strspn` does. -/
theorem wordIn_afterSpan (save : Text) : WordIn save w ↔ WordIn (afterSpan isDelim save) w := by
  induction save with
  | nil => rfl
  | cons c s ih =>
    unfold afterSpan at ih ⊢
    by_cases hc : (c != 0 && isDelim c) = true
    · rw [List.dropWhile_cons, if_pos hc, ← ih]
      rw [Bool.and_eq_true, bne_iff_ne] at hc
      exact wordIn_delim hc.2 hc.1
    · rw [List.dropWhile_cons, if_neg hc]

/-- The text behind a word of bytes `t`, up to the first byte that is none. -/
theorem wordIn_run {t e : Text} (ht : IsWord t) (he : EndsWord e) :
    WordIn (t ++ e) w ↔ w = t ∨ WordIn (if peek e = 0 then e else e.drop 1) w := by
  constructor
  · rintro ⟨l, b, hs, hl, hafter, hw, hb⟩
    rcases List.append_eq_append_iff.mp hs with ⟨l', rfl, hrest⟩ | ⟨t', rfl, hrest⟩
    · cases l' with
      | nil =>
        -- the word begins where `t` ends, on a byte that is none of a word
        rw [List.nil_append] at hrest
        obtain ⟨c, w', rfl⟩ := List.exists_cons_of_ne_nil hw.1
        have hnot := he c (by simp [hrest])
        rw [hw.2 c List.mem_cons_self] at hnot
        exact absurd hnot (by decide)
      | cons c l' =>
        refine Or.inr ?_
        have hpeek : peek e ≠ 0 := by
          intro h
          have hc : c = 0 := by simpa [peek, hrest] using h
          exact hl (by simp [hc])
        have htail : AfterDelim l' := by
          cases l' with
          | nil => exact AfterDelim.nil
          | cons d l' =>
            rw [AfterDelim, List.getLast?_append_of_ne_nil _ (List.cons_ne_nil _ _)] at hafter
            exact AfterDelim.tail hafter
        rw [if_neg hpeek, hrest]
        exact ⟨l', b, rfl, fun h => hl (by simp [h]), htail, hw, hb⟩
    · cases l with
      | nil =>
        -- both are the longest word from here on
        refine Or.inl ?_
        have hboth : t' ++ e = w ++ b := hs
        have hrun : (t' ++ e).takeWhile isWordByte = t' := (Decimal.takeWhile_word ht.2 he).1
        rwa [hboth, (Decimal.takeWhile_word hw.2 hb).1] at hrun
      | cons c l =>
        -- the byte in front of the word is a byte of `t`
        have hne : (c :: l) ≠ [] := List.cons_ne_nil _ _
        have hlast := hafter _ (List.getLast?_eq_some_getLast hne)
        have hbyte := ht.2 _ (List.mem_append_left _ (List.getLast_mem hne))
        rw [isWordByte_delim hlast] at hbyte
        exact absurd hbyte Bool.false_ne_true
  · rintro (rfl | h)
    · exact ⟨[], e, rfl, List.not_mem_nil, AfterDelim.nil, ht, he⟩
    · split at h
      · rename_i hpeek
        exact absurd h (not_wordIn_of_peek hpeek)
      · rename_i hpeek
        cases e with
        | nil => exact absurd rfl hpeek
        | cons c e =>
          obtain ⟨l, b, hs, hl, hafter, hw, hb⟩ := h
          have hne : c ≠ 0 := hpeek
          have hc : isDelim c = true := isDelim_of_not_isWordByte (he c rfl) hne
          have hzero : (0 : UInt8) ∉ t := fun h0 => by
            have hbyte := ht.2 0 h0
            exact absurd hbyte Bool.false_ne_true
          refine ⟨t ++ c :: l, b, ?_, ?_, (hafter.cons hc).append (List.cons_ne_nil _ _), hw, hb⟩
          · rw [List.drop_one, List.tail_cons] at hs
            rw [hs, List.append_assoc, List.cons_append]
          · simp [hzero, hl, Ne.symm hne]

/-! ## The token loop -/

theorem strtok_r_none (h : strtok_r save = none) : ¬ WordIn save w := by
  unfold strtok_r at h
  simp only at h
  split at h
  · rename_i hpeek
    rw [wordIn_afterSpan]
    exact not_wordIn_of_peek hpeek
  · exact absurd h (by simp)

/-- One call: its token is the first word, and the other words are behind `save`. -/
theorem strtok_r_some {token : CString} {save' : Text} (h : strtok_r save = some (token, save')) :
    IsWord token.val ∧ save'.length < save.length ∧
      (WordIn save w ↔ w = token.val ∨ WordIn save' w) := by
  unfold strtok_r at h
  simp only at h
  split at h
  · exact absurd h (by simp)
  · rename_i hpeek
    obtain ⟨rfl, rfl⟩ := Prod.mk.inj (Option.some.inj h)
    rw [wordIn_afterSpan]
    have hskip : (afterSpan isDelim save).length ≤ save.length := by
      unfold afterSpan
      exact (List.dropWhile_suffix _).length_le
    generalize hs : afterSpan isDelim save = s at hpeek hskip ⊢
    -- the run of word bytes at the beginning of `s`
    have hsplit : (span (!isDelim ·) s).val ++ afterSpan (!isDelim ·) s = s :=
      List.takeWhile_append_dropWhile
    have htoken : IsWord (span (!isDelim ·) s).val := by
      refine ⟨?_, fun c hc => List.mem_takeWhile_imp hc⟩
      cases s with
      | nil => exact absurd rfl hpeek
      | cons c s =>
        have hzero : c ≠ 0 := hpeek
        -- the delimiters were skipped
        have hdelim : isDelim c = false := by
          have hnot := List.head?_dropWhile_not (fun c => c != 0 && isDelim c) save
          have hhead : (save.dropWhile fun c => c != 0 && isDelim c).head? = some c := by
            unfold afterSpan at hs
            rw [hs, List.head?_cons]
          rw [hhead] at hnot
          simpa [hzero] using hnot
        show (c :: s).takeWhile (fun c => c != 0 && !isDelim c) ≠ []
        rw [List.takeWhile_cons, if_pos (by simp [hzero, hdelim])]
        exact List.cons_ne_nil _ _
    have hend : EndsWord (afterSpan (!isDelim ·) s) := by
      intro c hc
      have hnot := List.head?_dropWhile_not isWordByte s
      have hc' : (s.dropWhile isWordByte).head? = some c := hc
      rw [hc'] at hnot
      simpa using hnot
    refine ⟨htoken, ?_, ?_⟩
    · have hlength := congrArg List.length hsplit
      have hpos : 0 < (span (!isDelim ·) s).val.length := List.length_pos_iff.mpr htoken.1
      rw [List.length_append] at hlength
      split
      · omega
      · rw [List.length_drop]
        omega
    · have hrun := wordIn_run (w := w) htoken hend
      rwa [hsplit] at hrun

variable {k fileIndex lineNo : Int} {fuel : Nat} {o : List Occurrence} {x : Occurrence}

/-- What the two loops add: words of at least `k` bytes of this file. -/
theorem mem_tokenLoop (hfuel : save.length ≤ fuel) :
    x ∈ tokenLoop k fileIndex lineNo fuel save o ↔ x ∈ o ∨
      x.fileIndex = fileIndex ∧ x.lineNo = lineNo ∧ k ≤ toInt x.word.val.length ∧
        WordIn save x.word.val := by
  induction fuel generalizing save o with
  | zero =>
    have hnil : save = [] := List.length_eq_zero_iff.mp (Nat.le_zero.mp hfuel)
    subst hnil
    have hnone : ¬ WordIn [] x.word.val := not_wordIn_of_peek rfl
    simp [tokenLoop, hnone]
  | succ fuel ih =>
    rw [tokenLoop]
    cases htok : strtok_r save with
    | none => simp [strtok_r_none htok]
    | some result =>
      obtain ⟨token, save'⟩ := result
      obtain ⟨-, hlt, hwords⟩ := strtok_r_some (w := x.word.val) htok
      simp only
      rw [ih (by omega), hwords]
      -- a token is kept iff it is long enough
      have hpush : x ∈ (if toInt token.val.length ≥ k then push o token fileIndex lineNo else o) ↔
          x ∈ o ∨ x.fileIndex = fileIndex ∧ x.lineNo = lineNo ∧ k ≤ toInt x.word.val.length ∧
            x.word.val = token.val := by
        obtain ⟨xf, xl, xw⟩ := x
        split
        · rename_i hk
          rw [push, List.mem_append, List.mem_singleton, Occurrence.mk.injEq, Subtype.ext_iff]
          refine or_congr_right ⟨?_, ?_⟩
          · rintro ⟨rfl, rfl, hw⟩
            exact ⟨rfl, rfl, by rw [hw]; exact hk, hw⟩
          · rintro ⟨rfl, rfl, -, hw⟩
            exact ⟨rfl, rfl, hw⟩
        · rename_i hk
          refine ⟨Or.inl, ?_⟩
          rintro (hx | ⟨-, -, hlen, hw⟩)
          · exact hx
          · rw [hw] at hlen
            exact absurd hlen hk
      rw [hpush, or_assoc, ← and_or_left, ← and_or_left, ← and_or_left]

/-! ## The lines of a file -/

variable {line : Nat}

theorem not_wordAt_nil : ¬ WordAt [] line w := by
  rintro ⟨a, l, b, hf, -, -, -, -, -, hw, -⟩
  have hnil := (congrArg List.length hf).symm
  simp only [List.length_append, List.length_nil] at hnil
  exact hw.1 (List.length_eq_zero_iff.mp (by omega))

theorem not_newline_mem_word (hw : IsWord w) : (10 : UInt8) ∉ w := fun h => by
  have hbyte := hw.2 10 h
  exact absurd hbyte Bool.false_ne_true

/-- A file of one line without a newline. -/
theorem wordAt_line (hf : (10 : UInt8) ∉ f) : WordAt f line w ↔ line = 1 ∧ WordIn f w := by
  constructor
  · rintro ⟨a, l, b, rfl, ha, rfl, -, hl, hafter, hw, hb⟩
    have hnil : a = [] := by
      by_contra hne
      have hlast : a.getLast hne = 10 := ha _ (List.getLast?_eq_some_getLast hne)
      exact hf (List.mem_append_left _ (hlast ▸ List.getLast_mem hne))
    rw [hnil]
    exact ⟨rfl, l, b, List.nil_append _, hl, hafter, hw, hb⟩
  · rintro ⟨rfl, l, b, rfl, hl, hafter, hw, hb⟩
    exact ⟨[], l, b, rfl, by simp, rfl, fun h => hf (List.mem_append_left _ h), hl, hafter, hw, hb⟩

/-- What holds no newline ends in front of the first one. -/
theorem before_newline {t b body r : Text} (ht : (10 : UInt8) ∉ t) (h : t ++ b = body ++ 10 :: r) :
    ∃ x, body = t ++ x ∧ b = x ++ 10 :: r := by
  rcases List.append_eq_append_iff.mp h with ⟨x, hx, hb⟩ | ⟨x, hx, hb⟩
  · exact ⟨x, hx, hb⟩
  · cases x with
    | nil => exact ⟨[], by simpa using hx.symm, by simpa using hb.symm⟩
    | cons c x =>
      obtain ⟨rfl, -⟩ := List.cons.inj hb
      exact absurd (by simp [hx]) ht

theorem EndsWord.newline {x r r' : Text} (h : EndsWord (x ++ 10 :: r)) :
    EndsWord (x ++ 10 :: r') := by
  cases x with
  | nil => exact h
  | cons c x => exact h

/-- The words of a line stand in front of its newline. -/
theorem wordAt_cons_line {body r : Text} (hbody : (10 : UInt8) ∉ body) :
    WordAt (body ++ 10 :: r) line w ↔ line = 1 ∧ WordIn (body ++ [10]) w ∨
      ∃ later, line = later + 1 ∧ WordAt r later w := by
  have hcount : body.count 10 = 0 := List.count_eq_zero.mpr hbody
  constructor
  · rintro ⟨a, l, b, hf, ha, rfl, hnl, hl, hafter, hw, hb⟩
    have hlw : (10 : UInt8) ∉ l ++ w := by simp [hnl, not_newline_mem_word hw]
    rcases List.append_eq_append_iff.mp hf with ⟨a', ha', hrest⟩ | ⟨a', ha', hrest⟩
    · cases a' with
      | nil =>
        -- the newline would belong to the word or to what is in front of it
        obtain ⟨x, hx, hb'⟩ := before_newline hlw
          (by rw [List.append_assoc]; exact hrest.symm : l ++ w ++ b = [] ++ 10 :: r)
        obtain ⟨rfl, rfl⟩ := List.append_eq_nil_iff.mp (List.append_eq_nil_iff.mp hx.symm).1
        exact absurd rfl hw.1
      | cons c a' =>
        -- behind the newline
        obtain ⟨rfl, hr⟩ := List.cons.inj hrest
        refine Or.inr ⟨a'.count 10 + 1, ?_, a', l, b, hr, ?_, rfl, hnl, hl, hafter, hw, hb⟩
        · rw [ha', List.count_append, hcount, List.count_cons_self, Nat.zero_add]
        intro d hd
        apply ha d
        rw [ha', List.getLast?_append_of_ne_nil _ (List.cons_ne_nil _ _)]
        cases a' with
        | nil => simp at hd
        | cons e a' => rwa [List.getLast?_cons_cons]
    · -- the line begins with the file
      have hnil : a = [] := by
        by_contra hne
        have hlast : a.getLast hne = 10 := ha _ (List.getLast?_eq_some_getLast hne)
        exact hbody (ha' ▸ List.mem_append_left _ (hlast ▸ List.getLast_mem hne))
      rw [hnil, List.nil_append] at ha'
      rw [← ha', ← List.append_assoc] at hrest
      obtain ⟨x, rfl, rfl⟩ := before_newline hlw hrest
      refine Or.inl ⟨?_, l, x ++ [10], by simp, hl, hafter, hw, hb.newline⟩
      rw [hnil]
      rfl
  · rintro (⟨rfl, l, b, hs, hl, hafter, hw, hb⟩ |
      ⟨later, rfl, a, l, b, rfl, ha, rfl, hnl, hl, hafter, hw, hb⟩)
    · -- what is behind the word ends with the newline
      rcases List.eq_nil_or_concat b with rfl | ⟨x, c, rfl⟩
      · have hlast : w.getLast? = some 10 := by
          rw [← List.getLast?_append_of_ne_nil l hw.1, ← List.append_nil w, ← hs]
          simp
        exact absurd (List.mem_of_getLast? hlast) (not_newline_mem_word hw)
      · rw [List.concat_eq_append] at hs hb
        have hinit : body ++ [10] = l ++ (w ++ x) ++ [c] := by
          rw [hs]
          simp
        obtain ⟨rfl, hc⟩ := List.append_inj' hinit rfl
        obtain rfl : 10 = c := List.singleton_inj.mp hc
        refine ⟨[], l, x ++ 10 :: r, by simp, by simp, rfl, ?_, hl, hafter, hw, hb.newline⟩
        exact fun h => hbody (List.mem_append_left _ h)
    · refine ⟨body ++ 10 :: a, l, b, by simp, ?_, ?_, hnl, hl, hafter, hw, hb⟩
      swap
      · rw [List.count_append, hcount, List.count_cons_self, Nat.zero_add]
      rw [List.getLast?_append_of_ne_nil _ (List.cons_ne_nil _ _)]
      cases a with
      | nil => simp
      | cons c a => rwa [List.getLast?_cons_cons]

/-- One call of `getline`: the words of its line, and those of the rest. -/
theorem getline_some {text rest : Text} (h : getline f = some (text, rest)) :
    rest.length < f.length ∧ (WordAt f line w ↔ line = 1 ∧ WordIn text w ∨
      ∃ later, line = later + 1 ∧ WordAt rest later w) := by
  unfold getline at h
  split at h
  · exact absurd h (by simp)
  · rename_i hne
    obtain ⟨rfl, rfl⟩ := Prod.mk.inj (Option.some.inj h)
    have hsplit : f.takeWhile (· != 10) ++ f.dropWhile (· != 10) = f :=
      List.takeWhile_append_dropWhile
    have hbody : (10 : UInt8) ∉ f.takeWhile (· != 10) := fun h10 => by
      have hnot := List.mem_takeWhile_imp h10
      exact absurd hnot Bool.false_ne_true
    have hlength := congrArg List.length hsplit
    rw [List.length_append] at hlength
    cases hrest : f.dropWhile (· != 10) with
    | nil =>
      -- the last line, without a newline
      rw [hrest, List.append_nil] at hsplit
      rw [hsplit] at hbody ⊢
      refine ⟨List.length_pos_iff.mpr hne, ?_⟩
      rw [wordAt_line hbody, List.take_nil, List.drop_nil, List.append_nil]
      exact (or_iff_left fun ⟨_, _, hnil⟩ => not_wordAt_nil hnil).symm
    | cons c r =>
      have hc : c = 10 := by
        have hnot := List.head?_dropWhile_not (fun c : UInt8 => c != 10) f
        rw [hrest] at hnot
        simpa using hnot
      subst hc
      have hf : f = f.takeWhile (· != 10) ++ 10 :: r := by rw [← hrest, hsplit]
      rw [hrest] at hlength
      refine ⟨?_, ?_⟩
      · show r.length < f.length
        rw [List.length_cons] at hlength
        omega
      · have hline : WordAt (f.takeWhile (· != 10) ++ 10 :: r) line w ↔ _ := wordAt_cons_line hbody
        rwa [← hf] at hline

theorem getline_length {text rest : Text} (h : getline f = some (text, rest)) :
    rest.length < f.length := by
  have hwords : _ ∧ (WordAt f 0 [] ↔ _) := getline_some h
  exact hwords.1

theorem getline_none (h : getline f = none) : ¬ WordAt f line w := by
  unfold getline at h
  split at h
  · rename_i hnil
    rw [hnil]
    exact not_wordAt_nil
  · exact absurd h (by simp)

theorem toInt_toInt_add (x y : Int) : toInt (toInt x + y) = toInt (x + y) := Int.bmod_add_bmod

/-- What the loop over the lines adds, when it starts behind line `lineNo`. -/
theorem mem_lineLoop {lineNo : Int} (hfuel : f.length ≤ fuel) :
    x ∈ lineLoop k fileIndex fuel f lineNo o ↔ x ∈ o ∨
      x.fileIndex = fileIndex ∧ k ≤ toInt x.word.val.length ∧
        ∃ line : Nat, x.lineNo = toInt (lineNo + line) ∧ WordAt f line x.word.val := by
  induction fuel generalizing f lineNo o with
  | zero =>
    have hnil : f = [] := List.length_eq_zero_iff.mp (Nat.le_zero.mp hfuel)
    subst hnil
    exact (or_iff_left fun ⟨_, _, _, _, hword⟩ => not_wordAt_nil hword).symm
  | succ fuel ih =>
    rw [lineLoop]
    cases hget : getline f with
    | none => exact (or_iff_left fun ⟨_, _, _, _, hword⟩ => getline_none hget hword).symm
    | some result =>
      obtain ⟨text, rest⟩ := result
      have hlt := getline_length hget
      simp only
      rw [ih (by omega), mem_tokenLoop le_rfl, or_assoc]
      refine or_congr_right ?_
      constructor
      · rintro (⟨hfile, hline, hlen, hword⟩ | ⟨hfile, hlen, later, hline, hword⟩)
        · exact ⟨hfile, hlen, 1, hline, (getline_some hget).2.mpr (Or.inl ⟨rfl, hword⟩)⟩
        · refine ⟨hfile, hlen, later + 1, ?_,
            (getline_some hget).2.mpr (Or.inr ⟨later, rfl, hword⟩)⟩
          rw [hline, toInt_toInt_add]
          push_cast
          rw [add_assoc, add_comm 1]
      · rintro ⟨hfile, hlen, line, hline, hword⟩
        rcases (getline_some hget).2.mp hword with ⟨rfl, hhere⟩ | ⟨later, rfl, hthere⟩
        · exact Or.inl ⟨hfile, hline, hlen, hhere⟩
        · refine Or.inr ⟨hfile, hlen, later, ?_, hthere⟩
          rw [hline, toInt_toInt_add]
          push_cast
          rw [add_assoc, add_comm 1]

/-- The loops collect the words of a file that are long enough, each with its line. -/
theorem mem_collect : x ∈ collect k fileIndex f ↔
    x.fileIndex = fileIndex ∧ k ≤ toInt x.word.val.length ∧
      ∃ line : Nat, x.lineNo = toInt line ∧ WordAt f line x.word.val := by
  rw [collect, mem_lineLoop le_rfl, or_iff_right List.not_mem_nil]
  simp only [Int.zero_add]

end OsProjects.Findlw
