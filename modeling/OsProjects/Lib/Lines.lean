import Mathlib.Data.List.Basic

/-!
# Lines — a stream cut at a separator

A stream of records, each followed by a separator, is read in pieces that
respect no record boundary. `Lines sep s bodies tail` says what such a stream
means: the records of `s` that are complete, in order, and the unfinished rest.

* `Lines.unique` — a stream means one thing;
* `Lines.append` — reading on from the unfinished rest only;
* `Lines.eq_records` — a stream written as records is read back as these
  records, with no rest.
-/

namespace OsProjects

variable {α : Type*} {sep : α}

/-- Every record followed by the separator. -/
def Lines.join (sep : α) (records : List (List α)) : List α := (records.map (· ++ [sep])).flatten

/-- The stream `s` holds the complete records `bodies`, then the beginning `tail`
of one more. -/
structure Lines (sep : α) (s : List α) (bodies : List (List α)) (tail : List α) : Prop where
  eq_join : s = Lines.join sep bodies ++ tail
  bodies_sep : ∀ r ∈ bodies, sep ∉ r
  tail_sep : sep ∉ tail

namespace Lines

@[simp] theorem join_nil : join sep ([] : List (List α)) = [] := rfl

@[simp] theorem join_cons (r : List α) (rs : List (List α)) :
    join sep (r :: rs) = r ++ sep :: join sep rs := by
  simp [join]

theorem join_append (rs rs' : List (List α)) :
    join sep (rs ++ rs') = join sep rs ++ join sep rs' := by
  simp [join]

variable {s u tail tail' : List α} {bodies bodies' : List (List α)}

theorem of_tail (h : sep ∉ s) : Lines sep s [] s :=
  ⟨rfl, fun _ hr => absurd hr (List.not_mem_nil), h⟩

theorem of_records (h : ∀ r ∈ bodies, sep ∉ r) : Lines sep (join sep bodies) bodies [] :=
  ⟨(List.append_nil _).symm, h, List.not_mem_nil⟩

/-- One more record in front. -/
theorem cons {r : List α} (hr : sep ∉ r) (h : Lines sep s bodies tail) :
    Lines sep (r ++ sep :: s) (r :: bodies) tail := by
  refine ⟨?_, ?_, h.tail_sep⟩
  · rw [h.eq_join, join_cons, List.append_assoc, List.cons_append]
  · intro x hx
    rcases List.mem_cons.mp hx with rfl | hx
    · exact hr
    · exact h.bodies_sep x hx

/-- What came later is read together with the unfinished rest, and with nothing
that came before it. -/
theorem append (h : Lines sep s bodies tail) (h' : Lines sep (tail ++ u) bodies' tail') :
    Lines sep (s ++ u) (bodies ++ bodies') tail' := by
  refine ⟨?_, ?_, h'.tail_sep⟩
  · rw [h.eq_join, List.append_assoc, h'.eq_join, join_append, List.append_assoc]
  · intro r hr
    rcases List.mem_append.mp hr with hr | hr
    · exact h.bodies_sep r hr
    · exact h'.bodies_sep r hr

/-- Two streams that agree up to the first separator of each. -/
private theorem append_sep_inj {a b x y : List α} (ha : sep ∉ a) (hb : sep ∉ b)
    (h : a ++ sep :: x = b ++ sep :: y) : a = b ∧ x = y := by
  -- on the first line; where one of the two ends, the other does
  induction a generalizing b with
  | nil =>
    cases b with
    | nil => simpa using h
    | cons c b =>
      have hc : sep = c := by simpa using (List.cons.inj h).1
      exact absurd (hc ▸ List.mem_cons_self) hb
  | cons d a ih =>
    cases b with
    | nil =>
      have hd : d = sep := by simpa using (List.cons.inj h).1
      exact absurd (hd ▸ List.mem_cons_self) ha
    | cons c b =>
      obtain ⟨rfl, hrest⟩ := List.cons.inj h
      obtain ⟨rfl, rfl⟩ := ih (fun hm => ha (List.mem_cons_of_mem _ hm))
        (fun hm => hb (List.mem_cons_of_mem _ hm)) hrest
      exact ⟨rfl, rfl⟩

theorem unique (h : Lines sep s bodies tail) (h' : Lines sep s bodies' tail') :
    bodies = bodies' ∧ tail = tail' := by
  induction bodies generalizing s bodies' with
  | nil =>
    have hs : s = tail := h.eq_join
    cases bodies' with
    | nil => exact ⟨rfl, hs.symm.trans h'.eq_join⟩
    | cons r rs =>
      have hsep : sep ∈ tail := by
        rw [← hs, h'.eq_join, join_cons]
        simp
      exact absurd hsep h.tail_sep
  | cons r rs ih =>
    have hs : s = r ++ sep :: (join sep rs ++ tail) := by
      rw [h.eq_join, join_cons, List.append_assoc, List.cons_append]
    cases bodies' with
    | nil =>
      have hs' : s = tail' := h'.eq_join
      have hsep : sep ∈ tail' := by
        rw [← hs', hs]
        simp
      exact absurd hsep h'.tail_sep
    | cons r' rs' =>
      have hs' : s = r' ++ sep :: (join sep rs' ++ tail') := by
        rw [h'.eq_join, join_cons, List.append_assoc, List.cons_append]
      obtain ⟨rfl, hrest⟩ := append_sep_inj (h.bodies_sep r List.mem_cons_self)
        (h'.bodies_sep r' List.mem_cons_self) (hs.symm.trans hs')
      -- the rest of the stream after the first record
      have hin : ∀ x ∈ rs, sep ∉ x := fun x hx => h.bodies_sep x (List.mem_cons_of_mem _ hx)
      have hin' : ∀ x ∈ rs', sep ∉ x := fun x hx => h'.bodies_sep x (List.mem_cons_of_mem _ hx)
      obtain ⟨rfl, htail⟩ := ih ⟨rfl, hin, h.tail_sep⟩ ⟨hrest, hin', h'.tail_sep⟩
      exact ⟨rfl, htail⟩

/-- The records that were written are the records that are read. -/
theorem eq_records {records : List (List α)} (hrec : ∀ r ∈ records, sep ∉ r)
    (h : Lines sep (join sep records) bodies tail) : bodies = records ∧ tail = [] :=
  h.unique (Lines.of_records hrec)

end Lines

end OsProjects
