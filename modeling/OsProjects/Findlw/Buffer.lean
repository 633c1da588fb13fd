import OsProjects.Findlw.Pipes
import OsProjects.Lib.Lines

/-!
# Buffer — what one `read` leaves in the parent's buffer

Between two reads the buffer of a pipe holds the unfinished line and nothing else
(`Inbox.Holds`). `receive_spec` is the whole treatment of one read: no access
leaves the allocation, the lines handed on are the complete lines of the
unfinished one followed by the new bytes, and the new unfinished line is again
what the buffer holds.
-/

namespace OsProjects.Findlw

/-! ## Loads and stores inside the allocation -/

theorem load_eq {mem : Text} {off count : Nat} (h : off + count ≤ mem.length) :
    load mem off count = some ((mem.drop off).take count) := if_pos h

/-- A store inside the allocation changes the bytes it writes, and no other. -/
theorem store_spec (mem src : Text) (off : Nat) (h : off + src.length ≤ mem.length) :
    ∃ mem', store mem off src = some mem' ∧ mem'.length = mem.length ∧
      mem'.take (off + src.length) = mem.take off ++ src ∧
      mem'.drop (off + src.length) = mem.drop (off + src.length) := by
  have htake : (mem.take off ++ src).length = off + src.length := by
    rw [List.length_append, List.length_take]
    omega
  refine ⟨_, if_pos h, ?_, ?_, ?_⟩
  · rw [List.length_append, htake, List.length_drop]
    omega
  · rw [← htake, List.take_left]
  · rw [← htake, List.drop_left, htake]

/-- Bytes in front of an unchanged position are unchanged. -/
theorem take_of_take {mem' x y : Text} {off : Nat} (h : mem'.take off = x ++ y) {k : Nat}
    (hk : k ≤ x.length) (hoff : k ≤ off) : mem'.take k = x.take k := by
  have hcut : (mem'.take off).take k = mem'.take k := by rw [List.take_take, Nat.min_eq_left hoff]
  rw [← hcut, h, List.take_append_of_le_length hk]

/-! ## Growing -/

theorem growCap_spec (need fuel newCap : Nat) (hpos : 0 < newCap) (hfuel : need - newCap < fuel) :
    ∃ c, growCap need fuel newCap = some c ∧ need ≤ c ∧ newCap ≤ c := by
  induction fuel generalizing newCap with
  | zero => omega
  | succ fuel ih =>
    rw [growCap]
    split
    · obtain ⟨c, hc, hneed, hle⟩ := ih (newCap * 2) (by omega) (by omega)
      exact ⟨c, hc, hneed, by omega⟩
    · exact ⟨newCap, rfl, by omega, le_rfl⟩

/-- Between two reads: the buffer is the unfinished line `tail`. -/
structure Inbox.Holds (box : Inbox) (tail : Text) : Prop where
  size : box.mem.length = box.cap
  room : box.len ≤ box.cap
  take_len : box.mem.take box.len = tail

theorem Inbox.Holds.length {box : Inbox} {tail : Text} (h : box.Holds tail) :
    tail.length = box.len := by
  rw [← h.take_len, List.length_take, h.size]
  exact Nat.min_eq_left h.room

theorem ensureRoom_spec (fresh : Nat → UInt8) {box : Inbox} {tail : Text} (h : box.Holds tail)
    (r : Nat) : ∃ box', ensureRoom fresh box r = some box' ∧ box'.Holds tail ∧ box'.len = box.len ∧
      box'.closed = box.closed ∧ box.len + r + 1 ≤ box'.cap := by
  unfold ensureRoom
  by_cases hneed : box.len + r + 1 > box.cap
  · obtain ⟨c, hc, hle, hcap⟩ := growCap_spec (box.len + r + 1) (box.len + r + 1 + 1)
      (if box.cap = 0 then 1024 else box.cap * 2)
      (by split <;> omega) (by omega)
    -- `realloc` keeps the bytes, because the buffer only grows
    have hgrow : box.cap ≤ c := by
      split at hcap <;> omega
    refine ⟨{ box with mem := realloc fresh box.mem c, cap := c }, ?_, ⟨?_, ?_, ?_⟩, rfl, rfl, hle⟩
    · simp only [if_pos hneed, hc, Option.map_some]
    · show (box.mem ++ _).length = c
      rw [List.length_append, List.length_map, List.length_range', h.size]
      omega
    · show box.len ≤ c
      exact h.room.trans hgrow
    · show (box.mem ++ _).take box.len = tail
      rw [List.take_append_of_le_length (h.size ▸ h.room), h.take_len]
  · refine ⟨box, if_neg hneed, h, rfl, rfl, ?_⟩
    omega

/-! ## The scan for newlines -/

/-- `memchr` splits what is left at the first newline. -/
theorem split_idxOf? {rest : Text} {d : Nat} (h : rest.idxOf? 10 = some d) :
    d < rest.length ∧ rest = rest.take d ++ 10 :: rest.drop (d + 1) ∧
      (10 : UInt8) ∉ rest.take d := by
  obtain ⟨hd, hat, hbefore⟩ := List.findIdx?_eq_some_iff_getElem.mp h
  have hget : rest[d] = 10 := eq_of_beq hat
  refine ⟨hd, ?_, ?_⟩
  · rw [← hget, ← List.drop_eq_getElem_cons hd, List.take_append_drop]
  · intro hmem
    obtain ⟨j, hj, hval⟩ := List.mem_iff_getElem.mp hmem
    rw [List.length_take] at hj
    have hlt : j < d := by omega
    rw [List.getElem_take] at hval
    have hnot := hbefore j hlt
    rw [hval] at hnot
    exact hnot rfl

theorem pushParsed_eq (all : List Occurrence) (line : Text) :
    pushParsed all line = all ++ [line].filterMap parse_record_line := by
  unfold pushParsed
  cases hparse : parse_record_line line with
  | none => simp [hparse]
  | some o => simp [hparse, push]

/-- The scan over what is left from `start` on. Every line is handed on once, and
the bytes behind its newline are untouched. -/
theorem scanLines_spec (len fuel : Nat) (s : Scanned) (hstart : s.start ≤ len)
    (hlen : len ≤ s.mem.length) (hfuel : len - s.start < fuel) :
    ∃ s' lines, scanLines len fuel s = some s' ∧ s'.lines = s.lines ++ lines ∧
      s'.all = s.all ++ lines.filterMap parse_record_line ∧ s'.mem.length = s.mem.length ∧
      s'.start ≤ len ∧
      Lines 10 ((s.mem.drop s.start).take (len - s.start)) lines
        ((s'.mem.drop s'.start).take (len - s'.start)) := by
  induction fuel generalizing s with
  | zero => omega
  | succ fuel ih =>
    have hload : load s.mem s.start (len - s.start) =
        some ((s.mem.drop s.start).take (len - s.start)) := load_eq (by omega)
    generalize hrest : (s.mem.drop s.start).take (len - s.start) = rest at hload ⊢
    have hrestlen : rest.length = len - s.start := by
      rw [← hrest, List.length_take, List.length_drop]
      omega
    rw [scanLines, hload]
    cases hidx : rest.idxOf? 10 with
    | none =>
      have hnone : (10 : UInt8) ∉ rest := List.idxOf?_eq_none_iff.mp hidx
      refine ⟨s, [], by simp [hidx], by simp, by simp, rfl, hstart, ?_⟩
      rw [hrest]
      exact Lines.of_tail hnone
    | some d =>
      obtain ⟨hd, hsplit, hfree⟩ := split_idxOf? hidx
      -- the newline becomes the terminator of the line
      obtain ⟨mem, hstore, hmemlen, htake, hdrop⟩ :=
        store_spec s.mem [0] (s.start + d) (by simp; omega)
      simp only [List.length_singleton] at htake hdrop
      have hline : (mem.drop s.start).take d = rest.take d := by
        have hfront : mem.take (s.start + d) = s.mem.take (s.start + d) := by
          have hcut := take_of_take (k := s.start + d) htake
            (by rw [List.length_take]; omega) (by omega)
          rwa [List.take_take, Nat.min_self] at hcut
        rw [← hrest, List.take_take, Nat.min_eq_left (by omega), List.take_drop, List.take_drop,
          hfront]
      have hbehind : (mem.drop (s.start + d + 1)).take (len - (s.start + d + 1)) =
          rest.drop (d + 1) := by
        rw [hdrop, ← hrest, List.drop_take, List.drop_drop]
        congr 1
        · omega
      obtain ⟨s', lines, hscan, hlines, hall, hlen', hstart', htail⟩ :=
        ih ⟨mem, s.start + d + 1, s.lines ++ [rest.take d], pushParsed s.all (rest.take d)⟩
          (by show s.start + d + 1 ≤ len; omega) (by show len ≤ mem.length; omega)
          (by show len - (s.start + d + 1) < fuel; omega)
      refine ⟨s', rest.take d :: lines, ?_, ?_, ?_, ?_, hstart', ?_⟩
      · have hload' : load mem s.start d = some (rest.take d) := by
          rw [load_eq (by omega), hline]
        simpa [hidx, hstore, hload'] using hscan
      · simp [hlines]
      · rw [hall, pushParsed_eq, List.append_assoc, ← List.filterMap_append, List.singleton_append]
      · rw [hlen', ← hmemlen]
      · have htail' : Lines 10 (rest.drop (d + 1)) lines
            ((s'.mem.drop s'.start).take (len - s'.start)) := by
          rw [← hbehind]
          exact htail
        have hcons := htail'.cons hfree
        rwa [← hsplit] at hcons

/-! ## One read -/

/-- The terminator behind the text leaves the text alone. -/
theorem store_nul (mem : Text) (off : Nat) (h : off < mem.length) :
    ∃ mem', store mem off [0] = some mem' ∧ mem'.length = mem.length ∧
      mem'.take off = mem.take off := by
  obtain ⟨mem', hstore, hlength, htake, -⟩ :=
    store_spec mem [0] off (by simpa using h)
  refine ⟨mem', hstore, hlength, ?_⟩
  have hcut := take_of_take (k := off) htake (by rw [List.length_take]; omega) (by simp)
  rwa [List.take_take, Nat.min_self] at hcut

/-- The rest of the buffer moved to its beginning, as far as there is a rest and it
is not there already. -/
theorem moveRest_spec (mem : Text) {tail : Text} (start remaining : Nat)
    (hbound : start + remaining ≤ mem.length)
    (htail : (mem.drop start).take remaining = tail) :
    ∃ mem', moveRest mem start remaining = some mem' ∧ mem'.length = mem.length ∧
      mem'.take remaining = tail := by
  have hlength : tail.length = remaining := by
    rw [← htail, List.length_take, List.length_drop]
    omega
  unfold moveRest
  by_cases hmove : remaining > 0 ∧ start ≠ 0
  · rw [if_pos hmove, load_eq hbound, htail]
    obtain ⟨mem', hstore, hlen', htake, -⟩ :=
      store_spec mem tail 0 (by omega)
    refine ⟨mem', hstore, hlen', ?_⟩
    rwa [Nat.zero_add, hlength, List.take_zero, List.nil_append] at htake
  · refine ⟨mem, if_neg hmove, rfl, ?_⟩
    -- nothing is left, or it is at the beginning
    rcases Nat.eq_zero_or_pos remaining with hzero | hpos
    · subst hzero
      rw [List.take_zero] at htail ⊢
      exact htail
    · have hstart : start = 0 := by
        by_contra hne
        exact hmove ⟨hpos, hne⟩
      rwa [hstart, List.drop_zero] at htail

/-- The bytes of one read complete some lines, which are handed on, and leave a new
unfinished one. -/
theorem receive_spec (fresh : Nat → UInt8) {box : Inbox} {tail : Text} (h : box.Holds tail)
    (tmp : Text) (all : List Occurrence) :
    ∃ box' lines tail', receive fresh box tmp all =
        some (box', lines, all ++ lines.filterMap parse_record_line) ∧
      box'.Holds tail' ∧ box'.closed = box.closed ∧ Lines 10 (tail ++ tmp) lines tail' := by
  obtain ⟨box₁, hroom, hbox₁, hlen₁, hclosed, hcap⟩ := ensureRoom_spec fresh h tmp.length
  have hsize := hbox₁.size
  -- the new bytes behind the unfinished line, and a terminator behind them
  obtain ⟨mem₁, hstore₁, hlength₁, htake₁, -⟩ :=
    store_spec box₁.mem tmp box₁.len (by omega)
  obtain ⟨mem₂, hstore₂, hlength₂, htake₂⟩ :=
    store_nul mem₁ (box₁.len + tmp.length) (by omega)
  have htext : (mem₂.drop 0).take (box₁.len + tmp.length - 0) = tail ++ tmp := by
    rw [List.drop_zero, Nat.sub_zero, htake₂, htake₁, hbox₁.take_len]
  obtain ⟨s, lines, hscan, hlines, hall, hlength₃, hstart, hrest⟩ :=
    scanLines_spec (box₁.len + tmp.length) (box₁.len + tmp.length + 1) ⟨mem₂, 0, [], all⟩
      (Nat.zero_le _) (by show _ ≤ mem₂.length; omega)
      (by show _ - 0 < _; omega)
  replace hlength₃ : s.mem.length = mem₂.length := hlength₃
  obtain ⟨mem₃, hmove, hlength₄, htake₄⟩ :=
    moveRest_spec s.mem s.start (box₁.len + tmp.length - s.start) (by omega) rfl
  obtain ⟨mem₄, hstore₅, hlength₅, htake₅⟩ :=
    store_nul mem₃ (box₁.len + tmp.length - s.start) (by omega)
  refine ⟨{ box₁ with mem := mem₄, len := box₁.len + tmp.length - s.start }, lines,
    (s.mem.drop s.start).take (box₁.len + tmp.length - s.start), ?_, ⟨?_, ?_, ?_⟩, hclosed, ?_⟩
  · rw [List.nil_append] at hlines
    simp only [receive, hroom, hstore₁, hstore₂, hscan, hmove, hstore₅, hlines, hall,
      Option.bind_eq_bind, Option.bind_some]
  · show mem₄.length = box₁.cap
    omega
  · show box₁.len + tmp.length - s.start ≤ box₁.cap
    omega
  · show mem₄.take (box₁.len + tmp.length - s.start) = _
    rw [htake₅, htake₄]
  · rw [← htext]
    exact hrest

end OsProjects.Findlw
