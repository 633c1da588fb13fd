import OsProjects.Lib.Bytes

/-!
# C strings — NUL-terminated text in a byte area

`CString` is the text itself, which holds no NUL. The area that stores it may hold
anything: `strEq` compares byte by byte from an address on, as `strcmp` does, and
`readString` collects the bytes up to the first NUL. `strncpy` is the padded copy,
and `strEq_strncpy` / `readString_strncpy` say that a text shorter than its field
comes back unchanged.
-/

namespace OsProjects

/-- The text of a C string. -/
abbrev CString := { text : List UInt8 // 0 ∉ text }

namespace Bytes

/-- `strcmp(mem, s) == 0`. -/
def strEq (mem : Bytes) : List UInt8 → Bool
  | [] => mem 0 == 0
  | c :: s => mem 0 == c && strEq (slice mem 1) s

/-- The text at the start of the area, at most `limit` bytes of it. -/
def readString (mem : Bytes) : Nat → List UInt8
  | 0 => []
  | limit + 1 => if mem 0 = 0 then [] else mem 0 :: readString (slice mem 1) limit

/-- What `strncpy(_, s, n)` leaves in a field of zeroes. -/
def strncpy (s : List UInt8) (n : Nat) : Bytes := fun i => if i < n then s.getD i 0 else 0

theorem strEq_iff {mem : Bytes} {s : List UInt8} :
    strEq mem s = true ↔ (∀ i (h : i < s.length), mem i = s[i]) ∧ mem s.length = 0 := by
  induction s generalizing mem with
  | nil => simp [strEq]
  | cons c s ih =>
    rw [strEq, Bool.and_eq_true, beq_iff_eq, ih]
    constructor
    · rintro ⟨hc, hrest, hnul⟩
      refine ⟨fun i hi => ?_, ?_⟩
      -- the head byte, or a byte of the rest
      · cases i with
        | zero => simpa using hc
        | succ i =>
          have htail := hrest i (by simpa using hi)
          rwa [slice_apply, Nat.add_comm] at htail
      · rwa [slice_apply, Nat.add_comm] at hnul
    · rintro ⟨hall, hnul⟩
      refine ⟨hall 0 (Nat.succ_pos _), ?_, ?_⟩
      · intro i hi
        rw [slice_apply, Nat.add_comm]
        exact hall (i + 1) (by simpa using hi)
      · rwa [slice_apply, Nat.add_comm]

theorem strncpy_of_lt {s : List UInt8} {n i : Nat} (hs : s.length ≤ n) (hi : i < s.length) :
    strncpy s n i = s[i] := by
  rw [strncpy, if_pos (by omega), List.getD_eq_getElem _ _ hi]

theorem strncpy_of_ge {s : List UInt8} {n i : Nat} (hi : s.length ≤ i) : strncpy s n i = 0 := by
  rw [strncpy, List.getD_eq_default _ _ hi, ite_self]

/-- The width of the field does not matter for a text that fits. -/
theorem strncpy_eq {s : List UInt8} {m n : Nat} (hm : s.length ≤ m) (hn : s.length ≤ n) :
    strncpy s m = strncpy s n := by
  funext i
  rcases Nat.lt_or_ge i s.length with hi | hi
  · rw [strncpy_of_lt hm hi, strncpy_of_lt hn hi]
  · rw [strncpy_of_ge hi, strncpy_of_ge hi]

/-- A stored text equals exactly itself. -/
theorem strEq_of_stored {mem : Bytes} {t s : List UInt8} (ht : 0 ∉ t) (hs : 0 ∉ s)
    (hmem : ∀ i (h : i < t.length), mem i = t[i]) (hnul : mem t.length = 0) :
    strEq mem s = true ↔ s = t := by
  constructor
  · intro h
    obtain ⟨hall, hend⟩ := strEq_iff.mp h
    -- neither text can go on where the other one ends
    have hlen : s.length = t.length := by
      rcases Nat.lt_trichotomy s.length t.length with hlt | heq | hgt
      · exact absurd (List.mem_iff_getElem.mpr ⟨s.length, hlt, by rw [← hmem _ hlt, hend]⟩) ht
      · exact heq
      · exact absurd (List.mem_iff_getElem.mpr ⟨t.length, hgt, by rw [← hall _ hgt, hnul]⟩) hs
    exact List.ext_getElem hlen fun i hi hi' => by rw [← hall i hi, hmem i hi']
  · rintro rfl
    exact strEq_iff.mpr ⟨hmem, hnul⟩

theorem readString_of_stored {mem : Bytes} {t : List UInt8} {limit : Nat} (ht : 0 ∉ t)
    (hmem : ∀ i (h : i < t.length), mem i = t[i]) (hnul : mem t.length = 0)
    (hlimit : t.length < limit) : readString mem limit = t := by
  induction t generalizing mem limit with
  | nil =>
    cases limit with
    | zero => simp at hlimit
    | succ limit => simpa [readString] using hnul
  | cons c t ih =>
    cases limit with
    | zero => simp at hlimit
    | succ limit =>
      have hhead : mem 0 = c := hmem 0 (by simp)
      -- no NUL inside the text, so the reader goes on
      have hc : c ≠ 0 := fun h => ht (by simp [h])
      have htail : readString (slice mem 1) limit = t :=
        ih (fun h => ht (List.mem_cons_of_mem c h))
          (fun i hi => by
            rw [slice_apply, Nat.add_comm]
            exact hmem (i + 1) (by simpa using hi))
          (by
            rw [slice_apply, Nat.add_comm]
            exact hnul)
          (by simpa using hlimit)
      rw [readString, hhead, if_neg hc, htail]

end Bytes

end OsProjects
