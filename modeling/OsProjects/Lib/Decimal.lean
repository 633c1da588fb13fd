import Mathlib.Data.Nat.Digits.Lemmas

/-!
# Decimal numerals

Numbers as text: `decimal` is the numeral of a natural number, `formatInt` puts
the sign in front (`%d`), and `readInt` reads an optional sign and as many digits
as there are, as the C conversions do. `readInt_formatInt` is the round trip, with
anything that does not continue the number behind it.
-/

namespace OsProjects.Decimal

/-- The digit `d` as a character. -/
def digitByte (d : Nat) : UInt8 := UInt8.ofNat (48 + d)

def isDigit (c : UInt8) : Bool := 48 ≤ c && c ≤ 57

/-- The numeral of a natural number, most significant digit first. -/
def decimal (n : Nat) : List UInt8 :=
  if n = 0 then [digitByte 0] else (Nat.digits 10 n).reverse.map digitByte

/-- The number a word of digits stands for. -/
def digitsValue (l : List UInt8) : Nat := l.foldl (fun v c => 10 * v + (c.toNat - 48)) 0

/-- `%d` -/
def formatInt (x : Int) : List UInt8 :=
  if x < 0 then 45 :: decimal x.natAbs else decimal x.natAbs

/-- The sign in front of a number, and what is behind it. -/
def readSign : List UInt8 → Bool × List UInt8
  | [] => (false, [])
  | c :: p => if c = 45 then (true, p) else if c = 43 then (false, p) else (false, c :: p)

/-- An optional sign and at least one digit, and what is behind them. -/
def readInt (p : List UInt8) : Option (Int × List UInt8) :=
  let (negative, p) := readSign p
  let digits := p.takeWhile isDigit
  if digits = [] then none
  else
    let value : Int := digitsValue digits
    some (if negative then -value else value, p.dropWhile isDigit)

theorem digitByte_toNat {d : Nat} (hd : d < 10) : (digitByte d).toNat = 48 + d := by
  rw [digitByte, UInt8.toNat_ofNat']
  omega

theorem isDigit_digitByte {d : Nat} (hd : d < 10) : isDigit (digitByte d) = true := by
  have htoNat := digitByte_toNat hd
  rw [isDigit, Bool.and_eq_true, decide_eq_true_eq, decide_eq_true_eq, UInt8.le_iff_toNat_le,
    UInt8.le_iff_toNat_le, htoNat]
  exact ⟨Nat.le_add_right _ _, by show 48 + d ≤ 57; omega⟩

theorem isDigit_of_mem_decimal {n : Nat} {c : UInt8} (hc : c ∈ decimal n) : isDigit c = true := by
  unfold decimal at hc
  split at hc
  · rw [List.mem_singleton.mp hc]
    exact isDigit_digitByte (by omega)
  · obtain ⟨d, hd, rfl⟩ := List.mem_map.mp hc
    exact isDigit_digitByte (Nat.digits_lt_base (by omega) (List.mem_reverse.mp hd))

theorem decimal_ne_nil (n : Nat) : decimal n ≠ [] := by
  unfold decimal
  split
  · exact List.cons_ne_nil _ _
  · rename_i hn
    have hdigits : Nat.digits 10 n ≠ [] := fun h => hn (Nat.digits_eq_nil_iff_eq_zero.mp h)
    simpa using hdigits

/-- Only digits and the minus sign. -/
theorem mem_formatInt {x : Int} {c : UInt8} (hc : c ∈ formatInt x) : c = 45 ∨ isDigit c = true := by
  unfold formatInt at hc
  split at hc
  · rcases List.mem_cons.mp hc with hc | hc
    · exact Or.inl hc
    · exact Or.inr (isDigit_of_mem_decimal hc)
  · exact Or.inr (isDigit_of_mem_decimal hc)

theorem formatInt_ne_nil (x : Int) : formatInt x ≠ [] := by
  unfold formatInt
  split
  · exact List.cons_ne_nil _ _
  · exact decimal_ne_nil _

/-- The value is built from the front, the digits of `Nat.digits` from the back. -/
theorem digitsValue_map (l : List Nat) (h : ∀ d ∈ l, d < 10) :
    digitsValue (l.reverse.map digitByte) = Nat.ofDigits 10 l := by
  induction l with
  | nil => rfl
  | cons d l ih =>
    have hrest := ih fun x hx => h x (List.mem_cons_of_mem _ hx)
    unfold digitsValue at hrest ⊢
    rw [List.reverse_cons, List.map_append, List.foldl_append, hrest, Nat.ofDigits_cons]
    show 10 * Nat.ofDigits 10 l + ((digitByte d).toNat - 48) = d + 10 * Nat.ofDigits 10 l
    rw [digitByte_toNat (h d List.mem_cons_self)]
    omega

theorem digitsValue_decimal (n : Nat) : digitsValue (decimal n) = n := by
  unfold decimal
  split
  · rename_i hn
    rw [hn]
    rfl
  · rw [digitsValue_map _ fun d hd => Nat.digits_lt_base (by omega) hd, Nat.ofDigits_digits]

/-- A word of `p` bytes in front of something that is not one. -/
theorem takeWhile_word {α : Type*} {p : α → Bool} {w rest : List α} (hw : ∀ c ∈ w, p c = true)
    (hrest : ∀ c ∈ rest.head?, p c = false) :
    (w ++ rest).takeWhile p = w ∧ (w ++ rest).dropWhile p = rest := by
  rw [List.takeWhile_append_of_pos hw, List.dropWhile_append_of_pos hw]
  cases rest with
  | nil => simp
  | cons c rest =>
    have hc : p c = false := hrest c rfl
    simp [hc]

theorem readSign_of_digit {c : UInt8} {p : List UInt8} (hc : isDigit c = true) :
    readSign (c :: p) = (false, c :: p) := by
  have h45 : c ≠ 45 := fun h => by rw [h] at hc; exact absurd hc Bool.false_ne_true
  have h43 : c ≠ 43 := fun h => by rw [h] at hc; exact absurd hc Bool.false_ne_true
  rw [readSign, if_neg h45, if_neg h43]

/-- The digits of a numeral, behind the sign. -/
theorem readDigits_decimal (n : Nat) {rest : List UInt8}
    (hrest : ∀ c ∈ rest.head?, isDigit c = false) :
    (decimal n ++ rest).takeWhile isDigit = decimal n ∧
      (decimal n ++ rest).dropWhile isDigit = rest :=
  takeWhile_word (fun _ hc => isDigit_of_mem_decimal hc) hrest

theorem readInt_formatInt (x : Int) {rest : List UInt8}
    (hrest : ∀ c ∈ rest.head?, isDigit c = false) :
    readInt (formatInt x ++ rest) = some (x, rest) := by
  obtain ⟨htake, hdrop⟩ := readDigits_decimal x.natAbs hrest
  unfold formatInt
  split
  · rename_i hx
    have hsign : readSign (45 :: decimal x.natAbs ++ rest) = (true, decimal x.natAbs ++ rest) := rfl
    simp only [readInt, hsign, htake, hdrop, if_neg (decimal_ne_nil _), digitsValue_decimal,
      if_true]
    congr 2
    omega
  · -- no sign is written, and a digit is not read as one
    rename_i hx
    have hsign : readSign (decimal x.natAbs ++ rest) = (false, decimal x.natAbs ++ rest) := by
      obtain ⟨c, w, hw⟩ := List.exists_cons_of_ne_nil (decimal_ne_nil x.natAbs)
      have hc : isDigit c = true := isDigit_of_mem_decimal (hw ▸ List.mem_cons_self)
      rw [hw, List.cons_append]
      exact readSign_of_digit hc
    simp only [readInt, hsign, htake, hdrop, if_neg (decimal_ne_nil _), digitsValue_decimal]
    congr 2
    simp only [Bool.false_eq_true, if_false]
    omega

end OsProjects.Decimal
