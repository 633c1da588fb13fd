import Mathlib.Data.Nat.Bitwise
import Mathlib.Logic.Equiv.Defs
import Mathlib.Tactic.Ring

/-!
# Byte areas — fixed-width fields, records laid over bytes, arrays of records

A C program that keeps structures in a raw buffer reads and writes them through
casts. `Bytes` is such a buffer, addressed from 0, and a `Layout` says how one
value of a type lies over a fixed number of its bytes. The round-trip laws of a
layout are fields of the structure, so a layout that loses information cannot be
built.

* `Layout.uint8`, `Layout.uint32`, `Layout.uint64`, `Layout.array` — the scalar
  layouts (little endian) and the byte arrays.
* `Layout.prod`, `Layout.map` — structures, field by field.
* `getRec` / `putRec` — the `k`-th record of an array of records, with the
  same-record and other-record laws, and `eq_of_getRec`: equal records are equal
  bytes.
* `getBit` / `setBit` — a bitmap over the same bytes.
-/

namespace OsProjects

/-- A byte buffer addressed from 0. -/
abbrev Bytes := Nat → UInt8

namespace Bytes

/-- The area filled by `memset(_, 0, _)`. -/
def zero : Bytes := fun _ => 0

/-- The bytes from address `off` on. -/
def slice (b : Bytes) (off : Nat) : Bytes := fun i => b (off + i)

/-- `memcpy(dst + off, src, len)`. -/
def blit (dst : Bytes) (off len : Nat) (src : Bytes) : Bytes :=
  fun i => if off ≤ i ∧ i < off + len then src (i - off) else dst i

theorem blit_inside {dst src : Bytes} {off len i : Nat} (hi : i < len) :
    blit dst off len src (off + i) = src i := by
  simp [blit, hi]

theorem blit_outside {dst src : Bytes} {off len i : Nat} (hi : i < off ∨ off + len ≤ i) :
    blit dst off len src i = dst i := by
  unfold blit
  rw [if_neg (by omega)]

theorem blit_congr {dst src src' : Bytes} {off len : Nat} (h : ∀ i < len, src i = src' i) :
    blit dst off len src = blit dst off len src' := by
  funext i
  unfold blit
  by_cases hi : off ≤ i ∧ i < off + len
  · rw [if_pos hi, if_pos hi, h _ (by omega)]
  · rw [if_neg hi, if_neg hi]

/-- A second copy behind the first one. -/
theorem blit_behind (dst src src' : Bytes) (off s t : Nat) :
    blit (blit dst off s src) (off + s) t src' =
      blit dst off (s + t) fun i => if i < s then src i else src' (i - s) := by
  funext i
  by_cases hfirst : off ≤ i ∧ i < off + s
  · obtain ⟨j, rfl⟩ := Nat.exists_eq_add_of_le hfirst.1
    rw [blit_outside (by omega), blit_inside (by omega), blit_inside (by omega), if_pos (by omega)]
  · by_cases hsecond : off + s ≤ i ∧ i < off + s + t
    · obtain ⟨j, rfl⟩ := Nat.exists_eq_add_of_le hsecond.1
      rw [blit_inside (by omega), Nat.add_assoc, blit_inside (by omega), if_neg (by omega),
        Nat.add_sub_cancel_left]
    · rw [blit_outside (by omega), blit_outside (by omega), blit_outside (by omega)]

/-- A second copy over the first one. -/
theorem blit_over (dst src src' : Bytes) (off len : Nat) :
    blit (blit dst off len src) off len src' = blit dst off len src' := by
  funext i
  by_cases hi : off ≤ i ∧ i < off + len
  · obtain ⟨j, rfl⟩ := Nat.exists_eq_add_of_le hi.1
    rw [blit_inside (by omega), blit_inside (by omega)]
  · rw [blit_outside (by omega), blit_outside (by omega), blit_outside (by omega)]

@[simp] theorem zero_apply (i : Nat) : zero i = 0 := rfl

@[simp] theorem slice_apply (b : Bytes) (off i : Nat) : slice b off i = b (off + i) := rfl

@[simp] theorem slice_zero (b : Bytes) : slice b 0 = b := by
  funext i
  simp [slice]

/-! ## Little-endian numbers -/

/-- The number in the `w` bytes at the start of the area, least significant byte
first. -/
def getLE (b : Bytes) : Nat → Nat
  | 0 => 0
  | w + 1 => (b 0).toNat + 256 * getLE (slice b 1) w

/-- The bytes of `v`, least significant first. -/
def ofLE (v : Nat) : Bytes := fun i => UInt8.ofNat (v / 256 ^ i)

theorem getLE_congr {b c : Bytes} {w : Nat} (h : ∀ i < w, b i = c i) : getLE b w = getLE c w := by
  induction w generalizing b c with
  | zero => rfl
  | succ w ih =>
    have htail : getLE (slice b 1) w = getLE (slice c 1) w :=
      ih fun i hi => h (1 + i) (by omega)
    rw [getLE, getLE, h 0 (by omega), htail]

theorem slice_ofLE (v : Nat) : slice (ofLE v) 1 = ofLE (v / 256) := by
  funext i
  rw [slice_apply, ofLE, ofLE, Nat.div_div_eq_div_mul, pow_add, pow_one]

theorem getLE_ofLE (v w : Nat) : getLE (ofLE v) w = v % 256 ^ w := by
  induction w generalizing v with
  | zero => simp [getLE, Nat.mod_one]
  | succ w ih =>
    have hlow : (ofLE v 0).toNat = v % 256 := by simp [ofLE]
    rw [getLE, slice_ofLE, ih, hlow, pow_succ, Nat.mul_comm (256 ^ w), Nat.mod_mul]

theorem getLE_lt (b : Bytes) (w : Nat) : getLE b w < 256 ^ w := by
  induction w generalizing b with
  | zero => simp [getLE]
  | succ w ih =>
    have hbyte : (b 0).toNat < 256 := (b 0).toNat_lt
    have htail := ih (slice b 1)
    rw [getLE, pow_succ]
    omega

/-- Every byte is recovered from the number it is part of. -/
theorem ofLE_getLE {b : Bytes} {w i : Nat} (hi : i < w) : ofLE (getLE b w) i = b i := by
  induction w generalizing b i with
  | zero => omega
  | succ w ih =>
    have hbyte : (b 0).toNat < 256 := (b 0).toNat_lt
    cases i with
    | zero =>
      apply UInt8.toNat_inj.mp
      simp only [ofLE, getLE, pow_zero, Nat.div_one, UInt8.toNat_ofNat']
      omega
    | succ i =>
      -- the byte at `i + 1` is the byte at `i` of the rest of the number
      have hdiv : getLE b (w + 1) / 256 = getLE (slice b 1) w := by
        rw [getLE]
        omega
      have htail := ih (b := slice b 1) (i := i) (by omega)
      rw [slice_apply, Nat.add_comm 1 i] at htail
      rw [← htail, ofLE, pow_succ', ← Nat.div_div_eq_div_mul, hdiv, ofLE]

end Bytes

/-! ## Layouts -/

/-- How a value of type `α` lies over `n` bytes: reading and writing are inverse
to each other, and reading looks at these bytes only. -/
structure Layout (n : Nat) (α : Type) where
  decode : Bytes → α
  encode : α → Bytes
  decode_encode : ∀ a, decode (encode a) = a
  encode_decode : ∀ b i, i < n → encode (decode b) i = b i
  decode_congr : ∀ b c, (∀ i < n, b i = c i) → decode b = decode c

namespace Layout

open Bytes

variable {m n : Nat} {α β : Type}

/-- `uint8_t`. -/
def uint8 : Layout 1 UInt8 where
  decode b := b 0
  encode a := fun _ => a
  decode_encode _ := rfl
  encode_decode b i hi := by rw [Nat.lt_one_iff.mp hi]
  decode_congr b c h := h 0 (by omega)

/-- `uint32_t`. -/
def uint32 : Layout 4 UInt32 where
  decode b := UInt32.ofNat (getLE b 4)
  encode a := ofLE a.toNat
  decode_encode a := by
    rw [getLE_ofLE, Nat.mod_eq_of_lt (by simpa using a.toNat_lt), UInt32.ofNat_toNat]
  encode_decode b i hi := by
    rw [UInt32.toNat_ofNat_of_lt' (by simpa using getLE_lt b 4), ofLE_getLE hi]
  decode_congr b c h := by rw [getLE_congr h]

/-- `uint64_t`. -/
def uint64 : Layout 8 UInt64 where
  decode b := UInt64.ofNat (getLE b 8)
  encode a := ofLE a.toNat
  decode_encode a := by
    rw [getLE_ofLE, Nat.mod_eq_of_lt (by simpa using a.toNat_lt), UInt64.ofNat_toNat]
  encode_decode b i hi := by
    rw [UInt64.toNat_ofNat_of_lt' (by simpa using getLE_lt b 8), ofLE_getLE hi]
  decode_congr b c h := by rw [getLE_congr h]

/-- `uint8_t[n]` and `char[n]`. -/
def array (n : Nat) : Layout n (Fin n → UInt8) where
  decode b := fun i => b i
  encode a := fun i => if h : i < n then a ⟨i, h⟩ else 0
  decode_encode a := by
    funext i
    simp
  encode_decode b i hi := by simp [hi]
  decode_congr b c h := by
    funext i
    exact h i i.isLt

/-- Two fields, the second behind the first. -/
def prod (L : Layout m α) (M : Layout n β) : Layout (m + n) (α × β) where
  decode b := (L.decode b, M.decode (slice b m))
  encode a := fun i => if i < m then L.encode a.1 i else M.encode a.2 (i - m)
  decode_encode a := by
    have hfst :
        L.decode (fun i => if i < m then L.encode a.1 i else M.encode a.2 (i - m)) = a.1 := by
      rw [L.decode_congr _ (L.encode a.1) fun i hi => by simp [hi], L.decode_encode]
    have hsnd : slice (fun i => if i < m then L.encode a.1 i else M.encode a.2 (i - m)) m =
        M.encode a.2 := by
      funext i
      simp
    rw [hfst, hsnd, M.decode_encode]
  encode_decode b i hi := by
    by_cases him : i < m
    · simp only [him, if_true]
      exact L.encode_decode b i him
    · simp only [him, if_false]
      rw [M.encode_decode _ _ (by omega), slice_apply]
      congr 1
      omega
  decode_congr b c h := by
    have hfst : L.decode b = L.decode c := L.decode_congr b c fun i hi => h i (by omega)
    have hsnd : M.decode (slice b m) = M.decode (slice c m) :=
      M.decode_congr _ _ fun i hi => h (m + i) (by omega)
    rw [hfst, hsnd]

/-- The same bytes read as another type. -/
def map (L : Layout n α) (e : α ≃ β) : Layout n β where
  decode b := e (L.decode b)
  encode a := L.encode (e.symm a)
  decode_encode a := by rw [L.decode_encode, Equiv.apply_symm_apply]
  encode_decode b i hi := by rw [Equiv.symm_apply_apply, L.encode_decode b i hi]
  decode_congr b c h := by rw [L.decode_congr b c h]

end Layout

namespace Bytes

/-! ## Arrays of records -/

section Records

variable {n : Nat} {α : Type} (L : Layout n α)

/-- The `k`-th record of an array of records. -/
def getRec (b : Bytes) (k : Nat) : α := L.decode (slice b (k * n))

/-- The array after an assignment to its `k`-th record. -/
def putRec (b : Bytes) (k : Nat) (a : α) : Bytes := blit b (k * n) n (L.encode a)

@[simp] theorem getRec_putRec_same (b : Bytes) (k : Nat) (a : α) :
    getRec L (putRec L b k a) k = a := by
  have hbytes : ∀ i < n, slice (putRec L b k a) (k * n) i = L.encode a i := fun i hi => by
    rw [slice_apply, putRec, blit_inside hi]
  rw [getRec, L.decode_congr _ _ hbytes, L.decode_encode]

theorem putRec_outside {b : Bytes} {k i : Nat} {a : α} (hi : i / n ≠ k) :
    putRec L b k a i = b i := by
  apply blit_outside
  -- in front of the record, or behind its last byte
  rcases Nat.lt_or_ge i (k * n) with hlt | hge
  · exact Or.inl hlt
  · refine Or.inr (Nat.le_of_not_lt fun hlt => hi ?_)
    have hpos : 0 < n := by
      rcases Nat.eq_zero_or_pos n with hn | hn
      · subst hn; omega
      · exact hn
    refine (Nat.div_eq_iff hpos).mpr ⟨hge, ?_⟩
    omega

theorem getRec_congr {b c : Bytes} {k : Nat} (h : ∀ i < n, b (k * n + i) = c (k * n + i)) :
    getRec L b k = getRec L c k :=
  L.decode_congr _ _ h

theorem getRec_putRec_ne {b : Bytes} {j k : Nat} {a : α} (hjk : j ≠ k) :
    getRec L (putRec L b k a) j = getRec L b j := by
  apply getRec_congr
  intro i hi
  -- byte `i` of record `j` has the row `j`
  apply putRec_outside
  rw [Nat.mul_comm, Nat.mul_add_div (by omega), Nat.div_eq_of_lt hi]
  simpa using hjk

theorem getRec_putRec (b : Bytes) (j k : Nat) (a : α) :
    getRec L (putRec L b k a) j = if j = k then a else getRec L b j := by
  by_cases hjk : j = k
  · rw [if_pos hjk, hjk, getRec_putRec_same]
  · rw [if_neg hjk, getRec_putRec_ne L hjk]

/-- The second of two assignments to one record counts. -/
@[simp] theorem putRec_putRec_same (b : Bytes) (k : Nat) (a a' : α) :
    putRec L (putRec L b k a) k a' = putRec L b k a' := blit_over b _ _ _ _

/-- Assigning a record its own value changes nothing. -/
@[simp] theorem putRec_getRec (b : Bytes) (k : Nat) : putRec L b k (getRec L b k) = b := by
  funext i
  by_cases hi : k * n ≤ i ∧ i < k * n + n
  · obtain ⟨j, rfl⟩ := Nat.exists_eq_add_of_le hi.1
    rw [putRec, blit_inside (by omega), getRec, L.encode_decode _ _ (by omega), slice_apply]
  · rw [putRec, blit_outside (by omega)]

/-- Areas that agree record by record agree byte by byte. -/
theorem eq_of_getRec {b c : Bytes} (count : Nat)
    (h : ∀ k < count, getRec L b k = getRec L c k) {i : Nat} (hi : i < count * n) : b i = c i := by
  have hpos : 0 < n := Nat.pos_of_ne_zero fun hn => by subst hn; omega
  have hrow : i / n < count := Nat.div_lt_of_lt_mul (by rwa [Nat.mul_comm] at hi)
  have hcol : i % n < n := Nat.mod_lt i hpos
  have hsplit : i / n * n + i % n = i := Nat.div_add_mod' i n
  -- byte `i` is byte `i % n` of record `i / n`, which encodes the same value
  have henc := congrArg (fun a => L.encode a (i % n)) (h (i / n) hrow)
  simp only [getRec, L.encode_decode _ _ hcol, slice_apply, hsplit] at henc
  exact henc

end Records

/-! ## Bitmaps -/

/-- Bit `bit` of a bitmap, the low bit of each byte first. -/
def getBit (bitmap : Bytes) (bit : Nat) : Bool :=
  (bitmap (bit / 8) >>> UInt8.ofNat (bit % 8)) &&& 1 != 0

/-- The bitmap after bit `bit` is set to `value`. -/
def setBit (bitmap : Bytes) (bit : Nat) (value : Bool) : Bytes := fun i =>
  if i = bit / 8 then
    if value then bitmap i ||| (1 <<< UInt8.ofNat (bit % 8))
    else bitmap i &&& ~~~(1 <<< UInt8.ofNat (bit % 8))
  else bitmap i

/-- A bit of a byte through the shift and mask. -/
theorem byte_bit {x : UInt8} {q : Nat} (hq : q < 8) :
    (x >>> UInt8.ofNat q &&& 1 != 0) = x.toBitVec.getLsbD q := by
  -- the shift count is taken modulo 8
  have hmod : (UInt8.ofNat q).toBitVec.toNat % 8 = q := by
    simp only [UInt8.toBitVec_ofNat', BitVec.toNat_ofNat]
    omega
  have hnat : (x >>> UInt8.ofNat q &&& 1).toNat = (x.toNat >>> q) % 2 := by
    rw [UInt8.toNat_and, UInt8.toNat_shiftRight, UInt8.toNat_ofNat', UInt8.toNat_one,
      Nat.and_one_is_mod]
    congr 2
  have hbit : x.toBitVec.getLsbD q = x.toNat.testBit q := rfl
  rw [hbit, Nat.testBit_eq_decide_div_mod_eq, ← Nat.shiftRight_eq_div_pow]
  by_cases hone : (x.toNat >>> q) % 2 = 1
  · have hne : x >>> UInt8.ofNat q &&& 1 ≠ 0 := fun hz => by
      rw [hz, hone] at hnat
      simp at hnat
    simp [hone, hne]
  · have hz : x >>> UInt8.ofNat q &&& 1 = 0 := UInt8.toNat_inj.mp (by
      rw [hnat, UInt8.toNat_zero]
      omega)
    simp [hone, hz]

/-- The mask `1 << p` has bit `p` and no other. -/
theorem mask_bit : ∀ p < 8, ∀ q < 8,
    ((1 : UInt8) <<< UInt8.ofNat p >>> UInt8.ofNat q &&& 1 != 0) = decide (p = q) := by
  decide

theorem getBit_setBit_byte {x : UInt8} {p q : Nat} (hp : p < 8) (hq : q < 8) (value : Bool) :
    ((if value then x ||| (1 <<< UInt8.ofNat p) else x &&& ~~~(1 <<< UInt8.ofNat p)) >>>
      UInt8.ofNat q &&& 1 != 0) =
      if p = q then value else (x >>> UInt8.ofNat q &&& 1 != 0) := by
  rw [byte_bit hq, byte_bit hq]
  -- in terms of bits the mask is a single one
  have hone : ((1 : UInt8) <<< UInt8.ofNat p).toBitVec.getLsbD q = decide (p = q) := by
    rw [← byte_bit hq, mask_bit p hp q hq]
  cases value with
  | true =>
    rw [if_pos rfl, UInt8.toBitVec_or, BitVec.getLsbD_or, hone]
    by_cases hpq : p = q <;> simp [hpq]
  | false =>
    rw [if_neg (by decide), UInt8.toBitVec_and, UInt8.toBitVec_not, BitVec.getLsbD_and,
      BitVec.getLsbD_not, hone]
    by_cases hpq : p = q <;> simp [hpq, hq]

/-- Setting a bit changes that bit and no other. -/
theorem getBit_setBit (bitmap : Bytes) (i j : Nat) (value : Bool) :
    getBit (setBit bitmap i value) j = if i = j then value else getBit bitmap j := by
  unfold getBit setBit
  by_cases hrow : j / 8 = i / 8
  · rw [if_pos hrow, getBit_setBit_byte (Nat.mod_lt i (by omega)) (Nat.mod_lt j (by omega))]
    have hcol : i % 8 = j % 8 ↔ i = j := by omega
    simp only [hcol]
  · rw [if_neg hrow, if_neg (by omega)]

@[simp] theorem getBit_zero (bit : Nat) : getBit zero bit = false := by
  simp [getBit]

/-- Bitmaps that agree on the eight bits of a byte agree on the byte. -/
theorem eq_of_getBit {b c : Bytes} {i : Nat}
    (h : ∀ j, j / 8 = i → getBit b j = getBit c j) : b i = c i := by
  apply UInt8.toBitVec_inj.mp
  apply BitVec.eq_of_getLsbD_eq
  intro q hq
  have hrow : (8 * i + q) / 8 = i := by omega
  have hcol : (8 * i + q) % 8 = q := by omega
  have hbit := h (8 * i + q) hrow
  unfold getBit at hbit
  rwa [hrow, hcol, byte_bit hq, byte_bit hq] at hbit

end Bytes

end OsProjects
