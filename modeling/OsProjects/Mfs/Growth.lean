import OsProjects.Lib.Prefix
import OsProjects.Mfs.Chunks
import OsProjects.Mfs.Helpers
import OsProjects.Mfs.Worlds

/-!
# A file byte by byte — what one more byte does to an image

`mfs_write` moves chunks and writes index block and record once, at its end. Behind the
call the image is the one that as many single bytes would have left, each put into the
last block of the file or, when that is full, into the first clear block of the disk
(`putByte`). This module is about these single bytes: the image behind a run of bytes in
one block (`fillBlock`, `startBlock`), the invariant they keep (`Growing`) and the room
that is left (`room`).
-/

namespace OsProjects.Mfs

open Bytes Prefix

/-- The record of a file that has grown by `t` bytes. -/
def MfsInode.grown (ino : MfsInode) (t : Nat) : MfsInode :=
  { ino with size := ino.size + UInt32.ofNat t }

/-- The first clear block. -/
def firstClear (N : Nat) (E : Disk) : Option Nat :=
  (List.range' 6 (N - 6)).find? fun b => !bitAt E b

/-- The last block of file `n`. -/
def lastBlock (n : Nat) (E : Disk) : Nat := idxAt E (indexAt E n) (sizeAt E n / 16384)

/-- The bytes of `l` behind the end of file `n`, in its last block. -/
def fillBlock (n : Nat) (E : Disk) (l : List UInt8) : Disk :=
  writeRecord (Function.update E (lastBlock n E)
    (blit (E (lastBlock n E)) (sizeAt E n % 16384) l.length (chunkOf l))) n
    ((inodeAt E n).grown l.length)

/-- The bytes of `l` behind the end of file `n`, in the fresh block `b`. -/
def startBlock (n : Nat) (E : Disk) (b : Nat) (l : List UInt8) : Disk :=
  writeRecord (Function.update (Function.update (Function.update E 1 (mfsSetBit (E 1) b true))
    b (blit zero 0 l.length (chunkOf l)))
    (indexAt E n) (putRec Layout.uint32 (E (indexAt E n)) (sizeAt E n / 16384) (UInt32.ofNat b))) n
    { (inodeAt E n).grown l.length with blockCount := (inodeAt E n).blockCount + 1 }

/-- One more byte at the end of file `n`, unless a block is needed and none is clear. -/
def putByte (N n : Nat) (E : Disk) (c : UInt8) : Option Disk :=
  if sizeAt E n % 16384 ≠ 0 then some (fillBlock n E [c])
  else (firstClear N E).map fun b => startBlock n E b [c]

/-- The file `n` can grow on the image `E`: its index block and its data blocks are marked
used and lie behind the metadata. -/
structure Growing (N n : Nat) (E : Disk) : Prop where
  le : N ≤ 4096
  number : 2 ≤ n ∧ n ≤ 256
  shape : Shape (indexAt E n) (idxAt E (indexAt E n)) (sizeAt E n) (countAt E n)
  used : ∀ b, InUse (indexAt E n) (idxAt E (indexAt E n)) (countAt E n) b →
    6 ≤ b ∧ b < N ∧ bitAt E b = true

/-! ## Records and blocks -/

section Records

variable {d : Disk} {n k : Nat} {ino ino' : MfsInode} {blk : Block}

/-- Only the last write of a record counts. -/
theorem writeRecord_writeRecord :
    writeRecord (writeRecord d n ino) n ino' = writeRecord d n ino' := by
  unfold writeRecord
  rw [Function.update_self, putRec_putRec_same, Function.update_idem]

/-- A record may be written back as it is. -/
theorem writeRecord_inodeAt : writeRecord d n (inodeAt d n) = d := by
  unfold writeRecord inodeAt
  rw [putRec_getRec, Function.update_eq_self]

/-- Growing twice is growing once. -/
theorem grown_grown (ino : MfsInode) (s t : Nat) :
    (ino.grown s).grown t = ino.grown (s + t) := by
  simp only [MfsInode.grown, UInt32.add_assoc, UInt32.ofNat_add]

theorem grown_zero (ino : MfsInode) : ino.grown 0 = ino := by
  show { ino with size := ino.size + 0 } = ino
  rw [UInt32.add_zero]

/-- A block outside the table does not see the record. -/
theorem writeRecord_update (hn : n ≤ 256) (hk : k ≠ 3 ∧ k ≠ 4) :
    writeRecord (Function.update d k blk) n ino = Function.update (writeRecord d n ino) k blk := by
  have hne : 3 + (n - 1) / 128 ≠ k := by omega
  unfold writeRecord
  rw [Function.update_of_ne hne, Function.update_comm hne]

/-- The bits are in block 1. -/
theorem bitAt_congr {d' : Disk} (h : d' 1 = d 1) (b : Nat) : bitAt d' b = bitAt d b := by
  rw [bitAt, bitAt, h]

end Records

/-- A block number fits into an index entry. -/
theorem toNat_ofNat_block {N b : Nat} (hN : N ≤ 4096) (hb : b < N) :
    (UInt32.ofNat b).toNat = b :=
  UInt32.toNat_ofNat_of_lt' (by simp only [UInt32.size]; omega)

/-- What `allocate_block` finds is a block of the disk that is not taken. -/
theorem firstClear_some {N : Nat} {E : Disk} {b : Nat} (h : firstClear N E = some b) :
    6 ≤ b ∧ b < N ∧ bitAt E b = false := by
  rw [firstClear, List.find?_range'_eq_some, List.mem_range'_1] at h
  obtain ⟨hclear, ⟨hlo, hhi⟩, -⟩ := h
  exact ⟨hlo, by omega, by simpa using hclear⟩

/-- It finds nothing iff every block is taken. -/
theorem firstClear_none {N : Nat} {E : Disk} :
    firstClear N E = none ↔ ∀ b, 6 ≤ b → b < N → bitAt E b = true := by
  rw [firstClear, List.find?_eq_none]
  constructor
  · intro h b hlo hhi
    simpa using h b (by rw [List.mem_range'_1]; omega)
  · intro h b hb
    rw [List.mem_range'_1] at hb
    simp [h b hb.1 (by omega)]

/-- It looks at the bitmap only. -/
theorem firstClear_congr {N : Nat} {E E' : Disk} (h : E' 1 = E 1) :
    firstClear N E' = firstClear N E := by
  unfold firstClear
  simp only [bitAt_congr h]

/-! ## Bytes in the last block -/

section Fill

variable {N n : Nat} {E : Disk} {l l' : List UInt8} (h : Growing N n E)
include h

/-- A file that grows has at most 64 MB. -/
theorem Growing.size_le : sizeAt E n ≤ 67108864 := by
  have hcount := h.shape.count_eq
  have hle := h.shape.count_le
  omega

/-- The file has fewer than 4096 blocks. -/
theorem Growing.count_lt : countAt E n < 4096 :=
  h.shape.count_lt h.le fun k hk =>
    ⟨(h.used _ (Or.inr ⟨k, hk, rfl⟩)).1, (h.used _ (Or.inr ⟨k, hk, rfl⟩)).2.1⟩

/-- The index block is one of the disk. -/
theorem Growing.index_range : 6 ≤ indexAt E n ∧ indexAt E n < N :=
  ⟨(h.used _ (Or.inl rfl)).1, (h.used _ (Or.inl rfl)).2.1⟩

/-- The new size does not overflow its field. -/
theorem Growing.grown_size {t : Nat} (ht : t ≤ 16384) :
    ((inodeAt E n).grown t).size.toNat = sizeAt E n + t := by
  have hsize := h.size_le
  have hold : (inodeAt E n).size.toNat = sizeAt E n := rfl
  show ((inodeAt E n).size + UInt32.ofNat t).toNat = _
  rw [UInt32.toNat_add, UInt32.toNat_ofNat_of_lt' (by simp only [UInt32.size]; omega), hold,
    Nat.mod_eq_of_lt (by omega)]

/-- A file that ends inside a block has that block. -/
theorem Growing.lastBlock_used (hoff : sizeAt E n % 16384 ≠ 0) :
    6 ≤ lastBlock n E ∧ lastBlock n E < N ∧ lastBlock n E ≠ indexAt E n := by
  have hcount := h.shape.count_eq
  have hk : sizeAt E n / 16384 < countAt E n := by omega
  have hused := h.used _ (Or.inr ⟨_, hk, rfl⟩)
  exact ⟨hused.1, hused.2.1, h.shape.off_index _ hk⟩

/-- A patch changes the last block and the inode table only. -/
theorem fillBlock_of_ne {k : Nat} (h3 : k ≠ 3) (h4 : k ≠ 4) (hk : k ≠ lastBlock n E) :
    fillBlock n E l k = E k := by
  rw [fillBlock, writeRecord_of_ne h.number.2 h3 h4, Function.update_of_ne hk]

/-- The record has the new size and is the old one otherwise. -/
theorem inodeAt_fillBlock : inodeAt (fillBlock n E l) n = (inodeAt E n).grown l.length := by
  have hnum := h.number
  rw [fillBlock, inodeAt_writeRecord (by omega) (by omega), if_pos rfl]

theorem indexAt_fillBlock : indexAt (fillBlock n E l) n = indexAt E n := by
  rw [indexAt, inodeAt_fillBlock h]
  rfl

theorem countAt_fillBlock : countAt (fillBlock n E l) n = countAt E n := by
  rw [countAt, inodeAt_fillBlock h]
  rfl

theorem sizeAt_fillBlock (hle : l.length ≤ 16384) :
    sizeAt (fillBlock n E l) n = sizeAt E n + l.length := by
  rw [sizeAt, inodeAt_fillBlock h, h.grown_size hle]

section Readings

variable (hoff : sizeAt E n % 16384 ≠ 0)
include hoff

/-- The entries of the index block are the old ones. -/
theorem idxAt_fillBlock : idxAt (fillBlock n E l) (indexAt E n) = idxAt E (indexAt E n) := by
  have hlast := h.lastBlock_used hoff
  have hib := h.index_range
  funext k
  exact idxAt_congr (fillBlock_of_ne h (by omega) (by omega) (Ne.symm hlast.2.2)) k

/-- No block is taken. -/
theorem bitmap_fillBlock : fillBlock n E l 1 = E 1 := by
  have hlast := h.lastBlock_used hoff
  exact fillBlock_of_ne h (by decide) (by decide) (by omega)

/-- The block that was patched stays the last one until it is full. -/
theorem lastBlock_fillBlock (hle : sizeAt E n % 16384 + l.length < 16384) :
    lastBlock n (fillBlock n E l) = lastBlock n E := by
  rw [lastBlock, indexAt_fillBlock h, idxAt_fillBlock h hoff,
    sizeAt_fillBlock h (by omega), lastBlock]
  congr 1
  omega

/-- The image stays one of a growing file. -/
theorem Growing.fill (hle : sizeAt E n % 16384 + l.length ≤ 16384) :
    Growing N n (fillBlock n E l) := by
  have hib := indexAt_fillBlock (l := l) h
  have hidx := idxAt_fillBlock (l := l) h hoff
  refine ⟨h.le, h.number, ?_, ?_⟩
  · rw [hib, hidx, countAt_fillBlock h, sizeAt_fillBlock h (by omega)]
    exact h.shape.grow hoff hle
  · intro b hb
    rw [hib, hidx, countAt_fillBlock h] at hb
    rw [bitAt_congr (bitmap_fillBlock h hoff)]
    exact h.used b hb

/-- Bytes put one run behind the other. -/
theorem fillBlock_fillBlock (hle : sizeAt E n % 16384 + l.length + l'.length ≤ 16384)
    (hl' : l' ≠ []) : fillBlock n (fillBlock n E l) l' = fillBlock n E (l ++ l') := by
  have hlast := h.lastBlock_used hoff
  have hpos := List.length_pos_iff.mpr hl'
  have hnum := h.number
  have hsame : fillBlock n E l (lastBlock n E) =
      blit (E (lastBlock n E)) (sizeAt E n % 16384) l.length (chunkOf l) := by
    rw [fillBlock, writeRecord_of_ne hnum.2 (by omega) (by omega), Function.update_self]
  -- the second run starts where the first one ended, in the same block
  have hmod : (sizeAt E n + l.length) % 16384 = sizeAt E n % 16384 + l.length := by omega
  rw [fillBlock, lastBlock_fillBlock h hoff (by omega), hsame, sizeAt_fillBlock h (by omega),
    hmod, blit_behind, inodeAt_fillBlock h]
  -- of two writes to the block and two to the record the later ones are left
  conv_lhs => rw [fillBlock]
  rw [← writeRecord_update hnum.2 (by omega), Function.update_idem, writeRecord_writeRecord,
    fillBlock, List.length_append]
  congr 1
  · exact congrArg (Function.update E _) (blit_congr fun i _ => (chunkOf_append l l' i).symm)
  · exact grown_grown _ _ _

end Readings

end Fill

/-! ## Bytes in a fresh block -/

section Start

variable {N n b : Nat} {E : Disk} {l l' : List UInt8} (h : Growing N n E)
include h

/-- A new block changes the bitmap, the inode table, the index block and itself only. -/
theorem startBlock_of_ne {k : Nat} (hk : k ≠ 1 ∧ k ≠ 3 ∧ k ≠ 4 ∧ k ≠ b ∧ k ≠ indexAt E n) :
    startBlock n E b l k = E k := by
  rw [startBlock, writeRecord_of_ne h.number.2 hk.2.1 hk.2.2.1, Function.update_of_ne hk.2.2.2.2,
    Function.update_of_ne hk.2.2.2.1, Function.update_of_ne hk.1]

/-- Its number is entered at the end. -/
theorem startBlock_index : startBlock n E b l (indexAt E n) =
    putRec Layout.uint32 (E (indexAt E n)) (sizeAt E n / 16384) (UInt32.ofNat b) := by
  have hib := h.index_range
  rw [startBlock, writeRecord_of_ne h.number.2 (by omega) (by omega), Function.update_self]

/-- The record counts one block more. -/
theorem inodeAt_startBlock : inodeAt (startBlock n E b l) n =
    { (inodeAt E n).grown l.length with blockCount := (inodeAt E n).blockCount + 1 } := by
  have hnum := h.number
  rw [startBlock, inodeAt_writeRecord (by omega) (by omega), if_pos rfl]

theorem indexAt_startBlock : indexAt (startBlock n E b l) n = indexAt E n := by
  rw [indexAt, inodeAt_startBlock h]
  rfl

theorem countAt_startBlock : countAt (startBlock n E b l) n = countAt E n + 1 := by
  have hlt := h.count_lt
  have hold : (inodeAt E n).blockCount.toNat = countAt E n := rfl
  rw [countAt, inodeAt_startBlock h]
  show ((inodeAt E n).blockCount + 1).toNat = _
  rw [UInt32.toNat_add, UInt32.toNat_one, hold, Nat.mod_eq_of_lt (by omega)]

theorem sizeAt_startBlock (hle : l.length ≤ 16384) :
    sizeAt (startBlock n E b l) n = sizeAt E n + l.length := by
  rw [sizeAt, inodeAt_startBlock h]
  exact h.grown_size hle

section Fresh

variable (hb : 6 ≤ b ∧ b < N ∧ bitAt E b = false)
include hb

/-- A block whose bit is clear is none of the file. -/
theorem Growing.not_used : ¬ InUse (indexAt E n) (idxAt E (indexAt E n)) (countAt E n) b :=
  fun huse => by
    have hset := (h.used b huse).2.2
    rw [hb.2.2] at hset
    exact absurd hset Bool.false_ne_true

theorem Growing.fresh_ne : b ≠ indexAt E n := fun heq => h.not_used hb (Or.inl heq)

/-- The new block holds the bytes and zeros behind them. -/
theorem startBlock_fresh : startBlock n E b l b = blit zero 0 l.length (chunkOf l) := by
  rw [startBlock, writeRecord_of_ne h.number.2 (by omega) (by omega),
    Function.update_of_ne (h.fresh_ne hb), Function.update_self]

/-- One bit of the bitmap is set. -/
theorem startBlock_bitmap : startBlock n E b l 1 = mfsSetBit (E 1) b true := by
  have hib := h.index_range
  rw [startBlock, writeRecord_of_ne h.number.2 (by decide) (by decide),
    Function.update_of_ne (by omega), Function.update_of_ne (by omega), Function.update_self]

/-- The other bits are as before. -/
theorem bitAt_startBlock (c : Nat) :
    bitAt (startBlock n E b l) c = if b = c then true else bitAt E c := by
  rw [bitAt, startBlock_bitmap h hb, mfsGetBit, mfsSetBit, getBit_setBit]
  rfl

/-- One entry is new. -/
theorem idxAt_startBlock (k : Nat) : idxAt (startBlock n E b l) (indexAt E n) k =
    if k = sizeAt E n / 16384 then b else idxAt E (indexAt E n) k := by
  rw [idxAt, startBlock_index h, idxOf_putRec, toNat_ofNat_block h.le hb.2.1]
  rfl

/-- The new block is the last one. -/
theorem lastBlock_startBlock (hoff : sizeAt E n % 16384 = 0) (hle : l.length < 16384) :
    lastBlock n (startBlock n E b l) = b := by
  rw [lastBlock, indexAt_startBlock h, idxAt_startBlock h hb, sizeAt_startBlock h (by omega),
    if_pos (by omega)]

/-- The image stays one of a growing file with a new block, too. -/
theorem Growing.start (hoff : sizeAt E n % 16384 = 0) (hpos : 0 < l.length)
    (hle : l.length ≤ 16384) : Growing N n (startBlock n E b l) := by
  have hcount := h.shape.count_eq
  have hk : sizeAt E n / 16384 = countAt E n := by omega
  have hidx := @idxAt_startBlock N n b E l h hb
  rw [hk] at hidx
  refine ⟨h.le, h.number, ?_, ?_⟩
  · -- the shape: one entry more
    rw [indexAt_startBlock h, countAt_startBlock h, sizeAt_startBlock h hle]
    exact h.shape.push hoff hpos hle h.count_lt hidx (by omega) (h.not_used hb)
  · -- what the file has in use
    intro c hc
    rw [indexAt_startBlock h, countAt_startBlock h] at hc
    rw [bitAt_startBlock h hb]
    rcases hc with hc | ⟨k, hklt, hc⟩
    · -- the index block
      rw [hc]
      have hused := h.used _ (Or.inl rfl)
      exact ⟨hused.1, hused.2.1, by rw [if_neg (h.fresh_ne hb)]; exact hused.2.2⟩
    · -- the new last entry, or an old one
      rw [hc, hidx]
      by_cases hkc : k = countAt E n
      · rw [if_pos hkc, if_pos rfl]
        exact ⟨hb.1, hb.2.1, rfl⟩
      · rw [if_neg hkc]
        have hused := h.used _ (Or.inr ⟨k, by omega, rfl⟩)
        refine ⟨hused.1, hused.2.1, ?_⟩
        split_ifs
        · rfl
        · exact hused.2.2

/-- Bytes that start a block, and more bytes behind them. -/
theorem fillBlock_startBlock (hoff : sizeAt E n % 16384 = 0) (hpos : 0 < l.length)
    (hle : l.length + l'.length ≤ 16384) (hl' : l' ≠ []) :
    fillBlock n (startBlock n E b l) l' = startBlock n E b (l ++ l') := by
  have hpos' := List.length_pos_iff.mpr hl'
  have hnum := h.number
  have hib := h.index_range
  have hne := h.fresh_ne hb
  -- the block is full of `l` from its first byte on
  have hmod : (sizeAt E n + l.length) % 16384 = 0 + l.length := by omega
  rw [fillBlock, lastBlock_startBlock h hb hoff (by omega), startBlock_fresh h hb,
    sizeAt_startBlock h (by omega), hmod, blit_behind, inodeAt_startBlock h]
  conv_lhs => rw [startBlock]
  rw [← writeRecord_update hnum.2 (by omega), writeRecord_writeRecord,
    Function.update_comm (Ne.symm hne), Function.update_idem, startBlock, List.length_append]
  congr 1
  · congr 2
    exact blit_congr fun i _ => (chunkOf_append l l' i).symm
  · rw [← grown_grown]
    rfl

end Fresh

end Start

/-! ## One byte, and the bytes of one block -/

section PutByte

variable {N n b : Nat} {E E' : Disk} {c : UInt8} {l : List UInt8}

/-- A byte goes behind the last one if its block has room. -/
theorem putByte_fill (hoff : sizeAt E n % 16384 ≠ 0) :
    putByte N n E c = some (fillBlock n E [c]) := if_pos hoff

/-- A byte that finds the last block full starts a new one. -/
theorem putByte_start (hoff : sizeAt E n % 16384 = 0) (hb : firstClear N E = some b) :
    putByte N n E c = some (startBlock n E b [c]) := by
  rw [putByte, if_neg (not_not_intro hoff), hb, Option.map_some]

/-- A byte finds no place only where the last block is full and no block is clear. -/
theorem putByte_eq_none :
    putByte N n E c = none ↔ sizeAt E n % 16384 = 0 ∧ firstClear N E = none := by
  by_cases hoff : sizeAt E n % 16384 = 0
  · rw [putByte, if_neg (not_not_intro hoff), Option.map_eq_none_iff, and_iff_right hoff]
  · rw [putByte_fill hoff]
    exact ⟨fun hnone => absurd hnone (by simp), fun hboth => absurd hboth.1 hoff⟩

/-- The two ways a byte is put. -/
theorem putByte_cases (h : putByte N n E c = some E') :
    sizeAt E n % 16384 ≠ 0 ∧ E' = fillBlock n E [c] ∨
      sizeAt E n % 16384 = 0 ∧ ∃ b, firstClear N E = some b ∧ E' = startBlock n E b [c] := by
  by_cases hoff : sizeAt E n % 16384 = 0
  · rw [putByte, if_neg (not_not_intro hoff), Option.map_eq_some_iff] at h
    obtain ⟨b, hb, rfl⟩ := h
    exact Or.inr ⟨hoff, b, hb, rfl⟩
  · rw [putByte_fill hoff] at h
    exact Or.inl ⟨hoff, (Option.some.inj h).symm⟩

/-- The image stays one of a growing file, byte by byte. -/
theorem Growing.putByte (h : Growing N n E) (hput : putByte N n E c = some E') :
    Growing N n E' := by
  rcases putByte_cases hput with ⟨hoff, rfl⟩ | ⟨hoff, b, hb, rfl⟩
  · exact h.fill hoff (by simp only [List.length_singleton]; omega)
  · exact h.start (firstClear_some hb) hoff (by simp) (by simp)

/-- The file is one byte longer. -/
theorem sizeAt_putByte (h : Growing N n E) (hput : Mfs.putByte N n E c = some E') :
    sizeAt E' n = sizeAt E n + 1 := by
  rcases putByte_cases hput with ⟨hoff, rfl⟩ | ⟨hoff, b, hb, rfl⟩
  · exact sizeAt_fillBlock h (by simp)
  · exact sizeAt_startBlock h (by simp)

/-- The machine that puts bytes keeps the file able to grow. -/
theorem growing_of_putByte {N n : Nat} :
    ∀ E c E', Growing N n E → Mfs.putByte N n E c = some E' → Growing N n E' :=
  fun _ _ _ h hput => h.putByte hput

/-- Bytes that stay in the last block are put one by one. -/
theorem consume_fill (h : Growing N n E) (hoff : sizeAt E n % 16384 ≠ 0) (hl : l ≠ [])
    (hle : sizeAt E n % 16384 + l.length ≤ 16384) :
    consume (Mfs.putByte N n) E l = (l.length, fillBlock n E l) := by
  -- on the bytes; each of them is a patch
  induction l generalizing E with
  | nil => exact absurd rfl hl
  | cons c l ih =>
    rw [consume_cons_some (putByte_fill hoff)]
    rw [List.length_cons] at hle ⊢
    by_cases hrest : l = []
    · rw [hrest, consume_nil]
      rfl
    · have hpos := List.length_pos_iff.mpr hrest
      have hone := h.fill (l := [c]) hoff (by simp only [List.length_singleton]; omega)
      have hsize := sizeAt_fillBlock (l := [c]) h (by simp)
      rw [List.length_singleton] at hsize
      rw [ih hone (by omega) hrest (by omega),
        fillBlock_fillBlock h hoff (by simp only [List.length_singleton]; omega) hrest]
      rfl

/-- Bytes that start a block are put one by one. -/
theorem consume_start (h : Growing N n E) (hoff : sizeAt E n % 16384 = 0)
    (hb : firstClear N E = some b) (hl : l ≠ []) (hle : l.length ≤ 16384) :
    consume (Mfs.putByte N n) E l = (l.length, startBlock n E b l) := by
  cases l with
  | nil => exact absurd rfl hl
  | cons c l =>
    have hfresh := firstClear_some hb
    rw [consume_cons_some (putByte_start hoff hb)]
    rw [List.length_cons] at hle ⊢
    by_cases hrest : l = []
    · -- one byte and no more
      rw [hrest, consume_nil]
      rfl
    · -- behind the first byte the block is the last one of the file
      have hpos := List.length_pos_iff.mpr hrest
      have hone := h.start (l := [c]) hfresh hoff (by simp) (by simp)
      have hsize := sizeAt_startBlock (b := b) (l := [c]) h (by simp)
      rw [List.length_singleton] at hsize
      rw [consume_fill hone (by omega) hrest (by omega),
        fillBlock_startBlock h hfresh hoff (by simp) (by simp only [List.length_singleton]; omega)
          hrest]
      rfl

end PutByte

/-! ## The room that is left -/

/-- The clear blocks of a disk of `N` blocks. -/
def clearBlocks (N : Nat) (E : Disk) : Finset Nat :=
  (Finset.Ico 6 N).filter fun b => bitAt E b = false

/-- What is left of the last block of a file of `size` bytes. -/
def slack (size : Nat) : Nat := (16384 - size % 16384) % 16384

/-- The number of bytes file `n` can grow by. -/
def room (N n : Nat) (E : Disk) : Nat := slack (sizeAt E n) + 16384 * (clearBlocks N E).card

section Room

variable {N n b : Nat} {E E' : Disk} {c : UInt8} {l : List UInt8}

/-- The blocks that are left are the clear bits of the disk. -/
theorem mem_clearBlocks : b ∈ clearBlocks N E ↔ (6 ≤ b ∧ b < N) ∧ bitAt E b = false := by
  rw [clearBlocks, Finset.mem_filter, Finset.mem_Ico]

/-- They depend on the bitmap only. -/
theorem clearBlocks_congr (h : E' 1 = E 1) : clearBlocks N E' = clearBlocks N E := by
  unfold clearBlocks
  simp only [bitAt_congr h]

/-- The block found is one of those left. -/
theorem mem_of_firstClear (h : firstClear N E = some b) : b ∈ clearBlocks N E := by
  have hfresh := firstClear_some h
  exact mem_clearBlocks.mpr ⟨⟨hfresh.1, hfresh.2.1⟩, hfresh.2.2⟩

/-- None is found iff none is left. -/
theorem firstClear_eq_none_iff : firstClear N E = none ↔ (clearBlocks N E).card = 0 := by
  rw [firstClear_none, Finset.card_eq_zero, Finset.eq_empty_iff_forall_notMem]
  constructor
  · intro hall b hb
    obtain ⟨⟨hlo, hhi⟩, hclear⟩ := mem_clearBlocks.mp hb
    rw [hall b hlo hhi] at hclear
    exact absurd hclear (by decide)
  · intro hno b hlo hhi
    by_contra hclear
    exact hno b (mem_clearBlocks.mpr ⟨⟨hlo, hhi⟩, by simpa using hclear⟩)

/-- Marking a clear block leaves one clear block less. -/
theorem card_clearBlocks (hb : 6 ≤ b ∧ b < N ∧ bitAt E b = false)
    (hbit : ∀ k, bitAt E' k = if b = k then true else bitAt E k) :
    (clearBlocks N E').card + 1 = (clearBlocks N E).card := by
  -- the clear bits without the new one
  have herase : clearBlocks N E' = (clearBlocks N E).erase b := by
    ext k
    rw [Finset.mem_erase, mem_clearBlocks, mem_clearBlocks, hbit]
    by_cases hk : b = k
    · rw [if_pos hk]
      exact ⟨fun hmem => absurd hmem.2 (by decide), fun hmem => absurd hk.symm hmem.1⟩
    · rw [if_neg hk]
      exact ⟨fun hmem => ⟨Ne.symm hk, hmem⟩, fun hmem => hmem.2⟩
  rw [herase]
  exact Finset.card_erase_add_one (mem_clearBlocks.mpr ⟨⟨hb.1, hb.2.1⟩, hb.2.2⟩)

/-- A patch takes no block. -/
theorem clearBlocks_fillBlock (h : Growing N n E) (hoff : sizeAt E n % 16384 ≠ 0) :
    clearBlocks N (fillBlock n E l) = clearBlocks N E :=
  clearBlocks_congr (bitmap_fillBlock h hoff)

/-- A new block leaves one fewer. -/
theorem card_startBlock (h : Growing N n E) (hb : firstClear N E = some b) :
    (clearBlocks N (startBlock n E b l)).card + 1 = (clearBlocks N E).card :=
  card_clearBlocks (firstClear_some hb) (bitAt_startBlock h (firstClear_some hb))

/-- A byte finds no place iff there is no room. -/
theorem putByte_none_iff : putByte N n E c = none ↔ room N n E = 0 := by
  rw [putByte_eq_none, firstClear_eq_none_iff, room, slack]
  omega

/-- Every byte takes one byte of the room. -/
theorem room_putByte (h : Growing N n E) (hput : putByte N n E c = some E') :
    room N n E' + 1 = room N n E := by
  have hsize := sizeAt_putByte h hput
  rcases putByte_cases hput with ⟨hoff, rfl⟩ | ⟨hoff, b, hb, rfl⟩
  · -- the slack gets smaller
    rw [room, room, hsize, clearBlocks_fillBlock h hoff, slack, slack]
    omega
  · -- a clear block turns into slack
    have hcard := card_startBlock (l := [c]) h hb
    rw [room, room, hsize, slack, slack]
    omega

/-- The blocks of the file and the clear blocks together stay as many. -/
theorem countAt_putByte (h : Growing N n E) (hput : putByte N n E c = some E') :
    countAt E' n + (clearBlocks N E').card = countAt E n + (clearBlocks N E).card := by
  rcases putByte_cases hput with ⟨hoff, rfl⟩ | ⟨hoff, b, hb, rfl⟩
  · rw [countAt_fillBlock h, clearBlocks_fillBlock h hoff]
  · have hcard := card_startBlock (l := [c]) h hb
    rw [countAt_startBlock h]
    omega

/-- **A list of bytes is put as far as the room goes.** -/
theorem consume_room (h : Growing N n E) (l : List UInt8) :
    (consume (putByte N n) E l).1 = min l.length (room N n E) := by
  refine consume_count growing_of_putByte ?_ ?_ h l
  · exact fun _ _ _ => putByte_none_iff
  · exact fun _ _ _ hE hput => room_putByte hE hput

end Room

end OsProjects.Mfs
