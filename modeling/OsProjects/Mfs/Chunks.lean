import Mathlib.Order.Interval.Finset.Nat
import OsProjects.Mfs.Image

/-!
# Chunks of a file — the block arithmetic of the two copy loops

`mfs_read` and `mfs_write` cut a transfer at block boundaries with 32-bit arithmetic.
Below the largest file size this is division with remainder (`blockIdx_eq`,
`blockOff_eq`, `chunkSize_eq`). The rest of the module is what one chunk does to the
shape of a file: it stays in the last block (`Shape.grow`) or starts the next one
(`Shape.push`), and there is always room in the index for the next one
(`Shape.count_lt`). Last, one pass of `mfs_write` is written as a tree of transfers, with
the block numbers worked out (`writeChunk_old`, `writeChunk_new`).
-/

namespace OsProjects.Mfs

open Bytes Prog

/-! ## Machine arithmetic -/

/-- The conversions change no value that fits. -/
theorem bmod_of_lt {m k : Nat} (hm : 2 * m < k) : Int.bmod m k = m :=
  Int.bmod_eq_of_le (by omega) (by omega)

/-- A value that fits an `off_t`. -/
theorem toOffT_of_lt {m : Nat} (hm : m < 2 ^ 63) : toOffT m = m :=
  bmod_of_lt (by
    rw [Nat.pow_succ 2 63]
    omega)

/-- A value that fits an `int`. -/
theorem toInt_of_lt {m : Nat} (hm : m < 2 ^ 31) : toInt m = m :=
  bmod_of_lt (by
    rw [Nat.pow_succ 2 31]
    omega)

/-- A value that fits a `uint32_t`. -/
theorem ofInt_toNat {m : Nat} (hm : m < 2 ^ 32) : (UInt32.ofInt m).toNat = m := by
  -- the cast to `uint32_t` reduces modulo `2 ^ 32`
  have hmod : (m : Int) % 2 ^ 32 = m := by omega
  rw [UInt32.ofInt, hmod, Int.toNat_natCast, UInt32.toNat_ofNat_of_lt' hm]

/-- The number of the block of an offset in its file. -/
theorem blockIdx_eq {p : Nat} (hp : p < 2 ^ 32) : (blockIdxOf p).toNat = p / 16384 := by
  rw [blockIdxOf, Int.tdiv_eq_ediv_of_nonneg (by omega)]
  exact ofInt_toNat (m := p / 16384) (by omega)

/-- The place of an offset in its block. -/
theorem blockOff_eq (p : Nat) : (blockOffOf p).toNat = p % 16384 := by
  rw [blockOffOf, Int.tmod_eq_emod_of_nonneg (by omega)]
  exact ofInt_toNat (m := p % 16384) (by omega)

/-- A chunk ends with its block or with the buffer. -/
theorem chunkSize_eq {off : UInt32} (hoff : off.toNat < 16384) (left : Nat) :
    (chunkSize off left).toNat = min (16384 - off.toNat) left := by
  -- the subtraction does not wrap
  have hrest : (16384 - off).toNat = 16384 - off.toNat := by
    have hle : off ≤ 16384 := by
      rw [UInt32.le_iff_toNat_le]
      exact Nat.le_of_lt hoff
    exact UInt32.toNat_sub_of_le 16384 off hle
  unfold chunkSize
  rw [hrest]
  by_cases hlt : 16384 - off.toNat > left
  · rw [if_pos hlt, UInt32.toNat_ofNat_of_lt' (by simp only [UInt32.size]; omega)]
    omega
  · rw [if_neg hlt, hrest]
    omega

/-! ## The index -/

/-- One entry of an index block is set. -/
theorem idxOf_putRec (blk : Block) (j : Nat) (b : UInt32) (k : Nat) :
    idxOf (putRec Layout.uint32 blk j b) k = if k = j then b.toNat else idxOf blk k := by
  rw [idxOf, idxEntry, getRec_putRec]
  split <;> rfl

theorem idxEntry_eq_zero (blk : Block) (k : Nat) : idxEntry blk k = 0 ↔ idxOf blk k = 0 :=
  UInt32.toNat_inj.symm

@[simp] theorem idxOf_zero (k : Nat) : idxOf Bytes.zero k = 0 := rfl

/-- The blocks a file with this index uses. -/
def InUse (ib : Nat) (f : Nat → Nat) (count b : Nat) : Prop := b = ib ∨ ∃ k < count, b = f k

section Shape

variable {ib size count : Nat} {f : Nat → Nat}

/-- A file whose record and index block have this shape refers to what it uses. -/
theorem Shape.ref_iff {d : Disk} {n : Nat} (h : Shape ib f size count) (hindex : indexAt d n = ib)
    (hf : ∀ k < 4096, idxAt d ib k = f k) (b : Nat) : Ref d n b ↔ InUse ib f count b := by
  have hle := h.count_le
  constructor
  · rintro ⟨-, heq | ⟨hb, k, hk, hkb⟩⟩
    · exact Or.inl (heq.trans hindex)
    · rw [hindex, hf k hk] at hkb
      exact Or.inr ⟨k, (h.entry k hk).mp (hkb.symm ▸ hb), hkb.symm⟩
  · rintro (rfl | ⟨k, hk, rfl⟩)
    · exact ⟨hindex.symm ▸ h.index_ne, Or.inl hindex.symm⟩
    · have hne : f k ≠ 0 := (h.entry k (by omega)).mpr hk
      exact ⟨hindex.symm ▸ h.index_ne, Or.inr ⟨hne, k, by omega, by rw [hindex, hf k (by omega)]⟩⟩

/-- The index has room for one more block on a disk of at most 4096 blocks. -/
theorem Shape.count_lt {N : Nat} (h : Shape ib f size count) (hN : N ≤ 4096)
    (hrange : ∀ k < count, 6 ≤ f k ∧ f k < N) : count < 4096 := by
  have hcard : (Finset.range count).card ≤ (Finset.Ico 6 N).card :=
    Finset.card_le_card_of_injOn f
      (fun k hk => Finset.mem_coe.mpr (Finset.mem_Ico.mpr
        (hrange k (Finset.mem_range.mp (Finset.mem_coe.mp hk)))))
      (fun j hj k hk => h.inj j (Finset.mem_range.mp (Finset.mem_coe.mp hj)) k
        (Finset.mem_range.mp (Finset.mem_coe.mp hk)))
  rw [Finset.card_range, Nat.card_Ico] at hcard
  have hle := h.count_le
  omega

/-- The next chunk stays in the last block. -/
theorem Shape.grow (h : Shape ib f size count) {t : Nat} (hoff : size % 16384 ≠ 0)
    (ht : size % 16384 + t ≤ 16384) : Shape ib f (size + t) count := by
  have hcount := h.count_eq
  exact ⟨h.index_ne, by omega, h.count_le, h.entry, h.inj, h.off_index⟩

/-- The next chunk starts the block `b`. -/
theorem Shape.push {g : Nat → Nat} {b t : Nat} (h : Shape ib f size count)
    (hoff : size % 16384 = 0) (ht : 0 < t) (ht' : t ≤ 16384) (hlt : count < 4096)
    (hg : ∀ k, g k = if k = count then b else f k) (hb : b ≠ 0)
    (hnew : ¬ InUse ib f count b) : Shape ib g (size + t) (count + 1) := by
  have hcount := h.count_eq
  have hold : ∀ k < count, g k = f k := fun k hk => by rw [hg, if_neg (by omega)]
  have hlast : g count = b := by rw [hg, if_pos rfl]
  have hnf : ∀ k < count, f k ≠ b := fun k hk heq => hnew (Or.inr ⟨k, hk, heq.symm⟩)
  refine ⟨h.index_ne, by omega, by omega, ?_, ?_, ?_⟩
  · -- the entries
    intro k hk
    by_cases hkc : k = count
    · rw [hkc, hlast]
      exact ⟨fun _ => by omega, fun _ => hb⟩
    · rw [hg, if_neg hkc, h.entry k hk]
      omega
  · -- the old entries differ from each other, and `b` from all of them
    intro j hj k hk hjk
    rcases Nat.lt_succ_iff_lt_or_eq.mp hj with hj | rfl <;>
      rcases Nat.lt_succ_iff_lt_or_eq.mp hk with hk | rfl
    · rw [hold j hj, hold k hk] at hjk
      exact h.inj j hj k hk hjk
    · rw [hold j hj, hlast] at hjk
      exact absurd hjk (hnf j hj)
    · rw [hold k hk, hlast] at hjk
      exact absurd hjk.symm (hnf k hk)
    · rfl
  · -- the index block is none of the data blocks
    intro k hk
    rcases Nat.lt_succ_iff_lt_or_eq.mp hk with hk | rfl
    · rw [hold k hk]
      exact h.off_index k hk
    · rw [hlast]
      exact fun heq => hnew (Or.inl heq)

end Shape

/-! ## The bytes -/

/-- The first `size` bytes stored under the index `f` are those of `T`. -/
def Holds (d : Disk) (f : Nat → Nat) (size : Nat) (T : Nat → UInt8) : Prop :=
  ∀ i < size, d (f (i / 16384)) (i % 16384) = T i

section Holds

variable {d : Disk} {ib size count t : Nat} {f : Nat → Nat} {T : Nat → UInt8} {chunk : Bytes}

/-- Bytes behind the last one, in the same block. -/
theorem Holds.grow (h : Holds d f size T) (hshape : Shape ib f size count)
    (hoff : size % 16384 ≠ 0) (ht : size % 16384 + t ≤ 16384)
    (hchunk : ∀ j < t, chunk j = T (size + j)) :
    Holds (Function.update d (f (size / 16384))
      (blit (d (f (size / 16384))) (size % 16384) t chunk)) f (size + t) T := by
  have hcount := hshape.count_eq
  intro i hi
  by_cases hlast : i / 16384 = size / 16384
  · rw [hlast, Function.update_self]
    rcases Nat.lt_or_ge i size with hlt | hge
    · -- bytes in front of the chunk, in the same block
      rw [blit_outside (by omega), ← hlast]
      exact h i hlt
    · have hsplit : i % 16384 = size % 16384 + (i - size) := by omega
      rw [hsplit, blit_inside (by omega), hchunk _ (by omega)]
      congr 1
      omega
  -- a full block in front of the last one; the index has no block twice
  · have hlt : i < size := by omega
    have hne : f (i / 16384) ≠ f (size / 16384) := fun heq =>
      hlast (hshape.inj _ (by omega) _ (by omega) heq)
    rw [Function.update_of_ne hne]
    exact h i hlt

/-- Bytes in a block that is new to the file. -/
theorem Holds.push {g : Nat → Nat} {b : Nat} (h : Holds d f size T)
    (hshape : Shape ib f size count) (hoff : size % 16384 = 0) (ht : t ≤ 16384)
    (hg : ∀ k, g k = if k = count then b else f k) (hnew : ¬ InUse ib f count b)
    (hchunk : ∀ j < t, chunk j = T (size + j)) :
    Holds (Function.update d b (blit zero 0 t chunk)) g (size + t) T := by
  have hcount := hshape.count_eq
  intro i hi
  rcases Nat.lt_or_ge i size with hlt | hge
  -- the old bytes are in old blocks, and `b` is none of them
  · have hk := hshape.lt_count hlt
    have hne : f (i / 16384) ≠ b := fun heq => hnew (Or.inr ⟨_, hk, heq.symm⟩)
    rw [hg, if_neg (by omega), Function.update_of_ne hne]
    exact h i hlt
  -- the new ones start at the beginning of `b`
  · have hsplit : i % 16384 = 0 + (i - size) := by omega
    rw [hg, if_pos (by omega), Function.update_self, hsplit, blit_inside (by omega),
      hchunk _ (by omega)]
    congr 1
    omega

end Holds

/-! ## One pass of `mfs_write` -/

/-- The bytes of a list from address 0 on. -/
def chunkOf (l : List UInt8) : Bytes := fun i => l.getD i 0

/-- Two chunks make one. -/
theorem chunkOf_append (l l' : List UInt8) (i : Nat) :
    chunkOf (l ++ l') i = if i < l.length then chunkOf l i else chunkOf l' (i - l.length) := by
  show (l ++ l').getD i 0 = _
  by_cases hi : i < l.length
  · rw [if_pos hi, List.getD_append _ _ _ _ hi]
    rfl
  · rw [if_neg hi, List.getD_append_right _ _ _ _ (Nat.not_lt.mp hi)]
    rfl

section Pass

variable {s : WriteState} {buf : List UInt8} {offset : Int} {superblock : MfsSuperblock} {p t : Nat}

/-- The bytes of one pass. -/
def chunkList (buf : List UInt8) (s : WriteState) (t : Nat) : List UInt8 :=
  (buf.drop s.bytesWritten).take t

/-- A pass at position `p` copies `t` bytes. -/
structure PassAt (buf : List UInt8) (offset : Int) (s : WriteState) (p t : Nat) : Prop where
  pos : offset + toOffT s.bytesWritten = (p : Nat)
  lt : p / 16384 < 4096
  size : t = min (16384 - p % 16384) (buf.length - s.bytesWritten)

/-- The chunk is as long as the pass says. -/
theorem length_chunkList (ht : s.bytesWritten + t ≤ buf.length) :
    (chunkList buf s t).length = t := by
  rw [chunkList, List.length_take, List.length_drop]
  omega

/-- The chunk has the bytes of the buffer. -/
theorem chunkOf_chunkList (ht : s.bytesWritten + t ≤ buf.length) {i : Nat} (hi : i < t) :
    buf.getD (s.bytesWritten + i) 0 = chunkOf (chunkList buf s t) i := by
  have hlen := length_chunkList ht
  rw [chunkOf, List.getD_eq_getElem _ _ (by omega), List.getD_eq_getElem _ _ (by omega)]
  simp only [chunkList, List.getElem_take, List.getElem_drop]

section PassAt

variable (hp : PassAt buf offset s p t)
include hp

/-- The three numbers a pass computes, without wrapping. -/
theorem PassAt.numbers : (blockIdxOf (offset + toOffT s.bytesWritten)).toNat = p / 16384 ∧
    (blockOffOf (offset + toOffT s.bytesWritten)).toNat = p % 16384 ∧
    (chunkSize (blockOffOf (offset + toOffT s.bytesWritten))
      (buf.length - s.bytesWritten)).toNat = t := by
  have hlt := hp.lt
  have hoff := blockOff_eq p
  rw [hp.pos]
  exact ⟨blockIdx_eq (by omega), hoff, by rw [chunkSize_eq (by omega), hoff, hp.size]⟩

/-- The file size limit is not reached. -/
theorem PassAt.not_efbig : ¬ p / 16384 ≥ mfsBlockSize / 4 := by
  have hlt := hp.lt
  simp only [mfsBlockSize]
  omega

/-- What the source copies out of the buffer. -/
theorem PassAt.blit_eq (hle : s.bytesWritten ≤ buf.length) (dst : Bytes) :
    blit dst (p % 16384) t (fun i => buf.getD (s.bytesWritten + i) 0) =
      blit dst (p % 16384) t (chunkOf (chunkList buf s t)) := by
  have hsize := hp.size
  exact blit_congr fun i hi => chunkOf_chunkList (by omega) hi

/-- A pass that patches a block the file has: a read and a write of it. -/
theorem writeChunk_old (hle : s.bytesWritten ≤ buf.length)
    (hentry : idxEntry s.idxData (p / 16384) ≠ 0) :
    writeChunk superblock buf offset s =
      .read (idxEntry s.idxData (p / 16384)).toNat fun r => match r with
        | none => .done ({ s with rc := -eio }, false)
        | some blk => .write (idxEntry s.idxData (p / 16384)).toNat
            (blit blk (p % 16384) t (chunkOf (chunkList buf s t)))
            fun ok => .done (if ok then ({ s with bytesWritten := s.bytesWritten + t }, true)
              else ({ s with rc := -eio }, false)) := by
  obtain ⟨hidx, hoff, hsize⟩ := hp.numbers
  unfold writeChunk mfsReadBlock
  simp only [hidx, hoff, hsize, if_neg hp.not_efbig, if_neg hentry, readBlock_bind, hp.blit_eq hle]
  refine congrArg _ (funext fun r => ?_)
  cases r with
  | none => rfl
  | some blk =>
    simp only [mfsWriteBlock, writeBlock_bind]
    refine congrArg _ (funext fun ok => ?_)
    cases ok <;> rfl

/-- A pass that needs a block: the bitmap is read and written, then the new block. -/
theorem writeChunk_new (hle : s.bytesWritten ≤ buf.length)
    (hentry : idxEntry s.idxData (p / 16384) = 0) :
    writeChunk superblock buf offset s = allocateBlock superblock >>= fun r => match r with
      | .error rc => .done ({ s with rc := rc }, false)
      | .ok b => .write b.toNat (blit zero (p % 16384) t (chunkOf (chunkList buf s t)))
          fun ok => if ok then .done ({ s with
              idxData := putRec Layout.uint32 s.idxData (p / 16384) b
              inode := { s.inode with blockCount := s.inode.blockCount + 1 }
              bytesWritten := s.bytesWritten + t }, true)
            else freeBlock superblock b >>= fun _ => .done ({ s with rc := -eio }, false) := by
  obtain ⟨hidx, hoff, hsize⟩ := hp.numbers
  unfold writeChunk
  simp only [hidx, hoff, hsize, if_neg hp.not_efbig, if_pos hentry, hp.blit_eq hle]
  refine congrArg _ (funext fun r => ?_)
  cases r with
  | error rc => rfl
  | ok b =>
    simp only [mfsWriteBlock, writeBlock_bind]
    refine congrArg _ (funext fun ok => ?_)
    cases ok <;> rfl

end PassAt

end Pass

end OsProjects.Mfs
