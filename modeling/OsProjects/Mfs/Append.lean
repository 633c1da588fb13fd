import OsProjects.Mfs.Chunks
import OsProjects.Mfs.Rules

/-!
# mfs_write — an append under interference, failures and a full disk

The handler keeps the new index and the new record in memory until its loop ends, so
between its first and its last write the disk still shows the old file. `Appending`
ties the three together: the record on the disk, the variables of the loop, and the
blocks the file holds. Each pass of the loop keeps it (`wp_writeChunk`), hence the loop
does (`wp_writeLoop`), and `wp_writeCommit` turns it into the new file (`Appended`).
`wp_mfsWrite` is the rule of the whole handler.
-/

namespace OsProjects.Mfs

open Bytes Prog

/-- `idx_data` of the running write, as block numbers. -/
abbrev WriteState.index (s : WriteState) : Nat → Nat := idxOf s.idxData

/-- `inode.index_block` of the running write. -/
abbrev WriteState.ib (s : WriteState) : Nat := s.inode.indexBlock.toNat

/-- `inode.block_count` of the running write. -/
abbrev WriteState.count (s : WriteState) : Nat := s.inode.blockCount.toNat

/-- A write on file `n` is running: `ino` is the record on the disk, `T` the bytes the
file is to have, `len` the number of bytes asked for. -/
structure Appending {N : Nat} (n : Nat) (fail : Prop) (ino : MfsInode) (T : Nat → UInt8)
    (len : Nat) (allocated : Bool) (s : WriteState) (w : World N) : Prop where
  file : IsFile w.disk n
  record : inodeAt w.disk n = ino
  inode : s.inode =
    { ino with indexBlock := s.inode.indexBlock, blockCount := s.inode.blockCount }
  le : s.bytesWritten ≤ len
  shape : Shape s.ib s.index (ino.size.toNat + s.bytesWritten) s.count
  holds : Holds w.disk s.index (ino.size.toNat + s.bytesWritten) T
  held : ∀ b, InUse s.ib s.index s.count b → b ∈ w.held n
  exact : ¬ fail → ∀ b ∈ w.held n, InUse s.ib s.index s.count b
  fresh : allocated = true → ino.indexBlock = 0
  kept : allocated = false → ino.indexBlock = s.inode.indexBlock
  idle : allocated = false → s.bytesWritten = 0 → s.inode = ino ∧ w.disk s.ib = s.idxData

section Appending

variable {N n : Nat} {fail : Prop} {ino : MfsInode} {T : Nat → UInt8} {len : Nat}
  {allocated : Bool} {s : WriteState} {w w' : World N}

/-- Every block in use by the running write is held, so what keeps the held blocks keeps
the write. -/
theorem Appending.transport (h : Appending n fail ino T len allocated s w)
    (hdir : w'.disk 5 = w.disk 5) (hrec : inodeAt w'.disk n = inodeAt w.disk n)
    (hblk : ∀ b, InUse s.ib s.index s.count b → w'.disk b = w.disk b)
    (hheld : ∀ b, InUse s.ib s.index s.count b → b ∈ w'.held n)
    (hexact : ¬ fail → w'.held n ⊆ w.held n) : Appending n fail ino T len allocated s w' where
  file := (isFile_congr hdir n).mpr h.file
  record := hrec.trans h.record
  inode := h.inode
  le := h.le
  shape := h.shape
  holds := fun i hi => by
    rw [hblk _ (Or.inr ⟨_, h.shape.lt_count hi, rfl⟩)]
    exact h.holds i hi
  held := hheld
  exact := fun hf b hb => h.exact hf b (hexact hf hb)
  fresh := h.fresh
  kept := h.kept
  idle := fun ha hb => by
    rw [hblk _ (Or.inl rfl)]
    exact h.idle ha hb

theorem Appending.stable (h : Appending n fail ino T len allocated s w) (hw : Rely n w w') :
    Appending n fail ino T len allocated s w' := by
  refine h.transport hw.dir.rootDir hw.own.record (fun b hb => hw.own.block b (h.held b hb))
    (fun b hb => ?_) fun _ => ?_
  · rw [hw.own.held]
    exact h.held b hb
  · rw [hw.own.held]

/-- The file gives back a block it took in vain. -/
theorem Appending.drop {b : Nat} {blk : Block} (h : Appending n fail ino T len allocated s w)
    (hdisk : w'.disk = Function.update w.disk 1 blk) (hheld : w'.held n = w.held n \ {b})
    (hb : ¬ InUse s.ib s.index s.count b) : Appending n fail ino T len allocated s w' := by
  refine h.transport ?_ ?_ (fun c hc => ?_) (fun c hc => ?_) fun _ => ?_
  · rw [hdisk, Function.update_of_ne (by decide)]
  · rw [hdisk, inodeAt_update_bitmap]
  · have hrange := w.blocks.range n c (h.held c hc)
    rw [hdisk, Function.update_of_ne (by omega)]
  · rw [hheld]
    exact ⟨h.held c hc, fun heq => hb (heq ▸ hc)⟩
  · rw [hheld]
    exact Set.sdiff_subset

/-- Writing a block other than the index block leaves the references on the disk alone. -/
theorem Appending.ref_data {k : Nat} {blk : Block}
    (h : Appending n fail ino T len allocated s w) (hk : 6 ≤ k) (hib : k ≠ s.ib) (b : Nat)
    (href : Ref (Function.update w.disk k blk) n b) : b ∈ w.held n := by
  have hrange := w.dir.file_range h.file
  have hrec : inodeAt (Function.update w.disk k blk) n = inodeAt w.disk n :=
    inodeAt_congr hrange.2 (Function.update_of_ne (by omega) _ _)
      (Function.update_of_ne (by omega) _ _)
  have hindex : indexAt w.disk n = ino.indexBlock.toNat := by rw [indexAt, h.record]
  cases allocated with
  | true =>
    -- the record on the disk has no index block yet
    refine absurd ?_ href.1
    rw [indexAt_congr hrec, hindex, h.fresh rfl]
    rfl
  | false =>
    have hblk : Function.update w.disk k blk (indexAt w.disk n) = w.disk (indexAt w.disk n) := by
      rw [hindex, h.kept rfl]
      exact Function.update_of_ne (Ne.symm hib) _ _
    exact w.blocks.ref n b h.file ((ref_congr hrec hblk b).mp href)

/-- The write with nothing said about blocks held in vain. -/
theorem Appending.forget (h : Appending n fail ino T len allocated s w) :
    Appending n True ino T len allocated s w :=
  { h with exact := fun hf => absurd trivial hf }

/-- A block taken from the bitmap is in use nowhere yet. -/
theorem Appending.took {b : Nat} (h : Appending n fail ino T len allocated s w)
    (ht : Took n b w w') :
    Appending n True ino T len allocated s w' ∧ ¬ InUse s.ib s.index s.count b ∧
      ¬ Ref w'.disk n b ∧ (¬ fail → ∀ c ∈ w'.held n, c = b ∨ InUse s.ib s.index s.count c) := by
  have hnot := w.blocks.not_held ht.free n
  -- only the bitmap has changed
  have hblk : ∀ k, k ≠ 1 → w'.disk k = w.disk k := fun k hk => by
    rw [ht.disk, Function.update_of_ne hk]
  refine ⟨h.forget.transport (hblk 5 (by decide)) ?_ (fun c hc => hblk c ?_) (fun c hc => ?_)
    fun hf => absurd trivial hf, fun huse => hnot (h.held b huse), fun href => ?_,
    fun hf c hc => ?_⟩
  · rw [ht.disk, inodeAt_update_bitmap]
  · have := (w.blocks.range n c (h.held c hc)).1
    omega
  · rw [ht.held]
    exact Or.inr (h.held c hc)
  · have hrec : inodeAt w'.disk n = inodeAt w.disk n := by rw [ht.disk, inodeAt_update_bitmap]
    have hiff := World.ref_iff h.file hrec (fun c hc => hblk c (by omega)) b
    exact hnot (w.blocks.ref n b h.file (hiff.mp href))
  · rw [ht.held] at hc
    exact hc.imp_right (h.exact hf c)

/-- The chunk stays in the last block of the file. -/
theorem Appending.grow {t : Nat} {chunk : Bytes} (h : Appending n fail ino T len allocated s w)
    (hoff : (ino.size.toNat + s.bytesWritten) % 16384 ≠ 0) (ht : 0 < t)
    (hle : (ino.size.toNat + s.bytesWritten) % 16384 + t ≤ 16384)
    (hlen : s.bytesWritten + t ≤ len)
    (hchunk : ∀ j < t, chunk j = T (ino.size.toNat + s.bytesWritten + j))
    (hdisk : w'.disk = Function.update w.disk
      (s.index ((ino.size.toNat + s.bytesWritten) / 16384))
      (blit (w.disk (s.index ((ino.size.toNat + s.bytesWritten) / 16384)))
        ((ino.size.toNat + s.bytesWritten) % 16384) t chunk))
    (hheld : w'.held = w.held) :
    Appending n fail ino T len allocated { s with bytesWritten := s.bytesWritten + t } w' := by
  have hcount := h.shape.count_eq
  have hrange := w.dir.file_range h.file
  -- the block with the offset is one that the file has
  have hk : (ino.size.toNat + s.bytesWritten) / 16384 < s.count := by omega
  have huse : 6 ≤ s.index ((ino.size.toNat + s.bytesWritten) / 16384) :=
    (w.blocks.range n _ (h.held _ (Or.inr ⟨_, hk, rfl⟩))).1
  -- the metadata is not touched
  have hblk : ∀ k, k < 6 → w'.disk k = w.disk k := fun k hk6 => by
    rw [hdisk, Function.update_of_ne (by omega)]
  -- the block takes the bytes behind what it holds
  have hgrow := h.holds.grow h.shape hoff hle hchunk
  rw [← hdisk] at hgrow
  exact {
    file := (isFile_congr (hblk 5 (by decide)) n).mpr h.file
    record := (inodeAt_congr hrange.2 (hblk 3 (by decide)) (hblk 4 (by decide))).trans h.record
    inode := h.inode
    le := hlen
    shape := by
      have hshape := h.shape.grow hoff hle
      rwa [Nat.add_assoc] at hshape
    holds := by rwa [Nat.add_assoc] at hgrow
    held := fun b hb => by
      rw [hheld]
      exact h.held b hb
    exact := fun hf b hb => by
      rw [hheld] at hb
      exact h.exact hf b hb
    fresh := h.fresh
    kept := h.kept
    idle := fun _ hz => absurd hz (by simp only; omega) }

/-- The chunk starts the block `b`, taken for it. -/
theorem Appending.push {t : Nat} {chunk : Bytes} {b : UInt32}
    (h : Appending n True ino T len allocated s w)
    (hoff : (ino.size.toNat + s.bytesWritten) % 16384 = 0) (ht : 0 < t) (hle : t ≤ 16384)
    (hlen : s.bytesWritten + t ≤ len) (hroom : s.count < 4096)
    (hchunk : ∀ j < t, chunk j = T (ino.size.toNat + s.bytesWritten + j))
    (hb : b.toNat ∈ w.held n) (hnew : ¬ InUse s.ib s.index s.count b.toNat)
    (hexact : ¬ fail → ∀ c ∈ w.held n, c = b.toNat ∨ InUse s.ib s.index s.count c)
    (hdisk : w'.disk = Function.update w.disk b.toNat (blit zero 0 t chunk))
    (hheld : w'.held = w.held) :
    Appending n fail ino T len allocated { s with
      idxData := putRec Layout.uint32 s.idxData s.count b
      inode := { s.inode with blockCount := s.inode.blockCount + 1 }
      bytesWritten := s.bytesWritten + t } w' := by
  have hcount := h.shape.count_eq
  have hrange := w.dir.file_range h.file
  have hbrange := w.blocks.range n _ hb
  have hindex := idxOf_putRec s.idxData s.count b
  have hcount' : (s.inode.blockCount + 1).toNat = s.count + 1 := by
    have hroom' : s.inode.blockCount.toNat < 4096 := hroom
    rw [UInt32.toNat_add, UInt32.toNat_one, Nat.mod_eq_of_lt (by omega)]
  have hblk : ∀ k, k < 6 → w'.disk k = w.disk k := fun k hk6 => by
    rw [hdisk, Function.update_of_ne (by omega)]
  have hshape := h.shape.push hoff ht hle hroom hindex (by omega) hnew
  have hpush := h.holds.push h.shape hoff hle hindex hnew hchunk
  rw [← hdisk] at hpush
  -- the new index uses the old blocks and `b`
  have huse : ∀ c, InUse s.ib (idxOf (putRec Layout.uint32 s.idxData s.count b)) (s.count + 1) c ↔
      c = b.toNat ∨ InUse s.ib s.index s.count c := by
    intro c
    constructor
    · rintro (hc | ⟨k, hk, hc⟩)
      · exact Or.inr (Or.inl hc)
      · rw [hindex] at hc
        by_cases hkc : k = s.count
        · exact Or.inl (by rwa [if_pos hkc] at hc)
        · exact Or.inr (Or.inr ⟨k, by omega, by rwa [if_neg hkc] at hc⟩)
    · rintro (hc | hc | ⟨k, hk, hc⟩)
      · exact Or.inr ⟨s.count, by omega, by rw [hindex, if_pos rfl, hc]⟩
      · exact Or.inl hc
      · exact Or.inr ⟨k, by omega, by rw [hindex, if_neg (by omega), hc]⟩
  exact {
    file := (isFile_congr (hblk 5 (by decide)) n).mpr h.file
    record := (inodeAt_congr hrange.2 (hblk 3 (by decide)) (hblk 4 (by decide))).trans h.record
    inode := by
      rw [h.inode]
    le := hlen
    shape := by
      rw [Nat.add_assoc] at hshape
      simpa only [WriteState.count, hcount'] using hshape
    holds := by rwa [Nat.add_assoc] at hpush
    held := fun c hc => by
      simp only [WriteState.count, hcount'] at hc
      rw [hheld]
      rcases (huse c).mp hc with rfl | hold
      · exact hb
      · exact h.held c hold
    exact := fun hf c hc => by
      rw [hheld] at hc
      simp only [WriteState.count, hcount']
      exact (huse c).mpr (hexact hf c hc)
    fresh := h.fresh
    kept := h.kept
    idle := fun _ hz => absurd hz (by simp only; omega) }

/-- With the new index on the disk, the file refers to no more than the write uses. -/
theorem Appending.ref_index (h : Appending n fail ino T len allocated s w) (b : Nat)
    (href : Ref (Function.update w.disk s.ib s.idxData) n b) : InUse s.ib s.index s.count b := by
  -- the index block is none of the metadata
  have hrange := w.dir.file_range h.file
  have hib := w.blocks.range n _ (h.held _ (Or.inl rfl))
  have hrec : inodeAt (Function.update w.disk s.ib s.idxData) n = ino := by
    rw [← h.record]
    exact inodeAt_congr hrange.2 (Function.update_of_ne (by omega) _ _)
      (Function.update_of_ne (by omega) _ _)
  have hindex : indexAt (Function.update w.disk s.ib s.idxData) n = ino.indexBlock.toNat := by
    rw [indexAt, hrec]
  -- a file without an index block refers to nothing
  cases allocated with
  | true =>
    refine absurd ?_ href.1
    rw [hindex, h.fresh rfl]
    rfl
  | false =>
    -- else it refers to what the index block in hand names
    rw [h.kept rfl] at hindex
    refine (h.shape.ref_iff hindex (fun k _ => ?_) b).mp href
    rw [idxAt, Function.update_self]

/-- The index block is written. -/
theorem Appending.saved (h : Appending n fail ino T len allocated s w)
    (hdisk : w'.disk = Function.update w.disk s.ib s.idxData) (hheld : w'.held = w.held) :
    Appending n fail ino T len allocated s w' ∧ w'.disk s.ib = s.idxData := by
  have hrange := w.dir.file_range h.file
  have hib := w.blocks.range n _ (h.held _ (Or.inl rfl))
  -- only the index block is written
  have hblk : ∀ k, k ≠ s.ib → w'.disk k = w.disk k := fun k hk => by
    rw [hdisk, Function.update_of_ne hk]
  have hidx : w'.disk s.ib = s.idxData := by rw [hdisk, Function.update_self]
  exact ⟨{
    file := (isFile_congr (hblk 5 (by omega)) n).mpr h.file
    record := (inodeAt_congr hrange.2 (hblk 3 (by omega)) (hblk 4 (by omega))).trans h.record
    inode := h.inode
    le := h.le
    shape := h.shape
    holds := fun i hi => by
      rw [hblk _ (h.shape.off_index _ (h.shape.lt_count hi))]
      exact h.holds i hi
    held := hheld.symm ▸ h.held
    exact := hheld.symm ▸ h.exact
    fresh := h.fresh
    kept := h.kept
    idle := fun ha hb => ⟨(h.idle ha hb).1, hidx⟩ }, hidx⟩

end Appending

section Rules

variable {N n : Nat} {fail : Prop} {ino : MfsInode} {T : Nat → UInt8} {buf : List UInt8}
  {allocated : Bool} {s : WriteState} {w : World N} {superblock : MfsSuperblock}

/-- Where one pass of the loop may end. -/
def Passed (n : Nat) (fail : Prop) (ino : MfsInode) (T : Nat → UInt8) (len : Nat)
    (allocated : Bool) (s : WriteState) (r : WriteState × Bool) (w : World N) : Prop :=
  Appending n fail ino T len allocated r.1 w ∧
    (r.2 = true → s.bytesWritten < r.1.bytesWritten ∧ r.1.rc = s.rc) ∧
    (¬ fail → r.2 = false → r.1.rc = -enospc)

theorem Appending.stop {len : Nat} (h : Appending n fail ino T len allocated s w) {rc : Int}
    (hrc : ¬ fail → rc = -enospc) :
    Passed n fail ino T len allocated s ({ s with rc := rc }, false) w :=
  ⟨{ h with }, fun hgo => absurd hgo Bool.false_ne_true, fun hf _ => hrc hf⟩

theorem Appending.count_lt {len : Nat} (h : Appending n fail ino T len allocated s w)
    (hN4 : N ≤ 4096) : s.count < 4096 :=
  h.shape.count_lt hN4 fun k hk => w.blocks.range n _ (h.held _ (Or.inr ⟨k, hk, rfl⟩))

/-- The numbers of a pass. -/
theorem Appending.passAt {t : Nat} (h : Appending n fail ino T buf.length allocated s w)
    (hroom : s.count < 4096)
    (ht : t = min (16384 - (ino.size.toNat + s.bytesWritten) % 16384)
      (buf.length - s.bytesWritten)) :
    PassAt buf ino.size.toNat s (ino.size.toNat + s.bytesWritten) t := by
  have hcount := h.shape.count_eq
  refine ⟨?_, by omega, ht⟩
  rw [toOffT_of_lt (by omega)]
  exact (Nat.cast_add _ _).symm

theorem chunk_eq_target {t : Nat} (hT : ∀ j < buf.length, T (ino.size.toNat + j) = buf.getD j 0)
    (ht : s.bytesWritten + t ≤ buf.length) {j : Nat} (hj : j < t) :
    chunkOf (chunkList buf s t) j = T (ino.size.toNat + s.bytesWritten + j) := by
  rw [← chunkOf_chunkList ht hj, Nat.add_assoc, hT _ (by omega)]

/-- The write of a new block has failed: the block is given back, or held in vain if that
fails as well. -/
theorem wp_giveBack {len : Nat} (h : Appending n True ino T len allocated s w) (hf : fail)
    (hN : superblock.blockCount.toNat = N) {b : UInt32} (hb : b.toNat ∈ w.held n)
    (hnew : ¬ InUse s.ib s.index s.count b.toNat) (hunref : ¬ Ref w.disk n b.toNat) :
    wp (writer N n fail) (freeBlock superblock b >>= fun _ => .done ({ s with rc := -eio }, false))
      (Passed n fail ino T len allocated s) w := by
  -- without failures nothing is held in vain, but here one has happened
  have hend : ∀ {w' : World N}, Appending n True ino T len allocated s w' →
      Passed n fail ino T len allocated s ({ s with rc := -eio }, false) w' := fun h' =>
    Appending.stop { h' with exact := fun hn => absurd hf hn } fun hn => absurd hf hn
  rw [wp_bind]
  refine wp_freeBlock hN hb (fun _ => hunref) (fun w₁ w₂ blk hw₁ _ hdisk hheld => ?_)
    (fun _ w₁ hw₁ => ?_)
  · exact wp_done.mpr (hend ((h.stable hw₁).drop hdisk hheld hnew))
  · exact wp_done.mpr (hend (h.stable hw₁))

/-- A pass that starts a block. -/
theorem wp_writeChunk_new (h : Appending n fail ino T buf.length allocated s w)
    (hN : superblock.blockCount.toNat = N) (hN4 : N ≤ 4096)
    (hT : ∀ j < buf.length, T (ino.size.toNat + j) = buf.getD j 0)
    (hlt : s.bytesWritten < buf.length)
    (hoff : (ino.size.toNat + s.bytesWritten) % 16384 = 0) :
    wp (writer N n fail) (writeChunk superblock buf ino.size.toNat s)
      (Passed n fail ino T buf.length allocated s) w := by
  have hcount := h.shape.count_eq
  have hroom := h.count_lt hN4
  obtain ⟨t, ht⟩ : ∃ t, t = min (16384 - (ino.size.toNat + s.bytesWritten) % 16384)
    (buf.length - s.bytesWritten) := ⟨_, rfl⟩
  have hnext : (ino.size.toNat + s.bytesWritten) / 16384 = s.count := by omega
  have hentry : idxEntry s.idxData ((ino.size.toNat + s.bytesWritten) / 16384) = 0 := by
    rw [idxEntry_eq_zero]
    -- an entry in use would be one of the first `count`
    by_contra hne
    have hk := (h.shape.entry _ (by omega)).mp hne
    omega
  rw [writeChunk_new (h.passAt hroom ht) (by omega) hentry, hoff, hnext, wp_bind]
  refine wp_allocateBlock hN (fun w₁ w₂ b hw₁ htook => ?_) (fun w₁ hw₁ _ => ?_)
    (fun hf w₁ hw₁ => ?_)
  · -- `b` is taken, and not yet referred to
    obtain ⟨h₂, hnew, hunref, hexact⟩ := (h.stable hw₁).took htook
    have hb : b.toNat ∈ w₂.held n := by
      rw [htook.held]
      exact Set.mem_insert _ _
    show wp _ (mfsWriteBlock _ b.toNat >>= _) _ w₂
    rw [wp_bind]
    refine wp_writeHeld hb (fun w₃ hw₃ => ?_) (fun w₃ w₄ hw₃ _ hdisk hheld => ?_)
      (fun hf w₃ hw₃ => ?_)
    · exact (h₂.stable hw₃).ref_data htook.range.1 fun hib => hnew (Or.inl hib)
    · -- the block is written: it goes into the index in memory
      rw [← hw₃.own.held] at hb hexact
      have hpush := (h₂.stable hw₃).push hoff (by omega) (by omega) (by omega) hroom
        (fun j hj => chunk_eq_target hT (by omega) hj) hb hnew hexact hdisk hheld
      exact wp_done.mpr ⟨hpush, fun _ => ⟨by simp only; omega, rfl⟩,
        fun _ hgo => absurd hgo.symm Bool.false_ne_true⟩
    · rw [← hw₃.own.held] at hb
      exact wp_giveBack (h₂.stable hw₃) hf hN hb hnew fun href =>
        hunref ((hw₃.ref_iff h₂.file _).mp href)
  · -- no block is free: `break` with -ENOSPC
    exact wp_done.mpr ((h.stable hw₁).stop fun _ => rfl)
  · exact wp_done.mpr ((h.stable hw₁).stop fun hn => absurd hf hn)

/-- A pass that stays in the last block of the file. -/
theorem wp_writeChunk_old (h : Appending n fail ino T buf.length allocated s w)
    (hN4 : N ≤ 4096) (hT : ∀ j < buf.length, T (ino.size.toNat + j) = buf.getD j 0)
    (hlt : s.bytesWritten < buf.length)
    (hoff : (ino.size.toNat + s.bytesWritten) % 16384 ≠ 0) :
    wp (writer N n fail) (writeChunk superblock buf ino.size.toNat s)
      (Passed n fail ino T buf.length allocated s) w := by
  have hcount := h.shape.count_eq
  have hroom := h.count_lt hN4
  -- the chunk ends with the block or with the buffer
  obtain ⟨t, ht⟩ : ∃ t, t = min (16384 - (ino.size.toNat + s.bytesWritten) % 16384)
    (buf.length - s.bytesWritten) := ⟨_, rfl⟩
  have hk : (ino.size.toNat + s.bytesWritten) / 16384 < s.count := by omega
  -- the entry is that of a block
  have hentry : idxEntry s.idxData ((ino.size.toNat + s.bytesWritten) / 16384) ≠ 0 := fun hz =>
    (h.shape.entry _ (by omega)).mpr hk ((idxEntry_eq_zero _ _).mp hz)
  rw [writeChunk_old (h.passAt hroom ht) (by omega) hentry]
  show wp _ (mfsReadBlock _ >>= _) _ w
  rw [wp_bind]
  refine wp_readDisk (fun w₁ hw₁ => ?_) (fun hf w₁ hw₁ => ?_)
  · -- the block was read
    have h₁ := h.stable hw₁
    have hb := h₁.held _ (Or.inr ⟨_, hk, rfl⟩)
    show wp _ (mfsWriteBlock _ (s.index ((ino.size.toNat + s.bytesWritten) / 16384)) >>= _) _ w₁
    rw [wp_bind]
    refine wp_writeHeld hb (fun w₂ hw₂ => ?_) (fun w₂ w₃ hw₂ _ hdisk hheld => ?_)
      (fun hf w₂ hw₂ => ?_)
    · -- the block is none that the file refers to elsewhere
      exact (h₁.stable hw₂).ref_data (w₁.blocks.range n _ hb).1 (h.shape.off_index _ hk)
    · -- nobody else has written to it since it was read
      have hold := hw₂.own.block _ hb
      have hnum : (idxEntry s.idxData ((ino.size.toNat + s.bytesWritten) / 16384)).toNat =
        s.index ((ino.size.toNat + s.bytesWritten) / 16384) := rfl
      rw [hnum, ← hold] at hdisk
      have hgrow := (h₁.stable hw₂).grow hoff (by omega) (by omega) (by omega)
        (fun j hj => chunk_eq_target hT (by omega) hj) hdisk hheld
      exact wp_done.mpr ⟨hgrow, fun _ => ⟨by simp only [if_true]; omega, rfl⟩,
        fun _ hgo => absurd hgo.symm Bool.false_ne_true⟩
    · -- a failing write ends the loop
      exact wp_done.mpr ((h₁.stable hw₂).stop fun hn => absurd hf hn)
  · -- a failing read ends it too
    exact wp_done.mpr ((h.stable hw₁).stop fun hn => absurd hf hn)

/-- One pass of the loop. -/
theorem wp_writeChunk (h : Appending n fail ino T buf.length allocated s w)
    (hN : superblock.blockCount.toNat = N) (hN4 : N ≤ 4096)
    (hT : ∀ j < buf.length, T (ino.size.toNat + j) = buf.getD j 0)
    (hlt : s.bytesWritten < buf.length) :
    wp (writer N n fail) (writeChunk superblock buf ino.size.toNat s)
      (Passed n fail ino T buf.length allocated s) w := by
  by_cases hoff : (ino.size.toNat + s.bytesWritten) % 16384 = 0
  · exact wp_writeChunk_new h hN hN4 hT hlt hoff
  · exact wp_writeChunk_old h hN4 hT hlt hoff

/-- The loop, with enough fuel to write every byte. -/
theorem wp_writeLoop (h : Appending n fail ino T buf.length allocated s w)
    (hN : superblock.blockCount.toNat = N) (hN4 : N ≤ 4096)
    (hT : ∀ j < buf.length, T (ino.size.toNat + j) = buf.getD j 0) (fuel : Nat)
    (hfuel : buf.length ≤ s.bytesWritten + fuel) (hrc : s.rc = 0) :
    wp (writer N n fail) (writeLoop superblock buf ino.size.toNat fuel s)
      (fun s' w' => Appending n fail ino T buf.length allocated s' w' ∧
        (¬ fail → s'.rc = 0 ∧ s'.bytesWritten = buf.length ∨ s'.rc = -enospc)) w := by
  have hle := h.le
  -- on the fuel: a pass that goes on has written at least one byte
  induction fuel generalizing s w with
  | zero =>
    rw [writeLoop]
    exact wp_done.mpr ⟨h, fun _ => Or.inl ⟨hrc, by omega⟩⟩
  | succ fuel ih =>
    rw [writeLoop]
    by_cases hlt : s.bytesWritten < buf.length
    · rw [if_pos hlt, wp_bind]
      refine wp_mono (wp_writeChunk h hN hN4 hT hlt) ?_
      rintro ⟨s', go⟩ w' ⟨h', hgo, hstop⟩
      cases go with
      | true =>
        obtain ⟨hmore, hrc'⟩ := hgo rfl
        simp only at hmore
        exact ih h' (by omega) (hrc'.trans hrc) h'.le
      | false => exact wp_done.mpr ⟨h', fun hf => Or.inr (hstop hf rfl)⟩
    · rw [if_neg hlt]
      exact wp_done.mpr ⟨h, fun _ => Or.inl ⟨hrc, by omega⟩⟩

/-- File `n` is consistent, has the bytes `bytes`, and holds no block in vain. -/
structure Appended {N : Nat} (n : Nat) (mode : UInt32) (bytes : List UInt8) (w : World N) :
    Prop where
  file : IsFile w.disk n
  ok : FileOk w.disk n
  content : content w.disk n = bytes
  mode : (inodeAt w.disk n).mode = mode
  exact : ∀ b ∈ w.held n, Ref w.disk n b

theorem Appended.stable {mode : UInt32} {bytes : List UInt8} {w w' : World N}
    (h : Appended n mode bytes w) (hw : Rely n w w') : Appended n mode bytes w' := by
  -- what the file refers to belongs to it alone
  have hblk : ∀ b, Ref w.disk n b → w'.disk b = w.disk b := fun b hb =>
    hw.own.block b (w.blocks.ref n b h.file hb)
  refine ⟨hw.isFile h.file, ?_, ?_, ?_, ?_⟩
  · by_cases hib : indexAt w.disk n = 0
    · -- an empty file has only its record
      have hib' : indexAt w'.disk n = 0 := (indexAt_congr hw.own.record).trans hib
      have hrec := hw.own.record
      refine ⟨hrec.symm ▸ h.ok.inodeNo, hrec.symm ▸ h.ok.mode, ?_, ?_⟩
      · intro _
        rw [sizeAt, countAt, hrec]
        exact h.ok.unindexed hib
      · intro hne
        exact absurd hib' hne
    · exact fileOk_congr h.ok hw.own.record (hblk _ ⟨hib, Or.inl rfl⟩)
  · -- the bytes
    rw [content_congr h.ok hw.own.record hblk, h.content]
  · -- the mode
    rw [hw.own.record, h.mode]
  · -- what it holds is what it refers to
    intro b hb
    rw [hw.own.held] at hb
    exact (hw.ref_iff h.file b).mpr (h.exact b hb)

/-- A disk that shows the record and the index of the running write shows the new file. -/
theorem Appending.appended {ino' : MfsInode} {size : Nat}
    (h : Shape s.ib s.index size s.count) (hfile : IsFile w.disk n)
    (hrec : inodeAt w.disk n = ino') (hno : ino'.inodeNo.toNat = n)
    (hmode : ino'.mode = sIfreg ||| (ino'.mode &&& 0o777))
    (hindex : ino'.indexBlock = s.inode.indexBlock)
    (hsize : ino'.size.toNat = size) (hcount : ino'.blockCount = s.inode.blockCount)
    (hidx : w.disk s.ib = s.idxData) (hholds : Holds w.disk s.index size T)
    (hexact : ∀ b ∈ w.held n, InUse s.ib s.index s.count b) :
    Appended n ino'.mode ((List.range size).map T) w := by
  -- the record names the index block in hand
  have hat : indexAt w.disk n = s.ib := by rw [indexAt, hrec, hindex]
  have hsz : sizeAt w.disk n = size := by rw [sizeAt, hrec, hsize]
  have hcnt : countAt w.disk n = s.count := by rw [countAt, hrec, hcount]
  have hf : idxAt w.disk s.ib = s.index := by
    funext k
    rw [idxAt, hidx]
  refine ⟨hfile, ⟨hrec.symm ▸ hno, hrec.symm ▸ hmode, fun hz => ?_, fun _ => ?_⟩, ?_, by rw [hrec],
    fun b hb => ?_⟩
  · -- there is an index block
    exact absurd (hat.symm.trans hz) h.index_ne
  · rw [hat, hsz, hcnt, hf]
    exact h
  · -- byte by byte
    rw [content_eq_iff]
    refine ⟨by simp [hsz], ?_⟩
    intro i hi
    have hi' : i < size := by simpa using hi
    rw [hat, hf, hholds i hi']
    simp
  · exact (h.ref_iff hat (fun k _ => congrFun hf k) b).mpr (hexact b hb)

/-- Behind the write of the record the disk shows the new file, if the index block is saved. -/
theorem Appending.committed {len : Nat} {now : UInt64} {w' : World N}
    (h : Appending n fail ino T len allocated s w) (hf : ¬ fail) (hno : ino.inodeNo.toNat = n)
    (hmode : ino.mode = sIfreg ||| (ino.mode &&& 0o777)) (hidx : w.disk s.ib = s.idxData)
    (hdisk : w'.disk = writeRecord w.disk n { s.inode with
      size := ino.size + UInt32.ofNat s.bytesWritten, mtime := now })
    (hheld : w'.held = w.held) :
    Appended n ino.mode ((List.range (ino.size.toNat + s.bytesWritten)).map T) w' := by
  have hcount := h.shape.count_eq
  have hcountle := h.shape.count_le
  have hrange := w.dir.file_range h.file
  have hib := w.blocks.range n _ (h.held _ (Or.inl rfl))
  have hsize : (ino.size + UInt32.ofNat s.bytesWritten).toNat =
      ino.size.toNat + s.bytesWritten := by
    rw [UInt32.toNat_add, UInt32.toNat_ofNat_of_lt' (by simp only [UInt32.size]; omega)]
    omega
  have hrec : inodeAt w'.disk n = { s.inode with
      size := ino.size + UInt32.ofNat s.bytesWritten, mtime := now } := by
    rw [hdisk, inodeAt_writeRecord (by omega) (by omega), if_pos rfl]
  have hblk : ∀ k, 5 ≤ k → w'.disk k = w.disk k := fun k hk => by
    rw [hdisk, writeRecord_of_ne hrange.2 (by omega) (by omega)]
  have hholds : Holds w'.disk s.index (ino.size.toNat + s.bytesWritten) T := fun i hi => by
    have hdata := w.blocks.range n _ (h.held _ (Or.inr ⟨_, h.shape.lt_count hi, rfl⟩))
    rw [hblk _ (by omega)]
    exact h.holds i hi
  have hexact : ∀ b ∈ w'.held n, InUse s.ib s.index s.count b := fun b hb => by
    rw [hheld] at hb
    exact h.exact hf b hb
  -- number and mode of the running record are those of the old one
  have hno' : s.inode.inodeNo.toNat = n := by rw [h.inode]; exact hno
  have hmode' : s.inode.mode = ino.mode := by rw [h.inode]
  rw [← hmode'] at hmode ⊢
  have hfile : IsFile w'.disk n := (isFile_congr (hblk 5 (by omega)) n).mpr h.file
  have happ := Appending.appended h.shape hfile hrec hno' hmode rfl hsize rfl
    ((hblk _ (by omega)).trans hidx) hholds hexact
  exact happ

/-- The end of the handler: index block, then record. -/
theorem wp_writeCommit {now : UInt64} (hno : ino.inodeNo.toNat = n)
    (hmode : ino.mode = sIfreg ||| (ino.mode &&& 0o777))
    (h : Appending n fail ino T buf.length allocated s w) :
    wp (writer N n fail) (writeCommit s allocated now)
      (fun r w' => ¬ fail →
        Appended n ino.mode ((List.range (ino.size.toNat + s.bytesWritten)).map T) w' ∧
        r = if s.bytesWritten > 0 then (s.bytesWritten : Int) else s.rc) w := by
  have hcount := h.shape.count_eq
  have hcountle := h.shape.count_le
  have hrange := w.dir.file_range h.file
  -- what was written fits an `int`
  have hint : toInt s.bytesWritten = s.bytesWritten := toInt_of_lt (by omega)
  unfold writeCommit
  rw [hint]
  by_cases hcommit : s.bytesWritten > 0 ∨ allocated = true
  · rw [if_pos hcommit]
    -- the index block is one the file holds
    have hib : s.ib ∈ w.held n := h.held _ (Or.inl rfl)
    have hibrange := w.blocks.range n _ hib
    rw [wp_bind]
    refine wp_writeHeld hib (fun w₁ hw₁ b href => ?_) (fun w₁ w₂ hw₁ _ hdisk hheld => ?_)
      (fun hf w₁ hw₁ => wp_done.mpr fun hn => absurd hf hn)
    · exact (h.stable hw₁).held b ((h.stable hw₁).ref_index b href)
    · -- the index block is saved, the record still the old one
      obtain ⟨h₂, hidx⟩ := (h.stable hw₁).saved hdisk hheld
      show wp _ (writeInode { s.inode with
        size := s.inode.size + UInt32.ofNat s.bytesWritten, mtime := now } >>= _) _ w₂
      have hno' : s.inode.inodeNo.toNat = n := by rw [h.inode]; exact hno
      have hsz : s.inode.size = ino.size := by rw [h.inode]
      rw [wp_bind, hsz]
      have hsaved : ∀ w₃, Rely n w₂ w₃ → w₃.disk s.ib = s.idxData := fun w₃ hw₃ => by
        rw [hw₃.own.block _ (h₂.held _ (Or.inl rfl)), hidx]
      refine wp_writeInode hrange.1 hrange.2 hno' (fun w₃ hw₃ b href => ?_)
        (fun w₃ w₄ hw₃ _ hdisk₄ hheld₄ => ?_) (fun hf w₃ hw₃ => wp_done.mpr fun hn => absurd hf hn)
      · -- the record the handler writes points at the saved index
        refine (h₂.stable hw₃).held b ((h.shape.ref_iff ?_ (fun k _ => ?_) b).mp href)
        · rw [indexAt, inodeAt_writeRecord (by omega) (by omega), if_pos rfl]
        · rw [idxAt, writeRecord_of_ne hrange.2 (by omega) (by omega), hsaved w₃ hw₃]
      · refine wp_done.mpr fun hf => ⟨?_, rfl⟩
        exact (h₂.stable hw₃).committed hf hno hmode (hsaved w₃ hw₃) hdisk₄ hheld₄
  · -- nothing was written and no index block taken: the file is the old one
    rw [if_neg hcommit]
    have hzero : s.bytesWritten = 0 := by omega
    have hfalse : allocated = false := by simpa using fun ha => hcommit (Or.inr ha)
    obtain ⟨hino, hidx⟩ := h.idle hfalse hzero
    refine wp_done.mpr fun hf => ?_
    refine ⟨Appending.appended h.shape h.file h.record hno hmode (h.kept hfalse) ?_ ?_ hidx h.holds
      (h.exact hf), rfl⟩
    · rw [hzero, Nat.add_zero]
    · rw [hino]

/-! ## The whole handler -/

/-- A consistent file whose index block is in memory is ready for an append. -/
theorem Appended.appending {old : List UInt8} (len : Nat) (h : Appended n ino.mode old w)
    (hrec : inodeAt w.disk n = ino) (hindex : ino.indexBlock ≠ 0)
    (hT : ∀ i < ino.size.toNat, T i = old.getD i 0) :
    Appending n fail ino T len false ⟨0, w.disk ino.indexBlock.toNat, ino, 0⟩ w := by
  have hat : indexAt w.disk n = ino.indexBlock.toNat := by rw [indexAt, hrec]
  -- the file has an index block, and its shape is that of the record
  have hne : indexAt w.disk n ≠ 0 := fun hz => hindex (UInt32.toNat_inj.mp (hat.symm.trans hz))
  have hshape := h.ok.shape hne
  have href := fun b => hshape.ref_iff rfl (fun k _ => rfl) b
  have hsize : sizeAt w.disk n = ino.size.toNat := by rw [sizeAt, hrec]
  have hcount : countAt w.disk n = ino.blockCount.toNat := by rw [countAt, hrec]
  obtain ⟨hlen, hbytes⟩ := content_eq_iff.mp h.content
  rw [hsize, hcount, hat] at hshape
  -- the file holds what it refers to, and no more
  rw [hat, hcount] at href
  exact {
    file := h.file
    record := hrec
    inode := rfl
    le := Nat.zero_le _
    shape := hshape
    holds := fun i hi => by
      have hi' : i < old.length := by
        rw [hlen, hsize]
        exact hi
      have hbyte := hbytes i hi'
      rw [hat] at hbyte
      rw [hT i hi, List.getD_eq_getElem _ _ hi', ← hbyte]
      rfl
    held := fun b hb => w.blocks.ref n b h.file ((href b).mpr hb)
    exact := fun _ b hb => (href b).mp (h.exact b hb)
    fresh := fun hf => absurd hf Bool.false_ne_true
    kept := fun _ => rfl
    idle := fun _ _ => ⟨rfl, rfl⟩ }

/-- An empty file that has just been given an index block is ready for an append. -/
theorem appending_fresh {b : UInt32} (len : Nat) (hfile : IsFile w.disk n)
    (hrec : inodeAt w.disk n = ino)
    (hindex : ino.indexBlock = 0) (hsize : ino.size.toNat = 0) (hcount : ino.blockCount.toNat = 0)
    (hb : b.toNat ∈ w.held n) (hexact : ∀ c ∈ w.held n, c = b.toNat) :
    Appending n fail ino T len true ⟨0, zero, { ino with indexBlock := b }, 0⟩ w where
  file := hfile
  record := hrec
  inode := rfl
  le := Nat.zero_le _
  -- an index block and nothing else
  shape := by
    have hb6 := (w.blocks.range n _ hb).1
    simp only [WriteState.count, WriteState.ib, hsize, hcount]
    exact ⟨by omega, rfl, by omega,
      fun k _ => ⟨fun hne => absurd rfl hne, fun hk => absurd hk (by omega)⟩,
      fun j hj => absurd hj (by omega), fun k hk => absurd hk (by omega)⟩
  holds := fun i hi => absurd hi (by rw [hsize]; simp)
  -- a file of no blocks holds its index block
  held := by
    rintro c (rfl | ⟨k, hk, -⟩)
    · exact hb
    · simp only [WriteState.count, hcount] at hk
      omega
  exact := fun _ c hc => Or.inl (hexact c hc)
  fresh := fun _ => hindex
  kept := fun hf => absurd hf (by decide)
  idle := fun hf => absurd hf (by decide)

/-- "Load or allocate the index block". -/
theorem wp_loadIndexBlock {old : List UInt8} (len : Nat) (h : Appended n ino.mode old w)
    (hN : superblock.blockCount.toNat = N) (hrec : inodeAt w.disk n = ino)
    (hT : ∀ i < ino.size.toNat, T i = old.getD i 0) :
    wp (writer N n fail) (loadIndexBlock superblock ino) (fun r w' => match r with
      | .error rc => ¬ fail → rc = -enospc ∧ Appended n ino.mode old w'
      | .ok (idxData, inode, allocated) =>
        Appending n fail ino T len allocated ⟨0, idxData, inode, 0⟩ w') w := by
  have hrange := w.dir.file_range h.file
  unfold loadIndexBlock
  by_cases hindex : ino.indexBlock = 0
  · rw [if_pos hindex, wp_bind]
    -- until the record is written the file has no block, whatever the others do
    have hat : ∀ {w'}, Rely n w w' → indexAt w'.disk n = 0 := fun hw' => by
      rw [indexAt, hw'.own.record, hrec, hindex]
      rfl
    have hempty : ∀ {w'}, Rely n w w' → ∀ b, b ∉ w'.held n := fun {w'} hw' b hb =>
      ((h.stable hw').exact b hb).1 (hat hw')
    obtain ⟨hsize, hcount⟩ := h.ok.unindexed (hat (Setting.rely_refl (writer N n fail) w))
    rw [sizeAt, hrec] at hsize
    rw [countAt, hrec] at hcount
    refine wp_allocateBlock hN (fun w₁ w₂ b hw₁ htook => ?_) (fun w₁ hw₁ _ => ?_)
      (fun hf w₁ hw₁ => wp_done.mpr fun hn => absurd hf hn)
    · -- `b` is taken as the index block
      have hb : b.toNat ∈ w₂.held n := by
        rw [htook.held]
        exact Set.mem_insert _ _
      have hat₂ : indexAt w₂.disk n = 0 := by
        rw [indexAt, htook.disk, inodeAt_update_bitmap]
        exact hat hw₁
      have hrec₂ : inodeAt w₂.disk n = ino := by
        rw [htook.disk, inodeAt_update_bitmap, hw₁.own.record, hrec]
      have hfile₂ : IsFile w₂.disk n :=
        (isFile_congr htook.guar.dir.rootDir n).mpr (hw₁.isFile h.file)
      show wp _ (mfsWriteBlock zero b.toNat >>= _) _ w₂
      rw [wp_bind]
      have hkeep : ∀ {w₃}, Rely n w₂ w₃ →
          inodeAt (Function.update w₃.disk b.toNat zero) n = ino := fun {w₃} hw₃ => by
        have hblk : ∀ k, k < 6 → Function.update w₃.disk b.toNat zero k = w₃.disk k :=
          fun k hk => Function.update_of_ne (by have := htook.range; omega) _ _
        rw [inodeAt_congr hrange.2 (hblk 3 (by decide)) (hblk 4 (by decide)), hw₃.own.record, hrec₂]
      refine wp_writeHeld hb (fun w₃ hw₃ c href => ?_) (fun w₃ w₄ hw₃ _ hdisk hheld => ?_)
        (fun hf w₃ hw₃ => ?_)
      · refine absurd ?_ href.1
        rw [indexAt, hkeep hw₃, hindex]
        rfl
      · have hfile₄ : IsFile w₄.disk n := by
          refine (isFile_congr ?_ n).mpr (hw₃.isFile hfile₂)
          rw [hdisk, Function.update_of_ne (by have := htook.range; omega)]
        have hheld₄ : w₄.held n = insert b.toNat (w₁.held n) := by
          rw [hheld, hw₃.own.held, htook.held]
        refine wp_done.mpr (appending_fresh len hfile₄ (hdisk ▸ hkeep hw₃) hindex hsize hcount ?_
          fun c hc => ?_)
        · rw [hheld₄]
          exact Set.mem_insert _ _
        · rw [hheld₄] at hc
          exact hc.resolve_right (hempty hw₁ c)
      · -- the write failed: the block is given back
        show wp _ (freeBlock superblock b >>= _) _ w₃
        rw [wp_bind]
        have hb₃ : b.toNat ∈ w₃.held n := by
          rw [hw₃.own.held]
          exact hb
        refine wp_freeBlock hN hb₃ (fun _ href => ?_)
          (fun _ _ _ _ _ _ _ => wp_done.mpr fun hn => absurd hf hn)
          (fun _ _ _ => wp_done.mpr fun hn => absurd hf hn)
        exact ((hw₃.ref_iff hfile₂ _).mp href).1 hat₂
    · exact wp_done.mpr fun _ => ⟨rfl, h.stable hw₁⟩
  · rw [if_neg hindex, wp_bind]
    refine wp_readDisk (fun w₁ hw₁ => ?_) (fun hf w₁ hw₁ => wp_done.mpr fun hn => absurd hf hn)
    exact wp_done.mpr ((h.stable hw₁).appending len (hw₁.own.record.trans hrec) hindex hT)

/-- What `mfs_write` returns on a file of `size` bytes, and how many bytes of the buffer
it has appended. -/
inductive WriteReply (buf : List UInt8) (offset : Int) (size : Nat) : Nat → Int → Prop
  | empty : buf = [] → WriteReply buf offset size 0 0
  | notAppend : buf ≠ [] → offset ≠ size → WriteReply buf offset size 0 (-eopnotsupp)
  | noSpace : buf ≠ [] → offset = size → WriteReply buf offset size 0 (-enospc)
  | wrote {m : Nat} : 0 < m → m ≤ buf.length → offset = size → WriteReply buf offset size m m

theorem map_range_getD {old : List UInt8} {m : Nat} (hm : m ≤ buf.length) :
    (List.range (old.length + m)).map (fun i => (old ++ buf).getD i 0) = old ++ buf.take m := by
  apply List.ext_getElem
  · simp [hm]
  · intro i hi hi'
    have hlt : i < old.length + m := by simpa using hi
    rw [List.getElem_map, List.getElem_range, List.getD_eq_getElem _ _ (by simp; omega)]
    rcases Nat.lt_or_ge i old.length with hio | hio
    · rw [List.getElem_append_left hio, List.getElem_append_left hio]
    · rw [List.getElem_append_right hio, List.getElem_append_right hio, List.getElem_take]

theorem wp_writeFile {old : List UInt8} {inodeNo : UInt32} {offset : Int} {now : UInt64}
    (h : Appended n ino.mode old w) (hN : superblock.blockCount.toNat = N) (hN4 : N ≤ 4096)
    (hrec : inodeAt w.disk n = ino) (hn : inodeNo.toNat = n) (hbuf : buf ≠ []) :
    wp (writer N n fail) (writeFile superblock inodeNo buf offset now) (fun r w' => ¬ fail →
      ∃ m, WriteReply buf offset old.length m r ∧ Appended n ino.mode (old ++ buf.take m) w')
      w := by
  have hrange := w.dir.file_range h.file
  have hlen : old.length = ino.size.toNat := by
    rw [(content_eq_iff.mp h.content).1, sizeAt, hrec]
  have hnoop : ∀ {w'}, Rely n w w' → Appended n ino.mode (old ++ buf.take 0) w' := fun hw' => by
    rw [List.take_zero, List.append_nil]
    exact h.stable hw'
  unfold writeFile
  rw [wp_bind]
  refine wp_readInode (by omega) (by omega) (fun w₁ hw₁ => ?_)
    (fun hf w₁ hw₁ => wp_done.mpr fun hn => absurd hf hn)
  have hrec₁ : inodeAt w₁.disk n = ino := hw₁.own.record.trans hrec
  have hno : ino.inodeNo.toNat = n := hrec ▸ h.ok.inodeNo
  have hload : loadInode (w₁.disk (3 + (inodeNo.toNat - 1) / 128)) inodeNo.toNat = .ok ino := by
    rw [hn, loadInode_ok (by omega) (hrec₁.symm ▸ hno), hrec₁]
  rw [hload]
  show wp _ (if offset ≠ ino.size.toNat then pure (-eopnotsupp) else _) _ w₁
  by_cases hoff : offset = ino.size.toNat
  · -- an append: index block, loop, commit
    rw [if_neg (not_not_intro hoff), wp_bind, hoff]
    have hT : ∀ i < ino.size.toNat, (old ++ buf).getD i 0 = old.getD i 0 := fun i hi => by
      rw [List.getD_append _ _ _ _ (by omega)]
    refine wp_mono (wp_loadIndexBlock buf.length (h.stable hw₁) hN hrec₁ hT) fun r w₂ hr => ?_
    rcases r with rc | ⟨idxData, inode, allocated⟩
    · refine wp_done.mpr fun hf => ?_
      obtain ⟨rfl, happ⟩ := hr hf
      exact ⟨0, .noSpace hbuf (by rw [hlen]), by rwa [List.take_zero, List.append_nil]⟩
    · show wp _ (writeLoop superblock buf ino.size.toNat buf.length ⟨0, idxData, inode, 0⟩ >>=
        fun s => writeCommit s allocated now) _ w₂
      have hT' : ∀ j < buf.length, (old ++ buf).getD (ino.size.toNat + j) 0 = buf.getD j 0 :=
        fun j _ => by
          rw [List.getD_append_right _ _ _ _ (by omega), hlen, Nat.add_sub_cancel_left]
      rw [wp_bind]
      refine wp_mono (wp_writeLoop hr hN hN4 hT' buf.length (by simp) rfl) fun s w₃ hs => ?_
      obtain ⟨happ, hstop⟩ := hs
      have hmode : ino.mode = sIfreg ||| (ino.mode &&& 0o777) := by
        have hfile := h.ok.mode
        rwa [hrec] at hfile
      refine wp_mono (wp_writeCommit hno hmode happ) fun r w₄ hdone hf => ?_
      obtain ⟨hnew, hrc⟩ := hdone hf
      rw [← hlen, map_range_getD happ.le] at hnew
      refine ⟨s.bytesWritten, ?_, hnew⟩
      -- with no byte written the loop can only have stopped for want of a block
      rcases Nat.eq_zero_or_pos s.bytesWritten with hzero | hpos
      · rw [hzero, if_neg (by decide)] at hrc
        rcases hstop hf with ⟨-, hall⟩ | hfull
        · exact absurd (List.length_eq_zero_iff.mp (hall.symm.trans hzero)) hbuf
        · rw [hzero, hrc, hfull]
          exact .noSpace hbuf (by rw [hlen])
      · rw [hrc, if_pos hpos]
        exact .wrote hpos happ.le (by rw [hlen])
  · rw [if_pos hoff]
    exact wp_done.mpr fun _ => ⟨0, .notAppend hbuf (by rwa [hlen]), hnoop hw₁⟩

/-- The rule of `mfs_write` on a name of the directory: a prefix of the buffer is
appended, and the return value says which. -/
theorem wp_mfsWrite {path name : CString} {mode : UInt32} {old : List UInt8} {slot : Nat}
    {offset : Int} {now : UInt64} (hpath : pathName path = some name)
    (h1 : name.val ≠ [46]) (h2 : name.val ≠ [46, 46]) (hslot : Named w.disk name.val slot n)
    (h : Appended n mode old w) (hN : superblock.blockCount.toNat = N) (hN4 : N ≤ 4096) :
    wp (writer N n fail) (mfsWrite superblock path buf offset now) (fun r w' => ¬ fail →
      ∃ m, WriteReply buf offset old.length m r ∧ Appended n mode (old ++ buf.take m) w') w := by
  have hvalid := w.dir.valid_text hslot.toFileAt
  rw [hslot.text_eq] at hvalid
  have hne : name.val ≠ [] := List.ne_nil_of_length_pos hvalid.pos
  unfold mfsWrite
  by_cases hbuf : buf = []
  · rw [if_pos (by rw [hbuf]; rfl)]
    refine wp_done.mpr fun _ => ⟨0, .empty hbuf, ?_⟩
    rwa [List.take_zero, List.append_nil]
  · rw [if_neg (by simpa using hbuf), hpath]
    simp only [if_neg hne]
    rw [wp_bind]
    refine wp_findDirEntry (fun w₁ hw₁ => ?_) (fun hf w₁ _ => wp_done.mpr fun hn => absurd hf hn)
    rw [hw₁.dir.rootDir, w.dir.lookup_ok h1 h2 hslot]
    -- the record is read after the lookup, and is still the same
    have hmode := h.mode
    rw [← hw₁.own.record] at hmode
    subst hmode
    exact wp_writeFile (h.stable hw₁) hN hN4 rfl hslot.inodeNo hbuf

end Rules

end OsProjects.Mfs
