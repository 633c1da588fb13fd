import OsProjects.Lib.BlockFaults
import OsProjects.Mfs.Growth
import OsProjects.Mfs.Refinement

/-!
# The passes of mfs_write, transfer by transfer

The loop of `mfs_write` works on a disk whose index block and record are still those of
the old file. `Running` says which image its variables and this disk stand for: the one
the commit would leave. The pass is run with any of its transfers failing
(`Running.runWith_old`, `Running.runWith_full`, `Running.runWith_new`); the commit and the
index block are written as trees of transfers.
-/

namespace OsProjects.Mfs

open Bytes Prog Prefix

/-- The image with another time of modification for file `n`. -/
def touch (n : Nat) (now : UInt64) (E : Disk) : Disk :=
  writeRecord E n { inodeAt E n with mtime := now }

/-- The image with block `b` as an empty index block of file `n`. -/
def giveIndex (n : Nat) (d : Disk) (b : Nat) : Disk :=
  writeRecord (Function.update (Function.update d 1 (mfsSetBit (d 1) b true)) b zero) n
    { inodeAt d n with indexBlock := UInt32.ofNat b }

/-- The loop of `mfs_write`, with the variables `s` on the disk `D`, stands for the image
`E`: the one behind a commit without the time. -/
structure Running (N n : Nat) (s : WriteState) (D E : Disk) : Prop where
  growing : Growing N n E
  image : E = writeRecord (Function.update D s.inode.indexBlock.toNat s.idxData) n
    (s.inode.grown s.bytesWritten)
  size : sizeAt E n = s.inode.size.toNat + s.bytesWritten
  number : s.inode.inodeNo.toNat = n

section Running

variable {N n : Nat} {s : WriteState} {D E : Disk} (h : Running N n s D E)
include h

theorem Running.record : inodeAt E n = s.inode.grown s.bytesWritten := by
  have hnum := h.growing.number
  rw [h.image, inodeAt_writeRecord (by omega) (by omega), if_pos rfl]

theorem Running.index : indexAt E n = s.inode.indexBlock.toNat := by
  rw [indexAt, h.record]
  rfl

theorem Running.idxData : E (indexAt E n) = s.idxData := by
  have hib := h.growing.index_range
  rw [h.index] at hib ⊢
  have hat := congrFun h.image s.inode.indexBlock.toNat
  rw [writeRecord_of_ne h.growing.number.2 (by omega) (by omega), Function.update_self] at hat
  exact hat

theorem Running.block {k : Nat} (hk : k ≠ 3 ∧ k ≠ 4 ∧ k ≠ indexAt E n) : E k = D k := by
  have hat := congrFun h.image k
  rw [writeRecord_of_ne h.growing.number.2 hk.1 hk.2.1,
    Function.update_of_ne (h.index ▸ hk.2.2)] at hat
  exact hat

theorem Running.bitmap : E 1 = D 1 := by
  have hib := h.growing.index_range
  exact h.block ⟨by decide, by decide, by omega⟩

/-- The entry of the block the next byte goes to. -/
theorem Running.entry : (idxEntry s.idxData (sizeAt E n / 16384)).toNat = lastBlock n E := by
  rw [lastBlock, idxAt, h.idxData]
  rfl

/-- The entry behind the last one in use is zero. -/
theorem Running.entry_zero (hoff : sizeAt E n % 16384 = 0) :
    idxEntry s.idxData (sizeAt E n / 16384) = 0 := by
  have hcount := h.growing.shape.count_eq
  have hroom := h.growing.count_lt
  rw [idxEntry_eq_zero, ← h.idxData]
  -- an entry in use would be one of the first `countAt`
  by_contra hne
  have hk := (h.growing.shape.entry (sizeAt E n / 16384) (by omega)).mp hne
  omega

/-- A data block is written by the loop and in the image alike. -/
theorem Running.image_data {k : Nat} {blk : Block} {r : MfsInode} (hk : k ≠ 3 ∧ k ≠ 4)
    (hib : k ≠ s.inode.indexBlock.toNat) : writeRecord (Function.update E k blk) n r =
      writeRecord (Function.update (Function.update D k blk) s.inode.indexBlock.toNat s.idxData) n
        r := by
  rw [h.image, ← writeRecord_update h.growing.number.2 hk, writeRecord_writeRecord,
    Function.update_comm (Ne.symm hib)]

/-- So is a new data block, with its bit and its entry. -/
theorem Running.image_new {b : Nat} {bitmap blk idx : Block} {r : MfsInode} (hb : 6 ≤ b)
    (hib : b ≠ s.inode.indexBlock.toNat) (h1 : s.inode.indexBlock.toNat ≠ 1) :
    writeRecord (Function.update (Function.update (Function.update E 1 bitmap) b blk)
        s.inode.indexBlock.toNat idx) n r =
      writeRecord (Function.update (Function.update (Function.update D 1 bitmap) b blk)
        s.inode.indexBlock.toNat idx) n r := by
  have hnum := h.growing.number.2
  have hi := h.growing.index_range
  rw [h.index] at hi
  rw [h.image, ← writeRecord_update hnum (by omega), ← writeRecord_update hnum (by omega),
    ← writeRecord_update hnum (by omega), writeRecord_writeRecord, Function.update_comm h1,
    Function.update_comm (Ne.symm hib), Function.update_idem]

end Running

/-! ## Taking a block -/

section Allocate

variable {N : Nat} {d : Disk} {superblock : MfsSuperblock} {o : Nat → Bool} {i : Nat} {α : Type}
  {f : Except Int UInt32 → Io α} (hN : superblock.blockCount.toNat = N)
include hN

/-- Every block is in use: only the bitmap is read. -/
theorem runWith_allocateBlock_full (hclear : firstClear N d = none) :
    runWith o i (allocateBlock superblock >>= f) d =
      runWith o (i + 1) (f (.error (if o i then -enospc else -eio))) d := by
  have hfind : (List.range' 6 (N - 6)).find? (fun b => !mfsGetBit (d 1) b) = none := hclear
  rw [allocateBlock_eq hN, read_bind]
  cases hread : o i with
  | false =>
    rw [runWith_read_fail hread]
    rfl
  | true =>
    rw [runWith_read_ok hread]
    simp only [hfind]
    rfl

section Clear

variable {b : Nat} (hb : firstClear N d = some b)
include hb

/-- Both transfers succeed: the first clear block is marked. -/
theorem runWith_allocateBlock_ok (hread : o i = true) (hwrite : o (i + 1) = true) :
    runWith o i (allocateBlock superblock >>= f) d =
      runWith o (i + 2) (f (.ok (UInt32.ofNat b)))
        (Function.update d 1 (mfsSetBit (d 1) b true)) := by
  have hfind : (List.range' 6 (N - 6)).find? (fun b => !mfsGetBit (d 1) b) = some b := hb
  rw [allocateBlock_eq hN, read_bind, runWith_read_ok hread]
  simp only [hfind, write_bind, done_bind]
  rw [runWith_write_ok hwrite]
  rfl

/-- One of them fails: nothing is marked. -/
theorem runWith_allocateBlock_fail (hfail : ¬ (o i = true ∧ o (i + 1) = true)) :
    runWith o i (allocateBlock superblock >>= f) d =
      runWith o (if o i then i + 2 else i + 1) (f (.error (-eio))) d := by
  have hfind : (List.range' 6 (N - 6)).find? (fun b => !mfsGetBit (d 1) b) = some b := hb
  rw [allocateBlock_eq hN, read_bind]
  -- the read of the bitmap fails, or the write
  cases hread : o i with
  | false =>
    rw [runWith_read_fail hread]
    rfl
  | true =>
    have hwrite : o (i + 1) = false := Bool.eq_false_iff.mpr fun hok => hfail ⟨hread, hok⟩
    rw [runWith_read_ok hread]
    simp only [hfind, write_bind, done_bind]
    rw [runWith_write_fail hwrite]
    rfl

end Clear

end Allocate

/-! ## One pass -/

section Pass

variable {N n : Nat} {s : WriteState} {D E : Disk} {buf : List UInt8} {superblock : MfsSuperblock}
  {t : Nat}

/-- The numbers of a pass. -/
theorem Running.passAt (h : Running N n s D E)
    (ht : t = min (16384 - sizeAt E n % 16384) (buf.length - s.bytesWritten)) :
    PassAt buf s.inode.size.toNat s (sizeAt E n) t := by
  have hle := h.growing.size_le
  have hcount := h.growing.count_lt
  have hceil := h.growing.shape.count_eq
  have hsize := h.size
  refine ⟨?_, by omega, ht⟩
  rw [toOffT_of_lt (by omega), hsize]
  exact (Nat.cast_add _ _).symm

/-- A pass that stays in the last block. -/
theorem Running.fill (h : Running N n s D E) (hle : s.bytesWritten + t ≤ buf.length)
    (hoff : sizeAt E n % 16384 ≠ 0) (ht : sizeAt E n % 16384 + t ≤ 16384) :
    Running N n { s with bytesWritten := s.bytesWritten + t }
      (Function.update D (lastBlock n E) (blit (D (lastBlock n E)) (sizeAt E n % 16384) t
        (chunkOf (chunkList buf s t)))) (fillBlock n E (chunkList buf s t)) := by
  have hlen := length_chunkList hle
  have hlast := h.growing.lastBlock_used hoff
  refine ⟨h.growing.fill hoff (by omega), ?_, ?_, h.number⟩
  · rw [fillBlock, hlen, h.record, grown_grown,
      h.block ⟨show lastBlock n E ≠ 3 by omega, by omega, hlast.2.2⟩]
    exact h.image_data ⟨by omega, by omega⟩ (h.index ▸ hlast.2.2)
  · rw [sizeAt_fillBlock h.growing (by omega), hlen, h.size, Nat.add_assoc]

/-- A pass that starts block `b`. -/
theorem Running.start (h : Running N n s D E) (hle : s.bytesWritten + t ≤ buf.length)
    (hoff : sizeAt E n % 16384 = 0) {b : Nat} (hb : 6 ≤ b ∧ b < N ∧ bitAt E b = false)
    (hpos : 0 < t) (ht : t ≤ 16384) :
    Running N n { s with
        idxData := putRec Layout.uint32 s.idxData (sizeAt E n / 16384) (UInt32.ofNat b)
        inode := { s.inode with blockCount := s.inode.blockCount + 1 }
        bytesWritten := s.bytesWritten + t }
      (Function.update (Function.update D 1 (mfsSetBit (D 1) b true)) b
        (blit zero 0 t (chunkOf (chunkList buf s t)))) (startBlock n E b (chunkList buf s t)) := by
  have hlen := length_chunkList hle
  have hib := h.growing.index_range
  have hbib := h.growing.fresh_ne hb
  refine ⟨h.growing.start hb hoff (by omega) (by omega), ?_, ?_, h.number⟩
  · -- the image with the block in it
    rw [startBlock, hlen, h.record, grown_grown, h.idxData, h.index,
      h.bitmap]
    rw [h.index] at hib hbib
    exact h.image_new hb.1 hbib (by omega)
  · -- the size is longer by the chunk
    rw [sizeAt_startBlock h.growing (by omega), hlen, h.size, Nat.add_assoc]

/-- A bit more is set in the bitmap. -/
theorem Running.mark (h : Running N n s D E) (b : Nat) :
    Running N n s (Function.update D 1 (mfsSetBit (D 1) b true))
      (Function.update E 1 (mfsSetBit (D 1) b true)) := by
  have hib := h.growing.index_range
  have hnum := h.growing.number
  have hmap := h.bitmap
  -- record and index block of the file are elsewhere
  have hrec : inodeAt (Function.update E 1 (mfsSetBit (D 1) b true)) n = inodeAt E n :=
    inodeAt_update_bitmap _ _ n
  have hindex := indexAt_congr hrec
  have hidx : idxAt (Function.update E 1 (mfsSetBit (D 1) b true)) (indexAt E n) =
      idxAt E (indexAt E n) := funext fun k =>
    idxAt_congr (Function.update_of_ne (by omega) _ _) k
  refine ⟨⟨h.growing.le, hnum, ?_, fun c hc => ?_⟩, ?_, ?_, h.number⟩
  · rw [hindex, hidx, sizeAt, countAt, hrec]
    exact h.growing.shape
  · rw [hindex, hidx, countAt, hrec] at hc
    obtain ⟨hlo, hhi, hset⟩ := h.growing.used c hc
    rw [← hmap, bitAt_update]
    refine ⟨hlo, hhi, ?_⟩
    split_ifs
    · rfl
    · exact hset
  · rw [h.index] at hib
    conv_lhs => rw [h.image]
    rw [← writeRecord_update hnum.2 (by decide), Function.update_comm (by omega)]
  · rw [sizeAt, hrec]
    exact h.size

/-- Where a pass that starts a block ends when one of its transfers fails: the block is given
back if it was taken. -/
def brokenPass (o : Nat → Bool) (i : Nat) : Nat :=
  if !o i then i + 1 else if !o (i + 1) then i + 2 else if o (i + 3) then i + 5 else i + 4

/-- The loop has gone from `s` on the disk `D` to `s'` on `D'`, where it stands for `E'`. -/
structure Advanced (N n : Nat) (s : WriteState) (D : Disk) (s' : WriteState) (D' E' : Disk) :
    Prop where
  running : Running N n s' D' E'
  inode : s'.inode = { s.inode with blockCount := s'.inode.blockCount }
  rc : s.rc ≤ 0 → s'.rc ≤ 0
  kept : ∀ k, 2 ≤ k → k < 6 → D' k = D k

theorem Advanced.refl (h : Running N n s D E) : Advanced N n s D s D E :=
  ⟨h, rfl, id, fun _ _ _ => rfl⟩

theorem Advanced.trans {s' s'' : WriteState} {D' D'' E' E'' : Disk}
    (h : Advanced N n s D s' D' E') (h' : Advanced N n s' D' s'' D'' E'') :
    Advanced N n s D s'' D'' E'' := by
  refine ⟨h'.running, ?_, fun hrc => h'.rc (h.rc hrc), ?_⟩
  · rw [h'.inode, h.inode]
  · intro k h2 h6
    rw [h'.kept k h2 h6, h.kept k h2 h6]

/-- A pass that stops changes the error only. -/
theorem Advanced.stop (h : Running N n s D E) {rc : Int} (hrc : rc ≤ 0) :
    Advanced N n s D { s with rc := rc } D E :=
  ⟨⟨h.growing, h.image, h.size, h.number⟩, rfl, fun _ => hrc, fun _ _ _ => rfl⟩

/-- The block a failing pass has marked is given back: the bitmap is the old one again, or the
block stays marked, in `D` and in the disk it stands for. -/
theorem Running.runWith_unmark (h : Running N n s D E) {o : Nat → Bool} {i : Nat}
    (hN : superblock.blockCount.toNat = N) {b : Nat} (hb : firstClear N E = some b) :
    ∃ D' E',
      runWith o i (freeBlock superblock (UInt32.ofNat b) >>= fun _ =>
          .done ({ s with rc := -eio }, false)) (Function.update D 1 (mfsSetBit (D 1) b true)) =
        ⟨({ s with rc := -eio }, false), if o i then i + 2 else i + 1, D'⟩ ∧
      Advanced N n s D { s with rc := -eio } D' E' ∧ ∀ k, k ≠ 1 → E' k = E k := by
  have hle := h.growing.le
  have hfresh := firstClear_some hb
  have hbnum := toNat_ofNat_block hle hfresh.2.1
  have hsame : Advanced N n s D { s with rc := -eio } D E := .stop h (by decide)
  have hmark : Advanced N n s D { s with rc := -eio }
      (Function.update D 1 (mfsSetBit (D 1) b true))
      (Function.update E 1 (mfsSetBit (D 1) b true)) :=
    ⟨hsame.running.mark b, rfl, hsame.rc, fun k h2 _ => Function.update_of_ne (by omega) _ _⟩
  have hkeep : ∀ k, k ≠ 1 → Function.update E 1 (mfsSetBit (D 1) b true) k = E k :=
    fun k hk => Function.update_of_ne hk _ _
  -- `free_block` reads the bitmap again and writes it
  rw [freeBlock_eq hN (by omega) (by omega), read_bind]
  cases hread : o i with
  | false =>
    rw [runWith_read_fail hread]
    exact ⟨_, _, rfl, hmark, hkeep⟩
  | true =>
    rw [runWith_read_ok hread]
    simp only [write_bind, done_bind, Function.update_self, hbnum]
    cases hwrite : o (i + 1) with
    | false =>
      rw [runWith_write_fail hwrite]
      exact ⟨_, _, rfl, hmark, hkeep⟩
    | true =>
      have hclear : mfsGetBit (D 1) b = false := h.bitmap ▸ hfresh.2.2
      rw [runWith_write_ok hwrite, setBit_undo hclear, Function.update_idem,
        Function.update_eq_self]
      exact ⟨_, _, rfl, hsame, fun _ _ => rfl⟩

section Faults

variable {o : Nat → Bool} {i : Nat} {offset : Int} (h : Running N n s D E)
  (hoffset : offset = s.inode.size.toNat) (hlt : s.bytesWritten < buf.length)
  (ht : t = min (16384 - sizeAt E n % 16384) (buf.length - s.bytesWritten))
include h hoffset hlt ht

/-- The pass that patches the last block makes two transfers. -/
theorem Running.runWith_old (hoff : sizeAt E n % 16384 ≠ 0) :
    ((o i = true ∧ o (i + 1) = true) → ∃ s' D',
      runWith o i (writeChunk superblock buf offset s) D = ⟨(s', true), i + 2, D'⟩ ∧
      s'.bytesWritten = s.bytesWritten + t ∧ s'.rc = s.rc ∧
      Advanced N n s D s' D' (fillBlock n E (chunkList buf s t))) ∧
    (¬ (o i = true ∧ o (i + 1) = true) → ∃ i', runWith o i (writeChunk superblock buf offset s) D =
        ⟨({ s with rc := -eio }, false), i', D⟩) := by
  have hlast := h.growing.lastBlock_used hoff
  -- the entry names the last block
  have hentry : idxEntry s.idxData (sizeAt E n / 16384) ≠ 0 := fun hz => by
    have hblock := h.entry
    rw [hz, UInt32.toNat_zero] at hblock
    omega
  rw [hoffset, writeChunk_old (h.passAt ht) (by omega) hentry, h.entry]
  -- on the two transfers of the pass
  cases hread : o i with
  | false =>
    rw [runWith_read_fail hread]
    exact ⟨fun hok => absurd hok.1 Bool.false_ne_true, fun _ => ⟨_, rfl⟩⟩
  | true =>
    rw [runWith_read_ok hread]
    dsimp only
    cases hwrite : o (i + 1) with
    | false =>
      rw [runWith_write_fail hwrite]
      exact ⟨fun hok => absurd hok.2 Bool.false_ne_true, fun _ => ⟨_, rfl⟩⟩
    | true =>
      rw [runWith_write_ok hwrite]
      refine ⟨fun _ => ⟨_, _, rfl, rfl, rfl, h.fill (by omega) hoff (by omega), rfl, id, ?_⟩,
        fun hno => absurd ⟨rfl, rfl⟩ hno⟩
      exact fun k _ h6 => Function.update_of_ne (by omega) _ _

/-- Without a clear block a pass ends behind its first transfer. -/
theorem Running.runWith_full (hN : superblock.blockCount.toNat = N)
    (hoff : sizeAt E n % 16384 = 0) (hclear : firstClear N E = none) :
    runWith o i (writeChunk superblock buf offset s) D =
      ⟨({ s with rc := if o i then -enospc else -eio }, false), i + 1, D⟩ := by
  rw [← firstClear_congr h.bitmap.symm] at hclear
  rw [hoffset, writeChunk_new (h.passAt ht) (by omega) (h.entry_zero hoff),
    runWith_allocateBlock_full hN hclear]
  rfl

/-- A pass that starts a block makes three transfers; when one of them fails, the block is
given back as far as that works. -/
theorem Running.runWith_new (hN : superblock.blockCount.toNat = N)
    (hoff : sizeAt E n % 16384 = 0) {b : Nat} (hb : firstClear N E = some b) :
    ((o i = true ∧ o (i + 1) = true ∧ o (i + 2) = true) → ∃ s' D',
      runWith o i (writeChunk superblock buf offset s) D = ⟨(s', true), i + 3, D'⟩ ∧
      s'.bytesWritten = s.bytesWritten + t ∧ s'.rc = s.rc ∧
      Advanced N n s D s' D' (startBlock n E b (chunkList buf s t))) ∧
    (¬ (o i = true ∧ o (i + 1) = true ∧ o (i + 2) = true) → ∃ D' E',
      runWith o i (writeChunk superblock buf offset s) D =
        ⟨({ s with rc := -eio }, false), brokenPass o i, D'⟩ ∧
      Advanced N n s D { s with rc := -eio } D' E' ∧ ∀ k, k ≠ 1 → E' k = E k) := by
  have hib := h.growing.index_range
  have hfresh := firstClear_some hb
  have hle := h.growing.le
  have hbnum := toNat_ofNat_block hle hfresh.2.1
  -- `allocate_block` looks at the disk, which has the bitmap of the image
  have hdisk : firstClear N D = some b := by
    rw [firstClear_congr h.bitmap.symm]
    exact hb
  rw [hoffset, writeChunk_new (h.passAt ht) (by omega) (h.entry_zero hoff)]
  by_cases htaken : o i = true ∧ o (i + 1) = true
  · rw [runWith_allocateBlock_ok hN hdisk htaken.1 htaken.2, brokenPass, htaken.1, htaken.2]
    dsimp only
    cases hdata : o (i + 2) with
    | true =>
      rw [runWith_write_ok hdata, hbnum]
      refine ⟨fun _ => ⟨_, _, rfl, rfl, rfl, ?_, rfl, id, fun k h2 h6 => ?_⟩,
        fun hno => absurd ⟨rfl, rfl, rfl⟩ hno⟩
      · rw [hoff]
        exact h.start (by omega) hoff hfresh (by omega) (by omega)
      · rw [Function.update_of_ne (by omega), Function.update_of_ne (by omega)]
    | false =>
      rw [runWith_write_fail hdata]
      refine ⟨fun hok => absurd hok.2.2 Bool.false_ne_true, fun _ => ?_⟩
      exact h.runWith_unmark hN hb
  · refine ⟨fun hok => absurd ⟨hok.1, hok.2.1⟩ htaken, fun _ => ⟨D, E, ?_, ?_, fun _ _ => rfl⟩⟩
    · rw [runWith_allocateBlock_fail hN hdisk htaken, brokenPass]
      cases hread : o i with
      | false => rfl
      | true =>
        have hwrite : o (i + 1) = false := Bool.eq_false_iff.mpr fun hok => htaken ⟨hread, hok⟩
        rw [hwrite]
        rfl
    · exact .stop h (by decide)

end Faults

end Pass

/-! ## The commit and the index block -/

section Handler

variable {N n : Nat} {s : WriteState} {D E d : Disk} {buf : List UInt8}
  {superblock : MfsSuperblock}

theorem inodeAt_touch {now : UInt64} (hn : 1 ≤ n) :
    inodeAt (touch n now E) n = { inodeAt E n with mtime := now } := by
  rw [touch, inodeAt_writeRecord hn hn, if_pos rfl]

/-- The commit as a tree of transfers: the index block, and the record that points to it. -/
theorem Running.writeCommit_eq (h : Running N n s D E) {allocated : Bool} {now : UInt64}
    (hcommit : s.bytesWritten > 0 ∨ allocated = true) :
    writeCommit s allocated now = .write (indexAt E n) s.idxData fun ok =>
      if ok then .read (3 + (n - 1) / 128) fun r => match r with
        | none => .done (if s.bytesWritten > 0 then s.bytesWritten else -eio)
        | some block => .write (3 + (n - 1) / 128)
            (putRec mfsInodeLayout block ((n - 1) % 128) { inodeAt E n with mtime := now })
            fun ok => .done (if s.bytesWritten > 0 then s.bytesWritten
              else if ok then s.rc else -eio)
      else .done (if s.bytesWritten > 0 then s.bytesWritten else -eio) := by
  have hnum := h.growing.number
  have hno := h.number
  have hle := h.growing.size_le
  have hsize := h.size
  -- the cast to `int` keeps a count of bytes up to 64 MB
  have hint : toInt s.bytesWritten = s.bytesWritten := toInt_of_lt (by omega)
  unfold writeCommit
  rw [if_pos hcommit, hint, h.record, h.index]
  simp only [mfsWriteBlock, writeBlock_bind]
  refine congrArg _ (funext fun ok => ?_)
  cases ok with
  | false => rfl
  | true =>
    have hrec : writeInode { s.inode with
        size := s.inode.size + UInt32.ofNat s.bytesWritten, mtime := now } = _ :=
      writeInode_eq (by simp only; omega) (by simp only; omega)
    simp only [Bool.not_true, Bool.false_eq_true, if_false, if_true, hrec, hno, read_bind]
    refine congrArg _ (funext fun r => ?_)
    cases r with
    | none => rfl
    | some block =>
      simp only [write_bind, done_bind]
      refine congrArg _ (funext fun ok => ?_)
      cases ok <;> simp

/-- The commit shows the image the loop stands for. -/
theorem Running.disk_commit (h : Running N n s D E) (now : UInt64) :
    writeRecord (Function.update D (indexAt E n) s.idxData) n { inodeAt E n with mtime := now } =
      touch n now E := by
  conv_rhs => rw [touch]
  rw [h.index, h.image, writeRecord_writeRecord, ← h.image]

theorem Running.run_writeCommit (h : Running N n s D E) {allocated : Bool} {now : UInt64}
    (hcommit : s.bytesWritten > 0 ∨ allocated = true) : run (writeCommit s allocated now) D =
      (if s.bytesWritten > 0 then (s.bytesWritten : Int) else s.rc, touch n now E) := by
  rw [h.writeCommit_eq hcommit, run_write, if_pos rfl, run_read]
  exact congrArg (Prod.mk _) (h.disk_commit now)

/-- `mfs_write` behind its checks: the index block, the loop and the commit. -/
def writeIndexed (superblock : MfsSuperblock) (inode : MfsInode) (buf : List UInt8) (offset : Int)
    (now : UInt64) : Io Int :=
  loadIndexBlock superblock inode >>= fun r => match r with
    | .error rc => .done rc
    | .ok (idxData, inode, allocatedIndex) =>
      writeLoop superblock buf offset buf.length ⟨0, idxData, inode, 0⟩ >>= fun s =>
        writeCommit s allocatedIndex now

theorem writeFile_eq {inodeNo : UInt32} {offset : Int} {now : UInt64} :
    writeFile superblock inodeNo buf offset now = readInode inodeNo >>= fun r => match r with
      | .error rc => .done rc
      | .ok inode => if offset ≠ inode.size.toNat then .done (-eopnotsupp)
          else writeIndexed superblock inode buf offset now := rfl

/-- A file with an index block. -/
theorem Growing.running (h : Growing N n d) (hno : (inodeAt d n).inodeNo.toNat = n) :
    Running N n ⟨0, d (indexAt d n), inodeAt d n, 0⟩ d d := by
  refine ⟨h, ?_, rfl, hno⟩
  show d = writeRecord (Function.update d (indexAt d n) (d (indexAt d n))) n
    ((inodeAt d n).grown 0)
  rw [grown_zero, Function.update_eq_self, writeRecord_inodeAt]

end Handler

/-! ## The file before the call -/

section Image

variable {N n b : Nat} {d : Disk}

/-- A consistent file with an index block can grow. -/
theorem FsInv.growing (h : FsInv N d) (hN4 : N ≤ 4096) (hn : IsFile d n)
    (hib : indexAt d n ≠ 0) : Growing N n d := by
  have hshape := (h.file n hn).shape hib
  refine ⟨hN4, h.dir.file_range hn, hshape, ?_⟩
  intro b hb
  have href : b ∈ refs d n := ⟨hn, (hshape.ref_iff rfl (fun _ _ => rfl) b).mpr hb⟩
  have hrange := h.blocks.range n b href
  exact ⟨hrange.1, hrange.2, (h.blocks.used b).mpr (Or.inr ⟨n, href⟩)⟩

section Give

variable (hn : n ≤ 256)
include hn

variable (hb : 6 ≤ b)
include hb

theorem giveIndex_bitmap : giveIndex n d b 1 = mfsSetBit (d 1) b true := by
  rw [giveIndex, writeRecord_of_ne hn (by decide) (by decide), Function.update_of_ne (by omega),
    Function.update_self]

theorem giveIndex_index : giveIndex n d b b = zero := by
  rw [giveIndex, writeRecord_of_ne hn (by omega) (by omega), Function.update_self]

end Give

/-- An empty file that has been given an index block can grow. -/
theorem FsInv.running_giveIndex (h : FsInv N d) (hN4 : N ≤ 4096) (hn : IsFile d n)
    (hib : indexAt d n = 0) (hb : 6 ≤ b ∧ b < N) :
    Running N n ⟨0, zero, { inodeAt d n with indexBlock := UInt32.ofNat b }, 0⟩
      (Function.update (Function.update d 1 (mfsSetBit (d 1) b true)) b zero)
      (giveIndex n d b) := by
  have hrange := h.dir.file_range hn
  obtain ⟨hsize, hcount⟩ := (h.file n hn).unindexed hib
  have hbnum := toNat_ofNat_block hN4 hb.2
  have hrec : inodeAt (giveIndex n d b) n =
      { inodeAt d n with indexBlock := UInt32.ofNat b } := by
    rw [giveIndex, inodeAt_writeRecord (by omega) (by omega), if_pos rfl]
  have hindex : indexAt (giveIndex n d b) n = b := by
    rw [indexAt, hrec]
    exact hbnum
  have hidx : idxAt (giveIndex n d b) b = fun _ => 0 := by
    funext k
    rw [idxAt, giveIndex_index hrange.2 hb.1, idxOf_zero]
  have hsize' : sizeAt (giveIndex n d b) n = 0 := by
    rw [sizeAt, hrec]
    exact hsize
  have hcount' : countAt (giveIndex n d b) n = 0 := by
    rw [countAt, hrec]
    exact hcount
  refine ⟨⟨hN4, hrange, ?_, fun c hc => ?_⟩, ?_, ?_, (h.file n hn).inodeNo⟩
  · rw [hindex, hidx, hsize', hcount']
    -- an empty file with an empty index
    exact ⟨by omega, rfl, by omega, fun k _ => by simp, fun j hj => absurd hj (by omega),
      fun k hk => absurd hk (by omega)⟩
  · rw [hindex, hcount'] at hc
    rcases hc with rfl | ⟨k, hk, -⟩
    · refine ⟨hb.1, hb.2, ?_⟩
      rw [bitAt, giveIndex_bitmap hrange.2 hb.1, mfsGetBit, mfsSetBit, getBit_setBit, if_pos rfl]
    · exact absurd hk (Nat.not_lt_zero k)
  · -- the loop has not written the empty index block yet, and writes the same in the end
    rw [grown_zero, giveIndex, hbnum, Function.update_idem]
  · rw [hsize', Nat.add_zero]
    exact hsize.symm

end Image

end OsProjects.Mfs
