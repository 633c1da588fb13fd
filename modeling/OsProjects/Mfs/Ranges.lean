import OsProjects.Lib.FileDevice
import OsProjects.Mfs.Refinement

/-!
# The handlers stay on the disk

On a consistent image of `N` blocks no handler transfers a block from `N` on, and every
block it writes is 16384 bytes long. Most of a handler can be read off its text: the
metadata blocks have fixed numbers, `allocate_block` is bounded by `block_count`, and so
is `free_block`. Only two numbers come from the disk, the index block in a record and
the entries of an index block; the invariant of the image bounds both.

`within_handle` is the statement about the calls.
-/

namespace OsProjects.Mfs

open Bytes Prog

/-- Whatever the blocks hold, the program stays below block `N`. -/
abbrev Below {α : Type} (N : Nat) (Q : α → Prop) (p : Io α) : Prop :=
  Stays (· < N) (Sized 16384) Q p

/-- The run on the image `d` stays below block `N`. -/
abbrev RunsBelow {α : Type} (N : Nat) (p : Io α) (d : Disk) : Prop :=
  Within (· < N) (Sized 16384) p d

/-- A transfer of a block below `N` succeeds, and what it reads is a block. -/
theorem below_mfsReadBlock {N k : Nat} (hk : k < N) :
    Below N (fun r => ∃ b, r = some b ∧ Sized 16384 b) (mfsReadBlock k) :=
  stays_readBlock hk

theorem below_mfsWriteBlock {N k : Nat} {b : Block} (hk : k < N) (hb : Sized 16384 b) :
    Below N (· = true) (mfsWriteBlock b k) :=
  stays_writeBlock hk hb

section Helpers

variable {N : Nat} (hN : 6 ≤ N)
include hN

/-- The inode table is in blocks 3 and 4, wherever the inode number comes from. -/
theorem below_readInode (inodeNo : UInt32) : Below N (fun _ => True) (readInode inodeNo) := by
  refine stays_ite (fun _ => stays_done trivial) fun hrange => ?_
  have hk : mfsInodeTableStart + (inodeNo.toNat - 1) / 128 < N := by
    simp only [mfsInodeTableStart, mfsInodeCount] at hrange ⊢
    omega
  refine (below_mfsReadBlock hk).bind fun r hr => ?_
  obtain ⟨block, rfl, -⟩ := hr
  exact stays_ite (fun _ => stays_done trivial) fun _ => stays_done trivial

/-- `write_inode` has the check of `read_inode` in front of it. -/
theorem below_writeInode (inode : MfsInode) : Below N (fun _ => True) (writeInode inode) := by
  refine stays_ite (fun _ => stays_done trivial) fun hrange => ?_
  have hk : mfsInodeTableStart + (inode.inodeNo.toNat - 1) / 128 < N := by
    simp only [mfsInodeTableStart, mfsInodeCount] at hrange ⊢
    omega
  refine (below_mfsReadBlock hk).bind fun r hr => ?_
  obtain ⟨block, rfl, hblock⟩ := hr
  refine (below_mfsWriteBlock hk (hblock.putRec _ ?_ _)).bind fun _ _ => stays_done trivial
  omega

/-- The directory is block 5. -/
theorem below_readRootDir :
    Below N (fun r => ∃ entries, r = .ok entries ∧ Sized 16384 entries) readRootDir :=
  (below_mfsReadBlock (show mfsRootDirBlock < N by simp only [mfsRootDirBlock]; omega)).bind
    fun r hr => by
      obtain ⟨entries, rfl, hentries⟩ := hr
      exact stays_done ⟨entries, rfl, hentries⟩

theorem below_writeRootDir {entries : Block} (hentries : Sized 16384 entries) :
    Below N (fun _ => True) (writeRootDir entries) :=
  (below_mfsWriteBlock (show mfsRootDirBlock < N by simp only [mfsRootDirBlock]; omega)
    hentries).bind fun _ _ => stays_done trivial

/-- The lookup transfers nothing but the directory. -/
theorem below_findDirEntry (name : CString) : Below N (fun _ => True) (findDirEntry name) := by
  refine (below_readRootDir hN).bind fun r hr => ?_
  obtain ⟨entries, rfl, -⟩ := hr
  simp only
  cases (List.range' 0 mfsDirEntryCount).find? (dirEntryMatches entries name) with
  | none => exact stays_done trivial
  | some i => exact stays_done trivial

/-- The inode bitmap is block 2. -/
theorem below_allocateInode : Below N (fun _ => True) allocateInode := by
  have hk : mfsInodeBitmapBlock < N := by simp only [mfsInodeBitmapBlock]; omega
  refine (below_mfsReadBlock hk).bind fun r hr => ?_
  obtain ⟨bitmap, rfl, hbitmap⟩ := hr
  simp only
  -- the bit that is found is one of an inode
  cases hfind : (List.range' 1 (mfsInodeCount - 1)).find? (fun i => !mfsGetBit bitmap i) with
  | none => exact stays_done trivial
  | some i =>
    have hi := List.mem_range'_1.mp (List.mem_of_find?_eq_some hfind)
    refine (below_mfsWriteBlock hk (hbitmap.setBit ?_ true)).bind fun ok _ => ?_
    · simp only [mfsInodeCount] at hi
      omega
    · exact stays_ite (fun _ => stays_done trivial) fun _ => stays_done trivial

theorem below_freeInode (inodeNo : UInt32) : Below N (fun _ => True) (freeInode inodeNo) := by
  have hk : mfsInodeBitmapBlock < N := by simp only [mfsInodeBitmapBlock]; omega
  refine stays_ite (fun _ => stays_done trivial) fun hrange => (below_mfsReadBlock hk).bind ?_
  rintro r ⟨bitmap, rfl, hbitmap⟩
  refine (below_mfsWriteBlock hk (hbitmap.setBit ?_ false)).bind fun _ _ => stays_done trivial
  simp only [mfsInodeCount] at hrange
  omega

/-- `mfs_create` behind its checks: directory, inode bitmap and inode table. -/
theorem below_createFile (name : CString) (mode : UInt32) (now : UInt64) :
    Below N (fun _ => True) (createFile name mode now) := by
  refine (below_readRootDir hN).bind fun r hr => ?_
  obtain ⟨entries, rfl, hentries⟩ := hr
  simp only
  -- a slot that is free, if there is one
  cases hfind : (List.range' 2 (mfsDirEntryCount - 2)).find?
      (fun i => (dirEntry entries i).used == 0) with
  | none => exact stays_done trivial
  | some freeSlot =>
    have hslot := List.mem_range'_1.mp (List.mem_of_find?_eq_some hfind)
    refine (below_allocateInode hN).bind fun r _ => ?_
    cases r with
    | error rc => exact stays_done trivial
    | ok inodeNo =>
      refine (below_writeInode hN _).bind fun rc _ => stays_ite (fun _ => ?_) fun _ => ?_
      · -- the inode is given back
        exact (below_freeInode hN inodeNo).bind fun _ _ => stays_done trivial
      · -- the entry goes into its slot
        refine below_writeRootDir hN (hentries.putRec _ ?_ _)
        simp only [mfsDirEntryCount] at hslot
        omega

/-- The end of `mfs_unlink`: directory, inode table and inode bitmap. -/
theorem below_removeFile {entries : Block} (hentries : Sized 16384 entries) {entryIndex : Nat}
    (hi : entryIndex < 256) (inodeNo : UInt32) :
    Below N (fun _ => True) (removeFile entries entryIndex inodeNo) := by
  refine (below_writeRootDir hN (hentries.putRec _ (by omega) _)).bind fun rc _ => ?_
  refine stays_ite (fun _ => stays_done trivial) fun _ => ?_
  refine (below_writeInode hN _).bind fun rc _ => ?_
  exact stays_ite (fun _ => stays_done trivial) fun _ => below_freeInode hN inodeNo

section Bitmap

variable {superblock : MfsSuperblock} (hcount : superblock.blockCount.toNat = N) (hN4 : N ≤ 4096)
include hcount hN4

/-- A block that `allocate_block` hands out is one of the disk. -/
theorem below_allocateBlock :
    Below N (fun r => ∀ b, r = .ok b → b.toNat < N) (allocateBlock superblock) := by
  have hk : mfsBlockBitmapBlock < N := by simp only [mfsBlockBitmapBlock]; omega
  refine (below_mfsReadBlock hk).bind fun r hr => ?_
  obtain ⟨bitmap, rfl, hbitmap⟩ := hr
  simp only [hcount]
  -- the bit that is found is one of a block of the disk
  cases hfind : (List.range' mfsFirstDataBlock (N - mfsFirstDataBlock)).find?
      (fun i => !mfsGetBit bitmap i) with
  | none => exact stays_done fun b hb => by cases hb
  | some i =>
    have hi := List.mem_range'_1.mp (List.mem_of_find?_eq_some hfind)
    simp only [mfsFirstDataBlock] at hi
    refine (below_mfsWriteBlock hk (hbitmap.setBit (by omega) true)).bind fun ok _ => ?_
    refine stays_ite (fun _ => stays_done fun b hb => by cases hb) fun _ => ?_
    refine stays_done fun b hb => ?_
    cases hb
    -- its number is not cut
    rw [UInt32.toNat_ofNat_of_lt' (by simp only [UInt32.size]; omega)]
    omega

/-- `free_block` transfers the block bitmap only, whatever number it is given. -/
theorem below_freeBlock (blockNo : UInt32) :
    Below N (fun _ => True) (freeBlock superblock blockNo) := by
  have hk : mfsBlockBitmapBlock < N := by simp only [mfsBlockBitmapBlock]; omega
  refine stays_ite (fun _ => stays_done trivial) fun hrange => (below_mfsReadBlock hk).bind ?_
  rintro r ⟨bitmap, rfl, hbitmap⟩
  refine (below_mfsWriteBlock hk (hbitmap.setBit ?_ false)).bind fun _ _ => stays_done trivial
  rw [hcount] at hrange
  omega

/-- So does the loop of `mfs_unlink`, whatever the index block holds. -/
theorem below_freeDataBlocks (idxData : Block) (blockCount count i : Nat) :
    Below N (fun _ => True) (freeDataBlocks superblock idxData blockCount count i) := by
  induction count generalizing i with
  | zero => exact stays_done trivial
  | succ count ih =>
    rw [freeDataBlocks]
    refine stays_ite (fun _ => stays_ite (fun _ => ?_) fun _ => ih _) fun _ => stays_done trivial
    exact (below_freeBlock hN hcount hN4 _).bind fun _ _ => ih _

end Bitmap

/-! ## Calls that meet the metadata blocks only -/

/-- The handlers that transfer blocks with fixed numbers only, on any image. -/
theorem below_mfsGetattr (path : CString) : Below N (fun _ => True) (mfsGetattr path) := by
  unfold mfsGetattr
  cases pathName path with
  | none => exact stays_done trivial
  | some name =>
    refine stays_ite (fun _ => (below_readInode hN _).bind fun r _ => ?_) fun _ => ?_
    · cases r <;> exact stays_done trivial
    · refine (below_findDirEntry hN name).bind fun r _ => ?_
      cases r with
      | error rc => exact stays_done trivial
      | ok e => exact (below_readInode hN _).bind fun r _ => by cases r <;> exact stays_done trivial

theorem below_mfsReaddir (path : CString) : Below N (fun _ => True) (mfsReaddir path) := by
  refine stays_ite (fun _ => stays_done trivial) fun _ => (below_readRootDir hN).bind ?_
  rintro r ⟨entries, rfl, -⟩
  exact stays_done trivial

theorem below_mfsCreate (path : CString) (mode : UInt32) (now : UInt64) :
    Below N (fun _ => True) (mfsCreate path mode now) := by
  unfold mfsCreate
  cases pathName path with
  | none => exact stays_done trivial
  | some name =>
    refine stays_ite (fun _ => stays_done trivial) fun _ => ?_
    refine stays_ite (fun _ => stays_done trivial) fun _ => ?_
    refine (below_findDirEntry hN name).bind fun r _ => ?_
    cases r with
    | error rc => exact below_createFile hN name mode now
    | ok e => exact stays_done trivial

theorem below_mfsOpen (path : CString) : Below N (fun _ => True) (mfsOpen path) := by
  unfold mfsOpen
  cases pathName path with
  | none => exact stays_done trivial
  | some name =>
    refine stays_ite (fun _ => stays_done trivial) fun _ => ?_
    refine (below_findDirEntry hN name).bind fun r _ => ?_
    cases r <;> exact stays_done trivial

end Helpers

/-! ## Calls that follow an index block -/

/-- Every entry of the index block is below block `N`. -/
def EntriesBelow (N : Nat) (idxData : Block) : Prop := ∀ k < 4096, idxOf idxData k < N

/-- The loop of `mfs_read` reads the blocks that the index block names. -/
theorem below_readLoop {N : Nat} {idxData : Block} (hidx : EntriesBelow N idxData) (offset : Int)
    (total fuel : Nat) (buf : List UInt8) :
    Below N (fun _ => True) (readLoop idxData offset total fuel buf) := by
  induction fuel generalizing buf with
  | zero => exact stays_done trivial
  | succ fuel ih =>
    rw [readLoop]
    refine stays_ite (fun _ => stays_ite (fun _ => stays_done trivial) fun hlt => ?_)
      fun _ => stays_done trivial
    refine stays_ite (fun _ => ih _) fun _ => ?_
    -- the defensive check has bounded the index
    refine (below_mfsReadBlock (hidx _ (by simpa [mfsBlockSize] using hlt))).bind ?_
    rintro r ⟨blkBuf, rfl, -⟩
    exact ih _

/-- What `mfs_write` keeps in hand: where its index block is, where the blocks in it are,
and how far the file may still grow. -/
structure InHand (N z : Nat) (s : WriteState) : Prop where
  sized : Sized 16384 s.idxData
  entries : EntriesBelow N s.idxData
  index : s.inode.indexBlock.toNat < N
  size : z + s.bytesWritten ≤ 67108864

section Write

variable {N z : Nat} (hN : 6 ≤ N) {superblock : MfsSuperblock}
  (hcount : superblock.blockCount.toNat = N) (hN4 : N ≤ 4096)
include hN hcount hN4

/-- One pass of the loop, in the middle of a block or at its start. -/
theorem below_writeChunk (buf : List UInt8) {s : WriteState} (h : InHand N z s)
    (hlt : s.bytesWritten < buf.length) :
    Below N (fun r => InHand N z r.1) (writeChunk superblock buf z s) := by
  have hsize := h.size
  -- with at most 64 MB nothing wraps
  have hoff : toOffT s.bytesWritten = s.bytesWritten := toOffT_of_lt (by omega)
  have hpos : (z : Int) + toOffT s.bytesWritten = ((z + s.bytesWritten : Nat) : Int) := by
    rw [hoff]
    push_cast
    rfl
  have hidx := blockIdx_eq (p := z + s.bytesWritten) (by omega)
  have hblk := blockOff_eq (z + s.bytesWritten)
  have hoff16 : (blockOffOf ((z + s.bytesWritten : Nat) : Int)).toNat < 16384 := by
    rw [hblk]
    exact Nat.mod_lt _ (by decide)
  -- the chunk ends with the block
  have hchunk := chunkSize_eq hoff16 (buf.length - s.bytesWritten)
  rw [hblk] at hchunk
  unfold writeChunk
  simp only [hpos, hidx, hblk, hchunk, mfsBlockSize]
  -- a full index block ends the loop
  refine stays_ite (fun _ => stays_done ⟨h.sized, h.entries, h.index, h.size⟩) fun hroom => ?_
  refine stays_ite (fun _ => ?_) fun _ => ?_
  · -- a new block, whose number is entered
    refine (below_allocateBlock hN hcount hN4).bind fun r hr => ?_
    cases r with
    | error rc => exact stays_done ⟨h.sized, h.entries, h.index, h.size⟩
    | ok b =>
      refine (below_mfsWriteBlock (hr b rfl) ((sized_zero _).blit (by omega) _)).bind ?_
      intro ok hok
      rw [hok]
      refine stays_done ⟨h.sized.putRec _ (by omega) _, fun k hk => ?_, h.index, ?_⟩
      · -- the entry is below `N`, like the others
        rw [idxOf_putRec]
        split
        · exact hr b rfl
        · exact h.entries k hk
      · show z + (s.bytesWritten + _) ≤ _
        omega
  · -- an old block, which the index block names
    refine (below_mfsReadBlock (h.entries _ (by omega))).bind ?_
    rintro r ⟨blkBuf, rfl, hbuf⟩
    refine (below_mfsWriteBlock (h.entries _ (by omega)) (hbuf.blit (by omega) _)).bind
      fun ok hok => ?_
    rw [hok]
    refine stays_done ⟨h.sized, h.entries, h.index, ?_⟩
    show z + (s.bytesWritten + _) ≤ _
    omega

/-- The loop of `mfs_write` keeps what it has in hand. -/
theorem below_writeLoop (buf : List UInt8) (fuel : Nat) {s : WriteState} (h : InHand N z s) :
    Below N (InHand N z) (writeLoop superblock buf z fuel s) := by
  -- on the passes left
  induction fuel generalizing s with
  | zero => exact stays_done h
  | succ fuel ih =>
    rw [writeLoop]
    refine stays_ite (fun hlt => ?_) fun _ => stays_done h
    have hpass := below_writeChunk hN hcount hN4 buf h hlt
    refine Stays.bind hpass ?_
    rintro ⟨s', go⟩ hs'
    exact stays_ite (fun _ => ih hs') fun _ => stays_done hs'

omit hcount hN4 in
/-- The commit writes the index block it has in hand and the inode table. -/
theorem below_writeCommit {s : WriteState} (h : InHand N z s) (allocated : Bool) (now : UInt64) :
    Below N (fun _ => True) (writeCommit s allocated now) := by
  unfold writeCommit
  refine stays_ite (fun _ => ?_) fun _ => stays_done trivial
  refine (below_mfsWriteBlock h.index h.sized).bind fun ok hok => ?_
  rw [hok]
  refine (below_writeInode hN _).bind fun rc _ => ?_
  exact stays_ite (fun _ => stays_done trivial) fun _ => stays_done trivial

end Write

/-! ## Runs on a consistent image -/

section Image

variable {N n : Nat} {d : Disk} (hinv : FsInv N d) (hd : ∀ k, Sized 16384 (d k)) (hN : 6 ≤ N)
include hinv

/-- The index block of a file and the blocks in it are on the disk. -/
theorem FsInv.index_below (hfile : IsFile d n) (hib : indexAt d n ≠ 0) :
    indexAt d n < N ∧ EntriesBelow N (d (indexAt d n)) := by
  have hindex := hinv.blocks.range n _ ⟨hfile, hib, Or.inl rfl⟩
  refine ⟨hindex.2, fun k hk => ?_⟩
  by_cases hz : idxOf (d (indexAt d n)) k = 0
  · omega
  · exact (hinv.blocks.range n _ ⟨hfile, hib, Or.inr ⟨hz, k, hk, rfl⟩⟩).2

/-- A file has at most 64 MB. -/
theorem FsInv.size_le (hfile : IsFile d n) : sizeAt d n ≤ 67108864 := by
  have hok := hinv.file n hfile
  by_cases hib : indexAt d n = 0
  · have hsize := (hok.unindexed hib).1
    omega
  · have hcount := (hok.shape hib).count_eq
    have hle := (hok.shape hib).count_le
    omega

include hd hN

/-- `read_inode` of a file returns its record, and what follows may count on it. -/
theorem FsInv.within_readInode {inodeNo : UInt32} (hn : inodeNo.toNat = n) (hfile : IsFile d n)
    {α : Type} {f : Except Int MfsInode → Io α} (hf : RunsBelow N (f (.ok (inodeAt d n))) d) :
    RunsBelow N (readInode inodeNo >>= f) d :=
  ((below_readInode hN inodeNo).within hd).1.bind
    (hinv.dir.returns_readInode hn hfile (hinv.file n hfile)).run hf

/-- `mfs_read` on a file of a consistent image follows the entries of its index block. -/
theorem FsInv.within_readFile {inodeNo : UInt32} (hn : inodeNo.toNat = n) (hfile : IsFile d n)
    (size : Nat) (offset : Int) : RunsBelow N (readFile inodeNo size offset) d := by
  refine hinv.within_readInode hd hN hn hfile ?_
  -- the end of the file, or a file without blocks
  by_cases hend : offset ≥ (inodeAt d n).size.toNat
  · simp only [if_pos hend]
    exact within_done
  · by_cases hib : (inodeAt d n).indexBlock = 0
    · simp only [if_neg hend, if_pos hib]
      exact within_done
    · simp only [if_neg hend, if_neg hib]
      have hne : indexAt d n ≠ 0 := fun hz => hib (UInt32.toNat_inj.mp hz)
      -- the entries name blocks of the file
      obtain ⟨hindex, hentries⟩ := hinv.index_below hfile hne
      refine within_read.mpr ⟨hindex, ?_⟩
      exact ((below_readLoop hentries _ _ _ _).within hd).1

/-- The frees of `mfs_unlink` read the index block of the file first. -/
theorem FsInv.within_freeFileBlocks {superblock : MfsSuperblock}
    (hcount : superblock.blockCount.toNat = N) (hN4 : N ≤ 4096) {inodeNo : UInt32}
    (hn : inodeNo.toNat = n) (hfile : IsFile d n) :
    RunsBelow N (freeFileBlocks superblock inodeNo) d := by
  refine hinv.within_readInode hd hN hn hfile ?_
  by_cases hib : (inodeAt d n).indexBlock = 0
  · simp only [if_pos hib]
    exact within_done
  · simp only [if_neg hib]
    have hne : indexAt d n ≠ 0 := fun hz => hib (UInt32.toNat_inj.mp hz)
    refine within_read.mpr ⟨(hinv.index_below hfile hne).1, ?_⟩
    -- `free_block` checks the numbers it is given
    refine (Stays.within (Q := fun _ => True) ?_ hd).1
    refine (below_freeDataBlocks hN hcount hN4 _ _ _ _).bind fun _ _ => ?_
    exact (below_freeBlock hN hcount hN4 _).bind fun _ _ => stays_done trivial

/-- The index block that `mfs_write` starts from. -/
theorem FsInv.within_loadIndexBlock {superblock : MfsSuperblock}
    (hcount : superblock.blockCount.toNat = N) (hN4 : N ≤ 4096) (hfile : IsFile d n) :
    RunsBelow N (loadIndexBlock superblock (inodeAt d n)) d ∧
    ∀ idxData inode allocated,
      (Prog.run (loadIndexBlock superblock (inodeAt d n)) d).1 = .ok (idxData, inode, allocated) →
      InHand N (sizeAt d n) ⟨0, idxData, inode, 0⟩ := by
  have hsize := hinv.size_le hfile
  by_cases hib : (inodeAt d n).indexBlock = 0
  · -- a fresh one: empty, and where `allocate_block` says
    have hstays : Below N (fun r => ∀ idxData inode allocated,
        r = .ok (idxData, inode, allocated) → InHand N (sizeAt d n) ⟨0, idxData, inode, 0⟩)
        (loadIndexBlock superblock (inodeAt d n)) := by
      refine stays_ite (fun _ => ?_) fun h => absurd hib h
      refine (below_allocateBlock hN hcount hN4).bind fun r hr => ?_
      cases r with
      | error rc => exact stays_done fun _ _ _ h => by cases h
      | ok ib =>
        refine (below_mfsWriteBlock (hr ib rfl) (sized_zero _)).bind fun ok hok => ?_
        rw [hok]
        refine stays_done fun idxData inode allocated h => ?_
        cases h
        refine ⟨sized_zero _, fun k _ => ?_, hr ib rfl, hsize⟩
        rw [idxOf_zero]
        omega
    exact hstays.within hd
  · -- the one the file has
    have hne : indexAt d n ≠ 0 := fun hz => hib (UInt32.toNat_inj.mp hz)
    obtain ⟨hindex, hentries⟩ := hinv.index_below hfile hne
    unfold loadIndexBlock
    rw [if_neg hib]
    refine ⟨within_read.mpr ⟨hindex, within_done⟩, fun idxData inode allocated h => ?_⟩
    cases h
    exact ⟨hd _, hentries, hindex, hsize⟩

/-- `mfs_write` on a file of a consistent image, old blocks and new ones. -/
theorem FsInv.within_writeFile {superblock : MfsSuperblock}
    (hcount : superblock.blockCount.toNat = N) (hN4 : N ≤ 4096) {inodeNo : UInt32}
    (hn : inodeNo.toNat = n) (hfile : IsFile d n) (buf : List UInt8) (offset : Int)
    (now : UInt64) : RunsBelow N (writeFile superblock inodeNo buf offset now) d := by
  refine hinv.within_readInode hd hN hn hfile ?_
  -- writes go to the end of the file
  by_cases hoff : offset ≠ (inodeAt d n).size.toNat
  · simp only [if_pos hoff]
    exact within_done
  · simp only [if_neg hoff]
    rw [not_not.mp hoff]
    obtain ⟨hload, hstart⟩ := hinv.within_loadIndexBlock hd hN hcount hN4 hfile
    -- the loop starts with what was loaded
    refine within_bind.mpr ⟨hload, ?_⟩
    have hd' := hload.run_good hd
    cases hr : (Prog.run (loadIndexBlock superblock (inodeAt d n)) d).1 with
    | error rc => exact within_done
    | ok r =>
      obtain ⟨idxData, inode, allocated⟩ := r
      refine (Stays.within (Q := fun _ => True) ?_ hd').1
      refine (below_writeLoop hN hcount hN4 buf _ (hstart _ _ _ hr)).bind fun s hs => ?_
      exact below_writeCommit hN hs allocated now

end Image

section Call

variable {N : UInt32} {d : Disk} {path : CString} (hinv : FsInv N.toNat d)
  (hd : ∀ k, Sized 16384 (d k)) (hN : 6 ≤ N.toNat) (hres : Resolved path)
include hinv hd hN hres

/-- A program behind a lookup, which finds a file or is left at once. -/
theorem FsInv.within_lookup {α : Type} {f : Except Int (MfsDirEntry × Nat) → Io α} {name : CString}
    (hpath : pathName path = some name) (hne : name.val ≠ [])
    (herror : ∃ a, f (.error (-enoent)) = pure a)
    (hfound : ∀ s n, FileAt d s n → RunsBelow N.toNat (f (.ok (entryAt d s, s))) d) :
    RunsBelow N.toNat (findDirEntry name >>= f) d := by
  -- on what the lookup finds
  refine ((below_findDirEntry hN name).within hd).1.bind (returns_findDirEntry d name).run ?_
  cases hinv.dir.pathCase hres with
  | malformed h =>
    rw [hpath] at h
    cases h
  | root h hempty =>
    rw [hpath] at h
    cases h
    exact absurd hempty hne
  | absent h _ _ _ hlookup =>
    rw [hpath] at h
    cases h
    obtain ⟨a, ha⟩ := herror
    rw [hlookup, ha]
    exact within_done
  | present h _ _ hn _ hlookup =>
    rw [hpath] at h
    cases h
    rw [hlookup]
    exact hfound _ _ hn.toFileAt

/-- The three handlers that follow block numbers from the disk. -/
theorem FsInv.within_mfsRead (size : Nat) (offset : Int) :
    RunsBelow N.toNat (mfsRead path size offset) d := by
  unfold mfsRead
  -- the checks in front of the lookup
  by_cases hzero : size = 0
  · rw [if_pos hzero]
    exact within_done
  · rw [if_neg hzero]
    cases hpath : pathName path with
    | none => exact within_done
    | some name =>
      by_cases hempty : name.val = []
      · simp only [if_pos hempty]
        exact within_done
      · simp only [if_neg hempty]
        refine hinv.within_lookup hd hN hres hpath hempty ⟨_, rfl⟩ fun s n hs => ?_
        exact hinv.within_readFile hd hN hs.inodeNo hs.isFile size offset

theorem FsInv.within_mfsUnlink (hN4 : N.toNat ≤ 4096) :
    RunsBelow N.toNat (mfsUnlink (formatSuperblock N) path) d := by
  unfold mfsUnlink
  cases hpath : pathName path with
  | none => exact within_done
  | some name =>
    by_cases hempty : name.val = []
    · simp only [if_pos hempty]
      exact within_done
    · simp only [if_neg hempty]
      refine hinv.within_lookup hd hN hres hpath hempty ⟨_, rfl⟩ fun s n hs => ?_
      refine ((below_readRootDir hN).within hd).1.bind (returns_readRootDir d).run ?_
      have hfree : RunsBelow N.toNat
          (freeFileBlocks (formatSuperblock N) (dirEntry (d 5) s).inodeNo) d :=
        hinv.within_freeFileBlocks hd hN rfl hN4 hs.inodeNo hs.isFile
      refine within_bind.mpr ⟨hfree, ?_⟩
      -- the entries are those read in front of the frees
      exact ((below_removeFile hN (hd 5) hs.lt _).within (hfree.run_good hd)).1

theorem FsInv.within_mfsWrite (hN4 : N.toNat ≤ 4096) (buf : List UInt8) (offset : Int)
    (now : UInt64) : RunsBelow N.toNat (mfsWrite (formatSuperblock N) path buf offset now) d := by
  unfold mfsWrite
  -- the checks in front of the lookup
  by_cases hzero : buf.length = 0
  · rw [if_pos hzero]
    exact within_done
  · rw [if_neg hzero]
    cases hpath : pathName path with
    | none => exact within_done
    | some name =>
      by_cases hempty : name.val = []
      · simp only [if_pos hempty]
        exact within_done
      · simp only [if_neg hempty]
        refine hinv.within_lookup hd hN hres hpath hempty ⟨_, rfl⟩ fun s n hs => ?_
        exact hinv.within_writeFile hd hN rfl hN4 hs.inodeNo hs.isFile buf offset now

omit hres in
/-- **No call leaves the disk.** -/
theorem FsInv.within_handle (hN4 : N.toNat ≤ 4096) {c : Call} (hres : Resolved c.path) :
    RunsBelow N.toNat (handle (formatSuperblock N) c) d := by
  -- on the handlers
  cases c with
  | getattr path =>
    exact within_bind.mpr ⟨((below_mfsGetattr hN path).within hd).1, within_done⟩
  | readdir path =>
    exact within_bind.mpr ⟨((below_mfsReaddir hN path).within hd).1, within_done⟩
  | create path mode now =>
    exact within_bind.mpr ⟨((below_mfsCreate hN path mode now).within hd).1, within_done⟩
  | openFile path =>
    exact within_bind.mpr ⟨((below_mfsOpen hN path).within hd).1, within_done⟩
  | unlink path =>
    exact within_bind.mpr ⟨hinv.within_mfsUnlink hd hN hres hN4, within_done⟩
  | read path size offset =>
    exact within_bind.mpr ⟨hinv.within_mfsRead hd hN hres size offset, within_done⟩
  | write path buf offset now =>
    exact within_bind.mpr ⟨hinv.within_mfsWrite hd hN hres hN4 buf offset now, within_done⟩

end Call

end OsProjects.Mfs
