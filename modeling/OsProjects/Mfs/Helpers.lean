import OsProjects.Mfs.Directory

/-!
# The helpers as trees of transfers

Each helper of `mfs.c` makes at most one read and one write. The equations below write
it as that tree, with the pure part of the helper as a function of the block it read;
the three meanings of a block program then reduce it by their own equations.
-/

namespace OsProjects.Mfs

open Bytes Prog

/-- `setBit` undoes itself on a bit that was clear. -/
theorem setBit_undo {bitmap : Block} {i : Nat} (hclear : mfsGetBit bitmap i = false) :
    mfsSetBit (mfsSetBit bitmap i true) i false = bitmap := by
  funext k
  refine eq_of_getBit ?_
  intro j _
  simp only [mfsSetBit, getBit_setBit]
  by_cases hij : i = j
  · rw [if_pos hij, ← hij]
    exact hclear.symm
  · rw [if_neg hij, if_neg hij]

/-- `find_dir_entry` is one transfer and a pure lookup. -/
theorem findDirEntry_eq (name : CString) :
    findDirEntry name = .read 5 fun r => .done (match r with
      | none => .error (-eio)
      | some entries => lookupEntry entries name) := by
  unfold findDirEntry readRootDir mfsReadBlock lookupEntry
  rw [readBlock_bind, read_bind]
  congr 1
  funext r
  cases r with
  | none => rfl
  | some entries =>
    simp only [pure_eq, done_bind]
    cases (List.range' 0 mfsDirEntryCount).find? (dirEntryMatches entries name) <;> rfl

/-- What `read_inode` returns when the block of the inode was read. -/
def loadInode (block : Block) (n : Nat) : Except Int MfsInode :=
  if (getRec mfsInodeLayout block ((n - 1) % 128)).inodeNo = 0 then .error (-enoent)
  else .ok (getRec mfsInodeLayout block ((n - 1) % 128))

/-- A record that carries its own number is loaded. -/
theorem loadInode_ok {d : Disk} {n : Nat} (hn : 1 ≤ n) (hno : (inodeAt d n).inodeNo.toNat = n) :
    loadInode (d (3 + (n - 1) / 128)) n = .ok (inodeAt d n) := by
  -- `read_inode` takes a record with number 0 for a missing one
  have hne : (inodeAt d n).inodeNo ≠ 0 := fun hz => by
    rw [hz] at hno
    exact absurd hno (by simp only [UInt32.toNat_zero]; omega)
  exact if_neg hne

/-- `read_inode` of a number in range is one transfer and a look at the record. -/
theorem readInode_eq {inodeNo : UInt32} (hlo : 1 ≤ inodeNo.toNat) (hhi : inodeNo.toNat ≤ 256) :
    readInode inodeNo = .read (3 + (inodeNo.toNat - 1) / 128) fun r => .done (match r with
      | none => .error (-eio)
      | some block => loadInode block inodeNo.toNat) := by
  unfold readInode mfsReadBlock
  rw [if_neg (by simp only [mfsInodeCount]; omega)]
  simp only [readBlock_bind]
  congr 1
  funext r
  cases r with
  | none => rfl
  | some block =>
    simp only [loadInode, pure_eq]
    -- a record that was never written has the number 0
    by_cases hz : (getRec mfsInodeLayout block ((inodeNo.toNat - 1) % 128)).inodeNo = 0
    · rw [if_pos hz, if_pos hz]
    · rw [if_neg hz, if_neg hz]

/-- The disk after record `n` of the inode table is written. -/
def writeRecord (d : Disk) (n : Nat) (inode : MfsInode) : Disk :=
  Function.update d (3 + (n - 1) / 128)
    (putRec mfsInodeLayout (d (3 + (n - 1) / 128)) ((n - 1) % 128) inode)

/-- Two records never share bytes. -/
theorem inodeAt_writeRecord {d : Disk} {n m : Nat} {inode : MfsInode} (hn : 1 ≤ n) (hm : 1 ≤ m) :
    inodeAt (writeRecord d n inode) m = if m = n then inode else inodeAt d m := by
  unfold inodeAt writeRecord
  by_cases hblock : (m - 1) / 128 = (n - 1) / 128
  · rw [hblock, Function.update_self, getRec_putRec]
    -- in one table block the places tell the numbers apart
    have hiff : (m - 1) % 128 = (n - 1) % 128 ↔ m = n := by omega
    simp only [hiff]
  -- the other table block is not written
  · have hne : m ≠ n := by
      rintro rfl
      exact hblock rfl
    rw [Function.update_of_ne (by omega), if_neg hne]

/-- The record is in one of the two blocks of the table. -/
theorem writeRecord_of_ne {d : Disk} {n k : Nat} {inode : MfsInode} (hn : n ≤ 256) (h3 : k ≠ 3)
    (h4 : k ≠ 4) : writeRecord d n inode k = d k :=
  Function.update_of_ne (by omega) _ _

/-- `write_inode` reads the block around the record before it writes it back. -/
theorem writeInode_eq {inode : MfsInode} (hlo : 1 ≤ inode.inodeNo.toNat)
    (hhi : inode.inodeNo.toNat ≤ 256) :
    writeInode inode = .read (3 + (inode.inodeNo.toNat - 1) / 128) fun r => match r with
      | none => .done (-eio)
      | some block => .write (3 + (inode.inodeNo.toNat - 1) / 128)
          (putRec mfsInodeLayout block ((inode.inodeNo.toNat - 1) % 128) inode)
          fun ok => .done (if ok then 0 else -eio) := by
  unfold writeInode mfsReadBlock
  rw [if_neg (by simp only [mfsInodeCount]; omega)]
  simp only [readBlock_bind]
  congr 1
  funext r
  cases r <;> rfl

/-- `allocate_inode`: the scan is a search in the bitmap that was read. -/
theorem allocateInode_eq :
    allocateInode = .read 2 fun r => match r with
      | none => .done (.error (-eio))
      | some bitmap =>
        match (List.range' 1 255).find? (fun i => !mfsGetBit bitmap i) with
        | none => .done (.error (-enospc))
        | some i => .write 2 (mfsSetBit bitmap i true)
            fun ok => .done (if ok then .ok (UInt32.ofNat (i + 1)) else .error (-eio)) := by
  unfold allocateInode mfsReadBlock
  rw [readBlock_bind]
  congr 1
  funext r
  cases r with
  | none => rfl
  | some bitmap =>
    simp only [mfsInodeCount]
    -- a bit that is clear, if there is one
    cases (List.range' 1 255).find? (fun i => !mfsGetBit bitmap i) with
    | none => rfl
    | some i =>
      simp only [mfsWriteBlock, writeBlock_bind]
      congr 1
      funext ok
      cases ok <;> rfl

/-- `free_inode` of a number in range. -/
theorem freeInode_eq {inodeNo : UInt32} (hlo : 2 ≤ inodeNo.toNat) (hhi : inodeNo.toNat ≤ 256) :
    freeInode inodeNo = .read 2 fun r => match r with
      | none => .done (-eio)
      | some bitmap => .write 2 (mfsSetBit bitmap (inodeNo.toNat - 1) false)
          fun ok => .done (if ok then 0 else -eio) := by
  have hroot : mfsRootInode.toNat = 1 := rfl
  unfold freeInode mfsReadBlock
  rw [if_neg (by simp only [mfsInodeCount, hroot]; omega)]
  simp only [readBlock_bind]
  congr 1
  funext r
  cases r <;> rfl

section Blocks

variable {superblock : MfsSuperblock} {N : Nat} (hN : superblock.blockCount.toNat = N)
include hN

/-- `allocate_block`, in the same two transfers. -/
theorem allocateBlock_eq :
    allocateBlock superblock = .read 1 fun r => match r with
      | none => .done (.error (-eio))
      | some bitmap =>
        match (List.range' 6 (N - 6)).find? (fun i => !mfsGetBit bitmap i) with
        | none => .done (.error (-enospc))
        | some i => .write 1 (mfsSetBit bitmap i true)
            fun ok => .done (if ok then .ok (UInt32.ofNat i) else .error (-eio)) := by
  unfold allocateBlock mfsReadBlock
  rw [readBlock_bind]
  congr 1
  funext r
  cases r with
  | none => rfl
  | some bitmap =>
    simp only [mfsFirstDataBlock, hN]
    -- a bit that is clear, if there is one
    cases (List.range' 6 (N - 6)).find? (fun i => !mfsGetBit bitmap i) with
    | none => rfl
    | some i =>
      simp only [mfsWriteBlock, writeBlock_bind]
      congr 1
      funext ok
      cases ok <;> rfl

/-- `free_block` of a block behind the metadata. -/
theorem freeBlock_eq {blockNo : UInt32} (hlo : 6 ≤ blockNo.toNat) (hhi : blockNo.toNat < N) :
    freeBlock superblock blockNo = .read 1 fun r => match r with
      | none => .done (-eio)
      | some bitmap => .write 1 (mfsSetBit bitmap blockNo.toNat false)
          fun ok => .done (if ok then 0 else -eio) := by
  unfold freeBlock mfsReadBlock
  rw [if_neg (by simp only [mfsFirstDataBlock, hN]; omega)]
  simp only [readBlock_bind]
  congr 1
  funext r
  cases r <;> rfl

end Blocks

end OsProjects.Mfs
