import OsProjects.Lib.BlockProbes
import OsProjects.Mfs.Calls

/-!
# Array accesses of the handlers

The handlers of `mfs.c` once more, each with a report where the source indexes an array:
a bitmap (`bitmap[bit / 8]` in `mfs_get_bit` and `mfs_set_bit`), the directory
(`entries[i]`), a record of the inode table, an index block (`idx_data[block_idx]`), and
the bytes of a stored name that `strcmp` looks at. `Access.InRange` is the size of each
of these arrays. The calls of `allocate_block` and `free_block` are reported too, since how
far these two go is up to their callers and to `block_count`.

Without their reports they are the handlers of `Definitions` (`erase_handle`), so what is
said of their accesses is said of those.
-/

namespace OsProjects.Mfs

open Bytes Prog

/-- An element of an array that a handler uses, or a call of one of the two helpers that
work on the block bitmap. -/
inductive Access
  /-- `bitmap[bit / 8]`. -/
  | bit (i : Nat)
  /-- `entries[i]`. -/
  | entry (i : Nat)
  /-- The last byte of `entries[_].name` that `strcmp` looks at. -/
  | name (i : Nat)
  /-- `((struct mfs_inode *) block)[block_index]`. -/
  | record (i : Nat)
  /-- `idx_data[block_idx]`. -/
  | index (i : Nat)
  | allocateBlock
  | freeBlock (blockNo : UInt32)
  deriving DecidableEq

/-- The element exists. -/
def Access.InRange : Access → Prop
  | .bit i => i / 8 < mfsBlockSize
  | .entry i => i < mfsDirEntryCount
  | .name i => i < mfsFilenameSize
  | .record i => i < 128
  | .index i => i < mfsBlockSize / 4
  | .allocateBlock | .freeBlock _ => True

instance : (a : Access) → Decidable a.InRange
  | .bit _ | .entry _ | .name _ | .record _ | .index _ =>
    inferInstanceAs (Decidable ((_ : Nat) < _))
  | .allocateBlock | .freeBlock _ => inferInstanceAs (Decidable True)

/-- It is an element of an array. -/
def Access.Plain : Access → Prop
  | .allocateBlock | .freeBlock _ => False
  | _ => True

/-- A handler that reports its accesses. -/
abbrev Probed (α : Type) := Probe Access Block α

namespace Probed

open Probe

/-- Where `strcmp(mem, s)` ends: at the first byte that differs, or at the NUL of `s`. -/
def strcmpEnd (mem : Bytes) : List UInt8 → Nat
  | [] => 0
  | c :: s => if mem 0 = c then strcmpEnd (slice mem 1) s + 1 else 0

/-! ## Helpers -/

/-- `read_inode`. -/
def readInode (inodeNo : UInt32) : Probed (Except Int MfsInode) := do
  if inodeNo.toNat < 1 ∨ inodeNo.toNat > mfsInodeCount then return .error (-enoent)
  let index := inodeNo.toNat - 1
  let some block ← mfsReadBlock (mfsInodeTableStart + index / 128) | return .error (-eio)
  report (.record (index % 128))
  let inode := getRec mfsInodeLayout block (index % 128)
  if inode.inodeNo = 0 then return .error (-enoent)
  return .ok inode

/-- `write_inode`. -/
def writeInode (inode : MfsInode) : Probed Int := do
  if inode.inodeNo.toNat < 1 ∨ inode.inodeNo.toNat > mfsInodeCount then return -einval
  let index := inode.inodeNo.toNat - 1
  let some block ← mfsReadBlock (mfsInodeTableStart + index / 128) | return -eio
  report (.record (index % 128))
  let ok ← mfsWriteBlock (putRec mfsInodeLayout block (index % 128) inode)
    (mfsInodeTableStart + index / 128)
  return if ok then 0 else -eio

/-- What the test of `find_dir_entry` looks at in slot `i`. -/
def entryAccesses (entries : Block) (name : CString) (i : Nat) : List Access :=
  -- an unused slot is not compared
  if (dirEntry entries i).used = 0 then [.entry i]
  else [.entry i, .name (strcmpEnd (dirEntryName entries i) name.val)]

/-- `find_dir_entry`. -/
def findDirEntry (name : CString) : Probed (Except Int (MfsDirEntry × Nat)) := do
  match ← readRootDir with
  | .error rc => return .error rc
  | .ok entries =>
    match ← search (entryAccesses entries name) (dirEntryMatches entries name) mfsDirEntryCount 0
      with
    | some i => return .ok (dirEntry entries i, i)
    | none => return .error (-enoent)

/-- `allocate_inode`. -/
def allocateInode : Probed (Except Int UInt32) := do
  let some bitmap ← mfsReadBlock mfsInodeBitmapBlock | return .error (-eio)
  match ← search (fun i => [.bit i]) (fun i => !mfsGetBit bitmap i) (mfsInodeCount - 1) 1 with
  | none => return .error (-enospc)
  | some i =>
    report (.bit i)
    let ok ← mfsWriteBlock (mfsSetBit bitmap i true) mfsInodeBitmapBlock
    if !ok then return .error (-eio)
    return .ok (UInt32.ofNat (i + 1))

/-- `free_inode`. -/
def freeInode (inodeNo : UInt32) : Probed Int := do
  if inodeNo.toNat ≤ mfsRootInode.toNat ∨ inodeNo.toNat > mfsInodeCount then return -einval
  let some bitmap ← mfsReadBlock mfsInodeBitmapBlock | return -eio
  report (.bit (inodeNo.toNat - 1))
  let ok ← mfsWriteBlock (mfsSetBit bitmap (inodeNo.toNat - 1) false) mfsInodeBitmapBlock
  return if ok then 0 else -eio

section Handlers

variable (superblock : MfsSuperblock)

/-- `allocate_block`. -/
def allocateBlock : Probed (Except Int UInt32) := do
  report .allocateBlock
  let some bitmap ← mfsReadBlock mfsBlockBitmapBlock | return .error (-eio)
  -- the loop is bounded by `block_count`, not by the bitmap
  match ← search (fun i => [.bit i]) (fun i => !mfsGetBit bitmap i)
    (superblock.blockCount.toNat - mfsFirstDataBlock) mfsFirstDataBlock with
  | none => return .error (-enospc)
  | some i =>
    report (.bit i)
    let ok ← mfsWriteBlock (mfsSetBit bitmap i true) mfsBlockBitmapBlock
    if !ok then return .error (-eio)
    return .ok (UInt32.ofNat i)

/-- `free_block`. -/
def freeBlock (blockNo : UInt32) : Probed Int := do
  report (.freeBlock blockNo)
  if blockNo.toNat < mfsFirstDataBlock ∨ superblock.blockCount.toNat ≤ blockNo.toNat then
    return -einval
  let some bitmap ← mfsReadBlock mfsBlockBitmapBlock | return -eio
  report (.bit blockNo.toNat)
  let ok ← mfsWriteBlock (mfsSetBit bitmap blockNo.toNat false) mfsBlockBitmapBlock
  return if ok then 0 else -eio

/-! ## Handlers -/

/-- `mfs_getattr`. -/
def mfsGetattr (path : CString) : Probed (Except Int Stat) := do
  let some name := pathName path | return .error (-enoent)
  if name.val = [] then
    match ← readInode mfsRootInode with
    | .error rc => return .error rc
    | .ok inode => return .ok inode.stat
  else
    match ← findDirEntry name with
    | .error rc => return .error rc
    | .ok (entry, _) =>
      match ← readInode entry.inodeNo with
      | .error rc => return .error rc
      | .ok inode => return .ok inode.stat

/-- `mfs_readdir`. -/
def mfsReaddir (path : CString) : Probed (Except Int (List (List UInt8))) := do
  if path.val ≠ [47] then return .error (-enoent)
  match ← readRootDir with
  | .error rc => return .error rc
  | .ok entries =>
    reportAll ((List.range' 0 mfsDirEntryCount).map .entry)
    let used := (List.range' 0 mfsDirEntryCount).filter fun i => (dirEntry entries i).used != 0
    return .ok (used.map fun i =>
      readString (dirEntryName entries i) (mfsBlockSize - (i * mfsDirEntrySize + 4)))

/-- `mfs_create` behind its checks. -/
def createFile (name : CString) (mode : UInt32) (now : UInt64) : Probed Int := do
  match ← readRootDir with
  | .error rc => return rc
  | .ok entries =>
    match ← search (fun i => [.entry i]) (fun i => (dirEntry entries i).used == 0)
      (mfsDirEntryCount - 2) 2 with
    | none => return -enospc
    | some freeSlot =>
      match ← allocateInode with
      | .error rc => return rc
      | .ok inodeNo =>
        let inode := { MfsInode.zero with
          inodeNo := inodeNo
          mode := sIfreg ||| (mode &&& 0o777)
          ctime := now
          mtime := now
          atime := now }
        let rc ← writeInode inode
        if rc ≠ 0 then
          let _ ← freeInode inodeNo
          return rc
        report (.entry freeSlot)
        let entry := { MfsDirEntry.zero with
          used := 1
          inodeNo := inodeNo
          name := fun i => strncpy name.val (mfsFilenameSize - 1) i }
        writeRootDir (putRec mfsDirEntryLayout entries freeSlot entry)

/-- `mfs_create`. -/
def mfsCreate (path : CString) (mode : UInt32) (now : UInt64) : Probed Int := do
  let some name := pathName path | return -einval
  if name.val = [] then return -einval
  if name.val.length > mfsMaxFilename then return -enametoolong
  if let .ok _ ← findDirEntry name then return -eexist
  createFile name mode now

/-- `mfs_open`. -/
def mfsOpen (path : CString) : Probed Int := do
  let some name := pathName path | return -einval
  if name.val = [] then return -einval
  match ← findDirEntry name with
  | .error rc => return rc
  | .ok _ => return 0

/-- The loop of `mfs_unlink` over the index block. -/
def freeDataBlocks (idxData : Block) (blockCount : Nat) : (count i : Nat) → Probed Unit
  | 0, _ => return
  | count + 1, i =>
    if i < blockCount then do
      report (.index i)
      if idxEntry idxData i ≠ 0 then
        let _ ← freeBlock superblock (idxEntry idxData i)
      freeDataBlocks idxData blockCount count (i + 1)
    else return

/-- "Free data blocks and index block" of `mfs_unlink`. -/
def freeFileBlocks (inodeNo : UInt32) : Probed Unit := do
  let .ok fileInode ← readInode inodeNo | return
  if fileInode.indexBlock = 0 then return
  if let some idxData ← mfsReadBlock fileInode.indexBlock.toNat then
    freeDataBlocks superblock idxData fileInode.blockCount.toNat (mfsBlockSize / 4) 0
  let _ ← freeBlock superblock fileInode.indexBlock

/-- `mfs_unlink` behind its frees. -/
def removeFile (entries : Block) (entryIndex : Nat) (inodeNo : UInt32) : Probed Int := do
  report (.entry entryIndex)
  let rc ← writeRootDir (putRec mfsDirEntryLayout entries entryIndex MfsDirEntry.zero)
  if rc ≠ 0 then return rc
  let rc ← writeInode { MfsInode.zero with inodeNo := inodeNo }
  if rc ≠ 0 then return rc
  freeInode inodeNo

/-- `mfs_unlink`. -/
def mfsUnlink (path : CString) : Probed Int := do
  let some name := pathName path | return -einval
  if name.val = [] then return -einval
  match ← findDirEntry name with
  | .error rc => return rc
  | .ok (_, entryIndex) =>
    match ← readRootDir with
    | .error rc => return rc
    | .ok entries =>
      report (.entry entryIndex)
      let inodeNo := (dirEntry entries entryIndex).inodeNo
      freeFileBlocks superblock inodeNo
      removeFile entries entryIndex inodeNo

/-- The loop of `mfs_read`. -/
def readLoop (idxData : Block) (offset : Int) (toReadTotal : Nat) :
    (fuel : Nat) → (buf : List UInt8) → Probed (Int × List UInt8)
  | 0, buf => return (toInt buf.length, buf)
  | fuel + 1, buf =>
    if buf.length < toReadTotal then do
      let pos := offset + toOffT buf.length
      let blockOff := blockOffOf pos
      let toRead := chunkSize blockOff (toReadTotal - buf.length)
      -- Defensive check against corrupted inode size
      if (blockIdxOf pos).toNat ≥ mfsBlockSize / 4 then
        return (if buf.length > 0 then toInt buf.length else -eio, buf)
      report (.index (blockIdxOf pos).toNat)
      if idxEntry idxData (blockIdxOf pos).toNat = 0 then
        readLoop idxData offset toReadTotal fuel (buf ++ List.replicate toRead.toNat 0)
      else
        let some blkBuf ← mfsReadBlock (idxEntry idxData (blockIdxOf pos).toNat).toNat
          | return (if buf.length > 0 then toInt buf.length else -eio, buf)
        readLoop idxData offset toReadTotal fuel
          (buf ++ (List.range toRead.toNat).map fun i => blkBuf (blockOff.toNat + i))
    else return (toInt buf.length, buf)

/-- `mfs_read` on the inode of the entry it found. -/
def readFile (inodeNo : UInt32) (size : Nat) (offset : Int) : Probed (Int × List UInt8) := do
  match ← readInode inodeNo with
  | .error rc => return (rc, [])
  | .ok inode =>
    if offset ≥ inode.size.toNat then return (0, [])
    let toReadTotal :=
      if offset + toOffT size > inode.size.toNat then (inode.size.toNat - offset).toNat else size
    if inode.indexBlock = 0 then return (0, [])
    let some idxData ← mfsReadBlock inode.indexBlock.toNat | return (-eio, [])
    readLoop idxData offset toReadTotal toReadTotal []

/-- `mfs_read`. -/
def mfsRead (path : CString) (size : Nat) (offset : Int) : Probed (Int × List UInt8) := do
  if size = 0 then return (0, [])
  let some name := pathName path | return (-einval, [])
  if name.val = [] then return (-einval, [])
  match ← findDirEntry name with
  | .error rc => return (rc, [])
  | .ok (entry, _) => readFile entry.inodeNo size offset

/-- "Load or allocate the index block" of `mfs_write`. -/
def loadIndexBlock (inode : MfsInode) : Probed (Except Int (Block × MfsInode × Bool)) := do
  if inode.indexBlock = 0 then
    match ← allocateBlock superblock with
    | .error rc => return .error rc
    | .ok ib =>
      let ok ← mfsWriteBlock zero ib.toNat
      if !ok then
        let _ ← freeBlock superblock ib
        return .error (-eio)
      return .ok (zero, { inode with indexBlock := ib }, true)
  else
    let some idxData ← mfsReadBlock inode.indexBlock.toNat | return .error (-eio)
    return .ok (idxData, inode, false)

/-- One pass of the loop of `mfs_write`. -/
def writeChunk (buf : List UInt8) (offset : Int) (s : WriteState) :
    Probed (WriteState × Bool) := do
  let pos := offset + toOffT s.bytesWritten
  let blockIdx := (blockIdxOf pos).toNat
  let blockOff := (blockOffOf pos).toNat
  let toWrite := (chunkSize (blockOffOf pos) (buf.length - s.bytesWritten)).toNat
  -- Check file size limit: max 4096 blocks (64 MB)
  if blockIdx ≥ mfsBlockSize / 4 then return ({ s with rc := -efbig }, false)
  let chunk : Bytes := fun i => buf.getD (s.bytesWritten + i) 0
  report (.index blockIdx)
  let dataBlk := idxEntry s.idxData blockIdx
  if dataBlk = 0 then
    match ← allocateBlock superblock with
    | .error rc => return ({ s with rc := rc }, false)
    | .ok dataBlk =>
      let ok ← mfsWriteBlock (blit zero blockOff toWrite chunk) dataBlk.toNat
      if !ok then
        let _ ← freeBlock superblock dataBlk
        return ({ s with rc := -eio }, false)
      report (.index blockIdx)
      return ({ s with
        idxData := putRec Layout.uint32 s.idxData blockIdx dataBlk
        inode := { s.inode with blockCount := s.inode.blockCount + 1 }
        bytesWritten := s.bytesWritten + toWrite }, true)
  else
    let some blkBuf ← mfsReadBlock dataBlk.toNat | return ({ s with rc := -eio }, false)
    let ok ← mfsWriteBlock (blit blkBuf blockOff toWrite chunk) dataBlk.toNat
    if !ok then return ({ s with rc := -eio }, false)
    return ({ s with bytesWritten := s.bytesWritten + toWrite }, true)

/-- The loop of `mfs_write`. -/
def writeLoop (buf : List UInt8) (offset : Int) : (fuel : Nat) → WriteState → Probed WriteState
  | 0, s => return s
  | fuel + 1, s =>
    if s.bytesWritten < buf.length then do
      let (s, go) ← writeChunk superblock buf offset s
      if go then writeLoop buf offset fuel s else return s
    else return s

/-- The end of `mfs_write`, behind its loop. -/
def writeCommit (s : WriteState) (allocatedIndex : Bool) (now : UInt64) : Probed Int := do
  let failed := if s.bytesWritten > 0 then toInt s.bytesWritten else -eio
  if s.bytesWritten > 0 ∨ allocatedIndex = true then
    let inode := { s.inode with
      size := s.inode.size + UInt32.ofNat s.bytesWritten
      mtime := now }
    let ok ← mfsWriteBlock s.idxData inode.indexBlock.toNat
    if !ok then return failed
    let rc ← writeInode inode
    if rc ≠ 0 then return failed
  return if s.bytesWritten > 0 then toInt s.bytesWritten else s.rc

/-- `mfs_write` on the inode of the entry it found. -/
def writeFile (inodeNo : UInt32) (buf : List UInt8) (offset : Int) (now : UInt64) :
    Probed Int := do
  match ← readInode inodeNo with
  | .error rc => return rc
  | .ok inode =>
    -- Only appending is supported
    if offset ≠ inode.size.toNat then return -eopnotsupp
    match ← loadIndexBlock superblock inode with
    | .error rc => return rc
    | .ok (idxData, inode, allocatedIndex) =>
      let s ← writeLoop superblock buf offset buf.length
        { rc := 0, idxData := idxData, inode := inode, bytesWritten := 0 }
      writeCommit s allocatedIndex now

/-- `mfs_write`. -/
def mfsWrite (path : CString) (buf : List UInt8) (offset : Int) (now : UInt64) : Probed Int := do
  if buf.length = 0 then return 0
  let some name := pathName path | return -einval
  if name.val = [] then return -einval
  match ← findDirEntry name with
  | .error rc => return rc
  | .ok (entry, _) => writeFile superblock entry.inodeNo buf offset now

/-- `mfs_oper`. -/
def handle : Call → Probed Reply
  | .getattr path => return .attr (← mfsGetattr path)
  | .readdir path => return .names (← mfsReaddir path)
  | .create path mode now => return .status (← mfsCreate path mode now)
  | .openFile path => return .status (← mfsOpen path)
  | .unlink path => return .status (← mfsUnlink superblock path)
  | .read path size offset => do
    let (rc, buf) ← mfsRead path size offset
    return .data rc buf
  | .write path buf offset now => return .status (← mfsWrite superblock path buf offset now)

end Handlers

/-! ## The handlers without their reports -/

theorem erase_readInode (inodeNo : UInt32) :
    (readInode inodeNo).erase = Mfs.readInode inodeNo := by
  unfold readInode Mfs.readInode
  refine erase_ite_eq rfl (erase_bind_eq (erase_liftM _) fun r => ?_)
  cases r with
  | none => rfl
  | some block => exact erase_ite_eq rfl rfl

theorem erase_writeInode (inode : MfsInode) :
    (writeInode inode).erase = Mfs.writeInode inode := by
  unfold writeInode Mfs.writeInode
  refine erase_ite_eq rfl (erase_bind_eq (erase_liftM _) fun r => ?_)
  cases r with
  | none => rfl
  | some block => exact erase_bind_eq (erase_liftM _) fun _ => rfl

theorem erase_findDirEntry (name : CString) :
    (findDirEntry name).erase = Mfs.findDirEntry name := by
  unfold findDirEntry Mfs.findDirEntry
  refine erase_bind_eq (erase_liftM _) fun r => ?_
  cases r with
  | error rc => rfl
  | ok entries =>
    simp only [erase_bind, erase_search, done_bind]
    cases (List.range' 0 mfsDirEntryCount).find? (dirEntryMatches entries name) <;> rfl

theorem erase_allocateInode : allocateInode.erase = Mfs.allocateInode := by
  unfold allocateInode Mfs.allocateInode
  refine erase_bind_eq (erase_liftM _) fun r => ?_
  cases r with
  | none => rfl
  | some bitmap =>
    simp only [erase_bind, erase_search, done_bind]
    cases (List.range' 1 (mfsInodeCount - 1)).find? (fun i => !mfsGetBit bitmap i) with
    | none => rfl
    | some i => exact erase_bind_eq (erase_liftM _) fun ok => erase_ite_eq rfl rfl

theorem erase_freeInode (inodeNo : UInt32) : (freeInode inodeNo).erase = Mfs.freeInode inodeNo := by
  unfold freeInode Mfs.freeInode
  refine erase_ite_eq rfl (erase_bind_eq (erase_liftM _) fun r => ?_)
  cases r with
  | none => rfl
  | some bitmap => exact erase_bind_eq (erase_liftM _) fun _ => rfl

section Handlers

variable (superblock : MfsSuperblock)

theorem erase_allocateBlock : (allocateBlock superblock).erase = Mfs.allocateBlock superblock := by
  unfold allocateBlock Mfs.allocateBlock
  rw [erase_report_bind]
  refine erase_bind_eq (erase_liftM _) fun r => ?_
  cases r with
  | none => rfl
  | some bitmap =>
    simp only [erase_bind, erase_search, done_bind]
    cases (List.range' mfsFirstDataBlock (superblock.blockCount.toNat - mfsFirstDataBlock)).find?
      (fun i => !mfsGetBit bitmap i) with
    | none => rfl
    | some i => exact erase_bind_eq (erase_liftM _) fun ok => erase_ite_eq rfl rfl

theorem erase_freeBlock (blockNo : UInt32) :
    (freeBlock superblock blockNo).erase = Mfs.freeBlock superblock blockNo := by
  unfold freeBlock Mfs.freeBlock
  rw [erase_report_bind]
  refine erase_ite_eq rfl (erase_bind_eq (erase_liftM _) fun r => ?_)
  cases r with
  | none => rfl
  | some bitmap => exact erase_bind_eq (erase_liftM _) fun _ => rfl

theorem erase_mfsGetattr (path : CString) : (mfsGetattr path).erase = Mfs.mfsGetattr path := by
  unfold mfsGetattr Mfs.mfsGetattr
  cases pathName path with
  | none => rfl
  | some name =>
    refine erase_ite_eq (erase_bind_eq (erase_readInode _) fun r => ?_)
      (erase_bind_eq (erase_findDirEntry name) fun r => ?_)
    · cases r <;> rfl
    · rcases r with rc | ⟨entry, i⟩
      · rfl
      · refine erase_bind_eq (erase_readInode _) fun r => ?_
        cases r <;> rfl

theorem erase_mfsReaddir (path : CString) : (mfsReaddir path).erase = Mfs.mfsReaddir path := by
  unfold mfsReaddir Mfs.mfsReaddir
  refine erase_ite_eq rfl (erase_bind_eq (erase_liftM _) fun r => ?_)
  cases r with
  | error rc => rfl
  | ok entries =>
    simp only [erase_bind, erase_reportAll, done_bind]
    rfl

theorem erase_createFile (name : CString) (mode : UInt32) (now : UInt64) :
    (createFile name mode now).erase = Mfs.createFile name mode now := by
  unfold createFile Mfs.createFile
  refine erase_bind_eq (erase_liftM _) fun r => ?_
  -- line by line, as the handler goes on
  cases r with
  | error rc => rfl
  | ok entries =>
    simp only [erase_bind, erase_search, done_bind]
    cases (List.range' 2 (mfsDirEntryCount - 2)).find?
        (fun i => (dirEntry entries i).used == 0) with
    | none => rfl
    | some freeSlot =>
      refine erase_bind_eq erase_allocateInode fun r => ?_
      cases r with
      | error rc => rfl
      | ok inodeNo =>
        refine erase_bind_eq (erase_writeInode _) fun rc => erase_ite_eq ?_ ?_
        · exact erase_bind_eq (erase_freeInode _) fun _ => rfl
        · exact erase_liftM _

theorem erase_mfsCreate (path : CString) (mode : UInt32) (now : UInt64) :
    (mfsCreate path mode now).erase = Mfs.mfsCreate path mode now := by
  unfold mfsCreate Mfs.mfsCreate
  cases pathName path with
  | none => rfl
  | some name =>
    refine erase_ite_eq rfl (erase_ite_eq rfl (erase_bind_eq (erase_findDirEntry name) fun r => ?_))
    cases r with
    | error rc => exact erase_createFile name mode now
    | ok found => rfl

theorem erase_mfsOpen (path : CString) : (mfsOpen path).erase = Mfs.mfsOpen path := by
  unfold mfsOpen Mfs.mfsOpen
  cases pathName path with
  | none => rfl
  | some name =>
    refine erase_ite_eq rfl (erase_bind_eq (erase_findDirEntry name) fun r => ?_)
    cases r <;> rfl

theorem erase_freeDataBlocks (idxData : Block) (blockCount count i : Nat) :
    (freeDataBlocks superblock idxData blockCount count i).erase =
      Mfs.freeDataBlocks superblock idxData blockCount count i := by
  induction count generalizing i with
  | zero => rfl
  | succ count ih =>
    rw [freeDataBlocks, Mfs.freeDataBlocks]
    refine erase_ite_eq ?_ rfl
    rw [erase_report_bind]
    exact erase_ite_eq (erase_bind_eq (erase_freeBlock superblock _) fun _ => ih _) (ih _)

theorem erase_freeFileBlocks (inodeNo : UInt32) :
    (freeFileBlocks superblock inodeNo).erase = Mfs.freeFileBlocks superblock inodeNo := by
  unfold freeFileBlocks Mfs.freeFileBlocks
  refine erase_bind_eq (erase_readInode inodeNo) fun r => ?_
  cases r with
  | error rc => rfl
  | ok fileInode =>
    refine erase_ite_eq rfl (erase_bind_eq (erase_liftM _) fun r => ?_)
    -- the index block is freed in either case
    have hindex : ∀ u : Unit,
        (freeBlock superblock fileInode.indexBlock >>= fun _ => pure u).erase =
          (Mfs.freeBlock superblock fileInode.indexBlock >>= fun _ => pure u) := fun u =>
      erase_bind_eq (erase_freeBlock superblock _) fun _ => rfl
    cases r with
    | none => exact hindex ()
    | some idxData =>
      exact erase_bind_eq (erase_freeDataBlocks superblock idxData _ _ 0) fun _ => hindex ()

theorem erase_removeFile (entries : Block) (entryIndex : Nat) (inodeNo : UInt32) :
    (removeFile entries entryIndex inodeNo).erase = Mfs.removeFile entries entryIndex inodeNo := by
  unfold removeFile Mfs.removeFile
  rw [erase_report_bind]
  refine erase_bind_eq (erase_liftM _) fun rc => erase_ite_eq rfl ?_
  exact erase_bind_eq (erase_writeInode _) fun rc => erase_ite_eq rfl (erase_freeInode inodeNo)

theorem erase_mfsUnlink (path : CString) :
    (mfsUnlink superblock path).erase = Mfs.mfsUnlink superblock path := by
  unfold mfsUnlink Mfs.mfsUnlink
  -- line by line, as the handler goes on
  cases pathName path with
  | none => rfl
  | some name =>
    refine erase_ite_eq rfl (erase_bind_eq (erase_findDirEntry name) fun r => ?_)
    rcases r with rc | ⟨entry, entryIndex⟩
    · rfl
    · refine erase_bind_eq (erase_liftM _) fun r => ?_
      cases r with
      | error rc => rfl
      | ok entries =>
        refine erase_report_bind.trans ?_
        exact erase_bind_eq (erase_freeFileBlocks superblock _) fun _ => erase_removeFile _ _ _

theorem erase_readLoop (idxData : Block) (offset : Int) (total fuel : Nat) (buf : List UInt8) :
    (readLoop idxData offset total fuel buf).erase =
      Mfs.readLoop idxData offset total fuel buf := by
  induction fuel generalizing buf with
  | zero => rfl
  | succ fuel ih =>
    rw [readLoop, Mfs.readLoop]
    refine erase_ite_eq (erase_ite_eq rfl (erase_ite_eq (ih _) ?_)) rfl
    refine erase_bind_eq (erase_liftM _) fun r => ?_
    cases r with
    | none => rfl
    | some blkBuf => exact ih _

theorem erase_readFile (inodeNo : UInt32) (size : Nat) (offset : Int) :
    (readFile inodeNo size offset).erase = Mfs.readFile inodeNo size offset := by
  unfold readFile Mfs.readFile
  refine erase_bind_eq (erase_readInode inodeNo) fun r => ?_
  cases r with
  | error rc => rfl
  | ok inode =>
    refine erase_ite_eq rfl (erase_ite_eq rfl (erase_bind_eq (erase_liftM _) fun r => ?_))
    cases r with
    | none => rfl
    | some idxData => exact erase_readLoop _ _ _ _ _

theorem erase_mfsRead (path : CString) (size : Nat) (offset : Int) :
    (mfsRead path size offset).erase = Mfs.mfsRead path size offset := by
  unfold mfsRead Mfs.mfsRead
  refine erase_ite_eq rfl ?_
  cases pathName path with
  | none => rfl
  | some name =>
    refine erase_ite_eq rfl (erase_bind_eq (erase_findDirEntry name) fun r => ?_)
    rcases r with rc | ⟨entry, i⟩
    · rfl
    · exact erase_readFile _ _ _

theorem erase_loadIndexBlock (inode : MfsInode) :
    (loadIndexBlock superblock inode).erase = Mfs.loadIndexBlock superblock inode := by
  unfold loadIndexBlock Mfs.loadIndexBlock
  refine erase_ite_eq (erase_bind_eq (erase_allocateBlock superblock) fun r => ?_)
    (erase_bind_eq (erase_liftM _) fun r => ?_)
  · cases r with
    | error rc => rfl
    | ok ib =>
      refine erase_bind_eq (erase_liftM _) fun ok => erase_ite_eq ?_ rfl
      exact erase_bind_eq (erase_freeBlock superblock ib) fun _ => rfl
  · cases r <;> rfl

theorem erase_writeChunk (buf : List UInt8) (offset : Int) (s : WriteState) :
    (writeChunk superblock buf offset s).erase = Mfs.writeChunk superblock buf offset s := by
  unfold writeChunk Mfs.writeChunk
  refine erase_ite_eq rfl ?_
  rw [erase_report_bind]
  refine erase_ite_eq (erase_bind_eq (erase_allocateBlock superblock) fun r => ?_)
    (erase_bind_eq (erase_liftM _) fun r => ?_)
  · -- a new block
    cases r with
    | error rc => rfl
    | ok dataBlk =>
      refine erase_bind_eq (erase_liftM _) fun ok => erase_ite_eq ?_ rfl
      exact erase_bind_eq (erase_freeBlock superblock dataBlk) fun _ => rfl
  · -- an old one
    cases r with
    | none => rfl
    | some blkBuf => exact erase_bind_eq (erase_liftM _) fun ok => erase_ite_eq rfl rfl

theorem erase_writeLoop (buf : List UInt8) (offset : Int) (fuel : Nat) (s : WriteState) :
    (writeLoop superblock buf offset fuel s).erase =
      Mfs.writeLoop superblock buf offset fuel s := by
  induction fuel generalizing s with
  | zero => rfl
  | succ fuel ih =>
    rw [writeLoop, Mfs.writeLoop]
    refine erase_ite_eq (erase_bind_eq (erase_writeChunk superblock buf offset s) fun r => ?_) rfl
    exact erase_ite_eq (ih _) rfl

theorem erase_writeCommit (s : WriteState) (allocatedIndex : Bool) (now : UInt64) :
    (writeCommit s allocatedIndex now).erase = Mfs.writeCommit s allocatedIndex now := by
  unfold writeCommit Mfs.writeCommit
  refine erase_ite_eq (erase_bind_eq (erase_liftM _) fun ok => erase_ite_eq rfl ?_) rfl
  exact erase_bind_eq (erase_writeInode _) fun rc => erase_ite_eq rfl rfl

theorem erase_writeFile (inodeNo : UInt32) (buf : List UInt8) (offset : Int) (now : UInt64) :
    (writeFile superblock inodeNo buf offset now).erase =
      Mfs.writeFile superblock inodeNo buf offset now := by
  unfold writeFile Mfs.writeFile
  refine erase_bind_eq (erase_readInode inodeNo) fun r => ?_
  cases r with
  | error rc => rfl
  | ok inode =>
    refine erase_ite_eq rfl (erase_bind_eq (erase_loadIndexBlock superblock inode) fun r => ?_)
    rcases r with rc | ⟨idxData, inode, allocatedIndex⟩
    · rfl
    · exact erase_bind_eq (erase_writeLoop superblock buf offset _ _) fun s =>
        erase_writeCommit s allocatedIndex now

theorem erase_mfsWrite (path : CString) (buf : List UInt8) (offset : Int) (now : UInt64) :
    (mfsWrite superblock path buf offset now).erase =
      Mfs.mfsWrite superblock path buf offset now := by
  unfold mfsWrite Mfs.mfsWrite
  refine erase_ite_eq rfl ?_
  cases pathName path with
  | none => rfl
  | some name =>
    refine erase_ite_eq rfl (erase_bind_eq (erase_findDirEntry name) fun r => ?_)
    rcases r with rc | ⟨entry, i⟩
    · rfl
    · exact erase_writeFile superblock _ buf offset now

/-- **Without their reports the probed handlers are the handlers.** -/
theorem erase_handle (c : Call) : (handle superblock c).erase = Mfs.handle superblock c := by
  cases c with
  | getattr path => exact erase_bind_eq (erase_mfsGetattr path) fun _ => rfl
  | readdir path => exact erase_bind_eq (erase_mfsReaddir path) fun _ => rfl
  | create path mode now => exact erase_bind_eq (erase_mfsCreate path mode now) fun _ => rfl
  | openFile path => exact erase_bind_eq (erase_mfsOpen path) fun _ => rfl
  | unlink path => exact erase_bind_eq (erase_mfsUnlink superblock path) fun _ => rfl
  | read path size offset => exact erase_bind_eq (erase_mfsRead path size offset) fun _ => rfl
  | write path buf offset now =>
    exact erase_bind_eq (erase_mfsWrite superblock path buf offset now) fun _ => rfl

end Handlers

end Probed

end OsProjects.Mfs
