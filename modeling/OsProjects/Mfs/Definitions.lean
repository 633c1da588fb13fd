import OsProjects.Lib.BlockIO
import OsProjects.Lib.CString

/-!
# MFS — the file system handlers of `mfs.c` and the format of `make_mfs.c`

Each definition below is the C function of the same name. A handler is a block
program: `mfs_read_block` and `mfs_write_block` are its only effects, and the
global `superblock` is read through the one field the handlers use, `block_count`.
A block is the raw area of 16384 bytes; structures are read from it and written
into it through their layouts (`mfsInodeLayout`, `mfsDirEntryLayout`,
`mfsSuperblockLayout`), as the casts in the source do. Return codes are the C
`int`s: 0 or a count on success, a negated error number otherwise.

The parameter `now` is the value of `time(NULL)`.
-/

namespace OsProjects.Mfs

open Bytes Prog

/-! ## Constants of `mfs.h` and of the C library -/

abbrev mfsMagic : UInt32 := 0x4d465334
abbrev mfsBlockSize : Nat := 16384
abbrev mfsMaxFilename : Nat := 31
abbrev mfsFilenameSize : Nat := 32
abbrev mfsDirEntrySize : Nat := 64
abbrev mfsInodeCount : Nat := 256
abbrev mfsDirEntryCount : Nat := 256
abbrev mfsRootInode : UInt32 := 1

abbrev mfsSuperBlock : Nat := 0
abbrev mfsBlockBitmapBlock : Nat := 1
abbrev mfsInodeBitmapBlock : Nat := 2
abbrev mfsInodeTableStart : Nat := 3
abbrev mfsRootDirBlock : Nat := 5
abbrev mfsFirstDataBlock : Nat := 6

abbrev enoent : Int := 2
abbrev eio : Int := 5
abbrev eexist : Int := 17
abbrev einval : Int := 22
abbrev efbig : Int := 27
abbrev enospc : Int := 28
abbrev enametoolong : Int := 36
abbrev eopnotsupp : Int := 95

/-- `S_IFREG`. -/
abbrev sIfreg : UInt32 := 0x8000
/-- `S_IFDIR`. -/
abbrev sIfdir : UInt32 := 0x4000

/-- `S_ISDIR(mode)`. -/
def sIsdir (mode : UInt32) : Bool := mode &&& 0xF000 == sIfdir

/-! ## On-disk structures -/

/-- `struct mfs_superblock`. -/
structure MfsSuperblock where
  magic : UInt32
  blockSize : UInt32
  blockCount : UInt32
  inodeCount : UInt32
  inodeTableStart : UInt32
  rootDirBlock : UInt32
  firstDataBlock : UInt32
  maxFilename : UInt32
  deriving DecidableEq

/-- `struct mfs_dir_entry`. -/
structure MfsDirEntry where
  inodeNo : UInt32
  name : Fin 32 → UInt8
  used : UInt8
  reserved : Fin 27 → UInt8

/-- `struct mfs_inode`, with the four bytes the compiler leaves between
`index_block` and `ctime`. -/
structure MfsInode where
  inodeNo : UInt32
  mode : UInt32
  size : UInt32
  blockCount : UInt32
  indexBlock : UInt32
  padding : UInt32
  ctime : UInt64
  mtime : UInt64
  atime : UInt64
  reserved : Fin 80 → UInt8

def mfsSuperblockLayout : Layout 32 MfsSuperblock :=
  (Layout.uint32.prod <| .prod .uint32 <| .prod .uint32 <| .prod .uint32 <| .prod .uint32 <|
    .prod .uint32 <| .prod .uint32 .uint32).map
    { toFun := fun (a, b, c, d, e, f, g, h) => ⟨a, b, c, d, e, f, g, h⟩
      invFun := fun s => (s.magic, s.blockSize, s.blockCount, s.inodeCount, s.inodeTableStart,
        s.rootDirBlock, s.firstDataBlock, s.maxFilename)
      left_inv := fun _ => rfl
      right_inv := fun _ => rfl }

def mfsDirEntryLayout : Layout 64 MfsDirEntry :=
  (Layout.uint32.prod <| .prod (.array 32) <| .prod .uint8 (.array 27)).map
    { toFun := fun (a, b, c, d) => ⟨a, b, c, d⟩
      invFun := fun e => (e.inodeNo, e.name, e.used, e.reserved)
      left_inv := fun _ => rfl
      right_inv := fun _ => rfl }

def mfsInodeLayout : Layout 128 MfsInode :=
  (Layout.uint32.prod <| .prod .uint32 <| .prod .uint32 <| .prod .uint32 <| .prod .uint32 <|
    .prod .uint32 <| .prod .uint64 <| .prod .uint64 <| .prod .uint64 (.array 80)).map
    { toFun := fun (a, b, c, d, e, f, g, h, i, j) => ⟨a, b, c, d, e, f, g, h, i, j⟩
      invFun := fun n => (n.inodeNo, n.mode, n.size, n.blockCount, n.indexBlock, n.padding,
        n.ctime, n.mtime, n.atime, n.reserved)
      left_inv := fun _ => rfl
      right_inv := fun _ => rfl }

/-- A structure cleared by `memset`. -/
def MfsDirEntry.zero : MfsDirEntry := ⟨0, fun _ => 0, 0, fun _ => 0⟩

/-- A structure cleared by `memset`. -/
def MfsInode.zero : MfsInode := ⟨0, 0, 0, 0, 0, 0, 0, 0, 0, fun _ => 0⟩

/-! ## Helpers of `mfs.c` -/

abbrev Block := Bytes
abbrev Disk := Store Block
abbrev Io (α : Type) := Prog Block α

/-- `mfs_read_block`. -/
def mfsReadBlock (blockNo : Nat) : Io (Option Block) := readBlock blockNo

/-- `mfs_write_block`. -/
def mfsWriteBlock (block : Block) (blockNo : Nat) : Io Bool := writeBlock blockNo block

/-- `mfs_get_bit`. -/
def mfsGetBit (bitmap : Block) (bit : Nat) : Bool := getBit bitmap bit

/-- `mfs_set_bit`. -/
def mfsSetBit (bitmap : Block) (bit : Nat) (value : Bool) : Block := setBit bitmap bit value

/-- `path_name`. -/
def pathName (path : CString) : Option CString :=
  if path.val = [47] then some ⟨[], by simp⟩
  else if path.val.head? ≠ some 47 ∨ 47 ∈ path.val.tail then none
  else some ⟨path.val.tail, fun h => path.property (List.mem_of_mem_tail h)⟩

/-- `read_inode`. -/
def readInode (inodeNo : UInt32) : Io (Except Int MfsInode) := do
  if inodeNo.toNat < 1 ∨ inodeNo.toNat > mfsInodeCount then return .error (-enoent)
  let index := inodeNo.toNat - 1
  let some block ← mfsReadBlock (mfsInodeTableStart + index / 128) | return .error (-eio)
  let inode := getRec mfsInodeLayout block (index % 128)
  -- a record never written, or cleared
  if inode.inodeNo = 0 then return .error (-enoent)
  return .ok inode

/-- `write_inode`. -/
def writeInode (inode : MfsInode) : Io Int := do
  if inode.inodeNo.toNat < 1 ∨ inode.inodeNo.toNat > mfsInodeCount then return -einval
  let index := inode.inodeNo.toNat - 1
  -- the other 127 records of the block are written back as they were read
  let some block ← mfsReadBlock (mfsInodeTableStart + index / 128) | return -eio
  let ok ← mfsWriteBlock (putRec mfsInodeLayout block (index % 128) inode)
    (mfsInodeTableStart + index / 128)
  return if ok then 0 else -eio

/-- `read_root_dir`: the block as the array `entries`. -/
def readRootDir : Io (Except Int Block) := do
  let some entries ← mfsReadBlock mfsRootDirBlock | return .error (-eio)
  return .ok entries

/-- `write_root_dir`. -/
def writeRootDir (entries : Block) : Io Int := do
  let ok ← mfsWriteBlock entries mfsRootDirBlock
  return if ok then 0 else -eio

/-- `entries[i]`. -/
def dirEntry (entries : Block) (i : Nat) : MfsDirEntry := getRec mfsDirEntryLayout entries i

/-- The memory from `entries[i].name` on. -/
def dirEntryName (entries : Block) (i : Nat) : Bytes := slice entries (i * mfsDirEntrySize + 4)

/-- `entries[i].used && strcmp(entries[i].name, name) == 0`. -/
def dirEntryMatches (entries : Block) (name : CString) (i : Nat) : Bool :=
  (dirEntry entries i).used != 0 && strEq (dirEntryName entries i) name.val

/-- `find_dir_entry`: the entry and its index. -/
def findDirEntry (name : CString) : Io (Except Int (MfsDirEntry × Nat)) := do
  match ← readRootDir with
  | .error rc => return .error rc
  | .ok entries =>
    match (List.range' 0 mfsDirEntryCount).find? (dirEntryMatches entries name) with
    | some i => return .ok (dirEntry entries i, i)
    | none => return .error (-enoent)

/-- `allocate_inode`. -/
def allocateInode : Io (Except Int UInt32) := do
  let some bitmap ← mfsReadBlock mfsInodeBitmapBlock | return .error (-eio)
  -- bit 0 belongs to the root
  match (List.range' 1 (mfsInodeCount - 1)).find? (fun i => !mfsGetBit bitmap i) with
  | none => return .error (-enospc)
  | some i =>
    let ok ← mfsWriteBlock (mfsSetBit bitmap i true) mfsInodeBitmapBlock
    if !ok then return .error (-eio)
    return .ok (UInt32.ofNat (i + 1))

/-- `free_inode`. -/
def freeInode (inodeNo : UInt32) : Io Int := do
  if inodeNo.toNat ≤ mfsRootInode.toNat ∨ inodeNo.toNat > mfsInodeCount then return -einval
  -- the bit is cleared whether it was set or not
  let some bitmap ← mfsReadBlock mfsInodeBitmapBlock | return -eio
  let ok ← mfsWriteBlock (mfsSetBit bitmap (inodeNo.toNat - 1) false) mfsInodeBitmapBlock
  return if ok then 0 else -eio

section Handlers

variable (superblock : MfsSuperblock)

/-- `allocate_block`. -/
def allocateBlock : Io (Except Int UInt32) := do
  let some bitmap ← mfsReadBlock mfsBlockBitmapBlock | return .error (-eio)
  -- the first clear bit behind the fixed blocks, up to `block_count`
  match (List.range' mfsFirstDataBlock (superblock.blockCount.toNat - mfsFirstDataBlock)).find?
      (fun i => !mfsGetBit bitmap i) with
  | none => return .error (-enospc)
  | some i =>
    let ok ← mfsWriteBlock (mfsSetBit bitmap i true) mfsBlockBitmapBlock
    if !ok then return .error (-eio)
    return .ok (UInt32.ofNat i)

/-- `free_block`. -/
def freeBlock (blockNo : UInt32) : Io Int := do
  if blockNo.toNat < mfsFirstDataBlock ∨ superblock.blockCount.toNat ≤ blockNo.toNat then
    return -einval
  let some bitmap ← mfsReadBlock mfsBlockBitmapBlock | return -eio
  let ok ← mfsWriteBlock (mfsSetBit bitmap blockNo.toNat false) mfsBlockBitmapBlock
  return if ok then 0 else -eio

/-! ## Handlers -/

/-- The fields of `struct stat` that `mfs_getattr` fills. -/
structure Stat where
  ino : UInt32
  mode : UInt32
  nlink : Nat
  size : UInt32
  blocks : UInt32
  ctime : UInt64
  mtime : UInt64
  atime : UInt64
  deriving DecidableEq

def MfsInode.stat (inode : MfsInode) : Stat where
  ino := inode.inodeNo
  mode := inode.mode
  nlink := if sIsdir inode.mode then 2 else 1
  size := inode.size
  blocks := inode.blockCount
  ctime := inode.ctime
  mtime := inode.mtime
  atime := inode.atime

/-- `mfs_getattr`. -/
def mfsGetattr (path : CString) : Io (Except Int Stat) := do
  let some name := pathName path | return .error (-enoent)
  if name.val = [] then
    match ← readInode mfsRootInode with
    | .error rc => return .error rc
    | .ok inode => return .ok inode.stat
  else
    match ← findDirEntry name with
    | .error rc => return .error rc
    | .ok (entry, _) =>
      match ← readInode entry.inodeNo with
      | .error rc => return .error rc
      | .ok inode => return .ok inode.stat

/-- `mfs_readdir`: the names handed to `filler`, in order. -/
def mfsReaddir (path : CString) : Io (Except Int (List (List UInt8))) := do
  if path.val ≠ [47] then return .error (-enoent)
  match ← readRootDir with
  | .error rc => return .error rc
  | .ok entries =>
    let used := (List.range' 0 mfsDirEntryCount).filter fun i => (dirEntry entries i).used != 0
    return .ok (used.map fun i =>
      readString (dirEntryName entries i) (mfsBlockSize - (i * mfsDirEntrySize + 4)))

/-- `mfs_create` behind its checks: the slot, the inode, the entry. -/
def createFile (name : CString) (mode : UInt32) (now : UInt64) : Io Int := do
  match ← readRootDir with
  | .error rc => return rc
  | .ok entries =>
    -- the slots 0 and 1 hold `.` and `..`
    match (List.range' 2 (mfsDirEntryCount - 2)).find?
        (fun i => (dirEntry entries i).used == 0) with
    | none => return -enospc
    | some freeSlot =>
      match ← allocateInode with
      | .error rc => return rc
      | .ok inodeNo =>
        let inode := { MfsInode.zero with
          inodeNo := inodeNo
          mode := sIfreg ||| (mode &&& 0o777)
          ctime := now
          mtime := now
          atime := now }
        let rc ← writeInode inode
        -- the inode bit is given back, whether that succeeds or not
        if rc ≠ 0 then
          let _ ← freeInode inodeNo
          return rc
        -- 31 bytes at most, so the name keeps its NUL
        let entry := { MfsDirEntry.zero with
          used := 1
          inodeNo := inodeNo
          name := fun i => strncpy name.val (mfsFilenameSize - 1) i }
        writeRootDir (putRec mfsDirEntryLayout entries freeSlot entry)

/-- `mfs_create`. -/
def mfsCreate (path : CString) (mode : UInt32) (now : UInt64) : Io Int := do
  let some name := pathName path | return -einval
  if name.val = [] then return -einval
  if name.val.length > mfsMaxFilename then return -enametoolong
  -- every error counts as absent here, `-EIO` too
  if let .ok _ ← findDirEntry name then return -eexist
  createFile name mode now

/-- `mfs_open`. -/
def mfsOpen (path : CString) : Io Int := do
  let some name := pathName path | return -einval
  if name.val = [] then return -einval
  match ← findDirEntry name with
  | .error rc => return rc
  | .ok _ => return 0

/-- `idx_data[k]`. -/
def idxEntry (idxData : Block) (k : Nat) : UInt32 := getRec Layout.uint32 idxData k

/-- The loop of `mfs_unlink` over the index block, from entry `i` on; `count` is what
is left of the 4096 entries. -/
def freeDataBlocks (idxData : Block) (blockCount : Nat) : (count i : Nat) → Io Unit
  | 0, _ => return
  | count + 1, i =>
    if i < blockCount then do
      if idxEntry idxData i ≠ 0 then
        -- a failing `free_block` is not noticed
        let _ ← freeBlock superblock (idxEntry idxData i)
      freeDataBlocks idxData blockCount count (i + 1)
    else return

/-- "Free data blocks and index block" of `mfs_unlink`. -/
def freeFileBlocks (inodeNo : UInt32) : Io Unit := do
  let .ok fileInode ← readInode inodeNo | return
  if fileInode.indexBlock = 0 then return
  if let some idxData ← mfsReadBlock fileInode.indexBlock.toNat then
    freeDataBlocks superblock idxData fileInode.blockCount.toNat (mfsBlockSize / 4) 0
  -- also when the index block could not be read
  let _ ← freeBlock superblock fileInode.indexBlock

/-- `mfs_unlink` behind its frees: the entry, the record, the inode. -/
def removeFile (entries : Block) (entryIndex : Nat) (inodeNo : UInt32) : Io Int := do
  let rc ← writeRootDir (putRec mfsDirEntryLayout entries entryIndex MfsDirEntry.zero)
  if rc ≠ 0 then return rc
  -- the cleared record keeps its number
  let rc ← writeInode { MfsInode.zero with inodeNo := inodeNo }
  if rc ≠ 0 then return rc
  freeInode inodeNo

/-- `mfs_unlink`. -/
def mfsUnlink (path : CString) : Io Int := do
  let some name := pathName path | return -einval
  if name.val = [] then return -einval
  match ← findDirEntry name with
  | .error rc => return rc
  | .ok (_, entryIndex) =>
    -- the directory is read a second time
    match ← readRootDir with
    | .error rc => return rc
    | .ok entries =>
      let inodeNo := (dirEntry entries entryIndex).inodeNo
      freeFileBlocks superblock inodeNo
      removeFile entries entryIndex inodeNo

/-- The cast of a byte count to `int`. -/
def toInt (n : Nat) : Int := Int.bmod n (2 ^ 32)

/-- The cast of a `size_t` to `off_t`. -/
def toOffT (n : Nat) : Int := Int.bmod n (2 ^ 64)

/-- `block_idx` of the byte at position `pos` of a file. -/
def blockIdxOf (pos : Int) : UInt32 := UInt32.ofInt (pos.tdiv mfsBlockSize)

/-- `block_off` of the byte at position `pos` of a file. -/
def blockOffOf (pos : Int) : UInt32 := UInt32.ofInt (pos.tmod mfsBlockSize)

/-- `to_read` and `to_write`: the rest of the block, but no more than is left to
transfer. -/
def chunkSize (blockOff : UInt32) (left : Nat) : UInt32 :=
  if (16384 - blockOff).toNat > left then UInt32.ofNat left else 16384 - blockOff

/-- The loop of `mfs_read`; `buf` holds the `bytes_read` bytes copied so far. -/
def readLoop (idxData : Block) (offset : Int) (toReadTotal : Nat) :
    (fuel : Nat) → (buf : List UInt8) → Io (Int × List UInt8)
  | 0, buf => return (toInt buf.length, buf)
  | fuel + 1, buf =>
    if buf.length < toReadTotal then do
      let pos := offset + toOffT buf.length
      let blockOff := blockOffOf pos
      let toRead := chunkSize blockOff (toReadTotal - buf.length)
      -- Defensive check against corrupted inode size
      if (blockIdxOf pos).toNat ≥ mfsBlockSize / 4 then
        return (if buf.length > 0 then toInt buf.length else -eio, buf)
      -- an entry of zero is a hole
      if idxEntry idxData (blockIdxOf pos).toNat = 0 then
        readLoop idxData offset toReadTotal fuel (buf ++ List.replicate toRead.toNat 0)
      else
        let some blkBuf ← mfsReadBlock (idxEntry idxData (blockIdxOf pos).toNat).toNat
          | return (if buf.length > 0 then toInt buf.length else -eio, buf)
        readLoop idxData offset toReadTotal fuel
          (buf ++ (List.range toRead.toNat).map fun i => blkBuf (blockOff.toNat + i))
    else return (toInt buf.length, buf)

/-- `mfs_read` on the inode of the entry it found. -/
def readFile (inodeNo : UInt32) (size : Nat) (offset : Int) : Io (Int × List UInt8) := do
  match ← readInode inodeNo with
  | .error rc => return (rc, [])
  | .ok inode =>
    if offset ≥ inode.size.toNat then return (0, [])
    -- clipped at the end of the file
    let toReadTotal :=
      if offset + toOffT size > inode.size.toNat then (inode.size.toNat - offset).toNat else size
    -- no block has been written yet
    if inode.indexBlock = 0 then return (0, [])
    let some idxData ← mfsReadBlock inode.indexBlock.toNat | return (-eio, [])
    readLoop idxData offset toReadTotal toReadTotal []

/-- `mfs_read`: the return value and the bytes put into `buf`. -/
def mfsRead (path : CString) (size : Nat) (offset : Int) : Io (Int × List UInt8) := do
  if size = 0 then return (0, [])
  let some name := pathName path | return (-einval, [])
  if name.val = [] then return (-einval, [])
  match ← findDirEntry name with
  | .error rc => return (rc, [])
  | .ok (entry, _) => readFile entry.inodeNo size offset

/-- "Load or allocate the index block" of `mfs_write`: `idx_data`, the inode and
`allocated_index`. -/
def loadIndexBlock (inode : MfsInode) : Io (Except Int (Block × MfsInode × Bool)) := do
  if inode.indexBlock = 0 then
    match ← allocateBlock superblock with
    | .error rc => return .error rc
    | .ok ib =>
      let ok ← mfsWriteBlock zero ib.toNat
      if !ok then
        -- the block is given back when it cannot be cleared
        let _ ← freeBlock superblock ib
        return .error (-eio)
      return .ok (zero, { inode with indexBlock := ib }, true)
  else
    let some idxData ← mfsReadBlock inode.indexBlock.toNat | return .error (-eio)
    return .ok (idxData, inode, false)

/-- The variables the loop of `mfs_write` changes. -/
structure WriteState where
  rc : Int
  idxData : Block
  inode : MfsInode
  bytesWritten : Nat

/-- One pass of the loop of `mfs_write`; the flag is `false` at a `break`. -/
def writeChunk (buf : List UInt8) (offset : Int) (s : WriteState) : Io (WriteState × Bool) := do
  let pos := offset + toOffT s.bytesWritten
  let blockIdx := (blockIdxOf pos).toNat
  let blockOff := (blockOffOf pos).toNat
  let toWrite := (chunkSize (blockOffOf pos) (buf.length - s.bytesWritten)).toNat
  -- Check file size limit: max 4096 blocks (64 MB)
  if blockIdx ≥ mfsBlockSize / 4 then return ({ s with rc := -efbig }, false)
  let chunk : Bytes := fun i => buf.getD (s.bytesWritten + i) 0
  let dataBlk := idxEntry s.idxData blockIdx
  -- a fresh block is filled up with zeroes, an old one is read and patched
  if dataBlk = 0 then
    match ← allocateBlock superblock with
    | .error rc => return ({ s with rc := rc }, false)
    | .ok dataBlk =>
      let ok ← mfsWriteBlock (blit zero blockOff toWrite chunk) dataBlk.toNat
      if !ok then
        -- only the block of this pass is given back
        let _ ← freeBlock superblock dataBlk
        return ({ s with rc := -eio }, false)
      return ({ s with
        idxData := putRec Layout.uint32 s.idxData blockIdx dataBlk
        inode := { s.inode with blockCount := s.inode.blockCount + 1 }
        bytesWritten := s.bytesWritten + toWrite }, true)
  else
    let some blkBuf ← mfsReadBlock dataBlk.toNat | return ({ s with rc := -eio }, false)
    let ok ← mfsWriteBlock (blit blkBuf blockOff toWrite chunk) dataBlk.toNat
    if !ok then return ({ s with rc := -eio }, false)
    return ({ s with bytesWritten := s.bytesWritten + toWrite }, true)

/-- The loop of `mfs_write`. -/
def writeLoop (buf : List UInt8) (offset : Int) : (fuel : Nat) → WriteState → Io WriteState
  | 0, s => return s
  | fuel + 1, s =>
    if s.bytesWritten < buf.length then do
      let (s, go) ← writeChunk superblock buf offset s
      if go then writeLoop buf offset fuel s else return s
    else return s

/-- The end of `mfs_write`, behind its loop. -/
def writeCommit (s : WriteState) (allocatedIndex : Bool) (now : UInt64) : Io Int := do
  let failed := if s.bytesWritten > 0 then toInt s.bytesWritten else -eio
  if s.bytesWritten > 0 ∨ allocatedIndex = true then
    -- index block first, then the inode that points to it
    let inode := { s.inode with
      size := s.inode.size + UInt32.ofNat s.bytesWritten
      mtime := now }
    let ok ← mfsWriteBlock s.idxData inode.indexBlock.toNat
    if !ok then return failed
    let rc ← writeInode inode
    if rc ≠ 0 then return failed
  return if s.bytesWritten > 0 then toInt s.bytesWritten else s.rc

/-- `mfs_write` on the inode of the entry it found. -/
def writeFile (inodeNo : UInt32) (buf : List UInt8) (offset : Int) (now : UInt64) : Io Int := do
  match ← readInode inodeNo with
  | .error rc => return rc
  | .ok inode =>
    -- Only appending is supported
    if offset ≠ inode.size.toNat then return -eopnotsupp
    match ← loadIndexBlock superblock inode with
    | .error rc => return rc
    | .ok (idxData, inode, allocatedIndex) =>
      let s ← writeLoop superblock buf offset buf.length
        { rc := 0, idxData := idxData, inode := inode, bytesWritten := 0 }
      writeCommit s allocatedIndex now

/-- `mfs_write`. -/
def mfsWrite (path : CString) (buf : List UInt8) (offset : Int) (now : UInt64) : Io Int := do
  if buf.length = 0 then return 0
  let some name := pathName path | return -einval
  if name.val = [] then return -einval
  match ← findDirEntry name with
  | .error rc => return rc
  | .ok (entry, _) => writeFile superblock entry.inodeNo buf offset now

end Handlers

/-! ## Formatting and mounting -/

/-- `main` of `make_mfs.c` on a disk of `block_count` blocks. -/
def makeMfs (blockCount : UInt32) (now : UInt64) : Io Int := do
  if blockCount < 128 ∨ blockCount > 4096 then return 1
  let superblock : MfsSuperblock := ⟨mfsMagic, 16384, blockCount, 256, 3, 5, 6, 31⟩
  let ok ← mfsWriteBlock (putRec mfsSuperblockLayout zero 0 superblock) mfsSuperBlock
  if !ok then return 1
  -- the fixed blocks are in use
  let bitmap := (List.range mfsFirstDataBlock).foldl (fun b i => mfsSetBit b i true) zero
  let ok ← mfsWriteBlock bitmap mfsBlockBitmapBlock
  if !ok then return 1
  let ok ← mfsWriteBlock (mfsSetBit zero (mfsRootInode.toNat - 1) true) mfsInodeBitmapBlock
  if !ok then return 1
  -- `size` is the two entries `.` and `..`
  let root := { MfsInode.zero with
    inodeNo := mfsRootInode
    mode := sIfdir ||| 0o755
    size := 128
    blockCount := 1
    indexBlock := 5
    ctime := now
    mtime := now
    atime := now }
  let ok ← mfsWriteBlock (putRec mfsInodeLayout zero 0 root) mfsInodeTableStart
  if !ok then return 1
  let ok ← mfsWriteBlock zero (mfsInodeTableStart + 1)
  if !ok then return 1
  let dot (text : List UInt8) : MfsDirEntry := { MfsDirEntry.zero with
    inodeNo := mfsRootInode
    used := 1
    name := fun i => strncpy text mfsFilenameSize i }
  let entries := putRec mfsDirEntryLayout (putRec mfsDirEntryLayout zero 0 (dot [46])) 1
    (dot [46, 46])
  let ok ← mfsWriteBlock entries mfsRootDirBlock
  if !ok then return 1
  return 0

/-- `load_superblock`. -/
def loadSuperblock : Io (Option MfsSuperblock) := do
  let some block ← mfsReadBlock mfsSuperBlock | return none
  let superblock := getRec mfsSuperblockLayout block 0
  if superblock.magic ≠ mfsMagic ∨ superblock.blockSize ≠ 16384 ∨ superblock.inodeCount ≠ 256 then
    return none
  return some superblock

end OsProjects.Mfs
