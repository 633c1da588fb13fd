import OsProjects.Mfs.Calls
import OsProjects.Mfs.Directory

/-!
# The format — the image `make_mfs` writes is consistent and empty

`formatDisk` names the six blocks `make_mfs` writes; `run_makeMfs` says that this is
what it writes, and `formatDisk_inv` that the invariant holds there, with no file.
-/

namespace OsProjects.Mfs

open Bytes Prog

/-- The block bitmap of the format. -/
def formatBitmap : Block := (List.range 6).foldl (fun b i => mfsSetBit b i true) zero

/-- The inode bitmap of the format. -/
def formatInodeBitmap : Block := mfsSetBit zero 0 true

/-- The root directory of the format. -/
def formatRootDir : Block :=
  putRec mfsDirEntryLayout (putRec mfsDirEntryLayout zero 0 (newEntry [46] 1)) 1
    (newEntry [46, 46] 1)

/-- The disk behind `make_mfs`. -/
def formatDisk (N : UInt32) (now : UInt64) (old : Disk) : Disk :=
  Function.update (Function.update (Function.update (Function.update (Function.update
    (Function.update old 0 (putRec mfsSuperblockLayout zero 0 (formatSuperblock N)))
    1 formatBitmap) 2 formatInodeBitmap) 3 (putRec mfsInodeLayout zero 0 (rootInode now)))
    4 zero) 5 formatRootDir

/-- `make_mfs` copies a fixed name over the whole field. -/
theorem newEntry_format {text : List UInt8} (h : text.length ≤ 31) : newEntry text 1 =
    { MfsDirEntry.zero with
      inodeNo := mfsRootInode, used := 1, name := fun i => strncpy text mfsFilenameSize i } := by
  have hname : strncpy text (mfsFilenameSize - 1) = strncpy text mfsFilenameSize :=
    strncpy_eq h (Nat.le_succ_of_le h)
  rw [newEntry, hname]

/-- `make_mfs` accepts the disks of 128 to 4096 blocks. -/
theorem makeMfs_accepts {N : UInt32} {now : UInt64} {old : Disk}
    (h : (run (makeMfs N now) old).1 = 0) : 128 ≤ N.toNat ∧ N.toNat ≤ 4096 := by
  by_contra hout
  have hcond : N < 128 ∨ N > 4096 := by
    rw [UInt32.lt_iff_toNat_lt, gt_iff_lt, UInt32.lt_iff_toNat_lt]
    have h128 : (128 : UInt32).toNat = 128 := rfl
    have h4096 : (4096 : UInt32).toNat = 4096 := rfl
    omega
  unfold makeMfs at h
  rw [if_pos hcond] at h
  -- the other disks are refused with 1
  have hone : (1 : Int) = 0 := h
  exact absurd hone (by decide)

theorem run_makeMfs {N : UInt32} (h128 : 128 ≤ N.toNat) (h4096 : N.toNat ≤ 4096) (now : UInt64)
    (old : Disk) : run (makeMfs N now) old = (0, formatDisk N now old) := by
  have hcond : ¬ (N < 128 ∨ N > 4096) := by
    rw [UInt32.lt_iff_toNat_lt, gt_iff_lt, UInt32.lt_iff_toNat_lt]
    have h128 : (128 : UInt32).toNat = 128 := rfl
    have h4096 : (4096 : UInt32).toNat = 4096 := rfl
    omega
  unfold makeMfs formatDisk formatRootDir
  rw [if_neg hcond, newEntry_format (show ([46] : List UInt8).length ≤ 31 by decide),
    newEntry_format (show ([46, 46] : List UInt8).length ≤ 31 by decide)]
  rfl

theorem getBit_formatBitmap (b : Nat) : mfsGetBit formatBitmap b = true ↔ b < 6 := by
  have hunfold : formatBitmap = mfsSetBit (mfsSetBit (mfsSetBit (mfsSetBit (mfsSetBit (mfsSetBit
    zero 0 true) 1 true) 2 true) 3 true) 4 true) 5 true := rfl
  rw [hunfold]
  simp only [mfsGetBit, mfsSetBit, getBit_setBit, getBit_zero]
  split_ifs <;> simp <;> omega

theorem getBit_formatInodeBitmap (i : Nat) : mfsGetBit formatInodeBitmap i = true ↔ i = 0 := by
  simp only [formatInodeBitmap, mfsGetBit, mfsSetBit, getBit_setBit, getBit_zero]
  split_ifs with h
  · simp [h]
  · simp [Ne.symm h]

/-- The slots of the format. -/
theorem formatRootDir_slot (s : Nat) : dirEntry formatRootDir s =
    if s = 1 then newEntry [46, 46] 1 else if s = 0 then newEntry [46] 1 else .zero := by
  rw [dirEntry, formatRootDir, getRec_putRec, getRec_putRec]
  rfl

section Format

variable {N : UInt32} {now : UInt64} {old : Disk}

theorem formatDisk_no_file (n : Nat) : ¬ IsFile (formatDisk N now old) n := by
  rintro ⟨s, hs⟩
  have h2 := hs.two_le
  -- only the slots 0 and 1 are written
  have hentry : entryAt (formatDisk N now old) s = .zero := by
    show dirEntry formatRootDir s = .zero
    rw [formatRootDir_slot, if_neg (by omega), if_neg (by omega)]
  exact hs.used (by rw [hentry, zero_used])

theorem formatDisk_dir : DirInv (formatDisk N now old) := by
  refine ⟨?_, ?_, fun s h2 _ => Or.inl ?_,
    fun _ _ n hs => absurd hs.isFile (formatDisk_no_file n),
    fun _ _ n _ hs => absurd hs.isFile (formatDisk_no_file n), fun i => ?_⟩
  · show dirEntry formatRootDir 0 = _
    rw [formatRootDir_slot, if_neg (by decide), if_pos rfl]
  · show dirEntry formatRootDir 1 = _
    rw [formatRootDir_slot, if_pos rfl]
  · show dirEntry formatRootDir s = _
    rw [formatRootDir_slot, if_neg (by omega), if_neg (by omega)]
  -- no file, so the root's is the only bit
  · show mfsGetBit formatInodeBitmap i = true ↔ _
    rw [getBit_formatInodeBitmap]
    exact ⟨Or.inl, fun h => h.resolve_right (formatDisk_no_file _)⟩

/-- The image of the format is consistent. -/
theorem formatDisk_inv : FsInv N.toNat (formatDisk N now old) where
  super := by
    show getRec _ (putRec _ _ _ _) _ = _
    rw [getRec_putRec_same, UInt32.ofNat_toNat]
  root := ⟨now, getRec_putRec_same mfsInodeLayout zero 0 (rootInode now)⟩
  dir := formatDisk_dir
  blocks :=
    ⟨fun b => (getBit_formatBitmap b).trans
      ⟨Or.inl, fun h => h.resolve_right fun ⟨n, hn⟩ => formatDisk_no_file n hn.1⟩,
      fun n b hb => absurd hb.1 (formatDisk_no_file n),
      fun n _ b hb => absurd hb.1 (formatDisk_no_file n),
      fun n b hn => absurd hn (formatDisk_no_file n)⟩
  file := fun n hn => absurd hn (formatDisk_no_file n)

end Format

/-- The image of a disk that `make_mfs` accepted. -/
theorem format_eq {N : UInt32} {now : UInt64} {old : Disk}
    (h : (run (makeMfs N now) old).1 = 0) : format N now old = formatDisk N now old := by
  obtain ⟨h128, h4096⟩ := makeMfs_accepts h
  rw [format, run_makeMfs h128 h4096]

end OsProjects.Mfs
