import OsProjects.Lib.BlockTrees
import OsProjects.Mfs.Refinement

/-!
# The root directory — what the handlers let happen to it

Three strings name the root for `mfs.c`: `/`, which the handlers turn away, and `/.`
and `/..`, which `path_name` lets through and `find_dir_entry` finds in the slots 0 and
1. Through these two, `mfs_create` and the handlers that only read do no harm, and
neither does a write that does not start at the size of the root. `mfs_unlink` clears
the slot before `free_inode` refuses the inode, and a write at offset 128 goes through
the directory block as if it were an index block.

`rootKept_iff` says of one call when the root survives it, `runCalls_root_iff` of a
whole run.
-/

namespace OsProjects.Mfs

open Bytes Prog

/-! ## Statements -/

/-- The path leads to inode 1. -/
def NamesRoot (path : CString) : Prop :=
  path.val = [47] ∨ path.val = [47, 46] ∨ path.val = [47, 46, 46]

/-- Slot `s` names the root inode by `text`. -/
structure RootSlot (d : Disk) (s : Nat) (text : List UInt8) : Prop where
  used : (entryAt d s).used ≠ 0
  text_eq : (entryAt d s).text = text
  inodeNo : (entryAt d s).inodeNo = mfsRootInode

/-- The root directory is as the format made it. -/
structure RootIntact (d : Disk) : Prop where
  dot : RootSlot d 0 [46]
  dotdot : RootSlot d 1 [46, 46]
  mode : (inodeAt d 1).mode = sIfdir ||| 0o755
  size : (inodeAt d 1).size = 128
  indexBlock : (inodeAt d 1).indexBlock = 5
  bit : inodeBitAt d 0 = true

/-- An unlink of the root, or a write to it. -/
def Call.AimsAtRoot : Call → Prop
  | .unlink path | .write path _ _ _ => NamesRoot path
  | .getattr _ | .readdir _ | .create _ _ _ | .openFile _ | .read _ _ _ => False

/-- The call leaves the root directory as it is, and fails without a trace if it was meant
to unlink it or to write to it. -/
structure RootKept (N : UInt32) (d : Disk) (c : Call) : Prop where
  intact : RootIntact (after N c d)
  fails : c.AimsAtRoot → ∃ rc < 0, reply N c d = .status rc ∧ after N c d = d

/-- The calls that get through to the root: `/.` and `/..` unlinked or written to at offset
128, and the write of no bytes, which returns before the path is looked at. -/
def Call.HarmsRoot : Call → Prop
  | .unlink path => ¬ Resolved path
  | .write path buf offset _ => NamesRoot path ∧ buf = [] ∨ ¬ Resolved path ∧ offset = 128
  | .getattr _ | .readdir _ | .create _ _ _ | .openFile _ | .read _ _ _ => False

theorem namesRoot_iff {path : CString} : NamesRoot path ↔ path.val = [47] ∨ ¬ Resolved path := by
  unfold NamesRoot Resolved
  rw [not_and_or, not_not, not_not]

/-- A consistent image has its root. -/
theorem FsInv.rootIntact {N : Nat} {d : Disk} (h : FsInv N d) : RootIntact d := by
  obtain ⟨now, hroot⟩ := h.root
  -- both fixed slots carry the number 1
  have hslot : ∀ {s text}, entryAt d s = newEntry text 1 → 0 ∉ text → text.length ≤ 31 →
      RootSlot d s text := by
    intro s text hentry hnul hle
    refine ⟨?_, ?_, ?_⟩
    · rw [hentry, newEntry_used]
      decide
    · rw [hentry, newEntry_text hnul hle]
    · rw [hentry, newEntry_inodeNo]
  refine ⟨hslot h.dir.dot (by decide) (by decide), hslot h.dir.dotdot (by decide) (by decide),
    ?_, ?_, ?_, (h.dir.inodeBit 0).mpr (Or.inl rfl)⟩
  · rw [hroot]
    rfl
  · rw [hroot]
    rfl
  · rw [hroot]
    rfl

/-! ## The handlers that only read, at any path -/

theorem readOnly_findDirEntry (name : CString) : (findDirEntry name).ReadOnly := by
  rw [findDirEntry_eq]
  exact .read fun _ => .done _

theorem readOnly_readInode (inodeNo : UInt32) : (readInode inodeNo).ReadOnly := by
  by_cases hrange : 1 ≤ inodeNo.toNat ∧ inodeNo.toNat ≤ 256
  · rw [readInode_eq hrange.1 hrange.2]
    exact .read fun _ => .done _
  · unfold readInode
    rw [if_pos (by simp only [mfsInodeCount]; omega)]
    exact .done _

theorem readOnly_readRootDir : readRootDir.ReadOnly := by
  refine .read fun r => ?_
  cases r with
  | none => exact .done _
  | some entries => exact .done _

theorem readOnly_readLoop (idxData : Block) (offset : Int) (total fuel : Nat) (buf : List UInt8) :
    (readLoop idxData offset total fuel buf).ReadOnly := by
  -- on the passes left
  induction fuel generalizing buf with
  | zero => exact .done _
  | succ fuel ih =>
    rw [readLoop]
    split
    · simp only
      split
      · exact .done _
      · split
        · exact ih _
        · -- the one transfer of a pass
          refine .read fun r => ?_
          cases r with
          | none => exact .done _
          | some blkBuf => exact ih _
    · exact .done _

theorem readOnly_readFile (inodeNo : UInt32) (size : Nat) (offset : Int) :
    (readFile inodeNo size offset).ReadOnly := by
  refine (readOnly_readInode inodeNo).bind fun r => ?_
  -- an inode that is read, or an error
  cases r with
  | error rc => exact .done _
  | ok inode =>
    simp only
    -- the end of the file, or no index block
    split
    · exact .done _
    · split
      · exact .done _
      · refine .read fun r => ?_
        cases r with
        | none => exact .done _
        | some idxData => exact readOnly_readLoop _ _ _ _ _

theorem readOnly_lookup {α : Type} {name : CString} {f : Except Int (MfsDirEntry × Nat) → Io α}
    (herror : ∀ rc, (f (.error rc)).ReadOnly) (hok : ∀ entry i, (f (.ok (entry, i))).ReadOnly) :
    (findDirEntry name >>= f).ReadOnly := by
  refine (readOnly_findDirEntry name).bind fun r => ?_
  rcases r with rc | ⟨entry, i⟩
  · exact herror rc
  · exact hok entry i

theorem readOnly_mfsGetattr (path : CString) : (mfsGetattr path).ReadOnly := by
  unfold mfsGetattr
  cases pathName path with
  | none => exact .done _
  | some name =>
    simp only
    split
    · refine (readOnly_readInode _).bind fun r => ?_
      cases r <;> exact .done _
    · refine readOnly_lookup (fun _ => .done _) fun entry _ => ?_
      refine (readOnly_readInode _).bind fun r => ?_
      cases r <;> exact .done _

theorem readOnly_mfsReaddir (path : CString) : (mfsReaddir path).ReadOnly := by
  unfold mfsReaddir
  split
  · exact .done _
  · refine readOnly_readRootDir.bind fun r => ?_
    cases r <;> exact .done _

theorem readOnly_mfsOpen (path : CString) : (mfsOpen path).ReadOnly := by
  unfold mfsOpen
  cases pathName path with
  | none => exact .done _
  | some name =>
    simp only
    split
    · exact .done _
    · exact readOnly_lookup (fun _ => .done _) fun _ _ => .done _

theorem readOnly_mfsRead (path : CString) (size : Nat) (offset : Int) :
    (mfsRead path size offset).ReadOnly := by
  unfold mfsRead
  split
  · exact .done _
  · cases pathName path with
    | none => exact .done _
    | some name =>
      simp only
      split
      · exact .done _
      · exact readOnly_lookup (fun _ => .done _) fun _ _ => readOnly_readFile _ _ _

/-- A call that only reads writes nothing, whatever its path. -/
theorem readOnly_handle {superblock : MfsSuperblock} {c : Call} (hc : c.Reads) :
    (handle superblock c).ReadOnly := by
  cases c with
  | getattr path => exact (readOnly_mfsGetattr path).bind fun _ => .done _
  | readdir path => exact (readOnly_mfsReaddir path).bind fun _ => .done _
  | openFile path => exact (readOnly_mfsOpen path).bind fun _ => .done _
  | read path size offset => exact (readOnly_mfsRead path size offset).bind fun _ => .done _
  | create | unlink | write => exact absurd hc id

/-! ## The paths `/.` and `/..` -/

section Dot

variable {N : UInt32} {d : Disk} {path : CString}

/-- `find_dir_entry` finds `.` and `..` in the two fixed slots. -/
theorem DirInv.lookup_dot (hdir : DirInv d) (hdot : ¬ Resolved path) :
    ∃ name s, s < 2 ∧ pathName path = some name ∧ name.val ≠ [] ∧ name.val.length ≤ 31 ∧
      lookupEntry (d 5) name = .ok (entryAt d s, s) := by
  have hmatch : ∀ {s text name}, entryAt d s = newEntry text 1 → (text = [46] ∨ text = [46, 46]) →
      (dirEntryMatches (d 5) name s = true ↔ name.val = text) := by
    intro s text name hentry htext
    refine dirEntryMatches_newEntry ?_ ?_ hentry
    · rcases htext with rfl | rfl <;> decide
    · rcases htext with rfl | rfl <;> decide
  -- the first slot that matches is the one found
  have hfound : ∀ {name : CString} {s}, s < 2 → dirEntryMatches (d 5) name s = true →
      (∀ j < s, dirEntryMatches (d 5) name j ≠ true) →
      lookupEntry (d 5) name = .ok (entryAt d s, s) := by
    intro name s hs hthis hbefore
    have hfind : (List.range' 0 mfsDirEntryCount).find? (dirEntryMatches (d 5) name) = some s := by
      rw [List.find?_range'_eq_some]
      refine ⟨hthis, ?_, ?_⟩
      · rw [List.mem_range'_1, mfsDirEntryCount]
        omega
      · intro j _ hj
        rw [Bool.not_eq_true', ← Bool.not_eq_true]
        exact hbefore j hj
    rw [lookupEntry, hfind]
    rfl
  obtain ⟨text, hnul⟩ := path
  have hpaths : text = [47, 46] ∨ text = [47, 46, 46] := by
    unfold Resolved at hdot
    rwa [not_and_or, not_not, not_not] at hdot
  rcases hpaths with rfl | rfl
  · refine ⟨⟨[46], by decide⟩, 0, by omega, rfl, by decide, by decide, hfound (by omega) ?_ ?_⟩
    · exact (hmatch hdir.dot (Or.inl rfl)).mpr rfl
    · intro j hj
      omega
  · refine ⟨⟨[46, 46], by decide⟩, 1, by omega, rfl, by decide, by decide, hfound (by omega) ?_ ?_⟩
    · exact (hmatch hdir.dotdot (Or.inr rfl)).mpr rfl
    · -- the slot in front holds the shorter name
      intro j hj
      obtain rfl : j = 0 := by omega
      rw [Ne, hmatch hdir.dot (Or.inl rfl)]
      exact by decide

/-- `mfs_create` finds the name in use. -/
theorem returns_mfsCreate_dot (hdir : DirInv d) (hdot : ¬ Resolved path) (mode : UInt32)
    (now : UInt64) : Returns (mfsCreate path mode now) d (-eexist) := by
  obtain ⟨name, s, -, hpath, hne, hlen, hlookup⟩ := hdir.lookup_dot hdot
  unfold mfsCreate
  rw [hpath]
  simp only [if_neg hne, if_neg (show ¬ name.val.length > mfsMaxFilename by
    rw [mfsMaxFilename]; omega)]
  refine (returns_findDirEntry d name).bind ?_
  rw [hlookup]
  exact returns_done

/-- `free_inode` refuses the root, with its record already cleared. -/
theorem run_clearInode_root {inodeNo : UInt32} (hone : inodeNo.toNat = 1) :
    run (clearInode inodeNo) d = (-einval, writeRecord d 1 (emptyInode inodeNo)) := by
  have hno : (emptyInode inodeNo).inodeNo.toNat = 1 := hone
  have hfree : freeInode inodeNo = .done (-einval) := by
    unfold freeInode
    rw [if_pos (by left; rw [hone]; decide)]
    rfl
  rw [clearInode, hfree, writeInode_eq (by omega) (by omega), hno]
  rfl

/-- `mfs_unlink` clears the slot. -/
theorem mfsUnlink_dot (hdir : DirInv d) (hdot : ¬ Resolved path) (superblock : MfsSuperblock) :
    ∃ s < 2, entryAt (run (mfsUnlink superblock path) d).2 s = MfsDirEntry.zero := by
  obtain ⟨name, s, hs, hpath, hne, -, hlookup⟩ := hdir.lookup_dot hdot
  refine ⟨s, hs, ?_⟩
  have hone : (dirEntry (d 5) s).inodeNo.toNat = 1 := hdir.fixed_inodeNo hs
  unfold mfsUnlink
  rw [hpath]
  simp only [if_neg hne]
  rw [run_bind, (returns_findDirEntry d name).run, hlookup]
  simp only
  rw [run_bind, (returns_readRootDir d).run]
  simp only
  rw [run_bind, removeFile_eq, run_write, if_pos rfl, run_clearInode_root hone]
  -- the directory that is written was read in front of the frees
  show entryAt (writeRecord _ 1 _) s = _
  rw [entryAt, writeRecord_of_ne (by omega) (by omega) (by omega), Function.update_self, dirEntry,
    getRec_putRec, if_pos rfl]

/-! ### Writes -/

/-- What the loop of `mfs_write` keeps when it runs on the root directory. -/
structure RootWrite (s : WriteState) : Prop where
  inodeNo : s.inode.inodeNo = mfsRootInode
  size : s.inode.size = 128
  bound : 128 + s.bytesWritten ≤ 67108864

/-- The position of a pass on the root. -/
theorem rootWrite_pos {s : WriteState} (h : RootWrite s) :
    (128 : Int) + toOffT s.bytesWritten = (128 + s.bytesWritten : Nat) := by
  have hbound := h.bound
  rw [toOffT_of_lt (by omega)]
  omega

/-- A pass stays within the 4096 blocks of a file. -/
theorem yields_writeChunk_root (superblock : MfsSuperblock) {buf : List UInt8} {s : WriteState}
    (h : RootWrite s) (hlt : s.bytesWritten < buf.length) :
    Yields (fun r => RootWrite r.1 ∧ s.bytesWritten ≤ r.1.bytesWritten)
      (writeChunk superblock buf 128 s) := by
  have hbound := h.bound
  have hidx := blockIdx_eq (p := 128 + s.bytesWritten) (by omega)
  have hoff := blockOff_eq (128 + s.bytesWritten)
  have hchunk : (chunkSize (blockOffOf (128 + s.bytesWritten : Nat))
      (buf.length - s.bytesWritten)).toNat = _ := chunkSize_eq (by omega) _
  have hsame : ∀ rc, RootWrite { s with rc := rc } := fun rc => ⟨h.inodeNo, h.size, h.bound⟩
  unfold writeChunk
  rw [rootWrite_pos h]
  simp only [hidx, hoff] at hchunk ⊢
  split
  · exact .done ⟨hsame _, Nat.le_refl _⟩
  · next hmax =>
    -- the end of the chunk is no further than the end of the block
    have hnext : 128 + (s.bytesWritten + (chunkSize (blockOffOf (128 + s.bytesWritten : Nat))
        (buf.length - s.bytesWritten)).toNat) ≤ 67108864 := by
      simp only [mfsBlockSize] at hmax
      omega
    split
    · refine (yields_true _).bind fun r _ => ?_
      cases r with
      | error rc => exact .done ⟨hsame _, Nat.le_refl _⟩
      | ok dataBlk =>
        refine .write fun ok => ?_
        cases ok with
        | false =>
          show Yields _ (freeBlock superblock dataBlk >>= _)
          exact (yields_true _).bind fun _ _ => .done ⟨hsame _, Nat.le_refl _⟩
        | true => exact .done ⟨⟨h.inodeNo, h.size, hnext⟩, Nat.le_add_right _ _⟩
    · refine .read fun r => ?_
      cases r with
      | none => exact .done ⟨hsame _, Nat.le_refl _⟩
      | some blkBuf =>
        refine .write fun ok => ?_
        cases ok with
        | false => exact .done ⟨hsame _, Nat.le_refl _⟩
        | true => exact .done ⟨⟨h.inodeNo, h.size, hnext⟩, Nat.le_add_right _ _⟩

/-- The loop on the root only goes forward. -/
theorem yields_writeLoop_root (superblock : MfsSuperblock) (buf : List UInt8) (fuel : Nat)
    {s : WriteState} (h : RootWrite s) :
    Yields (fun s' => RootWrite s' ∧ s.bytesWritten ≤ s'.bytesWritten)
      (writeLoop superblock buf 128 fuel s) := by
  -- on the passes left
  induction fuel generalizing s with
  | zero => exact .done ⟨h, Nat.le_refl _⟩
  | succ fuel ih =>
    rw [writeLoop]
    split
    · next hlt =>
      refine (yields_writeChunk_root superblock h hlt).bind ?_
      rintro ⟨s', go⟩ ⟨h', hle⟩
      cases go with
      | false => exact .done ⟨h', hle⟩
      | true => exact (ih h').mono fun s'' hs => ⟨hs.1, Nat.le_trans hle hs.2⟩
    · exact .done ⟨h, Nat.le_refl _⟩

/-- The first pass takes the inode number of `.` for a block number, and writes to the block
bitmap. -/
theorem run_writeChunk_root (superblock : MfsSuperblock) {buf : List UInt8} (hdir : DirInv d)
    (hbuf : buf ≠ []) (inode : MfsInode) :
    ∃ t > 0, (run (writeChunk superblock buf 128 ⟨0, d 5, inode, 0⟩) d).1 =
      (⟨0, d 5, inode, t⟩, true) := by
  have hlen := List.length_pos_iff.mpr hbuf
  -- the first entry of the directory, read as an index block, is the number of `.`
  have hentry : idxEntry (d 5) 0 = mfsRootInode := by
    show (entryAt d 0).inodeNo = _
    rw [hdir.dot, newEntry_inodeNo]
  -- 128 bytes are in the first block
  have hidx : (blockIdxOf ((128 : Nat) : Int)).toNat = 0 := blockIdx_eq (p := 128) (by omega)
  have hoff : (blockOffOf ((128 : Nat) : Int)).toNat = 128 := blockOff_eq 128
  have hchunk : (chunkSize (blockOffOf ((128 : Nat) : Int)) buf.length).toNat = _ :=
    chunkSize_eq (by omega) _
  refine ⟨(chunkSize (blockOffOf ((128 : Nat) : Int)) buf.length).toNat, by omega, ?_⟩
  unfold writeChunk
  have hpos : (128 : Int) + toOffT 0 = ((128 : Nat) : Int) := rfl
  simp only [hpos, hidx, hentry, Nat.sub_zero]
  rw [if_neg (by decide), if_neg (by decide)]
  show (WriteState.mk 0 (d 5) inode (0 + _), true) = _
  rw [Nat.zero_add]

/-- A write to the root at offset 128 changes its size. -/
theorem writeFile_root (superblock : MfsSuperblock) {buf : List UInt8} {t : UInt64}
    (hdir : DirInv d) (hroot : inodeAt d 1 = rootInode t) (hbuf : buf ≠ []) (now : UInt64) :
    (inodeAt (run (writeFile superblock mfsRootInode buf 128 now) d).2 1).size ≠ 128 := by
  have hread : Returns (readInode mfsRootInode) d (.ok (inodeAt d 1)) := by
    have hload := loadInode_ok (Nat.le_refl 1) (show (inodeAt d 1).inodeNo.toNat = 1 by
      rw [hroot]
      rfl)
    rw [← hload]
    exact returns_readInode d (by decide) (by decide)
  have hindex : Returns (loadIndexBlock superblock (rootInode t)) d
      (.ok (d 5, rootInode t, false)) := returns_read returns_done
  unfold writeFile
  rw [run_bind, hread.run, hroot]
  simp only
  rw [if_neg (show ¬ (128 : Int) ≠ (rootInode t).size.toNat from not_not.mpr rfl), run_bind,
    hindex.run]
  simp only
  rw [run_bind]
  -- the loop gets through its first pass and stays within the file size limit
  have hloop : ∃ s', (run (writeLoop superblock buf 128 buf.length ⟨0, d 5, rootInode t, 0⟩) d).1 =
      s' ∧ RootWrite s' ∧ 0 < s'.bytesWritten := by
    obtain ⟨k, hk, hfirst⟩ := run_writeChunk_root superblock hdir hbuf (rootInode t)
    have hlen := List.length_pos_iff.mpr hbuf
    have hstart : RootWrite ⟨0, d 5, rootInode t, 0⟩ := ⟨rfl, rfl, by simp only; omega⟩
    have hchunk := (yields_writeChunk_root superblock hstart hlen).run_fst d
    rw [hfirst] at hchunk
    refine ⟨_, rfl, ?_⟩
    obtain ⟨fuel, hfuel⟩ := Nat.exists_eq_succ_of_ne_zero (Nat.ne_of_gt hlen)
    rw [hfuel, writeLoop, if_pos (show 0 < buf.length from hlen), run_bind, hfirst]
    have hrest := (yields_writeLoop_root superblock buf fuel hchunk.1).run_fst
      (run (writeChunk superblock buf 128 ⟨0, d 5, rootInode t, 0⟩) d).2
    exact ⟨hrest.1, Nat.lt_of_lt_of_le hk hrest.2⟩
  obtain ⟨s', hs', hkeeps, hpos⟩ := hloop
  rw [hs']
  generalize (run (writeLoop superblock buf 128 buf.length ⟨0, d 5, rootInode t, 0⟩) d).2 = d'
  have hbound := hkeeps.bound
  -- the commit writes the record with the new size
  have hno : s'.inode.inodeNo.toNat = 1 := by
    rw [hkeeps.inodeNo]
    rfl
  unfold writeCommit
  rw [if_pos (Or.inl hpos)]
  simp only
  rw [writeInode_eq (by simp only; omega) (by simp only; omega)]
  show (inodeAt (writeRecord _ s'.inode.inodeNo.toNat _) 1).size ≠ 128
  rw [hno, inodeAt_writeRecord (Nat.le_refl 1) (Nat.le_refl 1), if_pos rfl]
  show s'.inode.size + UInt32.ofNat s'.bytesWritten ≠ 128
  rw [hkeeps.size]
  intro heq
  have hsum := congrArg UInt32.toNat heq
  rw [UInt32.toNat_add, UInt32.toNat_ofNat_of_lt' (by simp only [UInt32.size]; omega)] at hsum
  have h128 : (128 : UInt32).toNat = 128 := rfl
  omega

/-- `mfs_write` gets through to the inode of the root. -/
theorem run_mfsWrite_dot {superblock : MfsSuperblock} {buf : List UInt8} (hdir : DirInv d)
    (hdot : ¬ Resolved path) (hbuf : buf ≠ []) (offset : Int) (now : UInt64) :
    run (mfsWrite superblock path buf offset now) d =
      run (writeFile superblock mfsRootInode buf offset now) d := by
  obtain ⟨name, s, hs, hpath, hne, -, hlookup⟩ := hdir.lookup_dot hdot
  have hone : (entryAt d s).inodeNo = mfsRootInode := UInt32.toNat_inj.mp (hdir.fixed_inodeNo hs)
  unfold mfsWrite
  rw [if_neg (by simpa using hbuf), hpath]
  simp only [if_neg hne]
  rw [run_bind, (returns_findDirEntry d name).run, hlookup]
  simp only [hone]

/-- Anywhere but at its size, a write to the root is refused. -/
theorem run_writeFile_root (hinv : FsInv N.toNat d) {superblock : MfsSuperblock} {buf : List UInt8}
    {offset : Int} (hoff : offset ≠ 128) (now : UInt64) :
    run (writeFile superblock mfsRootInode buf offset now) d = (-eopnotsupp, d) := by
  obtain ⟨t, hread⟩ := hinv.returns_rootInode
  unfold writeFile
  rw [run_bind, hread.run]
  simp only
  rw [if_pos (show offset ≠ (rootInode t).size.toNat from hoff)]
  rfl

end Dot

/-! ## One call -/

section Step

variable {N : UInt32} {d : Disk} {c : Call}

/-- A call through `/.` or `/..` that does no harm leaves the image as it is. -/
theorem after_dot (hinv : FsInv N.toNat d) (hdot : ¬ Resolved c.path) (hsafe : ¬ c.HarmsRoot) :
    after N c d = d ∧ (c.AimsAtRoot → ∃ rc < 0, reply N c d = .status rc) := by
  have hreads : c.Reads → after N c d = d := fun hc => (readOnly_handle hc).run_snd d
  cases c with
  | create path mode now =>
    have hpath : ¬ Resolved path := hdot
    have hret : Returns (handle (formatSuperblock N) (.create path mode now)) d
        (.status (-eexist)) := (returns_mfsCreate_dot hinv.dir hpath mode now).bind returns_done
    exact ⟨(after_of_returns hret).1, False.elim⟩
  | unlink path => exact absurd hdot hsafe
  | write path buf offset now =>
    have hpath : ¬ Resolved path := hdot
    -- a write that does no harm is refused for its offset
    have hbuf : buf ≠ [] := fun hb => hsafe (Or.inl ⟨namesRoot_iff.mpr (Or.inr hpath), hb⟩)
    have hoff : offset ≠ 128 := fun ho => hsafe (Or.inr ⟨hpath, ho⟩)
    have hrun : run (mfsWrite (formatSuperblock N) path buf offset now) d = (-eopnotsupp, d) := by
      rw [run_mfsWrite_dot hinv.dir hpath hbuf, run_writeFile_root hinv hoff]
    rw [after_write.1, after_write.2, hrun]
    exact ⟨rfl, fun _ => ⟨-eopnotsupp, by decide, rfl⟩⟩
  | getattr | readdir | openFile | read => exact ⟨hreads trivial, False.elim⟩

/-- An unlink of `/`, or a write to it, is refused. -/
theorem reply_root {path : CString} (hpath : path.val = [47]) :
    (after N (.unlink path) d = d ∧ reply N (.unlink path) d = .status (-einval)) ∧
      ∀ {buf : List UInt8} (offset : Int) (now : UInt64), buf ≠ [] →
        after N (.write path buf offset now) d = d ∧
        reply N (.write path buf offset now) d = .status (-einval) := by
  -- the name behind the slash is empty, and the handlers check that
  have hname : pathName path = some ⟨[], by simp⟩ := by
    unfold pathName
    rw [if_pos hpath]
  constructor
  · have hunlink : mfsUnlink (formatSuperblock N) path = .done (-einval) := by
      unfold mfsUnlink
      rw [hname]
      rfl
    rw [after, reply, handle, hunlink]
    exact ⟨rfl, rfl⟩
  · intro buf offset now hbuf
    have hwrite : mfsWrite (formatSuperblock N) path buf offset now = .done (-einval) := by
      unfold mfsWrite
      rw [if_neg (by simpa using hbuf), hname]
      rfl
    rw [after, reply, handle, hwrite]
    exact ⟨rfl, rfl⟩

/-- A harmless call leaves a consistent image. -/
theorem FsInv.after_harmless (hinv : FsInv N.toNat d) (hN4 : N.toNat ≤ 4096)
    (hsafe : ¬ c.HarmsRoot) : FsInv N.toNat (Mfs.after N c d) := by
  by_cases hres : Resolved c.path
  · exact hinv.after hN4 hres
  · rw [(after_dot hinv hres hsafe).1]
    exact hinv

/-- A harmful call is one the root does not survive, or one that is not refused. -/
theorem not_rootKept (hinv : FsInv N.toNat d) (hharm : c.HarmsRoot) : ¬ RootKept N d c := by
  intro hkept
  cases c with
  | unlink path =>
    -- the slot of the name is empty
    obtain ⟨s, hs, hzero⟩ := mfsUnlink_dot hinv.dir hharm (formatSuperblock N)
    have hused : (entryAt (after N (.unlink path) d) s).used ≠ 0 := by
      have hcase : s = 0 ∨ s = 1 := by omega
      rcases hcase with rfl | rfl
      · exact hkept.intact.dot.used
      · exact hkept.intact.dotdot.used
    rw [after_unlink.1, hzero] at hused
    exact hused zero_used
  | write path buf offset now =>
    have hharm' : NamesRoot path ∧ buf = [] ∨ ¬ Resolved path ∧ offset = 128 := hharm
    by_cases hbuf : buf = []
    · -- nothing to write: success, whatever the path
      have hroot : NamesRoot path :=
        hharm'.elim (fun h => h.1) fun h => namesRoot_iff.mpr (Or.inr h.1)
      obtain ⟨rc, hneg, hrc, -⟩ := hkept.fails hroot
      have hzero : reply N (.write path buf offset now) d = .status 0 := by
        rw [hbuf]
        rfl
      rw [hzero] at hrc
      injection hrc with hrc
      omega
    · obtain ⟨hdot, rfl⟩ := hharm'.resolve_left fun h => hbuf h.2
      obtain ⟨t, hroot⟩ := hinv.root
      have hsize := writeFile_root (formatSuperblock N) hinv.dir hroot hbuf now
      rw [← run_mfsWrite_dot hinv.dir hdot hbuf] at hsize
      rw [← after_write.1] at hsize
      exact hsize hkept.intact.size
  | getattr | readdir | create | openFile | read => exact hharm

/-- **The root survives a call, and an attack on it fails, unless the call is one of those
that get through.** -/
theorem rootKept_iff (hinv : FsInv N.toNat d) (hN4 : N.toNat ≤ 4096) :
    RootKept N d c ↔ ¬ c.HarmsRoot := by
  refine ⟨fun hkept hharm => not_rootKept hinv hharm hkept, ?_⟩
  intro hsafe
  refine ⟨(hinv.after_harmless hN4 hsafe).rootIntact, ?_⟩
  intro haim
  by_cases hres : Resolved c.path
  · -- the path is `/`
    -- on the calls that aim at the root
    cases c with
    | unlink path =>
      have hpath : path.val = [47] := (namesRoot_iff.mp haim).resolve_right (not_not_intro hres)
      have hroot := (reply_root (N := N) (d := d) hpath).1
      exact ⟨-einval, by decide, hroot.2, hroot.1⟩
    | write path buf offset now =>
      have hpath : path.val = [47] := (namesRoot_iff.mp haim).resolve_right (not_not_intro hres)
      have hbuf : buf ≠ [] := fun hb => hsafe (Or.inl ⟨haim, hb⟩)
      have hroot := (reply_root (N := N) (d := d) hpath).2 offset now hbuf
      exact ⟨-einval, by decide, hroot.2, hroot.1⟩
    | getattr | readdir | create | openFile | read => exact absurd haim id
  · -- `/.` or `/..`
    obtain ⟨hafter, hfails⟩ := after_dot hinv hres hsafe
    obtain ⟨rc, hneg, hrc⟩ := hfails haim
    exact ⟨rc, hneg, hrc, hafter⟩

end Step

/-! ## Runs -/

/-- A run that starts consistent. -/
theorem run_root_iff {N : UInt32} (hN4 : N.toNat ≤ 4096) {cs : List Call} {d : Disk}
    (hinv : FsInv N.toNat d) :
    (∀ cs₁ c cs₂, cs = cs₁ ++ c :: cs₂ → RootKept N (runCalls N cs₁ d).2 c) ↔
      ∀ c ∈ cs, ¬ c.HarmsRoot := by
  induction cs generalizing d with
  | nil => exact iff_of_true (fun cs₁ c cs₂ h => by simp at h) (fun c hc => by simp at hc)
  | cons c cs ih =>
    have hstep := rootKept_iff (c := c) hinv hN4
    rw [List.forall_mem_cons]
    constructor
    · intro hall
      have hsafe := hstep.mp (hall [] c cs rfl)
      -- behind a harmless call the image is consistent again
      refine ⟨hsafe, (ih (hinv.after_harmless hN4 hsafe)).mp fun cs₁ c' cs₂ heq => ?_⟩
      exact hall (c :: cs₁) c' cs₂ (by rw [heq]; rfl)
    · rintro ⟨hsafe, hrest⟩ cs₁ c' cs₂ heq
      rcases List.cons_eq_append_iff.mp heq with ⟨rfl, hcons⟩ | ⟨cs₁, rfl, hcs⟩
      · obtain ⟨rfl, -⟩ := List.cons_eq_cons.mp hcons
        exact hstep.mpr hsafe
      · exact (ih (hinv.after_harmless hN4 hsafe)).mpr hrest cs₁ c' cs₂ hcs

/-- **The root directory survives every call of a run, and each unlink of it or write to it
fails without a trace, exactly when no call of the run is one of those that get through.** -/
theorem runCalls_root_iff {N : UInt32} {d : Disk} (h : Reachable N d) (cs : List Call) :
    (RootIntact d ∧ ∀ cs₁ c cs₂, cs = cs₁ ++ c :: cs₂ → RootKept N (runCalls N cs₁ d).2 c) ↔
      ∀ c ∈ cs, ¬ c.HarmsRoot := by
  obtain ⟨hinv, -, hN4⟩ := h.inv
  rw [run_root_iff hN4 hinv]
  exact and_iff_right hinv.rootIntact

/-- The path `/.`. -/
def pathDot : CString := ⟨[47, 46], by decide⟩

/-- `/` is turned away, and so is `/.` for a write at its start. -/
theorem runCalls_root_a : RootIntact oneFile ∧ ∀ cs₁ c cs₂,
    [.unlink ⟨[47], by decide⟩, .write pathDot [120] 0 0, .create pathDot 0o644 0] =
      cs₁ ++ c :: cs₂ → RootKept 128 (runCalls 128 cs₁ oneFile).2 c := by
  refine (runCalls_root_iff oneFile_reachable _).mpr ?_
  intro c hc
  simp only [List.mem_cons, List.not_mem_nil, or_false] at hc
  rcases hc with rfl | rfl | rfl
  · exact not_not_intro (by decide)
  · rintro (⟨-, hnil⟩ | ⟨-, hoff⟩)
    · exact absurd hnil (by decide)
    · exact absurd hoff (by decide)
  · exact id

/-- `/.` is unlinked. -/
theorem unlink_root : ¬ ∀ (N : UInt32) (d : Disk), Reachable N d → ∀ c : Call, RootKept N d c := by
  intro h
  have hinv := oneFile_reachable.inv
  have hharm : (Call.unlink pathDot).HarmsRoot := fun hres => hres.1 rfl
  exact not_rootKept hinv.1 hharm (h 128 oneFile oneFile_reachable (.unlink pathDot))

end OsProjects.Mfs
