import OsProjects.Mfs.Calls
import OsProjects.Mfs.Chunks
import OsProjects.Mfs.Files
import OsProjects.Mfs.Helpers

/-!
# The handlers that only read — getattr, open, readdir, read

None of them writes (`Returns`), and each returns what the file map says. The loop of
`mfs_read` is the one with an argument: pass by pass it appends the next part of the
file, cut at a block boundary (`content_chunk`), so in the end the buffer holds the
slice asked for (`FileOk.returns_readLoop`).
-/

namespace OsProjects.Mfs

open Bytes Prog

variable {d : Disk}

theorem returns_findDirEntry (d : Disk) (name : CString) :
    Returns (findDirEntry name) d (lookupEntry (d 5) name) := by
  rw [findDirEntry_eq]
  exact returns_read returns_done

theorem returns_readRootDir (d : Disk) : Returns readRootDir d (.ok (d 5)) :=
  returns_read returns_done

theorem returns_readInode (d : Disk) {inodeNo : UInt32} (hlo : 1 ≤ inodeNo.toNat)
    (hhi : inodeNo.toNat ≤ 256) :
    Returns (readInode inodeNo) d
      (loadInode (d (3 + (inodeNo.toNat - 1) / 128)) inodeNo.toNat) := by
  rw [readInode_eq hlo hhi]
  exact returns_read returns_done

/-- The record of a file is read. -/
theorem DirInv.returns_readInode (hdir : DirInv d) {inodeNo : UInt32} {n : Nat}
    (hn : inodeNo.toNat = n) (hfile : IsFile d n) (hok : FileOk d n) :
    Returns (readInode inodeNo) d (.ok (inodeAt d n)) := by
  have hrange := hdir.file_range hfile
  have hload := loadInode_ok (show 1 ≤ n by omega) hok.inodeNo
  rw [← hload, ← hn]
  exact Mfs.returns_readInode d (by omega) (by omega)

/-! ## The copy loop of mfs_read -/

section ReadLoop

variable {n o total : Nat}

/-- The next chunk of a read, as the loop copies it. -/
theorem content_chunk {p t : Nat} (hp : p + t ≤ sizeAt d n)
    (ht : p % 16384 + t ≤ 16384) :
    ((List.range t).map fun i => d (idxAt d (indexAt d n) (p / 16384)) (p % 16384 + i)) =
      ((content d n).drop p).take t := by
  apply List.ext_getElem
  · simp only [List.length_map, List.length_range, List.length_take, List.length_drop,
      content_length]
    omega
  · intro i hi hi'
    have hit : i < t := by simpa using hi
    rw [List.getElem_map, List.getElem_range, List.getElem_take, List.getElem_drop]
    have hsplit : (p + i) / 16384 = p / 16384 ∧ (p + i) % 16384 = p % 16384 + i := by omega
    simp only [content, List.getElem_map, List.getElem_range, hsplit.1, hsplit.2]

/-- The loop of `mfs_read` inside a file returns the number of bytes asked for and the
slice. -/
theorem FileOk.returns_readLoop (hok : FileOk d n) (hend : o + total ≤ sizeAt d n) (fuel : Nat)
    (buf : List UInt8) (hfuel : total ≤ buf.length + fuel) (hle : buf.length ≤ total)
    (hbuf : buf = ((content d n).drop o).take buf.length) :
    Returns (readLoop (d (indexAt d n)) o total fuel buf) d
      ((total : Int), ((content d n).drop o).take total) := by
  have hsize : sizeAt d n ≤ 67108864 := by
    by_cases hib : indexAt d n = 0
    · rw [(hok.unindexed hib).1]
      omega
    · have hcount := (hok.shape hib).count_eq
      have hle := (hok.shape hib).count_le
      omega
  -- on the passes left; the buffer always holds the part of the slice copied so far
  induction fuel generalizing buf with
  | zero =>
    have hall : buf.length = total := by omega
    rw [hall] at hbuf
    rw [readLoop, hall, toInt_of_lt (by omega), ← hbuf]
    exact returns_done
  | succ fuel ih =>
    rw [readLoop]
    by_cases hlt : buf.length < total
    · have hib : indexAt d n ≠ 0 := fun hz => by
        have hempty := (hok.unindexed hz).1
        omega
      have hshape := hok.shape hib
      -- `p` is the position in the file the pass copies from
      generalize hp : o + buf.length = p
      have hpos : (o : Int) + toOffT buf.length = (p : Nat) := by
        rw [toOffT_of_lt (by omega), ← hp]
        exact (Nat.cast_add _ _).symm
      have hk : p / 16384 < countAt d n := hshape.lt_count (by omega)
      have hk4 : p / 16384 < 4096 := by
        have := hshape.count_le
        omega
      -- and `t` is the number of bytes it copies
      generalize ht : min (16384 - p % 16384) (total - buf.length) = t
      have hidx : (blockIdxOf p).toNat = p / 16384 := blockIdx_eq (by omega)
      have hoff : (blockOffOf p).toNat = p % 16384 := blockOff_eq p
      have hchunk : (chunkSize (blockOffOf p) (total - buf.length)).toNat = t := by
        rw [chunkSize_eq (by omega), hoff, ht]
      have hentry : idxEntry (d (indexAt d n)) (p / 16384) ≠ 0 := fun hz =>
        (hshape.entry _ hk4).mpr hk ((idxEntry_eq_zero _ _).mp hz)
      rw [if_pos hlt]
      simp only [hpos, hidx, hoff, hchunk]
      rw [if_neg (by simp only [mfsBlockSize]; omega), if_neg hentry]
      refine returns_read ?_
      -- the part copied continues the slice
      have hcopy := content_chunk (d := d) (n := n) (p := p) (t := t) (by omega) (by omega)
      have hlen : (buf ++ ((content d n).drop p).take t).length = buf.length + t := by
        rw [List.length_append, List.length_take, List.length_drop, content_length]
        omega
      have hnext : buf ++ ((content d n).drop p).take t =
          ((content d n).drop o).take (buf.length + t) := by
        rw [List.take_add, ← hbuf, List.drop_drop, hp]
      show Returns (readLoop _ _ _ _ (buf ++ (List.range t).map fun i =>
        d (idxAt d (indexAt d n) (p / 16384)) (p % 16384 + i))) d _
      rw [hcopy]
      exact ih _ (by omega) (by omega) (by rw [hlen]; exact hnext)
    · have hall : buf.length = total := by omega
      rw [hall] at hbuf
      rw [if_neg hlt, hall, toInt_of_lt (by omega), ← hbuf]
      exact returns_done

end ReadLoop

/-- Whatever it is asked for, the loop of `mfs_read` returns and writes nothing. -/
theorem readLoop_returns (idxData : Block) (offset : Int) (total fuel : Nat) (buf : List UInt8) :
    ∃ r, Returns (readLoop idxData offset total fuel buf) d r := by
  induction fuel generalizing buf with
  | zero => exact ⟨_, returns_done⟩
  | succ fuel ih =>
    rw [readLoop]
    by_cases hlt : buf.length < total
    · rw [if_pos hlt]
      simp only
      by_cases hmax : (blockIdxOf (offset + toOffT buf.length)).toNat ≥ mfsBlockSize / 4
      · rw [if_pos hmax]
        exact ⟨_, returns_done⟩
      · rw [if_neg hmax]
        -- whatever the index says, a pass reads a block or a hole
        by_cases hentry : idxEntry idxData (blockIdxOf (offset + toOffT buf.length)).toNat = 0
        · rw [if_pos hentry]
          exact ih _
        · rw [if_neg hentry]
          obtain ⟨r, hr⟩ := ih _
          exact ⟨r, returns_read hr⟩
    · rw [if_neg hlt]
      exact ⟨_, returns_done⟩

/-! ## The handlers -/

section Handlers

variable {N : Nat} {path : CString}

theorem returns_mfsOpen (hinv : FsInv N d) (hres : Resolved path) :
    ∃ rc, Returns (mfsOpen path) d rc ∧
      FsStep (files d) (.openFile path) (.status rc) (files d) := by
  unfold mfsOpen
  -- by how the path stands to the directory
  cases hinv.dir.pathCase hres with
  | malformed hpath _ hnone =>
    rw [hpath]
    exact ⟨_, returns_done, .openElse hnone⟩
  | root hpath hempty _ hnone =>
    rw [hpath]
    simp only [if_pos hempty]
    exact ⟨_, returns_done, .openElse hnone⟩
  | absent hpath hne hfile habsent hlookup =>
    rw [hpath]
    simp only [if_neg hne]
    refine ⟨-enoent, (returns_findDirEntry d _).bind ?_, .openAbsent hfile habsent⟩
    rw [hlookup]
    exact returns_done
  | present hpath hne hfile _ hthere hlookup =>
    rw [hpath]
    simp only [if_neg hne]
    refine ⟨0, (returns_findDirEntry d _).bind ?_, .openFile hfile (by rw [hthere]; simp)⟩
    rw [hlookup]
    exact returns_done

/-- A mode with the file type `S_IFREG` is not that of a directory. -/
theorem sIsdir_regular (mode : UInt32) : sIsdir (sIfreg ||| (mode &&& 0o777)) = false := by
  have htype : (sIfreg ||| (mode &&& 0o777)) &&& 0xF000 = sIfreg := by
    apply UInt32.toBitVec_inj.mp
    have hreg : sIfreg.toBitVec &&& (0xF000 : UInt32).toBitVec = sIfreg.toBitVec := by decide
    have hperm : (0o777 : UInt32).toBitVec &&& (0xF000 : UInt32).toBitVec = 0 := by decide
    simp only [UInt32.toBitVec_and, UInt32.toBitVec_or]
    rw [BitVec.and_or_distrib_right, hreg, BitVec.and_assoc, hperm]
    simp
  rw [sIsdir, htype]
  decide

theorem sIsdir_root : sIsdir (sIfdir ||| 0o755) = true := by decide

/-- The record of the root directory is read. -/
theorem FsInv.returns_rootInode (hinv : FsInv N d) :
    ∃ now, Returns (readInode mfsRootInode) d (.ok (rootInode now)) := by
  obtain ⟨now, hroot⟩ := hinv.root
  -- the inode number and the record of the format
  have hone : mfsRootInode.toNat = 1 := rfl
  have hread : Returns (readInode mfsRootInode) d _ := returns_readInode d (by omega) (by omega)
  have hno : (inodeAt d 1).inodeNo.toNat = 1 := by rw [hroot]; rfl
  rw [hone, loadInode_ok (Nat.le_refl 1) hno, hroot] at hread
  exact ⟨now, hread⟩

theorem returns_mfsGetattr (hinv : FsInv N d) (hres : Resolved path) :
    ∃ r, Returns (mfsGetattr path) d r ∧ FsStep (files d) (.getattr path) (.attr r) (files d) := by
  unfold mfsGetattr
  cases hinv.dir.pathCase hres with
  | malformed hpath hroot hnone =>
    rw [hpath]
    exact ⟨_, returns_done, .getattrAbsent hroot fun text h => absurd h (hnone text)⟩
  | root hpath hempty hroot _ =>
    -- `/` is answered from the root record, without a lookup
    obtain ⟨now, hread⟩ := hinv.returns_rootInode
    rw [hpath]
    simp only [if_pos hempty]
    exact ⟨_, hread.bind returns_done, .getattrRoot hroot sIsdir_root (if_pos sIsdir_root)⟩
  | absent hpath hne hfile habsent hlookup =>
    rw [hpath]
    simp only [if_neg hne]
    refine ⟨_, (returns_findDirEntry d _).bind (by rw [hlookup]; exact returns_done),
      .getattrAbsent (fun hroot => hfile.nonempty ?_) fun text h => ?_⟩
    · exact List.tail_eq_of_cons_eq (hfile.split.symm.trans hroot)
    · rw [h.unique hfile, habsent]
  | @present name s n hpath hne hfile hn hthere hlookup =>
    have hok := hinv.file n hn.toFileAt.isFile
    rw [hpath]
    simp only [if_neg hne]
    refine ⟨.ok (inodeAt d n).stat, (returns_findDirEntry d _).bind ?_,
      .getattr hfile hthere ?_ hok.mode ?_⟩
    · rw [hlookup]
      exact (hinv.dir.returns_readInode hn.inodeNo hn.toFileAt.isFile hok).bind returns_done
    · exact (content_length d n).symm
    · -- one link, as for every regular file
      have hreg : sIsdir (inodeAt d n).mode = false := by
        rw [hok.mode]
        exact sIsdir_regular _
      show (if sIsdir (inodeAt d n).mode then 2 else 1) = 1
      rw [hreg]
      rfl

/-- The name a used slot hands to `filler`. -/
theorem DirInv.readString_slot (hdir : DirInv d) {s limit : Nat} (hs : s < 256)
    (hused : (entryAt d s).used ≠ 0) (hlimit : 32 ≤ limit) :
    readString (dirEntryName (d 5) s) limit = (entryAt d s).text := by
  -- every used slot was written from a name that fits
  have hstored : ∃ text n, 0 ∉ text ∧ text.length ≤ 31 ∧ entryAt d s = newEntry text n := by
    rcases Nat.lt_or_ge s 2 with hlo | hlo
    · obtain ⟨text, rfl | rfl, hentry⟩ := hdir.fixed_slot hlo
      · exact ⟨_, _, by decide, by decide, hentry⟩
      · exact ⟨_, _, by decide, by decide, hentry⟩
    · obtain ⟨text, m, hvalid, _, _, _, hentry⟩ := hdir.entry ⟨hlo, hs, hused, rfl⟩
      exact ⟨text, m, hvalid.nul_free, hvalid.le, hentry⟩
  obtain ⟨text, n, hnul, hle, hentry⟩ := hstored
  rw [hentry, newEntry_text hnul hle]
  refine readString_of_stored hnul (fun i hi => ?_) ?_ (by omega)
  · rw [dirEntryName_newEntry hentry (by omega), strncpy_of_lt hle hi]
  · rw [dirEntryName_newEntry hentry (by omega), strncpy_of_ge (Nat.le_refl _)]

/-- The slots behind `.` and `..` that hold a file, in order. -/
def fileSlots (d : Disk) : List Nat := (List.range' 2 254).filter fun s => (entryAt d s).used != 0

theorem mem_fileSlots {s : Nat} : s ∈ fileSlots d ↔ FileAt d s (entryAt d s).inodeNo.toNat := by
  rw [fileSlots, List.mem_filter, List.mem_range'_1, bne_iff_ne]
  constructor
  · intro h
    exact ⟨h.1.1, by omega, h.2, rfl⟩
  · intro h
    have hlt := h.lt
    exact ⟨⟨h.two_le, by omega⟩, h.used⟩

/-- The slots `mfs_readdir` lists. -/
theorem DirInv.usedSlots_eq (hdir : DirInv d) :
    ((List.range' 0 mfsDirEntryCount).filter fun i => (dirEntry (d 5) i).used != 0) =
      0 :: 1 :: fileSlots d := by
  have hrange : List.range' 0 256 = 0 :: 1 :: List.range' 2 254 := rfl
  have h0 : ((dirEntry (d 5) 0).used != 0) = true := by
    show ((entryAt d 0).used != 0) = true
    rw [hdir.dot]
    rfl
  have h1 : ((dirEntry (d 5) 1).used != 0) = true := by
    show ((entryAt d 1).used != 0) = true
    rw [hdir.dotdot]
    rfl
  rw [hrange, List.filter_cons, if_pos h0, List.filter_cons, if_pos h1]
  rfl

/-- The names of the files, in slot order: each once. -/
theorem DirInv.fileSlots_text (hdir : DirInv d) :
    ((fileSlots d).map fun s => (entryAt d s).text).Nodup ∧
      ∀ text, text ∈ (fileSlots d).map (fun s => (entryAt d s).text) ↔ files d text ≠ none := by
  constructor
  · -- two slots in use have two names
    refine List.Nodup.map_on (fun s hs s' hs' htext => ?_)
      (List.Nodup.filter _ List.nodup_range')
    exact hdir.text_inj s s' _ _ (mem_fileSlots.mp hs) (mem_fileSlots.mp hs') htext
  · intro text
    -- a name has its slot
    rw [List.mem_map]
    refine Iff.trans ?_ mem_names_iff.symm
    constructor
    · rintro ⟨s, hs, htext⟩
      exact ⟨s, _, mem_fileSlots.mp hs, htext⟩
    · rintro ⟨s, n, hn⟩
      exact ⟨s, mem_fileSlots.mpr (hn.inodeNo ▸ hn.toFileAt), hn.text_eq⟩

theorem returns_mfsReaddir (path : CString) (hinv : FsInv N d) :
    ∃ r, Returns (mfsReaddir path) d r ∧ FsStep (files d) (.readdir path) (.names r) (files d) := by
  unfold mfsReaddir
  by_cases hroot : path.val = [47]
  · rw [if_neg (not_not_intro hroot)]
    refine ⟨_, (returns_readRootDir d).bind returns_done, ?_⟩
    have hnames : ∀ s < 256, (entryAt d s).used ≠ 0 →
        readString (dirEntryName (d 5) s) (mfsBlockSize - (s * mfsDirEntrySize + 4)) =
          (entryAt d s).text := fun s hs hused =>
      hinv.dir.readString_slot hs hused (by simp only [mfsBlockSize, mfsDirEntrySize]; omega)
    -- `.` and `..` first, then the files
    have h0 := hnames 0 (by decide) (by rw [hinv.dir.dot]; decide)
    have h1 := hnames 1 (by decide) (by rw [hinv.dir.dotdot]; decide)
    rw [hinv.dir.dot, newEntry_text (by decide) (by decide)] at h0
    rw [hinv.dir.dotdot, newEntry_text (by decide) (by decide)] at h1
    have hrest : (fileSlots d).map (fun s =>
        readString (dirEntryName (d 5) s) (mfsBlockSize - (s * mfsDirEntrySize + 4))) =
          (fileSlots d).map fun s => (entryAt d s).text :=
      List.map_congr_left fun s hs =>
        hnames s (mem_fileSlots.mp hs).lt (mem_fileSlots.mp hs).used
    rw [hinv.dir.usedSlots_eq, List.map_cons, List.map_cons, h0, h1, hrest]
    exact .readdir hroot hinv.dir.fileSlots_text.1 hinv.dir.fileSlots_text.2
  · rw [if_pos hroot]
    exact ⟨_, returns_done, .readdirElse hroot⟩

/-- `mfs_read` on a file, in a request of ordinary size. -/
theorem DirInv.returns_readFile (hdir : DirInv d) {inodeNo : UInt32} {n size o : Nat}
    (hn : inodeNo.toNat = n) (hfile : IsFile d n) (hok : FileOk d n) (hsize : size < 2 ^ 31) :
    Returns (readFile inodeNo size o) d
      ((((content d n).drop o).take size).length, ((content d n).drop o).take size) := by
  have hlen : (((content d n).drop o).take size).length = min size (sizeAt d n - o) := by
    rw [List.length_take, List.length_drop, content_length]
  unfold readFile
  refine (hdir.returns_readInode hn hfile hok).bind ?_
  have hrec : (inodeAt d n).size.toNat = sizeAt d n := rfl
  simp only [hrec]
  by_cases hend : (o : Int) ≥ sizeAt d n
  · -- behind the end of the file
    rw [if_pos hend]
    have hnil : ((content d n).drop o).take size = [] :=
      List.eq_nil_of_length_eq_zero (by omega)
    rw [hnil]
    exact returns_done
  · rw [if_neg hend]
    have hoff : toOffT size = size := toOffT_of_lt (by omega)
    -- the request is cut at the end of the file
    have htotal : (if (o : Int) + toOffT size > sizeAt d n then ((sizeAt d n : Int) - o).toNat
        else size) = min size (sizeAt d n - o) := by
      rw [hoff]
      split_ifs <;> omega
    have hib : indexAt d n ≠ 0 := fun hz => by
      have hempty := (hok.unindexed hz).1
      omega
    have hindex : (inodeAt d n).indexBlock ≠ 0 := fun hz => hib (UInt32.toNat_inj.mpr hz)
    rw [htotal, if_neg hindex]
    refine returns_read ?_
    have hslot : o + min size (sizeAt d n - o) ≤ sizeAt d n := by omega
    have hloop := hok.returns_readLoop hslot (min size (sizeAt d n - o)) [] (by simp) (by simp) rfl
    have hslice : ((content d n).drop o).take (min size (sizeAt d n - o)) =
        ((content d n).drop o).take size := by
      rw [← content_length, ← List.length_drop, ← List.take_eq_take_min]
    rw [hslice] at hloop
    rw [hlen]
    exact hloop

/-- `mfs_read` on a file never writes, whatever it is asked for. -/
theorem FsInv.readFile_returns (hinv : FsInv N d) {inodeNo : UInt32} {n : Nat} (size : Nat)
    (offset : Int) (hn : inodeNo.toNat = n) (hfile : IsFile d n) :
    ∃ r, Returns (readFile inodeNo size offset) d r := by
  have hread := hinv.dir.returns_readInode hn hfile (hinv.file n hfile)
  unfold readFile
  -- the end of the file, no index block, or the loop
  by_cases hend : offset ≥ (inodeAt d n).size.toNat
  · exact ⟨_, hread.bind (by simp only [if_pos hend]; exact returns_done)⟩
  · by_cases hindex : (inodeAt d n).indexBlock = 0
    · exact ⟨_, hread.bind (by simp only [if_neg hend, if_pos hindex]; exact returns_done)⟩
    · obtain ⟨r, hr⟩ := readLoop_returns (d := d) (d (inodeAt d n).indexBlock.toNat) offset
        (if offset + toOffT size > (inodeAt d n).size.toNat then
          ((inodeAt d n).size.toNat - offset).toNat else size)
        (if offset + toOffT size > (inodeAt d n).size.toNat then
          ((inodeAt d n).size.toNat - offset).toNat else size) []
      exact ⟨r, hread.bind (by simp only [if_neg hend, if_neg hindex]; exact returns_read hr)⟩

theorem returns_mfsRead (hinv : FsInv N d) (hres : Resolved path) {size : Nat} {offset : Int}
    (hsize : size < 2 ^ 31) (hoffset : 0 ≤ offset) :
    ∃ r, Returns (mfsRead path size offset) d r ∧
      FsStep (files d) (.read path size offset) (.data r.1 r.2) (files d) := by
  obtain ⟨o, rfl⟩ := Int.eq_ofNat_of_zero_le hoffset
  unfold mfsRead
  -- no byte asked for: the path is not looked at
  by_cases hzero : size = 0
  · rw [if_pos hzero, hzero]
    exact ⟨_, returns_done, .readNothing⟩
  · rw [if_neg hzero]
    cases hinv.dir.pathCase hres with
    | malformed hpath _ hnone =>
      rw [hpath]
      exact ⟨_, returns_done, .readElse hzero hnone⟩
    | root hpath hempty _ hnone =>
      rw [hpath]
      simp only [if_pos hempty]
      exact ⟨_, returns_done, .readElse hzero hnone⟩
    | absent hpath hne hfile habsent hlookup =>
      rw [hpath]
      simp only [if_neg hne]
      refine ⟨(-enoent, []), (returns_findDirEntry d _).bind ?_, .readAbsent hzero hfile habsent⟩
      rw [hlookup]
      exact returns_done
    | @present name s n hpath hne hfile hn hthere hlookup =>
      rw [hpath]
      simp only [if_neg hne]
      refine ⟨((((content d n).drop o).take size).length, ((content d n).drop o).take size),
        (returns_findDirEntry d _).bind ?_, .read (f := fileOf d n) hfile hthere⟩
      rw [hlookup]
      have hok := hinv.file n hn.toFileAt.isFile
      exact hinv.dir.returns_readFile hn.inodeNo hn.toFileAt.isFile hok hsize

theorem mfsRead_returns (hinv : FsInv N d) (hres : Resolved path) (size : Nat) (offset : Int) :
    ∃ r, Returns (mfsRead path size offset) d r := by
  unfold mfsRead
  by_cases hzero : size = 0
  · rw [if_pos hzero]
    exact ⟨_, returns_done⟩
  · rw [if_neg hzero]
    -- on what the path is
    cases hinv.dir.pathCase hres with
    | malformed hpath =>
      rw [hpath]
      exact ⟨_, returns_done⟩
    | root hpath hempty =>
      rw [hpath]
      simp only [if_pos hempty]
      exact ⟨_, returns_done⟩
    | absent hpath hne _ _ hlookup =>
      rw [hpath]
      simp only [if_neg hne]
      exact ⟨(-enoent, []), (returns_findDirEntry d _).bind (by rw [hlookup]; exact returns_done)⟩
    | present hpath hne _ hn _ hlookup =>
      obtain ⟨r, hr⟩ := hinv.readFile_returns size offset hn.inodeNo hn.toFileAt.isFile
      rw [hpath]
      simp only [if_neg hne]
      exact ⟨r, (returns_findDirEntry d _).bind (by rw [hlookup]; exact hr)⟩

end Handlers

end OsProjects.Mfs
