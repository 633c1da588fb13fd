import OsProjects.Mfs.Create
import OsProjects.Mfs.Queries

/-!
# mfs_unlink — frees first, then the entry, the record and the inode

The handler clears the bits of the file's blocks while the directory still names the
file, and removes the name afterwards. `runCut_freeBlocks` says what a cut run of the
frees leaves (`cleared`); what follows the directory write is safe again
(`wp_clearInode`). `runCut_mfsUnlink` puts the two together, and `run_mfsUnlink` is the
run without failures: the file is gone and its blocks and inode are free
(`FsInv.unlink`, `files_unlinkDisk`).
-/

namespace OsProjects.Mfs

open Bytes Prog

/-! ## The frees -/

/-- `free_block` on each block of a list. -/
def freeBlocks (superblock : MfsSuperblock) : List UInt32 → Io Unit
  | [] => .done ()
  | b :: bs => freeBlock superblock b >>= fun _ => freeBlocks superblock bs

theorem freeBlocks_append (superblock : MfsSuperblock) (bs cs : List UInt32) :
    freeBlocks superblock (bs ++ cs) =
      freeBlocks superblock bs >>= fun _ => freeBlocks superblock cs := by
  induction bs with
  | nil => rfl
  | cons b bs ih =>
    rw [List.cons_append, freeBlocks, freeBlocks, Prog.bind_assoc]
    congr 1
    funext _
    exact ih

/-- The disk after bits of the block bitmap are cleared, each if its write succeeds. -/
def cleared : List (Bool × UInt32) → Disk → Disk
  | [], d => d
  | (ok, b) :: rest, d =>
    cleared rest (if ok then Function.update d 1 (mfsSetBit (d 1) b.toNat false) else d)

theorem cleared_of_ne (frees : List (Bool × UInt32)) (d : Disk) {k : Nat} (hk : k ≠ 1) :
    cleared frees d k = d k := by
  induction frees generalizing d with
  | nil => rfl
  | cons free frees ih =>
    obtain ⟨ok, b⟩ := free
    rw [cleared, ih]
    cases ok with
    | true => exact Function.update_of_ne hk _ _
    | false => rfl

/-- The bits cleared are those of the frees that succeeded. -/
theorem bitAt_cleared (frees : List (Bool × UInt32)) (d : Disk) (b : Nat) :
    bitAt (cleared frees d) b = true ↔ bitAt d b = true ∧ ∀ c, (true, c) ∈ frees → c.toNat ≠ b := by
  -- on the frees, front first: each clears its own bit if its write succeeded
  induction frees generalizing d with
  | nil => simp [cleared]
  | cons free frees ih =>
    obtain ⟨ok, c⟩ := free
    rw [cleared, ih]
    cases ok with
    | true =>
      rw [if_pos rfl, bitAt_update]
      constructor
      · rintro ⟨hbit, hrest⟩
        by_cases hcb : c.toNat = b
        · rw [if_pos hcb] at hbit
          exact absurd hbit Bool.false_ne_true
        · rw [if_neg hcb] at hbit
          refine ⟨hbit, ?_⟩
          intro c' hc'
          rcases List.mem_cons.mp hc' with heq | hmem
          · rw [(Prod.mk.inj heq).2]
            exact hcb
          · exact hrest c' hmem
      · rintro ⟨hbit, hall⟩
        rw [if_neg (hall c List.mem_cons_self)]
        exact ⟨hbit, fun c' hc' => hall c' (List.mem_cons_of_mem _ hc')⟩
    | false =>
      simp

section Frees

variable {superblock : MfsSuperblock} {N : Nat} (hN : superblock.blockCount.toNat = N)
include hN

/-- A cut run of the frees: each makes one write. -/
theorem runCut_freeBlocks {bs : List UInt32} (hbs : ∀ b ∈ bs, 6 ≤ b.toNat ∧ b.toNat < N)
    (os : List Bool) (d : Disk) :
    runCut os (freeBlocks superblock bs) d =
      if bs.length ≤ os.length then ⟨some (), os.drop bs.length, cleared (os.zip bs) d⟩
      else ⟨none, [], cleared (os.zip bs) d⟩ := by
  induction bs generalizing os d with
  | nil =>
    rw [freeBlocks, runCut_done, List.zip_nil_right]
    exact (if_pos (Nat.zero_le os.length)).symm
  | cons b bs ih =>
    rw [List.forall_mem_cons] at hbs
    rw [freeBlocks, freeBlock_eq hN hbs.1.1 hbs.1.2, read_bind, runCut_read]
    simp only [write_bind, done_bind]
    rcases os with _ | ⟨o, os⟩
    · -- no outcome left: the run is cut in front of this write
      rfl
    · simp only [List.zip_cons_cons, List.length_cons, List.drop_succ_cons,
        Nat.add_le_add_iff_right]
      cases o with
      | true =>
        rw [runCut_write_true, ih hbs.2]
        rfl
      | false =>
        -- the write fails and the loop goes on: its return value is not checked
        rw [runCut_write_false, ih hbs.2]
        rfl

end Frees

/-- The blocks `mfs_unlink` frees for an index block: the entries in use, in order. -/
theorem freeDataBlocks_eq (superblock : MfsSuperblock) {idxData : Block} {blockCount : Nat}
    (count i : Nat) (hentry : ∀ k < blockCount, idxEntry idxData k ≠ 0)
    (hcount : blockCount ≤ i + count) :
    freeDataBlocks superblock idxData blockCount count i =
      freeBlocks superblock ((List.range' i (blockCount - i)).map (idxEntry idxData)) := by
  -- on the calls left
  induction count generalizing i with
  | zero =>
    rw [show blockCount - i = 0 by omega]
    rfl
  | succ count ih =>
    rw [freeDataBlocks]
    -- behind the last entry the loop does nothing
    by_cases hi : i < blockCount
    · have hsucc : blockCount - i = blockCount - (i + 1) + 1 := by omega
      rw [if_pos hi, if_pos (hentry i hi), hsucc, List.range'_succ, List.map_cons, freeBlocks,
        ih _ (by omega)]
    · rw [if_neg hi, show blockCount - i = 0 by omega]
      rfl

/-- The blocks `mfs_unlink` frees for the file with inode `n`. -/
def blocksOf (d : Disk) (n : Nat) : List UInt32 :=
  if indexAt d n = 0 then []
  else (List.range' 0 (countAt d n)).map (idxEntry (d (indexAt d n))) ++ [(inodeAt d n).indexBlock]

section File

variable {d : Disk} {n : Nat}

/-- It frees exactly what the file refers to. -/
theorem FileOk.mem_blocksOf (hok : FileOk d n) (b : Nat) :
    (∃ c ∈ blocksOf d n, c.toNat = b) ↔ Ref d n b := by
  unfold blocksOf
  by_cases hib : indexAt d n = 0
  · -- an empty file refers to nothing
    rw [if_pos hib]
    exact ⟨fun ⟨c, hc, _⟩ => absurd hc (by simp), fun h => absurd hib h.1⟩
  · rw [if_neg hib, (hok.shape hib).ref_iff rfl (fun _ _ => rfl)]
    -- the data blocks first, the index block last
    constructor
    · rintro ⟨c, hc, rfl⟩
      rcases List.mem_append.mp hc with hdata | hindex
      · obtain ⟨k, hk, rfl⟩ := List.mem_map.mp hdata
        rw [List.mem_range'_1] at hk
        exact Or.inr ⟨k, by omega, rfl⟩
      · rw [List.mem_singleton.mp hindex]
        exact Or.inl rfl
    · rintro (rfl | ⟨k, hk, rfl⟩)
      · exact ⟨_, List.mem_append_right _ (List.mem_singleton_self _), rfl⟩
      · have hmem : k ∈ List.range' 0 (countAt d n) := by
          rw [List.mem_range'_1]
          omega
        exact ⟨_, List.mem_append_left _ (List.mem_map_of_mem hmem), rfl⟩

/-- The frees of `mfs_unlink` on a consistent file. -/
theorem runCut_freeFileBlocks {superblock : MfsSuperblock} {inodeNo : UInt32} (hok : FileOk d n)
    (hn : inodeNo.toNat = n) (hlo : 2 ≤ n) (hhi : n ≤ 256) (os : List Bool) :
    runCut os (freeFileBlocks superblock inodeNo) d =
      runCut os (freeBlocks superblock (blocksOf d n)) d := by
  unfold freeFileBlocks
  rw [readInode_eq (by omega) (by omega), hn]
  simp only [read_bind, done_bind]
  rw [runCut_read]
  simp only [loadInode_ok (show 1 ≤ n by omega) hok.inodeNo]
  have hzero : (inodeAt d n).indexBlock = 0 ↔ indexAt d n = 0 := UInt32.toNat_inj.symm
  rw [blocksOf]
  by_cases hib : indexAt d n = 0
  · rw [if_pos (hzero.mpr hib), if_pos hib]
    rfl
  · rw [if_neg (mt hzero.mp hib), if_neg hib, mfsReadBlock, readBlock_bind,
      runCut_read]
    have hshape := hok.shape hib
    have hle := hshape.count_le
    have hentry : ∀ k < countAt d n, idxEntry (d (indexAt d n)) k ≠ 0 := fun k hk hz =>
      (hshape.entry k (by omega)).mpr hk ((idxEntry_eq_zero _ _).mp hz)
    -- all entries in use are among the 4096 of the index block
    have hdata := freeDataBlocks_eq superblock 4096 0 hentry (by omega)
    show runCut os (freeDataBlocks superblock (d (indexAt d n)) (countAt d n) 4096 0 >>= fun _ =>
      freeBlock superblock (inodeAt d n).indexBlock >>= fun _ => .done ()) d = _
    rw [hdata, freeBlocks_append]
    rfl

end File

/-! ## The entry, the record and the inode -/

/-- The directory without slot `s`. -/
def unnamed (d : Disk) (s : Nat) : Disk :=
  Function.update d 5 (putRec mfsDirEntryLayout (d 5) s MfsDirEntry.zero)

/-- The record `mfs_unlink` leaves behind. -/
def emptyInode (inodeNo : UInt32) : MfsInode := { MfsInode.zero with inodeNo := inodeNo }

/-- The image without the file in slot `s`, whose inode is `inodeNo`. -/
def unlinkDisk (d : Disk) (s : Nat) (inodeNo : UInt32) : Disk :=
  Function.update (writeRecord (unnamed d s) inodeNo.toNat (emptyInode inodeNo)) 2
    (mfsSetBit (d 2) (inodeNo.toNat - 1) false)

/-- `mfs_unlink` behind the directory write. -/
def clearInode (inodeNo : UInt32) : Io Int :=
  writeInode (emptyInode inodeNo) >>= fun rc =>
    if rc ≠ 0 then .done rc else freeInode inodeNo

theorem removeFile_eq (entries : Block) (entryIndex : Nat) (inodeNo : UInt32) :
    removeFile entries entryIndex inodeNo =
      .write 5 (putRec mfsDirEntryLayout entries entryIndex MfsDirEntry.zero) fun ok =>
        if ok then clearInode inodeNo else .done (-eio) := by
  unfold removeFile writeRootDir mfsWriteBlock
  simp only [writeBlock_bind, write_bind, pure_eq, done_bind]
  congr 1
  funext ok
  cases ok <;> rfl

section Remove

variable {d d' : Disk} {s n : Nat}

/-- Taking the name of a file away is safe also when its blocks are free already. -/
theorem CutImage.unname (h : CutImage d) (hdir : DirInv d) (hs : FileAt d s n)
    (hd5 : d' 5 = putRec mfsDirEntryLayout (d 5) s MfsDirEntry.zero)
    (hrest : ∀ k, k ≠ 1 → k ≠ 5 → d' k = d k)
    (hbit : ∀ b, bitAt d b = true → ¬ Ref d n b → bitAt d' b = true) :
    CutImage d' ∧ ¬ IsFile d' n ∧
      ∀ s' < 256, (entryAt d' s').used ≠ 0 → (entryAt d' s').inodeNo.toNat - 1 ≠ n - 1 := by
  have hfile := fileAt_remove hd5
  have hentry := entryAt_putRec hd5
  have hrange := hdir.file_range hs.isFile
  have hisFile : ∀ m, IsFile d' m → IsFile d m := fun m ⟨s', hs'⟩ => ⟨s', ((hfile s' m).mp hs').1⟩
  have hrec : ∀ m, m ≤ 256 → inodeAt d' m = inodeAt d m := fun m hm =>
    inodeAt_congr hm (hrest 3 (by decide) (by decide)) (hrest 4 (by decide) (by decide))
  -- the other files refer to what they did
  have href : ∀ m b, IsFile d m → Ref d' m b → Ref d m b := fun m b hm hb => by
    refine (ref_congr_of_index (hrec m (h.number m hm).2) (fun hib => ?_) b).mp hb
    have h6 := h.block m _ hm ⟨hib, Or.inl rfl⟩
    exact hrest _ (by omega) (by omega)
  refine ⟨⟨⟨fun s' m b hs' hb => ?_, fun s₁ s₂ m₁ m₂ b hs₁ hs₂ hne hb₁ hb₂ => ?_,
    fun s' hlt hused => ?_⟩, fun m hm => h.number m (hisFile m hm),
    fun m b hm hb => h.block m b (hisFile m hm) (href m b (hisFile m hm) hb)⟩, ?_, ?_⟩
  · -- used
    obtain ⟨hold, hne⟩ := (hfile s' m).mp hs'
    have hb' := href m b hold.isFile hb
    exact hbit b (h.used s' m b hold hb') (h.unshared s' s m n b hold hs hne hb')
  · -- unshared
    have hold₁ := ((hfile s₁ m₁).mp hs₁).1
    have hold₂ := ((hfile s₂ m₂).mp hs₂).1
    exact h.unshared s₁ s₂ m₁ m₂ b hold₁ hold₂ hne (href m₁ b hold₁.isFile hb₁)
      (href m₂ b hold₂.isFile hb₂)
  · -- the inodes of the other entries
    rw [inodeBitAt, hrest 2 (by decide) (by decide)]
    rw [hentry] at hused ⊢
    by_cases hss : s' = s
    · rw [if_pos hss] at hused
      exact absurd rfl hused
    · rw [if_neg hss] at hused ⊢
      exact h.inode s' hlt hused
  · -- the file itself is not named any more
    rintro ⟨s', hs'⟩
    obtain ⟨hold, hne⟩ := (hfile s' n).mp hs'
    exact hne (hdir.inodeNo_inj s' s n hold hs)
  · intro s' hlt hused
    rw [hentry] at hused ⊢
    by_cases hss : s' = s
    · rw [if_pos hss] at hused
      exact absurd rfl hused
    · rw [if_neg hss] at hused ⊢
      rcases Nat.lt_or_ge s' 2 with hlo | hlo
      · have hroot := hdir.fixed_inodeNo hlo
        omega
      · intro heq
        have hold : FileAt d s' (entryAt d s').inodeNo.toNat := ⟨hlo, hlt, hused, rfl⟩
        have hrange' := hdir.file_range hold.isFile
        have hsame : (entryAt d s').inodeNo.toNat = n := by omega
        exact hss (hdir.inodeNo_inj s' s n (hsame ▸ hold) hs)

/-- Behind the directory write every image is safe. -/
theorem wp_clearInode {inodeNo : UInt32} {fail : Prop} (w : { d : Disk // CutImage d })
    (hn : inodeNo.toNat = n) (hlo : 2 ≤ n) (hhi : n ≤ 256) (hfresh : ¬ IsFile w.val n)
    (hother : ∀ s' < 256, (entryAt w.val s').used ≠ 0 →
      (entryAt w.val s').inodeNo.toNat - 1 ≠ n - 1) :
    wp (.alone CutImage fail) (clearInode inodeNo) (fun r w' => ¬ fail →
      r = 0 ∧ w'.val = Function.update (writeRecord w.val n (emptyInode inodeNo)) 2
        (mfsSetBit (w.val 2) (n - 1) false)) w := by
  have hno : (emptyInode inodeNo).inodeNo.toNat = n := hn
  unfold clearInode
  rw [writeInode_eq (by omega) (by omega), hno]
  simp only [read_bind]
  refine wp_read_alone ?_ fun hf => wp_done.mpr fun hn => absurd hf hn
  simp only [write_bind]
  -- the cleared record
  have hsafe : CutImage (writeRecord w.val n (emptyInode inodeNo)) :=
    w.property.writeRecord (by omega) hhi hfresh
  refine wp_write_alone hsafe ?_ fun hf => wp_done.mpr fun hn => absurd hf hn
  simp only [if_true, done_bind]
  -- the inode bit
  have hzero : ¬ (0 : Int) ≠ 0 := fun h => h rfl
  rw [if_neg hzero, freeInode_eq (by omega) (by omega), hn]
  have hkeep : ∀ k, k ≠ 3 → k ≠ 4 → writeRecord w.val n (emptyInode inodeNo) k = w.val k :=
    fun k => writeRecord_of_ne hhi
  refine wp_read_alone ?_ fun hf => wp_done.mpr fun hn => absurd hf hn
  refine wp_write_alone (hsafe.setInodeBit (Or.inr fun s' hs' hused => ?_)) ?_
    fun hf => wp_done.mpr fun hn => absurd hf hn
  · have hentry : entryAt (writeRecord w.val n (emptyInode inodeNo)) s' = entryAt w.val s' := by
      rw [entryAt, hkeep 5 (by decide) (by decide)]
      rfl
    rw [hentry] at hused ⊢
    exact hother s' hs' hused
  · refine wp_done.mpr fun _ => ⟨rfl, ?_⟩
    show Function.update (writeRecord w.val n (emptyInode inodeNo)) 2
      (mfsSetBit (writeRecord w.val n (emptyInode inodeNo) 2) (n - 1) false) = _
    rw [hkeep 2 (by decide) (by decide)]

end Remove

/-! ## The handler -/

section Handler

variable {N : UInt32} {d : Disk} {path name : CString} {s n : Nat}

/-- Without a file to remove, nothing is written. -/
theorem returns_mfsUnlink (hinv : FsInv N.toNat d) (hres : Resolved path)
    (habsent : ∀ text, FilePath path text → files d text = none) :
    ∃ rc, Returns (mfsUnlink (formatSuperblock N) path) d rc ∧
      FsStep (files d) (.unlink path) (.status rc) (files d) := by
  unfold mfsUnlink
  cases hinv.dir.pathCase hres with
  | malformed hpath _ hno =>
    rw [hpath]
    exact ⟨_, returns_done, .unlinkElse hno⟩
  | root hpath hempty _ hno =>
    rw [hpath]
    simp only [if_pos hempty]
    exact ⟨_, returns_done, .unlinkElse hno⟩
  | absent hpath hne hfile hfiles hlookup =>
    rw [hpath]
    simp only [if_neg hne]
    refine ⟨-enoent, (returns_findDirEntry d _).bind ?_, .unlinkAbsent hfile hfiles⟩
    rw [hlookup]
    exact returns_done
  | present _ _ hfile _ hthere _ =>
    -- a name in the file map is excluded here
    rw [habsent _ hfile] at hthere
    exact absurd hthere (by simp)

/-- **A cut run of `mfs_unlink`.** With outcomes for the frees only, or a failing
directory write behind them, the file is still named and its blocks are free as far as
the frees succeeded. -/
theorem runCut_mfsUnlink (hinv : FsInv N.toNat d) (hpath : pathName path = some name)
    (h1 : name.val ≠ [46]) (h2 : name.val ≠ [46, 46]) (hn : Named d name.val s n)
    (os : List Bool) :
    runCut os (mfsUnlink (formatSuperblock N) path) d =
      match os.drop (blocksOf d n).length with
      | [] => ⟨none, [], cleared (os.zip (blocksOf d n)) d⟩
      | false :: rest => ⟨some (-eio), rest, cleared (os.zip (blocksOf d n)) d⟩
      | true :: rest => runCut rest (clearInode (entryAt d s).inodeNo)
          (unnamed (cleared (os.zip (blocksOf d n)) d) s) := by
  have hvalid := hinv.dir.valid_named hn
  have hrange := hinv.dir.file_range hn.toFileAt.isFile
  have hok := hinv.file n hn.toFileAt.isFile
  have hbs : ∀ b ∈ blocksOf d n, 6 ≤ b.toNat ∧ b.toNat < N.toNat := fun b hb =>
    hinv.blocks.range n _ ⟨hn.toFileAt.isFile, (hok.mem_blocksOf _).mp ⟨b, hb, rfl⟩⟩
  unfold mfsUnlink readRootDir mfsReadBlock
  rw [hpath]
  simp only [if_neg (List.ne_nil_of_length_pos hvalid.pos)]
  rw [findDirEntry_eq]
  simp only [read_bind, done_bind]
  rw [runCut_read]
  simp only [hinv.dir.lookup_ok h1 h2 hn, readBlock_bind, read_bind]
  rw [runCut_read]
  simp only [pure_eq, done_bind]
  -- behind the two reads: the frees, then the directory write
  show runCut os (freeFileBlocks (formatSuperblock N) (entryAt d s).inodeNo >>= fun _ =>
    removeFile (d 5) s (entryAt d s).inodeNo) d = _
  rw [runCut_bind, runCut_freeFileBlocks hok hn.inodeNo hrange.1 hrange.2,
    runCut_freeBlocks rfl hbs]
  have hdir : d 5 = cleared (os.zip (blocksOf d n)) d 5 :=
    (cleared_of_ne _ d (by decide)).symm
  rw [unnamed, ← hdir]
  by_cases hlen : (blocksOf d n).length ≤ os.length
  · rw [if_pos hlen]
    show runCut (os.drop (blocksOf d n).length) (removeFile (d 5) s (entryAt d s).inodeNo) _ = _
    rw [removeFile_eq]
    -- the outcome of the directory write, if there is one
    rcases os.drop (blocksOf d n).length with _ | ⟨_ | _, rest⟩
    · rfl
    · rw [runCut_write_false]
      exact runCut_done _ _ _
    · rfl
  · rw [if_neg hlen, List.drop_eq_nil_of_le (Nat.le_of_not_le hlen)]
    rfl

/-- The image with the bits of a file's blocks cleared. -/
def freed (d : Disk) (n : Nat) : Disk := cleared ((blocksOf d n).map (true, ·)) d

theorem zip_replicate_true (bs : List UInt32) (os : List Bool) :
    (List.replicate bs.length true ++ os).zip bs = bs.map (true, ·) := by
  induction bs with
  | nil => exact List.zip_nil_right
  | cons b bs ih =>
    rw [List.length_cons, List.replicate_succ, List.cons_append, List.zip_cons_cons, ih,
      List.map_cons]

theorem FileOk.bitAt_freed (hok : FileOk d n) (b : Nat) :
    bitAt (freed d n) b = true ↔ bitAt d b = true ∧ ¬ Ref d n b := by
  rw [freed, bitAt_cleared, ← hok.mem_blocksOf]
  refine and_congr_right fun _ => ?_
  constructor
  · rintro hall ⟨c, hc, hcb⟩
    exact hall c (List.mem_map_of_mem hc) hcb
  · intro hnone c hc hcb
    obtain ⟨c', hc', hpair⟩ := List.mem_map.mp hc
    exact hnone ⟨c, (Prod.mk.inj hpair).2 ▸ hc', hcb⟩

theorem freed_of_ne (d : Disk) (n : Nat) {k : Nat} (hk : k ≠ 1) : freed d n k = d k :=
  cleared_of_ne _ d hk

/-- With some of its blocks freed, a file loses its name safely. -/
theorem FsInv.unname (hinv : FsInv N.toNat d) (hs : FileAt d s n) {frees : List (Bool × UInt32)}
    (hfrees : ∀ b, (true, b) ∈ frees → Ref d n b.toNat) :
    CutImage (unnamed (cleared frees d) s) ∧ ¬ IsFile (unnamed (cleared frees d) s) n ∧
      ∀ s' < 256, (entryAt (unnamed (cleared frees d) s) s').used ≠ 0 →
        (entryAt (unnamed (cleared frees d) s) s').inodeNo.toNat - 1 ≠ n - 1 := by
  refine hinv.cutImage.unname hinv.dir hs ?_ (fun k h1 h5 => ?_) fun b hb href => ?_
  · rw [unnamed, Function.update_self, cleared_of_ne _ d (by decide)]
  · rw [unnamed, Function.update_of_ne h5, cleared_of_ne _ d h1]
  · rw [bitAt, unnamed, Function.update_of_ne (by decide)]
    exact (bitAt_cleared _ d b).mpr ⟨hb, fun c hc hcb => href (hcb ▸ hfrees c hc)⟩

/-- The end of the handler, behind the frees and the directory write. -/
theorem run_clearInode (hinv : FsInv N.toNat d) (hs : FileAt d s n) :
    run (clearInode (entryAt d s).inodeNo) (unnamed (freed d n) s) =
      (0, unlinkDisk (freed d n) s (entryAt d s).inodeNo) := by
  have hrange := hinv.dir.file_range hs.isFile
  -- only blocks of the file were freed
  have hfrees : ∀ b, (true, b) ∈ (blocksOf d n).map (true, ·) → Ref d n b.toNat := fun b hb => by
    obtain ⟨c, hc, hpair⟩ := List.mem_map.mp hb
    exact ((hinv.file n hs.isFile).mem_blocksOf _).mp ⟨b, (Prod.mk.inj hpair).2 ▸ hc, rfl⟩
  obtain ⟨hsafe, hfresh, hother⟩ := hinv.unname hs hfrees
  have hwp : wp (.alone CutImage False) (clearInode (entryAt d s).inodeNo) _
      ⟨unnamed (freed d n) s, hsafe⟩ :=
    wp_clearInode _ hs.inodeNo hrange.1 hrange.2 hfresh hother
  obtain ⟨_, hpost⟩ := run_of_wp_alone hwp
  obtain ⟨hrc, hdisk⟩ := hpost id
  refine Prod.ext hrc (hdisk.trans ?_)
  rw [unlinkDisk, hs.inodeNo]
  rfl

/-- **A run of `mfs_unlink`** on a file returns 0 and removes it. -/
theorem run_mfsUnlink (hinv : FsInv N.toNat d) (hpath : pathName path = some name)
    (h1 : name.val ≠ [46]) (h2 : name.val ≠ [46, 46]) (hn : Named d name.val s n) :
    run (mfsUnlink (formatSuperblock N) path) d =
      (0, unlinkDisk (freed d n) s (entryAt d s).inodeNo) := by
  -- enough successful outcomes for the frees, the directory write and the rest
  obtain ⟨count, hcount⟩ := run_eq_runCut (clearInode (entryAt d s).inodeNo)
    (unnamed (freed d n) s)
  have hend := hcount []
  rw [List.append_nil, run_clearInode hinv hn.toFileAt] at hend
  have hcut := runCut_mfsUnlink hinv hpath h1 h2 hn
    (List.replicate (blocksOf d n).length true ++ true :: List.replicate count true)
  rw [List.drop_left' List.length_replicate, zip_replicate_true] at hcut
  simp only at hcut
  rw [← freed, hend] at hcut
  rw [run_of_runCut (fun o ho => ?_) (congrArg Cut.result hcut), hcut]
  rcases List.mem_append.mp ho with ho | ho
  · exact List.eq_of_mem_replicate ho
  · rcases List.mem_cons.mp ho with ho | ho
    · exact ho
    · exact List.eq_of_mem_replicate ho

/-! ## The file is gone -/

theorem unlinkDisk_inodeBitmap (hs : FileAt d s n) :
    unlinkDisk (freed d n) s (entryAt d s).inodeNo 2 = mfsSetBit (d 2) (n - 1) false := by
  rw [unlinkDisk, hs.inodeNo, Function.update_self, freed_of_ne d n (by decide)]

section Gone

variable (hinv : FsInv N.toNat d) (hs : FileAt d s n)
include hinv hs

theorem unlinkDisk_of_ne {k : Nat} (hk : k = 0 ∨ 6 ≤ k) :
    unlinkDisk (freed d n) s (entryAt d s).inodeNo k = d k := by
  have hrange := hinv.dir.file_range hs.isFile
  rw [unlinkDisk, hs.inodeNo, Function.update_of_ne (by omega),
    writeRecord_of_ne hrange.2 (by omega) (by omega), unnamed, Function.update_of_ne (by omega),
    freed_of_ne d n (by omega)]

theorem unlinkDisk_dir : unlinkDisk (freed d n) s (entryAt d s).inodeNo 5 =
    putRec mfsDirEntryLayout (d 5) s MfsDirEntry.zero := by
  have hrange := hinv.dir.file_range hs.isFile
  rw [unlinkDisk, hs.inodeNo, Function.update_of_ne (by decide),
    writeRecord_of_ne hrange.2 (by decide) (by decide), unnamed, Function.update_self,
    freed_of_ne d n (by decide)]

theorem bitAt_unlinkDisk (b : Nat) :
    bitAt (unlinkDisk (freed d n) s (entryAt d s).inodeNo) b = true ↔
      bitAt d b = true ∧ ¬ Ref d n b := by
  have hrange := hinv.dir.file_range hs.isFile
  rw [← (hinv.file n hs.isFile).bitAt_freed, bitAt, unlinkDisk, hs.inodeNo,
    Function.update_of_ne (by decide), writeRecord_of_ne hrange.2 (by decide) (by decide), unnamed,
    Function.update_of_ne (by decide)]
  rfl

theorem inodeAt_unlinkDisk {m : Nat} (h1 : 1 ≤ m) (h256 : m ≤ 256) (hm : m ≠ n) :
    inodeAt (unlinkDisk (freed d n) s (entryAt d s).inodeNo) m = inodeAt d m := by
  have hrange := hinv.dir.file_range hs.isFile
  rw [unlinkDisk, hs.inodeNo, inodeAt_update_inodeBitmap, inodeAt_writeRecord (by omega) h1,
    if_neg hm]
  refine inodeAt_congr h256 ?_ ?_
  · rw [unnamed, Function.update_of_ne (by decide), freed_of_ne d n (by decide)]
  · rw [unnamed, Function.update_of_ne (by decide), freed_of_ne d n (by decide)]

/-- The other files keep their records and blocks. -/
theorem unlinkDisk_other {m : Nat} (hm : IsFile d m) (hne : m ≠ n) :
    inodeAt (unlinkDisk (freed d n) s (entryAt d s).inodeNo) m = inodeAt d m ∧
      ∀ b, b = indexAt d m ∨ Ref d m b →
        unlinkDisk (freed d n) s (entryAt d s).inodeNo b = d b := by
  have hrange := hinv.dir.file_range hm
  refine ⟨inodeAt_unlinkDisk hinv hs (by omega) hrange.2 hne, ?_⟩
  intro b hb
  have h6 : b = 0 ∨ 6 ≤ b :=
    (zero_or_mem_refs hm hb).imp_right fun hmem => (hinv.blocks.range m b hmem).1
  exact unlinkDisk_of_ne hinv hs h6

theorem isFile_unlinkDisk (m : Nat) :
    IsFile (unlinkDisk (freed d n) s (entryAt d s).inodeNo) m ↔ IsFile d m ∧ m ≠ n := by
  have hfile := fileAt_remove (unlinkDisk_dir hinv hs)
  constructor
  · rintro ⟨s', hs'⟩
    obtain ⟨hold, hne⟩ := (hfile s' m).mp hs'
    exact ⟨⟨s', hold⟩, fun heq => hne (hinv.dir.inodeNo_inj s' s n (heq ▸ hold) hs)⟩
  · rintro ⟨⟨s', hs'⟩, hne⟩
    refine ⟨s', (hfile s' m).mpr ⟨hs', ?_⟩⟩
    rintro rfl
    exact hne (hs'.unique hs)

theorem mem_refs_unlinkDisk (m b : Nat) :
    b ∈ refs (unlinkDisk (freed d n) s (entryAt d s).inodeNo) m ↔ b ∈ refs d m ∧ m ≠ n := by
  show (IsFile _ m ∧ Ref _ m b) ↔ (IsFile d m ∧ Ref d m b) ∧ m ≠ n
  rw [isFile_unlinkDisk hinv hs]
  constructor
  · rintro ⟨⟨hm, hne⟩, hb⟩
    obtain ⟨hrec, hblk⟩ := unlinkDisk_other hinv hs hm hne
    exact ⟨⟨hm, (ref_congr hrec (hblk _ (Or.inl rfl)) b).mp hb⟩, hne⟩
  · rintro ⟨⟨hm, hb⟩, hne⟩
    obtain ⟨hrec, hblk⟩ := unlinkDisk_other hinv hs hm hne
    exact ⟨⟨hm, hne⟩, (ref_congr hrec (hblk _ (Or.inl rfl)) b).mpr hb⟩

/-- **Removing a file keeps the invariant.** -/
theorem FsInv.unlink : FsInv N.toNat (unlinkDisk (freed d n) s (entryAt d s).inodeNo) := by
  have hrange := hinv.dir.file_range hs.isFile
  have hmem := mem_refs_unlinkDisk hinv hs
  refine ⟨?_, ?_, ?_, ⟨fun b => ?_, fun m b hb => ?_, fun m m' b hb hb' => ?_,
    fun m b hm hb => ⟨hm, hb⟩⟩, fun m hm => ?_⟩
  · rw [unlinkDisk_of_ne hinv hs (Or.inl rfl)]
    exact hinv.super
  · rw [inodeAt_unlinkDisk hinv hs (by omega) (by omega) (by omega)]
    exact hinv.root
  · exact hinv.dir.remove hs (unlinkDisk_dir hinv hs) (unlinkDisk_inodeBitmap hs)
  · -- a bit stays set iff another file holds its block
    rw [bitAt_unlinkDisk hinv hs, hinv.blocks.used b]
    constructor
    · rintro ⟨hlt | ⟨m, hm⟩, href⟩
      · exact Or.inl hlt
      · refine Or.inr ⟨m, (hmem m b).mpr ⟨hm, ?_⟩⟩
        rintro rfl
        exact href hm.2
    · rintro (hlt | ⟨m, hm⟩)
      · refine ⟨Or.inl hlt, ?_⟩
        intro href
        have hlow := hinv.blocks.range n b ⟨hs.isFile, href⟩
        omega
      · obtain ⟨hold, hne⟩ := (hmem m b).mp hm
        exact ⟨Or.inr ⟨m, hold⟩, fun href =>
          hne (hinv.blocks.disjoint m n b hold ⟨hs.isFile, href⟩)⟩
  · exact hinv.blocks.range m b ((hmem m b).mp hb).1
  · exact hinv.blocks.disjoint m m' b ((hmem m b).mp hb).1 ((hmem m' b).mp hb').1
  · obtain ⟨hold, hne⟩ := (isFile_unlinkDisk hinv hs m).mp hm
    obtain ⟨hrec, hblk⟩ := unlinkDisk_other hinv hs hold hne
    exact fileOk_congr (hinv.file m hold) hrec (hblk _ (Or.inl rfl))

end Gone

/-- **Removing a file removes its name from the file map.** -/
theorem files_unlinkDisk {text : List UInt8} (hinv : FsInv N.toNat d) (hn : Named d text s n) :
    files (unlinkDisk (freed d n) s (entryAt d s).inodeNo) =
      Function.update (files d) text none := by
  have hs := hn.toFileAt
  have hnew := hinv.unlink hs
  have hfile := fileAt_remove (unlinkDisk_dir hinv hs)
  have hentry := entryAt_putRec (unlinkDisk_dir hinv hs)
  funext t
  by_cases ht : t = text
  · subst ht
    rw [Function.update_self]
    -- no other slot has the name
    refine files_eq_none_iff.mpr ?_
    intro s' m hm
    obtain ⟨hold, hne⟩ := (hfile s' m).mp hm.toFileAt
    have htext : (entryAt d s').text = t := by
      have hsame := hm.text_eq
      rwa [hentry, if_neg hne] at hsame
    exact hne (hinv.dir.text_inj s' s m n hold hs (htext.trans hn.text_eq.symm))
  · rw [Function.update_of_ne ht]
    cases hold : files d t with
    | none =>
      refine files_eq_none_iff.mpr ?_
      intro s' m hm
      obtain ⟨hs', hne⟩ := (hfile s' m).mp hm.toFileAt
      have htext := hm.text_eq
      rw [hentry, if_neg hne] at htext
      exact files_eq_none_iff.mp hold s' m ⟨hs', htext⟩
    | some f =>
      -- the file is in its slot still, with its record and its blocks
      obtain ⟨s', m, hm, rfl⟩ := hinv.dir.files_eq_some_iff.mp hold
      have hne : s' ≠ s := by
        rintro rfl
        exact ht (hm.text_eq.symm.trans hn.text_eq)
      have hnamed : Named (unlinkDisk (freed d n) s (entryAt d s).inodeNo) t s' m :=
        ⟨(hfile s' m).mpr ⟨hm.toFileAt, hne⟩, by rw [hentry, if_neg hne]; exact hm.text_eq⟩
      have hmn : m ≠ n := by
        rintro rfl
        exact hne (hinv.dir.inodeNo_inj s' s m hm.toFileAt hs)
      obtain ⟨hrec, hblk⟩ := unlinkDisk_other hinv hs hm.toFileAt.isFile hmn
      rw [hnew.dir.files_eq hnamed,
        fileOf_congr (hinv.file m hm.toFileAt.isFile) hrec fun b hb => hblk b (Or.inr hb)]

end Handler

end OsProjects.Mfs
