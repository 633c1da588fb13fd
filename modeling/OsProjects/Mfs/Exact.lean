import OsProjects.Mfs.Passes

/-!
# mfs_write without failures, exactly

`run_mfsWrite` says that some prefix of the buffer is appended. On a disk whose transfers
succeed the handler is a function of the image: it puts the bytes of the buffer one by
one as far as they go, and sets the time of modification in the end (`growFile`,
`run_mfsWrite_grow`).
-/

namespace OsProjects.Mfs

open Bytes Prog Prefix

/-- The image with an index block for file `n`. -/
def indexed (N n : Nat) (d : Disk) : Option Disk :=
  if indexAt d n ≠ 0 then some d else (firstClear N d).map (giveIndex n d)

/-- What `mfs_write` at the end of file `n` returns and leaves. -/
def growFile (N n : Nat) (d : Disk) (buf : List UInt8) (now : UInt64) : Int × Disk :=
  match indexed N n d with
  | none => (-enospc, d)
  | some E =>
    let r := consume (putByte N n) E buf
    if r.1 = 0 ∧ indexAt d n ≠ 0 then (-enospc, d)
    else (if r.1 > 0 then r.1 else -enospc, touch n now r.2)

/-! ## The loop, with every transfer succeeding -/

section Loop

variable {N n : Nat} {s : WriteState} {D E : Disk} {buf : List UInt8} {superblock : MfsSuperblock}
  {t : Nat}

theorem run_eq_of_runWith {α : Type} {prog : Io α} {a : α} {i : Nat} {D' : Disk}
    (h : runWith (fun _ => true) 0 prog D = ⟨a, i, D'⟩) : run prog D = (a, D') := by
  obtain ⟨hresult, hdisk⟩ := runWith_of_all (t := 0) (o := fun _ => true) (p := prog) (d := D)
    fun _ _ => rfl
  rw [h] at hresult hdisk
  exact Prod.ext hresult.symm hdisk.symm

/-- One pass: without room it stops, otherwise it puts its bytes. -/
theorem Running.run_writeChunk {offset : Int} (h : Running N n s D E)
    (hoffset : offset = s.inode.size.toNat) (hlt : s.bytesWritten < buf.length)
    (hN : superblock.blockCount.toNat = N)
    (ht : t = min (16384 - sizeAt E n % 16384) (buf.length - s.bytesWritten)) :
    (sizeAt E n % 16384 = 0 ∧ firstClear N E = none ∧
      run (writeChunk superblock buf offset s) D = (({ s with rc := -enospc }, false), D)) ∨
    ∃ s' D' E', run (writeChunk superblock buf offset s) D = ((s', true), D') ∧
      s'.bytesWritten = s.bytesWritten + t ∧ s'.rc = s.rc ∧
      consume (putByte N n) E (chunkList buf s t) = (t, E') ∧ Advanced N n s D s' D' E' := by
  have hlen : (chunkList buf s t).length = t := length_chunkList (by omega)
  have hne : chunkList buf s t ≠ [] := List.ne_nil_of_length_pos (by omega)
  by_cases hoff : sizeAt E n % 16384 = 0
  · cases hclear : firstClear N E with
    | none =>
      exact Or.inl ⟨hoff, rfl, run_eq_of_runWith (h.runWith_full hoffset hlt ht hN hoff hclear)⟩
    | some b =>
      obtain ⟨s', D', hrun, hbytes, hrc, hnext⟩ :=
        (h.runWith_new (o := fun _ => true) hoffset hlt ht hN hoff hclear).1 ⟨rfl, rfl, rfl⟩
      -- on the image the same bytes start the same block
      have hput := consume_start h.growing hoff hclear hne (by omega)
      rw [hlen] at hput
      exact Or.inr ⟨s', D', _, run_eq_of_runWith hrun, hbytes, hrc, hput, hnext⟩
  · obtain ⟨s', D', hrun, hbytes, hrc, hnext⟩ :=
      (h.runWith_old (o := fun _ => true) hoffset hlt ht hoff).1 ⟨rfl, rfl⟩
    have hput := consume_fill h.growing hoff hne (by omega)
    rw [hlen] at hput
    exact Or.inr ⟨s', D', _, run_eq_of_runWith hrun, hbytes, hrc, hput, hnext⟩

/-- **The loop of `mfs_write` puts the bytes of the buffer one by one**, as far as they go. -/
theorem Running.run_writeLoop {offset : Int} (h : Running N n s D E)
    (hoffset : offset = s.inode.size.toNat) (hle : s.bytesWritten ≤ buf.length)
    (hN : superblock.blockCount.toNat = N) (fuel : Nat)
    (hfuel : buf.length ≤ s.bytesWritten + fuel) :
    ∃ s' D', run (writeLoop superblock buf offset fuel s) D = (s', D') ∧
      Running N n s' D' (consume (putByte N n) E (buf.drop s.bytesWritten)).2 ∧
      s'.bytesWritten =
        s.bytesWritten + (consume (putByte N n) E (buf.drop s.bytesWritten)).1 ∧
      s'.rc = (if s'.bytesWritten < buf.length then -enospc else s.rc) ∧
      (s'.bytesWritten = s.bytesWritten → D' = D) := by
  induction fuel generalizing s D E with
  | zero =>
    have hdone : buf.drop s.bytesWritten = [] := List.drop_eq_nil_of_le (by omega)
    rw [hdone]
    exact ⟨s, D, rfl, h, rfl, by rw [if_neg (by omega)], fun _ => rfl⟩
  | succ fuel ih =>
    rw [writeLoop]
    by_cases hlt : s.bytesWritten < buf.length
    · rw [if_pos hlt]
      simp only [run_bind]
      -- the bytes of this pass, and the rest
      generalize ht : min (16384 - sizeAt E n % 16384) (buf.length - s.bytesWritten) = t
      have hsplit : buf.drop s.bytesWritten =
          chunkList buf s t ++ buf.drop (s.bytesWritten + t) := by
        rw [chunkList, ← List.drop_drop, List.take_append_drop]
      have hlen : (chunkList buf s t).length = t := length_chunkList (by omega)
      rcases h.run_writeChunk hoffset hlt hN ht.symm with
        ⟨hoff, hclear, hrun⟩ | ⟨s', D', E', hrun, hbytes, hrc, hput, hnext⟩
      · -- the first of the bytes finds no place
        obtain ⟨c, rest, hcons⟩ : ∃ c rest, buf.drop s.bytesWritten = c :: rest :=
          List.exists_cons_of_length_pos (by rw [List.length_drop]; omega)
        rw [hrun, hcons, consume_cons_none (putByte_eq_none.mpr ⟨hoff, hclear⟩)]
        exact ⟨_, D, rfl, ⟨h.growing, h.image, h.size, h.number⟩, rfl, by rw [if_pos hlt],
          fun _ => rfl⟩
      · obtain ⟨s'', D'', hloop, hend, hcount, hstop, -⟩ :=
          ih hnext.running (by rw [hnext.inode]; exact hoffset) (by omega) (by omega)
        have happend : consume (putByte N n) E (buf.drop s.bytesWritten) =
            (t + (consume (putByte N n) E' (buf.drop (s.bytesWritten + t))).1,
              (consume (putByte N n) E' (buf.drop (s.bytesWritten + t))).2) := by
          rw [hsplit, consume_append (by rw [hput, hlen]), hput, hlen]
        rw [hbytes] at hend hcount
        rw [hrun, happend]
        refine ⟨s'', D'', hloop, hend, ?_, by rw [hstop, hrc], fun _ => by omega⟩
        simp only
        omega
    · rw [if_neg hlt]
      have hdone : buf.drop s.bytesWritten = [] := List.drop_eq_nil_of_le (by omega)
      rw [hdone]
      exact ⟨s, D, rfl, h, rfl, by rw [if_neg hlt], fun _ => rfl⟩

end Loop

/-! ## The handler -/

section Handler

variable {N n : Nat} {d : Disk} {buf : List UInt8} {superblock : MfsSuperblock}

/-- The loop and the commit, from the index block on. -/
theorem Running.run_commit {s : WriteState} {D E : Disk} {offset : Int} (h : Running N n s D E)
    (allocated : Bool) (now : UInt64) (hoffset : offset = s.inode.size.toNat)
    (hstart : s.bytesWritten = 0) (hbuf : buf ≠ []) (hN : superblock.blockCount.toNat = N)
    (hkept : allocated = false → D = E) :
    run (writeLoop superblock buf offset buf.length s >>= fun s => writeCommit s allocated now) D =
      if (consume (putByte N n) E buf).1 = 0 ∧ allocated = false then (-enospc, E)
      else (if (consume (putByte N n) E buf).1 > 0 then ((consume (putByte N n) E buf).1 : Int)
        else -enospc, touch n now (consume (putByte N n) E buf).2) := by
  have hpos := List.length_pos_iff.mpr hbuf
  have hle : s.bytesWritten ≤ buf.length := by omega
  obtain ⟨s', D', hloop, hend, hcount, hrc, hsame⟩ :=
    h.run_writeLoop hoffset hle hN buf.length (by omega)
  rw [hstart, List.drop_zero] at hend hcount
  rw [Nat.zero_add] at hcount
  rw [run_bind, hloop, ← hcount]
  show run (writeCommit s' allocated now) D' = _
  by_cases hcommit : s'.bytesWritten > 0 ∨ allocated = true
  · -- something is committed: bytes, or an index block without any
    have hno : ¬ (s'.bytesWritten = 0 ∧ allocated = false) := by
      rintro ⟨hz, rfl⟩
      rcases hcommit with hpos' | hfalse
      · omega
      · exact absurd hfalse Bool.false_ne_true
    rw [hend.run_writeCommit hcommit, if_neg hno]
    refine congrArg (·, _) ?_
    by_cases hzero : s'.bytesWritten > 0
    · rw [if_pos hzero, if_pos hzero]
    · rw [if_neg hzero, if_neg hzero, hrc, if_pos (by omega)]
  · -- no byte and no new index block: nothing is committed
    have hzero : s'.bytesWritten = 0 := by omega
    have hfalse : allocated = false := by simpa using fun ha => hcommit (Or.inr ha)
    have hrun : run (writeCommit s' allocated now) D' = (s'.rc, D') := by
      unfold writeCommit
      rw [if_neg hcommit, if_neg (by omega)]
      rfl
    rw [hrun, if_pos ⟨hzero, hfalse⟩, hrc, if_pos (by omega), hsame (by omega), hkept hfalse]

/-- "Load or allocate the index block". -/
theorem run_loadIndexBlock (hN : superblock.blockCount.toNat = N) :
    run (loadIndexBlock superblock (inodeAt d n)) d =
      if indexAt d n ≠ 0 then (.ok (d (indexAt d n), inodeAt d n, false), d)
      else match firstClear N d with
        | none => (.error (-enospc), d)
        | some b => (.ok (zero, { inodeAt d n with indexBlock := UInt32.ofNat b }, true),
            Function.update (Function.update d 1 (mfsSetBit (d 1) b true))
              (UInt32.ofNat b).toNat zero) := by
  unfold loadIndexBlock
  by_cases hib : indexAt d n = 0
  · have hindex : (inodeAt d n).indexBlock = 0 := UInt32.toNat_inj.mp hib
    rw [if_pos hindex, allocateBlock_eq hN, read_bind, run_read, if_neg (not_not_intro hib)]
    -- `allocate_block` takes the first clear block
    cases hclear : firstClear N d with
    | none =>
      have hfind : (List.range' 6 (N - 6)).find? (fun b => !mfsGetBit (d 1) b) = none := hclear
      simp only [hfind]
      rfl
    | some b =>
      have hfind : (List.range' 6 (N - 6)).find? (fun b => !mfsGetBit (d 1) b) = some b := hclear
      simp only [hfind]
      rfl
  · have hindex : (inodeAt d n).indexBlock ≠ 0 := fun hz => hib (UInt32.toNat_inj.mpr hz)
    rw [if_neg hindex, if_pos hib]
    rfl

/-- `mfs_write` on an empty file that has been given an index block, or on one that has it. -/
theorem run_writeIndexed {N : UInt32} (h : FsInv N.toNat d) (hN4 : N.toNat ≤ 4096)
    (hfile : IsFile d n) (hbuf : buf ≠ []) (now : UInt64) :
    run (writeIndexed (formatSuperblock N) (inodeAt d n) buf (sizeAt d n) now) d =
      growFile N.toNat n d buf now := by
  have hN : (formatSuperblock N).blockCount.toNat = N.toNat := rfl
  rw [writeIndexed, run_bind, run_loadIndexBlock hN, growFile, indexed]
  by_cases hib : indexAt d n = 0
  · rw [if_neg (not_not_intro hib), if_neg (not_not_intro hib)]
    cases hclear : firstClear N.toNat d with
    | none => rfl
    | some b =>
      have hfresh := firstClear_some hclear
      have hbnum := toNat_ofNat_block hN4 hfresh.2.1
      -- the file gets its index block, and the loop starts on that image
      have hgive := h.running_giveIndex hN4 hfile hib ⟨hfresh.1, hfresh.2.1⟩
      have hrun := hgive.run_commit true now (show (sizeAt d n : Int) = _ from rfl) rfl hbuf hN
        (by simp)
      simp only [hbnum, Option.map_some]
      simp only [Bool.true_eq_false, and_false, if_false] at hrun
      simp only [hib, ne_eq, not_true_eq_false, and_false, if_false]
      exact hrun
  · -- the disk is the image already
    have hgrow := h.growing hN4 hfile hib
    have hrun := (hgrow.running (h.file n hfile).inodeNo).run_commit false now
      (show (sizeAt d n : Int) = _ from rfl) rfl hbuf hN fun _ => rfl
    rw [if_pos hib, if_pos hib]
    simp only [and_iff_left hib]
    simp only [and_true] at hrun
    exact hrun

section Call

variable {N : UInt32} {path name : CString} {slot : Nat} {offset : Int} (h : FsInv N.toNat d)
  (hpath : pathName path = some name) (h1 : name.val ≠ [46]) (h2 : name.val ≠ [46, 46])
  (hn : Named d name.val slot n) (hbuf : buf ≠ []) (now : UInt64)
include h hpath h1 h2 hn hbuf

/-- `mfs_write` up to the check of its offset. -/
theorem run_mfsWrite_checks :
    run (mfsWrite (formatSuperblock N) path buf offset now) d =
      run (if offset ≠ sizeAt d n then .done (-eopnotsupp)
        else writeIndexed (formatSuperblock N) (inodeAt d n) buf offset now) d := by
  have hfile := hn.toFileAt.isFile
  have hvalid := h.dir.valid_named hn
  have hread := h.dir.returns_readInode hn.inodeNo hfile (h.file n hfile)
  unfold mfsWrite
  rw [if_neg (by simpa using hbuf), hpath]
  simp only [if_neg (List.ne_nil_of_length_pos hvalid.pos)]
  rw [run_bind, (returns_findDirEntry d name).run, h.dir.lookup_ok h1 h2 hn]
  simp only [writeFile_eq]
  rw [run_bind, hread.run]
  rfl

/-- **`mfs_write` at the end of a file is `growFile`.** -/
theorem run_mfsWrite_grow (hN4 : N.toNat ≤ 4096) :
    run (mfsWrite (formatSuperblock N) path buf (sizeAt d n) now) d =
      growFile N.toNat n d buf now := by
  rw [run_mfsWrite_checks h hpath h1 h2 hn hbuf now, if_neg (not_not_intro rfl)]
  exact run_writeIndexed h hN4 hn.toFileAt.isFile hbuf now

end Call

end Handler

end OsProjects.Mfs
