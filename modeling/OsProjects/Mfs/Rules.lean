import OsProjects.Mfs.Helpers
import OsProjects.Mfs.Worlds

/-!
# Rules of the helpers — what each helper of `mfs.c` needs and gives inside a write

One rule for each helper that `mfs_write` calls, in the setting `writer N n fail`. A
rule has one premise for each way the helper can return; the premises of the failing
transfers are under `fail`.
-/

namespace OsProjects.Mfs

open Bytes Prog

variable {N n : Nat} {fail : Prop} {w : World N}

/-- What others do leaves the references of the file alone. -/
theorem Rely.ref_iff {w' : World N} (h : Rely n w w') (hn : IsFile w.disk n) (b : Nat) :
    Ref w'.disk n b ↔ Ref w.disk n b :=
  ref_congr_of_index h.own.record
    (fun hib => h.own.block _ (w.blocks.ref n _ hn ⟨hib, Or.inl rfl⟩)) b

theorem Rely.isFile {w' : World N} (h : Rely n w w') (hn : IsFile w.disk n) : IsFile w'.disk n :=
  (isFile_congr h.dir.rootDir n).mpr hn

theorem wp_readDisk {k : Nat} {Q : Option Block → World N → Prop}
    (hok : ∀ w', Rely n w w' → Q (some (w'.disk k)) w')
    (hfail : fail → ∀ w', Rely n w w' → Q none w') :
    wp (writer N n fail) (mfsReadBlock k) Q w :=
  wp_read.mpr fun w' hw' =>
    ⟨wp_done.mpr (hok w' hw'), fun hf => wp_done.mpr (hfail hf w' hw')⟩

theorem wp_findDirEntry {name : CString} {Q : Except Int (MfsDirEntry × Nat) → World N → Prop}
    (hok : ∀ w', Rely n w w' → Q (lookupEntry (w'.disk 5) name) w')
    (hfail : fail → ∀ w', Rely n w w' → Q (.error (-eio)) w') :
    wp (writer N n fail) (findDirEntry name) Q w := by
  rw [findDirEntry_eq]
  exact wp_read.mpr fun w' hw' =>
    ⟨wp_done.mpr (hok w' hw'), fun hf => wp_done.mpr (hfail hf w' hw')⟩

theorem wp_readInode {inodeNo : UInt32} {Q : Except Int MfsInode → World N → Prop}
    (hlo : 1 ≤ inodeNo.toNat) (hhi : inodeNo.toNat ≤ 256)
    (hok : ∀ w', Rely n w w' →
      Q (loadInode (w'.disk (3 + (inodeNo.toNat - 1) / 128)) inodeNo.toNat) w')
    (hfail : fail → ∀ w', Rely n w w' → Q (.error (-eio)) w') :
    wp (writer N n fail) (readInode inodeNo) Q w := by
  rw [readInode_eq hlo hhi]
  exact wp_read.mpr fun w' hw' =>
    ⟨wp_done.mpr (hok w' hw'), fun hf => wp_done.mpr (hfail hf w' hw')⟩

/-- File `n` has taken block `b`, the first clear one. -/
structure Took (n b : Nat) (w w' : World N) : Prop where
  range : 6 ≤ b ∧ b < N
  free : bitAt w.disk b = false
  least : ∀ c, 6 ≤ c → c < b → bitAt w.disk c = true
  guar : Guar n w w'
  disk : w'.disk = Function.update w.disk 1 (mfsSetBit (w.disk 1) b true)
  held : w'.held n = insert b (w.held n)

theorem wp_allocateBlock {superblock : MfsSuperblock} (hN : superblock.blockCount.toNat = N)
    {Q : Except Int UInt32 → World N → Prop}
    (hok : ∀ w₁ w₂ b, Rely n w w₁ → Took n b.toNat w₁ w₂ → Q (.ok b) w₂)
    (hfull : ∀ w', Rely n w w' → (∀ b, 6 ≤ b → b < N → bitAt w'.disk b = true) →
      Q (.error (-enospc)) w')
    (hfail : fail → ∀ w', Rely n w w' → Q (.error (-eio)) w') :
    wp (writer N n fail) (allocateBlock superblock) Q w := by
  rw [allocateBlock_eq hN]
  refine wp_read.mpr fun w₁ hw₁ => ⟨?_, fun hf => wp_done.mpr (hfail hf w₁ hw₁)⟩
  dsimp only
  cases hfind : (List.range' 6 (N - 6)).find? (fun i => !mfsGetBit (w₁.disk 1) i) with
  | none =>
    -- the scan found no clear bit
    refine wp_done.mpr (hfull w₁ hw₁ fun b hlo hhi => ?_)
    have hall := List.find?_eq_none.mp hfind b (by rw [List.mem_range'_1]; omega)
    rw [bitAt]
    simpa using hall
  | some b =>
    rw [List.find?_range'_eq_some, List.mem_range'_1] at hfind
    obtain ⟨hclear, ⟨hlo, hhi⟩, hleast⟩ := hfind
    -- a block number fits into `uint32_t`
    have hb : (UInt32.ofNat b).toNat = b := by
      have hlt := superblock.blockCount.toNat_lt
      rw [UInt32.toNat_ofNat_of_lt' (by simp only [UInt32.size]; omega)]
    refine wp_write.mpr fun w₂ hw₂ hkeep => ?_
    -- nobody writes the bitmap between the scan and the write
    have hbitmap : w₂.disk 1 = w₁.disk 1 := hkeep (show 1 < 6 by decide)
    have hfree : bitAt w₂.disk b = false := by
      rw [bitAt, hbitmap]
      simpa using hclear
    obtain ⟨w₃, hguar, hdisk, hheld⟩ := w₂.take n (by omega) hfree
    have hset : w₃.disk = Function.update w₂.disk 1 (mfsSetBit (w₁.disk 1) b true) := by
      rw [hdisk, hbitmap]
    refine ⟨⟨w₃, hguar, hset, ?_⟩, ?_⟩
    · refine wp_done.mpr (hok w₂ w₃ _ ⟨hw₁.dir.trans hw₂.dir, hw₁.own.trans hw₂.own⟩ ?_)
      rw [hb]
      refine ⟨by omega, hfree, ?_, hguar, hdisk, hheld⟩
      intro c hc hcb
      rw [bitAt, hbitmap]
      simpa using hleast c hc hcb
    · intro hf
      exact wp_done.mpr (hfail hf w₂ ⟨hw₁.dir.trans hw₂.dir, hw₁.own.trans hw₂.own⟩)

/-- The file gives back a block it holds and does not refer to; the block stays held if
a transfer fails. -/
theorem wp_freeBlock {superblock : MfsSuperblock} (hN : superblock.blockCount.toNat = N)
    {blockNo : UInt32} {Q : Int → World N → Prop} (hb : blockNo.toNat ∈ w.held n)
    (hunref : IsFile w.disk n → ¬ Ref w.disk n blockNo.toNat)
    (hdrop : ∀ w₁ w₂ blk, Rely n w w₁ → Guar n w₁ w₂ → w₂.disk = Function.update w₁.disk 1 blk →
      w₂.held n = w₁.held n \ {blockNo.toNat} → Q 0 w₂)
    (hfail : fail → ∀ w', Rely n w w' → Q (-eio) w') :
    wp (writer N n fail) (freeBlock superblock blockNo) Q w := by
  have hrange := w.blocks.range n _ hb
  rw [freeBlock_eq hN hrange.1 hrange.2]
  refine wp_read.mpr fun w₁ hw₁ => ⟨?_, fun hf => wp_done.mpr (hfail hf w₁ hw₁)⟩
  refine wp_write.mpr fun w₂ hw₂ hkeep => ?_
  -- as for `allocate_block`: the bitmap is shared, so it is still the one read
  have hbitmap : w₂.disk 1 = w₁.disk 1 := hkeep (show 1 < 6 by decide)
  have hrely : Rely n w w₂ := ⟨hw₁.dir.trans hw₂.dir, hw₁.own.trans hw₂.own⟩
  have hheld : blockNo.toNat ∈ w₂.held n := by rw [hrely.own.held]; exact hb
  obtain ⟨w₃, hguar, hdisk, hheld₃⟩ := w₂.drop hheld fun hfile href => by
    have hfile' : IsFile w.disk n := (isFile_congr hrely.dir.rootDir n).mp hfile
    exact hunref hfile' ((hrely.ref_iff hfile' _).mp href)
  have hset : w₃.disk =
      Function.update w₂.disk 1 (mfsSetBit (w₁.disk 1) blockNo.toNat false) := by
    rw [hdisk, hbitmap]
  exact ⟨⟨w₃, hguar, hset, wp_done.mpr (hdrop w₂ w₃ _ hrely hguar hset hheld₃)⟩,
    fun hf => wp_done.mpr (hfail hf w₂ hrely)⟩

/-- A block the file holds is written. -/
theorem wp_writeHeld {k : Nat} {blk : Block} {Q : Bool → World N → Prop} (hk : k ∈ w.held n)
    (href : ∀ w', Rely n w w' → ∀ b, Ref (Function.update w'.disk k blk) n b → b ∈ w'.held n)
    (hok : ∀ w₁ w₂, Rely n w w₁ → Guar n w₁ w₂ → w₂.disk = Function.update w₁.disk k blk →
      w₂.held = w₁.held → Q true w₂)
    (hfail : fail → ∀ w', Rely n w w' → Q false w') :
    wp (writer N n fail) (mfsWriteBlock blk k) Q w := by
  refine wp_write.mpr fun w₁ hw₁ _ => ?_
  have hk₁ : k ∈ w₁.held n := by rw [hw₁.own.held]; exact hk
  have hlo := (w₁.blocks.range n k hk₁).1
  -- a block has one holder, so the others do not see the write
  have hother : ∀ m, m ≠ n → ∀ b ∈ w₁.held m, Function.update w₁.disk k blk b = w₁.disk b :=
    fun m hm b hb => by
      have hbk : b ≠ k := by
        rintro rfl
        exact hm (w₁.blocks.disjoint m n b hb hk₁)
      exact Function.update_of_ne hbk _ _
  obtain ⟨w₂, hguar, hdisk, hheld⟩ := w₁.rewrite
    (fun j hj => Function.update_of_ne (by omega) _ _)
    (fun m _ h256 _ => inodeAt_congr h256 (Function.update_of_ne (by omega) _ _)
      (Function.update_of_ne (by omega) _ _))
    hother
    (href w₁ hw₁)
  · exact ⟨⟨w₂, hguar, hdisk, wp_done.mpr (hok w₁ w₂ hw₁ hguar hdisk hheld)⟩,
      fun hf => wp_done.mpr (hfail hf w₁ hw₁)⟩

/-- The file's record is written. -/
theorem wp_writeInode {inode : MfsInode} {Q : Int → World N → Prop} (hlo : 2 ≤ n)
    (hhi : n ≤ 256) (hn : inode.inodeNo.toNat = n)
    (href : ∀ w', Rely n w w' → ∀ b, Ref (writeRecord w'.disk n inode) n b → b ∈ w'.held n)
    (hok : ∀ w₁ w₂, Rely n w w₁ → Guar n w₁ w₂ → w₂.disk = writeRecord w₁.disk n inode →
      w₂.held = w₁.held → Q 0 w₂)
    (hfail : fail → ∀ w', Rely n w w' → Q (-eio) w') :
    wp (writer N n fail) (writeInode inode) Q w := by
  rw [writeInode_eq (by omega) (by omega), hn]
  refine wp_read.mpr fun w₁ hw₁ => ⟨?_, fun hf => wp_done.mpr (hfail hf w₁ hw₁)⟩
  refine wp_write.mpr fun w₂ hw₂ hkeep => ?_
  -- the table block is still the one that was read
  have htable : w₂.disk (3 + (n - 1) / 128) = w₁.disk (3 + (n - 1) / 128) :=
    hkeep (show 3 + (n - 1) / 128 < 6 by omega)
  have hrely : Rely n w w₂ := ⟨hw₁.dir.trans hw₂.dir, hw₁.own.trans hw₂.own⟩
  obtain ⟨w₃, hguar, hdisk, hheld⟩ := w₂.rewrite
    (fun k hk => writeRecord_of_ne hhi (by omega) (by omega))
    (fun m h1 _ hm => by rw [inodeAt_writeRecord (by omega) h1, if_neg hm])
    (fun m hm b hb => writeRecord_of_ne hhi
      (by have := (w₂.blocks.range m b hb).1; omega)
      (by have := (w₂.blocks.range m b hb).1; omega))
    (href w₂ hrely)
  have hput : w₃.disk = Function.update w₂.disk (3 + (n - 1) / 128)
      (putRec mfsInodeLayout (w₁.disk (3 + (n - 1) / 128)) ((n - 1) % 128) inode) := by
    rw [hdisk, writeRecord, htable]
  exact ⟨⟨w₃, hguar, hput, wp_done.mpr (hok w₂ w₃ hrely hguar hdisk hheld)⟩,
    fun hf => wp_done.mpr (hfail hf w₂ hrely)⟩

end OsProjects.Mfs
