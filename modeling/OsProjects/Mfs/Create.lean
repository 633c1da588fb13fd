import Mathlib.Order.Interval.Finset.Nat
import OsProjects.Mfs.Calls
import OsProjects.Mfs.Files
import OsProjects.Mfs.Helpers
import OsProjects.Mfs.Safety

/-!
# mfs_create — inode bit, inode record, directory entry

The handler marks an inode used, writes its record and then names it in the directory.
Each of the three writes leaves a safe image behind, in this order (`wp_mfsCreate`), and
together they add one empty file (`FsInv.create`). `CreateReply` lists the ways the
call can end.
-/

namespace OsProjects.Mfs

open Bytes Prog

/-! ## Inode numbers -/

/-- With 254 slots for 255 inode numbers, one is always free. -/
theorem DirInv.free_inode {d : Disk} (h : DirInv d) : ∃ i, 1 ≤ i ∧ i < 256 ∧
    inodeBitAt d i = false := by
  by_contra hnone
  have hfile : ∀ i, 1 ≤ i → i < 256 → IsFile d (i + 1) := fun i h1 h256 => by
    have hbit : inodeBitAt d i = true := by
      by_contra hclear
      exact hnone ⟨i, h1, h256, by simpa using hclear⟩
    exact ((h.inodeBit i).mp hbit).resolve_left (by omega)
  -- the slots of the files with numbers 2 to 256 are pairwise distinct
  choose! slot hslot using hfile
  have hcard : (Finset.Icc 1 255).card ≤ (Finset.Ico 2 256).card := by
    refine Finset.card_le_card_of_injOn slot (fun i hi => ?_) (fun i hi j hj hij => ?_)
    · have hi' := Finset.mem_Icc.mp (Finset.mem_coe.mp hi)
      have hs := hslot i hi'.1 (by omega)
      exact Finset.mem_coe.mpr (Finset.mem_Ico.mpr ⟨hs.two_le, hs.lt⟩)
    · have hi' := Finset.mem_Icc.mp (Finset.mem_coe.mp hi)
      have hj' := Finset.mem_Icc.mp (Finset.mem_coe.mp hj)
      have heq := (hslot i hi'.1 (by omega)).unique (hij ▸ hslot j hj'.1 (by omega))
      omega
  rw [Nat.card_Icc, Nat.card_Ico] at hcard
  omega

theorem find_inode {d : Disk} (h : DirInv d) : ∃ i, 1 ≤ i ∧ i < 256 ∧ inodeBitAt d i = false ∧
    (List.range' 1 255).find? (fun i => !mfsGetBit (d 2) i) = some i := by
  cases hfind : (List.range' 1 255).find? (fun i => !mfsGetBit (d 2) i) with
  | none =>
    obtain ⟨i, h1, h256, hclear⟩ := h.free_inode
    have hset := List.find?_eq_none.mp hfind i (by rw [List.mem_range'_1]; omega)
    rw [inodeBitAt] at hclear
    exact absurd (by rw [hclear]; rfl) hset
  | some i =>
    rw [List.find?_range'_eq_some, List.mem_range'_1] at hfind
    exact ⟨i, by omega, by omega, by rw [inodeBitAt]; simpa using hfind.1, rfl⟩

theorem find_slot_eq_none_iff {d : Disk} : (List.range' 2 (mfsDirEntryCount - 2)).find?
      (fun i => (dirEntry (d mfsRootDirBlock) i).used == 0) = none ↔
    ∀ s, 2 ≤ s → s < 256 → (entryAt d s).used ≠ 0 := by
  rw [List.find?_eq_none]
  constructor
  · intro h s h2 hlt
    have hused := h s (by
      simp only [List.mem_range'_1, mfsDirEntryCount]
      omega)
    rwa [beq_iff_eq] at hused
  · intro h s hs
    simp only [List.mem_range'_1, mfsDirEntryCount] at hs
    rw [beq_iff_eq]
    exact h s hs.1 (by omega)

/-! ## The three writes -/

/-- The record of a new file. -/
def newInode (n : UInt32) (mode : UInt32) (now : UInt64) : MfsInode :=
  { MfsInode.zero with
    inodeNo := n
    mode := sIfreg ||| (mode &&& 0o777)
    ctime := now
    mtime := now
    atime := now }

section Steps

variable {d : Disk} {i : Nat} {value : Bool}

theorem inodeAt_update_inodeBitmap (d : Disk) (blk : Block) (n : Nat) :
    inodeAt (Function.update d 2 blk) n = inodeAt d n := by
  have hne : 3 + (n - 1) / 128 ≠ 2 := by omega
  rw [inodeAt, Function.update_of_ne hne]
  rfl

/-- A change of the inode bitmap that keeps the inodes in use is safe. -/
theorem CutImage.setInodeBit (h : CutImage d)
    (hkeep : value = true ∨ ∀ s < 256, (entryAt d s).used ≠ 0 →
      (entryAt d s).inodeNo.toNat - 1 ≠ i) :
    CutImage (Function.update d 2 (mfsSetBit (d 2) i value)) := by
  have hbit := inodeBitAt_setBit (Function.update_self 2 (mfsSetBit (d 2) i value) d)
  refine h.mono (Function.update_of_ne (by decide) _ _) (fun b hb => ?_) (fun n b hn hb => ?_)
    (fun s hs hused => ?_)
  · -- the block bitmap is not touched
    rw [bitAt, Function.update_of_ne (by decide)]
    exact hb
  · -- nor what a file refers to
    refine (ref_congr_of_index (inodeAt_update_inodeBitmap d _ n) (fun hib => ?_) b).mp hb
    have h6 := h.block n _ hn ⟨hib, Or.inl rfl⟩
    exact Function.update_of_ne (by omega) _ _
  · -- the bits of the files in use stay set
    rw [hbit]
    rcases hkeep with rfl | hother
    · split_ifs
      · rfl
      · exact h.inode s hs hused
    · rw [if_neg (Ne.symm (hother s hs hused))]
      exact h.inode s hs hused

/-- Writing the record of an inode that no file has is safe. -/
theorem CutImage.writeRecord {n : Nat} {inode : MfsInode} (h : CutImage d) (h1 : 1 ≤ n)
    (h256 : n ≤ 256) (hfresh : ¬ IsFile d n) : CutImage (writeRecord d n inode) := by
  have hblk : ∀ k, k ≠ 3 → k ≠ 4 → Mfs.writeRecord d n inode k = d k := fun k =>
    writeRecord_of_ne h256
  refine h.mono (hblk 5 (by decide) (by decide)) (fun b hb => ?_) (fun m b hm hb => ?_)
    (fun s hs hused => ?_)
  · -- the block bitmap is not touched
    rw [bitAt, hblk 1 (by decide) (by decide)]
    exact hb
  · -- the file has another record
    have hmn : m ≠ n := fun heq => hfresh (heq ▸ hm)
    have hm1 := (h.number m hm).1
    have hrec : inodeAt (Mfs.writeRecord d n inode) m = inodeAt d m := by
      rw [inodeAt_writeRecord h1 (by omega), if_neg hmn]
    refine (ref_congr_of_index hrec (fun hib => ?_) b).mp hb
    have h6 := h.block m _ hm ⟨hib, Or.inl rfl⟩
    exact hblk _ (by omega) (by omega)
  · -- nor the inode bitmap
    rw [inodeBitAt, hblk 2 (by decide) (by decide)]
    exact h.inode s hs hused

/-- Naming a marked inode without blocks is safe. -/
theorem CutImage.insert {s : Nat} {text : List UInt8} {n : UInt32} (h : CutImage d)
    (h2 : 2 ≤ s) (h256 : s < 256) (hfree : (entryAt d s).used = 0)
    (hlo : 2 ≤ n.toNat) (hhi : n.toNat ≤ 256) (hindex : indexAt d n.toNat = 0)
    (hbit : inodeBitAt d (n.toNat - 1) = true) :
    CutImage (Function.update d 5 (putRec mfsDirEntryLayout (d 5) s (newEntry text n))) := by
  have hd := Function.update_self 5 (putRec mfsDirEntryLayout (d 5) s (newEntry text n)) d
  generalize hd' : Function.update d 5 (putRec mfsDirEntryLayout (d 5) s (newEntry text n)) = d'
  rw [hd'] at hd
  have hfile := fileAt_insert h2 h256 hfree hd
  have hentry := entryAt_putRec hd
  have hblk : ∀ k, k ≠ 5 → d' k = d k := fun k hk => by
    rw [← hd', Function.update_of_ne hk]
  have hrec : ∀ m, m ≤ 256 → inodeAt d' m = inodeAt d m := fun m hm =>
    inodeAt_congr hm (hblk 3 (by decide)) (hblk 4 (by decide))
  -- the new file has no blocks, the others have theirs
  have hnew : ∀ b, ¬ Ref d' n.toNat b := fun b hb =>
    hb.1 ((indexAt_congr (hrec _ hhi)).trans hindex)
  have hold : ∀ m b, IsFile d m → Ref d' m b → Ref d m b := fun m b hm hb => by
    refine (ref_congr_of_index (hrec m (h.number m hm).2) (fun hib => ?_) b).mp hb
    have h6 := h.block m _ hm ⟨hib, Or.inl rfl⟩
    exact hblk _ (by omega)
  have hisFile : ∀ m, IsFile d' m → IsFile d m ∨ m = n.toNat := fun m ⟨s', hs'⟩ =>
    ((hfile s' m).mp hs').imp (fun hs => ⟨s', hs⟩) fun heq => heq.2
  refine ⟨⟨fun s' m b hs' hb => ?_, fun s₁ s₂ m₁ m₂ b hs₁ hs₂ hne hb₁ hb₂ => ?_,
    fun s' hs' hused => ?_⟩, fun m hm => ?_, fun m b hm hb => ?_⟩
  · rcases (hfile s' m).mp hs' with hs' | ⟨rfl, rfl⟩
    · rw [bitAt, hblk 1 (by decide)]
      exact h.used s' m b hs' (hold m b hs'.isFile hb)
    · exact absurd hb (hnew b)
  · rcases (hfile s₁ m₁).mp hs₁ with hs₁ | ⟨rfl, rfl⟩
    · rcases (hfile s₂ m₂).mp hs₂ with hs₂ | ⟨rfl, rfl⟩
      · exact h.unshared s₁ s₂ m₁ m₂ b hs₁ hs₂ hne (hold m₁ b hs₁.isFile hb₁)
          (hold m₂ b hs₂.isFile hb₂)
      · exact hnew b hb₂
    · exact hnew b hb₁
  · rw [inodeBitAt, hblk 2 (by decide)]
    rw [hentry] at hused ⊢
    by_cases hs : s' = s
    · rw [if_pos hs, newEntry_inodeNo]
      exact hbit
    · rw [if_neg hs] at hused ⊢
      exact h.inode s' hs' hused
  · rcases hisFile m hm with hm | rfl
    · exact h.number m hm
    · exact ⟨hlo, hhi⟩
  · rcases hisFile m hm with hm | rfl
    · exact h.block m b hm (hold m b hm hb)
    · exact absurd hb (hnew b)

end Steps

/-! ## The new file -/

/-- The permissions of a new file are those asked for. -/
theorem mode_and (mode : UInt32) : (sIfreg ||| (mode &&& 0o777)) &&& 0o777 = mode &&& 0o777 := by
  apply UInt32.toBitVec_inj.mp
  have hreg : sIfreg.toBitVec &&& (0o777 : UInt32).toBitVec = 0 := by decide
  simp only [UInt32.toBitVec_and, UInt32.toBitVec_or]
  rw [BitVec.and_or_distrib_right, hreg, BitVec.and_assoc, BitVec.and_self]
  exact BitVec.zero_or

/-- The number of the inode with bit `i`. -/
def numberOf (i : Nat) : UInt32 := UInt32.ofNat (i + 1)

theorem numberOf_toNat {i : Nat} (hi : i < 256) : (numberOf i).toNat = i + 1 :=
  UInt32.toNat_ofNat_of_lt' (by simp only [UInt32.size]; omega)

/-- The image with the inode bit `i` set and the record of the new file written. -/
def reserveDisk (d : Disk) (i : Nat) (mode : UInt32) (now : UInt64) : Disk :=
  writeRecord (Function.update d 2 (mfsSetBit (d 2) i true)) (i + 1)
    (newInode (numberOf i) mode now)

/-- The image with the new file named in slot `s`. -/
def createDisk (d : Disk) (s i : Nat) (text : List UInt8) (mode : UInt32) (now : UInt64) : Disk :=
  Function.update (reserveDisk d i mode now) 5
    (putRec mfsDirEntryLayout (d 5) s (newEntry text (numberOf i)))

section NewFile

variable {N : Nat} {d : Disk} {s i : Nat} {text : List UInt8} {mode : UInt32} {now : UInt64}

theorem reserveDisk_of_ne {k : Nat} (hi : i < 256) (h2 : k ≠ 2) (h3 : k ≠ 3) (h4 : k ≠ 4) :
    reserveDisk d i mode now k = d k := by
  rw [reserveDisk, writeRecord_of_ne (by omega) h3 h4, Function.update_of_ne h2]

theorem createDisk_of_ne {k : Nat} (hi : i < 256) (hk : k ≠ 2 ∧ k ≠ 3 ∧ k ≠ 4 ∧ k ≠ 5) :
    createDisk d s i text mode now k = d k := by
  rw [createDisk, Function.update_of_ne hk.2.2.2, reserveDisk_of_ne hi hk.1 hk.2.1 hk.2.2.1]

theorem createDisk_dir :
    createDisk d s i text mode now 5 =
      putRec mfsDirEntryLayout (d 5) s (newEntry text (numberOf i)) :=
  Function.update_self _ _ _

theorem createDisk_inodeBitmap (hi : i < 256) :
    createDisk d s i text mode now 2 = mfsSetBit (d 2) i true := by
  rw [createDisk, Function.update_of_ne (by decide), reserveDisk,
    writeRecord_of_ne (by omega) (by decide) (by decide), Function.update_self]

theorem inodeAt_reserveDisk {m : Nat} (h1 : 1 ≤ m) : inodeAt (reserveDisk d i mode now) m =
    if m = i + 1 then newInode (numberOf i) mode now else inodeAt d m := by
  rw [reserveDisk, inodeAt_writeRecord (by omega) h1, inodeAt_update_inodeBitmap]

theorem inodeAt_createDisk {m : Nat} (h1 : 1 ≤ m) (h256 : m ≤ 256) :
    inodeAt (createDisk d s i text mode now) m =
      if m = i + 1 then newInode (numberOf i) mode now else inodeAt d m := by
  have hsame : inodeAt (createDisk d s i text mode now) m = inodeAt (reserveDisk d i mode now) m :=
    inodeAt_congr h256 (Function.update_of_ne (by decide) _ _)
      (Function.update_of_ne (by decide) _ _)
  rw [hsame, inodeAt_reserveDisk h1]

/-- A free slot and a clear inode bit for a new name. -/
structure Room (d : Disk) (s i : Nat) : Prop where
  two_le : 2 ≤ s
  lt : s < 256
  free : (entryAt d s).used = 0
  one_le : 1 ≤ i
  inode_lt : i < 256
  clear : inodeBitAt d i = false

/-- The slot and the inode that `mfs_create` finds are such a room. -/
theorem find_room (hdir : DirInv d) (hslot : (List.range' 2 (mfsDirEntryCount - 2)).find?
      (fun i => (dirEntry (d mfsRootDirBlock) i).used == 0) = some s) :
    ∃ i, Room d s i ∧ (List.range' 1 255).find? (fun i => !mfsGetBit (d 2) i) = some i := by
  obtain ⟨i, h1, h256, hclear, hfind⟩ := find_inode hdir
  rw [List.find?_range'_eq_some] at hslot
  obtain ⟨hfree, hmem, -⟩ := hslot
  simp only [List.mem_range'_1, mfsDirEntryCount] at hmem
  exact ⟨i, ⟨hmem.1, by omega, beq_iff_eq.mp hfree, h1, h256, hclear⟩, hfind⟩

/-- Nothing has the inode number of the new file yet. -/
theorem Room.fresh (h : Room d s i) (hdir : DirInv d) : ¬ IsFile d (i + 1) := fun hfile => by
  have hset := (hdir.inodeBit i).mpr (Or.inr hfile)
  rw [h.clear] at hset
  exact absurd hset Bool.false_ne_true

section Insert

variable (h : Room d s i)
include h

theorem isFile_createDisk (m : Nat) :
    IsFile (createDisk d s i text mode now) m ↔ IsFile d m ∨ m = i + 1 := by
  have hfile := fileAt_insert h.two_le h.lt h.free
    (@createDisk_dir d s i text mode now)
  rw [numberOf_toNat h.inode_lt] at hfile
  constructor
  · rintro ⟨s', hs'⟩
    exact ((hfile s' m).mp hs').imp (fun hs => ⟨s', hs⟩) fun heq => heq.2
  · rintro (⟨s', hs'⟩ | heq)
    · exact ⟨s', (hfile s' m).mpr (Or.inl hs')⟩
    · exact ⟨s, (hfile s m).mpr (Or.inr ⟨rfl, heq⟩)⟩

theorem indexAt_createDisk : indexAt (createDisk d s i text mode now) (i + 1) = 0 := by
  have hlt := h.inode_lt
  rw [indexAt, inodeAt_createDisk (by omega) (by omega), if_pos rfl]
  rfl

variable (hinv : FsInv N d)
include hinv

/-- The old files keep their records and blocks. -/
theorem createDisk_old {m : Nat} (hm : IsFile d m) :
    inodeAt (createDisk d s i text mode now) m = inodeAt d m ∧
      ∀ b, b = indexAt d m ∨ Ref d m b → createDisk d s i text mode now b = d b := by
  have hrange := hinv.dir.file_range hm
  have hne : m ≠ i + 1 := fun heq => h.fresh hinv.dir (heq ▸ hm)
  refine ⟨by rw [inodeAt_createDisk (by omega) hrange.2, if_neg hne], ?_⟩
  intro b hb
  have h6 : b = 0 ∨ 6 ≤ b :=
    (zero_or_mem_refs hm hb).imp_right fun hmem => (hinv.blocks.range m b hmem).1
  exact createDisk_of_ne h.inode_lt (by omega)

theorem refs_createDisk : refs (createDisk d s i text mode now) = refs d := by
  funext m
  ext b
  show (IsFile _ m ∧ Ref _ m b) ↔ (IsFile d m ∧ Ref d m b)
  rw [isFile_createDisk h]
  constructor
  · rintro ⟨hm | rfl, hb⟩
    · obtain ⟨hrec, hblk⟩ := createDisk_old h hinv hm
      exact ⟨hm, (ref_congr hrec (hblk _ (Or.inl rfl)) b).mp hb⟩
    · exact absurd (indexAt_createDisk h) hb.1
  · rintro ⟨hm, hb⟩
    obtain ⟨hrec, hblk⟩ := createDisk_old h hinv hm
    exact ⟨Or.inl hm, (ref_congr hrec (hblk _ (Or.inl rfl)) b).mpr hb⟩

/-- **A new file keeps the invariant.** -/
theorem FsInv.create (hvalid : ValidName text) (habsent : ∀ s' m, ¬ Named d text s' m) :
    FsInv N (createDisk d s i text mode now) := by
  have hlt := h.inode_lt
  have hnum := numberOf_toNat hlt
  refine ⟨?_, ?_, ?_, ?_, ?_⟩
  · -- the superblock
    rw [createDisk_of_ne hlt (by omega)]
    exact hinv.super
  · -- the root inode
    have h1 := h.one_le
    rw [inodeAt_createDisk (by omega) (by omega), if_neg (by omega)]
    exact hinv.root
  · -- the directory has one entry and one inode bit more
    refine hinv.dir.insert h.two_le h.lt h.free hvalid habsent (by have := h.one_le; omega)
      (by omega) ?_ createDisk_dir ?_
    · rw [hnum, Nat.add_sub_cancel]
      exact h.clear
    · rw [hnum, Nat.add_sub_cancel]
      exact createDisk_inodeBitmap hlt
  · -- the new file refers to nothing
    rw [refs_createDisk h hinv]
    refine ⟨?_, hinv.blocks.range, hinv.blocks.disjoint, ?_⟩
    · intro b
      rw [bitAt, createDisk_of_ne hlt (by omega)]
      exact hinv.blocks.used b
    · intro m b hm hb
      rw [← @refs_createDisk N d s i text mode now h hinv]
      exact ⟨hm, hb⟩
  · -- every file, the new one too
    intro m hm
    rcases (isFile_createDisk h m).mp hm with hm | rfl
    · obtain ⟨hrec, hblk⟩ := @createDisk_old N d s i text mode now h hinv m hm
      exact fileOk_congr (hinv.file m hm) hrec (hblk _ (Or.inl rfl))
    · -- the new file is empty and has no index block
      have hrec : inodeAt (createDisk d s i text mode now) (i + 1) =
          newInode (numberOf i) mode now := by
        rw [inodeAt_createDisk (by omega) (by omega), if_pos rfl]
      refine ⟨?_, ?_, ?_, fun hne => absurd (indexAt_createDisk h) hne⟩
      · rw [hrec]
        exact hnum
      · rw [hrec]
        show sIfreg ||| (mode &&& 0o777) = sIfreg ||| ((sIfreg ||| (mode &&& 0o777)) &&& 0o777)
        rw [mode_and]
      · intro _
        rw [sizeAt, countAt, hrec]
        exact ⟨rfl, rfl⟩

/-- **A new file adds one empty file to the file map.** -/
theorem files_createDisk (hvalid : ValidName text) (habsent : ∀ s' m, ¬ Named d text s' m) :
    files (createDisk d s i text mode now) =
      Function.update (files d) text (some ⟨mode &&& 0o777, []⟩) := by
  have hlt := h.inode_lt
  have hnew := @FsInv.create N d s i text mode now h hinv hvalid habsent
  have hentry := entryAt_putRec
    (@createDisk_dir d s i text mode now)
  have hfile := fileAt_insert h.two_le h.lt h.free
    (@createDisk_dir d s i text mode now)
  rw [numberOf_toNat hlt] at hfile
  have hself : entryAt (createDisk d s i text mode now) s = newEntry text (numberOf i) := by
    rw [hentry, if_pos rfl]
  have hother : ∀ {s' m}, FileAt d s' m →
      entryAt (createDisk d s i text mode now) s' = entryAt d s' := fun {s' m} hs' => by
    rw [hentry, if_neg]
    rintro rfl
    exact hs'.used h.free
  funext t
  by_cases ht : t = text
  · subst ht
    rw [Function.update_self]
    -- the new file
    have hnamed : Named (createDisk d s i t mode now) t s (i + 1) :=
      ⟨(hfile s (i + 1)).mpr (Or.inr ⟨rfl, rfl⟩), by rw [hself, hvalid.of_text]⟩
    rw [hnew.dir.files_eq hnamed]
    have hrec : inodeAt (createDisk d s i t mode now) (i + 1) =
        newInode (numberOf i) mode now := by
      rw [inodeAt_createDisk (by omega) (by omega), if_pos rfl]
    have hempty : content (createDisk d s i t mode now) (i + 1) = [] := by
      rw [content, sizeAt, hrec]
      rfl
    have hmode : (newInode (numberOf i) mode now).mode &&& 0o777 = mode &&& 0o777 := mode_and mode
    rw [fileOf, hrec, hempty, hmode]
  · rw [Function.update_of_ne ht]
    cases hold : files d t with
    | none =>
      refine files_eq_none_iff.mpr ?_
      intro s' m hm
      rcases (hfile s' m).mp hm.toFileAt with hs' | ⟨rfl, rfl⟩
      · exact files_eq_none_iff.mp hold s' m ⟨hs', by rw [← hother hs']; exact hm.text_eq⟩
      · exact ht (by rw [← hm.text_eq, hself, hvalid.of_text])
    | some f =>
      -- an old one, with its record and its blocks
      obtain ⟨s', m, hm, rfl⟩ := hinv.dir.files_eq_some_iff.mp hold
      have hnamed : Named (createDisk d s i text mode now) t s' m :=
        ⟨(hfile s' m).mpr (Or.inl hm.toFileAt), by rw [hother hm.toFileAt]; exact hm.text_eq⟩
      obtain ⟨hrec, hblk⟩ := @createDisk_old N d s i text mode now h hinv m
        hm.toFileAt.isFile
      rw [hnew.dir.files_eq hnamed,
        fileOf_congr (hinv.file m hm.toFileAt.isFile) hrec fun b hb => hblk b (Or.inr hb)]

end Insert

end NewFile

/-! ## The handler -/

/-- The ways `mfs_create` can end on the image `d`: its return value and the image it
leaves. -/
inductive CreateReply (d : Disk) (path : CString) (mode : UInt32) (now : UInt64) :
    Int → Disk → Prop
  | badPath : (∀ name, pathName path = some name → name.val = []) →
      CreateReply d path mode now (-einval) d
  | tooLong {name : CString} : pathName path = some name → 31 < name.val.length →
      CreateReply d path mode now (-enametoolong) d
  | present {name : CString} {s n : Nat} : pathName path = some name → name.val.length ≤ 31 →
      Named d name.val s n → CreateReply d path mode now (-eexist) d
  | full {name : CString} : pathName path = some name → name.val ≠ [] → name.val.length ≤ 31 →
      (∀ s n, ¬ Named d name.val s n) → (∀ s, 2 ≤ s → s < 256 → (entryAt d s).used ≠ 0) →
      CreateReply d path mode now (-enospc) d
  | created {name : CString} {s i : Nat} : pathName path = some name → name.val ≠ [] →
      name.val.length ≤ 31 → (∀ s n, ¬ Named d name.val s n) → Room d s i →
      CreateReply d path mode now 0 (createDisk d s i name.val mode now)

section Handler

variable {N : Nat} {d : Disk} {fail : Prop} {mode : UInt32} {now : UInt64}

section Images

variable {s i : Nat} (h : Room d s i)
include h

/-- The image with the inode bit set, and then with the record: nothing refers to it. -/
theorem CutImage.reserve (hcut : CutImage d) (hdir : DirInv d) :
    CutImage (Function.update d 2 (mfsSetBit (d 2) i true)) ∧
      CutImage (reserveDisk d i mode now) := by
  have hlt := h.inode_lt
  have hbit : CutImage (Function.update d 2 (mfsSetBit (d 2) i true)) :=
    hcut.setInodeBit (Or.inl rfl)
  refine ⟨hbit, hbit.writeRecord (by omega) (by omega) ?_⟩
  exact fun hfile => h.fresh hdir
    ((isFile_congr (Function.update_of_ne (by decide) _ _) _).mp hfile)

/-- With the record in the table the name may go into the directory. -/
theorem CutImage.create {text : List UInt8} (hcut : CutImage (reserveDisk d i mode now)) :
    CutImage (createDisk d s i text mode now) := by
  have hlt := h.inode_lt
  have h1 := h.one_le
  have hnum := numberOf_toNat hlt
  have hdir : reserveDisk d i mode now 5 = d 5 :=
    reserveDisk_of_ne hlt (by decide) (by decide) (by decide)
  rw [createDisk, ← hdir]
  refine hcut.insert h.two_le h.lt ?_ (by omega) (by omega) ?_ ?_
  · -- the slot was free
    rw [entryAt, hdir]
    exact h.free
  · -- the new record has no index block
    rw [hnum, indexAt, inodeAt_reserveDisk (by omega), if_pos rfl]
    rfl
  · -- its bit is set
    have hbitmap : reserveDisk d i mode now 2 = mfsSetBit (d 2) i true := by
      rw [reserveDisk, writeRecord_of_ne (by omega) (by decide) (by decide),
        Function.update_self]
    rw [hnum, Nat.add_sub_cancel, inodeBitAt_setBit hbitmap, if_pos rfl]

/-- The record cannot be written: the inode bit is cleared again, if that works. -/
theorem wp_undoInode (hdir : DirInv d)
    (hcut : CutImage (Function.update d 2 (mfsSetBit (d 2) i true)))
    {Q : Int → { d : Disk // CutImage d } → Prop} (hQ : ∀ w, Q (-eio) w) :
    wp (.alone CutImage fail) (freeInode (numberOf i) >>= fun _ => pure (-eio)) Q ⟨_, hcut⟩ := by
  have hlt := h.inode_lt
  have h1 := h.one_le
  have hnum := numberOf_toNat hlt
  rw [freeInode_eq (by omega) (by omega)]
  simp only [read_bind]
  refine wp_read_alone ?_ fun _ => wp_done.mpr (hQ _)
  rw [hnum, Nat.add_sub_cancel]
  refine wp_write_alone (hcut.setInodeBit (Or.inr fun s' hs' hused heq => ?_))
    (wp_done.mpr (hQ _)) fun _ => wp_done.mpr (hQ _)
  -- an entry with this number would need its bit
  have hset := hdir.inode_used hs' hused
  have hbit : (entryAt d s').inodeNo.toNat - 1 = i := heq
  rw [hbit, h.clear] at hset
  exact absurd hset Bool.false_ne_true

end Images

/-- Every write behind the checks leaves a safe image, also when a read of the directory
had failed and the name is in fact there. -/
theorem wp_createFile (hinv : FsInv N d) (name : CString) (w : { d : Disk // CutImage d })
    (hw : w.val = d) :
    wp (.alone CutImage fail) (createFile name mode now) (fun r w' => ¬ fail →
      r = -enospc ∧ w'.val = d ∧ (∀ s, 2 ≤ s → s < 256 → (entryAt d s).used ≠ 0) ∨
      r = 0 ∧ ∃ s i, Room d s i ∧ w'.val = createDisk d s i name.val mode now) w := by
  subst hw
  -- behind a failure only the images count
  have hfailed : ∀ {r : Int} {w' : { d : Disk // CutImage d }}, fail →
      wp (.alone CutImage fail) (.done r) (fun r w' => ¬ fail →
        r = -enospc ∧ w'.val = w.val ∧ (∀ s, 2 ≤ s → s < 256 → (entryAt w.val s).used ≠ 0) ∨
        r = 0 ∧ ∃ s i, Room w.val s i ∧ w'.val = createDisk w.val s i name.val mode now) w' :=
    fun hf => wp_done.mpr fun hn => absurd hf hn
  unfold createFile readRootDir mfsReadBlock
  simp only [readBlock_bind, read_bind]
  refine wp_read_alone ?_ fun hf => hfailed hf
  simp only [pure_eq, done_bind]
  cases hslot : (List.range' 2 (mfsDirEntryCount - 2)).find?
      (fun i => (dirEntry (w.val mfsRootDirBlock) i).used == 0) with
  | none =>
    exact wp_done.mpr fun _ => Or.inl ⟨rfl, rfl, find_slot_eq_none_iff.mp hslot⟩
  | some s =>
    obtain ⟨i, hroom, hfind⟩ := find_room hinv.dir hslot
    have h256 := hroom.inode_lt
    have hnum := numberOf_toNat h256
    simp only [allocateInode_eq, read_bind]
    refine wp_read_alone ?_ fun hf => hfailed hf
    simp only [hfind, write_bind]
    -- the inode bit
    obtain ⟨hsafe₁, hsafe₂⟩ : CutImage (Function.update w.val 2 (mfsSetBit (w.val 2) i true)) ∧
      CutImage (reserveDisk w.val i mode now) := CutImage.reserve hroom w.property hinv.dir
    refine wp_write_alone hsafe₁ ?_ fun hf => hfailed hf
    simp only [if_true, done_bind]
    show wp _ (writeInode (newInode (numberOf i) mode now) >>= fun rc =>
      if rc ≠ 0 then freeInode (numberOf i) >>= fun _ => pure rc
      else writeRootDir (putRec mfsDirEntryLayout (w.val 5) s (newEntry name.val (numberOf i)))) _ _
    have hno : (newInode (numberOf i) mode now).inodeNo.toNat = i + 1 := hnum
    rw [writeInode_eq (by omega) (by omega), hno]
    simp only [read_bind]
    refine wp_read_alone ?_ fun hf =>
      wp_undoInode hroom hinv.dir hsafe₁ fun _ hn => absurd hf hn
    simp only [write_bind]
    refine wp_write_alone hsafe₂ ?_ fun hf =>
      wp_undoInode hroom hinv.dir hsafe₁ fun _ hn => absurd hf hn
    -- the directory entry
    show wp _ (.write 5 _ fun ok => .done (if ok then 0 else -eio)) _ _
    refine wp_write_alone (CutImage.create hroom hsafe₂) (wp_done.mpr fun _ => ?_)
      fun hf => hfailed hf
    exact Or.inr ⟨rfl, s, i, hroom, rfl⟩

/-- The rule of `mfs_create`. -/
theorem wp_mfsCreate (hinv : FsInv N d) {path : CString} (hres : Resolved path)
    (w : { d : Disk // CutImage d }) (hw : w.val = d) :
    wp (.alone CutImage fail) (mfsCreate path mode now) (fun r w' => ¬ fail →
      CreateReply d path mode now r w'.val) w := by
  subst hw
  unfold mfsCreate
  -- the checks come first, in the order of the source
  cases hpath : pathName path with
  | none => exact wp_done.mpr fun _ => .badPath fun name h => by simp [hpath] at h
  | some name =>
    simp only
    by_cases hempty : name.val = []
    · rw [if_pos hempty]
      exact wp_done.mpr fun _ => .badPath fun name' h => by
        rw [hpath] at h
        exact Option.some.inj h ▸ hempty
    · rw [if_neg hempty]
      by_cases hlong : name.val.length > mfsMaxFilename
      · rw [if_pos hlong]
        exact wp_done.mpr fun _ => .tooLong hpath hlong
      · rw [if_neg hlong]
        have hlen : name.val.length ≤ 31 := Nat.le_of_not_lt hlong
        obtain ⟨h1, h2⟩ := hres.name hpath
        rw [findDirEntry_eq]
        simp only [read_bind]
        refine wp_read_alone ?_ fun hf => ?_
        · simp only [done_bind]
          by_cases hthere : ∃ s n, Named w.val name.val s n
          · obtain ⟨s, n, hn⟩ := hthere
            rw [hinv.dir.lookup_ok h1 h2 hn]
            exact wp_done.mpr fun _ => .present hpath hlen hn
          · have habsent : ∀ s n, ¬ Named w.val name.val s n := fun s n hn => hthere ⟨s, n, hn⟩
            rw [hinv.dir.lookup_error h1 h2 habsent]
            refine wp_mono (wp_createFile hinv name w rfl) fun r w' hr hf => ?_
            rcases hr hf with ⟨rfl, hsame, hfull⟩ | ⟨rfl, s, i, hroom, hdisk⟩
            · rw [hsame]
              exact .full hpath hempty hlen habsent hfull
            · rw [hdisk]
              exact .created hpath hempty hlen habsent hroom
        · -- a failed lookup counts as an absent name
          exact wp_mono (wp_createFile hinv name w rfl) fun _ _ _ hn => absurd hf hn

end Handler

end OsProjects.Mfs
