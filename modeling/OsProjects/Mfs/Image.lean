import Mathlib.Data.Set.Basic
import OsProjects.Mfs.Definitions

/-!
# MFS images — what the blocks of a disk say, and when they say it consistently

The handlers see raw blocks; the results are about bitmaps, records, directory
entries and file contents. This module names these readings of a disk (`bitAt`,
`inodeAt`, `entryAt`, `idxAt`, `Ref`, `content`) and states the invariant of an image
between two calls.

* `DirInv` — the root directory and the inode bitmap;
* `BlockInv` — the block bitmap: a block is marked used iff it is a metadata block or
  one file holds it;
* `Shape`, `FileOk` — one file: its size, its block count and its index block;
* `FsInv` — all of these, with no write running.
-/

namespace OsProjects.Mfs

open Bytes

/-! ## Readings of a disk -/

/-- The bit of block `b` in the block bitmap. -/
def bitAt (d : Disk) (b : Nat) : Bool := mfsGetBit (d 1) b

/-- Bit `i` of the inode bitmap. -/
def inodeBitAt (d : Disk) (i : Nat) : Bool := mfsGetBit (d 2) i

/-- Directory slot `s`. -/
def entryAt (d : Disk) (s : Nat) : MfsDirEntry := dirEntry (d 5) s

/-- Inode number `n`. -/
def inodeAt (d : Disk) (n : Nat) : MfsInode :=
  getRec mfsInodeLayout (d (3 + (n - 1) / 128)) ((n - 1) % 128)

/-- The block numbers in an index block. -/
def idxOf (idxData : Block) (k : Nat) : Nat := (idxEntry idxData k).toNat

/-- Entry `k` of the index block `b`. -/
def idxAt (d : Disk) (b k : Nat) : Nat := idxOf (d b) k

/-- The index block of inode `n`, 0 if it has none. -/
def indexAt (d : Disk) (n : Nat) : Nat := (inodeAt d n).indexBlock.toNat

def sizeAt (d : Disk) (n : Nat) : Nat := (inodeAt d n).size.toNat

def countAt (d : Disk) (n : Nat) : Nat := (inodeAt d n).blockCount.toNat

/-- The text of an entry's name. -/
def MfsDirEntry.text (e : MfsDirEntry) : List UInt8 :=
  readString (fun i => if h : i < 32 then e.name ⟨i, h⟩ else 0) 32

/-- Slot `s` holds a file with inode number `n`. -/
structure FileAt (d : Disk) (s n : Nat) : Prop where
  two_le : 2 ≤ s
  lt : s < 256
  used : (entryAt d s).used ≠ 0
  inodeNo : (entryAt d s).inodeNo.toNat = n

/-- Some slot of the directory holds a file with inode number `n`. -/
def IsFile (d : Disk) (n : Nat) : Prop := ∃ s, FileAt d s n

/-- Inode `n` refers to block `b`: as its index block, or by a non-zero entry of it. -/
def Ref (d : Disk) (n b : Nat) : Prop :=
  indexAt d n ≠ 0 ∧ (b = indexAt d n ∨ b ≠ 0 ∧ ∃ k < 4096, idxAt d (indexAt d n) k = b)

/-- The bytes of the file with inode `n`. -/
def content (d : Disk) (n : Nat) : List UInt8 :=
  (List.range (sizeAt d n)).map fun i => d (idxAt d (indexAt d n) (i / 16384)) (i % 16384)

/-! ## The invariant -/

/-- A name that `mfs_create` accepts. -/
structure ValidName (text : List UInt8) : Prop where
  pos : 0 < text.length
  le : text.length ≤ 31
  nul_free : 0 ∉ text
  slash_free : 47 ∉ text
  ne_dot : text ≠ [46]
  ne_dotdot : text ≠ [46, 46]

/-- The entry `mfs_create` writes. -/
def newEntry (text : List UInt8) (inodeNo : UInt32) : MfsDirEntry :=
  { MfsDirEntry.zero with
    used := 1
    inodeNo := inodeNo
    name := fun i => strncpy text (mfsFilenameSize - 1) i }

/-- The root directory and the inode bitmap are consistent. -/
structure DirInv (d : Disk) : Prop where
  dot : entryAt d 0 = newEntry [46] 1
  dotdot : entryAt d 1 = newEntry [46, 46] 1
  slot : ∀ s, 2 ≤ s → s < 256 → entryAt d s = MfsDirEntry.zero ∨
    ∃ text n, ValidName text ∧ 2 ≤ n.toNat ∧ n.toNat ≤ 256 ∧ entryAt d s = newEntry text n
  inodeNo_inj : ∀ s s' n, FileAt d s n → FileAt d s' n → s = s'
  text_inj : ∀ s s' n n', FileAt d s n → FileAt d s' n' →
    (entryAt d s).text = (entryAt d s').text → s = s'
  inodeBit : ∀ i, inodeBitAt d i = true ↔ i = 0 ∨ IsFile d (i + 1)

/-- Every block in use is held by one file, `held n` for the file with inode `n`, and
the block bitmap says exactly which are in use. A file holds what it refers to; while
a write on it runs it may hold more. -/
structure BlockInv (N : Nat) (d : Disk) (held : Nat → Set Nat) : Prop where
  used : ∀ b, bitAt d b = true ↔ b < 6 ∨ ∃ n, b ∈ held n
  range : ∀ n, ∀ b ∈ held n, 6 ≤ b ∧ b < N
  disjoint : ∀ n m b, b ∈ held n → b ∈ held m → n = m
  ref : ∀ n b, IsFile d n → Ref d n b → b ∈ held n

/-- What the files hold when no write runs. -/
def refs (d : Disk) (n : Nat) : Set Nat := {b | IsFile d n ∧ Ref d n b}

/-- The index `f` of a file with `size` bytes and `count` data blocks, `ib` its index
block: exactly the first `count` entries are in use, each for a block of its own. -/
structure Shape (ib : Nat) (f : Nat → Nat) (size count : Nat) : Prop where
  index_ne : ib ≠ 0
  count_eq : count = (size + 16383) / 16384
  count_le : count ≤ 4096
  entry : ∀ k < 4096, f k ≠ 0 ↔ k < count
  inj : ∀ j < count, ∀ k < count, f j = f k → j = k
  off_index : ∀ k < count, f k ≠ ib

/-- The record and the index block of file `n` are consistent. -/
structure FileOk (d : Disk) (n : Nat) : Prop where
  inodeNo : (inodeAt d n).inodeNo.toNat = n
  mode : (inodeAt d n).mode = sIfreg ||| ((inodeAt d n).mode &&& 0o777)
  unindexed : indexAt d n = 0 → sizeAt d n = 0 ∧ countAt d n = 0
  shape : indexAt d n ≠ 0 → Shape (indexAt d n) (idxAt d (indexAt d n)) (sizeAt d n) (countAt d n)

/-- The superblock `make_mfs` writes on a disk of `N` blocks. -/
def formatSuperblock (N : UInt32) : MfsSuperblock := ⟨mfsMagic, 16384, N, 256, 3, 5, 6, 31⟩

/-- The root inode `make_mfs` writes. -/
def rootInode (now : UInt64) : MfsInode :=
  { MfsInode.zero with
    inodeNo := mfsRootInode
    mode := sIfdir ||| 0o755
    size := 128
    blockCount := 1
    indexBlock := 5
    ctime := now
    mtime := now
    atime := now }

/-- The image of a disk of `N` blocks between two calls. -/
structure FsInv (N : Nat) (d : Disk) : Prop where
  super : getRec mfsSuperblockLayout (d 0) 0 = formatSuperblock (UInt32.ofNat N)
  root : ∃ now, inodeAt d 1 = rootInode now
  dir : DirInv d
  blocks : BlockInv N d (refs d)
  file : ∀ n, IsFile d n → FileOk d n

/-! ## What a reading depends on -/

theorem isFile_congr {d d' : Disk} (hdir : d' 5 = d 5) (n : Nat) : IsFile d' n ↔ IsFile d n := by
  have hentry : ∀ s, entryAt d' s = entryAt d s := fun s => by rw [entryAt, entryAt, hdir]
  constructor
  · rintro ⟨s, hs⟩
    exact ⟨s, hs.two_le, hs.lt, hentry s ▸ hs.used, hentry s ▸ hs.inodeNo⟩
  · rintro ⟨s, hs⟩
    exact ⟨s, hs.two_le, hs.lt, (hentry s).symm ▸ hs.used, (hentry s).symm ▸ hs.inodeNo⟩

theorem inodeAt_congr {d d' : Disk} {n : Nat} (hn : n ≤ 256) (h3 : d' 3 = d 3) (h4 : d' 4 = d 4) :
    inodeAt d' n = inodeAt d n := by
  have hblock : (n - 1) / 128 = 0 ∨ (n - 1) / 128 = 1 := by omega
  unfold inodeAt
  -- 256 records fill the two table blocks
  rcases hblock with h | h
  · rw [h, h3]
  · rw [h, h4]

theorem indexAt_congr {d d' : Disk} {n : Nat} (hrec : inodeAt d' n = inodeAt d n) :
    indexAt d' n = indexAt d n := by rw [indexAt, indexAt, hrec]

theorem idxAt_congr {d d' : Disk} {b : Nat} (hblk : d' b = d b) (k : Nat) :
    idxAt d' b k = idxAt d b k := by rw [idxAt, idxAt, hblk]

theorem ref_congr {d d' : Disk} {n : Nat} (hrec : inodeAt d' n = inodeAt d n)
    (hblk : d' (indexAt d n) = d (indexAt d n)) (b : Nat) : Ref d' n b ↔ Ref d n b := by
  -- a reference goes through the record and, behind it, the index block only
  unfold Ref
  simp only [indexAt_congr hrec, idxAt_congr hblk]

/-- A file without an index block refers to nothing, so the block matters only where
there is one. -/
theorem ref_congr_of_index {d d' : Disk} {n : Nat} (hrec : inodeAt d' n = inodeAt d n)
    (hblk : indexAt d n ≠ 0 → d' (indexAt d n) = d (indexAt d n)) (b : Nat) :
    Ref d' n b ↔ Ref d n b := by
  by_cases hib : indexAt d n = 0
  · have hib' : indexAt d' n = 0 := (indexAt_congr hrec).trans hib
    exact ⟨fun h => absurd hib' h.1, fun h => absurd hib h.1⟩
  · exact ref_congr hrec (hblk hib) b

theorem Ref.index {d : Disk} {n b : Nat} (h : Ref d n b) : Ref d n (indexAt d n) :=
  ⟨h.1, Or.inl rfl⟩

/-- The blocks a reading of file `m` looks at, without the index block of a file that
has none. -/
theorem zero_or_mem_refs {d : Disk} {m b : Nat} (hm : IsFile d m)
    (hb : b = indexAt d m ∨ Ref d m b) : b = 0 ∨ b ∈ refs d m := by
  by_cases hz : b = 0
  · exact Or.inl hz
  · refine Or.inr ⟨hm, ?_⟩
    rcases hb with rfl | hb
    · exact ⟨hz, Or.inl rfl⟩
    · exact hb

theorem Shape.lt_count {ib size count : Nat} {f : Nat → Nat} (h : Shape ib f size count) {i : Nat}
    (hi : i < size) : i / 16384 < count := by
  have hcount := h.count_eq
  omega

/-- The block that holds byte `i` of a file is one the file refers to. -/
theorem FileOk.ref_byte {d : Disk} {n : Nat} (hok : FileOk d n) {i : Nat} (hi : i < sizeAt d n) :
    Ref d n (idxAt d (indexAt d n) (i / 16384)) := by
  -- a file without an index block has no bytes
  have hib : indexAt d n ≠ 0 := fun hz => by
    have hsize := (hok.unindexed hz).1
    omega
  have hshape := hok.shape hib
  have hk := hshape.lt_count hi
  have hle := hshape.count_le
  exact ⟨hib, Or.inr ⟨(hshape.entry _ (by omega)).mpr hk, _, by omega, rfl⟩⟩

/-- A file whose record and blocks are untouched reads the same. -/
theorem content_congr {d d' : Disk} {n : Nat} (hok : FileOk d n)
    (hrec : inodeAt d' n = inodeAt d n) (hblk : ∀ b, Ref d n b → d' b = d b) :
    content d' n = content d n := by
  have hsize : sizeAt d' n = sizeAt d n := by rw [sizeAt, sizeAt, hrec]
  unfold content
  rw [hsize, indexAt_congr hrec]
  -- byte by byte: its index block and its data block are both referred to
  apply List.map_congr_left
  intro i hi
  have hbyte := hok.ref_byte (List.mem_range.mp hi)
  rw [idxAt_congr (hblk _ hbyte.index), hblk _ hbyte]

theorem fileOk_congr {d d' : Disk} {n : Nat} (hok : FileOk d n)
    (hrec : inodeAt d' n = inodeAt d n) (hblk : d' (indexAt d n) = d (indexAt d n)) :
    FileOk d' n := by
  have hindex := indexAt_congr hrec
  have hidx : idxAt d' (indexAt d n) = idxAt d (indexAt d n) := funext (idxAt_congr hblk)
  have hsize : sizeAt d' n = sizeAt d n := by rw [sizeAt, sizeAt, hrec]
  have hcount : countAt d' n = countAt d n := by rw [countAt, countAt, hrec]
  refine ⟨hrec.symm ▸ hok.inodeNo, hrec.symm ▸ hok.mode, ?_, ?_⟩
  · rw [hindex, hsize, hcount]
    exact hok.unindexed
  · rw [hindex, hsize, hcount, hidx]
    exact hok.shape

theorem content_length (d : Disk) (n : Nat) : (content d n).length = sizeAt d n := by
  simp [content]

theorem content_eq_iff {d : Disk} {n : Nat} {bytes : List UInt8} :
    content d n = bytes ↔ bytes.length = sizeAt d n ∧ ∀ i (h : i < bytes.length),
      d (idxAt d (indexAt d n) (i / 16384)) (i % 16384) = bytes[i] := by
  constructor
  · rintro rfl
    refine ⟨content_length d n, ?_⟩
    intro i hi
    simp [content]
  · rintro ⟨hlen, hbytes⟩
    apply List.ext_getElem
    · rw [content_length, hlen]
    · intro i hi hi'
      rw [← hbytes i hi']
      simp [content]

/-! ## Names in the directory -/

theorem newEntry_text {text : List UInt8} (hnul : 0 ∉ text) (hle : text.length ≤ 31)
    (n : UInt32) : (newEntry text n).text = text := by
  apply readString_of_stored hnul
  · intro i hi
    rw [dif_pos (by omega)]
    exact strncpy_of_lt hle hi
  -- the byte behind the name is padding
  · rw [dif_pos (by omega)]
    exact strncpy_of_ge (Nat.le_refl _)
  · omega

theorem ValidName.of_text {text : List UInt8} (h : ValidName text) (n : UInt32) :
    (newEntry text n).text = text :=
  newEntry_text h.nul_free h.le n

@[simp] theorem newEntry_used (text : List UInt8) (n : UInt32) : (newEntry text n).used = 1 := rfl

@[simp] theorem newEntry_inodeNo (text : List UInt8) (n : UInt32) :
    (newEntry text n).inodeNo = n := rfl

@[simp] theorem zero_used : MfsDirEntry.zero.used = 0 := rfl

/-- The memory at the name of a slot that holds `newEntry text n`. -/
theorem dirEntryName_newEntry {d : Disk} {s : Nat} {text : List UInt8} {n : UInt32}
    (hentry : entryAt d s = newEntry text n) {j : Nat} (hj : j < 32) :
    dirEntryName (d 5) s j = strncpy text 31 j := by
  have hfield : (entryAt d s).name ⟨j, hj⟩ = strncpy text 31 j := by rw [hentry]; rfl
  rw [← hfield]
  show d 5 (s * 64 + 4 + j) = d 5 (s * 64 + (4 + j))
  rw [Nat.add_assoc]

/-- A slot that holds `newEntry text n` matches the name `text` and no other. -/
theorem dirEntryMatches_newEntry {d : Disk} {s : Nat} {text : List UInt8} {n : UInt32}
    {name : CString} (hnul : 0 ∉ text) (hle : text.length ≤ 31)
    (hentry : entryAt d s = newEntry text n) :
    dirEntryMatches (d 5) name s = true ↔ name.val = text := by
  have hname : ∀ j < 32, dirEntryName (d 5) s j = strncpy text 31 j := fun j hj =>
    dirEntryName_newEntry hentry hj
  have hused : (dirEntry (d 5) s).used ≠ 0 := by
    show (entryAt d s).used ≠ 0
    rw [hentry, newEntry_used]
    decide
  rw [dirEntryMatches, Bool.and_eq_true, bne_iff_ne]
  -- the name is NUL-terminated in its field, so `strcmp` stops inside it
  constructor
  · rintro ⟨-, heq⟩
    refine (strEq_of_stored hnul name.property (fun i hi => ?_) ?_).mp heq
    · rw [hname i (by omega), strncpy_of_lt hle hi]
    · rw [hname _ (by omega), strncpy_of_ge (Nat.le_refl _)]
  · intro heq
    refine ⟨hused, (strEq_of_stored hnul name.property (fun i hi => ?_) ?_).mpr heq⟩
    · rw [hname i (by omega), strncpy_of_lt hle hi]
    · rw [hname _ (by omega), strncpy_of_ge (Nat.le_refl _)]

theorem dirEntryMatches_zero {d : Disk} {s : Nat} {name : CString}
    (hentry : entryAt d s = MfsDirEntry.zero) : dirEntryMatches (d 5) name s = false := by
  have hused : (dirEntry (d 5) s).used = 0 := by
    show (entryAt d s).used = 0
    rw [hentry, zero_used]
  simp [dirEntryMatches, hused]

end OsProjects.Mfs
