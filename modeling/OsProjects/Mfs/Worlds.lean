import OsProjects.Lib.BlockLogic
import OsProjects.Mfs.Directory

/-!
# Worlds of a running write — who holds which block, and the rules of the helpers

While `mfs_write` runs, blocks are taken before anything on the disk refers to them.
A `World` is a disk together with the holder of every block in use; its consistency is
a field, so each write of the handler has to lead from a world to a world. The setting
`writer N n fail` is the one `mfs_write` on the file with inode `n` is verified in:

* it relies on the others leaving the directory, its own record and its own blocks
  alone (`Untouched`);
* it guarantees the same to every other file;
* the six metadata blocks are shared: nobody else writes one of them between this
  handler's read of it and the write that follows.

`World.take`, `World.drop` and `World.rewrite` are the three changes of a world, and
`wp_allocateBlock`, `wp_freeBlock`, `wp_writeInode` the rules of the helpers that make
them.
-/

namespace OsProjects.Mfs

open Bytes Prog

/-- A disk on which writes may be running, and the blocks each file holds. -/
structure World (N : Nat) where
  disk : Disk
  held : Nat → Set Nat
  dir : DirInv disk
  blocks : BlockInv N disk held

variable {N : Nat}

/-- The blocks no write changes: superblock, inode bitmap and directory. -/
structure SameDir (w w' : World N) : Prop where
  super : w'.disk 0 = w.disk 0
  inodeBitmap : w'.disk 2 = w.disk 2
  rootDir : w'.disk 5 = w.disk 5

/-- The record and the blocks of file `n` are the same in both worlds. -/
structure Untouched (n : Nat) (w w' : World N) : Prop where
  record : inodeAt w'.disk n = inodeAt w.disk n
  held : w'.held n = w.held n
  block : ∀ b ∈ w.held n, w'.disk b = w.disk b

theorem SameDir.refl (w : World N) : SameDir w w := ⟨rfl, rfl, rfl⟩

theorem SameDir.trans {w₁ w₂ w₃ : World N} (h : SameDir w₁ w₂) (h' : SameDir w₂ w₃) :
    SameDir w₁ w₃ :=
  ⟨h'.super.trans h.super, h'.inodeBitmap.trans h.inodeBitmap, h'.rootDir.trans h.rootDir⟩

theorem Untouched.refl (n : Nat) (w : World N) : Untouched n w w := ⟨rfl, rfl, fun _ _ => rfl⟩

theorem Untouched.trans {n : Nat} {w₁ w₂ w₃ : World N} (h : Untouched n w₁ w₂)
    (h' : Untouched n w₂ w₃) : Untouched n w₁ w₃ :=
  ⟨h'.record.trans h.record, h'.held.trans h.held, fun b hb =>
    (h'.block b (h.held.symm ▸ hb)).trans (h.block b hb)⟩

/-- What others may do while a write on file `n` runs. -/
structure Rely (n : Nat) (w w' : World N) : Prop where
  dir : SameDir w w'
  own : Untouched n w w'

/-- What a write on file `n` may do. -/
structure Guar (n : Nat) (w w' : World N) : Prop where
  dir : SameDir w w'
  record : ∀ m, 1 ≤ m → m ≤ 256 → m ≠ n → inodeAt w'.disk m = inodeAt w.disk m
  held : ∀ m, m ≠ n → w'.held m = w.held m
  block : ∀ m, m ≠ n → ∀ b ∈ w.held m, w'.disk b = w.disk b

theorem Guar.refl (n : Nat) (w : World N) : Guar n w w :=
  ⟨SameDir.refl w, fun _ _ _ _ => rfl, fun _ _ => rfl, fun _ _ _ _ => rfl⟩

theorem Guar.trans {n : Nat} {w₁ w₂ w₃ : World N} (h : Guar n w₁ w₂) (h' : Guar n w₂ w₃) :
    Guar n w₁ w₃ :=
  ⟨h.dir.trans h'.dir,
    fun m h1 h256 hm => (h'.record m h1 h256 hm).trans (h.record m h1 h256 hm),
    fun m hm => (h'.held m hm).trans (h.held m hm),
    fun m hm b hb => (h'.block m hm b ((h.held m hm).symm ▸ hb)).trans (h.block m hm b hb)⟩

/-- The setting of a write on file `n`; `fail` says whether transfers may fail. -/
@[reducible] def writer (N n : Nat) (fail : Prop) : Setting (World N) Block where
  disk := World.disk
  rely := Rely n
  guar := Guar n
  mayFail := fail
  shared := fun k => k < 6
  rely_refl := fun w => ⟨SameDir.refl w, Untouched.refl n w⟩
  rely_trans := fun h h' => ⟨h.dir.trans h'.dir, h.own.trans h'.own⟩
  guar_refl := Guar.refl n
  guar_trans := Guar.trans

/-- The write on one file gives the write on another what it relies on. -/
theorem Guar.rely {n m : Nat} (h1 : 1 ≤ m) (h256 : m ≤ 256) (hne : m ≠ n) {w w' : World N}
    (h : Guar n w w') : Rely m w w' :=
  ⟨h.dir, h.record m h1 h256 hne, h.held m hne, h.block m hne⟩

/-! ## The changes of a world -/

theorem World.file_index {w : World N} {n : Nat} (hn : IsFile w.disk n)
    (hib : indexAt w.disk n ≠ 0) : 6 ≤ indexAt w.disk n ∧ indexAt w.disk n < N :=
  w.blocks.range n _ (w.blocks.ref n _ hn ⟨hib, Or.inl rfl⟩)

/-- A write below block 6 that leaves the records alone leaves the references alone. -/
theorem World.ref_iff {w : World N} {d' : Disk} {n : Nat} (hn : IsFile w.disk n)
    (hrec : inodeAt d' n = inodeAt w.disk n) (hblk : ∀ b, 6 ≤ b → d' b = w.disk b) (b : Nat) :
    Ref d' n b ↔ Ref w.disk n b :=
  ref_congr_of_index hrec (fun hib => hblk _ (World.file_index hn hib).1) b

theorem bitAt_update {d : Disk} {b : Nat} {value : Bool} (b' : Nat) :
    bitAt (Function.update d 1 (mfsSetBit (d 1) b value)) b' =
      if b = b' then value else bitAt d b' := by
  rw [bitAt, Function.update_self, mfsGetBit, mfsSetBit, getBit_setBit]
  rfl

/-- The readings that do not look at block 1 do not see a change of it. -/
theorem inodeAt_update_bitmap (d : Disk) (blk : Block) (n : Nat) :
    inodeAt (Function.update d 1 blk) n = inodeAt d n := by
  have hne : 3 + (n - 1) / 128 ≠ 1 := by omega
  rw [inodeAt, Function.update_of_ne hne]
  rfl

theorem dirInv_congr {d d' : Disk} (hdir : DirInv d) (h2 : d' 2 = d 2) (h5 : d' 5 = d 5) :
    DirInv d' := by
  -- the invariant reads the directory and the inode bitmap only
  have hentry : ∀ s, entryAt d' s = entryAt d s := fun s => by rw [entryAt, entryAt, h5]
  have hfile : ∀ s n, FileAt d' s n ↔ FileAt d s n := fun s => fileAt_of_entry (hentry s)
  refine ⟨?_, ?_, ?_, ?_, ?_, ?_⟩
  · rw [hentry]
    exact hdir.dot
  · rw [hentry]
    exact hdir.dotdot
  · intro s
    rw [hentry]
    exact hdir.slot s
  · intro s s' n
    rw [hfile, hfile]
    exact hdir.inodeNo_inj s s' n
  · intro s s' n n'
    rw [hfile, hfile, hentry, hentry]
    exact hdir.text_inj s s' n n'
  · intro i
    rw [inodeBitAt, h2, isFile_congr h5]
    exact hdir.inodeBit i

/-- The holders after file `n` takes block `b`. -/
def holdAlso (held : Nat → Set Nat) (n b : Nat) : Nat → Set Nat :=
  fun m => {c | c ∈ held m ∨ m = n ∧ c = b}

/-- The holders after file `n` gives block `b` back. -/
def holdExcept (held : Nat → Set Nat) (n b : Nat) : Nat → Set Nat :=
  fun m => {c | c ∈ held m ∧ ¬ (m = n ∧ c = b)}

/-- A clear block is held by nobody. -/
theorem BlockInv.not_held {d : Disk} {held : Nat → Set Nat} (h : BlockInv N d held) {b : Nat}
    (hfree : bitAt d b = false) (n : Nat) : b ∉ held n := fun hb => by
  have hset := (h.used b).mpr (Or.inr ⟨n, hb⟩)
  rw [hfree] at hset
  exact absurd hset Bool.false_ne_true

/-- The references of a file survive any change of the bitmap block. -/
theorem World.ref_bitmap {w : World N} {blk : Block} {n b : Nat}
    (hn : IsFile (Function.update w.disk 1 blk) n) :
    IsFile w.disk n ∧ (Ref (Function.update w.disk 1 blk) n b ↔ Ref w.disk n b) := by
  have hfile : IsFile w.disk n := (isFile_congr (Function.update_of_ne (by decide) _ _) n).mp hn
  exact ⟨hfile, World.ref_iff hfile (inodeAt_update_bitmap _ _ n)
    (fun c hc => Function.update_of_ne (by omega) _ _) b⟩

theorem World.blockInv_take (w : World N) (n : Nat) {b : Nat} (hb : 6 ≤ b ∧ b < N)
    (hfree : bitAt w.disk b = false) :
    BlockInv N (Function.update w.disk 1 (mfsSetBit (w.disk 1) b true))
      (holdAlso w.held n b) := by
  have hnone := w.blocks.not_held hfree
  refine ⟨fun b' => ?_, ?_, ?_, ?_⟩
  · rw [bitAt_update]
    by_cases hbb : b = b'
    · rw [if_pos hbb]
      exact ⟨fun _ => Or.inr ⟨n, Or.inr ⟨rfl, hbb.symm⟩⟩, fun _ => rfl⟩
    · rw [if_neg hbb, w.blocks.used b']
      exact or_congr_right <| exists_congr fun m =>
        ⟨Or.inl, fun h => h.resolve_right fun hc => hbb hc.2.symm⟩
  · rintro m b' (h | ⟨-, rfl⟩)
    · exact w.blocks.range m b' h
    · exact hb
  -- two holders of `b`: one of them is `n`, and nobody else held it
  · rintro m m' b' (h | ⟨rfl, rfl⟩) (h' | ⟨rfl, hb'⟩)
    · exact w.blocks.disjoint m m' b' h h'
    · exact absurd (hb' ▸ h) (hnone m)
    · exact absurd h' (hnone m')
    · rfl
  · intro m b' hm href
    obtain ⟨hfile, hiff⟩ := World.ref_bitmap hm
    exact Or.inl (w.blocks.ref m b' hfile (hiff.mp href))

theorem World.blockInv_drop (w : World N) {n b : Nat} (hb : b ∈ w.held n)
    (hunref : IsFile w.disk n → ¬ Ref w.disk n b) :
    BlockInv N (Function.update w.disk 1 (mfsSetBit (w.disk 1) b false))
      (holdExcept w.held n b) := by
  have hrange := w.blocks.range n b hb
  refine ⟨?_, ?_, ?_, ?_⟩
  · intro b'
    rw [bitAt_update]
    by_cases hbb : b = b'
    · subst hbb
      rw [if_pos rfl]
      refine ⟨fun h => absurd h Bool.false_ne_true, ?_⟩
      rintro (hlt | ⟨m, hm, hne⟩)
      · omega
      -- `n` was the only holder
      · exact absurd ⟨w.blocks.disjoint m n b hm hb, rfl⟩ hne
    · rw [if_neg hbb, w.blocks.used b']
      exact or_congr_right <| exists_congr fun m =>
        ⟨fun h => ⟨h, fun hc => hbb hc.2.symm⟩, fun h => h.1⟩
  · exact fun m b' h => w.blocks.range m b' h.1
  · exact fun m m' b' h h' => w.blocks.disjoint m m' b' h.1 h'.1
  · intro m b' hm href
    obtain ⟨hfile, hiff⟩ := World.ref_bitmap hm
    refine ⟨w.blocks.ref m b' hfile (hiff.mp href), ?_⟩
    -- the file refers to `b` no more
    rintro ⟨rfl, rfl⟩
    exact hunref hfile (hiff.mp href)

/-- Any change of the bitmap block is allowed while the holders of the other files stay. -/
theorem World.guar_bitmap {w w' : World N} {n : Nat} {blk : Block}
    (hdisk : w'.disk = Function.update w.disk 1 blk) (hheld : ∀ m, m ≠ n → w'.held m = w.held m) :
    Guar n w w' := by
  have hblk : ∀ k, k ≠ 1 → w'.disk k = w.disk k := fun k hk => by
    rw [hdisk, Function.update_of_ne hk]
  refine ⟨⟨hblk 0 (by decide), hblk 2 (by decide), hblk 5 (by decide)⟩, fun m _ _ _ => ?_, hheld,
    fun m _ b hb => hblk b ?_⟩
  · rw [hdisk, inodeAt_update_bitmap]
  · have hrange := w.blocks.range m b hb
    omega

/-- File `n` takes the clear block `b`. -/
theorem World.take (w : World N) (n : Nat) {b : Nat} (hb : 6 ≤ b ∧ b < N)
    (hfree : bitAt w.disk b = false) :
    ∃ w' : World N, Guar n w w' ∧
      w'.disk = Function.update w.disk 1 (mfsSetBit (w.disk 1) b true) ∧
      w'.held n = insert b (w.held n) := by
  refine ⟨⟨_, _, dirInv_congr w.dir ?_ ?_, w.blockInv_take n hb hfree⟩,
    World.guar_bitmap rfl fun m hm => ?_, rfl, ?_⟩
  · exact Function.update_of_ne (by decide) _ _
  · exact Function.update_of_ne (by decide) _ _
  · ext c
    simp [holdAlso, hm]
  · ext c
    simp [holdAlso, or_comm]

/-- File `n` gives back block `b`, to which nothing refers. -/
theorem World.drop (w : World N) {n b : Nat} (hb : b ∈ w.held n)
    (hunref : IsFile w.disk n → ¬ Ref w.disk n b) :
    ∃ w' : World N, Guar n w w' ∧
      w'.disk = Function.update w.disk 1 (mfsSetBit (w.disk 1) b false) ∧
      w'.held n = w.held n \ {b} := by
  refine ⟨⟨_, _, dirInv_congr w.dir ?_ ?_, w.blockInv_drop hb hunref⟩,
    World.guar_bitmap rfl fun m hm => ?_, rfl, ?_⟩
  · exact Function.update_of_ne (by decide) _ _
  · exact Function.update_of_ne (by decide) _ _
  · ext c
    simp [holdExcept, hm]
  · ext c
    simp [holdExcept]

/-- File `n` changes its record or its blocks, and refers to no block it does not hold. -/
theorem World.rewrite (w : World N) {n : Nat} {d' : Disk}
    (hmeta : ∀ k, k = 0 ∨ k = 1 ∨ k = 2 ∨ k = 5 → d' k = w.disk k)
    (hrec : ∀ m, 1 ≤ m → m ≤ 256 → m ≠ n → inodeAt d' m = inodeAt w.disk m)
    (hblk : ∀ m, m ≠ n → ∀ b ∈ w.held m, d' b = w.disk b)
    (href : ∀ b, Ref d' n b → b ∈ w.held n) :
    ∃ w' : World N, Guar n w w' ∧ w'.disk = d' ∧ w'.held = w.held := by
  have h5 : d' 5 = w.disk 5 := hmeta 5 (by omega)
  have hdir : DirInv d' := dirInv_congr w.dir (hmeta 2 (by omega)) h5
  have hblocks : BlockInv N d' w.held := by
    refine ⟨fun b => ?_, w.blocks.range, w.blocks.disjoint, fun m b hm hb => ?_⟩
    · rw [bitAt, hmeta 1 (by omega)]
      exact w.blocks.used b
    -- the file itself by hypothesis, the others because nothing of theirs changed
    · by_cases hmn : m = n
      · subst hmn
        exact href b hb
      · have hfile : IsFile w.disk m := (isFile_congr h5 m).mp hm
        have hrange := w.dir.file_range hfile
        have hkept : indexAt w.disk m ≠ 0 → d' (indexAt w.disk m) = w.disk (indexAt w.disk m) :=
          fun hib => hblk m hmn _ (w.blocks.ref m _ hfile ⟨hib, Or.inl rfl⟩)
        have href' := ref_congr_of_index (hrec m (by omega) hrange.2 hmn) hkept b
        exact w.blocks.ref m b hfile (href'.mp hb)
  exact ⟨⟨d', w.held, hdir, hblocks⟩,
    ⟨⟨hmeta 0 (by omega), hmeta 2 (by omega), h5⟩, hrec, fun _ _ => rfl, hblk⟩, rfl, rfl⟩

end OsProjects.Mfs
