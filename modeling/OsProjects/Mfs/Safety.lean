import OsProjects.Mfs.Worlds

/-!
# Safe images — no block and no inode is used twice, whatever was cut short

`SafeImage` is the part of the invariant that has to survive a crash: what the files
refer to is marked used, and no two files refer to the same block. Used blocks and
inodes to which nothing refers are allowed. Every world of a running write is safe
(`World.safe`), and so is every image between two calls (`FsInv.safe`).
-/

namespace OsProjects.Mfs

open Bytes

/-- What the files refer to is marked used and not shared. -/
structure SafeImage (d : Disk) : Prop where
  used : ∀ s n b, FileAt d s n → Ref d n b → bitAt d b = true
  unshared : ∀ s s' n n' b, FileAt d s n → FileAt d s' n' → s ≠ s' → Ref d n b → ¬ Ref d n' b
  inode : ∀ s < 256, (entryAt d s).used ≠ 0 →
    inodeBitAt d ((entryAt d s).inodeNo.toNat - 1) = true

/-- On a consistent directory the inode of every used entry is marked used. -/
theorem DirInv.inode_used {d : Disk} (h : DirInv d) {s : Nat} (hs : s < 256)
    (hused : (entryAt d s).used ≠ 0) : inodeBitAt d ((entryAt d s).inodeNo.toNat - 1) = true := by
  rcases Nat.lt_or_ge s 2 with hlo | hlo
  · -- `.` and `..`: the root directory
    have hroot : (entryAt d s).inodeNo.toNat - 1 = 0 := by rw [h.fixed_inodeNo hlo]
    exact (h.inodeBit _).mpr (Or.inl hroot)
  · have hfile : FileAt d s (entryAt d s).inodeNo.toNat := ⟨hlo, hs, hused, rfl⟩
    have hrange := h.file_range hfile.isFile
    exact (h.inodeBit _).mpr (Or.inr (by rw [Nat.sub_add_cancel (by omega)]; exact hfile.isFile))

theorem safeImage_of_blocks {N : Nat} {d : Disk} {held : Nat → Set Nat} (hdir : DirInv d)
    (h : BlockInv N d held) : SafeImage d where
  used := fun _ n b hs href => (h.used b).mpr (Or.inr ⟨n, h.ref n b hs.isFile href⟩)
  unshared := fun s s' n n' b hs hs' hne href href' => hne <| by
    -- a block has one holder, and an inode has one slot
    have heq := h.disjoint n n' b (h.ref n b hs.isFile href) (h.ref n' b hs'.isFile href')
    exact hdir.inodeNo_inj s s' n hs (heq ▸ hs')
  inode := fun _ hs hused => hdir.inode_used hs hused

theorem World.safe {N : Nat} (w : World N) : SafeImage w.disk := safeImage_of_blocks w.dir w.blocks

theorem FsInv.safe {N : Nat} {d : Disk} (h : FsInv N d) : SafeImage d :=
  safeImage_of_blocks h.dir h.blocks

/-- A safe image whose files have numbers and blocks in their ranges. -/
structure CutImage (d : Disk) : Prop extends SafeImage d where
  number : ∀ n, IsFile d n → 2 ≤ n ∧ n ≤ 256
  block : ∀ n b, IsFile d n → Ref d n b → 6 ≤ b

theorem FsInv.cutImage {N : Nat} {d : Disk} (h : FsInv N d) : CutImage d :=
  { h.safe with
    number := fun _ hn => h.dir.file_range hn
    block := fun n b hn href => (h.blocks.range n b ⟨hn, href⟩).1 }

/-- A change that adds no reference and frees no block or inode in use is safe. -/
theorem CutImage.mono {d d' : Disk} (h : CutImage d) (hdir : d' 5 = d 5)
    (hbit : ∀ b, bitAt d b = true → bitAt d' b = true)
    (href : ∀ n b, IsFile d n → Ref d' n b → Ref d n b)
    (hinode : ∀ s < 256, (entryAt d s).used ≠ 0 →
      inodeBitAt d' ((entryAt d s).inodeNo.toNat - 1) = true) : CutImage d' := by
  have hentry : ∀ s, entryAt d' s = entryAt d s := fun s => by rw [entryAt, entryAt, hdir]
  have hfile : ∀ s n, FileAt d' s n → FileAt d s n := fun s n => (fileAt_of_entry (hentry s) n).mp
  have hisFile : ∀ n, IsFile d' n → IsFile d n := fun n => (isFile_congr hdir n).mp
  refine ⟨⟨fun s n b hs hb => ?_, fun s s' n n' b hs hs' hne hb hb' => ?_, fun s hs hused => ?_⟩,
    fun n hn => h.number n (hisFile n hn),
    fun n b hn hb => h.block n b (hisFile n hn) (href n b (hisFile n hn) hb)⟩
  -- what is referred to now was referred to before
  · exact hbit b (h.used s n b (hfile s n hs) (href n b (hfile s n hs).isFile hb))
  · exact h.unshared s s' n n' b (hfile s n hs) (hfile s' n' hs') hne
      (href n b (hfile s n hs).isFile hb) (href n' b (hfile s' n' hs').isFile hb')
  · rw [hentry] at hused ⊢
    exact hinode s hs hused

end OsProjects.Mfs
