import OsProjects.Lib.BlockFaults
import OsProjects.Mfs.Refinement

/-!
# mfs_create when one transfer fails — which failures are undone

The handler looks the name up, and then makes six transfers: the directory, the inode
bitmap twice, the table block twice, the directory again. A failure before the last of
them is undone (`createFile_allBut`), but the write of the directory itself is not
followed by `free_inode`, and a failing lookup counts as an absent name.
`mfsCreate_atomic_iff` says that these two are the only exceptions.
-/

namespace OsProjects.Mfs

open Bytes Prog

/-- One used slot has the name, and the inode of that slot is marked used. -/
def OnceNamed (d : Disk) (text : List UInt8) : Prop :=
  ∃ s < 256, (entryAt d s).used ≠ 0 ∧ (entryAt d s).text = text ∧
    inodeBitAt d ((entryAt d s).inodeNo.toNat - 1) = true ∧
    ∀ s' < 256, (entryAt d s').used ≠ 0 → (entryAt d s').text = text → s' = s

/-- All or nothing: with 0 the name is there once, with an error directory and inode
bitmap are as before. -/
structure CreateAtomic (d : Disk) (text : List UInt8) (r : Faulty Block Int) : Prop where
  all : r.result = 0 → OnceNamed r.disk text
  nothing : r.result < 0 → r.disk 5 = d 5 ∧ r.disk 2 = d 2

section Atomic

variable {d : Disk} {text : List UInt8} {r : Faulty Block Int}

theorem createAtomic_of_same (hrc : r.result < 0) (hd : r.disk = d) : CreateAtomic d text r :=
  ⟨fun h => by omega, fun _ => by rw [hd]; exact ⟨rfl, rfl⟩⟩

theorem createAtomic_of_zero (hrc : r.result = 0) :
    CreateAtomic d text r ↔ OnceNamed r.disk text :=
  ⟨fun h => h.all hrc, fun h => ⟨fun _ => h, fun hlt => by omega⟩⟩

/-- In a consistent directory every file name is there once. -/
theorem DirInv.onceNamed (hdir : DirInv d) (h1 : text ≠ [46]) (h2 : text ≠ [46, 46]) {s n : Nat}
    (hn : Named d text s n) : OnceNamed d text := by
  refine ⟨s, hn.lt, hn.used, hn.text_eq, hdir.inode_used hn.lt hn.used, ?_⟩
  intro s' hs' hused htext
  rcases Nat.lt_or_ge s' 2 with hlo | hlo
  · -- the two fixed slots have other names
    obtain ⟨fixed, rfl | rfl, hentry⟩ := hdir.fixed_slot hlo
    · rw [hentry, newEntry_text (by decide) (by decide)] at htext
      exact absurd htext.symm h1
    · rw [hentry, newEntry_text (by decide) (by decide)] at htext
      exact absurd htext.symm h2
  · exact hdir.text_inj s' s _ n ⟨hlo, hs', hused, rfl⟩ hn.toFileAt (htext.trans hn.text_eq.symm)

end Atomic

/-! ## The transfers of the handler -/

section Transfers

variable {N : Nat} {d : Disk} {name : CString} {mode : UInt32} {now : UInt64} {o : Nat → Bool}
  {t : Nat}

theorem runWith_findDirEntry (name : CString) : runWith o t (findDirEntry name) d =
    ⟨if o t then lookupEntry (d 5) name else .error (-eio), t + 1, d⟩ := by
  rw [findDirEntry_eq]
  cases ht : o t with
  | true => rw [runWith_read_ok ht]; rfl
  | false => rw [runWith_read_fail ht]; rfl

/-- Without a free slot one transfer is made. -/
theorem createFile_full (hfull : ∀ s, 2 ≤ s → s < 256 → (entryAt d s).used ≠ 0) :
    runWith o t (createFile name mode now) d = ⟨if o t then -enospc else -eio, t + 1, d⟩ := by
  -- the scan for a free slot runs to the end of the directory
  have hslot : (List.range' 2 (mfsDirEntryCount - 2)).find?
      (fun i => (dirEntry (d mfsRootDirBlock) i).used == 0) = none :=
    find_slot_eq_none_iff.mpr hfull
  unfold createFile readRootDir mfsReadBlock
  simp only [readBlock_bind, read_bind]
  cases ht : o t with
  | true =>
    rw [runWith_read_ok ht]
    simp only [pure_eq, done_bind, hslot]
    rfl
  | false =>
    rw [runWith_read_fail ht]
    rfl

/-- The inode bit is given back. -/
theorem runWith_freeInode {i : Nat} (hi : 1 ≤ i ∧ i < 256) (hclear : inodeBitAt d i = false)
    (hall : ∀ j, t ≤ j → o j = true) (rc : Int) :
    (runWith o t (freeInode (numberOf i) >>= fun _ => pure rc)
      (Function.update d 2 (mfsSetBit (d 2) i true))) = ⟨rc, t + 2, d⟩ := by
  have hnum := numberOf_toNat hi.2
  rw [freeInode_eq (by omega) (by omega), read_bind, runWith_read_ok (hall t (Nat.le_refl t))]
  simp only [write_bind, done_bind]
  rw [runWith_write_ok (hall (t + 1) (by omega)), hnum, Nat.add_sub_cancel, Function.update_self,
    setBit_undo hclear, Function.update_idem, Function.update_eq_self]
  rfl

/-- **The six transfers of `mfs_create` behind the lookup**, one of which may fail: the
last one leaves the inode marked, the others are undone. -/
theorem createFile_allBut (hinv : FsInv N d) {s : Nat}
    (hslot : (List.range' 2 (mfsDirEntryCount - 2)).find?
      (fun i => (dirEntry (d mfsRootDirBlock) i).used == 0) = some s) (j : Nat) :
    ∃ i count, Room d s i ∧ runWith (allBut j) 1 (createFile name mode now) d =
      if 1 ≤ j ∧ j ≤ 5 then ⟨-eio, count, d⟩
      else if j = 6 then ⟨-eio, count, reserveDisk d i mode now⟩
      else ⟨0, count, createDisk d s i name.val mode now⟩ := by
  obtain ⟨i, hroom, hfind⟩ := find_room hinv.dir hslot
  have h256 := hroom.inode_lt
  have hnum := numberOf_toNat h256
  have hno : (newInode (numberOf i) mode now).inodeNo.toNat = i + 1 := hnum
  -- behind the first failure everything succeeds
  have hlater : ∀ {t}, j < t → ∀ k, t ≤ k → allBut j k = true := fun hjt k hk =>
    allBut_ne (by omega)
  unfold createFile readRootDir mfsReadBlock
  simp only [readBlock_bind, read_bind]
  by_cases hj1 : j = 1
  · -- the directory
    subst hj1
    rw [runWith_read_fail (allBut_self 1)]
    exact ⟨i, _, hroom, rfl⟩
  rw [runWith_read_ok (allBut_ne (Ne.symm hj1))]
  simp only [pure_eq, done_bind, hslot, allocateInode_eq, read_bind]
  by_cases hj2 : j = 2
  · -- the inode bitmap is read
    subst hj2
    rw [runWith_read_fail (allBut_self 2)]
    exact ⟨i, _, hroom, rfl⟩
  rw [runWith_read_ok (allBut_ne (Ne.symm hj2))]
  simp only [hfind, write_bind]
  by_cases hj3 : j = 3
  · -- the inode bitmap is written
    subst hj3
    rw [runWith_write_fail (allBut_self 3)]
    exact ⟨i, _, hroom, rfl⟩
  rw [runWith_write_ok (allBut_ne (Ne.symm hj3))]
  simp only [if_true, done_bind]
  show ∃ i' count, Room d s i' ∧ runWith (allBut j) 4
    (writeInode (newInode (numberOf i) mode now) >>= fun rc =>
      if rc ≠ 0 then freeInode (numberOf i) >>= fun _ => pure rc
      else writeRootDir (putRec mfsDirEntryLayout (d 5) s (newEntry name.val (numberOf i))))
    (Function.update d 2 (mfsSetBit (d 2) i true)) = _
  rw [writeInode_eq (by omega) (by omega), hno]
  simp only [read_bind]
  by_cases hj4 : j = 4
  · -- the table block is read
    subst hj4
    refine ⟨i, 7, hroom, ?_⟩
    rw [runWith_read_fail (allBut_self 4)]
    exact runWith_freeInode ⟨hroom.one_le, h256⟩ hroom.clear (hlater (by omega)) _
  rw [runWith_read_ok (allBut_ne (Ne.symm hj4))]
  simp only [write_bind]
  by_cases hj5 : j = 5
  · -- the table block is written
    subst hj5
    refine ⟨i, 8, hroom, ?_⟩
    rw [runWith_write_fail (allBut_self 5)]
    exact runWith_freeInode ⟨hroom.one_le, h256⟩ hroom.clear (hlater (by omega)) _
  rw [runWith_write_ok (allBut_ne (Ne.symm hj5))]
  show ∃ i' count, Room d s i' ∧ runWith (allBut j) 6
    (.write 5 (putRec mfsDirEntryLayout (d 5) s (newEntry name.val (numberOf i)))
      fun ok => .done (if ok then 0 else -eio)) (reserveDisk d i mode now) = _
  refine ⟨i, 7, hroom, ?_⟩
  rw [if_neg (by omega)]
  by_cases hj6 : j = 6
  · -- the directory entry: nothing is undone
    subst hj6
    rw [runWith_write_fail (allBut_self 6)]
    rfl
  · rw [runWith_write_ok (allBut_ne (Ne.symm hj6)), if_neg hj6]
    rfl

/-- The inode marked for the new file was clear. -/
theorem reserveDisk_inodeBitmap_ne {s i : Nat} (hroom : Room d s i) :
    reserveDisk d i mode now 2 ≠ d 2 := by
  intro hsame
  have hlt := hroom.inode_lt
  have hd2 : reserveDisk d i mode now 2 = mfsSetBit (d 2) i true := by
    rw [reserveDisk, writeRecord_of_ne (by omega) (by decide) (by decide), Function.update_self]
  have hset : mfsGetBit (reserveDisk d i mode now 2) i = true := by
    have hbit := inodeBitAt_setBit hd2 i
    rwa [if_pos rfl] at hbit
  rw [hsame] at hset
  have hclear : mfsGetBit (d 2) i = false := hroom.clear
  rw [hclear] at hset
  exact absurd hset Bool.false_ne_true

/-- The entry of a new file makes its name unique iff it was absent. -/
theorem onceNamed_createDisk_iff {s i : Nat} (hinv : FsInv N d) (hroom : Room d s i)
    (hvalid : ValidName name.val) :
    OnceNamed (createDisk d s i name.val mode now) name.val ↔ files d name.val = none := by
  have hfile := fileAt_insert hroom.two_le hroom.lt hroom.free
    (@createDisk_dir d s i name.val mode now)
  have hentry := entryAt_putRec (@createDisk_dir d s i name.val mode now)
  have hnum := numberOf_toNat hroom.inode_lt
  have hself : entryAt (createDisk d s i name.val mode now) s = newEntry name.val (numberOf i) := by
    rw [hentry, if_pos rfl]
  have hnamed : Named (createDisk d s i name.val mode now) name.val s (i + 1) :=
    ⟨(hfile s (i + 1)).mpr (Or.inr ⟨rfl, hnum.symm⟩), by rw [hself, hvalid.of_text]⟩
  rw [files_eq_none_iff]
  constructor
  · rintro ⟨s₀, -, -, -, -, huniq⟩ s' n hn
    -- an old slot with the name is another one, as the new one was free
    have hss : s' ≠ s := fun heq => hn.used (heq ▸ hroom.free)
    have hold : entryAt (createDisk d s i name.val mode now) s' = entryAt d s' := by
      rw [hentry, if_neg hss]
    have hs₀ := huniq s hroom.lt hnamed.used hnamed.text_eq
    have hs₀' := huniq s' hn.lt (hold ▸ hn.used) (hold ▸ hn.text_eq)
    exact hss (hs₀'.trans hs₀.symm)
  · intro habsent
    have hnew := @FsInv.create _ d s i name.val mode now hroom hinv hvalid habsent
    exact hnew.dir.onceNamed hvalid.ne_dot hvalid.ne_dotdot hnamed

end Transfers

/-! ## The handler -/

section Handler

variable {N : Nat} {d : Disk} {path : CString} {text : List UInt8} {name : CString}
  {mode : UInt32} {now : UInt64} {j : Nat}

/-- How the handler goes on behind the lookup. -/
theorem runWith_mfsCreate (hname : pathName path = some name) (hne : name.val ≠ [])
    (hlen : name.val.length ≤ 31) :
    runWith (allBut j) 0 (mfsCreate path mode now) d =
      runWith (allBut j) 1 (match (if allBut j 0 then lookupEntry (d 5) name
        else .error (-eio) : Except Int (MfsDirEntry × Nat)) with
      | .ok _ => .done (-eexist)
      | .error _ => createFile name mode now) d := by
  unfold mfsCreate
  rw [hname]
  simp only [if_neg hne]
  rw [if_neg (by simp only [mfsMaxFilename]; omega), runWith_bind, runWith_findDirEntry]
  -- a lookup that fails goes the way of a name that is not there
  cases allBut j 0 with
  | true =>
    rw [if_pos rfl]
    cases lookupEntry (d 5) name <;> rfl
  | false => rfl

/-- Behind a lookup that found nothing, or failed. -/
theorem createFile_atomic_iff (hinv : FsInv N d) (hvalid : ValidName name.val)
    (habsent : j ≠ 0 → files d name.val = none) :
    CreateAtomic d name.val (runWith (allBut j) 1 (createFile name mode now) d) ↔
      ¬ ((∃ s, 2 ≤ s ∧ s < 256 ∧ (entryAt d s).used = 0) ∧
        (files d name.val = none ∧ j = 6 ∨ files d name.val ≠ none ∧ j = 0)) := by
  have heio : (-eio : Int) < 0 := by decide
  cases hslot : (List.range' 2 (mfsDirEntryCount - 2)).find?
      (fun i => (dirEntry (d mfsRootDirBlock) i).used == 0) with
  | none =>
    -- without a free slot nothing is written
    have hfull := find_slot_eq_none_iff.mp hslot
    rw [createFile_full hfull]
    refine iff_of_true (createAtomic_of_same ?_ rfl) ?_
    · show (if _ then -enospc else -eio : Int) < 0
      split <;> decide
    · rintro ⟨⟨s, hlo, hhi, hfree⟩, -⟩
      exact hfull s hlo hhi hfree
  | some s =>
    obtain ⟨i, count, hroom, hfile⟩ := @createFile_allBut _ d name mode now hinv s hslot j
    have hfree : ∃ s, 2 ≤ s ∧ s < 256 ∧ (entryAt d s).used = 0 :=
      ⟨s, hroom.two_le, hroom.lt, hroom.free⟩
    rw [hfile, and_iff_right hfree]
    -- the transfers 1 to 5 are undone, or have changed nothing
    by_cases hundone : 1 ≤ j ∧ j ≤ 5
    · rw [if_pos hundone]
      refine iff_of_true (createAtomic_of_same heio rfl) ?_
      rintro (⟨-, hj⟩ | ⟨-, hj⟩)
      · omega
      · omega
    · rw [if_neg hundone]
      by_cases hj6 : j = 6
      · -- the inode stays marked
        rw [if_pos hj6]
        refine iff_of_false (fun hatomic => ?_) (not_not_intro (Or.inl ⟨habsent ?_, hj6⟩))
        · exact reserveDisk_inodeBitmap_ne hroom (hatomic.nothing heio).2
        · omega
      · -- the entry is written: the name is there once iff it was not there before
        rw [if_neg hj6, createAtomic_of_zero rfl, onceNamed_createDisk_iff hinv hroom hvalid]
        constructor
        · rintro hnone (⟨-, hj⟩ | ⟨hsome, -⟩)
          · exact hj6 hj
          · exact hsome hnone
        · intro hno
          by_contra hsome
          refine hno (Or.inr ⟨hsome, ?_⟩)
          by_contra hj
          exact hsome (habsent hj)

theorem FsInv.create_atomic_iff (hinv : FsInv N d) (hres : Resolved path)
    (hpath : FilePath path text) (hlen : text.length ≤ 31) (mode : UInt32) (now : UInt64)
    (j : Nat) :
    CreateAtomic d text (runWith (allBut j) 0 (mfsCreate path mode now) d) ↔
      ¬ ((∃ s, 2 ≤ s ∧ s < 256 ∧ (entryAt d s).used = 0) ∧
        (files d text = none ∧ j = 6 ∨ files d text ≠ none ∧ j = 0)) := by
  obtain ⟨name, hname, rfl⟩ := hpath.name
  obtain ⟨h1, h2⟩ := hres.name hname
  rw [runWith_mfsCreate hname hpath.nonempty hlen]
  by_cases hthere : ∃ s n, Named d name.val s n ∧ j ≠ 0
  · -- the lookup finds the name
    obtain ⟨s, n, hn, hj⟩ := hthere
    rw [allBut_ne (Ne.symm hj), if_pos rfl, hinv.dir.lookup_ok h1 h2 hn]
    refine iff_of_true (createAtomic_of_same (show (-eexist : Int) < 0 by decide) rfl) ?_
    rintro ⟨-, ⟨hnone, -⟩ | ⟨-, hj0⟩⟩
    · exact files_eq_none_iff.mp hnone s n hn
    · exact hj hj0
  · -- it does not, or it fails
    have habsent : j ≠ 0 → files d name.val = none := fun hj =>
      files_eq_none_iff.mpr fun s n hn => hthere ⟨s, n, hn, hj⟩
    have hcreate : ∃ rc, (if allBut j 0 then lookupEntry (d 5) name else .error (-eio) :
        Except Int (MfsDirEntry × Nat)) = .error rc := by
      by_cases hj : j = 0
      · subst hj
        exact ⟨-eio, by rw [allBut_self, if_neg (by decide)]⟩
      · refine ⟨-enoent, ?_⟩
        rw [allBut_ne (Ne.symm hj), if_pos rfl]
        exact hinv.dir.lookup_error h1 h2 (files_eq_none_iff.mp (habsent hj))
    obtain ⟨rc, hcreate⟩ := hcreate
    rw [hcreate]
    exact createFile_atomic_iff hinv (validName_of_path hres hname hpath.nonempty hlen) habsent

end Handler

/-- **`mfs_create` is all or nothing under one failing transfer** unless the directory
has a free slot and the failing transfer is the directory write behind a new name (the
seventh transfer) or the lookup of an existing one (the first). -/
theorem mfsCreate_atomic_iff {N : UInt32} {d : Disk} {path : CString} {text : List UInt8}
    (h : Reachable N d) (hres : Resolved path) (hpath : FilePath path text)
    (hlen : text.length ≤ 31) (mode : UInt32) (now : UInt64) (j : Nat) :
    CreateAtomic d text (runWith (allBut j) 0 (mfsCreate path mode now) d) ↔
      ¬ ((∃ s, 2 ≤ s ∧ s < 256 ∧ (entryAt d s).used = 0) ∧
        (files d text = none ∧ j = 6 ∨ files d text ≠ none ∧ j = 0)) :=
  h.inv.1.create_atomic_iff hres hpath hlen mode now j

/-- A failing table block is undone: the call for `/b` on the image with `/a`. -/
theorem mfsCreate_atomic_b : CreateAtomic oneFile [98]
    (runWith (allBut 5) 0 (mfsCreate ⟨[47, 98], by decide⟩ 0o644 0) oneFile) := by
  refine (mfsCreate_atomic_iff oneFile_reachable (by decide) ⟨rfl, by decide, by decide⟩
    (by decide) 0o644 0 5).mpr ?_
  rintro ⟨-, ⟨-, hj⟩ | ⟨-, hj⟩⟩
  · exact absurd hj (by decide)
  · exact absurd hj (by decide)

/-- The lookup of `/a` fails, and `/a` is created a second time. -/
theorem mfsCreate_twice : ¬ ∀ (N : UInt32) (d : Disk) (path : CString) (text : List UInt8)
    (mode : UInt32) (now : UInt64) (j : Nat), Reachable N d → Resolved path → FilePath path text →
    text.length ≤ 31 → CreateAtomic d text (runWith (allBut j) 0 (mfsCreate path mode now) d) := by
  intro h
  have hres : Resolved pathA := by decide
  have hpath : FilePath pathA [97] := ⟨rfl, by decide, by decide⟩
  have hatomic := h 128 oneFile pathA [97] 0o644 0 0 oneFile_reachable hres hpath (by decide)
  have hsome : files oneFile [97] ≠ none := fun hnone =>
    files_eq_none_iff.mp hnone 2 2 oneFile_named
  have hfree : ∃ s, 2 ≤ s ∧ s < 256 ∧ (entryAt oneFile s).used = 0 :=
    ⟨3, by decide, by decide, by decide +kernel⟩
  exact (oneFile_reachable.inv.1.create_atomic_iff hres hpath (by decide) 0o644 0 0).mp hatomic
    ⟨hfree, Or.inr ⟨hsome, rfl⟩⟩

end OsProjects.Mfs
