import OsProjects.Mfs.Refinement

/-!
# The inode table — records that outlive their inode

`read_inode` takes a record with number 0 for a missing inode, and the record that
`mfs_unlink` leaves behind keeps its number (`emptyInode`). So the table agrees with the
inode bitmap at `n` (`TableAgrees`) as long as no file with that number is removed, and
the first removal ends it: `runCalls_table_iff` says this of whole runs,
`agrees_after` of one call.
-/

namespace OsProjects.Mfs

open Bytes Prog

/-- `read_inode` on number `n` succeeds iff bit `n - 1` of the inode bitmap is set. -/
def TableAgrees (d : Disk) (n : Nat) : Prop :=
  (∃ inode, (run (readInode (UInt32.ofNat n)) d).1 = .ok inode) ↔ inodeBitAt d (n - 1) = true

/-- The call takes the name of the file with inode `n` away. -/
def Call.Removes (c : Call) (d : Disk) (n : Nat) : Prop :=
  ∃ path text s, c = .unlink path ∧ FilePath path text ∧ Named d text s n

section Image

variable {N : Nat} {d : Disk} {n : Nat}

/-- `read_inode` goes by the number in the record. -/
theorem readInode_ok_iff (h1 : 1 ≤ n) (h256 : n ≤ 256) :
    (∃ inode, (run (readInode (UInt32.ofNat n)) d).1 = .ok inode) ↔ (inodeAt d n).inodeNo ≠ 0 := by
  have hn : (UInt32.ofNat n).toNat = n :=
    UInt32.toNat_ofNat_of_lt' (by simp only [UInt32.size]; omega)
  rw [(returns_readInode d (by omega) (by omega)).run, hn]
  show (∃ inode, loadInode (d (3 + (n - 1) / 128)) n = .ok inode) ↔ _
  unfold loadInode
  by_cases hz : (inodeAt d n).inodeNo = 0
  · rw [if_pos (show (getRec mfsInodeLayout _ _).inodeNo = 0 from hz)]
    exact ⟨fun ⟨_, h⟩ => absurd h (by simp), fun h => absurd hz h⟩
  · rw [if_neg (show ¬ (getRec mfsInodeLayout _ _).inodeNo = 0 from hz)]
    exact ⟨fun _ => hz, fun _ => ⟨_, rfl⟩⟩

/-- On a consistent image only a number that no file has can be wrong. -/
theorem FsInv.agrees_iff (hinv : FsInv N d) (h1 : 1 ≤ n) (h256 : n ≤ 256) :
    TableAgrees d n ↔ n = 1 ∨ IsFile d n ∨ (inodeAt d n).inodeNo = 0 := by
  have hbit := hinv.dir.inodeBit (n - 1)
  rw [Nat.sub_add_cancel h1] at hbit
  rw [TableAgrees, readInode_ok_iff h1 h256, hbit]
  by_cases hroot : n = 1
  · -- the record of the root directory
    obtain ⟨now, hrec⟩ := hinv.root
    have hne : (inodeAt d n).inodeNo ≠ 0 := by
      rw [hroot, hrec]
      show (1 : UInt32) ≠ 0
      decide
    exact ⟨fun _ => Or.inl hroot, fun _ => ⟨fun _ => Or.inl (by omega), fun _ => hne⟩⟩
  · by_cases hfile : IsFile d n
    · -- a file has its number in its record
      have hne : (inodeAt d n).inodeNo ≠ 0 := fun hz => by
        have hno := (hinv.file n hfile).inodeNo
        rw [hz, UInt32.toNat_zero] at hno
        omega
      exact ⟨fun _ => Or.inr (Or.inl hfile), fun _ => ⟨fun _ => Or.inr hfile, fun _ => hne⟩⟩
    · -- the bit is clear, so the record must carry no number
      have hclear : ¬ (n - 1 = 0 ∨ IsFile d n) := by
        rintro (hz | hf)
        · omega
        · exact hfile hf
      rw [iff_false_right hclear, not_not]
      exact ⟨fun hz => Or.inr (Or.inr hz), fun h => (h.resolve_left hroot).resolve_left hfile⟩

end Image

section Step

variable {N : UInt32} {d : Disk} {n : Nat} {c : Call}

/-- What does not touch a record and keeps the files keeps the agreement. -/
theorem agrees_congr {d' : Disk} (hinv : FsInv N.toNat d) (hinv' : FsInv N.toNat d') (h1 : 1 ≤ n)
    (h256 : n ≤ 256) (hfile : IsFile d' n ↔ IsFile d n)
    (hrec : ¬ IsFile d n → inodeAt d' n = inodeAt d n) :
    TableAgrees d' n ↔ TableAgrees d n := by
  rw [hinv.agrees_iff h1 h256, hinv'.agrees_iff h1 h256, hfile]
  by_cases hf : IsFile d n
  · exact ⟨fun _ => Or.inr (Or.inl hf), fun _ => Or.inr (Or.inl hf)⟩
  · rw [hrec hf]

/-- A path that leads to no file removes nothing. -/
theorem not_removes {path : CString}
    (habsent : ∀ text, FilePath path text → files d text = none) (n : Nat) :
    ¬ (Call.unlink path).Removes d n := by
  rintro ⟨path', text, s, heq, hpath, hn⟩
  obtain rfl : path = path' := by injection heq
  exact files_eq_none_iff.mp (habsent text hpath) s n hn

/-- A call that removes nothing because it is none of `mfs_unlink`. -/
theorem not_removes_of_ne (hc : ∀ path, c ≠ .unlink path) : ¬ c.Removes d n := by
  rintro ⟨path, _, _, heq, _⟩
  exact hc path heq

section Calls

variable {path : CString} (hinv : FsInv N.toNat d) (h1 : 1 ≤ n) (h256 : n ≤ 256)
  (hagrees : TableAgrees d n)
include hinv h1 h256 hagrees

theorem agrees_create (hres : Resolved path) (mode : UInt32) (now : UInt64)
    (hinv' : FsInv N.toNat (after N (.create path mode now) d)) :
    TableAgrees (after N (.create path mode now) d) n := by
  have hreply := hinv.run_mfsCreate hres mode now
  rw [after_create.1] at hinv' ⊢
  generalize (run (mfsCreate path mode now) d).1 = rc at hreply
  generalize (run (mfsCreate path mode now) d).2 = d' at hreply hinv'
  cases hreply with
  | @created name s i hpath hne hlen habsent hroom =>
    have hfile := @isFile_createDisk d s i name.val mode now hroom n
    by_cases hni : n = i + 1
    · -- the number just given out belongs to a file now
      exact (hinv'.agrees_iff h1 h256).mpr (Or.inr (Or.inl (hfile.mpr (Or.inr hni))))
    · refine (agrees_congr hinv hinv' h1 h256 ?_ fun _ => ?_).mpr hagrees
      · rw [hfile, or_iff_left hni]
      · rw [inodeAt_createDisk h1 h256, if_neg hni]
  | badPath | tooLong | present | full => exact hagrees

omit h1 h256 hagrees in
/-- There is one file that the call removes. -/
theorem removes_iff {text : List UInt8} {s m : Nat} (hpath : FilePath path text)
    (hm : Named d text s m) : (Call.unlink path).Removes d n ↔ n = m := by
  constructor
  · rintro ⟨path', text', s', heq, hpath', hn⟩
    obtain rfl : path = path' := by injection heq
    have htext := hpath'.unique hpath
    have hss := hinv.dir.text_inj s' s n m hn.toFileAt hm.toFileAt
      (hn.text_eq.trans (htext.trans hm.text_eq.symm))
    exact (hss ▸ hn.toFileAt).unique hm.toFileAt
  · rintro rfl
    exact ⟨path, text, s, rfl, hpath, hm⟩

/-- Behind the removal the table is wrong at this number, and where it was right else. -/
theorem agrees_unlinkDisk {s m : Nat} (hm : FileAt d s m)
    (hinv' : FsInv N.toNat (unlinkDisk (freed d m) s (entryAt d s).inodeNo)) :
    TableAgrees (unlinkDisk (freed d m) s (entryAt d s).inodeNo) n ↔ n ≠ m := by
  have hgone := isFile_unlinkDisk hinv hm
  by_cases hnm : n = m
  · -- the cleared record still carries the number
    subst hnm
    refine iff_of_false (fun h => ?_) (not_not_intro rfl)
    have hrec : inodeAt (unlinkDisk (freed d n) s (entryAt d s).inodeNo) n =
        emptyInode (entryAt d s).inodeNo := by
      rw [unlinkDisk, hm.inodeNo, inodeAt_update_inodeBitmap, inodeAt_writeRecord h1 h1,
        if_pos rfl]
    have hrange := hinv.dir.file_range hm.isFile
    rcases (hinv'.agrees_iff h1 h256).mp h with hroot | hf | hz
    · omega
    · exact ((hgone n).mp hf).2 rfl
    · rw [hrec] at hz
      have hzero : (entryAt d s).inodeNo.toNat = 0 := congrArg UInt32.toNat hz
      have hno := hm.inodeNo
      omega
  · -- another record is not touched
    refine iff_of_true ((agrees_congr hinv hinv' h1 h256 ?_ fun _ => ?_).mpr hagrees) hnm
    · rw [hgone, and_iff_left hnm]
    · exact inodeAt_unlinkDisk hinv hm h1 h256 hnm

end Calls

/-- **One call keeps the agreement unless it removes the file with that number.** -/
theorem agrees_after (hinv : FsInv N.toNat d) (hN4 : N.toNat ≤ 4096)
    (hres : Resolved c.path) (h1 : 1 ≤ n) (h256 : n ≤ 256) (hagrees : TableAgrees d n) :
    TableAgrees (after N c d) n ↔ ¬ c.Removes d n := by
  have hinv' : FsInv N.toNat (after N c d) := hinv.after hN4 hres
  -- a call that leaves the image
  have hquiet : ∀ {r}, Returns (handle (formatSuperblock N) c) d r → ¬ c.Removes d n →
      (TableAgrees (after N c d) n ↔ ¬ c.Removes d n) := by
    intro r hret hno
    rw [(after_of_returns hret).1]
    exact iff_of_true hagrees hno
  cases c with
  | create path mode now =>
    have hno : ¬ (Call.create path mode now).Removes d n :=
      not_removes_of_ne fun _ h => by injection h
    exact iff_of_true (agrees_create hinv h1 h256 hagrees hres mode now hinv') hno
  | unlink path =>
    by_cases habsent : ∀ text, FilePath path text → files d text = none
    · obtain ⟨rc, hret, -⟩ := returns_mfsUnlink hinv hres habsent
      exact hquiet (hret.bind returns_done) (not_removes habsent n)
    · obtain ⟨name, s, m, hpath, hdot, hdotdot, hfile, hm⟩ := exists_named habsent hres
      have hafter : after N (.unlink path) d =
          unlinkDisk (freed d m) s (entryAt d s).inodeNo := by
        rw [after_unlink.1, run_mfsUnlink hinv hpath hdot hdotdot hm]
      rw [hafter] at hinv' ⊢
      rw [removes_iff hinv hfile hm]
      exact agrees_unlinkDisk hinv h1 h256 hagrees hm.toFileAt hinv'
  | write path buf offset now =>
    have hno : ¬ (Call.write path buf offset now).Removes d n :=
      not_removes_of_ne fun _ h => by injection h
    by_cases hnone : buf = [] ∨ ∀ text, FilePath path text → files d text = none
    · obtain ⟨rc, hret, -⟩ := returns_mfsWrite offset now hinv hres hnone
      exact hquiet (hret.bind returns_done) hno
    · obtain ⟨name, s, m, hpath, hdot, hdotdot, -, hm⟩ := exists_named (not_or.mp hnone).2 hres
      obtain ⟨_, w', _, hguar, hdisk, _⟩ :=
        run_mfsWrite_world buf offset now hinv hN4 hpath hdot hdotdot hm
      have hafter : after N (.write path buf offset now) d = w'.disk := by
        rw [hdisk, after_write.1]
      rw [hafter] at hinv' ⊢
      -- the write changes the record of its own file only
      refine iff_of_true ((agrees_congr hinv hinv' h1 h256 ?_ fun hfree => ?_).mpr hagrees) hno
      · exact isFile_congr hguar.dir.rootDir n
      · have hnm : n ≠ m := by
          rintro rfl
          exact hfree hm.toFileAt.isFile
        exact hguar.record n h1 h256 hnm
  | getattr path | readdir path | openFile path | read path =>
    obtain ⟨r, hret⟩ := hinv.returns_of_reads hres trivial
    exact hquiet hret (not_removes_of_ne fun _ h => by injection h)

end Step

/-! ## Runs -/

/-- A run that starts consistent and in agreement at `n`. -/
theorem run_table_iff {N : UInt32} {n : Nat} (hN4 : N.toNat ≤ 4096) (h1 : 1 ≤ n)
    (h256 : n ≤ 256) {cs : List Call} {d : Disk} (hinv : FsInv N.toNat d)
    (hres : ∀ c ∈ cs, Resolved c.path) (hagrees : TableAgrees d n) :
    (∀ cs₁ cs₂, cs = cs₁ ++ cs₂ → TableAgrees (runCalls N cs₁ d).2 n) ↔
      ∀ cs₁ c cs₂, cs = cs₁ ++ c :: cs₂ → ¬ c.Removes (runCalls N cs₁ d).2 n := by
  induction cs generalizing d with
  | nil =>
    refine iff_of_true (fun cs₁ cs₂ h => ?_) (fun cs₁ c cs₂ h => by simp at h)
    obtain ⟨rfl, -⟩ := List.nil_eq_append_iff.mp h
    exact hagrees
  | cons c cs ih =>
    rw [List.forall_mem_cons] at hres
    have hstep := agrees_after hinv hN4 hres.1 h1 h256 hagrees
    have hrest := @ih _ (hinv.after hN4 hres.1) hres.2
    constructor
    · intro hall cs₁ c' cs₂ heq
      -- the state behind the first call, and then the rest of the run
      have hnext : TableAgrees (after N c d) n := hall [c] cs rfl
      rcases List.cons_eq_append_iff.mp heq with ⟨rfl, hcons⟩ | ⟨cs₁, rfl, hcs⟩
      · obtain ⟨rfl, -⟩ := List.cons_eq_cons.mp hcons
        exact hstep.mp hnext
      · exact (hrest hnext).mp (fun ds₁ ds₂ hds => hall (c :: ds₁) ds₂ (by rw [hds]; rfl)) cs₁ c'
          cs₂ hcs
    · intro hno cs₁ cs₂ heq
      rcases List.cons_eq_append_iff.mp heq with ⟨rfl, -⟩ | ⟨cs₁, rfl, hcs⟩
      · exact hagrees
      · have hnext := hstep.mpr (hno [] c cs rfl)
        exact (hrest hnext).mpr (fun ds₁ c' ds₂ hds => hno (c :: ds₁) c' ds₂ (by rw [hds]; rfl))
          cs₁ cs₂ hcs

theorem formatDisk_agrees {N : UInt32} {now : UInt64} {old : Disk} {n : Nat} (h1 : 1 ≤ n)
    (h256 : n ≤ 256) : TableAgrees (formatDisk N now old) n := by
  rw [formatDisk_inv.agrees_iff h1 h256]
  by_cases hroot : n = 1
  · exact Or.inl hroot
  · -- the records behind the first are cleared
    refine Or.inr (Or.inr ?_)
    unfold inodeAt
    by_cases hblock : (n - 1) / 128 = 0
    · rw [hblock]
      show (getRec mfsInodeLayout (putRec mfsInodeLayout zero 0 (rootInode now)) _).inodeNo = 0
      rw [getRec_putRec, if_neg (by omega)]
      rfl
    · rw [show (n - 1) / 128 = 1 by omega]
      rfl

/-- **Inode `n` is found iff its bit is set, in every state of a run from the format,
exactly when no call of the run removes a file with that number.** -/
theorem runCalls_table_iff {N : UInt32} (now : UInt64) (old : Disk) (cs : List Call) (n : Nat)
    (accepted : (run (makeMfs N now) old).1 = 0) (hres : ∀ c ∈ cs, Resolved c.path) (h1 : 1 ≤ n)
    (h256 : n ≤ 256) :
    (∀ cs₁ cs₂, cs = cs₁ ++ cs₂ → TableAgrees (runCalls N cs₁ (format N now old)).2 n) ↔
      ∀ cs₁ c cs₂, cs = cs₁ ++ c :: cs₂ → ¬ c.Removes (runCalls N cs₁ (format N now old)).2 n := by
  rw [format_eq accepted]
  exact run_table_iff (makeMfs_accepts accepted).2 h1 h256 formatDisk_inv hres
    (formatDisk_agrees h1 h256)

/-- No file is removed on the way to the image with one file. -/
theorem oneFile_agrees : TableAgrees oneFile 2 := by
  have hrun : oneFile = (runCalls 128 [.create pathA 0o644 0, .write pathA [120] 0 0]
      (format 128 0 fun _ => zero)).2 := rfl
  rw [hrun]
  refine (runCalls_table_iff 0 (fun _ => zero) [.create pathA 0o644 0, .write pathA [120] 0 0] 2
    (by decide) (by decide) (by decide) (by decide)).mpr ?_ _ [] (List.append_nil _).symm
  rintro cs₁ c cs₂ heq ⟨path, -, -, rfl, -⟩
  have hmem : Call.unlink path ∈ [Call.create pathA 0o644 0, Call.write pathA [120] 0 0] := by
    rw [heq]
    simp
  simp at hmem

/-- `/a` is removed, and `read_inode` still finds its inode. -/
theorem unlink_disagrees : ¬ ∀ (N : UInt32) (d : Disk), Reachable N d →
    ∀ n, 1 ≤ n → n ≤ 256 → TableAgrees d n := by
  intro h
  have hinv := oneFile_reachable.inv
  have hbefore : TableAgrees oneFile 2 :=
    (hinv.1.agrees_iff (by decide) (by decide)).mpr (Or.inr (Or.inl oneFile_named.toFileAt.isFile))
  have hres : Resolved (Call.unlink pathA).path := by decide
  have hafter := h 128 _ (.call (.unlink pathA) oneFile_reachable hres) 2 (by decide) (by decide)
  have hremoved : (Call.unlink pathA).Removes oneFile 2 :=
    ⟨pathA, [97], 2, rfl, ⟨rfl, by decide, by decide⟩, oneFile_named⟩
  exact (agrees_after hinv.1 hinv.2.2 hres (by decide) (by decide) hbefore).mp hafter hremoved

end OsProjects.Mfs
