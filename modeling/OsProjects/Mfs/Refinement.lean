import OsProjects.Mfs.Format
import OsProjects.Mfs.Unlink
import OsProjects.Mfs.Write

/-!
# Refinement — MFS is a file map

Each handler call takes a consistent image to a consistent image (`FsInv.after`) and,
for the requests FUSE makes, is a step of the file map (`FsInv.step`). By induction over
the calls every image between two calls is consistent (`Reachable.inv`), and every
sequence of calls from the format is a run of the abstract file system
(`runCalls_refines`).
-/

namespace OsProjects.Mfs

open Bytes Prog

/-- The requests FUSE makes: `.` and `..` resolved, sizes below 2^31, no negative offset. -/
def Call.Admissible : Call → Prop
  | .read path size offset => Resolved path ∧ size < 2 ^ 31 ∧ 0 ≤ offset
  | .write path buf offset _ => Resolved path ∧ buf.length < 2 ^ 31 ∧ 0 ≤ offset
  | c => Resolved c.path

instance : (c : Call) → Decidable c.Admissible
  | .read path size offset =>
    inferInstanceAs (Decidable (Resolved path ∧ size < 2 ^ 31 ∧ 0 ≤ offset))
  | .write path buf offset _ =>
    inferInstanceAs (Decidable (Resolved path ∧ buf.length < 2 ^ 31 ∧ 0 ≤ offset))
  | .getattr path | .readdir path | .create path _ _ | .openFile path | .unlink path =>
    inferInstanceAs (Decidable (Resolved path))

section Step

variable {N : UInt32} {d : Disk} {c : Call}

/-- A call that writes nothing. -/
theorem after_of_returns {r : Reply} (h : Returns (handle (formatSuperblock N) c) d r) :
    after N c d = d ∧ reply N c d = r := by
  rw [after, reply, h.run]
  exact ⟨rfl, rfl⟩

section Create

variable {path : CString} {mode : UInt32} {now : UInt64}

theorem createReply_step (hinv : FsInv N.toNat d) (hres : Resolved path) {rc : Int} {d' : Disk}
    (h : CreateReply d path mode now rc d') :
    FsInv N.toNat d' ∧ FsStep (files d) (.create path mode now) (.status rc) (files d') := by
  cases h with
  | badPath hbad =>
    refine ⟨hinv, .createElse fun text hfile => ?_⟩
    obtain ⟨name, hpath, rfl⟩ := hfile.name
    exact hfile.nonempty (hbad name hpath)
  | @tooLong name hpath hlong =>
    have hne : name.val ≠ [] := List.ne_nil_of_length_pos (by omega)
    exact ⟨hinv, .createLong (filePath_of_name hpath hne) hlong⟩
  | @present name s n hpath hlen hn =>
    have hvalid := hinv.dir.valid_named hn
    refine ⟨hinv, .createExists (filePath_of_name hpath (List.ne_nil_of_length_pos hvalid.pos)) ?_⟩
    rw [hinv.dir.files_eq hn]
    simp
  | full hpath hne hlen habsent hfull =>
    refine ⟨hinv, .createFull (filePath_of_name hpath hne) (files_eq_none_iff.mpr habsent) ?_⟩
    -- no slot is free, so there are 254 names
    rw [← not_lt, ← hinv.dir.free_slot_iff]
    rintro ⟨s, h2, h256, hfree⟩
    exact hfull s h2 h256 hfree
  | created hpath hne hlen habsent hroom =>
    have hvalid := validName_of_path hres hpath hne hlen
    refine ⟨hinv.create hroom hvalid habsent, ?_⟩
    rw [files_createDisk hroom hinv hvalid habsent]
    exact .create (filePath_of_name hpath hne) hlen (files_eq_none_iff.mpr habsent)
      (hinv.dir.free_slot_iff.mp ⟨_, hroom.two_le, hroom.lt, hroom.free⟩)

/-- A run of `mfs_create`. -/
theorem FsInv.run_mfsCreate (hinv : FsInv N.toNat d) (hres : Resolved path) (mode : UInt32)
    (now : UInt64) : CreateReply d path mode now (run (mfsCreate path mode now) d).1
      (run (mfsCreate path mode now) d).2 := by
  -- the rule of `mfs_create`, with no failures
  have hwp : wp (.alone CutImage False) (mfsCreate path mode now) _ ⟨d, hinv.cutImage⟩ :=
    wp_mfsCreate hinv hres _ rfl
  obtain ⟨_, hpost⟩ := run_of_wp_alone hwp
  exact hpost id

theorem FsInv.step_create (hinv : FsInv N.toNat d) (hres : Resolved path) :
    FsInv N.toNat (after N (.create path mode now) d) ∧
      FsStep (files d) (.create path mode now) (reply N (.create path mode now) d)
        (files (after N (.create path mode now) d)) := by
  have hstep := createReply_step hinv hres (hinv.run_mfsCreate hres mode now)
  rw [after_create.1, after_create.2]
  exact hstep

end Create

theorem FsInv.step_unlink {path : CString} (hinv : FsInv N.toNat d) (hres : Resolved path) :
    FsInv N.toNat (after N (.unlink path) d) ∧
      FsStep (files d) (.unlink path) (reply N (.unlink path) d)
        (files (after N (.unlink path) d)) := by
  -- on whether there is such a file
  by_cases habsent : ∀ text, FilePath path text → files d text = none
  · obtain ⟨rc, hret, hstep⟩ := returns_mfsUnlink hinv hres habsent
    obtain ⟨hafter, hreply⟩ := after_of_returns (c := .unlink path) (hret.bind returns_done)
    rw [hafter, hreply]
    exact ⟨hinv, hstep⟩
  · obtain ⟨name, s, n, hpath, h1, h2, hfile, hn⟩ := exists_named habsent hres
    rw [after_unlink.1, after_unlink.2, run_mfsUnlink hinv hpath h1 h2 hn]
    refine ⟨hinv.unlink hn.toFileAt, ?_⟩
    show FsStep _ _ _ (files (unlinkDisk (freed d n) s (entryAt d s).inodeNo))
    rw [files_unlinkDisk hinv hn]
    exact .unlink hfile (mem_names_iff.mpr ⟨s, n, hn⟩)

theorem FsInv.step_write {path : CString} {buf : List UInt8} {offset : Int} {now : UInt64}
    (hinv : FsInv N.toNat d) (hN4 : N.toNat ≤ 4096) (hres : Resolved path) :
    FsInv N.toNat (after N (.write path buf offset now) d) ∧
      FsStep (files d) (.write path buf offset now) (reply N (.write path buf offset now) d)
        (files (after N (.write path buf offset now) d)) := by
  by_cases hnone : buf = [] ∨ ∀ text, FilePath path text → files d text = none
  · obtain ⟨rc, hret, hstep⟩ := returns_mfsWrite offset now hinv hres hnone
    obtain ⟨hafter, hreply⟩ :=
      after_of_returns (c := .write path buf offset now) (hret.bind returns_done)
    rw [hafter, hreply]
    exact ⟨hinv, hstep⟩
  · obtain ⟨hbuf, hsome⟩ := not_or.mp hnone
    obtain ⟨name, s, n, hpath, h1, h2, hfile, hn⟩ := exists_named hsome hres
    obtain ⟨m, hreply, hinv', hfiles⟩ :=
      run_mfsWrite buf offset now hinv hN4 hpath h1 h2 hn
    rw [after_write.1, after_write.2]
    refine ⟨hinv', ?_⟩
    rw [hfiles]
    generalize (run (mfsWrite (formatSuperblock N) path buf offset now) d).1 = rc at hreply
    have hold := hinv.dir.files_eq hn
    -- an append of no bytes leaves the map as it is
    have hsame : Function.update (files d) name.val
        (some ⟨(inodeAt d n).mode &&& 0o777, content d n ++ buf.take 0⟩) = files d := by
      rw [List.take_zero, List.append_nil]
      exact Function.update_eq_self_iff.mpr hold.symm
    cases hreply with
    | empty hempty => exact absurd hempty hbuf
    | notAppend _ hoff =>
      rw [hsame]
      exact .writeInside (f := fileOf d n) hbuf hfile hold hoff
    | noSpace _ hoff =>
      rw [hsame, hoff]
      exact .writeFull (f := fileOf d n) hbuf hfile hold
    | wrote hpos hle hoff =>
      rw [hoff]
      exact .write (f := fileOf d n) hfile hold hpos hle

/-- **One call is one step of the file map.** -/
theorem FsInv.step (hinv : FsInv N.toNat d) (hN4 : N.toNat ≤ 4096) (hc : c.Admissible) :
    FsInv N.toNat (after N c d) ∧ FsStep (files d) c (reply N c d) (files (after N c d)) := by
  -- a call without writes is a step that leaves the map
  have hquiet : ∀ {r}, Returns (handle (formatSuperblock N) c) d r →
      FsStep (files d) c r (files d) →
      FsInv N.toNat (after N c d) ∧ FsStep (files d) c (reply N c d) (files (after N c d)) :=
    fun hret hstep => by
      obtain ⟨hafter, hreply⟩ := after_of_returns hret
      rw [hafter, hreply]
      exact ⟨hinv, hstep⟩
  cases c with
  | getattr path =>
    obtain ⟨r, hret, hstep⟩ := returns_mfsGetattr hinv hc
    exact hquiet (hret.bind returns_done) hstep
  | readdir path =>
    obtain ⟨r, hret, hstep⟩ := returns_mfsReaddir path hinv
    exact hquiet (hret.bind returns_done) hstep
  | create path mode now => exact hinv.step_create hc
  | openFile path =>
    obtain ⟨r, hret, hstep⟩ := returns_mfsOpen hinv hc
    exact hquiet (hret.bind returns_done) hstep
  | unlink path => exact hinv.step_unlink hc
  | read path size offset =>
    obtain ⟨r, hret, hstep⟩ := returns_mfsRead hinv hc.1 hc.2.1 hc.2.2
    exact hquiet (hret.bind returns_done) hstep
  | write path buf offset now => exact hinv.step_write hN4 hc.1

/-- The calls that only read do not write, whatever their sizes and offsets. -/
theorem FsInv.returns_of_reads (hinv : FsInv N.toNat d) (hres : Resolved c.path) (hc : c.Reads) :
    ∃ r, Returns (handle (formatSuperblock N) c) d r := by
  cases c with
  | getattr path =>
    obtain ⟨r, hret, _⟩ := returns_mfsGetattr hinv hres
    exact ⟨_, hret.bind returns_done⟩
  | readdir path =>
    obtain ⟨r, hret, _⟩ := returns_mfsReaddir path hinv
    exact ⟨_, hret.bind returns_done⟩
  | openFile path =>
    obtain ⟨r, hret, _⟩ := returns_mfsOpen hinv hres
    exact ⟨_, hret.bind returns_done⟩
  | read path size offset =>
    obtain ⟨r, hret⟩ := mfsRead_returns hinv hres size offset
    exact ⟨_, hret.bind returns_done⟩
  | create | unlink | write => exact absurd hc id

/-- A call keeps the invariant, whatever its sizes and offsets. -/
theorem FsInv.after (hinv : FsInv N.toNat d) (hN4 : N.toNat ≤ 4096) (hres : Resolved c.path) :
    FsInv N.toNat (after N c d) := by
  have hquiet : c.Reads → FsInv N.toNat (Mfs.after N c d) := fun hc => by
    obtain ⟨r, hret⟩ := hinv.returns_of_reads hres hc
    rw [(after_of_returns hret).1]
    exact hinv
  cases c with
  | create path mode now => exact (hinv.step_create hres).1
  | unlink path => exact (hinv.step_unlink hres).1
  | write path buf offset now => exact (hinv.step_write hN4 hres).1
  | _ => exact hquiet trivial

/-- **Every image between two calls is consistent.** -/
theorem Reachable.inv (h : Reachable N d) : FsInv N.toNat d ∧ 128 ≤ N.toNat ∧ N.toNat ≤ 4096 := by
  induction h with
  | format old now accepted =>
    rw [format_eq accepted]
    exact ⟨formatDisk_inv, makeMfs_accepts accepted⟩
  | call c _ hres ih => exact ⟨ih.1.after ih.2.2 hres, ih.2⟩

end Step

/-! ## Sequences of calls -/

/-- The replies of a sequence of calls, and the image behind it. -/
def runCalls (N : UInt32) : List Call → Disk → List Reply × Disk
  | [], d => ([], d)
  | c :: rest, d =>
    (reply N c d :: (runCalls N rest (after N c d)).1, (runCalls N rest (after N c d)).2)

theorem FsInv.run {N : UInt32} {cs : List Call} {d : Disk} (hinv : FsInv N.toNat d)
    (hN4 : N.toNat ≤ 4096) (hcs : ∀ c ∈ cs, c.Admissible) :
    FsInv N.toNat (runCalls N cs d).2 ∧
      FsRun (files d) (cs.zip (runCalls N cs d).1) (files (runCalls N cs d).2) := by
  -- the invariant carries the induction: each call starts where the one before ended
  induction cs generalizing d with
  | nil => exact ⟨hinv, .nil _⟩
  | cons c rest ih =>
    rw [List.forall_mem_cons] at hcs
    obtain ⟨hnext, hstep⟩ := hinv.step hN4 hcs.1
    obtain ⟨hend, hrun⟩ := ih hnext hcs.2
    exact ⟨hend, .cons hstep hrun⟩

theorem files_formatDisk (N : UInt32) (now : UInt64) (old : Disk) :
    files (formatDisk N now old) = FileMap.empty := by
  funext text
  exact files_eq_none_iff.mpr fun _ n hn => formatDisk_no_file n hn.toFileAt.isFile

/-- The superblock of a consistent image is accepted at mount time. -/
theorem FsInv.returns_loadSuperblock {N : UInt32} {d : Disk} (hinv : FsInv N.toNat d) :
    Returns loadSuperblock d (some (formatSuperblock N)) := by
  unfold loadSuperblock mfsReadBlock
  rw [readBlock_bind]
  refine returns_read ?_
  have hsuper : getRec mfsSuperblockLayout (d mfsSuperBlock) 0 = formatSuperblock N := by
    rw [hinv.super, UInt32.ofNat_toNat]
  simp only [hsuper]
  exact returns_done

theorem runCalls_length (N : UInt32) (cs : List Call) (d : Disk) :
    (runCalls N cs d).1.length = cs.length := by
  induction cs generalizing d with
  | nil => rfl
  | cons c rest ih => rw [runCalls, List.length_cons, List.length_cons, ih]

/-- **MFS refines the file map.** From the image `make_mfs` writes on a disk of any
accepted size, every sequence of calls is a run of the abstract file system from the
empty map; in the end, too, the map is what the disk says. -/
theorem runCalls_refines {N : UInt32} (now : UInt64) (old : Disk) (h128 : 128 ≤ N.toNat)
    (h4096 : N.toNat ≤ 4096) (cs : List Call) (hcs : ∀ c ∈ cs, c.Admissible) :
    run (makeMfs N now) old = (0, format N now old) ∧
    run loadSuperblock (format N now old) = (some (formatSuperblock N), format N now old) ∧
    FsRun FileMap.empty (cs.zip (runCalls N cs (format N now old)).1)
      (files (runCalls N cs (format N now old)).2) ∧
    (runCalls N cs (format N now old)).1.length = cs.length ∧
    ∀ text ∈ (files (runCalls N cs (format N now old)).2).names, ValidName text := by
  -- formatting succeeds, and its image is consistent
  have hmake := run_makeMfs h128 h4096 now old
  have hformat : format N now old = formatDisk N now old := by rw [format, hmake]
  have hinv : FsInv N.toNat (format N now old) := hformat ▸ formatDisk_inv
  have hempty : files (format N now old) = FileMap.empty := hformat ▸ files_formatDisk N now old
  obtain ⟨hend, hrun⟩ := hinv.run h4096 hcs
  rw [hempty] at hrun
  exact ⟨by rw [hmake, hformat], hinv.returns_loadSuperblock.run, hrun, runCalls_length N cs _,
    fun text htext => hend.dir.names_valid htext⟩

/-- A file is created, written, read, listed and removed. -/
def demoCalls : List Call :=
  [.create pathA 0o644 0, .write pathA [104, 105] 0 0, .read pathA 10 1,
    .readdir ⟨[47], by decide⟩, .getattr pathA, .unlink pathA, .openFile pathA]

theorem runCalls_refines_demo : FsRun FileMap.empty
    (demoCalls.zip (runCalls 128 demoCalls (format 128 0 fun _ => zero)).1)
    (files (runCalls 128 demoCalls (format 128 0 fun _ => zero)).2) :=
  (runCalls_refines 0 (fun _ => zero) (by decide) (by decide) demoCalls (by decide)).2.2.1

end OsProjects.Mfs
