import OsProjects.Mfs.Append
import OsProjects.Mfs.Files
import OsProjects.Mfs.Queries

/-!
# mfs_write on a quiet disk — the file grows, nothing else changes

`wp_mfsWrite` is a rule about a write among others. Here the disk starts and ends
consistent with no write running: the image is a world in which every file holds what
it refers to (`FsInv.world`), and so is the image behind the call
(`FsInv.of_appended`). `run_mfsWrite` is the effect on the file map, and
`returns_mfsWrite` the calls that do not get as far as a file.
-/

namespace OsProjects.Mfs

open Bytes Prog

variable {N : Nat} {d : Disk} {n : Nat}

/-- A quiet image as a world. -/
def FsInv.world (h : FsInv N d) : World N := ⟨d, refs d, h.dir, h.blocks⟩

theorem FsInv.appended (h : FsInv N d) (hn : IsFile d n) :
    Appended n (inodeAt d n).mode (content d n) h.world :=
  ⟨hn, h.file n hn, rfl, rfl, fun _ hb => hb.2⟩

section Quiet

variable {w' : World N} {mode : UInt32} {bytes : List UInt8}

/-- Files the write is not about keep their records and blocks. -/
theorem FsInv.kept (h : FsInv N d) (hguar : Guar n h.world w') {m : Nat} (hm : IsFile d m)
    (hne : m ≠ n) : inodeAt w'.disk m = inodeAt d m ∧
      ∀ b, b = indexAt d m ∨ Ref d m b → w'.disk b = d b := by
  have hrange := h.dir.file_range hm
  refine ⟨hguar.record m (by omega) hrange.2 hne, ?_⟩
  intro b hb
  rcases zero_or_mem_refs hm hb with rfl | hmem
  · exact hguar.dir.super
  · exact hguar.block m hne b hmem

/-- Behind the write, too, every file holds what it refers to. -/
theorem FsInv.refs_eq_held (h : FsInv N d) (hguar : Guar n h.world w')
    (happ : Appended n mode bytes w') : refs w'.disk = w'.held := by
  funext m
  ext b
  by_cases hmn : m = n
  · -- the file written holds just what it refers to (`Appended.exact`)
    subst hmn
    exact ⟨fun hb => w'.blocks.ref m b hb.1 hb.2, fun hb => ⟨happ.file, happ.exact b hb⟩⟩
  · -- the other files keep their records and index blocks
    rw [hguar.held m hmn]
    show (IsFile _ m ∧ Ref _ m b) ↔ (IsFile d m ∧ Ref d m b)
    have hfile := isFile_congr hguar.dir.rootDir m
    constructor
    · rintro ⟨hm, hb⟩
      obtain ⟨hrec, hblk⟩ := h.kept hguar (hfile.mp hm) hmn
      exact ⟨hfile.mp hm, (ref_congr hrec (hblk _ (Or.inl rfl)) b).mp hb⟩
    · rintro ⟨hm, hb⟩
      obtain ⟨hrec, hblk⟩ := h.kept hguar hm hmn
      exact ⟨hfile.mpr hm, (ref_congr hrec (hblk _ (Or.inl rfl)) b).mpr hb⟩

/-- **A write keeps the invariant.** -/
theorem FsInv.of_appended (h : FsInv N d) (hguar : Guar n h.world w')
    (happ : Appended n mode bytes w') : FsInv N w'.disk := by
  refine ⟨?_, ?_, w'.dir, ?_, ?_⟩
  · -- the superblock
    rw [hguar.dir.super]
    exact h.super
  · -- the root directory has a number of its own
    have hlo := (w'.dir.file_range happ.file).1
    rw [hguar.record 1 (by omega) (by omega) (by omega)]
    exact h.root
  · rw [h.refs_eq_held hguar happ]
    exact w'.blocks
  · -- the file that was written, or another one
    intro m hm
    by_cases hmn : m = n
    · rw [hmn]
      exact happ.ok
    · -- any other file is as it was
      have hm' := (isFile_congr hguar.dir.rootDir m).mp hm
      obtain ⟨hrec, hblk⟩ := h.kept hguar hm' hmn
      exact fileOk_congr (h.file m hm') hrec (hblk _ (Or.inl rfl))

theorem named_congr {d' : Disk} (hdir : d' 5 = d 5) {text : List UInt8} {s m : Nat} :
    Named d' text s m ↔ Named d text s m := by
  have hentry : entryAt d' s = entryAt d s := by rw [entryAt, entryAt, hdir]
  constructor
  · intro hm
    exact ⟨(fileAt_of_entry hentry m).mp hm.toFileAt, hentry ▸ hm.text_eq⟩
  · intro hm
    exact ⟨(fileAt_of_entry hentry m).mpr hm.toFileAt, hentry.symm ▸ hm.text_eq⟩

/-- **A write changes the bytes of one file.** -/
theorem FsInv.files_of_appended (h : FsInv N d) (hguar : Guar n h.world w')
    (happ : Appended n mode bytes w') {text : List UInt8} {s : Nat} (hn : Named d text s n) :
    files w'.disk = Function.update (files d) text (some ⟨mode &&& 0o777, bytes⟩) := by
  have hdir : w'.disk 5 = d 5 := hguar.dir.rootDir
  funext t
  by_cases ht : t = text
  · subst ht
    rw [Function.update_self, w'.dir.files_eq ((named_congr hdir).mpr hn), fileOf, happ.mode,
      happ.content]
  · rw [Function.update_of_ne ht]
    cases hold : files d t with
    | none =>
      exact files_eq_none_iff.mpr fun s' m hm =>
        files_eq_none_iff.mp hold s' m ((named_congr hdir).mp hm)
    | some f =>
      -- another file: not the one written, so it is kept
      obtain ⟨s', m, hm, rfl⟩ := h.dir.files_eq_some_iff.mp hold
      have hmn : m ≠ n := by
        rintro rfl
        have hss := h.dir.inodeNo_inj s' s m hm.toFileAt hn.toFileAt
        subst hss
        exact ht (hm.text_eq.symm.trans hn.text_eq)
      obtain ⟨hrec, hblk⟩ := h.kept hguar hm.toFileAt.isFile hmn
      rw [w'.dir.files_eq ((named_congr hdir).mpr hm),
        fileOf_congr (h.file m hm.toFileAt.isFile) hrec fun b hb => hblk b (Or.inr hb)]

end Quiet

section Handler

variable {N : UInt32} {d : Disk} {path name : CString} {s n : Nat} {buf : List UInt8}
  {offset : Int} {now : UInt64}

/-- Without a file to write to, or bytes to write, nothing is written. -/
theorem returns_mfsWrite (offset : Int) (now : UInt64) (h : FsInv N.toNat d) (hres : Resolved path)
    (hnone : buf = [] ∨ ∀ text, FilePath path text → files d text = none) :
    ∃ rc, Returns (mfsWrite (formatSuperblock N) path buf offset now) d rc ∧
      FsStep (files d) (.write path buf offset now) (.status rc) (files d) := by
  unfold mfsWrite
  -- an empty buffer is acknowledged before anything is checked
  by_cases hbuf : buf = []
  · rw [if_pos (by rw [hbuf]; rfl), hbuf]
    exact ⟨_, returns_done, .writeNothing⟩
  · rw [if_neg (by simpa using hbuf)]
    have habsent := hnone.resolve_left hbuf
    cases h.dir.pathCase hres with
    | malformed hpath _ hno =>
      rw [hpath]
      exact ⟨_, returns_done, .writeElse hbuf hno⟩
    | root hpath hempty _ hno =>
      rw [hpath]
      simp only [if_pos hempty]
      exact ⟨_, returns_done, .writeElse hbuf hno⟩
    | absent hpath hne hfile hfiles hlookup =>
      rw [hpath]
      simp only [if_neg hne]
      refine ⟨-enoent, (returns_findDirEntry d _).bind ?_, .writeAbsent hbuf hfile hfiles⟩
      rw [hlookup]
      exact returns_done
    | present _ _ hfile _ hthere _ =>
      rw [habsent _ hfile] at hthere
      exact absurd hthere (by simp)

/-- A run of `mfs_write` on a file as a change of worlds. -/
theorem run_mfsWrite_world (buf : List UInt8) (offset : Int) (now : UInt64)
    (h : FsInv N.toNat d) (hN4 : N.toNat ≤ 4096) (hpath : pathName path = some name)
    (h1 : name.val ≠ [46]) (h2 : name.val ≠ [46, 46]) (hn : Named d name.val s n) :
    ∃ m w', WriteReply buf offset (content d n).length m
        (run (mfsWrite (formatSuperblock N) path buf offset now) d).1 ∧
      Guar n h.world w' ∧
      w'.disk = (run (mfsWrite (formatSuperblock N) path buf offset now) d).2 ∧
      Appended n (inodeAt d n).mode (content d n ++ buf.take m) w' := by
  have hwp : wp (writer N.toNat n False) (mfsWrite (formatSuperblock N) path buf offset now) _
      h.world :=
    wp_mfsWrite hpath h1 h2 hn (h.appended hn.toFileAt.isFile) rfl hN4
  obtain ⟨w', hguar, hdisk, hpost⟩ := run_of_wp hwp
  obtain ⟨m, hreply, happ⟩ := hpost id
  exact ⟨m, w', hreply, hguar, hdisk, happ⟩

/-- **A run of `mfs_write`** on a file appends a prefix of the buffer, and its return value
says which. -/
theorem run_mfsWrite (buf : List UInt8) (offset : Int) (now : UInt64) (h : FsInv N.toNat d)
    (hN4 : N.toNat ≤ 4096) (hpath : pathName path = some name) (h1 : name.val ≠ [46])
    (h2 : name.val ≠ [46, 46]) (hn : Named d name.val s n) :
    ∃ m, WriteReply buf offset (content d n).length m
        (run (mfsWrite (formatSuperblock N) path buf offset now) d).1 ∧
      FsInv N.toNat (run (mfsWrite (formatSuperblock N) path buf offset now) d).2 ∧
      files (run (mfsWrite (formatSuperblock N) path buf offset now) d).2 =
        Function.update (files d) name.val
          (some ⟨(inodeAt d n).mode &&& 0o777, content d n ++ buf.take m⟩) := by
  obtain ⟨m, w', hreply, hguar, hdisk, happ⟩ :=
    run_mfsWrite_world buf offset now h hN4 hpath h1 h2 hn
  refine ⟨m, hreply, ?_, ?_⟩
  · exact hdisk ▸ h.of_appended hguar happ
  · exact hdisk ▸ h.files_of_appended hguar happ hn

end Handler

end OsProjects.Mfs
