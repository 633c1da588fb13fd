import OsProjects.Mfs.Directory

/-!
# Calls — the handlers behind one interface, and the images they lead to

FUSE calls one handler at a time here. `Reachable N d` says that `d` is the image of a
disk of `N` blocks that was formatted by `make_mfs` and then served some sequence of
calls, every block transfer succeeding. The kernel resolves `.` and `..` itself, so no
path names them (`Resolved`).
-/

namespace OsProjects.Mfs

open Bytes Prog

/-- A request to one of the handlers. -/
inductive Call
  | getattr (path : CString)
  | readdir (path : CString)
  | create (path : CString) (mode : UInt32) (now : UInt64)
  | openFile (path : CString)
  | unlink (path : CString)
  | read (path : CString) (size : Nat) (offset : Int)
  | write (path : CString) (buf : List UInt8) (offset : Int) (now : UInt64)

/-- What a handler hands back. -/
inductive Reply
  | status (rc : Int)
  | attr (result : Except Int Stat)
  | names (result : Except Int (List (List UInt8)))
  | data (rc : Int) (buf : List UInt8)

/-- `mfs_oper`. -/
def handle (superblock : MfsSuperblock) : Call → Io Reply
  | .getattr path => return .attr (← mfsGetattr path)
  | .readdir path => return .names (← mfsReaddir path)
  | .create path mode now => return .status (← mfsCreate path mode now)
  | .openFile path => return .status (← mfsOpen path)
  | .unlink path => return .status (← mfsUnlink superblock path)
  | .read path size offset => do
    let (rc, buf) ← mfsRead path size offset
    return .data rc buf
  | .write path buf offset now => return .status (← mfsWrite superblock path buf offset now)

def Call.path : Call → CString
  | .getattr path => path
  | .readdir path => path
  | .create path _ _ => path
  | .openFile path => path
  | .unlink path => path
  | .read path _ _ => path
  | .write path _ _ _ => path

/-- The calls that do not change the image. -/
def Call.Reads : Call → Prop
  | .getattr _ | .readdir _ | .openFile _ | .read _ _ _ => True
  | .create _ _ _ | .unlink _ | .write _ _ _ _ => False

/-- The path names neither `.` nor `..`. -/
def Resolved (path : CString) : Prop := path.val ≠ [47, 46] ∧ path.val ≠ [47, 46, 46]

instance (path : CString) : Decidable (Resolved path) :=
  inferInstanceAs (Decidable (path.val ≠ [47, 46] ∧ path.val ≠ [47, 46, 46]))

/-- The image after a call. -/
def after (N : UInt32) (c : Call) (d : Disk) : Disk := (run (handle (formatSuperblock N) c) d).2

/-- The reply of a call. -/
def reply (N : UInt32) (c : Call) (d : Disk) : Reply := (run (handle (formatSuperblock N) c) d).1

section Status

variable {N : UInt32} {path : CString} {d : Disk} {now : UInt64}

theorem after_create {mode : UInt32} :
    after N (.create path mode now) d = (run (mfsCreate path mode now) d).2 ∧
      reply N (.create path mode now) d = .status (run (mfsCreate path mode now) d).1 := by
  rw [after, reply, handle, run_bind]
  exact ⟨rfl, rfl⟩

theorem after_unlink :
    after N (.unlink path) d = (run (mfsUnlink (formatSuperblock N) path) d).2 ∧
      reply N (.unlink path) d = .status (run (mfsUnlink (formatSuperblock N) path) d).1 := by
  rw [after, reply, handle, run_bind]
  exact ⟨rfl, rfl⟩

theorem after_write {buf : List UInt8} {offset : Int} :
    after N (.write path buf offset now) d =
        (run (mfsWrite (formatSuperblock N) path buf offset now) d).2 ∧
      reply N (.write path buf offset now) d =
        .status (run (mfsWrite (formatSuperblock N) path buf offset now) d).1 := by
  rw [after, reply, handle, run_bind]
  exact ⟨rfl, rfl⟩

end Status

/-- The image `make_mfs` leaves on a disk that held `old`. -/
def format (N : UInt32) (now : UInt64) (old : Disk) : Disk := (run (makeMfs N now) old).2

/-- The images of a disk of `N` blocks between two calls. -/
inductive Reachable (N : UInt32) : Disk → Prop
  | format (old : Disk) (now : UInt64) (accepted : (run (makeMfs N now) old).1 = 0) :
      Reachable N (format N now old)
  | call {d : Disk} (c : Call) (h : Reachable N d) (resolved : Resolved c.path) :
      Reachable N (after N c d)

/-- `path_name` strips the leading slash, and no other slash is left. -/
theorem pathName_some {path name : CString} (hpath : pathName path = some name) :
    path.val = 47 :: name.val ∧ 47 ∉ name.val := by
  unfold pathName at hpath
  by_cases hroot : path.val = [47]
  · -- the root directory: the empty name
    rw [if_pos hroot] at hpath
    injection hpath with hname
    subst hname
    exact ⟨hroot, by simp⟩
  · rw [if_neg hroot] at hpath
    by_cases hslash : path.val.head? ≠ some 47 ∨ 47 ∈ path.val.tail
    · rw [if_pos hslash] at hpath
      exact absurd hpath (by simp)
    · rw [if_neg hslash] at hpath
      injection hpath with hname
      subst hname
      simp only [not_or, not_not] at hslash
      -- a slash in front, and none behind it
      obtain ⟨rest, hrest⟩ := List.head?_eq_some_iff.mp hslash.1
      exact ⟨by simp only [hrest, List.tail_cons], hslash.2⟩

/-- A resolved path leads to a name that is not `.` or `..`. -/
theorem Resolved.name {path name : CString} (h : Resolved path)
    (hpath : pathName path = some name) : name.val ≠ [46] ∧ name.val ≠ [46, 46] := by
  have hsplit := (pathName_some hpath).1
  exact ⟨fun hn => h.1 (by rw [hsplit, hn]), fun hn => h.2 (by rw [hsplit, hn])⟩

/-- The name in a path that a handler lets through is one a file can have. -/
theorem validName_of_path {path name : CString} (h : Resolved path)
    (hpath : pathName path = some name) (hne : name.val ≠ []) (hlen : name.val.length ≤ 31) :
    ValidName name.val :=
  ⟨List.length_pos_iff.mpr hne, hlen, name.property, (pathName_some hpath).2,
    (h.name hpath).1, (h.name hpath).2⟩

/-! ## Small images -/

/-- The path `/a`. -/
def pathA : CString := ⟨[47, 97], by decide⟩

/-- A disk of 128 blocks with one file, of one byte. -/
def oneFile : Disk :=
  after 128 (.write pathA [120] 0 0)
    (after 128 (.create pathA 0o644 0) (format 128 0 fun _ => zero))

theorem oneFile_reachable : Reachable 128 oneFile :=
  .call _ (.call _ (.format _ 0 (by decide)) (by decide)) (by decide)

theorem oneFile_named : Named oneFile [97] 2 2 :=
  ⟨⟨by decide, by decide, by decide +kernel, by decide +kernel⟩, by decide +kernel⟩

/-- The path `/b`. -/
def pathB : CString := ⟨[47, 98], by decide⟩

/-- A disk of 128 blocks with two empty files. -/
def twoFiles : Disk :=
  after 128 (.create pathB 0o644 0)
    (after 128 (.create pathA 0o644 0) (format 128 0 fun _ => zero))

theorem twoFiles_reachable : Reachable 128 twoFiles :=
  .call _ (.call _ (.format _ 0 (by decide)) (by decide)) (by decide)

theorem twoFiles_named : Named twoFiles [97] 2 2 ∧ Named twoFiles [98] 3 3 :=
  ⟨⟨⟨by decide, by decide, by decide +kernel, by decide +kernel⟩, by decide +kernel⟩,
    ⟨⟨by decide, by decide, by decide +kernel, by decide +kernel⟩, by decide +kernel⟩⟩

end OsProjects.Mfs
